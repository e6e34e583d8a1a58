import EventSchema.Proofs.Course
import EventSchema.Proofs.Range.Graph
import EventSchema.Proofs.Range.Reading

/-!
Identifiers out of their ranges and extensions that collide in a compilation.

The uid of a category of an extension is scoped as it stands in the file, so one that is not short ends
the compilation with a fault that is neither one of the schema nor one of its files. No other identifier
does: a class or an activity out of its range is told of, counted, and replaced or left out. Extensions
that collide end a compilation where they are found and nowhere else.
-/

set_option autoImplicit false

namespace EventSchema

variable {tree : Tree} {run : Run} {allowed : Fault → Prop}

/-! ### Contributions -/

/-- An extension contributes a category with the uid, a number that is not short. -/
def Contribution.HasLong (c : Contribution) (uid : Value) : Prop :=
  ∃ categories, (Entries.orEmpty "attributes" c.categories).asFields = .ok categories ∧
    ∃ entry ∈ categories, entry.2.at_ "uid" = .ok uid ∧
      ∃ number, uid.asNumber = .ok number ∧ number.below 100 = false

private theorem Contribution.confined_stampCategory {e : Extension} {category : Value}
    (long : ∀ uid number, category.at_ "uid" = .ok uid → uid.asNumber = .ok number →
      number.below 100 = false → allowed (.range (.category uid))) : Confined allowed (stampCategory e category) := by
  unfold stampCategory
  extract_lets finish
  have finished (uid : Value) (given : category.at_ "uid" = .ok uid) : Confined allowed (finish uid) := by
    have full : Confined allowed (Uid.category (.int e.uid) uid) :=
      Uid.confined_category fun number => long uid number given
    simp [finish, full]
  split
  · simp
  · exact Confined.bind_iff.mpr ⟨by simp, finished⟩

private theorem Contribution.confined_stamped {c : Contribution} (long : ∀ uid, c.HasLong uid →
    allowed (.range (.category uid))) :
    Confined allowed c.stamped := by
  unfold stamped
  extract_lets e
  refine Confined.bind_iff.mpr ⟨by simp, fun categories read => ?_⟩
  refine Confined.bind_iff.mpr ⟨Confined.mapM fun entry member => ?_, fun stampedCategories _ => by simp⟩
  have category : Confined allowed (stampCategory e entry.2) := confined_stampCategory
    fun uid number given known notShort => long uid ⟨categories, read, entry, member, given, number, known, notShort⟩
  simp [category]

namespace Compilation

/-- An extension that the compilation finds has a category with the uid, a number that is not short. -/
def HasLongCategory (c : Compilation) (uid : Value) : Prop :=
  ∃ extensions, c.found = .ok extensions ∧ ∃ e ∈ extensions,
    ∃ contribution, c.contribution e = .ok contribution ∧ contribution.HasLong uid

/-- The identifiers out of their ranges that a compilation can end with: the uid of a category that an
extension gives as it is not short, or one that is not a number. -/
def EndsOn (c : Compilation) (fault : RangeFault) : Prop :=
  fault.NotANumber ∨ ∃ uid, fault = .category uid ∧ c.HasLongCategory uid

/-- The singular faults that a compilation can end with: such an identifier, or a collision of the extensions
that it finds. -/
def MayEndWith (c : Compilation) : Fault → Prop
  | .range fault => c.EndsOn fault
  | fault => c.found = .error fault

@[simp]
theorem confined_version (c : Compilation) : Confined allowed (c.version.outcome run).1 := by
  rw [version_eq]
  extract_lets file
  refine Act.confined_attempt_bind (Fragment.confined_load c.tree file) fun outcome after own => ?_
  split
  · split <;> simp
  · simp
  · simpa using Confined.error_iff.mp own

@[simp]
theorem confined_requiredDocument (c : Compilation) (name : Text) :
    Confined allowed ((c.requiredDocument name).outcome run).1 := by
  unfold requiredDocument
  extract_lets file
  refine Act.confined_attempt_bind (Fragment.confined_load c.tree file) fun outcome after own => ?_
  split
  · simp
  · simp
  · simpa using Confined.error_iff.mp own

private theorem confined_locateExtensions (c : Compilation) (version : Value) :
    Confined (fun fault => ∃ cause, fault = .integrity cause) ((c.locateExtensions version).outcome run).1 := by
  simp [locateExtensions, Extension.confined_validate]

@[simp]
theorem confined_readAll (c : Compilation) (categories dictionary : Fields) (extensions : List Extension) :
    Confined allowed ((c.readAll categories dictionary extensions).outcome run).1 := by
  unfold readAll
  extract_lets s scan
  have placed (name : Text) : Confined allowed (scan.places.find scan.tree name) :=
    Include.confined_schema c.tree name s.schema
  refine Act.confined_attempt_bind (Scan.confined_items placed _ _) fun classes after inClasses => ?_
  refine Act.confined_attempt_bind (Scan.confined_items placed _ _) fun objects after inObjects => ?_
  refine Act.confined_attempt_bind (Scan.confined_items placed _ _) fun profiles after inProfiles => ?_
  refine Act.confined_bind_iff.mpr ⟨Act.confined_mapM fun e _ run => by simp, fun contributions after ran => ?_⟩
  have each : ∀ outcome ∈ contributions, Confined allowed outcome := by
    have tried := Act.yields_mapM (.of_outcome ran)
    intro outcome member
    obtain ⟨e, _, _, _, attempted⟩ := exists_left_of_mem tried member
    rw [Act.outcome_attempt] at attempted
    cases attempted
    exact Contribution.confined_read c.tree s.schema s.duplicates e
  have contributed : Confined allowed (contributions.mapM id) := Confined.mapM each
  simp [inClasses, inObjects, inProfiles, contributed]

private theorem confined_prepare {c : Contribution} (long : ∀ uid, c.HasLong uid → allowed (.range (.category uid))) :
    Confined allowed ((prepare c).outcome run).1 := by
  simp [prepare, Contribution.confined_stamped long]

@[simp]
theorem confined_addCategories (e : Extension) (base new : Fields) : Confined allowed (addCategories e base new) := by
  simp [addCategories, Confined.foldlM]

@[simp]
theorem confined_add (s : Sources) (c : Contribution) : Confined allowed ((s.add c).outcome run).1 := by
  simp [Sources.add]

@[simp]
theorem confined_definitions (s : Sources) (version : Value) (extensions : List Extension) :
    Confined allowed ((s.definitions version extensions).outcome run).1 := by
  simp [Sources.definitions]

private theorem confined_build {c : Compilation} (faithful : run.Faithful c.tree) :
    Confined c.MayEndWith (c.build.outcome run).1 := by
  unfold build
  refine Act.confined_bind_iff.mpr ⟨by simp, fun version opened naming => ?_⟩
  obtain ⟨naming, faithful⟩ := c.fixed_version.step faithful naming
  refine Act.confined_bind_iff.mpr ⟨by simp, fun categories opened read => ?_⟩
  obtain ⟨_, faithful⟩ := (c.fixed_requiredDocument _).step faithful read
  refine Act.confined_bind_iff.mpr ⟨by simp, fun dictionary opened read => ?_⟩
  obtain ⟨_, faithful⟩ := (c.fixed_requiredDocument _).step faithful read
  have collides : Confined c.MayEndWith ((c.locateExtensions version).outcome opened).1 := by
    intro fault ended singular
    obtain ⟨cause, rfl⟩ := c.confined_locateExtensions version fault ended singular
    change c.found = .error (.integrity cause)
    rw [Compilation.found, naming, ok_bind, ← (c.fixed_locateExtensions version opened faithful).1, ended]
  refine Act.confined_bind_iff.mpr ⟨collides, fun extensions opened locating => ?_⟩
  obtain ⟨locating, faithful⟩ := (c.fixed_locateExtensions version).step faithful locating
  refine Act.confined_bind_iff.mpr ⟨by simp, fun read opened reading => ?_⟩
  obtain ⟨reading, _⟩ := (c.fixed_readAll categories dictionary extensions).step faithful reading
  have contributing := (readAll_ok reading).2
  have found : c.found = .ok extensions := by rw [Compilation.found, naming, ok_bind, locating]
  refine Act.confined_bind_iff.mpr ⟨Act.confined_mapM fun contribution member run => ?_, fun prepared opened _ => ?_⟩
  · refine confined_prepare fun uid long => .inr ⟨uid, rfl, extensions, found, ?_⟩
    obtain ⟨e, known, contributes⟩ := exists_left_of_mem (mapM_eq_ok.mp contributing) member
    exact ⟨e, known, contribution, contributes, long⟩
  · refine Act.confined_bind_iff.mpr ⟨Act.confined_foldlM fun _ _ _ _ => by simp, fun sources opened _ => ?_⟩
    refine Act.confined_bind_iff.mpr ⟨by simp, fun d opened _ => ?_⟩
    exact Graph.confined_of_scopes (fun _ _ _ _ nan => .inl nan) opened

private theorem confined_run (c : Compilation) (run : Run) : Confined c.MayEndWith (c.run.outcome run).1 := by
  unfold Compilation.run
  extract_lets opened started
  have built (run : Run) : Confined c.MayEndWith ((opened ()).outcome run).1 := by
    refine Act.confined_bind_iff.mpr ⟨by simp [openCache], fun _ empty opening => ?_⟩
    have emptied := (tells_of_openCache opening).2
    have faithful : empty.Faithful c.tree := fun path fragment found => by rw [emptied] at found; cases found
    refine Act.confined_bind_iff.mpr ⟨?_, fun graph after _ => by simp [summarize]⟩
    refine Act.confined_attempt_bind (confined_build faithful) fun outcome after own => ?_
    refine Act.confined_bind_iff.mpr ⟨by simp [clearCache], fun _ after _ => ?_⟩
    cases outcome with
    | ok graph => simp
    | error fault => simpa using Confined.error_iff.mp own
  simp [started, built]

end Compilation

theorem Settings.confined_compile (s : Settings) (tree : Tree) (run : Run) :
    Confined (s.compilation tree).MayEndWith ((s.compile tree).outcome run).1 := by
  refine Act.confined_bind_iff.mpr ⟨by simp [announce], fun _ announced _ => ?_⟩
  exact (s.compilation tree).confined_run announced

theorem Settings.inRange_compile (s : Settings) (tree : Tree) (run : Run) :
    InRange (s.compilation tree).EndsOn ((s.compile tree).outcome run).1 :=
  (s.confined_compile tree run).inRange fun _ ends => ends

end EventSchema
