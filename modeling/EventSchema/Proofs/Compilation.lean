import EventSchema.Compilation
import EventSchema.Proofs.Contribution.Clear
import EventSchema.Proofs.Graph.Stages
import EventSchema.Proofs.Reading
import EventSchema.Proofs.Steady

/-!
A compilation step by step.

A compilation that gives a graph has read the base schema and the extensions, prepared what the
extensions contribute, merged it in their order, and built the graph of the outcome. What it has read
is what the files say.

Preparing what extensions contribute, merging it and patching items read nothing: what comes of it and
what is told on the way are the same from every run.
-/

set_option autoImplicit false

namespace EventSchema

/-! ### Merging is steady -/

namespace Contribution

open Act (steady_pure steady_throw steady_lift steady_note)

private theorem steady_withScopedProfiles (c : Contribution) : c.withScopedProfiles.Steady := by
  unfold withScopedProfiles
  refine (steady_lift _).bind fun classes => (steady_lift _).bind fun classPatches => ?_
  refine (steady_lift _).bind fun objects => (steady_lift _).bind fun objectPatches => ?_
  exact (steady_note rfl).bind fun _ => steady_pure _

private theorem steady_contributed (extension : Extension) (name : Text) (new existing : Value) :
    (contributed extension name new existing).Steady := by
  unfold contributed
  split
  · exact steady_pure _
  · refine (steady_lift _).bind fun fields => (steady_lift _).bind fun _ => ?_
    exact (steady_note rfl).bind fun _ => steady_pure _

private theorem steady_mergeAttributes (extension : Extension) (base : Value) (new : List (Text × Value)) :
    (mergeAttributes extension base new).Steady := by
  induction base, new using mergeAttributes.induct with
  | case1 base =>
      rw [mergeAttributes]
      exact steady_pure _
  | case2 base name value later ih =>
      rw [mergeAttributes]
      refine (steady_lift _).bind fun attributes => ?_
      exact (steady_contributed extension name value _).bind fun given => ih attributes given

private theorem steady_extendDictionary (c : Contribution) (dictionary : Fields) :
    (c.extendDictionary dictionary).Steady := by
  unfold extendDictionary
  refine (steady_lift _).bind fun new => ?_
  extract_lets new
  refine (steady_mergeAttributes c.extension _ new).bind fun attributes => ?_
  refine (steady_lift _).bind fun types => (steady_lift _).bind fun newTypes => ?_
  refine (steady_lift _).bind fun newTypes => ?_
  exact (Act.steady_foldlM _ fun _ _ _ => steady_lift _).bind fun _ => steady_pure _

end Contribution

namespace Patch

open Act (steady_pure steady_throw steady_lift steady_note steady_leaveUnresolved)

private theorem steady_apply (kind : ItemKind) (items : Entries Fields) (name : Text) (patch : Fields) :
    (apply kind items name patch).Steady := by
  unfold apply
  refine (steady_lift _).bind fun patcher => ?_
  extract_lets context
  split
  · exact (steady_leaveUnresolved _).bind fun _ => steady_pure _
  · split
    · exact steady_throw _
    · exact (steady_note rfl).bind fun _ => (steady_lift _).bind fun _ => steady_pure _

private theorem steady_applyAll (kind : ItemKind) (items : Entries Fields) (patches : Patches) :
    (applyAll kind items patches).Steady :=
  Act.steady_foldlM items fun items entry _ =>
    Act.steady_foldlM items fun items patch _ => steady_apply kind items entry.1 patch

end Patch

namespace Compilation

open Act (steady_pure steady_lift)

theorem steady_prepare (c : Contribution) : (prepare c).Steady :=
  (steady_lift _).bind fun stamped => stamped.steady_withScopedProfiles

theorem steady_add (s : Sources) (c : Contribution) : (s.add c).Steady :=
  (steady_lift _).bind fun _ => (c.steady_extendDictionary s.dictionary).bind fun _ => steady_pure _

theorem steady_definitions (s : Sources) (version : Value) (extensions : List Extension) :
    (s.definitions version extensions).Steady :=
  (Patch.steady_applyAll _ _ _).bind fun _ => (Patch.steady_applyAll _ _ _).bind fun _ => steady_pure _

end Compilation

/-! ### The steps of a compilation -/

namespace Compilation

structure Steps (c : Compilation) (graph : Graph) where
  version : Value
  extensions : List Extension
  base : Sources
  contributions : List Contribution
  prepared : List Contribution
  sources : Sources
  definitions : Definitions
  naming : c.version.content = .ok version
  locating : (c.locateExtensions version).content = .ok extensions
  reading : c.baseSchema = .ok base
  contributing : extensions.mapM c.contribution = .ok contributions
  preparing : (contributions.mapM prepare).Yields prepared
  merging : (prepared.foldlM Sources.add base).Yields sources
  defining : (sources.definitions version extensions).Yields definitions
  building : (Graph.ofDefinitions definitions).Yields graph

/-- A build that gives a graph has ended with the graph of its definitions, after what it told on the way
to them. -/
theorem exists_building {c : Compilation} {graph : Graph} {run after : Run} (faithful : run.Faithful c.tree)
    (built : c.build.outcome run = (.ok graph, after)) : ∃ steps : Steps c graph, ∃ before,
      run.Tells before ∧ (Graph.ofDefinitions steps.definitions).outcome before = (.ok graph, after) := by
  unfold build at built
  obtain ⟨version, first, ran, built⟩ := Act.outcome_bind_ok built
  have told := c.fixed_version.tells faithful ran
  obtain ⟨naming, faithful⟩ := c.fixed_version.step faithful ran
  obtain ⟨categories, second, ran, built⟩ := Act.outcome_bind_ok built
  have told := told.trans ((c.fixed_requiredDocument _).tells faithful ran)
  obtain ⟨readCategories, faithful⟩ := (c.fixed_requiredDocument _).step faithful ran
  obtain ⟨dictionary, third, ran, built⟩ := Act.outcome_bind_ok built
  have told := told.trans ((c.fixed_requiredDocument _).tells faithful ran)
  obtain ⟨readDictionary, faithful⟩ := (c.fixed_requiredDocument _).step faithful ran
  obtain ⟨extensions, fourth, ran, built⟩ := Act.outcome_bind_ok built
  have told := told.trans ((c.fixed_locateExtensions version).tells faithful ran)
  obtain ⟨locating, faithful⟩ := (c.fixed_locateExtensions version).step faithful ran
  obtain ⟨⟨base, contributions⟩, fifth, ran, built⟩ := Act.outcome_bind_ok built
  have told := told.trans ((c.fixed_readAll _ _ _).tells faithful ran)
  obtain ⟨read, _⟩ := (c.fixed_readAll _ _ _).step faithful ran
  -- what is left reads nothing
  obtain ⟨prepared, sixth, preparing, built⟩ := Act.outcome_bind_ok built
  obtain ⟨sources, seventh, merging, built⟩ := Act.outcome_bind_ok built
  obtain ⟨definitions, before, defining, building⟩ := Act.outcome_bind_ok built
  have told := told.trans (.of_steady (Act.steady_mapM fun contribution _ => steady_prepare contribution) preparing)
  have told := told.trans (.of_steady (Act.steady_foldlM _ fun sources contribution _ =>
    steady_add sources contribution) merging)
  have told := told.trans (.of_steady (steady_definitions sources version extensions) defining)
  obtain ⟨⟨classes, objects, profiles, inClasses, inObjects, inProfiles, same⟩, contributing⟩ :=
    readAll_ok read
  have reading : c.baseSchema = .ok base := by
    unfold baseSchema
    rw [readCategories, ok_bind, readDictionary, ok_bind, inClasses, ok_bind, inObjects, ok_bind,
      inProfiles, ok_bind, same]
    rfl
  refine ⟨{
    version, extensions, base, contributions, prepared, sources, definitions, naming
    locating, reading, contributing
    preparing := .of_outcome preparing
    merging := .of_outcome merging
    defining := .of_outcome defining
    building := .of_outcome building }, before, told, building⟩

theorem exists_steps {c : Compilation} {graph : Graph} (built : c.build.Settles c.tree graph) :
    Nonempty (Steps c graph) := by
  obtain ⟨run, faithful, same⟩ := built
  obtain ⟨steps, _⟩ := exists_building faithful (Prod.ext same rfl)
  exact ⟨steps⟩

def found (c : Compilation) : Except Fault (List Extension) := do
  (c.locateExtensions (← c.version.content)).content

theorem extension_contribution {c : Compilation} {e : Extension} {contribution : Contribution}
    (ran : c.contribution e = .ok contribution) : contribution.extension = e := by
  obtain ⟨_, _, _, _, _, _, _, _, _, _, rfl⟩ := Contribution.read_ok ran
  rfl

def Prepares (c : Compilation) (e : Extension) (prepared : Contribution) : Prop :=
  ∃ contribution, c.contribution e = .ok contribution ∧ (prepare contribution).Yields prepared

theorem prepares_unique (c : Compilation) : Relator.RightUnique c.Prepares := by
  rintro e first second ⟨contribution, read, one⟩ ⟨other, read', two⟩
  cases read.symm.trans read'
  exact Contribution.agree_prepare contribution first second one two

theorem extension_of_prepares {c : Compilation} {e : Extension} {prepared : Contribution}
    (prepares : c.Prepares e prepared) : prepared.extension = e := by
  obtain ⟨contribution, read, ran⟩ := prepares
  rw [Contribution.extension_prepare ran, extension_contribution read]

theorem Steps.prepares {c : Compilation} {graph : Graph} (steps : Steps c graph) :
    List.Forall₂ c.Prepares steps.extensions steps.prepared := by
  have read := mapM_eq_ok.mp steps.contributing
  have ready := Act.yields_mapM steps.preparing
  generalize steps.extensions = extensions at read
  generalize steps.prepared = prepared at ready
  generalize steps.contributions = contributions at read ready
  induction read generalizing prepared with
  | nil =>
      rw [List.forall₂_nil_left_iff.mp ready]
      exact List.Forall₂.nil
  | @cons e contribution rest others one _ ih =>
      obtain ⟨first, later, two, others, rfl⟩ := List.forall₂_cons_left_iff.mp ready
      exact List.Forall₂.cons ⟨contribution, one, two⟩ (ih later others)

theorem Steps.found_eq {c : Compilation} {graph : Graph} (steps : Steps c graph) :
    c.found = .ok steps.extensions := by
  rw [found, steps.naming, ok_bind, steps.locating]

/-- A compilation that gives a graph has built it from a cache that was just opened. -/
theorem settles_of_compile {s : Settings} {tree : Tree} {graph : Graph}
    (compiled : (s.compile tree).Yields graph) :
    (Compilation.build { tree, settings := s }).Settles tree graph := by
  unfold Settings.compile at compiled
  obtain ⟨_, _, compiled⟩ := Act.yields_bind compiled
  unfold run at compiled
  extract_lets opened started at compiled
  have settles (done : Unit) (ran : (opened done).Yields graph) :
      (Compilation.build { tree, settings := s }).Settles tree graph := by
    obtain ⟨built, settled, later⟩ := (Act.settles_of_openCache tree ran).first
    obtain ⟨_, _, later⟩ := Act.yields_bind later
    obtain ⟨_, _, later⟩ := Act.yields_bind later
    have given : built = graph := by
      dsimp only at later
      split at later
      · obtain ⟨_, _, later⟩ := Act.yields_bind later
        exact Act.yields_pure.mp later
      · exact Act.yields_pure.mp later
    exact given ▸ settled.of_finally
  rw [if_neg Bool.false_ne_true] at compiled
  obtain ⟨_, _, compiled⟩ := Act.yields_bind compiled
  split at compiled
  · obtain ⟨_, impossible, _⟩ := Act.yields_bind compiled
    exact absurd impossible Act.not_yields_throw
  · exact settles () compiled

end Compilation

def Settings.compilation (s : Settings) (tree : Tree) : Compilation := { tree, settings := s }

/-- A compilation that gives a graph has gone through all steps. -/
theorem Settings.exists_steps {s : Settings} {tree : Tree} {graph : Graph}
    (compiled : (s.compile tree).Yields graph) :
    Nonempty (Compilation.Steps (s.compilation tree) graph) :=
  Compilation.exists_steps (c := s.compilation tree) (Compilation.settles_of_compile compiled)

end EventSchema
