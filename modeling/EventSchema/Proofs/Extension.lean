import EventSchema.Compilation
import EventSchema.Proofs.Outcome

/-!
The extensions that are found.

An extension has the name and the uid of its manifest, and no name has a slash. No two extensions of a
compilation have a folder, a name or a uid in common, so their scopes are apart from each other; two that have
a name or a uid in common end it.
-/

set_option autoImplicit false

namespace EventSchema

theorem foldl_unless_known {α β : Type} [DecidableEq β] (key : α → β) (known : List α) {items : List α}
    (distinct : (items.map key).Nodup) :
    items.foldl (fun known item => if known.any fun other => key other = key item then known else known ++ [item])
      known = known ++ items.filter fun item => !(known.any fun other => key other = key item) := by
  induction items generalizing known with
  | nil => exact (List.append_nil known).symm
  | cons head rest ih =>
      obtain ⟨own, others⟩ := List.nodup_cons.mp distinct
      rw [List.foldl_cons, List.filter_cons]
      by_cases before : (known.any fun other => key other = key head) = true
      · rw [if_pos before, before, Bool.not_true, if_neg Bool.false_ne_true]
        exact ih known others
      · rw [if_neg before, ih _ others, (Bool.not_eq_true _).mp before, Bool.not_false, if_pos rfl,
          List.append_assoc, List.singleton_append]
        congr 2
        refine List.filter_congr fun item member => ?_
        have apart : key head ≠ key item := fun same => own (same ▸ List.mem_map_of_mem member)
        rw [List.any_append, List.any_cons, List.any_nil, decide_eq_false apart, Bool.or_false, Bool.or_false]

namespace Extension

structure Identifies (tree : Tree) (manifest : Path) (name : Text) (uid : Int) : Prop where
  given : ∃ info, Fragment.readObject tree manifest = .ok info ∧ Entries.orNull "name" info = .text name ∧
    Entries.orNull "uid" info = .int uid
  some : name.isEmpty = false
  plain : name.hasSlash = false

theorem Identifies.unique {tree : Tree} {manifest : Path} {name other : Text} {uid number : Int}
    (one : Identifies tree manifest name uid) (two : Identifies tree manifest other number) :
    name = other ∧ uid = number := by
  obtain ⟨info, read, named, numbered⟩ := one.given
  obtain ⟨info', read', named', numbered'⟩ := two.given
  cases read.symm.trans read'
  exact ⟨Value.text.inj (named.symm.trans named'), Value.int.inj (numbered.symm.trans numbered')⟩

theorem read_ok {tree : Tree} {manifest : Path} {isPlatform : Bool} {version : Value} {e : Extension}
    (ran : read tree manifest isPlatform version = .ok e) :
    Identifies tree manifest e.name e.uid ∧ e.path = manifest.parent := by
  unfold read at ran
  obtain ⟨info, opened, ran⟩ := bind_eq_ok.mp ran
  extract_lets field chosen numbered at ran
  obtain ⟨uid, numbering, ran⟩ : ∃ uid, field "uid" = .int uid ∧ numbered uid = .ok e := by
    split at ran
    · exact ⟨_, ‹_›, ran⟩
    · obtain ⟨_, impossible, _⟩ := bind_eq_ok.mp ran
      cases impossible
  unfold numbered at ran
  extract_lets named at ran
  obtain ⟨name, naming, full, ran⟩ : ∃ name, field "name" = .text name ∧ name.isEmpty = false ∧
      named name = .ok e := by
    split at ran
    · split at ran
      · obtain ⟨_, impossible, _⟩ := bind_eq_ok.mp ran
        cases impossible
      · exact ⟨_, ‹_›, (Bool.not_eq_true _).mp ‹_›, ran⟩
    · obtain ⟨_, impossible, _⟩ := bind_eq_ok.mp ran
      cases impossible
  unfold named at ran
  split at ran
  · obtain ⟨_, impossible, _⟩ := bind_eq_ok.mp ran
    cases impossible
  · rename_i plain
    rw [← pure_eq_ok.mp ran]
    exact ⟨⟨⟨info, opened, naming, numbering⟩, full, (Bool.not_eq_true _).mp plain⟩, rfl⟩

theorem Identifies.exists_read {tree : Tree} {manifest : Path} {name : Text} {uid : Int}
    (identifies : Identifies tree manifest name uid) (isPlatform : Bool) (version : Value) :
    ∃ e, read tree manifest isPlatform version = .ok e := by
  obtain ⟨⟨info, opened, named, numbered⟩, full, plain⟩ := identifies
  unfold read
  rw [opened, ok_bind]
  simp only [named, numbered, full, plain, pure_bind, Bool.false_eq_true, if_false]
  exact ⟨_, rfl⟩

private theorem plain_of_read {tree : Tree} {manifest : Path} {isPlatform : Bool} {version : Value}
    {e : Extension} (ran : read tree manifest isPlatform version = .ok e) : e.name.hasSlash = false :=
  (read_ok ran).1.plain

private theorem plain_of_locate {tree : Tree} {home : Path} {paths : List Path} {isPlatform : Bool}
    {version : Value} {extensions : List Extension}
    (ran : (locate tree home paths isPlatform version).Yields extensions) :
    ∀ e ∈ extensions, e.name.hasSlash = false := by
  unfold locate at ran
  obtain ⟨found, _, ran⟩ := Act.yields_bind ran
  intro e member
  obtain ⟨⟨folder, manifest⟩, _, reads⟩ := exists_left_of_mem (Act.yields_mapM ran) member
  obtain ⟨own, read, reads⟩ := Act.yields_bind reads
  obtain ⟨_, _, same⟩ := Act.yields_bind reads
  exact Act.yields_pure.mp same ▸ plain_of_read (Act.yields_lift.mp read)

def Apart (first second : Extension) : Prop := first.uid ≠ second.uid ∧ first.name ≠ second.name

private theorem collision?_eq_none_iff {before : List Extension} {e : Extension} :
    collision? before e = none ↔ ∀ other ∈ before, Apart other e := by
  unfold collision? Apart
  cases uids : before.find? fun other => other.uid = e.uid with
  | some other =>
      refine iff_of_false (fun impossible => by cases impossible) fun apart => ?_
      exact (apart other (List.mem_of_find?_eq_some uids)).1 (by simpa using List.find?_some uids)
  | none =>
      have numbers := List.find?_eq_none.mp uids
      cases names : before.find? fun other => other.name = e.name with
      | some other =>
          refine iff_of_false (fun impossible => by cases impossible) fun apart => ?_
          exact (apart other (List.mem_of_find?_eq_some names)).2 (by simpa using List.find?_some names)
      | none =>
          refine iff_of_true rfl fun other member => ⟨?_, ?_⟩
          · simpa using numbers other member
          · simpa using List.find?_eq_none.mp names other member

theorem validateAfter_ok_iff {before extensions : List Extension} : validateAfter before extensions = .ok () ↔
    (∀ e ∈ extensions, ∀ other ∈ before, Apart other e) ∧ extensions.Pairwise Apart := by
  induction extensions generalizing before with
  | nil => exact iff_of_true rfl ⟨List.forall_mem_nil _, List.Pairwise.nil⟩
  | cons head rest ih =>
      rw [validateAfter, List.forall_mem_cons, List.pairwise_cons, ← collision?_eq_none_iff]
      cases collides : collision? before head with
      | some fault => exact iff_of_false (fun impossible => by cases impossible) fun free => by cases free.1.1
      | none =>
          dsimp only
          rw [ih]
          simp only [List.forall_mem_append, List.forall_mem_singleton]
          constructor
          · rintro ⟨earlier, later⟩
            exact ⟨⟨trivial, fun e member => (earlier e member).1⟩, fun e member => (earlier e member).2, later⟩
          · rintro ⟨⟨_, earlier⟩, own, later⟩
            exact ⟨fun e member => ⟨earlier e member, own e member⟩, later⟩

end Extension

namespace Compilation

def locatePlatform (c : Compilation) (version : Value) : Act (List Extension) :=
  let s := c.settings
  if !s.ignorePlatform && c.tree.isFolder s.platformFolder then
    Extension.locate c.tree s.schema [s.platformFolder] true version
  else pure []

theorem locateExtensions_eq (c : Compilation) (version : Value) : c.locateExtensions version = do
    let platform ← c.locatePlatform version
    let given ← Extension.locate c.tree c.settings.schema c.settings.extensionPaths false version
    (Extension.validate (addLocated platform given) : Except Fault Unit)
    return addLocated platform given := by
  unfold locateExtensions locatePlatform
  extract_lets s rest
  split
  · rfl
  · rfl

theorem locateExtensions_ok {c : Compilation} {version : Value} {extensions : List Extension}
    (ran : (c.locateExtensions version).Yields extensions) : ∃ platform given,
      (c.locatePlatform version).Yields platform ∧
      (Extension.locate c.tree c.settings.schema c.settings.extensionPaths false version).Yields given ∧
      extensions = addLocated platform given ∧ extensions.Pairwise Extension.Apart := by
  rw [locateExtensions_eq] at ran
  obtain ⟨platform, own, ran⟩ := Act.yields_bind ran
  obtain ⟨given, others, ran⟩ := Act.yields_bind ran
  obtain ⟨_, valid, ran⟩ := Act.yields_bind ran
  cases Act.yields_pure.mp ran
  exact ⟨platform, given, own, others, rfl, (Extension.validateAfter_ok_iff.mp (Act.yields_lift.mp valid)).2⟩

private theorem plain_of_locatePlatform {c : Compilation} {version : Value} {extensions : List Extension}
    (ran : (c.locatePlatform version).Yields extensions) : ∀ e ∈ extensions, e.name.hasSlash = false := by
  unfold locatePlatform at ran
  extract_lets s at ran
  split at ran
  · exact Extension.plain_of_locate ran
  · cases Act.yields_pure.mp ran
    exact List.forall_mem_nil _

private theorem mem_of_mem_addLocated {known located : List Extension} {e : Extension}
    (member : e ∈ addLocated known located) : e ∈ known ∨ e ∈ located := by
  unfold addLocated at member
  induction located generalizing known with
  | nil => exact Or.inl member
  | cons head rest ih =>
      rcases ih member with before | later
      · dsimp only at before
        split at before
        · exact Or.inl before
        · rcases List.mem_append.mp before with known | here
          · exact Or.inl known
          · exact Or.inr (List.mem_singleton.mp here ▸ List.mem_cons_self ..)
      · exact Or.inr (List.mem_cons_of_mem _ later)

theorem distinct_of_locateExtensions {c : Compilation} {version : Value} {extensions : List Extension}
    (ran : (c.locateExtensions version).Yields extensions) :
    (∀ e ∈ extensions, e.name.hasSlash = false) ∧
      extensions.Pairwise fun first second => first.name ≠ second.name := by
  obtain ⟨platform, given, own, others, rfl, apart⟩ := locateExtensions_ok ran
  refine ⟨fun e member => ?_, apart.imp And.right⟩
  rcases mem_of_mem_addLocated member with known | located
  · exact plain_of_locatePlatform own e known
  · exact Extension.plain_of_locate others e located

end Compilation

end EventSchema
