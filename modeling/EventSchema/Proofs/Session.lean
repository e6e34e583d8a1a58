import EventSchema.Proofs.Fragment
import EventSchema.Proofs.Reading
import EventSchema.Proofs.Value.Keyed

/-!
Reading, expanding and scanning one after another, with one cache.

Every step is fixed by the files, so it comes to the same and counts the same problems as if nothing had
been read before it, whether an earlier step stopped or not. What the steps leave in the cache are the
fragments of the files, under their resolved paths.

A read gives the object that the cache holds, and expansions and scans change what they work on in place.
They leave the cache alone only since they work on copies: whatever is done in place to a fragment that was
read is what the cache holds from then on.
-/

set_option autoImplicit false

namespace EventSchema

/-- One use of the files: a fragment is read, an item is expanded, or a folder is scanned. -/
inductive Step where
  | read (file : Path)
  | expand (places : Places) (context : Text) (origin : Option Path) (item : Fields)
  | items (places : Places) (policy : DuplicatePolicy) (context : Text) (base : Path) (kind : Text)
  | patchable (places : Places) (policy : DuplicatePolicy) (context : Text) (base : Path) (kind : Text)

namespace Step

/-- What a step gives: a fragment as the cache holds it, an expanded item, or what a scan finds. -/
inductive Answer where
  | fragment (borrowed : Aliased)
  | item (expanded : Aliased)
  | items (items : Entries Fields)
  | patchable (found : Scan.Patchable)

def perform (tree : Tree) : Step → Act Answer
  | read file => do return .fragment (← Fragment.borrow tree file)
  | expand places context origin item => do
    return .item (← Include.expandIn tree places context origin (.item item))
  | items places policy context base kind => do
    return .items (← Scan.items { tree, places, policy, context } base kind)
  | patchable places policy context base kind => do
    return .patchable (← Scan.patchable { tree, places, policy, context } base kind)

private theorem fixed_perform (tree : Tree) (step : Step) : (step.perform tree).Fixed tree := by
  cases step with
  | read file => exact (Fragment.fixed_borrow file).bind fun _ _ => Act.fixed_pure _
  | expand places context origin item =>
      exact (Include.fixed_expandIn places context origin item).bind fun _ _ => Act.fixed_pure _
  | items places policy context base kind =>
      exact (Scan.fixed_items { tree, places, policy, context } base kind).bind fun _ _ =>
        Act.fixed_pure _
  | patchable places policy context base kind =>
      exact (Scan.fixed_patchable { tree, places, policy, context } base kind).bind fun _ _ =>
        Act.fixed_pure _

/-- The run after some steps, none of which keeps the next one from being taken. -/
def runAfter (tree : Tree) (steps : List Step) (start : Run) : Run :=
  steps.foldl (fun run step => ((step.perform tree).outcome run).2) start

end Step

/-- The fragments that a run holds are those of the files, under their resolved paths. -/
structure Run.Sound (tree : Tree) (run : Run) : Prop where
  faithful : run.Faithful tree
  resolved : run.Resolved tree

variable {tree : Tree} {run : Run}

private theorem Run.sound_of_empty (empty : run.cache.fragments = []) : run.Sound tree := by
  have absent (path : Path) : run.cache.get? path = none := by
    unfold Cache.get?
    rw [empty]
    rfl
  constructor <;> exact fun path fragment found => by rw [absent] at found; cases found

theorem Run.Sound.step (sound : run.Sound tree) (step : Step) :
    ((step.perform tree).outcome run).2.Sound tree := by
  have continues := (step.fixed_perform tree run sound.faithful).2
  exact ⟨continues.faithful, continues.resolved sound.resolved⟩

theorem Run.Sound.runAfter (sound : run.Sound tree) (steps : List Step) :
    (Step.runAfter tree steps run).Sound tree := by
  induction steps generalizing run with
  | nil => exact sound
  | cons step rest ih => exact ih (sound.step step)

private theorem unaliased_of_map {outcome : Except Fault Fields} {value : Aliased}
    (given : value ∈ (Aliased.item <$> outcome).toOption) : value.aliases = .none := by
  cases outcome with
  | error fault => cases given
  | ok fields =>
      cases given
      rfl

/-- After any steps from an empty cache, the next one comes to the same and has counted the same problems
as from a new cache. Every fragment in the cache is that of the file at its path, which is resolved. A read
gives the object that the cache holds under the path, and adds none if the file cannot be read. What an
expansion or a scan makes of a fragment is a copy, of which no object is in the cache. -/
theorem Step.cache_transparent (tree : Tree) (earlier : List Step) (step : Step)
    (diagnostics : Diagnostics) (notices : List Notice) :
    let run := runAfter tree earlier { diagnostics, notices }
    let shared := (step.perform tree).outcome run
    let alone := (step.perform tree).outcome { run with cache := {} }
    (shared.1 = alone.1 ∧ shared.2.diagnostics = alone.2.diagnostics) ∧
    (∀ path fragment, run.cache.get? path = some fragment →
      tree.resolve path = path ∧ Fragment.ofFile tree path = .ok fragment) ∧
    (∀ (middle : Run) (file : Path), match (Fragment.borrow tree file).outcome middle with
      | (.ok borrowed, after) => ∃ fragment, after.cache.get? (tree.resolve file) = some fragment ∧
          borrowed = .cached (tree.resolve file) fragment
      | (.error _, after) => after.cache = middle.cache) ∧
    (∀ (middle : Run) (places : Places) (context : Text) (origin : Option Path) (item : Fields),
      ∀ expanded ∈ ((Include.expandIn tree places context origin (.item item)).outcome middle).1.toOption,
        expanded.aliases = .none) ∧
    ∀ (middle : Run) (scan : Scan) (kind : Text) (file : Path),
      ∀ document ∈ ((scan.copied kind file).outcome middle).1.toOption, document.aliases = .none := by
  intro run shared alone
  have sound : run.Sound tree := (Run.sound_of_empty rfl).runAfter earlier
  have emptied : ({ run with cache := {} } : Run).Sound tree := Run.sound_of_empty rfl
  obtain ⟨same, continues⟩ := step.fixed_perform tree run sound.faithful
  obtain ⟨fresh, restarts⟩ := step.fixed_perform tree _ emptied.faithful
  refine ⟨⟨same.trans fresh.symm, continues.counts.trans restarts.counts.symm⟩,
    fun path fragment found => ⟨sound.resolved path fragment found, sound.faithful path fragment found⟩,
    fun middle file => Fragment.borrow_cached tree file middle, ?_, ?_⟩
  · intro middle places context origin item expanded given
    rw [Include.expandIn_eq, Act.outcome_map] at given
    exact unaliased_of_map given
  · intro middle scan kind file document given
    rw [Scan.copied_eq, Act.outcome_map] at given
    exact unaliased_of_map given

/-- Two spellings of one path share an entry, and what cannot be read has none. -/
example :
    let tree := Tree.ofDocuments [(["schema", "host.json"], [("name", .text "host")])]
    let steps : List Step :=
      [.read "schema/../schema/host.json", .read "schema/gone.json", .read "schema/host.json"]
    (Step.runAfter tree steps {}).cache.fragments.map Prod.fst = [Path.ofText "/schema/host.json"] := by
  decide +kernel

/-! ### Without copies -/

open Value in
mutual
private theorem replaceAt_placed : (value : Value) → Keyed value → ∀ found ∈ placed value,
    replaceAt found.1 found.2 value = value
  | .object mark fields, keyed, found, member => by
      rw [Keyed] at keyed
      rw [placed] at member
      rcases List.mem_cons.mp member with rfl | below
      · rfl
      · obtain ⟨⟨key, value⟩, inside, place, leads, same⟩ :=
          replaceAt_placedFields fields keyed.2 found below
        have held := Entries.get?_of_mem keyed.1 inside
        rw [leads, replaceAt, held]
        dsimp only
        rw [same, Entries.put_of_get? held]
  | .null, _, _, member | .bool _, _, _, member | .int _, _, _, member | .float _, _, _, member
  | .text _, _, _, member | .array _, _, _, member => by cases member
private theorem replaceAt_placedFields : (fields : List (Text × Value)) → KeyedFields fields →
    ∀ found ∈ placedFields fields, ∃ entry ∈ fields, ∃ place, found.1 = entry.1 :: place ∧
      replaceAt place found.2 entry.2 = entry.2
  | [], _, _, member => by cases member
  | (key, value) :: rest, keyed, found, member => by
      rw [KeyedFields] at keyed
      rw [placedFields] at member
      rcases List.mem_append.mp member with own | later
      · obtain ⟨inner, inside, rfl⟩ := List.mem_map.mp own
        exact ⟨_, List.mem_cons_self, inner.1, rfl, replaceAt_placed value keyed.1 inner inside⟩
      · obtain ⟨entry, inside, place, leads, same⟩ := replaceAt_placedFields rest keyed.2 found later
        exact ⟨entry, List.mem_cons_of_mem _ inside, place, leads, same⟩
end

private theorem get?_write_held {path : Path} {fragment : Fields} {cache : Cache Fields}
    (held : cache.get? path = some fragment) (changes : List (Place × Value))
    (same : ∀ change ∈ changes, Value.replaceAt change.1 change.2 (.record fragment) = .record fragment) :
    ((changes.map fun change => ((path, change.1), change.2)).foldl
      (fun cache change => cache.write change.1 change.2) cache).get? path = some fragment := by
  induction changes generalizing cache with
  | nil => exact held
  | cons change rest ih =>
      obtain ⟨own, others⟩ := List.forall_mem_cons.mp same
      refine ih ?_ others
      unfold Cache.write
      dsimp only
      rw [held]
      dsimp only
      rw [own]
      exact (Cache.get?_put path path fragment cache).trans (if_pos rfl)

/-- What is done in place to a fragment that was read is what the cache holds from then on. -/
theorem Aliased.write_cached {path : Path} {held changed : Fields} {run : Run}
    (found : run.cache.get? path = some held) (keyed : Value.Keyed (.record changed)) :
    (({ cached path held with value := .record changed } : Aliased).write.outcome run).2.cache.get? path =
      some changed := by
  have lends : ({ cached path held with value := .record changed } : Aliased).lent =
      (Value.placed (.record changed)).map fun change => ((path, change.1), change.2) :=
    congrFun List.filterMap_eq_map _
  have written : (run.cache.write (path, []) (.record changed)).get? path = some changed := by
    unfold Cache.write
    dsimp only
    rw [found]
    exact (Cache.get?_put path path changed run.cache).trans (if_pos rfl)
  have folded : (({ cached path held with value := .record changed } : Aliased).write.outcome run).2.cache =
      ({ cached path held with value := .record changed } : Aliased).lent.foldl
        (fun cache change => cache.write change.1 change.2) run.cache := rfl
  rw [folded, lends]
  refine get?_write_held written _ fun change member => ?_
  exact replaceAt_placed (.record changed) keyed change (List.mem_cons_of_mem _ member)

def includingFiles : Tree where
  root := .folder [
    ("login.json", .spelling [("attributes", .record [(Include.directive, .text "profiles/host.json")])]),
    ("profiles", .folder [("host.json", .spelling [("attributes", .record [("device", .record [])])])])]
  directory := []

theorem Include.expandIn_changes_cached : ∃ expanded : Fields,
    (do
      let borrowed ← Fragment.borrow includingFiles "login.json"
      let _ ← expandIn includingFiles (.schema "/") "" none borrowed
      return (← Fragment.borrow includingFiles "login.json").fields : Act Fields).Yields expanded ∧
    (Fragment.ofFile includingFiles "/login.json").toOption ≠ some expanded := by
  have evaluated : ((do
      let borrowed ← Fragment.borrow includingFiles "login.json"
      let _ ← expandIn includingFiles (.schema "/") "" none borrowed
      return (← Fragment.borrow includingFiles "login.json").fields : Act Fields).outcome {}).1.toOption =
        some ([("attributes", .record [("device", .record [])])] : Fields) := by
    decide +kernel
  obtain ⟨expanded, yields, same⟩ := Act.exists_of_outcome ((congrFun Option.map_id _).trans evaluated)
  refine ⟨expanded, yields, ?_⟩
  cases same
  decide +kernel

/-- If an item is merged with a fragment itself and not with a copy of it, the fragment is not that of the
file any more. -/
theorem Aliased.mergeIncluded_changes_cached : ∃ merged : Fields,
    (do
      let own := item [("attributes", .record [("device", .record [("caption", .text "Device")])])]
      let _ ← own.mergeIncluded "" (← Fragment.borrow includingFiles "profiles/host.json")
      return (← Fragment.borrow includingFiles "profiles/host.json").fields : Act Fields).Yields merged ∧
    (Fragment.ofFile includingFiles "/profiles/host.json").toOption ≠ some merged := by
  have evaluated : ((do
      let own := item [("attributes", .record [("device", .record [("caption", .text "Device")])])]
      let _ ← own.mergeIncluded "" (← Fragment.borrow includingFiles "profiles/host.json")
      return (← Fragment.borrow includingFiles "profiles/host.json").fields : Act Fields).outcome {}).1.toOption =
        some ([("attributes", .record [("device", .record [("caption", .text "Device")])])] : Fields) := by
    decide +kernel
  obtain ⟨merged, yields, same⟩ := Act.exists_of_outcome ((congrFun Option.map_id _).trans evaluated)
  refine ⟨merged, yields, ?_⟩
  cases same
  decide +kernel

end EventSchema
