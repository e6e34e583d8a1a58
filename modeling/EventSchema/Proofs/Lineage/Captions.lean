import EventSchema.Draft.Observables
import EventSchema.Proofs.Lineage.Cycles
import EventSchema.Proofs.Lineage.Own
import EventSchema.Proofs.Scope

/-!
Captions looked up among raw items.

The caption of an item is asked for before anything is flattened, so it is looked up along the ancestors by a
walk of its own. That walk ends on any items, since it never asks the same key twice. As long as no item extends
the one that it is named after, it goes the way that flattening goes, and so finds the caption that the flattened
item has.
-/

set_option autoImplicit false

namespace EventSchema.Lineage

variable {kind : ItemKind} {items : Fields}

structure Raw (items : Fields) : Prop where
  object : ∀ key value, Entries.get? key items = some value → value.isObject = true
  distinct : ∀ key mark item, Entries.get? key items = some (.object mark item) → Entries.Distinct item
  parents : ∀ key mark item, Entries.get? key items = some (.object mark item) →
    ∀ value, Entries.get? "extends" item = some value → ∃ name, value = .text name
  fresh : ∀ key mark item, Entries.get? key items = some (.object mark item) →
    Value.given (Entries.get? "_resolved" item) = false

def ExtendsNamesake (items : Fields) (key : Text) : Prop :=
  ∃ mark item extension name, Entries.get? key items = some (.object mark item) ∧
    Entries.get? "extension" item = some extension ∧ extension.truthy = true ∧
    Entries.get? "extends" item = some (.text name) ∧ key = Scope.within extension.shown name

namespace Raw

theorem exists_object (raw : Raw items) {key : Text} {value : Value} (found : Entries.get? key items = some value) :
    ∃ mark item, value = .object mark item := by
  have object := raw.object key value found
  cases value with
  | object mark item => exact ⟨mark, item, rfl⟩
  | null | bool _ | int _ | float _ | text _ | array _ => cases object

/-- Items whose attributes are objects and whose profiles are lists can be flattened. -/
theorem extendable (raw : Raw items)
    (heritage : ∀ key mark item, Entries.get? key items = some (.object mark item) → Heritage item) :
    Extendable items where
  object := raw.object
  attributes key mark item found := (heritage key mark item found).attributes
  distinct := raw.distinct
  parents := raw.parents
  profiles key mark item found := (heritage key mark item found).profiles

end Raw

/-! ### The two ways up -/

/-- A text means a key or nothing. -/
theorem exists_find? (items : Fields) (name : Text) (scope : Option Value) :
    ∃ parent?, Scope.find? items (.text name) scope = .ok (Option.map Value.text parent?) := by
  have itself : ∃ parent?, Scope.direct items (.text name) = .ok (Option.map Value.text parent?) := by
    by_cases present : Entries.has name items = true
    · exact ⟨some name, Scope.direct_of_has present⟩
    · rw [Bool.not_eq_true] at present
      refine ⟨none, bind_eq_ok.mpr ⟨false, congrArg Except.ok present, rfl⟩⟩
  by_cases given : (Value.text name).truthy = true
  · rw [Scope.find?_given given]
    cases scope with
    | none => exact itself
    | some owner =>
        dsimp only
        split
        · rw [Value.member, ok_bind]
          split
          · exact itself
          · split
            · exact ⟨some _, rfl⟩
            · exact itself
        · exact itself
  · refine ⟨none, ?_⟩
    rw [Bool.not_eq_true] at given
    rw [Scope.find?, Scope.findBy, given]
    rfl

theorem Raw.exists_find? (raw : Raw items) {key : Text} {mark : Option Nat} {item : Fields}
    (found : Entries.get? key items = some (.object mark item)) :
    ∃ parent?, Scope.find? items (Entries.orNull "extends" item) (Entries.get? "extension" item) =
      .ok (Option.map Value.text parent?) := by
  unfold Entries.orNull Entries.getOr
  cases named : Entries.get? "extends" item with
  | none => exact ⟨none, rfl⟩
  | some value =>
      obtain ⟨name, rfl⟩ := raw.parents key mark item found value named
      exact Lineage.exists_find? items name _

private theorem Raw.find?_eq_findParent (raw : Raw items) {key : Text} {mark : Option Nat} {item : Fields}
    (found : Entries.get? key items = some (.object mark item)) (apart : ¬ExtendsNamesake items key) :
    Scope.find? items (Entries.orNull "extends" item) (Entries.get? "extension" item) =
      Option.map Value.text <$> findParent items key (.object mark item) := by
  unfold findParent Entries.orNull Entries.getOr
  rw [Value.asFields, ok_bind]
  cases named : Entries.get? "extends" item with
  | none => rfl
  | some value =>
      obtain ⟨name, rfl⟩ := raw.parents key mark item found value named
      have itself : Scope.direct items (.text name) = Option.map Value.text <$> (do
          let _ ← (Value.text "/").member (.text name)
          if ← (Value.text name).isEntry items then return (Value.text name).text? else return none :
          Except Fault (Option Text)) := by
        rw [Scope.direct, Value.member, ok_bind, Value.isEntry, Value.lookup?, ok_bind]
        cases (Entries.get? name items).isSome <;> rfl
      rw [Option.getD_some]
      dsimp only
      by_cases given : (Value.text name).truthy = true
      · rw [Scope.find?_given given, given, Bool.not_true, if_neg Bool.false_ne_true]
        cases owned : Entries.get? "extension" item with
        | none => exact itself
        | some extension =>
            dsimp only
            split
            · rename_i owner
              have other : key ≠ Scope.within extension.shown name := fun same =>
                apart ⟨mark, item, extension, name, found, owned, owner, named, same⟩
              rw [Value.member, ok_bind, ok_bind]
              split
              · rename_i slashed
                rw [slashed]
                exact itself
              · rename_i slashed
                rw [Bool.not_eq_true] at slashed
                rw [slashed]
                have own : Scope.within extension.shown (Value.text name).shown ≠ key := Ne.symm other
                rw [Bool.not_false, if_pos rfl, decide_eq_true own, Bool.true_and]
                split
                · rfl
                · exact itself
            · exact itself
      · rw [Bool.not_eq_true] at given
        rw [Scope.find?, Scope.findBy, given]
        rfl

/-- A parent is never the empty key, which stands for none. -/
theorem ne_empty_of_find? {name : Value} {scope : Option Value} {parent : Text}
    (found : Scope.find? items name scope = .ok (some (.text parent))) : parent ≠ ∅ := by
  rintro rfl
  cases Scope.truthy_of_findBy found

/-! ### The lookup -/

section Lookup

open Draft

variable {origin key : Text} {seen : List Text} {mark : Option Nat} {item : Fields}

private theorem captionFrom_of_object (given : key ≠ ∅) (unseen : key ∉ seen)
    (found : Entries.get? key items = some (.object mark item)) :
    captionFrom items origin seen key = match Entries.get? "caption" item with
      | some caption => .ok caption
      | none => do
        match ← Scope.find? items (Entries.orNull "extends" item) (Entries.get? "extension" item) with
        | some (.text parent) => captionFrom items origin (key :: seen) parent
        | _ => return .text origin := by
  have further : ¬(key = ∅ ∨ key ∈ seen) := by
    rintro (empty | member)
    · exact given empty
    · exact unseen member
  rw [captionFrom, dif_neg further, dif_pos (Entries.mem_keys_of_get? found)]
  simp only [orNull_of_get? found, Value.asFields, ok_bind, holds, Value.member, Value.at_, Entries.has]
  cases Entries.get? "caption" item <;> rfl

/-- The lookup comes to a caption from every key that is among the items, and from the empty one. -/
theorem Raw.exists_captionFrom (raw : Raw items) (origin : Text)
    (asked : key = ∅ ∨ key ∈ seen ∨ Entries.has key items = true) :
    ∃ caption, captionFrom items origin seen key = .ok caption := by
  induction seen, key using captionFrom.induct items with
  | case1 seen key ended => exact ⟨.text origin, by rw [captionFrom, dif_pos ended]; rfl⟩
  | case2 seen key further present ih =>
      obtain ⟨value, found⟩ := Option.isSome_iff_exists.mp (Entries.has_iff_mem_keys.mpr present)
      obtain ⟨mark, item, rfl⟩ := raw.exists_object found
      rw [not_or] at further
      rw [captionFrom_of_object further.1 further.2 found]
      cases Entries.get? "caption" item with
      | some caption => exact ⟨caption, rfl⟩
      | none =>
          obtain ⟨parent?, next⟩ := raw.exists_find? found
          dsimp only
          rw [next, ok_bind]
          cases parent? with
          | none => exact ⟨.text origin, rfl⟩
          | some parent =>
              obtain ⟨_, same, means⟩ := Scope.find?_eq_some.mp next
              cases same
              exact ih parent (.inr (.inr means.has))
  | case3 seen key further absent =>
      rcases asked with empty | member | present
      · exact absurd (.inl empty) further
      · exact absurd (.inr member) further
      · exact absurd (Entries.has_iff_mem_keys.mp present) absent

/-- Up a line that no item leaves for its namesake, the lookup comes to the caption that the flattened item at
the front has, and to the key that it was asked for if that has none. -/
theorem Raw.captionFrom_of_ancestry (raw : Raw items) (apart : ∀ key, ¬ExtendsNamesake items key)
    {line : List (Text × Fields)} (ancestry : Ancestry items line) {above : List (Text × Fields)} {flat : Fields}
    (front : line = (key, item) :: above) (given : key ≠ ∅) (unseen : ∀ entry ∈ line, entry.1 ∉ seen)
    (computed : inherit kind line = .ok flat) :
    captionFrom items origin seen key = .ok (Entries.getOr "caption" flat (.text origin)) := by
  induction ancestry generalizing key item above flat seen with
  | @root own mark fields found start =>
      cases front
      have alone := start.resolve_left (by rw [raw.fresh own mark fields found]; decide)
      have flatHere : Flat kind items own flat := ⟨fields, [], .root found start, computed⟩
      have told : Entries.get? "caption" flat = Entries.get? "caption" fields := by
        have standing := flatHere.alone found (raw.fresh own mark fields found) alone
        split at standing
        · obtain ⟨flat', ran, rfl⟩ := map_eq_ok.mp standing
          rw [resolved, Entries.get?_put_of_ne (by decide), get?_standalone ran (by decide)]
        · exact get?_standalone standing (by decide)
      rw [captionFrom_of_object given (unseen _ (List.mem_cons_self ..)) found, Entries.getOr, told]
      cases Entries.get? "caption" fields with
      | some caption => rfl
      | none =>
          dsimp only
          rw [raw.find?_eq_findParent found (apart own), alone]
          rfl
  | @child own mark fields parent elders found unmarked next older ih =>
      cases front
      have line : Ancestry items ((own, fields) :: parent :: elders) := .child found unmarked next older
      have flatHere : Flat kind items own flat := ⟨fields, parent :: elders, line, computed⟩
      have distinct := raw.distinct own mark fields found
      rw [captionFrom_of_object given (unseen _ (List.mem_cons_self ..)) found, Entries.getOr]
      cases captioned : Entries.get? "caption" fields with
      | some caption =>
          rw [flatHere.get?_own found distinct (by decide) (by decide) (by decide) captioned]
          rfl
      | none =>
          rw [inherit] at computed
          obtain ⟨ancestor, inherited, _⟩ := bind_eq_ok.mp computed
          have up : Scope.find? items (Entries.orNull "extends" fields) (Entries.get? "extension" fields) =
              .ok (some (.text parent.1)) := by
            rw [raw.find?_eq_findParent found (apart own), next]
            rfl
          have unseenAbove : ∀ entry ∈ parent :: elders, entry.1 ∉ own :: seen := by
            intro entry member again
            rcases List.mem_cons.mp again with same | before
            · exact line.front_fresh (List.mem_map.mpr ⟨entry, member, same⟩)
            · exact unseen entry (List.mem_cons_of_mem _ member) before
          dsimp only
          rw [up, ok_bind]
          dsimp only
          rw [ih rfl (ne_empty_of_find? up) unseenAbove inherited, Entries.getOr,
            flatHere.get?_below ⟨_, _, older, inherited⟩ found unmarked next distinct (by decide) (by decide)
              (by decide) (by decide) captioned]

/-- The empty key stands for none, whatever is under it. -/
theorem captionOf_empty (items : Fields) : captionOf items ∅ = .ok (.text ∅) := by
  rw [captionOf, captionFrom, dif_pos (Or.inl rfl)]
  rfl

private theorem captionOf_absent (given : key ≠ ∅) (absent : Entries.has key items = false) :
    captionOf items key = .error (.misuse .key) := by
  have further : ¬(key = ∅ ∨ key ∈ []) := by
    rintro (empty | member)
    · exact given empty
    · exact List.not_mem_nil member
  have gone : key ∉ Entries.keys items := fun member => by
    rw [Entries.has_iff_mem_keys.mpr member] at absent
    cases absent
  rw [captionOf, captionFrom, dif_neg further, dif_neg gone]
  rfl

end Lookup

private theorem exists_flatten (kind : ItemKind) (extendable : Extendable items)
    (acyclic : ∀ key, ¬Relation.TransGen (Parent items) key key) {key : Text} {memo : Entries Fields} (run : Run)
    (sound : Sound kind items memo) (present : Entries.has key items = true) :
    ∃ flat kept after, (flatten kind items [] key).outcome memo run = (.ok flat, kept, after) := by
  have nobody : ∀ below ∈ ([] : List Text), Relation.TransGen (Leads items) below key :=
    fun _ impossible => absurd impossible List.not_mem_nil
  have alone : ([] ++ [key]).IsChain (Leads items) := .singleton key
  obtain ⟨same, _⟩ := flatten_recall extendable.object run sound nobody
  rcases ascend_cases kind extendable present alone with ⟨flat, ran, _⟩ | ⟨cycle, _, cyclic⟩
  · exact ⟨flat, _, _, Prod.ext (same.trans ran) rfl⟩
  · obtain ⟨other, leads⟩ := cyclic.exists_transGen
    exact absurd (leads.lift id fun _ _ ⟨_, _, found, _, next⟩ => ⟨_, found, next⟩) (acyclic other)

/-- The caption of a raw item is looked up to the end from every key, whether items extend each other in a circle
or not. If no item is its own ancestor and none extends its namesake, then the caption under a key that is not
empty is the one that the item has once it is flattened, or the key if it has none, whatever was flattened before
it; and it is flattened if the items have attributes and profiles of the right shape. -/
theorem captionOf_flattened (kind : ItemKind) (raw : Raw items) (key : Text) :
    (Entries.has key items = true → ∃ caption, Draft.captionOf items key = .ok caption) ∧
    (key ≠ ∅ → Entries.has key items = false → Draft.captionOf items key = .error (.misuse .key)) ∧
    (key = ∅ → Draft.captionOf items key = .ok (.text key)) ∧
    ((∀ other, ¬Relation.TransGen (Parent items) other other) → (∀ other, ¬ExtendsNamesake items other) → key ≠ ∅ →
      ∀ memo run, Sound kind items memo →
        (∀ flat kept after, (flatten kind items [] key).outcome memo run = (.ok flat, kept, after) →
          Draft.captionOf items key = .ok (Entries.getOr "caption" flat (.text key))) ∧
        ((∀ other mark item, Entries.get? other items = some (.object mark item) → Heritage item) →
          Entries.has key items = true →
          ∃ flat kept after, (flatten kind items [] key).outcome memo run = (.ok flat, kept, after))) := by
  refine ⟨fun present => raw.exists_captionFrom key (.inr (.inr present)), captionOf_absent, ?_, ?_⟩
  · rintro rfl
    exact captionOf_empty items
  · intro acyclic apart given memo run sound
    refine ⟨fun flat kept after ran => ?_, fun heritage present => ?_⟩
    · obtain ⟨⟨item, above, line, computed⟩, _⟩ := flatten_sound sound ran
      exact raw.captionFrom_of_ancestry apart line rfl given (fun _ _ => List.not_mem_nil) computed
    · exact exists_flatten kind (raw.extendable heritage) acyclic run sound present

/-- A device with two items of an extension below it: one that it is the parent of, and one below that. -/
def fleet : Fields := [("device", .record [("caption", .text "Device")]),
  ("corp/host", .record [("extends", .text "device"), ("extension", .text "corp")]),
  ("corp/server", .record [("extends", .text "host"), ("extension", .text "corp")])]

private theorem fleet_cases {key : Text} {value : Value} (found : Entries.get? key fleet = some value) :
    key = "device" ∧ value = .record [("caption", .text "Device")] ∨
      key = "corp/host" ∧ value = .record [("extends", .text "device"), ("extension", .text "corp")] ∨
      key = "corp/server" ∧ value = .record [("extends", .text "host"), ("extension", .text "corp")] := by
  have member := Entries.mem_of_get? found
  simpa only [fleet, List.mem_cons, Prod.mk.injEq, List.not_mem_nil, or_false] using member

private theorem raw_fleet : Raw fleet := by
  constructor
  · intro key value found
    rcases fleet_cases found with ⟨_, rfl⟩ | ⟨_, rfl⟩ | ⟨_, rfl⟩ <;> rfl
  · intro key mark item found
    rcases fleet_cases found with ⟨_, same⟩ | ⟨_, same⟩ | ⟨_, same⟩ <;> cases same <;> decide
  · intro key mark item found value named
    rcases fleet_cases found with ⟨_, same⟩ | ⟨_, same⟩ | ⟨_, same⟩ <;> cases same <;> cases named <;>
      exact ⟨_, rfl⟩
  · intro key mark item found
    rcases fleet_cases found with ⟨_, same⟩ | ⟨_, same⟩ | ⟨_, same⟩ <;> cases same <;> rfl

private theorem acyclic_fleet (key : Text) : ¬Relation.TransGen (Parent fleet) key key := by
  -- every parent has a shorter key
  have shorter {child parent : Text} (up : Parent fleet child parent) : parent.codes.length < child.codes.length := by
    obtain ⟨value, found, next⟩ := up
    rcases fleet_cases found with ⟨rfl, rfl⟩ | ⟨rfl, rfl⟩ | ⟨rfl, rfl⟩
    · cases next
    · cases next
      decide
    · cases next
      decide
  intro circle
  have less : Relation.TransGen (fun less more : Nat => more < less) key.codes.length key.codes.length :=
    circle.lift (fun key => key.codes.length) fun _ _ => shorter
  rw [Relation.transGen_eq_self] at less
  exact Nat.lt_irrefl _ less

private theorem not_extendsNamesake_fleet (key : Text) : ¬ExtendsNamesake fleet key := by
  rintro ⟨mark, item, extension, name, found, owned, _, named, same⟩
  rcases fleet_cases found with ⟨rfl, shape⟩ | ⟨rfl, shape⟩ | ⟨rfl, shape⟩
  · cases shape
    cases named
  · cases shape
    cases owned
    cases named
    revert same
    decide
  · cases shape
    cases owned
    cases named
    revert same
    decide

private theorem heritage_fleet {key : Text} {mark : Option Nat} {item : Fields}
    (found : Entries.get? key fleet = some (.object mark item)) : Heritage item := by
  rcases fleet_cases found with ⟨_, same⟩ | ⟨_, same⟩ | ⟨_, same⟩ <;> cases same <;>
    exact ⟨by nofun, by nofun⟩

/-- The server of the extension has the caption of the device, and items in a ring have captions too. -/
theorem captionOf_flattened_server :
    (∃ flat kept after, (flatten .object fleet [] "corp/server").outcome [] {} = (.ok flat, kept, after) ∧
      Draft.captionOf fleet "corp/server" = .ok (Entries.getOr "caption" flat (.text "corp/server"))) ∧
    ∃ caption, Draft.captionOf ring "hen" = .ok caption := by
  obtain ⟨_, _, _, agrees⟩ := captionOf_flattened .object raw_fleet "corp/server"
  obtain ⟨same, flattened⟩ := agrees acyclic_fleet not_extendsNamesake_fleet (by decide) [] {} .nil
  obtain ⟨flat, kept, after, ran⟩ := flattened (fun _ _ _ => heritage_fleet) rfl
  have raw : Raw ring := {
    object := extendable_ring.object
    distinct := extendable_ring.distinct
    parents := extendable_ring.parents
    fresh := by
      intro key mark item found
      have member := Entries.mem_of_get? found
      simp only [ring, List.mem_cons, Prod.mk.injEq, List.not_mem_nil, or_false] at member
      rcases member with ⟨_, same⟩ | ⟨_, same⟩ <;> cases same <;> rfl }
  exact ⟨⟨flat, kept, after, ran, same flat kept after ran⟩, (captionOf_flattened .object raw "hen").1 rfl⟩

/-- An item under the empty key has a caption, also once it is flattened, but the lookup comes to the key. -/
theorem captionOf_unnamed :
    let items : Fields := [("", .record [("caption", .text "Nameless")])]
    Raw items ∧ (∀ key, ¬Relation.TransGen (Parent items) key key) ∧ (∀ key, ¬ExtendsNamesake items key) ∧
      (∃ flat kept after, (flatten .object items [] "").outcome [] {} = (.ok flat, kept, after) ∧
        Entries.get? "caption" flat = some (.text "Nameless")) ∧
      Draft.captionOf items "" = .ok (.text "") := by
  intro items
  have cases {key : Text} {value : Value} (found : Entries.get? key items = some value) :
      key = "" ∧ value = .record [("caption", .text "Nameless")] := by
    have member := Entries.mem_of_get? found
    simpa only [items, List.mem_singleton, Prod.mk.injEq] using member
  have raw : Raw items := by
    constructor
    · intro key value found
      obtain ⟨_, rfl⟩ := cases found
      rfl
    · intro key mark item found
      obtain ⟨_, same⟩ := cases found
      cases same
      decide
    · intro key mark item found value named
      obtain ⟨_, same⟩ := cases found
      cases same
      cases named
    · intro key mark item found
      obtain ⟨_, same⟩ := cases found
      cases same
      rfl
  have acyclic (key : Text) : ¬Relation.TransGen (Parent items) key key := by
    intro circle
    obtain ⟨_, ⟨value, found, next⟩, _⟩ := Relation.TransGen.head'_iff.mp circle
    obtain ⟨_, rfl⟩ := cases found
    cases next
  refine ⟨raw, acyclic, ?_, ?_, captionOf_empty items⟩
  · rintro key ⟨mark, item, extension, name, found, owned, _⟩
    obtain ⟨_, same⟩ := cases found
    cases same
    cases owned
  · have heritage (key : Text) (mark : Option Nat) (item : Fields)
        (found : Entries.get? key items = some (.object mark item)) : Heritage item := by
      obtain ⟨_, same⟩ := cases found
      cases same
      exact ⟨by nofun, by nofun⟩
    obtain ⟨flat, kept, after, ran⟩ := exists_flatten .object (raw.extendable heritage) acyclic {} .nil
      (show Entries.has "" items = true from rfl)
    have flatHere := (flatten_sound .nil ran).1
    exact ⟨flat, kept, after, ran, flatHere.get?_own rfl (by decide) (by decide) (by decide) (by decide) rfl⟩


end EventSchema.Lineage
