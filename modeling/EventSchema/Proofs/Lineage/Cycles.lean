import Mathlib.Data.List.Chain
import EventSchema.Proofs.Lineage.Orphans
import EventSchema.Proofs.Lineage.Shape
import EventSchema.Proofs.Lineage.Stepwise

/-!
Cycles and orphans among items that extend each other.

A pass over all items ends. It is stopped if some item leads up to itself, and only then, and the fault names
the keys of such a cycle. Otherwise every item is flattened, and each item whose parent is nowhere is told of
once: it becomes what it would become if it named no parent, but it still names it, and is marked.
-/

set_option autoImplicit false

namespace EventSchema.Lineage

variable {kind : ItemKind} {items : Fields}

/-! ### What can be extended -/

/-- What a child needs of its parent: attributes are an object and profiles a list, if they are there. -/
structure Heritage (item : Fields) : Prop where
  attributes : ∀ value, Entries.get? "attributes" item = some value → value.isObject = true
  profiles : ∀ value, Entries.get? "profiles" item = some value → ∃ profiles, value = .array profiles

/-- Items of the shapes that flattening asks for: objects that name their parents by texts, with attributes
that are objects and profiles that are lists, if they are there. -/
structure Extendable (items : Fields) : Prop extends Outlined items where
  distinct : ∀ key mark item, Entries.get? key items = some (.object mark item) → Entries.Distinct item
  parents : ∀ key mark item, Entries.get? key items = some (.object mark item) →
    ∀ value, Entries.get? "extends" item = some value → ∃ name, value = .text name
  profiles : ∀ key mark item, Entries.get? key items = some (.object mark item) →
    ∀ value, Entries.get? "profiles" item = some value → ∃ profiles, value = .array profiles

theorem Extendable.heritage (extendable : Extendable items) {key : Text} {mark : Option Nat} {item : Fields}
    (found : Entries.get? key items = some (.object mark item)) : Heritage item where
  attributes := extendable.attributes key mark item found
  profiles := extendable.profiles key mark item found

theorem Extendable.exists_findParent (extendable : Extendable items) {key : Text} {mark : Option Nat}
    {item : Fields} (found : Entries.get? key items = some (.object mark item)) :
    ∃ parent?, findParent items key (.object mark item) = .ok parent? := by
  refine Lineage.exists_findParent items key mark ?_
  unfold Entries.orNull Entries.getOr
  cases named : Entries.get? "extends" item with
  | none => rfl
  | some value =>
      obtain ⟨name, rfl⟩ := extendable.parents key mark item found value named
      rfl

namespace Heritage

theorem put {item : Fields} (heritage : Heritage item) {key : Text} (attributes : key ≠ "attributes")
    (profiles : key ≠ "profiles") (value : Value) : Heritage (Entries.put key value item) where
  attributes := by
    rw [Entries.get?_put_of_ne attributes]
    exact heritage.attributes
  profiles := by
    rw [Entries.get?_put_of_ne profiles]
    exact heritage.profiles

theorem putAttributes {item : Fields} (heritage : Heritage item) (fields : Fields) :
    Heritage (Entries.put "attributes" (.record fields) item) where
  attributes := by
    rw [Entries.get?_put_self]
    rintro _ ⟨⟩
    rfl
  profiles := by
    rw [Entries.get?_put_of_ne (by decide)]
    exact heritage.profiles

theorem putProfiles {item : Fields} (heritage : Heritage item) (profiles : List Value) :
    Heritage (Entries.put "profiles" (.array profiles) item) where
  attributes := by
    rw [Entries.get?_put_of_ne (by decide)]
    exact heritage.attributes
  profiles := by
    rw [Entries.get?_put_self]
    rintro _ ⟨⟩
    exact ⟨profiles, rfl⟩

theorem erase {item : Fields} (heritage : Heritage item) (key : Text) : Heritage (Entries.erase key item) where
  attributes := by
    rw [Entries.get?_erase]
    split
    · nofun
    · exact heritage.attributes
  profiles := by
    rw [Entries.get?_erase]
    split
    · nofun
    · exact heritage.profiles

private theorem eraseEach {item : Fields} (heritage : Heritage item) (keys : List Text) :
    Heritage (keys.foldl (fun fields key => Entries.erase key fields) item) := by
  induction keys generalizing item with
  | nil => exact heritage
  | cons key rest ih => exact ih (heritage.erase key)

theorem itemsOrNone {item : Fields} (heritage : Heritage item) :
    Ensures (Value.itemsOrNone (Entries.get? "profiles" item)) fun _ => True := by
  cases found : Entries.get? "profiles" item with
  | none => exact ⟨_, rfl, trivial⟩
  | some value =>
      obtain ⟨profiles, rfl⟩ := heritage.profiles value found
      cases profiles <;> exact ⟨_, rfl, trivial⟩

end Heritage

private theorem ensures_standalone {key : Text} {item : Fields} (heritage : Heritage item) :
    Ensures (standalone key item) Heritage := by
  obtain ⟨inner, opened⟩ := fieldsOrNone_of_objects heritage.attributes
  rw [standalone, opened]
  exact .pure (heritage.putAttributes _)

private theorem ensures_takeField {parent item taken : Fields} (above : Heritage parent) (own : Heritage item)
    (distinct : Entries.Distinct item) {entry : Text × Value} (member : entry ∈ item) (heritage : Heritage taken) :
    Ensures (takeField parent taken entry.1 entry.2) Heritage := by
  obtain ⟨key, value⟩ := entry
  have found : Entries.get? key item = some value := Entries.get?_of_mem distinct member
  unfold takeField
  split
  · exact .ok heritage
  · rename_i notAttributes
    split
    · rename_i profiles
      change key = "profiles" at profiles
      rw [profiles] at found
      obtain ⟨inherited, listed, _⟩ := above.itemsOrNone
      obtain ⟨added, listed', _⟩ := own.itemsOrNone
      rw [found] at listed'
      have merged : mergeProfiles [Entries.get? "profiles" parent, some value] =
          .ok (Value.addNew [] [inherited, added].flatten) := by
        refine mergeProfiles_eq_ok.mpr ⟨[inherited, added], ?_, rfl⟩
        rw [List.mapM_cons, listed, ok_bind, List.mapM_cons, listed']
        rfl
      rw [merged]
      exact .ok (heritage.putProfiles _)
    · rename_i notProfiles
      split
      · split
        · split
          · exact .ok (heritage.put (by decide) (by decide) _)
          · exact .ok heritage
        · exact .ok (heritage.put notAttributes notProfiles _)
      · exact .ok (heritage.put notAttributes notProfiles _)

private theorem ensures_override (key name : Text) {inherited : Value} (object : inherited.isObject = true)
    (value : Value) :
    Ensures (override key inherited name value) fun after => after.isObject = true := by
  unfold override
  cases inherited with
  | object mark fields =>
      rw [Value.asFields, ok_bind]
      split <;> exact .pure rfl
  | null | bool _ | int _ | float _ | text _ | array _ => cases object

private theorem ensures_descend (kind : ItemKind) (key : Text) {parent item : Fields} (above : Heritage parent)
    (own : Heritage item) (distinct : Entries.Distinct item) : Ensures (descend kind key parent item) Heritage := by
  obtain ⟨attributes, opened⟩ := fieldsOrNone_of_objects own.attributes
  have inherited : (Value.orElse (Entries.get? "attributes"
      (ownKeys.foldl (fun fields key => Entries.erase key fields) parent)) (.record [])).isObject = true := by
    cases found : Entries.get? "attributes" (ownKeys.foldl (fun fields key => Entries.erase key fields) parent) with
    | none => rfl
    | some value =>
        have object := (above.eraseEach ownKeys).attributes value found
        unfold Value.orElse
        dsimp only
        split
        · exact object
        · rfl
  unfold descend
  refine (Ensures.foldlM ((above.eraseEach ownKeys).erase "attributes") fun taken entry member heritage =>
    ensures_takeField above own distinct member heritage).bind fun taken heritage => ?_
  rw [opened, ok_bind]
  have overrides : Ensures (attributes.foldlM (fun inherited entry => override key inherited entry.1 entry.2) _)
      fun after => after.isObject = true :=
    .foldlM inherited fun state entry _ object => ensures_override key entry.1 object entry.2
  refine overrides.bind fun overridden object => ?_
  obtain ⟨mark, fields, rfl⟩ : ∃ mark fields, overridden = .object mark fields := by
    cases overridden with
    | object mark fields => exact ⟨mark, fields, rfl⟩
    | null | bool _ | int _ | float _ | text _ | array _ => cases object
  rw [Value.asFields, ok_bind]
  have flat := heritage.putAttributes (kept fields)
  cases kind with
  | object =>
      dsimp only
      split
      · exact .pure (flat.put (by decide) (by decide) _)
      · split
        · exact .pure (flat.put (by decide) (by decide) _)
        · exact .pure flat
  | _ => exact .pure flat

/-! ### Cycles -/

/-- Keys that lead from one to the next, the last of which is the first again. -/
def IsCycle (items : Fields) (cycle : List Text) : Prop :=
  ∃ key inner, cycle = key :: inner ++ [key] ∧ cycle.IsChain (Leads items)

private theorem transGen_of_isChain {key last : Text} {inner : List Text}
    (chain : (key :: inner ++ [last]).IsChain (Leads items)) : Relation.TransGen (Leads items) key last := by
  induction inner generalizing key with
  | nil => exact .single (List.isChain_pair.mp chain)
  | cons next rest ih =>
      obtain ⟨step, later⟩ := List.isChain_cons_cons.mp chain
      exact .head step (ih later)

theorem IsCycle.exists_transGen {cycle : List Text} (cyclic : IsCycle items cycle) :
    ∃ key, Relation.TransGen (Leads items) key key := by
  obtain ⟨key, inner, rfl, chain⟩ := cyclic
  exact ⟨key, transGen_of_isChain chain⟩

private theorem isCycle_of_waiting {way : List Text} {key : Text} (chain : (way ++ [key]).IsChain (Leads items))
    (waiting : key ∈ way) : IsCycle items (way.dropWhile (· ≠ key) ++ [key]) := by
  obtain ⟨before, inner, rfl, first⟩ := List.eq_append_cons_of_mem waiting
  have cut : (before ++ key :: inner).dropWhile (· ≠ key) = key :: inner := by
    have passed : ∀ other ∈ before, decide (other ≠ key) = true := by
      intro other member
      exact decide_eq_true fun same => first (same ▸ member)
    rw [List.dropWhile_append_of_pos passed, List.dropWhile_cons_of_neg (by simp)]
  rw [cut]
  refine ⟨key, inner, rfl, ?_⟩
  rw [List.append_assoc] at chain
  exact chain.right_of_append

/-- Every item has a flat form that can be extended, or its way up comes round a cycle. -/
theorem ascend_cases (kind : ItemKind) (extendable : Extendable items) {way : List Text} {key : Text}
    (present : Entries.has key items = true) (chain : (way ++ [key]).IsChain (Leads items)) :
    (∃ flat, ascend kind items way key = .ok flat ∧ Heritage flat) ∨
      ∃ cycle, ascend kind items way key = .error (.integrity (.parentCycle kind.name cycle)) ∧
        IsCycle items cycle := by
  -- each step up leaves fewer keys that are not on the way
  induction left : ((Entries.keys items).filter (· ∉ way)).length using
    Nat.strongRecOn generalizing way key with
  | ind left ih =>
  by_cases waiting : key ∈ way
  · exact .inr ⟨_, ascend_waiting waiting, isCycle_of_waiting chain waiting⟩
  obtain ⟨value, found⟩ := Option.isSome_iff_exists.mp present
  obtain ⟨mark, item, rfl⟩ := extendable.exists_object found
  have own := extendable.heritage found
  rw [ascend_of_object waiting found]
  have marked {computation : Except Fault Fields} (ensures : Ensures computation Heritage) :
      ∃ flat, resolved <$> computation = .ok flat ∧ Heritage flat := by
    obtain ⟨flat, ran, heritage⟩ := ensures
    rw [ran]
    exact ⟨_, rfl, heritage.put (by decide) (by decide) _⟩
  split
  · exact .inl ⟨item, rfl, own⟩
  · rename_i unmarked
    split
    · exact .inl (ensures_standalone own)
    · obtain ⟨parent?, next⟩ := extendable.exists_findParent found
      rw [next]
      cases parent? with
      | none => exact .inl (marked (ensures_standalone own))
      | some parent =>
          have up : Leads items key parent := ⟨mark, item, found, Bool.eq_false_iff.mpr unmarked, next⟩
          have further : (way ++ [key] ++ [parent]).IsChain (Leads items) := by
            refine chain.append (.singleton _) ?_
            rintro _ last _ ⟨⟩
            rw [List.getLast?_concat] at last
            cases last
            exact up
          rcases ih _ (left ▸ remaining_lt (Entries.mem_keys_of_get? found) waiting) (has_of_findParent next)
            further rfl with ⟨ancestor, ran, heritage⟩ | ⟨cycle, ran, cyclic⟩
          · dsimp only
            rw [ran]
            exact .inl (marked (ensures_descend kind key heritage own (extendable.distinct key mark item found)))
          · dsimp only
            rw [ran]
            exact .inr ⟨cycle, rfl, cyclic⟩

private theorem ascendKeys_cases (kind : ItemKind) (extendable : Extendable items) {keys : List Text}
    (present : ∀ key ∈ keys, Entries.has key items = true) :
    (∃ flats, ascendKeys kind items keys = .ok flats) ∨
      ∃ cycle, ascendKeys kind items keys = .error (.integrity (.parentCycle kind.name cycle)) ∧
        IsCycle items cycle := by
  induction keys with
  | nil => exact .inl ⟨[], rfl⟩
  | cons key rest ih =>
      obtain ⟨here, there⟩ := List.forall_mem_cons.mp present
      rw [ascendKeys_cons]
      have alone : ([] ++ [key]).IsChain (Leads items) := .singleton key
      rcases ascend_cases kind extendable here alone with ⟨flat, ran, _⟩ | ⟨cycle, ran, cyclic⟩
      · rw [ran]
        rcases ih there with ⟨flats, others⟩ | ⟨cycle, others, cyclic⟩
        · exact .inl ⟨(key, flat) :: flats, by rw [others]⟩
        · exact .inr ⟨cycle, by rw [others], cyclic⟩
      · exact .inr ⟨cycle, by rw [ran], cyclic⟩

/-- A pass over all items ends well, or with a cycle. -/
theorem flattenAll_cases (kind : ItemKind) (extendable : Extendable items) (run : Run) :
    (∃ flats after, (flattenAll kind items).outcome run = (.ok flats, after)) ∨
      ∃ cycle after, (flattenAll kind items).outcome run =
        (.error (.integrity (.parentCycle kind.name cycle)), after) ∧ IsCycle items cycle := by
  obtain ⟨same, _⟩ := flattenKeys_recall extendable.object (Entries.keys items) run (Sound.nil : Sound kind items [])
  change ((flattenEach kind items).outcome [] run).1 = _ at same
  rw [outcome_flattenAll, same]
  rcases ascendKeys_cases kind extendable fun key => Entries.has_iff_mem_keys.mpr with
    ⟨flats, ran⟩ | ⟨cycle, ran, cyclic⟩
  · exact .inl ⟨flats, _, by rw [ran]⟩
  · exact .inr ⟨cycle, _, by rw [ran], cyclic⟩

private theorem acyclic_of_flattenAll {flats : Entries Fields} (ran : (flattenAll kind items).Yields flats)
    (key : Text) :
    ¬Relation.TransGen (Leads items) key key := by
  intro leads
  obtain ⟨parent, ⟨mark, item, found, _⟩, _⟩ := Relation.TransGen.head'_iff.mp leads
  obtain ⟨flat, _, item', above, line, _⟩ := (flattenAll_ok ran).get?_left found
  exact line.irrefl leads

/-! ### Without a parent -/

def parentless (items : Fields) (key : Text) (mark : Option Nat) (item : Fields) : Fields :=
  Entries.put key (.object mark (Entries.erase "extends" item)) items

section Parentless

variable {key : Text} {mark : Option Nat} {item : Fields} (found : Entries.get? key items = some (.object mark item))

include found

private theorem has_parentless (other : Text) :
    Entries.has other (parentless items key mark item) = Entries.has other items := by
  rw [parentless, Entries.has, Entries.has, Entries.get?_put]
  split
  · rename_i same
    rw [same, found]
    rfl
  · rfl

private theorem extendable_parentless (extendable : Extendable items) :
    Extendable (parentless items key mark item) := by
  have cases {other : Text} {value : Value} (held : Entries.get? other (parentless items key mark item) = some value) :
      value = .object mark (Entries.erase "extends" item) ∨ Entries.get? other items = some value := by
    rw [parentless, Entries.get?_put] at held
    split at held
    · exact .inl (Option.some.inj held).symm
    · exact .inr held
  have field {other : Text} {value : Value} (held : Entries.get? other (Entries.erase "extends" item) = some value) :
      Entries.get? other item = some value := by
    rw [Entries.get?_erase] at held
    split at held
    · cases held
    · exact held
  constructor
  · constructor
    · intro other value held
      rcases cases held with rfl | held
      · rfl
      · exact extendable.object other value held
    · intro other mark' item' held value given
      rcases cases held with same | held
      · cases same
        exact extendable.attributes key mark item found value (field given)
      · exact extendable.attributes other mark' item' held value given
  · intro other mark' item' held
    rcases cases held with same | held
    · cases same
      exact (extendable.distinct key mark item found).erase _
    · exact extendable.distinct other mark' item' held
  · intro other mark' item' held value given
    rcases cases held with same | held
    · cases same
      exact extendable.parents key mark item found value (field given)
    · exact extendable.parents other mark' item' held value given
  · intro other mark' item' held value given
    rcases cases held with same | held
    · cases same
      exact extendable.profiles key mark item found value (field given)
    · exact extendable.profiles other mark' item' held value given

private theorem leads_of_parentless {child parent : Text} (leads :
    Leads (parentless items key mark item) child parent) :
    Leads items child parent := by
  obtain ⟨mark', item', held, unmarked, next⟩ := leads
  rw [findParent_congr (has_parentless found)] at next
  rw [parentless, Entries.get?_put] at held
  split at held
  · cases held
    have alone : findParent items child (.object mark (Entries.erase "extends" item)) = .ok none :=
      findParent_of_not_given items child mark (by
      rw [Entries.get?_erase, if_pos rfl]
      rfl)
    rw [alone] at next
    cases next
  · exact ⟨mark', item', held, unmarked, next⟩

end Parentless

private theorem get?_standalone_parentless {key : Text} {item own flat : Fields} (alone : standalone key item = .ok own)
    (ran : standalone key (Entries.erase "extends" item) = .ok flat) (field : Text) :
    Entries.get? field own =
      if field = "extends" then Entries.get? "extends" item else Entries.get? field flat := by
  have same : Entries.get? "attributes" (Entries.erase "extends" item) = Entries.get? "attributes" item := by
    rw [Entries.get?_erase, if_neg (by decide)]
  unfold standalone at alone ran
  rw [same] at ran
  obtain ⟨attributes, opened, alone⟩ := bind_eq_ok.mp alone
  rw [opened] at ran
  cases alone
  cases ran
  rw [Entries.get?_put, Entries.get?_put, Entries.get?_erase]
  by_cases attributes : field = "attributes"
  · rw [if_pos attributes, if_pos attributes, if_neg (by rw [attributes]; decide)]
  · rw [if_neg attributes, if_neg attributes]
    split
    · rename_i named
      rw [named]
    · rfl

/-- An item that takes nothing from a parent and is not marked stands alone on its line. -/
theorem Flat.alone {key : Text} {mark : Option Nat} {item flat : Fields} (flatHere : Flat kind items key flat)
    (found : Entries.get? key items = some (.object mark item))
    (unmarked : Value.given (Entries.get? "_resolved" item) = false)
    (next : findParent items key (.object mark item) = .ok none) :
    (if Value.given (Entries.get? "extends" item) then resolved <$> standalone key item
      else standalone key item) = .ok flat := by
  obtain ⟨item', above, line, computed⟩ := flatHere
  cases line with
  | root found' _ =>
      rw [found] at found'
      cases found'
      rw [inherit, unmarked] at computed
      cases named : Value.given (Entries.get? "extends" item) with
      | true =>
          rw [named] at computed
          exact computed
      | false =>
          rw [named] at computed
          exact computed
  | child found' _ next' _ =>
      rw [found] at found'
      cases found'
      rw [next] at next'
      cases next'

/-! ### The pass over all items -/

/-- An item whose parent is nowhere becomes what it becomes in a pass over the same items where it names none,
except that it still names it and is marked. -/
theorem flattenAll_parentless (extendable : Extendable items) {flats : Entries Fields} {run after : Run}
    (ran : (flattenAll kind items).outcome run = (.ok flats, after)) {key : Text} {mark : Option Nat} {item : Fields}
    (found : Entries.get? key items = some (.object mark item)) (orphan : IsOrphan items key) :
    ∃ flat flats' after' alone,
      Entries.get? key flats = some flat ∧
      (flattenAll kind (parentless items key mark item)).outcome run = (.ok flats', after') ∧
      Entries.get? key flats' = some alone ∧
      ∀ field, Entries.get? field flat =
        if field = "_resolved" then some (.bool true)
        else if field = "extends" then Entries.get? "extends" item
        else Entries.get? field alone := by
  obtain ⟨mark', item', found', unmarked, named, next⟩ := orphan
  rw [found] at found'
  cases found'
  have acyclic : ¬∃ other, Relation.TransGen (Leads (parentless items key mark item)) other other := by
    rintro ⟨other, leads⟩
    exact acyclic_of_flattenAll (.of_outcome ran) other (leads.lift id fun _ _ => leads_of_parentless found)
  obtain ⟨flats', after', ended⟩ :=
    (flattenAll_cases kind (extendable_parentless found extendable) run).resolve_right
      fun ⟨_, _, _, cyclic⟩ => acyclic cyclic.exists_transGen
  obtain ⟨flat, held, flatHere⟩ := (flattenAll_ok (.of_outcome ran)).get?_left found
  have found' : Entries.get? key (parentless items key mark item) =
      some (.object mark (Entries.erase "extends" item)) := Entries.get?_put_self ..
  obtain ⟨alone, held', flatAlone⟩ := (flattenAll_ok (.of_outcome ended)).get?_left found'
  refine ⟨flat, flats', after', alone, held, ended, held', fun field => ?_⟩
  have silent : Value.given (Entries.get? "extends" (Entries.erase "extends" item)) = false := by
    rw [Entries.get?_erase, if_pos rfl]
    rfl
  have named' := flatHere.alone found unmarked next
  have bare := flatAlone.alone found' (by rw [Entries.get?_erase, if_neg (by decide)]; exact unmarked)
    (findParent_of_not_given _ key mark (by rw [silent]; rfl))
  rw [if_pos named] at named'
  rw [if_neg (by rw [silent]; decide)] at bare
  obtain ⟨standing, stood, rfl⟩ := map_eq_ok.mp named'
  rw [resolved, Entries.get?_put, get?_standalone_parentless stood bare]

/-- A pass over items that can be extended stops if and only if one of them leads up to itself, and then names
such a cycle. Otherwise it leaves one reference unresolved for each item whose parent is nowhere and none for
any other; and such an item becomes what it becomes in a pass over the same items where it names no parent,
except that it still names it and is marked. -/
theorem flattenAll_cycles_orphans (kind : ItemKind) (extendable : Extendable items) (distinct : Entries.Distinct items)
    (run : Run) :
    ((∃ fault after, (flattenAll kind items).outcome run = (.error fault, after)) ↔
      ∃ key, Relation.TransGen (Leads items) key key) ∧
    (∀ fault after, (flattenAll kind items).outcome run = (.error fault, after) →
      ∃ cycle, fault = .integrity (.parentCycle kind.name cycle) ∧ IsCycle items cycle ∧
        fault.message? = some ("Cyclic " ++ kind.name ++ " extends chain: " ++ Text.join " -> " cycle)) ∧
    ∀ flats after, (flattenAll kind items).outcome run = (.ok flats, after) →
      (∃ reported : List Text, reported.Nodup ∧ (∀ key, key ∈ reported ↔ IsOrphan items key) ∧
        after.diagnostics = run.diagnostics.add {
          errors := reported.length
          unresolved := reported.map fun key => .noParent kind key (parentName items key) }) ∧
      ∀ key mark item, Entries.get? key items = some (.object mark item) → IsOrphan items key →
        ∃ flat flats' after' alone,
          Entries.get? key flats = some flat ∧
          (flattenAll kind (parentless items key mark item)).outcome run = (.ok flats', after') ∧
          Entries.get? key flats' = some alone ∧
          ∀ field, Entries.get? field flat =
            if field = "_resolved" then some (.bool true)
            else if field = "extends" then Entries.get? "extends" item
            else Entries.get? field alone := by
  refine ⟨⟨?_, ?_⟩, ?_, ?_⟩
  · rintro ⟨fault, after, ran⟩
    rcases flattenAll_cases kind extendable run with ⟨flats, after', ended⟩ | ⟨cycle, after', ended, cyclic⟩
    · rw [ran] at ended
      cases ended
    · exact cyclic.exists_transGen
  · rintro ⟨key, leads⟩
    rcases flattenAll_cases kind extendable run with ⟨flats, after, ended⟩ | ⟨cycle, after, ended, _⟩
    · exact absurd leads (acyclic_of_flattenAll (.of_outcome ended) key)
    · exact ⟨_, after, ended⟩
  · intro fault after ran
    rcases flattenAll_cases kind extendable run with ⟨flats, after', ended⟩ | ⟨cycle, after', ended, cyclic⟩
    · rw [ran] at ended
      cases ended
    · rw [ran] at ended
      cases ended
      exact ⟨cycle, rfl, cyclic, rfl⟩
  · intro flats after ran
    refine ⟨?_, ?_⟩
    · obtain ⟨order, perm, told⟩ := counted_flattenAll distinct ran
      obtain ⟨reported, once, listed, counted⟩ := exists_orphans kind items (perm.nodup_iff.mpr distinct)
      refine ⟨reported, once, fun key => (listed key).trans ⟨And.right, fun orphan => ⟨?_, orphan⟩⟩, ?_⟩
      · obtain ⟨_, _, found, _⟩ := orphan
        exact perm.mem_iff.mpr (Entries.mem_keys_of_get? found)
      · rw [told, counted]
    · exact fun _ _ _ found orphan => flattenAll_parentless extendable ran found orphan

/-- An item that leads up to itself by way of another one. -/
def ring : Fields := [("hen", .record [("extends", .text "egg"), ("attributes", .record [])]),
  ("egg", .record [("extends", .text "hen"), ("profiles", .array [.text "host"])])]

theorem extendable_ring : Extendable ring := by
  have cases {key : Text} {value : Value} (found : Entries.get? key ring = some value) :
      value = .record [("extends", .text "egg"), ("attributes", .record [])] ∨
        value = .record [("extends", .text "hen"), ("profiles", .array [.text "host"])] := by
    have member := Entries.mem_of_get? found
    simp only [ring, List.mem_cons, Prod.mk.injEq, List.not_mem_nil, or_false] at member
    exact member.imp And.right And.right
  constructor
  · constructor
    · intro key value found
      rcases cases found with rfl | rfl <;> rfl
    · intro key mark item found value given
      rcases cases found with same | same <;> cases same <;> cases given
      rfl
  · intro key mark item found
    rcases cases found with same | same <;> cases same <;> decide
  · intro key mark item found value given
    rcases cases found with same | same <;> cases same <;> cases given <;> exact ⟨_, rfl⟩
  · intro key mark item found value given
    rcases cases found with same | same <;> cases same <;> cases given
    exact ⟨_, rfl⟩

private theorem extendable_removalAndOrphan : Extendable removalAndOrphan := by
  have cases {key : Text} {mark : Option Nat} {item : Fields}
      (found : Entries.get? key removalAndOrphan = some (.object mark item)) :
      (key, Value.object mark item) ∈ removalAndOrphan := Entries.mem_of_get? found
  constructor
  · constructor
    · intro key value found
      have each : ∀ entry ∈ removalAndOrphan, entry.2.isObject = true := by decide
      exact each _ (Entries.mem_of_get? found)
    · intro key mark item found value given
      have member := cases found
      simp only [removalAndOrphan, Value.record, List.mem_cons, Prod.mk.injEq, List.not_mem_nil, or_false] at member
      rcases member with ⟨_, same⟩ | ⟨_, same⟩ | ⟨_, same⟩ <;> cases same <;> cases given <;> rfl
  · intro key mark item found
    have member := cases found
    simp only [removalAndOrphan, Value.record, List.mem_cons, Prod.mk.injEq, List.not_mem_nil, or_false] at member
    rcases member with ⟨_, same⟩ | ⟨_, same⟩ | ⟨_, same⟩ <;> cases same <;> decide
  · intro key mark item found value given
    have member := cases found
    simp only [removalAndOrphan, Value.record, List.mem_cons, Prod.mk.injEq, List.not_mem_nil, or_false] at member
    rcases member with ⟨_, same⟩ | ⟨_, same⟩ | ⟨_, same⟩ <;> cases same <;> cases given <;> exact ⟨_, rfl⟩
  · intro key mark item found value given
    have member := cases found
    simp only [removalAndOrphan, Value.record, List.mem_cons, Prod.mk.injEq, List.not_mem_nil, or_false] at member
    rcases member with ⟨_, same⟩ | ⟨_, same⟩ | ⟨_, same⟩ <;> cases same <;> cases given

/-- The pass over items in a ring stops and names one, and the pass over items with an orphan tells of it. -/
theorem flattenAll_cycles_orphans_ring :
    Extendable ring ∧ Entries.Distinct ring ∧
    (∃ cycle after, (flattenAll .eventClass ring).outcome {} =
        (.error (.integrity (.parentCycle ItemKind.eventClass.name cycle)), after) ∧ IsCycle ring cycle) ∧
    Extendable removalAndOrphan ∧ Entries.Distinct removalAndOrphan ∧
    ∃ run after, (flattenAll .object removalAndOrphan).outcome run = (.ok removalAndOrphanFlat, after) ∧
      ∃ reported : List Text, reported.Nodup ∧ ("stray" : Text) ∈ reported ∧ ("leaf" : Text) ∉ reported ∧
        after.diagnostics.errors = run.diagnostics.errors + reported.length := by
  have distinct : Entries.Distinct ring := by decide
  obtain ⟨stops, names, _⟩ := flattenAll_cycles_orphans .eventClass extendable_ring distinct {}
  have up : Leads ring "hen" "egg" := ⟨_, _, rfl, rfl, rfl⟩
  have back : Leads ring "egg" "hen" := ⟨_, _, rfl, rfl, rfl⟩
  obtain ⟨fault, after, ran⟩ := stops.mpr ⟨"hen", .head up (.single back)⟩
  obtain ⟨cycle, rfl, cyclic, _⟩ := names fault after ran
  refine ⟨extendable_ring, distinct, ⟨cycle, after, ran, cyclic⟩, extendable_removalAndOrphan, by decide, ?_⟩
  obtain ⟨run, after, ran⟩ := flattenAll_removalAndOrphan
  obtain ⟨_, _, tells⟩ :=
    flattenAll_cycles_orphans .object extendable_removalAndOrphan (by decide) run
  obtain ⟨⟨reported, once, listed, told⟩, _⟩ := tells _ after ran
  refine ⟨run, after, ran, reported, once, (listed _).mpr ⟨_, _, rfl, rfl, rfl, rfl⟩, fun member => ?_,
    by rw [told]; rfl⟩
  obtain ⟨mark, item, found, _, _, next⟩ := (listed _).mp member
  cases found
  cases next

end EventSchema.Lineage
