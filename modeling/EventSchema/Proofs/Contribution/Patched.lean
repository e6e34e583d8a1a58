import EventSchema.Proofs.Contribution.Patch
import EventSchema.Proofs.Lineage.Attributes
import EventSchema.Proofs.Value.Independent
import EventSchema.Proofs.Value.Twin
import EventSchema.Proofs.Value.Written

/-!
What the patches of an item come to, attribute by attribute.

A patch of an item that shares nothing with it gives each attribute that it names a value merged over
that of the item, and leaves the others. Where attributes share objects, a patch changes at most those that
share one with an attribute that it names. For all others it makes no difference whether it is applied,
whatever patches come before and after it.
-/

set_option autoImplicit false

namespace EventSchema.Patch

open Value

def changedTo (patcher name : Text) (before : Option Value) (value : Value) : Value :=
  match before with
  | some old => merge old (sourced (Scope.within patcher name) value)
  | none => sourced (Scope.within patcher name) value

private theorem plain_sourced (key : Text) {value : Value} (plain : Plain value) : Plain (sourced key value) := by
  cases value with
  | object mark fields =>
      obtain ⟨unmarked, inside⟩ := plain_object.mp plain
      exact plain_object.mpr ⟨unmarked, inside.put (plain_text key) _⟩
  | null | bool _ | int _ | float _ | text _ | array _ => exact plain

theorem marked_sourced (key : Text) (s : Nat → Prop) (value : Value) (marked : Marked s value) :
    Marked s (sourced key value) := by
  cases value with
  | object mark fields =>
      obtain ⟨own, inside⟩ := marked_object.mp marked
      exact marked_object.mpr ⟨own, inside.put (marked_of_leaf rfl) _⟩
  | null | bool _ | int _ | float _ | text _ | array _ => exact marked

private theorem put_text_shiftFields (amount : Nat) (key text : Text) (fields : Fields) :
    Entries.put key (.text text) (shiftFields amount fields) =
      shiftFields amount (Entries.put key (.text text) fields) := by
  induction fields with
  | nil =>
      rw [Entries.put, shiftFields, shiftFields, shift]
      · rfl
      · simp
  | cons head rest ih =>
      obtain ⟨own, value⟩ := head
      rw [shiftFields, Entries.put, Entries.put, ih]
      by_cases same : own = key
      · rw [if_pos same, if_pos same, shiftFields, shift]
        simp
      · rw [if_neg same, if_neg same, shiftFields]

private theorem sourced_shift (amount : Nat) (key : Text) (value : Value) :
    sourced key (value.shift amount) = (sourced key value).shift amount := by
  cases value with
  | object mark fields => rw [shift, sourced, sourced, shift, put_text_shiftFields]
  | null | bool _ | int _ | float _ | text _ | array _ => simp only [sourced, shift]

def additions (patcher name : Text) (patch : Fields) : Fields :=
  Entries.mapValues (sourced (Scope.within patcher name)) (Entries.attributes patch)

private theorem changed_eq (patcher name : Text) (item changes : Fields) : changed patcher name item changes =
    shiftFields (boundFields item) (Entries.mapValues (sourced (Scope.within patcher name)) changes) := by
  unfold changed
  induction changes with
  | nil => rw [shiftFields]; rfl
  | cons head rest ih =>
      rw [shiftFields, Entries.mapValues, List.map_cons, sourced_shift]
      exact (congrArg _ ih).trans (shiftFields.eq_2 ..).symm

/-- A patch is laid over the attributes of the item, its marks moved above theirs. -/
theorem attributes_overlaid {name : Text} {patch item result : Fields} (ran : applyTo name patch item = .ok result) :
    ∃ patcher amount, (Value.record patch).at_ "extension" = .ok patcher ∧
      MarkedFields (· < amount) (Entries.attributes item) ∧ Entries.attributes result =
        overlay (Entries.attributes item) (shiftFields amount (additions patcher.shown name patch)) := by
  obtain ⟨patcher, listed, changes, attributes, patchers, patched, shape, read, written, rfl⟩ :=
    applyTo_ok ran
  have after : Entries.attributes (Entries.put "_patched_by" (.array patchers) (replaceConstraints patch
      (replacedKeys.foldl (replace patch) (Entries.put "attributes" attributes listed)))) =
      attributes.inner := by
    rw [Entries.attributes_eq_inner, Entries.orEmpty, Entries.getOr, get?_attributes_patched,
      Option.getD_some]
  have same : Entries.attributes listed = Entries.attributes item := by
    rcases shape with rfl | ⟨joined, rfl⟩
    · rfl
    · rw [Entries.attributes_put_of_ne (by decide)]
  have before : (Entries.orEmpty "attributes" listed).inner = Entries.attributes item := by
    rw [← Entries.attributes_eq_inner, same]
  refine ⟨patcher, boundFields listed, patched, same ▸ (markedFields_bound listed).attributes, ?_⟩
  rw [after, additions, Lineage.attributes_of_fieldsOrNone read]
  rcases written with ⟨rfl, rfl⟩ | ⟨fields, opened, rfl⟩
  · rw [before, show Entries.mapValues _ [] = ([] : Fields) from rfl, shiftFields, overlay]
  · obtain ⟨mark, opens⟩ := inner_of_asFields opened
    rw [Value.inner_record, changed_eq, ← before, opens, Value.inner]

/-- A patch that shares nothing is written attribute by attribute. -/
theorem attributes_applyTo {name : Text} {patch item result : Fields}
    (own : Unshared (Entries.attributes item)) (plain : Unshared (Entries.attributes patch))
    (ran : applyTo name patch item = .ok result) :
    ∃ patcher, (Value.record patch).at_ "extension" = .ok patcher ∧ Unshared (Entries.attributes result) ∧
      ∀ field, Entries.get? field (Entries.attributes result) =
        match Entries.get? field (Entries.attributes patch) with
        | none => Entries.get? field (Entries.attributes item)
        | some value => some
            (changedTo patcher.shown name (Entries.get? field (Entries.attributes item)) value) := by
  obtain ⟨patcher, amount, patched, _, overlaid⟩ := attributes_overlaid ran
  have sourcedEach : PlainFields (additions patcher.shown name patch) := plainFields_iff.mpr fun entry member => by
    obtain ⟨origin, known, rfl⟩ := List.mem_map.mp member
    exact plain_sourced _ (plainFields_iff.mp plain.plain origin known)
  refine ⟨patcher, patched, ?_⟩
  rw [overlaid, shiftFields_of_plain _ _ sourcedEach, overlay_of_plain own.plain sourcedEach]
  refine ⟨⟨PlainFields.merge _ _ own.plain sourcedEach, distinct_mergeFields _ own.distinct⟩, fun field => ?_⟩
  unfold additions
  rw [get?_mergeFields _ _ (plain.distinct.mapValues _), Entries.get?_mapValues]
  cases Entries.get? field (Entries.attributes patch) with
  | none => rfl
  | some value => cases Entries.get? field (Entries.attributes item) <;> rfl

/-! ### The patches of one item -/

/-- A patch that is there in two runs, or one of touched attributes that the second run leaves out. -/
def LeftOut (touched : List Text) (patch? other? : Option Fields) : Prop :=
  other? = patch? ∨
    other? = none ∧ ∀ patch ∈ patch?, ∀ name ∈ Entries.keys (Entries.attributes patch), name ∈ touched

theorem Independent.additions {touched : List Text} {patch : Fields}
    (apart : Independent touched (Entries.attributes patch))
    (patcher name : Text) : Independent touched (additions patcher name patch) :=
  apart.mapValues fun s value => marked_sourced _ s value

/-- Attributes that share nothing with the others stay so under a patch in which they do not either. -/
theorem independent_applyTo {touched : List Text} {name : Text} {patch item result : Fields}
    (own : Independent touched (Entries.attributes item)) (apart : Independent touched (Entries.attributes patch))
    (ran : applyTo name patch item = .ok result) : Independent touched (Entries.attributes result) := by
  obtain ⟨_, _, _, below, overlaid⟩ := attributes_overlaid ran
  rw [overlaid]
  exact own.overlay below (Independent.additions apart _ _)

private theorem beside_applyTo {touched : List Text} {name : Text} {patch item result : Fields}
    (own : Independent touched (Entries.attributes item)) (apart : Independent touched (Entries.attributes patch))
    (named : ∀ name ∈ Entries.keys (Entries.attributes patch), name ∈ touched)
    (ran : applyTo name patch item = .ok result) :
    Entries.beside touched (Entries.attributes result) = Entries.beside touched (Entries.attributes item) := by
  obtain ⟨patcher, amount, _, below, overlaid⟩ := attributes_overlaid ran
  obtain ⟨_, split, moved⟩ := own.exists_split below (Independent.additions apart patcher.shown name)
  have nothing : Entries.beside touched (shiftFields amount (additions patcher.shown name patch)) = [] := by
    refine List.filter_eq_nil_iff.mpr fun entry member => ?_
    have key := List.mem_map_of_mem (f := Prod.fst) member
    rw [show List.map Prod.fst _ = Entries.keys _ from rfl, keys_shiftFields, additions, Entries.keys_mapValues] at key
    simpa using named _ key
  rw [overlaid, (split.overlay moved).2, nothing, overlay]

/-- Leaving out patches of touched attributes makes no difference to the others, as long as none of these
shares an object with a touched one. -/
theorem agree_applyEach {touched : List Text} {name : Text} {patches others : List (Option Fields)}
    (leftOut : List.Forall₂ (LeftOut touched) patches others)
    (apart : ∀ patch, some patch ∈ patches → Independent touched (Entries.attributes patch))
    {item other result result' : Fields} (own : Independent touched (Entries.attributes item))
    (own' : Independent touched (Entries.attributes other))
    (twins : TwinBeside touched (Entries.attributes item) (Entries.attributes other))
    (ran : (patches.filterMap id).foldlM (fun item patch => applyTo name patch item) item = .ok result)
    (ran' : (others.filterMap id).foldlM (fun item patch => applyTo name patch item) other = .ok result') :
    Independent touched (Entries.attributes result) ∧ Independent touched (Entries.attributes result') ∧
      TwinBeside touched (Entries.attributes result) (Entries.attributes result') := by
  induction leftOut generalizing item other with
  | nil =>
      cases pure_eq_ok.mp ran
      cases pure_eq_ok.mp ran'
      exact ⟨own, own', twins⟩
  | @cons patch? other? patches others head rest ih =>
      have shares := fun patch member => apart patch (List.mem_cons_of_mem patch? member)
      cases patch? with
      | none =>
          have absent : other? = none := head.elim id And.left
          rw [absent] at ran'
          exact ih shares own own' twins ran ran'
      | some patch =>
          have first (rest : List (Option Fields)) :
              (some patch :: rest).filterMap id = patch :: rest.filterMap id := rfl
          rw [first, List.foldlM_cons] at ran
          obtain ⟨middle, step, ran⟩ := bind_eq_ok.mp ran
          have independent := apart patch (List.mem_cons_self ..)
          have whole := independent_applyTo own independent step
          rcases head with rfl | ⟨rfl, named⟩
          · rw [first, List.foldlM_cons] at ran'
            obtain ⟨middle', step', ran'⟩ := bind_eq_ok.mp ran'
            refine ih shares whole (independent_applyTo own' independent step') ?_ ran ran'
            obtain ⟨patcher, _, patched, below, overlaid⟩ := attributes_overlaid step
            obtain ⟨patcher', _, patched', below', overlaid'⟩ := attributes_overlaid step'
            cases patched.symm.trans patched'
            rw [overlaid, overlaid']
            exact twins.overlay own own' (Independent.additions independent _ _) below below'
          · refine ih shares whole own' ?_ ran ran'
            unfold TwinBeside at twins ⊢
            rw [beside_applyTo own independent (named patch rfl) step]
            exact twins

/-- Attributes that share nothing with the others in an item and in its patches do not in what these come to. -/
theorem independent_applyEach {touched : List Text} {name : Text} {patches : List Fields}
    (apart : ∀ patch ∈ patches, Independent touched (Entries.attributes patch)) {item result : Fields}
    (own : Independent touched (Entries.attributes item))
    (ran : patches.foldlM (fun item patch => applyTo name patch item) item = .ok result) :
    Independent touched (Entries.attributes result) :=
  foldlM_invariant (motive := fun item => Independent touched (Entries.attributes item)) ran own
    fun _ patch _ member held step => independent_applyTo held (apart patch member) step

/-! ### All items -/

private theorem get?_applyEach_of_ne {kind : ItemKind} {name key : Text} {patches : List Fields}
    {items after : Entries Fields} (other : key ≠ name)
    (ran : (patches.foldlM (fun items patch => apply kind items name patch) items).Yields after) :
    Entries.get? key after = Entries.get? key items := by
  refine Act.foldlM_keeps (motive := fun state => Entries.get? key state = Entries.get? key items) ran rfl
    fun state patch next _ held step => ?_
  rcases apply_ok step with ⟨_, rfl⟩ | ⟨_, _, _, _, _, rfl⟩
  · exact held
  · rw [Entries.get?_put_of_ne (Ne.symm other), held]

private theorem get?_applyEach {kind : ItemKind} {name : Text} {patches : List Fields} {items after : Entries Fields}
    {item : Fields} (found : Entries.get? name items = some item)
    (ran : (patches.foldlM (fun items patch => apply kind items name patch) items).Yields after) :
    ∃ result, patches.foldlM (fun item patch => applyTo name patch item) item = .ok result ∧
      Entries.get? name after = some result := by
  induction patches generalizing items item with
  | nil =>
      cases Act.yields_pure.mp ran
      exact ⟨item, rfl, found⟩
  | cons patch rest ih =>
      rw [List.foldlM_cons] at ran
      obtain ⟨middle, step, ran⟩ := Act.yields_bind ran
      rcases apply_ok step with ⟨absent, _⟩ | ⟨_, patched, known, _, one, rfl⟩
      · cases absent.symm.trans found
      · cases found.symm.trans known
        obtain ⟨result, others, held⟩ := ih (Entries.get?_put_self ..) ran
        refine ⟨result, ?_, held⟩
        rw [List.foldlM_cons, one, ok_bind]
        exact others

theorem get?_applyAll {kind : ItemKind} {patches : Patches} {items patched : Entries Fields} {name : Text}
    {item : Fields} (distinct : Entries.Distinct patches) (found : Entries.get? name items = some item)
    (ran : (applyAll kind items patches).Yields patched) :
    ∃ result, ((Entries.get? name patches).getD []).foldlM (fun item patch => applyTo name patch item) item =
        .ok result ∧ Entries.get? name patched = some result := by
  unfold applyAll at ran
  induction patches generalizing items item with
  | nil =>
      cases Act.yields_pure.mp ran
      exact ⟨item, rfl, found⟩
  | cons head rest ih =>
      obtain ⟨fresh, others⟩ := List.nodup_cons.mp distinct
      rw [List.foldlM_cons] at ran
      obtain ⟨middle, step, ran⟩ := Act.yields_bind ran
      rw [Entries.get?_cons]
      by_cases own : head.1 = name
      · subst own
        obtain ⟨result, applied, held⟩ := get?_applyEach found step
        obtain ⟨last, none, held⟩ := ih others held ran
        rw [Entries.get?_eq_none_iff.mpr fresh] at none
        cases pure_eq_ok.mp none
        exact ⟨result, by rw [if_pos rfl]; exact applied, held⟩
      · rw [if_neg own]
        exact ih others ((get?_applyEach_of_ne (Ne.symm own) step).trans found) ran

theorem get?_applyAll_congr {kind : ItemKind} {patches others : Patches} {items first second : Entries Fields}
    {name : Text} (distinct : Entries.Distinct patches) (distinct' : Entries.Distinct others)
    (same : (Entries.get? name others).getD [] = (Entries.get? name patches).getD [])
    (ran : (applyAll kind items patches).Yields first) (ran' : (applyAll kind items others).Yields second) :
    Entries.get? name second = Entries.get? name first := by
  cases found : Entries.get? name items with
  | none =>
      have unknown {patches : Patches} {patched : Entries Fields}
          (ran : (applyAll kind items patches).Yields patched) : Entries.get? name patched = none := by
        rw [Entries.get?_eq_none_iff, (related_applyAll ran).keys_eq]
        exact Entries.get?_eq_none_iff.mp found
      rw [unknown ran, unknown ran']
  | some item =>
      obtain ⟨result, applied, held⟩ := get?_applyAll distinct found ran
      obtain ⟨result', applied', held'⟩ := get?_applyAll distinct' found ran'
      rw [same] at applied'
      cases applied.symm.trans applied'
      rw [held, held']

end EventSchema.Patch
