import EventSchema.Proofs.Lineage.Attributes
import EventSchema.Proofs.Value.Clear

/-!
Flattening with the items of a scope and without them.

An item outside a scope that refers to nothing in it has no ancestor in it either. So its line of
ancestors stays the same when the items of the scope are left out, and so does its flat form.
-/

set_option autoImplicit false

namespace EventSchema.Lineage

open Value

variable {kind : ItemKind} {items : Fields} {scope key : Text}

/-! ### Nothing in a line leads into the scope -/

private theorem clear_mapValues_sourced (free : Scope.owns scope key = false) {attributes : Fields}
    (clear : ClearFields scope attributes) :
    ClearFields scope (Entries.mapValues (sourced key) attributes) := by
  refine clear.mapValues ?_ ?_
  · intro value shape
    cases value with
    | object mark fields => cases shape
    | null | bool _ | int _ | float _ | text _ | array _ => rfl
  · intro mark inner inside
    exact ⟨rfl, clear_object.mpr
      (inside.putNew (clearField_text free (by decide)) (clear_of_not_object rfl))⟩

private theorem standalone_clear (free : Scope.owns scope key = false) {item flat : Fields}
    (clear : ClearFields scope item) (ran : standalone key item = .ok flat) :
    ClearFields scope flat := by
  unfold standalone at ran
  obtain ⟨attributes, read, ran⟩ := bind_eq_ok.mp ran
  rw [← pure_eq_ok.mp ran]
  have own : ClearFields scope attributes := attributes_of_fieldsOrNone read ▸ clear.attributes
  exact clear.put_record _ (clear_mapValues_sourced free (own.filter _))

private theorem takeField_clear {parent taken after : Fields} {field : Text} {value : Value}
    (clear : ClearFields scope taken) (own : ClearField scope (field, value))
    (inside : Clear scope value) (ran : takeField parent taken field value = .ok after) :
    ClearFields scope after := by
  unfold takeField at ran
  split at ran
  · exact Except.ok.inj ran ▸ clear
  · split at ran
    · obtain ⟨profiles, _, ran⟩ := bind_eq_ok.mp ran
      rw [← pure_eq_ok.mp ran]
      exact clear.put (clearField_of_key (by decide) _) (clear_of_not_object rfl)
    · split at ran
      · split at ran
        · rename_i mark observables found
          split at ran
          · rw [← Except.ok.inj ran]
            exact clear.put (clearField_of_key (by decide) _)
              (Clear.merge _ _ (clear.of_get? found).2 inside)
          · exact Except.ok.inj ran ▸ clear
        · exact Except.ok.inj ran ▸ clear.put own inside
      · exact Except.ok.inj ran ▸ clear.put own inside

private theorem override_clear (free : Scope.owns scope key = false) {inherited after : Value}
    (clear : Clear scope inherited) {name : Text} {value : Value}
    (own : ClearField scope (name, value)) (inside : Clear scope value)
    (ran : override key inherited name value = .ok after) : Clear scope after := by
  unfold override at ran
  obtain ⟨fields, opened, ran⟩ := bind_eq_ok.mp ran
  have clearFields := clear.asFields opened
  split at ran
  · rename_i mark base own' source found _
    have before := clear_object.mp (clearFields.of_get? found).2
    have declared := clear_object.mp inside
    rw [unshared] at ran
    dsimp only at ran
    rw [merge_object] at ran
    have merged := ClearFields.merge base _ before (declared.unshared source)
    have wrote {fields' : Fields} (clear : ClearFields scope fields') :
        Clear scope (.record (putShared name (.object mark fields') fields)) :=
      clear_record.mpr (clearFields.putShared (clearField_of_object rfl) (clear_object.mpr clear))
    cases given : Entries.get? "_source" base with
    | none =>
        rw [given] at ran
        exact pure_eq_ok.mp ran ▸ wrote merged
    | some origin =>
        rw [given] at ran
        dsimp only at ran
        split at ran
        · exact pure_eq_ok.mp ran ▸ wrote merged
        · obtain ⟨field, known⟩ := before.of_get? given
          exact pure_eq_ok.mp ran ▸ wrote (merged.put field known)
  · rename_i mark declared _ _
    rw [← pure_eq_ok.mp ran, unshared]
    have copied := ClearFields.unshared declared (clear_object.mp inside)
    refine clear_record.mpr (clearFields.put (clearField_of_object rfl) (clear_object.mpr ?_))
    exact copied.putNew (clearField_text free (by decide)) (clear_of_not_object rfl)
  · rw [← pure_eq_ok.mp ran]
    exact clear_record.mpr (clearFields.put own inside)

private theorem clear_foldl_erase (keys : List Text) {fields : Fields} (clear : ClearFields scope fields) :
    ClearFields scope (keys.foldl (fun fields key => Entries.erase key fields) fields) := by
  induction keys generalizing fields with
  | nil => exact clear
  | cons head rest ih => exact ih (clear.erase head)

private theorem descend_clear (free : Scope.owns scope key = false) {parent item flat : Fields}
    (above : ClearFields scope parent) (clear : ClearFields scope item)
    (ran : descend kind key parent item = .ok flat) : ClearFields scope flat := by
  unfold descend at ran
  dsimp only at ran
  obtain ⟨taken, taking, ran⟩ := bind_eq_ok.mp ran
  obtain ⟨own, read, ran⟩ := bind_eq_ok.mp ran
  obtain ⟨attributes, overriding, ran⟩ := bind_eq_ok.mp ran
  obtain ⟨fields, opened, ran⟩ := bind_eq_ok.mp ran
  have start := clear_foldl_erase ownKeys above
  have clearTaken : ClearFields scope taken := by
    refine foldlM_invariant taking (start.erase _) ?_
    intro state entry next member held step
    obtain ⟨field, inside⟩ := clearFields_iff.mp clear entry member
    exact takeField_clear held field inside step
  have clearOwn : ClearFields scope own := attributes_of_fieldsOrNone read ▸ clear.attributes
  have clearAttributes : Clear scope attributes := by
    refine foldlM_invariant (motive := Clear scope) overriding ?_ ?_
    · unfold orElse
      split
      · rename_i value found
        split
        · exact (start.of_get? found).2
        · exact clear_record.mpr clearFields_nil
      · exact clear_record.mpr clearFields_nil
    · intro state entry next member held step
      obtain ⟨field, inside⟩ := clearFields_iff.mp clearOwn entry member
      exact override_clear free held field inside step
  have whole := clearTaken.put_record "attributes" ((clearAttributes.asFields opened).filter
    fun entry => !entry.2.isNull)
  have flagged (flag : Bool) : ClearFields scope (Entries.put "observable_inherited?" (.bool flag)
      (Entries.put "attributes" (.record (kept fields)) taken)) :=
    whole.put (clearField_of_key (by decide) _) (clear_of_not_object rfl)
  cases kind with
  | object =>
      dsimp only at ran
      split at ran
      · exact pure_eq_ok.mp ran ▸ flagged false
      · split at ran
        · exact pure_eq_ok.mp ran ▸ flagged true
        · exact pure_eq_ok.mp ran ▸ whole
  | eventClass | profile => exact pure_eq_ok.mp ran ▸ whole

/-! ### The line of an item outside the scope -/

def ClearItems (scope : Text) (items : Fields) : Prop :=
  ∀ entry ∈ items, Scope.owns scope entry.1 = false → Clear scope entry.2

private theorem findParent_names {mark : Option Nat} {item : Fields} {parent : Text}
    (found : findParent items key (.object mark item) = .ok (some parent)) :
    Entries.orNull "extends" item = .text parent ∨
      ∃ owner name, Entries.get? "extension" item = some owner ∧ owner.truthy = true ∧
        parent = Scope.within owner.shown name := by
  unfold findParent at found
  rw [asFields, ok_bind] at found
  cases named : Entries.get? "extends" item with
  | none =>
      rw [named] at found
      cases found
  | some name =>
      rw [named] at found
      have itself : Entries.orNull "extends" item = name := by
        rw [Entries.orNull, Entries.getOr, named, Option.getD_some]
      rw [itself]
      have byName (found : (do
          let _ ← (Value.text "/").member name
          if ← name.isEntry items then return name.text? else return none :
            Except Fault (Option Text)) = .ok (some parent)) : name = .text parent := by
        obtain ⟨_, _, found⟩ := bind_eq_ok.mp found
        obtain ⟨listed, entry, found⟩ := bind_eq_ok.mp found
        cases listed with
        | false => cases found
        | true =>
            cases name with
            | text text => rw [← Option.some.inj (pure_eq_ok.mp found)]
            | null | bool _ | int _ | float _ | array _ | object _ _ => cases found
      dsimp only at found
      split at found
      · cases found
      · split at found
        · rename_i owner known
          split at found
          · rename_i true?
            obtain ⟨slashed, _, found⟩ := bind_eq_ok.mp found
            cases slashed with
            | true => exact Or.inl (byName found)
            | false =>
                rw [Bool.not_false, if_pos rfl] at found
                split at found
                · rw [pure_eq_ok, Option.some.injEq] at found
                  exact Or.inr ⟨owner, name.shown, known, true?, found.symm⟩
                · exact Or.inl (byName found)
          · exact Or.inl (byName found)
        · exact Or.inl (byName found)

private theorem findParent_free (proper : Scope.Proper scope) {mark : Option Nat} {item : Fields}
    (clear : ClearSurface scope item) {parent : Text}
    (found : findParent items key (.object mark item) = .ok (some parent)) :
    Scope.owns scope parent = false := by
  rcases findParent_names found with itself | ⟨owner, name, known, given, same⟩
  · exact clear.name (by decide) parent itself
  · rw [same, Scope.owns_within proper.plain]
    exact clear.owner proper known given

private theorem findParent_outside (proper : Scope.Proper scope) (mark : Option Nat) {item : Fields}
    (clear : ClearSurface scope item) :
    findParent (Entries.outside scope items) key (.object mark item) =
      findParent items key (.object mark item) := by
  unfold findParent
  simp only [asFields, ok_bind]
  cases named : Entries.get? "extends" item with
  | none => rfl
  | some name =>
      have entry := Scope.isEntry_outside
        ((clear _ (Entries.mem_of_get? named)).name (by decide)) items
      dsimp only
      cases known : Entries.get? "extension" item with
      | none => simp only [entry]
      | some owner =>
          simp only [entry]
          cases given : owner.truthy with
          | false => simp only [Bool.false_eq_true, if_false]
          | true =>
              have free : Scope.owns scope (Scope.within owner.shown name.shown) = false := by
                rw [Scope.owns_within proper.plain]
                exact clear.owner proper known given
              rw [Entries.has_outside items free]

theorem Ancestry.outside (proper : Scope.Proper scope) (clear : ClearItems scope items)
    {line : List (Text × Fields)} (ancestry : Ancestry items line)
    (free : ∀ entry above, line = entry :: above → Scope.owns scope entry.1 = false) :
    Ancestry (Entries.outside scope items) line := by
  induction ancestry with
  | @root key mark item found first =>
      have own := free _ _ rfl
      have surface : ClearSurface scope item :=
        (clear_object.mp (clear _ (Entries.mem_of_get? found) own)).surface
      refine .root ((Entries.get?_outside items own).trans found) (first.imp_right fun alone => ?_)
      exact (findParent_outside proper mark surface).trans alone
  | @child key mark item parent above found fresh next older ih =>
      have own := free _ _ rfl
      have surface : ClearSurface scope item :=
        (clear_object.mp (clear _ (Entries.mem_of_get? found) own)).surface
      refine .child ((Entries.get?_outside items own).trans found) fresh
        ((findParent_outside proper mark surface).trans next) (ih ?_)
      intro entry above same
      rw [← (List.cons.inj same).1]
      exact findParent_free proper surface next

theorem Flat.outside (proper : Scope.Proper scope) (clear : ClearItems scope items)
    (free : Scope.owns scope key = false) {flat : Fields} (computed : Flat kind items key flat) :
    Flat kind (Entries.outside scope items) key flat := by
  obtain ⟨item, above, line, inherited⟩ := computed
  refine ⟨item, above, line.outside proper clear ?_, inherited⟩
  intro entry others same
  rw [← (List.cons.inj same).1]
  exact free

/-- The flat form of an item outside the scope refers to nothing in it. -/
theorem Flat.clear (proper : Scope.Proper scope) (clear : ClearItems scope items)
    (free : Scope.owns scope key = false) {flat : Fields} (computed : Flat kind items key flat) :
    ClearFields scope flat := by
  obtain ⟨item, above, line, inherited⟩ := computed
  generalize shape : (key, item) :: above = whole at line
  induction line generalizing key item above flat with
  | @root own mark fields found start =>
      cases shape
      have item := clear_object.mp (clear _ (Entries.mem_of_get? found) free)
      rw [inherit] at inherited
      split at inherited
      · exact Except.ok.inj inherited ▸ item
      · split at inherited
        · exact standalone_clear free item inherited
        · obtain ⟨alone, ran, same⟩ := map_eq_ok.mp inherited
          rw [← same]
          exact (standalone_clear free item ran).put (clearField_of_key (by decide) _)
            (clear_of_not_object rfl)
  | @child own mark fields parent elders found fresh next older ih =>
      cases shape
      have item := clear_object.mp (clear _ (Entries.mem_of_get? found) free)
      rw [inherit] at inherited
      obtain ⟨ancestor, computed, rest⟩ := bind_eq_ok.mp inherited
      obtain ⟨taken, ran, same⟩ := map_eq_ok.mp rest
      have ancestorClear := ih (findParent_free proper item.surface next) _ _ computed rfl
      rw [← same]
      exact (descend_clear free ancestorClear item ran).put (clearField_of_key (by decide) _)
        (clear_of_not_object rfl)

/-- Items are flattened alike with a scope and without it, and their flat forms do not refer to it. -/
theorem flattenAll_outside (proper : Scope.Proper scope) (clear : ClearItems scope items)
    {full part : Entries Fields} (whole : (flattenAll kind items).Yields full)
    (rest : (flattenAll kind (Entries.outside scope items)).Yields part) :
    part = Entries.outside scope full ∧ ∀ entry ∈ part, ClearFields scope entry.2 := by
  have first := flattenAll_ok whole
  have second := flattenAll_ok rest
  constructor
  · refine first.outside second ?_
    intro entry member free left right one two
    exact (one.outside proper clear free).unique two
  · intro entry member
    obtain ⟨origin, known, flat⟩ := second.mem_right member
    have outside := Entries.mem_outside.mp known
    refine flat.clear proper ?_ outside.2
    intro other present free
    exact clear other (Entries.mem_outside.mp present).1 free

end EventSchema.Lineage
