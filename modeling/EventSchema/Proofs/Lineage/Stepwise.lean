import EventSchema.Proofs.Lineage.Own

/-!
Flattening in several passes.

Some items may be replaced by their flattened form before the others are flattened. A flattened item
that names a parent is marked, so it stands at the end of its line and is left as it is; one that
names none is flattened on its own once more, which changes nothing. So every line ends as before, and
what was taken out of an item does not come back. A pass over flattened items alone changes and
reports nothing.
-/

set_option autoImplicit false

namespace EventSchema.Lineage

variable {kind : ItemKind} {items : Fields}

/-! ### An item flattened again on its own -/

private theorem sourced_sourced (key : Text) (value : Value) :
    sourced key (sourced key value) = sourced key value := by
  cases value with
  | object mark fields =>
      have known : Entries.has "_source" (Entries.putNew "_source" (.text key) fields) = true := by
        rw [Entries.has, Entries.get?_putNew]
        cases Entries.get? "_source" fields <;> rfl
      rw [sourced, sourced, Entries.putNew, if_pos known]
  | null | bool _ | int _ | float _ | text _ | array _ => rfl

private theorem isNull_sourced (key : Text) (value : Value) : (sourced key value).isNull = value.isNull := by
  cases value <;> rfl

private theorem mapValues_sourced_kept (key : Text) (attributes : Fields) :
    Entries.mapValues (sourced key) (kept (Entries.mapValues (sourced key) (kept attributes))) =
      Entries.mapValues (sourced key) (kept attributes) := by
  have present : kept (Entries.mapValues (sourced key) (kept attributes)) =
      Entries.mapValues (sourced key) (kept attributes) := by
    refine List.filter_eq_self.mpr fun entry member => ?_
    obtain ⟨origin, before, same⟩ := List.mem_map.mp member
    rw [← same, isNull_sourced]
    exact (List.mem_filter.mp before).2
  rw [present, Entries.mapValues, Entries.mapValues, List.map_map]
  refine List.map_congr_left fun entry _ => ?_
  exact congrArg (Prod.mk entry.1) (sourced_sourced key entry.2)

private theorem fieldsOrNone_record (fields : Fields) :
    Value.fieldsOrNone (some (.record fields)) = .ok fields := by
  cases fields <;> rfl

private theorem standalone_standalone {key : Text} {item flat : Fields}
    (alone : standalone key item = .ok flat) : standalone key flat = .ok flat := by
  unfold standalone at alone
  obtain ⟨attributes, _, same⟩ := bind_eq_ok.mp alone
  rw [pure_eq_ok] at same
  subst same
  unfold standalone
  rw [Entries.get?_put_self, fieldsOrNone_record, ok_bind, mapValues_sourced_kept,
    Entries.put_of_get? (Entries.get?_put_self ..)]
  rfl

/-! ### Items of which some are flat -/

/-- The items with the chosen ones replaced by their flattened form. -/
def partlyFlat (chosen : Text → Bool) (flats : Entries Fields) (items : Fields) : Fields :=
  items.map fun entry =>
    (entry.1, if chosen entry.1 then
      ((Entries.get? entry.1 flats).map Value.record).getD entry.2 else entry.2)

variable {chosen : Text → Bool} {flats : Entries Fields}

private theorem get?_partlyFlat (key : Text) (items : Fields) :
    Entries.get? key (partlyFlat chosen flats items) = (Entries.get? key items).map fun value =>
      if chosen key then ((Entries.get? key flats).map Value.record).getD value else value := by
  induction items with
  | nil => rfl
  | cons head rest ih =>
      change Entries.get? key ((head.1, _) :: partlyFlat chosen flats rest) = _
      rw [Entries.get?_cons, Entries.get?_cons, ih]
      by_cases same : head.1 = key
      · rw [if_pos same, if_pos same, same]
        rfl
      · rw [if_neg same, if_neg same]

private theorem has_partlyFlat (key : Text) :
    Entries.has key (partlyFlat chosen flats items) = Entries.has key items := by
  rw [Entries.has, Entries.has, get?_partlyFlat, Option.isSome_map]

theorem findParent_congr {items other : Fields}
    (same : ∀ key, Entries.has key other = Entries.has key items) (key : Text) (item : Value) :
    findParent other key item = findParent items key item := by
  have entries (parent : Value) : parent.isEntry other = parent.isEntry items := by
    cases parent with
    | text name => exact congrArg Except.ok (same name)
    | null | bool _ | int _ | float _ | array _ | object _ _ => rfl
  unfold findParent
  simp only [same, entries]

private theorem findParent_partlyFlat (key : Text) (item : Value) :
    findParent (partlyFlat chosen flats items) key item = findParent items key item :=
  findParent_congr has_partlyFlat key item

/-- A flat item stands at the end of its own line: it is marked or names no parent. -/
theorem flat_settled {key : Text} {flat : Fields} (computed : Flat kind items key flat) :
    Value.given (Entries.get? "_resolved" flat) = true ∨
      Value.given (Entries.get? "extends" flat) = false ∧ standalone key flat = .ok flat := by
  have marked (fields : Fields) : Value.given (Entries.get? "_resolved" (resolved fields)) = true := by
    rw [resolved, Entries.get?_put_self]
    rfl
  obtain ⟨item, above, line, inherited⟩ := computed
  cases above with
  | nil =>
      rw [inherit] at inherited
      split at inherited
      · rename_i before
        exact Or.inl (Except.ok.inj inherited ▸ before)
      · split at inherited
        · rename_i orphan
          refine Or.inr ⟨?_, standalone_standalone inherited⟩
          rw [get?_standalone inherited (by decide)]
          exact Bool.not_eq_true' _ ▸ orphan
        · obtain ⟨alone, _, same⟩ := map_eq_ok.mp inherited
          exact Or.inl (same ▸ marked alone)
  | cons parent elders =>
      rw [inherit] at inherited
      obtain ⟨ancestor, _, rest⟩ := bind_eq_ok.mp inherited
      obtain ⟨taken, _, same⟩ := map_eq_ok.mp rest
      exact Or.inl (same ▸ marked taken)

/-- A flat item among others is its own flat form. -/
theorem flat_of_settled {others : Fields} {key : Text} {mark : Option Nat} {flat : Fields}
    (found : Entries.get? key others = some (.object mark flat))
    (settled : Value.given (Entries.get? "_resolved" flat) = true ∨
      Value.given (Entries.get? "extends" flat) = false ∧ standalone key flat = .ok flat) :
    Flat kind others key flat := by
  by_cases marked : Value.given (Entries.get? "_resolved" flat) = true
  · exact ⟨flat, [], .root found (Or.inl marked), by rw [inherit, if_pos marked]⟩
  · obtain ⟨silent, alone⟩ := settled.resolve_left marked
    have orphan : (!Value.given (Entries.get? "extends" flat)) = true := by rw [silent, Bool.not_false]
    refine ⟨flat, [], .root found (Or.inr (findParent_of_not_given others key mark orphan)), ?_⟩
    rw [inherit, if_neg marked, if_pos orphan, alone]

private theorem get?_partlyFlat_of_open {key : Text} {value : Value}
    (found : Entries.get? key items = some value)
    (open_ : ¬(chosen key = true ∧ (Entries.get? key flats).isSome = true)) :
    Entries.get? key (partlyFlat chosen flats items) = some value := by
  rw [get?_partlyFlat, found, Option.map_some]
  by_cases picked : chosen key = true
  · rw [if_pos picked, Option.not_isSome_iff_eq_none.mp fun known => open_ ⟨picked, known⟩]
    rfl
  · rw [if_neg picked]

private theorem flat_of_replaced
    (each : ∀ key flat, Entries.get? key flats = some flat → Flat kind items key flat)
    {key : Text} {flat : Fields} {value : Value} (computed : Flat kind items key flat)
    (found : Entries.get? key items = some value)
    (picked : chosen key = true ∧ (Entries.get? key flats).isSome = true) :
    Flat kind (partlyFlat chosen flats items) key flat := by
  obtain ⟨before, known⟩ := Option.isSome_iff_exists.mp picked.2
  have same : before = flat := (each key before known).unique computed
  have here : Entries.get? key (partlyFlat chosen flats items) = some (.record flat) := by
    rw [get?_partlyFlat, found, Option.map_some, if_pos picked.1, known, same]
    rfl
  exact flat_of_settled here (flat_settled computed)

private theorem flat_partlyFlat
    (each : ∀ key flat, Entries.get? key flats = some flat → Flat kind items key flat)
    {key : Text} {flat : Fields} (computed : Flat kind items key flat) :
    Flat kind (partlyFlat chosen flats items) key flat := by
  obtain ⟨item, above, line, inherited⟩ := computed
  generalize shape : (key, item) :: above = whole at line
  -- a replaced item ends its line, so only the lines of the others are followed up
  induction line generalizing key item above flat with
  | @root own mark fields found start =>
      cases shape
      by_cases picked : chosen own = true ∧ (Entries.get? own flats).isSome = true
      · exact flat_of_replaced each ⟨fields, [], .root found start, inherited⟩ found picked
      · refine ⟨fields, [], .root (get?_partlyFlat_of_open found picked) ?_, inherited⟩
        exact start.imp_right fun alone => (findParent_partlyFlat own _).trans alone
  | @child own mark fields parent elders found fresh next older ih =>
      cases shape
      by_cases picked : chosen own = true ∧ (Entries.get? own flats).isSome = true
      · exact flat_of_replaced each ⟨fields, _, .child found fresh next older, inherited⟩ found picked
      · rw [inherit] at inherited
        obtain ⟨ancestor, computed, rest⟩ := bind_eq_ok.mp inherited
        obtain ⟨other, higher, line, again⟩ := ih _ _ computed rfl
        refine ⟨fields, (parent.1, other) :: higher, .child (get?_partlyFlat_of_open found picked)
          fresh ((findParent_partlyFlat own _).trans next) line, ?_⟩
        rw [inherit, again]
        exact rest

/-! ### The second pass -/

theorem mapM_flatten_complete {keys : List Text} {flats memo : Entries Fields} (run : Run)
    (sound : Sound kind items memo)
    (each : List.Forall₂ (fun key flat => flat.1 = key ∧ Flat kind items key flat.2) keys flats) :
    ∃ kept after, (keys.mapM fun key => do return (key, ← flatten kind items [] key) :
      Flattening (Entries Fields)).outcome memo run = (.ok flats, kept, after) := by
  induction each generalizing memo run with
  | nil => exact ⟨memo, run, rfl⟩
  | @cons key flat keys flats first _ ih =>
      obtain ⟨rfl, item, above, line, computed⟩ := first
      obtain ⟨middle, between, ran⟩ := flatten_complete line run rfl sound
        (fun entry _ => List.not_mem_nil) computed
      obtain ⟨_, soundHere⟩ := flatten_sound sound ran
      obtain ⟨kept, after, others⟩ := ih between soundHere
      refine ⟨kept, after, ?_⟩
      rw [List.mapM_cons]
      simp only [Flattening.outcome_bind, ran, Flattening.outcome_pure, others]

/-- Items that are marked or name no parent are flattened without a notice. -/
theorem mapM_flatten_silent {keys : List Text} {flats memo kept : Entries Fields} {run after : Run}
    (settled : ∀ key ∈ keys, ∃ mark item, Entries.get? key items = some (.object mark item) ∧
      (Value.given (Entries.get? "_resolved" item) = true ∨
        Value.given (Entries.get? "extends" item) = false))
    (ran : (keys.mapM fun key => do return (key, ← flatten kind items [] key) :
      Flattening (Entries Fields)).outcome memo run = (.ok flats, kept, after)) : after = run := by
  induction keys generalizing memo run flats with
  | nil =>
      rw [List.mapM_nil, Flattening.outcome_pure] at ran
      cases ran
      rfl
  | cons key rest ih =>
      rw [List.mapM_cons] at ran
      obtain ⟨entry, middle, between, first, later⟩ := Flattening.outcome_bind_ok ran
      obtain ⟨flat, middle', between', walked, same⟩ := Flattening.outcome_bind_ok first
      rw [Flattening.outcome_pure] at same
      cases same
      obtain ⟨others, last, ended, others', same⟩ := Flattening.outcome_bind_ok later
      rw [Flattening.outcome_pure] at same
      cases same
      rw [ih (fun other member => settled other (List.mem_cons_of_mem _ member)) others']
      obtain ⟨mark, item, found, quiet⟩ := settled key (List.mem_cons_self ..)
      cases known : Entries.get? key memo with
      | some before =>
          rw [flatten_known run known] at walked
          cases walked
          rfl
      | none =>
          rw [flatten_new run known List.not_mem_nil found] at walked
          obtain ⟨own, memo', run', flattened, kept'⟩ := Flattening.outcome_bind_ok walked
          have unchanged : run' = run := by
            unfold flattenNew at flattened
            split at flattened
            · rw [Flattening.outcome_pure] at flattened
              cases flattened
              rfl
            · rename_i unmarked
              rw [if_pos (by rw [quiet.resolve_left unmarked, Bool.not_false]),
                Flattening.outcome_lift] at flattened
              exact (Prod.mk.inj (Prod.mk.inj flattened).2).2.symm
          obtain ⟨_, _, _, stored, returned⟩ := Flattening.outcome_bind_ok kept'
          rw [Flattening.outcome_modify] at stored
          cases stored
          rw [Flattening.outcome_pure] at returned
          cases returned
          exact unchanged

/-- If all items can be flattened, then replacing any of them by their flattened form and flattening
what comes of it gives every item the same flattened form. If all of them are replaced, nothing is
reported either. -/
theorem flattenAll_partlyFlat {flats : Entries Fields}
    (flattened : (flattenAll kind items).Yields flats) (chosen : Text → Bool) (run : Run) :
    ∃ after, (flattenAll kind (partlyFlat chosen flats items)).outcome run = (.ok flats, after) ∧
      ((∀ key ∈ Entries.keys items, chosen key = true) → after = run) := by
  have related := flattenAll_ok flattened
  have each (key : Text) (flat : Fields) (found : Entries.get? key flats = some flat) :
      Flat kind items key flat := by
    obtain ⟨_, _, computed⟩ := related.get?_right found
    exact computed
  have keys : Entries.keys (partlyFlat chosen flats items) = Entries.keys items := by
    rw [Entries.keys, partlyFlat, List.map_map]
    rfl
  have again : List.Forall₂ (fun key flat => flat.1 = key ∧
      Flat kind (partlyFlat chosen flats items) key flat.2) (Entries.keys items) flats :=
    List.forall₂_map_left_iff.mpr (related.imp fun _ _ _ computed => flat_partlyFlat each computed)
  obtain ⟨kept, after, ran⟩ := mapM_flatten_complete run Sound.nil again
  refine ⟨after, ?_, fun all => ?_⟩
  · rw [outcome_flattenAll, flattenEach, keys, ran]
  · refine mapM_flatten_silent (fun key member => ?_) ran
    obtain ⟨flat, found⟩ := Option.isSome_iff_exists.mp
      (Entries.has_iff_mem_keys.mpr (related.keys_eq ▸ member))
    obtain ⟨value, present, computed⟩ := related.get?_right found
    refine ⟨none, flat, ?_, (flat_settled computed).imp_right And.left⟩
    rw [get?_partlyFlat, present, Option.map_some, if_pos (all key member), found]
    rfl

/-- An object that takes an attribute of its parent out, and one whose parent is nowhere. -/
def removalAndOrphan : Fields := [
  ("base", .record [
    ("attributes", .record [
      ("size", .record [("type", .text "integer_t")]),
      ("label", .record [("type", .text "string_t")])])]),
  ("leaf", .record [
    ("extends", .text "base"),
    ("attributes", .record [("size", .null), ("label", .record [("caption", .text "Label")])])]),
  ("stray", .record [("extends", .text "nowhere"), ("attributes", .record [("size", .null)])])]

/-- What the two inherit, the oldest object first. -/
def removalAndOrphanFlat : Entries Fields := [
  ("base", [
    ("attributes", .record [
      ("size", .record [("type", .text "integer_t"), ("_source", .text "base")]),
      ("label", .record [("type", .text "string_t"), ("_source", .text "base")])])]),
  ("leaf", [
    ("extends", .text "base"),
    ("attributes", .record [
      ("label", .record [
        ("type", .text "string_t"), ("_source", .text "base"), ("caption", .text "Label")])]),
    ("_resolved", .bool true)]),
  ("stray", [
    ("extends", .text "nowhere"),
    ("attributes", .record []),
    ("_resolved", .bool true)])]

theorem flattenAll_removalAndOrphan :
    (flattenAll .object removalAndOrphan).Yields removalAndOrphanFlat := by
  have oldest : Ancestry removalAndOrphan [("base", _)] := .root rfl (Or.inr rfl)
  have line : Ancestry removalAndOrphan [("leaf", _), ("base", _)] := .child rfl rfl rfl oldest
  have alone : Ancestry removalAndOrphan [("stray", _)] := .root rfl (Or.inr rfl)
  have each : List.Forall₂ (fun key flat => flat.1 = key ∧ Flat .object removalAndOrphan key flat.2)
      ["base", "leaf", "stray"] removalAndOrphanFlat :=
    .cons ⟨rfl, _, _, oldest, rfl⟩ (.cons ⟨rfl, _, _, line, rfl⟩ (.cons ⟨rfl, _, _, alone, rfl⟩ .nil))
  obtain ⟨kept, after, ran⟩ := mapM_flatten_complete {} Sound.nil each
  have walked : (flattenEach .object removalAndOrphan).outcome [] {} =
      (.ok removalAndOrphanFlat, kept, after) := ran
  exact ⟨{}, after, by rw [outcome_flattenAll, walked]⟩

/-- The removed attribute does not come back when the younger object alone was flattened before, and
the orphan is not reported again when all were. -/
theorem flattenAll_partlyFlat_removal :
    (∃ after, (flattenAll .object
        (partlyFlat (fun key => key = "leaf") removalAndOrphanFlat removalAndOrphan)).outcome {} =
      (.ok removalAndOrphanFlat, after)) ∧
    (flattenAll .object
        (partlyFlat (fun _ => true) removalAndOrphanFlat removalAndOrphan)).outcome {} =
      (.ok removalAndOrphanFlat, {}) := by
  obtain ⟨after, again, _⟩ :=
    flattenAll_partlyFlat flattenAll_removalAndOrphan (fun key => key = "leaf") {}
  obtain ⟨_, whole, quiet⟩ := flattenAll_partlyFlat flattenAll_removalAndOrphan (fun _ => true) {}
  rw [quiet fun _ _ => rfl] at whole
  exact ⟨⟨after, again⟩, whole⟩

end EventSchema.Lineage
