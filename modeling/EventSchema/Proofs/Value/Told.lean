import EventSchema.Proofs.Value.Single

/-!
What one of several attributes says of one of its fields.

An attribute that is in one place keeps what it says when other attributes are changed in place, and when
something is merged over it that says nothing of the field. So the field of an attribute can be followed
through merges of whole items.
-/

set_option autoImplicit false

namespace EventSchema.Value

variable {name field : Text} {told : Option Value} {attributes fields source : Fields}

def Told (field : Text) (told : Option Value) (value : Value) : Prop :=
  ∃ fields, value = .record fields ∧ Entries.get? field fields = told

def ToldAt (name field : Text) (told : Option Value) (attributes : Fields) : Prop :=
  ∃ value, Entries.get? name attributes = some value ∧ Told field told value

def SilentAt (name field : Text) (attributes : Fields) : Prop :=
  ∀ value, Entries.get? name attributes = some value → Told field none value

/-- Only texts and the like are followed: they are in no other place. -/
def Leaf (told : Option Value) : Prop := ∀ value ∈ told, value.isObject = false

theorem leaf_none : Leaf none := fun _ impossible => by cases impossible

theorem leaf_some {value : Value} (simple : value.isObject = false) : Leaf (some value) := by
  rintro _ ⟨⟩
  exact simple

theorem leaf_text (text : Text) : Leaf (some (.text text)) := leaf_some rfl

theorem SilentAt.of_absent (absent : Entries.get? name attributes = none) : SilentAt name field attributes := by
  intro value found
  cases absent.symm.trans found

theorem ToldAt.silent (tells : ToldAt name field none attributes) : SilentAt name field attributes := by
  obtain ⟨value, found, holds⟩ := tells
  intro other known
  cases found.symm.trans known
  exact holds

theorem silentAt_cases (silent : SilentAt name field attributes) :
    Entries.get? name attributes = none ∨ ToldAt name field none attributes := by
  cases found : Entries.get? name attributes with
  | none => exact .inl rfl
  | some value => exact .inr ⟨value, found, silent value found⟩

theorem Told.renewed {onValue : Value → Value} {onFields : Fields → Fields} (renews : Renews onValue onFields)
    (leaf : Leaf told) {value : Value} (holds : Told field told value) : Told field told (onValue value) := by
  obtain ⟨fields, rfl, known⟩ := holds
  refine ⟨onFields fields, renews.record fields, ?_⟩
  rw [renews.found, known]
  cases told with
  | none => rfl
  | some value => exact congrArg some (renews.leaf value (leaf value rfl))

theorem Told.merge {dest own : Value} (holds : Told field told dest) (silent : Told field none own) :
    Told field told (merge dest own) := by
  obtain ⟨fields, rfl, known⟩ := holds
  obtain ⟨given, rfl, absent⟩ := silent
  refine ⟨mergeFields fields given, merge_object none none fields given, ?_⟩
  rw [get?_mergeFields_of_absent absent, known]

theorem ToldAt.put (tells : ToldAt name field told attributes) {other : Text} (apart : other ≠ name)
    (value : Value) : ToldAt name field told (Entries.put other value attributes) := by
  obtain ⟨given, found, holds⟩ := tells
  exact ⟨given, (Entries.get?_put_of_ne apart value attributes).trans found, holds⟩

theorem ToldAt.renewed {onValue : Value → Value} {onFields : Fields → Fields} (renews : Renews onValue onFields)
    (leaf : Leaf told) (tells : ToldAt name field told attributes) : ToldAt name field told (onFields attributes) := by
  obtain ⟨value, found, holds⟩ := tells
  exact ⟨onValue value, by rw [renews.found, found, Option.map_some], holds.renewed renews leaf⟩

theorem SilentAt.renewed {onValue : Value → Value} {onFields : Fields → Fields}
    (renews : Renews onValue onFields) (silent : SilentAt name field attributes) :
    SilentAt name field (onFields attributes) := by
  rcases silentAt_cases silent with absent | tells
  · exact .of_absent (by rw [renews.found, absent, Option.map_none])
  · exact (tells.renewed renews leaf_none).silent

/-- A change of an attribute in place leaves what another says. -/
theorem ToldAt.putShared (tells : ToldAt name field told attributes) (leaf : Leaf told) {other : Text}
    (apart : other ≠ name) (value : Value) : ToldAt name field told (Value.putShared other value attributes) := by
  unfold Value.putShared
  exact (tells.put apart value).renewed (renews_refresh (isObject_of_mem_occurrences value)) leaf

theorem toldAt_putShared {value : Value} (holds : Told field told value) (leaf : Leaf told)
    (attributes : Fields) : ToldAt name field told (Value.putShared name value attributes) := by
  have tells : ToldAt name field told (Entries.put name value attributes) :=
    ⟨value, Entries.get?_put_self .., holds⟩
  unfold Value.putShared
  exact tells.renewed (renews_refresh (isObject_of_mem_occurrences value)) leaf

/-- Attributes that are each changed on their own say what they said, if the change keeps the field. -/
theorem ToldAt.mapValues (tells : ToldAt name field told attributes) {change : Value → Value}
    {after : Option Value} (kept : ∀ value, Told field told value → Told field after (change value)) :
    ToldAt name field after (Entries.mapValues change attributes) := by
  obtain ⟨value, found, holds⟩ := tells
  exact ⟨change value, by rw [Entries.get?_mapValues, found, Option.map_some], kept value holds⟩

theorem SilentAt.mapValues (silent : SilentAt name field attributes) {change : Value → Value}
    (kept : ∀ value, Told field none value → Told field none (change value)) :
    SilentAt name field (Entries.mapValues change attributes) := by
  rcases silentAt_cases silent with absent | tells
  · exact .of_absent (by rw [Entries.get?_mapValues, absent, Option.map_none])
  · exact (tells.mapValues kept).silent

/-- One step of an overlay: the attribute is merged with what is written over it, or renewed. -/
theorem ToldAt.overlayOne (leaf : Leaf told) (tells : ToldAt name field told fields) {key : Text}
    {value : Value} {later : Fields} (silent : SilentAt name field ((key, value) :: later)) :
    ToldAt name field told (overlayOne key value fields later).1 := by
  obtain ⟨onValue, onFields, renews, _, told'⟩ := overlayOne_renews key value fields later
  obtain ⟨before, found, holds⟩ := tells
  by_cases here : name = key
  · subst here
    have own := silent value (by rw [Entries.get?_cons, if_pos rfl])
    exact ⟨_, by rw [told', if_pos rfl, found, Option.map_some], (holds.merge own).renewed renews leaf⟩
  · exact ⟨_, by rw [told', if_neg here, found, Option.map_some], holds.renewed renews leaf⟩

theorem ToldAt.overlay (leaf : Leaf told) (tells : ToldAt name field told fields)
    (distinct : Entries.Distinct source) (silent : SilentAt name field source) :
    ToldAt name field told (overlay fields source) := by
  induction fields, source using Value.overlay.induct with
  | case1 fields =>
      rw [Value.overlay]
      exact tells
  | case2 fields key value later ih =>
      obtain ⟨onValue, onFields, renews, rest, _⟩ := overlayOne_renews key value fields later
      obtain ⟨fresh, others⟩ := List.nodup_cons.mp distinct
      rw [Value.overlay]
      refine ih (tells.overlayOne leaf silent) (rest ▸ renews.distinct others) ?_
      rw [rest]
      refine SilentAt.renewed renews fun other found => ?_
      by_cases here : key = name
      · subst here
        exact absurd (Entries.mem_keys_of_get? found) fresh
      · exact silent other (by rw [Entries.get?_cons, if_neg here, found])

theorem toldAt_overlay_of_absent (leaf : Leaf told) (absent : Entries.get? name fields = none)
    (distinct : Entries.Distinct source) (tells : ToldAt name field told source) :
    ToldAt name field told (overlay fields source) := by
  induction fields, source using Value.overlay.induct with
  | case1 fields =>
      obtain ⟨_, impossible, _⟩ := tells
      cases impossible
  | case2 fields key value later ih =>
      obtain ⟨onValue, onFields, renews, rest, told'⟩ := overlayOne_renews key value fields later
      obtain ⟨fresh, others⟩ := List.nodup_cons.mp distinct
      obtain ⟨given, found, holds⟩ := tells
      rw [Value.overlay]
      rw [Entries.get?_cons] at found
      by_cases here : key = name
      · subst here
        rw [if_pos rfl, Option.some.injEq] at found
        have written : ToldAt key field told (overlayOne key value fields later).1 :=
          ⟨_, by rw [told', if_pos rfl, absent, Option.map_some], (found ▸ holds).renewed renews leaf⟩
        refine written.overlay leaf (rest ▸ renews.distinct others) (.of_absent ?_)
        rw [rest, renews.found, Entries.get?_eq_none_iff.mpr fresh, Option.map_none]
      · rw [if_neg here] at found
        refine ih ?_ (rest ▸ renews.distinct others) (rest ▸ ToldAt.renewed renews leaf ⟨given, found, holds⟩)
        rw [told', if_neg (Ne.symm here), absent, Option.map_none]

theorem SilentAt.overlay_of_absent (absent : Entries.get? name fields = none)
    (distinct : Entries.Distinct source) (silent : SilentAt name field source) :
    SilentAt name field (overlay fields source) := by
  rcases silentAt_cases silent with gone | tells
  · exact .of_absent (absent_overlay absent gone)
  · exact (toldAt_overlay_of_absent leaf_none absent distinct tells).silent

end EventSchema.Value
