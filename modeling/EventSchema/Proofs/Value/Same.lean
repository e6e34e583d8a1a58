import EventSchema.Proofs.Decimal.Double
import EventSchema.Value.Equality
import Mathlib.Logic.Relation

/-!
Equality of values without parts.

A text is the same as itself and nothing else, as a member of a list and in a direct comparison. For
all values without parts being the same is an equivalence: numbers are compared by what they are.
-/

set_option autoImplicit false

namespace EventSchema.Value

theorem same_text {value : Value} {text : Text} : same value (.text text) = true ↔ value = .text text := by
  cases value with
  | text other => simp [same, leafSame]
  | array items => simp [same]
  | object mark fields => simp [same]
  | null | bool _ | int _ | float _ => simp [same, leafSame, whole?]

theorem text_same {value : Value} {text : Text} : same (.text text) value = true ↔ value = .text text := by
  cases value with
  | text other =>
      simp only [same, leafSame, beq_iff_eq, Value.text.injEq]
      exact eq_comm
  | array items => simp [same, leafSame, whole?]
  | object mark fields => simp [same, leafSame, whole?]
  | null | bool _ | int _ | float _ => simp [same, leafSame, whole?]

theorem equals_text {value : Value} {text : Text} :
    value.equals (.text text) = true ↔ value = .text text := by
  rw [equals, Bool.and_eq_true_iff, same_text]
  constructor
  · exact fun both => both.1
  · rintro rfl
    exact ⟨rfl, rfl⟩

theorem text_equals {value : Value} {text : Text} :
    (Value.text text).equals value = true ↔ value = .text text := by
  rw [equals, Bool.and_eq_true_iff, text_same]
  exact and_iff_left rfl

theorem int_equals {m n : Int} : (Value.int m).equals (.int n) = true ↔ m = n := by
  simp [equals, same, leafSame, whole?, isNaN]

theorem null_equals {value : Value} : Value.null.equals value = true ↔ value = .null := by
  cases value with
  | null | bool _ | int _ | float _ | text _ | array _ | object _ _ =>
      simp [equals, same, leafSame, whole?, isNaN]

theorem text_isIn {text : Text} {items : List Value} :
    (Value.text text).isIn items = true ↔ Value.text text ∈ items := by
  rw [isIn, List.any_eq_true]
  constructor
  · rintro ⟨item, member, equal⟩
    exact same_text.mp equal ▸ member
  · intro member
    exact ⟨_, member, same_text.mpr rfl⟩

/-! ### Values without parts -/

/-- What a value without parts is compared by: a number that is whole counts as that number. -/
def leafCode : Value → Value
  | bool b => int (if b then 1 else 0)
  | float x => match x.toInt? with
    | some n => int n
    | none => if x.isNaN then float .nan else float x
  | value => value

theorem leafCode_whole {x : Double} {n : Int} (whole : x.toInt? = some n) :
    leafCode (float x) = int n := by
  simp only [leafCode, whole]

theorem leafCode_other {x : Double} (other : x.toInt? = none) :
    leafCode (float x) = if x.isNaN then float .nan else float x := by
  simp only [leafCode, other]

theorem leafSame_float (x y : Double) :
    leafSame (float x) (float y) = (x.equals y || (x.isNaN && y.isNaN)) := by
  rw [leafSame]

theorem leafSame_float_iff {x y : Double} :
    leafSame (float x) (float y) = true ↔ leafCode (float x) = leafCode (float y) := by
  rw [leafSame_float]
  cases left : x.toInt? with
  | some m =>
      rw [Double.isNaN_of_toInt? left, Bool.false_and, Bool.or_false, leafCode_whole left]
      cases right : y.toInt? with
      | some n => rw [leafCode_whole right, Double.equals_of_toInt? left right, int.injEq]
      | none =>
          have different : ¬x.equals y = true := by
            rw [Double.equals_comm, Double.equals_of_toInt?_eq_none right]
            rintro ⟨same, _⟩
            rw [same, left] at right
            cases right
          rw [leafCode_other right]
          by_cases number : y.isNaN = true <;> simp [different, number]
  | none =>
      rw [leafCode_other left]
      cases right : y.toInt? with
      | some n =>
          have different : ¬x.equals y = true := by
            rw [Double.equals_of_toInt?_eq_none left]
            rintro ⟨same, _⟩
            rw [same, right] at left
            cases left
          rw [Double.isNaN_of_toInt? right, leafCode_whole right]
          by_cases number : x.isNaN = true <;> simp [different, number]
      | none =>
          rw [Bool.or_eq_true, Double.equals_of_toInt?_eq_none left, Bool.and_eq_true,
            leafCode_other right]
          -- what is not a number is compared by one pattern of its kind
          have canonical : Double.nan.isNaN = true := by decide
          by_cases first : x.isNaN = true
          · by_cases second : y.isNaN = true
            · simp [first, second]
            · have apart : Double.nan ≠ y := fun same => second (same ▸ canonical)
              simp [first, second, apart]
          · by_cases second : y.isNaN = true
            · have apart : x ≠ Double.nan := fun same => first (same ▸ canonical)
              have other : x ≠ y := fun same => first (same ▸ second)
              simp [first, second, apart, other]
            · simp [first, second]

theorem same_iff_leafCode {a b : Value} (left : a.isKey = true) (right : b.isKey = true) :
    same a b = true ↔ leafCode a = leafCode b := by
  cases a with
  | float x =>
      cases b with
      | float y =>
          rw [same]
          exact leafSame_float_iff
          all_goals simp
      | null | bool _ | int _ | text _ =>
          by_cases number : x.isNaN = true <;> cases whole : x.toInt? <;>
            simp [same, leafSame, whole?, leafCode, whole, number]
      | array _ | object _ _ => cases right
  | null | bool _ | int _ | text _ =>
      cases b with
      | float y =>
          by_cases number : y.isNaN = true <;> cases whole : y.toInt? <;>
            simp [same, leafSame, whole?, leafCode, whole, number] <;> exact eq_comm
      | null | bool _ | int _ | text _ => simp [same, leafSame, whole?, leafCode]
      | array _ | object _ _ => cases right
  | array _ | object _ _ => cases left

theorem isKey_of_same {a b : Value} (equal : same a b = true) : a.isKey = b.isKey := by
  cases a <;> cases b <;> simp [same, leafSame, whole?, isKey] at equal ⊢

theorem same_refl {a : Value} (key : a.isKey = true) : same a a = true :=
  (same_iff_leafCode key key).mpr rfl

/-- Being the same goes on from value to value, as long as one of them has no parts. -/
theorem same_of_chain {a b : Value} (key : a.isKey = true)
    (chain : Relation.ReflTransGen (fun first later => same first later = true) a b) :
    same a b = true := by
  induction chain with
  | refl => exact same_refl key
  | @tail b c _ last ih =>
      have middle : b.isKey = true := by rw [← isKey_of_same ih, key]
      have final : c.isKey = true := by rw [← isKey_of_same last, middle]
      rw [same_iff_leafCode key middle] at ih
      rw [same_iff_leafCode middle final] at last
      exact (same_iff_leafCode key final).mpr (ih.trans last)

end EventSchema.Value
