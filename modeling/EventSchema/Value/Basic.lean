import EventSchema.Decimal.Double
import EventSchema.Decimal.Notation
import EventSchema.Entries
import EventSchema.Text.Printable

/-!
Values of schema documents.

A document is a value of JSON with the order of its keys. Whole numbers of any size and doubles are
kept apart, as the document spells them apart.

An object may carry a *mark*. Filling the annotations of a fragment into its fields puts one object
into several places, and a later change of that object at one place has to show at the others. All
occurrences of one such object in a document carry the same mark and equal content; an object
without a mark occurs once. `EventSchema.Value.Sharing` keeps the occurrences in step.

In a message a text stands for itself; any other value is spelled out, with the texts inside it quoted.
-/

set_option autoImplicit false

namespace EventSchema

inductive Value where
  | null
  | bool (b : Bool)
  | int (n : Int)
  | float (x : Double)
  | text (t : Text)
  | array (items : List Value)
  | object (mark : Option Nat) (fields : List (Text × Value))
deriving Inhabited

abbrev Fields := Entries Value

namespace Value

instance : Coe Text Value := ⟨text⟩

def record (fields : Fields) : Value := object none fields


def isObject : Value → Bool
  | object _ _ => true
  | _ => false

def isNull : Value → Bool
  | null => true
  | _ => false

def text? : Value → Option Text
  | text t => some t
  | _ => none

/-- Whether a value counts as given: neither null, nor false, nor zero, nor empty. -/
def truthy : Value → Bool
  | null => false
  | bool b => b
  | int n => n != 0
  | float x => !x.isZero
  | text t => !t.isEmpty
  | array items => !items.isEmpty
  | object _ fields => !fields.isEmpty

def typeName : Value → Text
  | null => "null"
  | bool true => "true"
  | bool false => "false"
  | int _ => "number (int)"
  | float _ => "number (float)"
  | text _ => "string"
  | array _ => "array"
  | object _ _ => "object"

/-- The value itself unless it is missing or not given, then the alternative. -/
def orElse (value : Option Value) (alternative : Value) : Value :=
  match value with
  | some v => if v.truthy then v else alternative
  | none => alternative

def ofOption : Option Value → Value
  | some v => v
  | none => null

/-! ### Identity of values -/

mutual
def decEq : (a b : Value) → Decidable (a = b)
  | null, b => match b with
    | null => isTrue rfl
    | bool _ | int _ | float _ | text _ | array _ | object _ _ => isFalse (by simp)
  | bool a, b => match b with
    | bool b => if h : a = b then isTrue (h ▸ rfl) else isFalse (by simp [h])
    | null | int _ | float _ | text _ | array _ | object _ _ => isFalse (by simp)
  | int a, b => match b with
    | int b => if h : a = b then isTrue (h ▸ rfl) else isFalse (by simp [h])
    | null | bool _ | float _ | text _ | array _ | object _ _ => isFalse (by simp)
  | float a, b => match b with
    | float b => if h : a = b then isTrue (h ▸ rfl) else isFalse (by simp [h])
    | null | bool _ | int _ | text _ | array _ | object _ _ => isFalse (by simp)
  | text a, b => match b with
    | text b => if h : a = b then isTrue (h ▸ rfl) else isFalse (by simp [h])
    | null | bool _ | int _ | float _ | array _ | object _ _ => isFalse (by simp)
  | array a, b => match b with
    | array b => match decEqItems a b with
      | isTrue h => isTrue (h ▸ rfl)
      | isFalse h => isFalse (by simp [h])
    | null | bool _ | int _ | float _ | text _ | object _ _ => isFalse (by simp)
  | object m a, b => match b with
    | object n b =>
      if marks : m = n then match decEqFields a b with
        | isTrue h => isTrue (h ▸ marks ▸ rfl)
        | isFalse h => isFalse (by simp [h])
      else isFalse (by simp [marks])
    | null | bool _ | int _ | float _ | text _ | array _ => isFalse (by simp)
def decEqItems : (a b : List Value) → Decidable (a = b)
  | [], [] => isTrue rfl
  | [], _ :: _ => isFalse (by simp)
  | _ :: _, [] => isFalse (by simp)
  | a :: as, b :: bs => match decEq a b, decEqItems as bs with
    | isTrue h, isTrue h' => isTrue (by rw [h, h'])
    | isFalse h, _ => isFalse (by simp [h])
    | _, isFalse h => isFalse (by simp [h])
def decEqFields : (a b : List (Text × Value)) → Decidable (a = b)
  | [], [] => isTrue rfl
  | [], _ :: _ => isFalse (by simp)
  | _ :: _, [] => isFalse (by simp)
  | (k, a) :: as, (l, b) :: bs =>
    if keys : k = l then match decEq a b, decEqFields as bs with
      | isTrue h, isTrue h' => isTrue (by rw [h, h', keys])
      | isFalse h, _ => isFalse (by simp [h])
      | _, isFalse h => isFalse (by simp [h])
    else isFalse (by simp [keys])
end

instance : DecidableEq Value := decEq

/-- The parts in the given brackets, with a comma and a space between neighbours. -/
def bracketed (opening closing : Nat) (parts : List Text) : Text :=
  Text.single opening ++ Text.join ", " parts ++ Text.single closing

mutual
def spelled : Value → Text
  | null => "None"
  | bool true => "True"
  | bool false => "False"
  | int n => Text.ofInt n
  | float x => x.text
  | text t => t.quoted
  | array items => bracketed 0x5b 0x5d (spelledItems items)
  | object _ fields => bracketed 0x7b 0x7d (spelledFields fields)
def spelledItems : List Value → List Text
  | [] => []
  | v :: rest => spelled v :: spelledItems rest
def spelledFields : List (Text × Value) → List Text
  | [] => []
  | (k, v) :: rest => (k.quoted ++ ": " ++ spelled v) :: spelledFields rest
end

/-- A value inside a message: a text as it is, anything else spelled out. -/
def shown : Value → Text
  | text t => t
  | v => spelled v

end Value

end EventSchema
