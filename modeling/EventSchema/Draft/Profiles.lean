import EventSchema.Draft.Basic
import EventSchema.Value.Access

/-!
Profiles of classes and objects.

An item has the profiles of every object that it reaches through its attributes, directly or through
other objects. Reaching goes from attribute to attribute, an object's attributes before the attributes
that come after the one that led to it, and every object is entered once.
-/

set_option autoImplicit false

namespace EventSchema.Draft

def checkProfiles (draft : Draft) (kind : ItemKind) (key : Text) (item : Fields) : Act Unit := do
  let profiles ← (Value.orElse (Entries.get? "profiles" item) (.array [])).iterate
  for profile in profiles do
    if !(← profile.member draft.profiles) then warn (.undefinedProfile profile kind key)
  for entry in ← attributesOf item do
    let profile := Entries.orNull "profile" (← entry.2.asFields)
    if profile.truthy then
      if !(← profile.member draft.profiles) then
        warn (.undefinedFieldProfile profile kind key entry.1)

/-- The key of the object that an attribute refers to, before it is merged with the dictionary. -/
def objectTypeOf (draft : Draft) (entry : Text × Value) : Except Fault Value := do
  let field ← entry.2.asFields
  let type := Entries.orNull "object_type" field
  if type.truthy then
    let scope ← extensionOf field []
    return Value.ofOption (← Scope.find? draft.objects type (some scope))
  else
    let shared := Entries.orNull entry.1 draft.attributes
    if shared.truthy then return Entries.orNull "object_type" (← shared.asFields) else return .null

def attributeCount (draft : Draft) (key : Text) : Nat :=
  match attributesOf ((Entries.get? key draft.objects).getD []) with
  | .ok attributes => attributes.length
  | .error _ => 0

/-- The steps that a walk can still take: each object not entered yet counts for itself and its
attributes. -/
def stepsLeft (draft : Draft) (reached : Entries Value) (todo : List (Text × Value)) : Nat :=
  todo.length +
    (((Entries.keys draft.objects).filter fun key => !Entries.has key reached).map fun key =>
      attributeCount draft key + 1).foldr (· + ·) 0

theorem stepsLeft_skip (draft : Draft) (reached : Entries Value) (entry : Text × Value)
    (rest : List (Text × Value)) :
    stepsLeft draft reached rest < stepsLeft draft reached (entry :: rest) := by
  simp only [stepsLeft, List.length_cons]
  omega

theorem sum_unentered_le (weight : Text → Nat) {reached : Entries Value} {key : Text}
    (profiles : Value) {keys : List Text} (present : key ∈ keys)
    (fresh : ¬Entries.has key reached = true) :
    ((keys.filter fun k => !Entries.has k (Entries.put key profiles reached)).map weight).foldr
        (· + ·) 0 + weight key ≤
      ((keys.filter fun k => !Entries.has k reached).map weight).foldr (· + ·) 0 := by
  have kept (other : Text) :
      (!Entries.has other (Entries.put key profiles reached)) =
        (!Entries.has other reached && decide (other ≠ key)) := by
    by_cases same : other = key
    · subst same
      simp [Entries.has]
    · simp [Entries.has, Entries.get?_put_of_ne (Ne.symm same), same]
  have fewer (others : List Text) :
      ((others.filter fun k => !Entries.has k (Entries.put key profiles reached)).map weight).foldr
          (· + ·) 0 ≤
        ((others.filter fun k => !Entries.has k reached).map weight).foldr (· + ·) 0 := by
    induction others with
    | nil => simp
    | cons head rest ih =>
      simp only [List.filter_cons, kept] at ih ⊢
      by_cases seen : Entries.has head reached = true
      · simpa [seen] using ih
      · by_cases same : head = key
        · subst same
          simp [fresh] at ih ⊢
          omega
        · simp [seen, same] at ih ⊢
          omega
  induction keys with
  | nil => simp at present
  | cons head rest ih =>
    by_cases same : head = key
    · subst same
      have below := fewer rest
      simp only [List.filter_cons, kept] at below ⊢
      simp [fresh] at below ⊢
      omega
    · have later : key ∈ rest := by
        rcases List.mem_cons.mp present with here | there
        · exact absurd here.symm same
        · exact there
      have below := ih later
      simp only [List.filter_cons, kept] at below ⊢
      by_cases seen : Entries.has head reached = true
      · simpa [seen, same] using below
      · simp [seen, same] at below ⊢
        omega

/-- Entering an object takes more steps away than its attributes bring. -/
theorem stepsLeft_enter (draft : Draft) {reached : Entries Value} {key : Text} (profiles : Value)
    (entry : Text × Value) {attributes rest : List (Text × Value)}
    (present : Entries.has key draft.objects = true) (fresh : ¬Entries.has key reached = true)
    (known : attributesOf ((Entries.get? key draft.objects).getD []) = .ok attributes) :
    stepsLeft draft (Entries.put key profiles reached) (attributes ++ rest) <
      stepsLeft draft reached (entry :: rest) := by
  have below := sum_unentered_le (fun k => attributeCount draft k + 1) profiles
    (Entries.mem_keys_of_has present) fresh
  have count : attributeCount draft key = attributes.length := by simp [attributeCount, known]
  simp only [stepsLeft, List.length_append, List.length_cons]
  omega

/-- The profiles of the objects that attributes lead to, by the keys of the objects, after those
already reached. -/
def reach (draft : Draft) (reached : Entries Value) (todo : List (Text × Value)) :
    Except Fault (Entries Value) :=
  match todo with
  | [] => .ok reached
  | entry :: rest => do
    let type ← objectTypeOf draft entry
    if !type.truthy then reach draft reached rest
    else match type with
      | .text key =>
        if _ : Entries.has key reached then reach draft reached rest
        else if _ : Entries.has key draft.objects then
          let object := (Entries.get? key draft.objects).getD []
          match _ : attributesOf object with
          | .error fault => .error fault
          | .ok attributes =>
            reach draft (Entries.put key (Entries.orNull "profiles" object) reached)
              (attributes ++ rest)
        else reach draft reached rest
      | type => if type.isKey then reach draft reached rest else misused .operand
termination_by stepsLeft draft reached todo
decreasing_by
  all_goals first
    | exact stepsLeft_skip draft reached entry rest
    | exact stepsLeft_enter draft _ entry (by assumption) (by assumption) (by assumption)

/-- An item with the profiles of every object that it reaches. An object is on its own way and adds
nothing to itself. -/
def closeProfiles (draft : Draft) (kind : ItemKind) (key : Text) (item : Fields) : Act Fields := do
  let start : Entries Value := if kind = .eventClass then [] else [(key, .null)]
  let attributes ← attributesOf item
  let reached ← (reach draft start attributes : Except Fault (Entries Value))
  let own := Entries.get? "profiles" item
  let profiles ← (mergeProfiles (own :: reached.map fun entry => some entry.2) :
    Except Fault (List Value))
  if !(Value.array profiles).equals (Value.orElse own (.array [])) then
    note (.profilesConsolidated kind key profiles)
  if profiles.isEmpty then return item
  else return Entries.put "profiles" (.array profiles) item

def closeAllProfiles (draft : Draft) : Act Draft := do
  let draft ← (Entries.keys draft.objects).foldlM (fun (draft : Draft) key => do
    match Entries.get? key draft.objects with
    | some item =>
      let closed ← closeProfiles draft .object key item
      return { draft with objects := Entries.put key closed draft.objects }
    | none => return draft) draft
  let classes ← draft.classes.mapM fun entry => do
    return (entry.1, ← closeProfiles draft .eventClass entry.1 entry.2)
  return { draft with classes }

end EventSchema.Draft
