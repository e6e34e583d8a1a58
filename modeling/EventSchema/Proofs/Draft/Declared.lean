import EventSchema.Graph.Build
import EventSchema.Proofs.Lineage.Shape
import Mathlib.Data.List.Nodup

/-!
The observables that raw definitions declare.

Every type and every attribute of the dictionary may declare one, and so may every object, every attribute
of a class or an object and every path that one of these lists. Collecting them gives the declarations in
this order if their identifiers are all different, and stops at a duplicate otherwise. The enumeration
takes them in under the same condition: no identifier is in it already.
-/

set_option autoImplicit false

namespace EventSchema

open Value

def Observable.of (id caption description : Value) (kind : Text) : Observable where
  id := id.shown
  caption := caption
  description := "Observable by " ++ kind ++ ".<br>" ++ description.shown

def Observable.ids (observables : List Observable) : List Text := observables.map Observable.id

namespace Draft

/-! ### Declarations -/

def declaredByEntry (kind : Text) (entry : Text × Value) : List Observable :=
  (Entries.get? "observable" entry.2.inner).toList.map fun id =>
    let caption := Entries.getOr "caption" entry.2.inner (.text entry.1)
    .of id caption (Entries.getOr "description" entry.2.inner caption) kind

def declaredByPart (kind : ItemKind) (caption : Value) (part : Text) (id : Value) : Observable :=
  .of id (.text (caption.shown ++ " " ++ kind.title ++ ": " ++ part))
    (.text (kind.title ++ "-specific attribute " ++ part.enclosed ++ " for the " ++ caption.shown ++ " "
      ++ kind.title ++ "."))
    (kind.title ++ "-Specific Attribute")

def declaredByItself (kind : ItemKind) (caption : Value) (item : Fields) : List Observable :=
  if kind = .object then
    (Entries.get? "observable" item).toList.map fun id =>
      .of id caption (Entries.getOr "description" item caption) kind.title
  else []

def declaredByAttributes (kind : ItemKind) (caption : Value) (attributes : Fields) : List Observable :=
  attributes.flatMap fun entry =>
    (Entries.get? "observable" entry.2.inner).toList.map (declaredByPart kind caption entry.1)

def declaredByFields (kind : ItemKind) (caption : Value) (item : Fields) : List Observable :=
  declaredByItself kind caption item ++
    declaredByAttributes kind caption (Entries.attributes item) ++
    (Entries.orEmpty "observables" item).inner.map fun entry => declaredByPart kind caption entry.1 entry.2

def calledBy (items : Fields) (key : Text) : Value := (captionOf items key).toOption.getD (.text key)

def declaredByItems (kind : ItemKind) (items : Fields) : List Observable :=
  items.flatMap fun entry => declaredByFields kind (calledBy items entry.1) entry.2.inner

end Draft

def Definitions.declared (d : Definitions) : List Observable :=
  (Entries.attributes (Entries.orEmpty "types" d.dictionary.inner).inner).flatMap
      (Draft.declaredByEntry "Dictionary Type") ++
    (Entries.attributes d.dictionary.inner).flatMap (Draft.declaredByEntry "Dictionary Attribute") ++
    Draft.declaredByItems .eventClass d.classes.inner ++
    Draft.declaredByItems .object d.objects.inner

namespace Draft

/-! ### Collecting -/

structure Collects (computation : Except Fault (List Observable)) (known declared : List Observable) : Prop where
  added : (Observable.ids (known ++ declared)).Nodup → computation = .ok (known ++ declared)
  collides : (Observable.ids known).Nodup → ¬(Observable.ids (known ++ declared)).Nodup →
    ∃ fault, computation = .error (.duplicate fault)

namespace Collects

variable {known declared later : List Observable} {computation : Except Fault (List Observable)}

theorem none (known : List Observable) : Collects (.ok known) known [] where
  added _ := by rw [List.append_nil]
  collides distinct colliding := by
    rw [List.append_nil] at colliding
    exact absurd distinct colliding

theorem distinct_left {known declared : List Observable} (distinct : (Observable.ids (known ++ declared)).Nodup) :
    (Observable.ids known).Nodup := by
  unfold Observable.ids at distinct ⊢
  rw [List.map_append] at distinct
  exact (List.nodup_append.mp distinct).1

theorem bind {next : List Observable → Except Fault (List Observable)} (first : Collects computation known declared)
    (rest : Collects (next (known ++ declared)) (known ++ declared) later) :
    Collects (computation >>= next) known (declared ++ later) where
  added distinct := by
    rw [← List.append_assoc] at distinct ⊢
    rw [first.added (distinct_left distinct), ok_bind]
    exact rest.added distinct
  collides distinct colliding := by
    rw [← List.append_assoc] at colliding
    by_cases apart : (Observable.ids (known ++ declared)).Nodup
    · rw [first.added apart, ok_bind]
      exact rest.collides apart colliding
    · obtain ⟨fault, stopped⟩ := first.collides distinct apart
      exact ⟨fault, by rw [stopped]; rfl⟩

theorem foldlM {α : Type} {step : List Observable → α → Except Fault (List Observable)} {items : List α}
    {declares : α → List Observable} (known : List Observable)
    (each : ∀ known, ∀ item ∈ items, Collects (step known item) known (declares item)) :
    Collects (items.foldlM step known) known (items.flatMap declares) := by
  induction items generalizing known with
  | nil => exact .none known
  | cons head rest ih =>
      rw [List.foldlM_cons, List.flatMap_cons]
      exact (each known head (List.mem_cons_self ..)).bind
        (ih _ fun known item member => each known item (List.mem_cons_of_mem _ member))

end Collects

theorem collects_addObservable (known : List Observable) (id caption description : Value) (kind context : Text) :
    Collects (addObservable known id caption description kind context) known
      [.of id caption description kind] := by
  have collision : (known.find? fun o => o.id = id.shown).isSome = true ↔ id.shown ∈ Observable.ids known := by
    simp [Observable.ids, List.find?_isSome]
  have appended : (Observable.ids (known ++ [.of id caption description kind])).Nodup ↔
      (Observable.ids known).Nodup ∧ id.shown ∉ Observable.ids known := by
    unfold Observable.ids Observable.of
    rw [List.map_append, List.nodup_append, List.map_singleton]
    simp
  unfold addObservable
  constructor
  · intro distinct
    have fresh := (appended.mp distinct).2
    dsimp only
    split
    · rename_i other found
      rw [found] at collision
      exact absurd (collision.mp rfl) fresh
    · rfl
  · intro distinct colliding
    have known' : id.shown ∈ Observable.ids known := by
      by_contra fresh
      exact colliding (appended.mpr ⟨distinct, fresh⟩)
    obtain ⟨other, found⟩ := Option.isSome_iff_exists.mp (collision.mpr known')
    exact ⟨.observable id.shown context other.caption (.text other.description), by simp only [found]⟩

theorem collects_dictionary (kind : Text) (known : List Observable) {entries : Fields}
    (objects : ∀ entry ∈ entries, entry.2.isObject = true) :
    Collects (observablesOfDictionary kind known entries) known (entries.flatMap (declaredByEntry kind)) := by
  refine .foldlM known fun known entry member => ?_
  have shape := objects entry member
  obtain ⟨key, value⟩ := entry
  cases value with
  | object mark fields =>
      unfold declaredByEntry holds
      simp only [Value.member, ok_bind, Value.asFields, Value.inner, Entries.has]
      cases found : Entries.get? "observable" fields with
      | none => exact .none known
      | some id =>
          rw [Entries.orNull, Entries.getOr, found]
          exact collects_addObservable known id _ _ _ _
  | null | bool _ | int _ | float _ | text _ | array _ => cases shape

/-! ### Captions -/

private theorem captionFrom_text {kind : ItemKind} {ids : Text → Prop} {items : Fields} (raw :
    AreRawItems kind ids items)
    (origin : Text) (seen : List Text) (key : Text) (present : key ∈ Entries.keys items) :
    ∃ caption : Text, captionFrom items origin seen key = .ok (.text caption) := by
  induction seen, key using captionFrom.induct items with
  | case1 seen key ended =>
      rw [captionFrom, dif_pos ended]
      exact ⟨origin, rfl⟩
  | case2 seen key further present ih =>
      obtain ⟨value, found⟩ := Option.isSome_iff_exists.mp (Entries.has_iff_mem_keys.mpr present)
      obtain ⟨item, rfl, document⟩ := raw.each key value found
      have itself : Entries.orNull key items = .record item := by
        rw [Entries.orNull, Entries.getOr, found, Option.getD_some]
      rw [captionFrom, dif_neg further, dif_pos present, itself]
      simp only [holds, record, Value.member, ok_bind, Entries.has]
      cases captioned : Entries.get? "caption" item with
      | some caption =>
          obtain ⟨text, rfl⟩ := (document.shaped _ _ captioned).label (by decide)
          exact ⟨text, by simp [Value.at_, captioned]⟩
      | none =>
          simp only [Option.isSome_none, Bool.false_eq_true, if_false, Value.asFields, ok_bind]
          have named : (Entries.orNull "extends" item).isName = true := document.name (by decide)
          obtain ⟨parent, found, known⟩ := Scope.ensures_find? items named (Entries.get? "extension" item)
          rw [found, ok_bind]
          cases parent with
          | none => exact ⟨origin, rfl⟩
          | some parent =>
              obtain ⟨next, rfl, present⟩ := known parent rfl
              exact ih next (Entries.mem_keys_of_has present)
  | case3 seen key further absent => exact absurd present absent

theorem captionOf_text {kind : ItemKind} {ids : Text → Prop} {items : Fields} (raw : AreRawItems kind ids items)
    {key : Text} (present : key ∈ Entries.keys items) :
    ∃ caption : Text, captionOf items key = .ok (.text caption) ∧ calledBy items key = .text caption := by
  obtain ⟨caption, told⟩ := captionFrom_text raw key [] key present
  have same : captionOf items key = .ok (.text caption) := told
  exact ⟨caption, same, by rw [calledBy, same]; rfl⟩

/-! ### Items -/

section Parts

variable (kind : ItemKind) (caption : Value) (known : List Observable) (context : Text)

private theorem collects_part (part : Text) (id : Value) :
    Collects (addObservable known id (.text (caption.shown ++ " " ++ kind.title ++ ": " ++ part))
      (.text (kind.title ++ "-specific attribute " ++ part.enclosed ++ " for the " ++ caption.shown ++ " "
        ++ kind.title ++ "."))
      (kind.title ++ "-Specific Attribute") context) known [declaredByPart kind caption part id] :=
  collects_addObservable known id _ _ _ context

private theorem collects_attribute (entry : Text × Value) :
    Collects (match entry.2 with
      | .object _ field =>
        match Entries.get? "observable" field with
        | some id => addObservable known id (.text (caption.shown ++ " " ++ kind.title ++ ": " ++ entry.1))
            (.text (kind.title ++ "-specific attribute " ++ entry.1.enclosed ++ " for the " ++ caption.shown ++ " "
              ++ kind.title ++ "."))
            (kind.title ++ "-Specific Attribute") context
        | none => .ok known
      | _ => .ok known) known
      ((Entries.get? "observable" entry.2.inner).toList.map (declaredByPart kind caption entry.1)) := by
  obtain ⟨name, value⟩ := entry
  cases value with
  | object mark field =>
      dsimp only [Value.inner]
      cases Entries.get? "observable" field with
      | some id => exact collects_part kind caption known context name id
      | none => exact .none known
  | null | bool _ | int _ | float _ | text _ | array _ => exact .none known

end Parts

private theorem collects_parts {kind : ItemKind} {caption : Value} (known : List Observable) {attributes paths : Fields}
    {onAttribute onPath : List Observable → Text × Value → Except Fault (List Observable)}
    (ofAttribute : ∀ known entry, Collects (onAttribute known entry) known
      ((Entries.get? "observable" entry.2.inner).toList.map (declaredByPart kind caption entry.1)))
    (ofPath : ∀ known entry, Collects (onPath known entry) known [declaredByPart kind caption entry.1 entry.2]) :
    Collects (attributes.foldlM onAttribute known >>= fun known => paths.foldlM onPath known) known
      (declaredByAttributes kind caption attributes ++
        paths.map fun entry => declaredByPart kind caption entry.1 entry.2) := by
  refine (Collects.foldlM known fun known entry _ => ofAttribute known entry).bind ?_
  rw [List.map_eq_flatMap]
  exact .foldlM _ fun known entry _ => ofPath known entry

private theorem collects_item {kind : ItemKind} {ids : Text → Prop} {items : Fields} (raw : AreRawItems kind ids items)
    (known : List Observable) {entry : Text × Value} (member : entry ∈ items) (distinct : Entries.Distinct items) :
    Collects (observablesOfItem kind items known entry.1 entry.2) known
      (declaredByFields kind (calledBy items entry.1) entry.2.inner) := by
  obtain ⟨key, value⟩ := entry
  have found := Entries.get?_of_mem distinct member
  obtain ⟨item, rfl, document⟩ := raw.each key value found
  obtain ⟨caption, told, called⟩ := captionOf_text raw (Entries.mem_keys_of_get? found)
  obtain ⟨attributes, paths⟩ := document.sections
  unfold observablesOfItem declaredByFields declaredByItself
  simp only [told, called, ok_bind, Value.record, Value.asFields, attributes, paths, Value.inner, List.append_assoc]
  by_cases own : kind = .object
  · simp only [own, if_true, holds, Value.member, ok_bind, Entries.has]
    cases marked : Entries.get? "observable" item with
    | some id =>
        simp only [Option.isSome_some, if_true, Value.at_, marked, ok_bind]
        exact (collects_addObservable _ _ _ _ _ _).bind
          (collects_parts _ (fun _ _ => collects_attribute ..) fun _ _ => collects_part ..)
    | none => exact collects_parts known (fun _ _ => collects_attribute ..) fun _ _ => collects_part ..
  · simp only [own, if_false, List.nil_append]
    exact collects_parts known (fun _ _ => collects_attribute ..) fun _ _ => collects_part ..

theorem collects_items {kind : ItemKind} {ids : Text → Prop} {items : Fields} (raw : AreRawItems kind ids items)
    (known : List Observable) (distinct : Entries.Distinct items) :
    Collects (observablesOfItems kind known (.record items)) known (declaredByItems kind items) := by
  unfold observablesOfItems
  rw [Value.record, Value.asFields, ok_bind]
  exact .foldlM known fun known entry member => collects_item raw known member distinct

/-! ### The enumeration -/

def listing (o : Observable) : Value :=
  .record [("caption", o.caption.unshared), ("description", .text o.description)]

def withListings (observables : List Observable) (enumeration : Fields) : Fields :=
  observables.foldl (fun enumeration o => Entries.put o.id (listing o) enumeration) enumeration

theorem enumerate_cons (o : Observable) (rest : List Observable) (mark : Option Nat) (enumeration : Fields) :
    enumerate (o :: rest) (.object mark enumeration) =
      if Entries.has o.id enumeration then .error (.duplicate (.observableEnum o.id o.caption))
      else enumerate rest (.object mark (Entries.put o.id (listing o) enumeration)) := by
  unfold enumerate
  rw [List.foldlM_cons]
  simp only [holds, Value.member, ok_bind]
  cases Entries.has o.id enumeration <;> rfl

/-- Observables whose identifiers are all different and not in the enumeration are taken in. -/
theorem enumerate_ok {observables : List Observable} (mark : Option Nat) {enumeration : Fields}
    (distinct : (Observable.ids observables).Nodup)
    (fresh : ∀ o ∈ observables, Entries.has o.id enumeration = false) :
    enumerate observables (.object mark enumeration) = .ok (.object mark (withListings observables enumeration)) := by
  induction observables generalizing enumeration with
  | nil => rfl
  | cons o rest ih =>
      obtain ⟨apart, others⟩ := List.nodup_cons.mp distinct
      obtain ⟨first, later⟩ := List.forall_mem_cons.mp fresh
      rw [enumerate_cons, first]
      refine ih others fun other member => ?_
      have different : o.id ≠ other.id := fun same => apart (same ▸ List.mem_map_of_mem member)
      rw [Entries.has, Entries.get?_put_of_ne different]
      exact later other member

/-- The enumeration stops at an observable whose identifier it has already. -/
theorem enumerate_collides {observables : List Observable} (mark : Option Nat) {enumeration : Fields}
    {o : Observable} (member : o ∈ observables) (known : Entries.has o.id enumeration = true) :
    ∃ fault, enumerate observables (.object mark enumeration) = .error (.duplicate fault) := by
  induction observables generalizing enumeration with
  | nil => cases member
  | cons first rest ih =>
      rw [enumerate_cons]
      split
      · exact ⟨_, rfl⟩
      · rename_i unknown
        rcases List.mem_cons.mp member with here | there
        · exact absurd (here ▸ known) unknown
        · refine ih there ?_
          by_cases same : first.id = o.id
          · rw [same, Entries.has, Entries.get?_put_self]
            rfl
          · rwa [Entries.has, Entries.get?_put_of_ne same]

private theorem get?_withListings (id : Text) (observables : List Observable) (enumeration : Fields) :
    Entries.get? id (withListings observables enumeration) =
      ((observables.reverse.find? fun o => o.id = id).map listing).or (Entries.get? id enumeration) := by
  unfold withListings
  induction observables generalizing enumeration with
  | nil => rfl
  | cons o rest ih =>
      rw [List.foldl_cons, ih, List.reverse_cons, List.find?_append, Entries.get?_put]
      cases rest.reverse.find? fun o => o.id = id with
      | some later => rfl
      | none =>
          by_cases same : id = o.id
          · simp [same]
          · simp [same, Ne.symm same]

theorem has_withListings {id : Text} {observables : List Observable} {enumeration : Fields} :
    Entries.has id (withListings observables enumeration) = true ↔
      id ∈ Observable.ids observables ∨ Entries.has id enumeration = true := by
  rw [Entries.has, get?_withListings, Option.isSome_or, Option.isSome_map, Bool.or_eq_true, List.find?_isSome]
  simp [Observable.ids, Entries.has]

theorem get?_listed {observables : List Observable} (distinct : (Observable.ids observables).Nodup) {o : Observable}
    (member : o ∈ observables) (enumeration : Fields) :
    Entries.get? o.id (withListings observables enumeration) = some (listing o) := by
  rw [get?_withListings]
  cases found : observables.reverse.find? fun other => other.id = o.id with
  | none =>
      have apart := List.find?_eq_none.mp found o (List.mem_reverse.mpr member)
      simp at apart
  | some other =>
      have same : other.id = o.id := by simpa using List.find?_some found
      have present := List.mem_reverse.mp (List.mem_of_find?_eq_some found)
      rw [List.inj_on_of_nodup_map distinct present member same]
      rfl

theorem plain_listing (o : Observable) : Plain (listing o) := by
  refine plain_object.mpr ⟨rfl, plainFields_iff.mpr (List.forall_mem_cons.mpr ⟨plain_unshared _, ?_⟩)⟩
  exact List.forall_mem_singleton.mpr (unshared_of_leaf rfl)

theorem keyed_listing {o : Observable} (captioned : Keyed o.caption) : Keyed (listing o) := by
  refine keyed_record.mpr ⟨(by decide : (["caption", "description"] : List Text).Nodup), ?_⟩
  exact List.forall_mem_cons.mpr ⟨captioned.unshared, List.forall_mem_singleton.mpr (keyed_of_not_object rfl)⟩

theorem isSection_withListings {mark : Option Nat} (observables : List Observable) {enumeration : Fields}
    (whole : (Value.object mark enumeration).isSection = true) :
    (Value.object mark (withListings observables enumeration)).isSection = true := by
  unfold withListings
  induction observables generalizing enumeration with
  | nil => exact whole
  | cons o rest ih => exact ih (isSection_put whole o.id rfl)

theorem keyed_withListings {observables : List Observable} {enumeration : Fields}
    (captions : ∀ o ∈ observables, Keyed o.caption) (whole : Keyed (.record enumeration)) :
    Keyed (.record (withListings observables enumeration)) := by
  unfold withListings
  induction observables generalizing enumeration with
  | nil => exact whole
  | cons o rest ih =>
      obtain ⟨first, others⟩ := List.forall_mem_cons.mp captions
      exact ih others (whole.put (keyed_listing first) o.id)

theorem markedFields_withListings {s : Nat → Prop} (observables : List Observable) {enumeration : Fields}
    (marked : MarkedFields s enumeration) : MarkedFields s (withListings observables enumeration) := by
  unfold withListings
  induction observables generalizing enumeration with
  | nil => exact marked
  | cons o rest ih => exact ih (marked.put (plain_listing o).marked o.id)

end Draft

end EventSchema
