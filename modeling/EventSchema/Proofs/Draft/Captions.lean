import EventSchema.Draft.Dictionary
import EventSchema.Proofs.Draft.Attributes
import EventSchema.Proofs.Draft.Closure

/-!
What references tell of the objects that they lead to.

A reference names an object by its key and its caption and tells nothing else of it. So drafts whose
objects have the same keys and captions resolve the attributes of a dictionary alike, and finish the
attributes of an item alike.
-/

set_option autoImplicit false

namespace EventSchema.Draft

/-- The same objects under the same keys, as far as references tell of them. -/
def SameTold (objects others : Entries Fields) : Prop :=
  ∀ key, (Entries.get? key others).map (Entries.get? "caption") =
    (Entries.get? key objects).map (Entries.get? "caption")

namespace SameTold

variable {objects others : Entries Fields}

theorem find? (same : SameTold objects others) (name : Value) (scope : Option Value) :
    Scope.find? others name scope = Scope.find? objects name scope := by
  refine Scope.find?_of_has (fun key => ?_) name scope
  have present := congrArg Option.isSome (same key)
  rwa [Option.isSome_map, Option.isSome_map] at present

theorem refer (same : SameTold objects others) (key : Value) (field : Fields) :
    refer others key field = refer objects key field := by
  cases key with
  | text key =>
      have caption : Entries.getOr "caption" ((Entries.get? key others).getD []) (.text ∅) =
          Entries.getOr "caption" ((Entries.get? key objects).getD []) (.text ∅) := by
        have told := same key
        generalize Entries.get? key others = other, Entries.get? key objects = object at told ⊢
        cases other with
        | none =>
            cases object with
            | none => rfl
            | some _ => cases told
        | some other =>
            cases object with
            | none => cases told
            | some object => exact congrArg (Option.getD · _) (Option.some.inj told)
      unfold Draft.refer
      rw [Value.lookup?, Value.lookup?, ok_bind, ok_bind]
      dsimp only
      rw [caption]
  | null | bool _ | int _ | float _ | array _ | object _ _ => rfl

end SameTold

/-- The same objects in the same order, as far as references tell of them. -/
def SameCaptions (objects others : Entries Fields) : Prop :=
  Entries.Related (fun _ object other => Entries.get? "caption" other = Entries.get? "caption" object)
    objects others

namespace SameCaptions

variable {objects others : Entries Fields}

theorem symm (same : SameCaptions objects others) : SameCaptions others objects :=
  (Entries.Related.flip same).imp fun _ _ _ => Eq.symm

theorem trans {last : Entries Fields} (first : SameCaptions objects others) (later : SameCaptions others last) :
    SameCaptions objects last :=
  (Entries.Related.trans first later).imp fun _ _ _ ⟨_, one, two⟩ => two.trans one

theorem told (same : SameCaptions objects others) : SameTold objects others := by
  intro key
  cases found : Entries.get? key objects with
  | none =>
      have absent : Entries.get? key others = none := by
        rw [Entries.get?_eq_none_iff] at found ⊢
        rwa [Entries.Related.keys_eq same]
      rw [absent]
  | some object =>
      obtain ⟨other, held, told⟩ := Entries.Related.get?_left same found
      rw [held, Option.map_some, Option.map_some, told]

end SameCaptions

structure SameLexicon (draft other : Draft) : Prop where
  attributes : other.attributes = draft.attributes
  types : other.types = draft.types
  profiles : other.profiles = draft.profiles
  captions : SameCaptions draft.objects other.objects

variable {draft other : Draft}

/-- What an attribute of the dictionary is resolved to depends on the types and on what references tell of. -/
theorem resolveType_congr (types : other.types = draft.types) (told : SameTold draft.objects other.objects) :
    other.resolveType = draft.resolveType := by
  funext name value
  unfold Draft.resolveType
  simp only [types, told.find?, told.refer]

/-- An attribute of the dictionary is resolved to the same from every run. -/
theorem agree_resolveType (draft : Draft) (name : Text) (value : Value) :
    Act.Agree (resolveType draft name value) (resolveType draft name value) := by
  unfold Draft.resolveType
  refine (Act.agree_lift rfl).bind fun field _ _ => ?_
  dsimp only
  split
  · exact (Act.agree_unit _ _).bind fun _ _ _ => Act.agree_pure _
  · refine (Act.agree_lift rfl).bind fun known _ _ => ?_
    split
    · exact (Act.agree_lift rfl).bind fun _ _ _ => Act.agree_pure _
    · refine (Act.agree_lift rfl).bind fun found _ _ => ?_
      split
      · exact (Act.agree_lift rfl).bind fun _ _ _ => Act.agree_pure _
      · exact (Act.agree_unit _ _).bind fun _ _ _ => Act.agree_pure _

theorem SameLexicon.resolveDictionary (same : SameLexicon draft other) {resolved resolved' : Draft}
    (ran : draft.resolveDictionary.Yields resolved) (ran' : other.resolveDictionary.Yields resolved') :
    resolved'.attributes = resolved.attributes := by
  unfold Draft.resolveDictionary at ran ran'
  obtain ⟨attributes, each, ran⟩ := Act.yields_bind ran
  obtain ⟨attributes', each', ran'⟩ := Act.yields_bind ran'
  obtain ⟨enabled, asked, ran⟩ := Act.yields_bind ran
  obtain ⟨enabled', asked', ran'⟩ := Act.yields_bind ran'
  rw [Act.yields_lift] at asked asked'
  have related := Act.yields_mapEntries each
  have related' := Act.yields_mapEntries each'
  rw [same.attributes, resolveType_congr same.types same.captions.told] at related'
  cases related.unique related' fun entry _ _ _ one two => draft.agree_resolveType entry.1 entry.2 _ _ one two
  have decided : other.datetimeEnabled = draft.datetimeEnabled := by
    unfold datetimeEnabled
    rw [same.types, same.profiles]
  cases asked.symm.trans (decided.symm.trans asked')
  cases enabled with
  | false => rw [← Act.yields_pure.mp ran, ← Act.yields_pure.mp ran']
  | true =>
      obtain ⟨_, _, ran⟩ := Act.yields_bind ran
      obtain ⟨_, _, ran'⟩ := Act.yields_bind ran'
      obtain ⟨siblings, found, ran⟩ := Act.yields_bind ran
      obtain ⟨siblings', found', ran'⟩ := Act.yields_bind ran'
      rw [Act.yields_lift] at found found'
      rw [same.types] at found'
      cases found.symm.trans found'
      rw [← Act.yields_pure.mp ran, ← Act.yields_pure.mp ran']

theorem finishAttribute_congr (attributes : other.attributes = draft.attributes)
    (told : SameTold draft.objects other.objects) {item item' : Fields}
    (owner : Entries.get? "extension" item' = Entries.get? "extension" item) (name : Text) (value : Value) :
    other.finishAttribute item' name value = draft.finishAttribute item name value := by
  have scope (field : Fields) : extensionOf field item' = extensionOf field item := by
    unfold extensionOf
    rw [Entries.orNull_congr owner]
  unfold finishAttribute
  simp only [attributes, scope, told.find?, told.refer]

end EventSchema.Draft
