import EventSchema.Proofs.Graph.References
import EventSchema.Proofs.Order.Links
import EventSchema.Proofs.Records

/-!
Graphs of items in another order.

A graph is read from its draft item by item. So drafts whose items are in another order are read into graphs
that are the same up to the order of keys, of the names in lists of profiles and of references under a key.
-/

set_option autoImplicit false

namespace EventSchema

open Value (AlikeFields SameNames SameListed itemsOrNone)

/-! ### Attributes -/

namespace Attribute

structure Alike (one other : Attribute) : Prop where
  name : other.name = one.name
  fields : AlikeFields one.toFields other.toFields

private theorem alike_ofFields (name : Text) {fields others : Fields} (alike : AlikeFields fields others) :
    Alike (ofFields name fields) (ofFields name others) := by
  have each := alike.get?
  refine ⟨rfl, ?_⟩
  cases alike with
  | same => exact .refl _
  | object distinct distinct' =>
      have shownOnce {fields : Fields} (distinct : Entries.Distinct fields) :
          Entries.Distinct (ofFields name fields).toFields :=
        ((toFields_perm name distinct).map Prod.fst).nodup_iff.mpr (distinct.filter _)
      refine Value.alikeFields_of_get? (shownOnce distinct) (shownOnce distinct') fun key => ?_
      have here := each key
      rw [get?_toFields, get?_toFields]
      generalize Entries.get? key fields = one, Entries.get? key others = two at here ⊢
      unfold shown
      cases here with
      | none => split <;> exact .none
      | some alike =>
          split
          · rw [Option.filter_some, Option.filter_some, alike.isNull_eq]
            split
            · exact .some alike
            · exact .none
          · exact .some alike

private theorem related_ofValues {attributes others : Fields}
    (related : Entries.Related (fun _ => Value.Alike) attributes others) :
    Entries.Related (fun _ => Alike) (ofValues attributes) (ofValues others) := by
  unfold ofValues
  induction related with
  | nil => exact .nil
  | @cons head head' _ _ first _ ih =>
      obtain ⟨_, value⟩ := head
      obtain ⟨name, value'⟩ := head'
      obtain ⟨rfl, alike⟩ := first
      rw [List.filterMap_cons, List.filterMap_cons]
      dsimp only at alike ⊢
      rcases alike.cases with rfl | ⟨mark, fields, fields', rfl, rfl, inside⟩
      · cases value with
        | object mark fields => exact .cons ⟨rfl, alike_ofFields _ (.refl fields)⟩ ih
        | null | bool _ | int _ | float _ | text _ | array _ => exact ih
      · exact .cons ⟨rfl, alike_ofFields _ inside⟩ ih

end Attribute

/-! ### Classes and objects -/

namespace Entity

structure Alike (one other : Entity) : Prop where
  same : other = { one with attributes := other.attributes, profiles := other.profiles }
  attributes : Entries.Related (fun _ => Attribute.Alike) one.attributes other.attributes
  profiles : SameNames one.profiles other.profiles

variable {item other : Fields}

private theorem matched_ofDocument (similar : Draft.SimilarItems Value.Alike SameListed item other) :
    Matched (Entries.Related fun _ => Attribute.Alike) (Attribute.ofDocument (Entries.get? "attributes" item))
      (Attribute.ofDocument (Entries.get? "attributes" other)) := by
  have opened : Matched (Entries.Related fun _ => Value.Alike) (Value.fieldsOrNone (Entries.get? "attributes" item))
      (Value.fieldsOrNone (Entries.get? "attributes" other)) := by
    have here := similar.get? "attributes"
    generalize Entries.get? "attributes" item = one, Entries.get? "attributes" other = two at here ⊢
    cases here with
    | none => exact .ok .nil
    | some field =>
        cases field with
        | same =>
            refine (Matched.refl _).imp fun fields _ same => ?_
            exact same ▸ List.forall₂_same.mpr fun entry _ => ⟨rfl, .same entry.2⟩
        | attributes _ each =>
            cases each with
            | nil => exact .ok .nil
            | cons first rest => exact .ok (.cons first rest)
        | profiles named => exact absurd named (by decide)
  intro attributes ran
  obtain ⟨fields, read, rfl⟩ := map_eq_ok.mp ran
  obtain ⟨fields', read', related⟩ := opened fields read
  exact ⟨_, map_eq_ok.mpr ⟨fields', read', rfl⟩, Attribute.related_ofValues related⟩

private theorem beside_eq {known : List Text} (attributes : ("attributes" : Text) ∈ known)
    (profiles : ("profiles" : Text) ∈ known)
    (similar : Draft.SimilarItems Value.Alike SameListed item other) :
    Entries.beside known other = Entries.beside known item := by
  unfold Draft.SimilarItems at similar
  unfold Entries.beside
  induction similar with
  | nil => rfl
  | @cons head head' _ _ first _ ih =>
      obtain ⟨_, value⟩ := head
      obtain ⟨name, value'⟩ := head'
      obtain ⟨rfl, field⟩ := first
      rw [List.filter_cons, List.filter_cons, ih]
      dsimp only at field ⊢
      split
      · rename_i unknown
        rw [Bool.not_eq_true', ← Bool.not_eq_true, List.contains_iff_mem] at unknown
        cases field with
        | same => rfl
        | attributes named => exact absurd (named ▸ attributes) unknown
        | profiles named => exact absurd (named ▸ profiles) unknown
      · rfl

private theorem matched_ofFields (key : Text) (kind : ItemKind)
    (similar : Draft.SimilarItems Value.Alike SameListed item other) :
    Matched Alike (ofFields key kind item) (ofFields key kind other) := by
  have same {key : Text} (notAttributes : key ≠ "attributes") (notProfiles : key ≠ "profiles") :
      Entries.get? key other = Entries.get? key item := similar.get?_eq notAttributes notProfiles
  unfold ofFields
  refine similar.listed.1.bind fun profiles profiles' listed => ?_
  refine (matched_ofDocument similar).bind fun attributes attributes' related => ?_
  rw [same (by decide) (by decide)]
  refine (Matched.refl _).bind fun patchedBy _ equal => ?_
  subst equal
  have named : SameNames profiles profiles' := by
    cases listed with
    | same => exact .refl _
    | listed _ _ same => exact same
  refine .pure ⟨?_, related, named⟩
  have told : ∀ key ∈ knownKeys, Entries.orNull key other = Entries.orNull key item := by
    intro key known
    refine Entries.orNull_congr (same ?_ ?_)
    · rintro rfl
      exact absurd known (by decide)
    · rintro rfl
      exact absurd known (by decide)
  have called : recordName key other = recordName key item := by
    unfold recordName
    rw [same (by decide) (by decide)]
  dsimp only
  rw [called, beside_eq (by decide) (by decide) similar]
  simp (disch := decide) only [told]

end Entity

/-! ### Graphs -/

/-- The same graph up to the order of its items, of keys, of the names in lists of profiles and of the
references under a key. -/
structure Graph.Alike (graph other : Graph) : Prop where
  same : other = { graph with
    classes := other.classes, objects := other.objects, profiles := other.profiles
    allClasses := other.allClasses, allObjects := other.allObjects, links := other.links }
  classes : Entries.Reorders Entity.Alike graph.classes other.classes
  objects : Entries.Reorders Entity.Alike graph.objects other.objects
  profiles : graph.profiles.Perm other.profiles
  allClasses : graph.allClasses.Perm other.allClasses
  allObjects : graph.allObjects.Perm other.allObjects
  links : graph.links.Alike other.links

theorem Draft.Corresponds.matched_graph {draft other : Draft}
    (corresponds : Corresponds (SimilarItems Value.Alike SameListed) draft other) (tidyClasses : Tidy draft.classes)
    (tidyObjects : Tidy draft.objects) : Matched Graph.Alike draft.graph other.graph := by
  have linked := Links.matched_ofItems corresponds.classes corresponds.objects
    (forall_members (fun item => Entries.Distinct (Entries.attributes item)) tidyClasses.keyed.names
      tidyObjects.keyed.names)
    (forall_members (fun item => Value.Apart (Entries.profiles item)) tidyClasses.apart tidyObjects.apart)
  have read (kind : ItemKind) {items others : Entries Fields}
      (reorders : Entries.Reorders (SimilarItems Value.Alike SameListed) items others) :
      Matched (Entries.Reorders Entity.Alike)
        (items.mapM fun entry => do return (entry.1, ← Entity.ofFields entry.1 kind entry.2))
        (others.mapM fun entry => do return (entry.1, ← Entity.ofFields entry.1 kind entry.2)) :=
    reorders.matched_mapEntries fun key _ _ similar => Entity.matched_ofFields key kind similar
  unfold Draft.graph
  refine linked.bind fun links links' sameLinks => ?_
  refine (read .eventClass corresponds.classes).bind fun classes classes' inClasses => ?_
  refine (read .object corresponds.objects).bind fun objects objects' inObjects => ?_
  rw [corresponds.categories]
  refine (Matched.refl _).bind fun named _ same => ?_
  subst same
  refine (Matched.refl _).bind fun categories _ same => ?_
  subst same
  refine Matched.bind (fun _ => corresponds.profiles.asFields) fun profiles profiles' perm => ?_
  refine (Matched.mapM_perm perm).bind fun done done' sameProfiles => ?_
  rw [corresponds.version, corresponds.extensions, corresponds.attributes, corresponds.types,
    corresponds.dictionaryExtras]
  exact .pure ⟨rfl, inClasses, inObjects, sameProfiles, corresponds.allClasses, corresponds.allObjects, sameLinks⟩

end EventSchema
