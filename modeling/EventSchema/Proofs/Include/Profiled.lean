import EventSchema.Proofs.Documents
import EventSchema.Proofs.Include.Files
import EventSchema.Proofs.Value.Told

/-!
Attributes that are included from a profile.

The attributes of a profile are tagged with its name where a directive includes them. If no other file of
the directive has the attribute, and nothing but the profile itself could say of it which profile it is of,
then the expanded item says so: the attribute is of the profile of that name.
-/

set_option autoImplicit false

namespace EventSchema

open Value

def Value.OpenAt (name field : Text) (attributes : Fields) : Prop :=
  ∀ value, Entries.get? name attributes = some value →
    value.isObject = true ∧ Entries.get? field value.inner = none

theorem Value.OpenAt.silent {name field : Text} {attributes : Fields} (leavesOpen : OpenAt name field attributes)
    (each : SingleEach attributes) : SilentAt name field attributes := by
  intro value found
  obtain ⟨object, absent⟩ := leavesOpen value found
  obtain apart | ⟨fields, rfl⟩ := (each.of_get? found).shape
  · cases object.symm.trans apart
  · exact ⟨fields, rfl, absent⟩

namespace Include

variable {tree : Tree} {places : Places} {stack : List Path}

/-- The directive of an item, and the fields of its attributes that are in question: which profile an
attribute is of, and whether more is to be included in it. -/
def questioned : List Text := ["profile", directive]

structure IsProfile (name : Text) (fragment : Fields) : Prop where
  sort : Entries.get? "meta" fragment = some (.text "profile")
  named : Entries.get? "name" fragment = some (.text name)

def Gives (tree : Tree) (places : Places) (stack : List Path) (file : Text) (included : Fields) : Prop :=
  ∃ context, (read tree places stack file context).content = .ok (some included)

theorem Gives.read {file : Text} {included : Fields} (gives : Gives tree places stack file included)
    (context : Text) : (read tree places stack file context).content = .ok (some included) := by
  obtain ⟨other, ran⟩ := gives
  obtain ⟨path, fragment, fresh, present, found, inside⟩ := read_ok ran
  rw [content_read, found]
  dsimp only
  rw [if_neg fresh, if_pos present, inside]
  rfl

/-- An item takes an attribute from one of the files that its directive lists: the file has it, and leaves
open which profile it is of, so does the item itself, and no other file has it. -/
structure Takes (tree : Tree) (places : Places) (stack : List Path) (item : Fields) (key file : Text)
    (included : Fields) : Prop where
  listed : ∃ before after, (Entries.get? directive (Entries.attributes item)).bind names? =
      some (before ++ file :: after) ∧
    ∀ other ∈ before ++ after, ∀ fragment, Gives tree places stack other fragment →
      Entries.get? key (Entries.attributes fragment) = none
  gives : Gives tree places stack file included
  given : (Entries.get? key (Entries.attributes included)).isSome = true
  offered : ∀ field ∈ questioned, OpenAt key field (Entries.attributes included)
  own : ∀ field ∈ questioned, OpenAt key field (Entries.attributes item)

/-! ### One file -/

theorem attributes_mergeOwn {offered joined : Value} {own : Fields} (ran : mergeOwn offered own = .ok joined) :
    own = [] ∧ joined = offered ∨ ∃ mark fields, offered = .object mark fields ∧
      joined = .record (overlay fields own) := by
  unfold mergeOwn at ran
  split at ran
  · rename_i empty
    exact .inl ⟨List.isEmpty_iff.mp empty, (Except.ok.inj ran).symm⟩
  · obtain ⟨fields, opened, ran⟩ := bind_eq_ok.mp ran
    obtain ⟨mark, rfl⟩ := inner_of_asFields opened
    exact .inr ⟨mark, fields, rfl, (pure_eq_ok.mp ran).symm⟩

variable {key field : Text} {context : Text} {item included merged : Fields}

/-- What a file gives that does not have the attribute. -/
theorem absent_offered {before offered : Value} {amount : Nat}
    (absent : Entries.get? key before.inner = none)
    (shape : offered = before.shift amount ∧ Entries.get? "meta" included ≠ some (.text "profile") ∨
      ∃ given next fields, Entries.get? "name" included = some given ∧
        (before.shift amount).asFields = .ok fields ∧
        offered = .record (tag ((given.shift amount).mark next).1 fields)) :
    Entries.get? key offered.inner = none := by
  have shifted : Entries.get? key (before.shift amount).inner = none := by
    cases before with
    | object mark fields =>
        rw [shift, Value.inner, get?_shiftFields]
        rw [Value.inner] at absent
        rw [absent]
        rfl
    | null | bool _ | int _ | float _ | text _ | array _ => rw [(renews_shift amount).leaf _ rfl]; rfl
  rcases shape with ⟨rfl, _⟩ | ⟨given, next, fields, _, opened, rfl⟩
  · exact shifted
  · obtain ⟨mark, same⟩ := inner_of_asFields opened
    rw [same, Value.inner] at shifted
    rw [inner_record, tag, Entries.get?_mapValues, shifted]
    rfl

/-- A file without the attribute leaves what the item says of it. -/
theorem mergeIncluded_apart {told : Option Value} (leaf : Leaf told) (document : Document item)
    (absent : Entries.get? key (Entries.attributes included) = none)
    (ran : (mergeIncluded context item included).Yields merged) :
    (ToldAt key field told (Entries.attributes item) →
      ToldAt key field told (Entries.attributes merged)) ∧
    (SilentAt key field (Entries.attributes item) →
      SilentAt key field (Entries.attributes merged)) := by
  rcases mergeIncluded_ok ran with ⟨rfl, _⟩ | ⟨before, amount, offered, own, joined, known, shape, opened,
    joins, rfl⟩
  · exact ⟨id, id⟩
  · have inside : Entries.get? key before.inner = none := by
      rwa [Entries.attributes_eq_inner, Entries.orEmpty, Entries.getOr, known, Option.getD_some] at absent
    have gone := absent_offered inside shape
    have distinct := ((document.keyed.orNull _).asFields opened).distinct
    have written : Entries.attributes (Entries.put "attributes" joined item) = joined.inner := by
      rw [Entries.attributes_eq_inner, Entries.orEmpty_put_self]
    rw [Entries.attributes_of_orNull opened, written]
    rcases attributes_mergeOwn joins with ⟨rfl, rfl⟩ | ⟨mark, fields, rfl, rfl⟩
    · refine ⟨fun told => ?_, fun _ => .of_absent gone⟩
      obtain ⟨_, impossible, _⟩ := told
      cases impossible
    · exact ⟨toldAt_overlay_of_absent leaf gone distinct, SilentAt.overlay_of_absent gone distinct⟩

private theorem get?_tag {name : Value} {fields attributes : Fields}
    (found : Entries.get? key attributes = some (.record fields)) :
    Entries.get? key (tag name attributes) = some (.record (Entries.putNew "profile" name fields)) := by
  rw [tag, Entries.get?_mapValues, found]
  rfl

/-- A tag says which profile an attribute is of that leaves it open. -/
theorem toldAt_tag (name : Value) {attributes : Fields} (holds : ToldAt key "profile" none attributes) :
    ToldAt key "profile" (some name) (tag name attributes) := by
  obtain ⟨_, found, fields, rfl, absent⟩ := holds
  refine ⟨_, get?_tag found, _, rfl, ?_⟩
  rw [Entries.get?_putNew, if_pos ⟨rfl, absent⟩]

private theorem directed_tag (name : Value) {attributes : Fields} (holds : ToldAt key directive none attributes) :
    ToldAt key directive none (tag name attributes) := by
  obtain ⟨_, found, fields, rfl, absent⟩ := holds
  refine ⟨_, get?_tag found, _, rfl, ?_⟩
  rw [Entries.get?_putNew, if_neg fun both => absurd both.1 (by decide), absent]

/-- A profile tells of its attributes that they are of it, wherever the item leaves that open. -/
theorem mergeIncluded_tags {name : Text} (document : Document item) (inside : Document included)
    (profile : IsProfile name included)
    (given : (Entries.get? key (Entries.attributes included)).isSome = true)
    (offers : ∀ field ∈ questioned, OpenAt key field (Entries.attributes included))
    (silent : ∀ field ∈ questioned, SilentAt key field (Entries.attributes item))
    (ran : (mergeIncluded context item included).Yields merged) :
    ToldAt key "profile" (some (.text name)) (Entries.attributes merged) ∧
      ToldAt key directive none (Entries.attributes merged) := by
  obtain ⟨value, found⟩ := Option.isSome_iff_exists.mp given
  have said (field : Text) (among : field ∈ questioned) :
      ToldAt key field none (Entries.attributes included) :=
    ⟨value, found, (offers field among).silent inside.single value found⟩
  rcases mergeIncluded_ok ran with ⟨_, absent⟩ | ⟨before, amount, offered, own, joined, known, shape, opened,
    joins, rfl⟩
  · rw [Entries.attributes, absent] at found
    cases found
  · obtain ⟨_, other⟩ | ⟨called, next, fields, naming, shifted, rfl⟩ := shape
    · exact absurd profile.sort other
    · cases profile.named.symm.trans naming
      have moved (field : Text) (among : field ∈ questioned) : ToldAt key field none fields := by
        have held := said field among
        rw [Entries.attributes_eq_inner, Entries.orEmpty, Entries.getOr, known, Option.getD_some] at held
        cases before with
        | object mark attributes =>
            rw [shift, Value.asFields] at shifted
            cases shifted
            exact held.renewed (renews_shift amount) leaf_none
        | null | bool _ | int _ | float _ | text _ | array _ =>
            obtain ⟨_, impossible, _⟩ := held
            cases impossible
      have text : (((Value.text name).shift amount).mark next).1 = .text name := by
        rw [(renews_shift amount).leaf _ rfl, mark_of_not_object rfl]
      rw [text] at joins
      have distinct := ((document.keyed.orNull _).asFields opened).distinct
      rw [Entries.attributes_of_orNull opened] at silent
      rw [Entries.attributes_eq_inner, Entries.orEmpty_put_self]
      have tagged := toldAt_tag (.text name) (moved "profile" (by decide))
      have undirected := directed_tag (.text name) (moved directive (by decide))
      rcases attributes_mergeOwn joins with ⟨rfl, rfl⟩ | ⟨mark, tags, same, rfl⟩
      · exact ⟨tagged, undirected⟩
      · cases same
        exact ⟨tagged.overlay (leaf_text name) distinct (silent _ (by decide)),
          undirected.overlay leaf_none distinct (silent _ (by decide))⟩

/-! ### All files of a directive -/

variable {name file : Text} {expanded : Fields}

structure Tagged (key name : Text) (item : Fields) : Prop where
  told : ToldAt key "profile" (some (.text name)) (Entries.attributes item)
  settled : ToldAt key directive none (Entries.attributes item)

private theorem mergeAll_apart {files : List Text} {start : Fields} (holds : Fields → Prop)
    (others : ∀ other ∈ files, ∀ fragment, Gives tree places stack other fragment →
      Entries.get? key (Entries.attributes fragment) = none)
    (kept : ∀ state fragment after, Entries.get? key (Entries.attributes fragment) = none →
      Document state → holds state → (mergeIncluded context state fragment).Yields after → holds after)
    (document : Document start) (initial : holds start)
    (ran : (mergeAll (read tree places stack) context files start).content = .ok merged) :
    Document merged ∧ holds merged := by
  rw [content_mergeAll (fixed_read places stack)] at ran
  refine foldlM_invariant (motive := fun state => Document state ∧ holds state) ran ⟨document, initial⟩ ?_
  rintro state other after member ⟨whole, before⟩ step
  obtain ⟨fragment?, ran, step⟩ := bind_eq_ok.mp step
  cases fragment? with
  | none => exact pure_eq_ok.mp step ▸ ⟨whole, before⟩
  | some fragment =>
      have merges := (Act.settles_of_content tree step).yields
      exact ⟨document_mergeIncluded whole (document_read places stack other context fragment ran) merges,
        kept state fragment after (others other member fragment ⟨context, ran⟩) whole before merges⟩

private theorem mergeAll_takes {start : Fields} {before after : List Text} (profile : IsProfile name included)
    (gives : Gives tree places stack file included)
    (given : (Entries.get? key (Entries.attributes included)).isSome = true)
    (offers : ∀ field ∈ questioned, OpenAt key field (Entries.attributes included))
    (others : ∀ other ∈ before ++ after, ∀ fragment, Gives tree places stack other fragment →
      Entries.get? key (Entries.attributes fragment) = none)
    (document : Document start)
    (silent : ∀ field ∈ questioned, SilentAt key field (Entries.attributes start))
    (ran : (mergeAll (read tree places stack) context (before ++ file :: after) start).content = .ok merged) :
    Tagged key name merged := by
  have fixed : ∀ name context, (read tree places stack name context).Fixed tree :=
    fixed_read places stack
  rw [content_mergeAll fixed, List.foldlM_append] at ran
  obtain ⟨first, earlier, ran⟩ := bind_eq_ok.mp ran
  rw [List.foldlM_cons] at ran
  obtain ⟨second, step, later⟩ := bind_eq_ok.mp ran
  rw [← content_mergeAll fixed] at earlier later
  rw [gives.read context, ok_bind] at step
  obtain ⟨firstDocument, firstSilent⟩ := mergeAll_apart
    (fun state => ∀ field ∈ questioned, SilentAt key field (Entries.attributes state))
    (fun other member => others other (List.mem_append_left _ member))
    (fun state fragment after absent whole open_ merges field among =>
      (mergeIncluded_apart leaf_none whole absent merges).2 (open_ field among)) document silent earlier
  have inside := document_read places stack file context included (gives.read context)
  have merges := (Act.settles_of_content tree step).yields
  obtain ⟨told, settled⟩ := mergeIncluded_tags firstDocument inside profile given offers firstSilent merges
  refine (mergeAll_apart (Tagged key name)
    (fun other member => others other (List.mem_append_right _ member)) ?_
    (document_mergeIncluded firstDocument inside merges) ⟨told, settled⟩ later).2
  rintro state fragment after absent whole ⟨told, settled⟩ merges
  exact ⟨(mergeIncluded_apart (leaf_text name) whole absent merges).1 told,
    (mergeIncluded_apart leaf_none whole absent merges).1 settled⟩

/-- An attribute that includes nothing more is left as it is. -/
theorem expandEach_tagged {reader : Reader} (tagged : Tagged key name merged)
    (fixed : ∀ name context, (reader name context).Fixed tree)
    (ran : expandEach reader context merged = .ok expanded) :
    ToldAt key "profile" (some (.text name)) (Entries.attributes expanded) := by
  obtain ⟨attributes, results, opened, each, rfl⟩ := expandEach_ok ran
  obtain ⟨value, found, fields, rfl, told⟩ := tagged.told
  obtain ⟨_, found', _, same, settled⟩ := tagged.settled
  cases found.symm.trans found'
  cases same
  rw [Entries.attributes_of_orNull opened] at found
  obtain ⟨result, held, expands⟩ := each.get?_left found
  rw [record, content_expandAttribute fixed, settled] at expands
  cases expands
  rw [Entries.attributes_put_record]
  exact ⟨_, held, fields, rfl, told⟩

theorem expandWith_takes (document : Document item)
    (takes : Takes tree places stack item key file included) (profile : IsProfile name included)
    (ran : (expandWith (read tree places stack) context item).content = .ok expanded) :
    ToldAt key "profile" (some (.text name)) (Entries.attributes expanded) := by
  have fixed : ∀ name context, (read tree places stack name context).Fixed tree :=
    fixed_read places stack
  obtain ⟨before, after, listed, others⟩ := takes.listed
  obtain ⟨given, directed, names⟩ := Option.bind_eq_some_iff.mp listed
  rw [content_expandWith fixed] at ran
  cases found : Entries.get? "attributes" item with
  | none =>
      rw [Entries.attributes, found] at directed
      cases directed
  | some value =>
      cases value with
      | object mark own =>
          have inside : Entries.attributes item = own := by rw [Entries.attributes, found]
          rw [inside] at directed
          rw [found] at ran
          dsimp only at ran
          rw [directed] at ran
          dsimp only at ran
          rw [fileNames_of_names? names, ok_bind] at ran
          obtain ⟨merged, joins, ran⟩ := bind_eq_ok.mp ran
          have erased := (keyed_object.mp (document.keyed.of_get? found)).erase directive
          have start : Document (Entries.put "attributes" (.object mark (Entries.erase directive own)) item) :=
            document.putAttributes (keyed_object.mpr erased) ((document.of_get? found).filter _)
          refine expandEach_tagged (mergeAll_takes profile takes.gives takes.given takes.offered others start
            (fun field among => ?_) joins) fixed ran
          rw [Entries.attributes_put]
          intro value held
          rw [Entries.get?_erase] at held
          split at held
          · cases held
          · have silent := (takes.own field among).silent document.single
            rw [inside] at silent
            exact silent value held
      | null | bool _ | int _ | float _ | text _ | array _ =>
          rw [Entries.attributes, found] at directed
          cases directed

end Include

end EventSchema
