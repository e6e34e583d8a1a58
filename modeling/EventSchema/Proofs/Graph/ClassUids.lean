import EventSchema.Graph.Query
import EventSchema.Proofs.Graph.Outside
import EventSchema.Proofs.Graph.References
import EventSchema.Proofs.Lineage.Own

/-!
What the uid of a class is put together from.

A class has a number of its own, its category has one too, and an extension scopes the category: its
own extension, or that of the class if the category is one of the base schema. The uid of the class
has the digits of all three, so two classes have the same uid just when they have the same three
numbers.
-/

set_option autoImplicit false

namespace EventSchema

/-- The numbers of a class: that of the extension which scopes its category, that of the category
there, and its own. Zero stands for what there is none of. -/
structure ClassUid where
  extension : Int
  category : Int
  own : Int
deriving DecidableEq

namespace ClassUid

def digits (u : ClassUid) : Int := (u.extension * 100 + u.category) * 1000 + u.own

structure Proper (u : ClassUid) : Prop where
  category : 0 ≤ u.category ∧ u.category < 100
  own : 0 ≤ u.own ∧ u.own < 1000

theorem digits_inj {u v : ClassUid} (first : u.Proper) (second : v.Proper) :
    u.digits = v.digits ↔ u = v := by
  obtain ⟨extension, category, own⟩ := u
  obtain ⟨extension', category', own'⟩ := v
  obtain ⟨⟨_, _⟩, _, _⟩ := first
  obtain ⟨⟨_, _⟩, _, _⟩ := second
  unfold digits
  rw [ClassUid.mk.injEq]
  dsimp only at *
  constructor
  · intro same
    refine ⟨?_, ?_, ?_⟩ <;> omega
  · rintro ⟨rfl, rfl, rfl⟩
    rfl

/-- The numbers of a class whose category has a uid. That of an extension's category has the extension
in it already; that of any other is scoped by the extension of the class. -/
def ofCategory (category : Int) (extension : Value) (own : Int) : ClassUid :=
  if 100 ≤ category then ⟨category / 100, category % 100, own⟩
  else ⟨(extension.whole?).getD 0, category, own⟩

theorem proper_ofCategory {category own : Int} (counted : 0 ≤ category) (short : 0 ≤ own ∧ own < 1000)
    (extension : Value) : (ofCategory category extension own).Proper := by
  unfold ofCategory
  split
  · exact ⟨⟨by dsimp only; omega, by dsimp only; omega⟩, short⟩
  · exact ⟨⟨counted, by dsimp only; omega⟩, short⟩

end ClassUid

namespace Uid

theorem asNumber_of_whole {value : Value} {n : Int} (whole : value.whole? = some n) :
    value.asNumber = .ok (.whole n) := by
  cases value with
  | float x => cases whole
  | null | bool _ | int _ | text _ | array _ | object _ _ => rw [Value.asNumber, whole]; simp

theorem scope_whole {factor m : Int} {outer : Value} (whole : outer.asNumber = .ok (.whole m)) (n : Int) :
    scope factor outer (.whole n) = .ok (.int (m * factor + n)) := by
  rw [scope, whole]
  rfl

/-- What scopes a class in its category: the uid of the category, with that of the extension of the class in
front if the category is one of the base schema. -/
def classScope (extension : Value) (category : Int) : Int :=
  match extension.whole? with
  | some n => if category < 100 then n * 100 + category else category
  | none => category

private theorem categoryOfClass_whole {category : Int} {extension given outer : Value} (whole : extension.isNull =
    true ∨ ∃ n, extension.whole? = some n)
    (number : given.asNumber = .ok (.whole category)) (scoping : categoryOfClass extension given = .ok outer) :
    outer.asNumber = .ok (.whole (classScope extension category)) := by
  unfold categoryOfClass at scoping
  split at scoping
  · rename_i absent
    cases extension with
    | null => exact pure_eq_ok.mp scoping ▸ number
    | bool _ | int _ | float _ | text _ | array _ | object _ _ => cases absent
  · rename_i present
    obtain ⟨n, known⟩ := whole.resolve_left present
    rw [number, ok_bind, Number.atLeast] at scoping
    rw [classScope, known]
    dsimp only
    by_cases short : category < 100
    · have below : Number.below 100 (.whole category) = true := decide_eq_true short
      rw [decide_eq_false (by omega), if_neg Bool.false_ne_true, Uid.category, number, ok_bind, if_pos below,
        scope_whole (asNumber_of_whole known)] at scoping
      rw [if_pos short, ← Except.ok.inj scoping]
      exact asNumber_of_whole rfl
    · rw [decide_eq_true (by omega), if_pos rfl] at scoping
      rw [if_neg short]
      exact pure_eq_ok.mp scoping ▸ number

private theorem eventClass_whole {scope own : Int} {outer given uid : Value}
    (scopes : outer.asNumber = .ok (.whole scope))
    (number : given.asNumber = .ok (.whole own)) (composed : eventClass outer given = .ok uid) :
    uid = .int (scope * 1000 + own) := by
  unfold eventClass at composed
  rw [number, ok_bind] at composed
  split at composed
  · rw [scope_whole scopes] at composed
    exact (Except.ok.inj composed).symm
  · cases composed

private theorem digits_ofCategory (category : Int) (extension : Value) (own : Int) :
    (ClassUid.ofCategory category extension own).digits = classScope extension category * 1000 + own := by
  unfold ClassUid.ofCategory ClassUid.digits classScope
  cases extension.whole? with
  | none =>
      split
      · dsimp only
        omega
      · simp
  | some n =>
      by_cases short : category < 100
      · rw [if_neg (by omega)]
        dsimp only
        rw [if_pos short]
        rfl
      · rw [if_pos (by omega)]
        dsimp only
        rw [if_neg short]
        omega

end Uid

def uidNamed (uids : Text → Option Value) (name : Value) : Int :=
  match name with
  | .text key => if (Value.text key).truthy then ((uids key).bind Value.whole?).getD 0 else 0
  | _ => 0

private theorem uidNamed_text {uids : Text → Option Value} {key : Text} {n : Int}
    (named : (Value.text key).truthy = true) (told : uids key = some (.int n)) :
    uidNamed uids (.text key) = n := by
  rw [uidNamed, if_pos named, told]
  rfl

namespace Draft

/-! ### Identified classes -/

/-- The number that a class is defined with: a whole one below a thousand, or else zero. -/
def ownNumber (item : Fields) : Int :=
  match (Entries.getOr "uid" item (.int 0)).whole? with
  | some n => if 0 ≤ n ∧ n < 1000 then n else 0
  | none => 0

theorem ownNumber_bounds (item : Fields) : 0 ≤ ownNumber item ∧ ownNumber item < 1000 := by
  unfold ownNumber
  split
  · split
    · assumption
    · decide
  · decide

theorem ownNumber_congr {item other : Fields} (same : Entries.get? "uid" item = Entries.get? "uid" other) :
    ownNumber item = ownNumber other := by
  rw [ownNumber, ownNumber, Entries.getOr, Entries.getOr, same]

theorem localUid_ok {key : Text} {item : Fields} {own : Value} (ran : (localUid key item).Yields own) :
    own.asNumber = .ok (.whole (ownNumber item)) := by
  unfold localUid at ran
  unfold ownNumber
  dsimp only at ran
  generalize whole : (Entries.getOr "uid" item (.int 0)).whole? = found at ran ⊢
  cases found with
  | some n =>
      dsimp only at ran ⊢
      split at ran
      · rename_i short
        rw [if_pos short, ← Act.yields_pure.mp ran]
        exact Uid.asNumber_of_whole whole
      · rename_i long
        obtain ⟨_, _, ran⟩ := Act.yields_bind ran
        rw [if_neg long, ← Act.yields_pure.mp ran]
        rfl
  | none =>
      obtain ⟨_, _, ran⟩ := Act.yields_bind ran
      rw [← Act.yields_pure.mp ran]
      rfl

def Counted (value : Value) : Prop := ∃ n : Int, 0 ≤ n ∧ value.at_ "uid" = .ok (.int n)

theorem at_object_ok {mark : Option Nat} {fields : Fields} {key : Text} {value : Value}
    (found : (Value.object mark fields).at_ key = .ok value) : Entries.get? key fields = some value := by
  rw [Value.at_] at found
  split at found
  · exact Except.ok.inj found ▸ ‹_›
  · cases found

def categoryUid? (categories : Fields) (key : Text) : Option Value :=
  (Entries.get? key categories).bind fun value => (value.at_ "uid").toOption

/-- A class is identified with the category that it names in the end. -/
theorem uidNamed_of_categoryOf {draft : Draft} {item : Fields} {mark : Option Nat} {categories : Fields}
    (shape : draft.categories = .object mark categories) (counted : ∀ entry ∈ categories, Counted entry.2)
    {category : Option (Value × Value)} (known : categoryOf draft item = .ok category) :
    (category = none → uidNamed (categoryUid? categories) (Entries.orNull "category" item) = 0) ∧
    ∀ name value, category = some (name, value) → ∃ fields n, value.asFields = .ok fields ∧ 0 ≤ n ∧
      Entries.get? "uid" fields = some (.int n) ∧ uidNamed (categoryUid? categories) name = n := by
  unfold categoryOf at known
  dsimp only at known
  rw [shape] at known
  obtain ⟨found, asked, known⟩ := bind_eq_ok.mp known
  cases found with
  | none =>
      cases pure_eq_ok.mp known
      refine ⟨fun _ => ?_, fun _ _ impossible => by cases impossible⟩
      cases named : Entries.orNull "category" item with
      | text key =>
          rw [uidNamed]
          split
          · rename_i given
            rw [named] at asked
            have absent : Entries.get? key categories = none := by
              by_contra present
              exact Scope.findBy_ne_none given
                (congrArg Except.ok (Option.isSome_iff_ne_none.mpr present)) asked
            rw [categoryUid?, absent]
            rfl
          · rfl
      | null | bool _ | int _ | float _ | array _ | object _ _ => rfl
  | some key =>
      obtain ⟨listed, opened, known⟩ := bind_eq_ok.mp known
      obtain ⟨value, read, known⟩ := bind_eq_ok.mp known
      have present := (Scope.findBy_ok asked).1
      have given := Scope.truthy_of_findBy asked
      cases opened
      cases key with
      | text key =>
          cases held : Entries.get? key categories with
          | none => exact absurd (Except.ok.inj present) (by rw [Entries.has, held]; decide)
          | some category =>
              obtain ⟨n, nonnegative, numbered⟩ := counted _ (Entries.mem_of_get? held)
              have told : categoryUid? categories key = some (.int n) := by
                rw [categoryUid?, held, Option.bind_some, numbered]
                rfl
              cases category with
              | object mark fields =>
                  have own := at_object_ok numbered
                  have same : value = some (.object mark fields) := by
                    rw [Value.lookup?, held] at read
                    exact (Except.ok.inj read).symm
                  have filled : (Value.object mark fields).truthy = true := by
                    cases fields with
                    | nil => cases own
                    | cons head rest => rfl
                  rw [read, same, ok_bind, Value.ofOption, if_pos filled] at known
                  refine ⟨fun impossible => ?_, fun name value shown => ?_⟩
                  · rw [← pure_eq_ok.mp known] at impossible
                    cases impossible
                  · rw [← pure_eq_ok.mp known, Option.some.injEq, Prod.mk.injEq] at shown
                    obtain ⟨rfl, rfl⟩ := shown
                    exact ⟨fields, n, rfl, nonnegative, own, uidNamed_text given told⟩
              | null | bool _ | int _ | float _ | text _ | array _ => cases numbered
      | null | bool _ | int _ | float _ | array _ | object _ _ => cases present

theorem identify_composed {draft : Draft} {key : Text} {item result : Fields}
    (whole : (Entries.orNull "extension_id" item).isNull = true ∨
      ∃ n, (Entries.orNull "extension_id" item).whole? = some n)
    (ran : (identify draft key item).Yields result) :
    ∃ category number, categoryOf draft item = .ok category ∧
      (category = none ∧ number = .int 0 ∧
          Entries.orNull "category" result = Entries.orNull "category" item ∨
        ∃ name value fields, category = some (name, value) ∧ value.asFields = .ok fields ∧
          number = Entries.getOr "uid" fields (.int 0) ∧ Entries.orNull "category" result = name) ∧
      ∀ n, number.asNumber = .ok (.whole n) → Entries.orNull "uid" result =
        .int (Uid.classScope (Entries.orNull "extension_id" item) n * 1000 + ownNumber item) := by
  obtain ⟨category, named, number, own, outer, uid, attributes, known, origin, numbered, scoping, composed,
    _, written⟩ := identify_steps ran
  have start : Entries.SameBeside ["attributes"] item (Entries.putNew "attributes" (.record []) item) := by
    unfold Entries.putNew
    split
    · exact .refl _ _
    · exact (Entries.SameBeside.refl _ item).put (by decide) _
  have frame : Entries.SameBeside ["attributes", "category", "category_name"] item named := by
    have started : Entries.SameBeside ["attributes", "category", "category_name"] item
        (Entries.putNew "attributes" (.record []) item) := start.mono (by decide)
    rcases origin with ⟨_, _, rfl⟩ | ⟨name, _, fields, _, _, _, rfl⟩
    · exact started
    · exact (started.put (by decide) name).put (by decide) _
  have scope : Entries.orNull "extension_id" named = Entries.orNull "extension_id" item :=
    Entries.orNull_congr (frame "extension_id" (by decide))
  have digits := ownNumber_congr (frame "uid" (by decide))
  have shown : Entries.orNull "uid" result = uid ∧
      Entries.orNull "category" result = Entries.orNull "category" named := by
    rcases written with ⟨_, rfl⟩ | ⟨_, ⟨_, rfl⟩ | ⟨_, rfl⟩⟩
    · rw [Entries.orNull_put_of_ne (by decide), Entries.orNull_put_of_ne (by decide),
        Entries.orNull_put_self, Entries.orNull_put_of_ne (by decide), Entries.orNull_put_of_ne (by decide),
        Entries.orNull_put_of_ne (by decide)]
      exact ⟨rfl, rfl⟩
    · rw [Entries.orNull_put_of_ne (by decide), Entries.orNull_put_self,
        Entries.orNull_put_of_ne (by decide), Entries.orNull_put_of_ne (by decide)]
      exact ⟨rfl, rfl⟩
    · rw [Entries.orNull_put_of_ne (by decide), Entries.orNull_put_of_ne (by decide),
        Entries.orNull_put_self, Entries.orNull_put_of_ne (by decide), Entries.orNull_put_of_ne (by decide),
        Entries.orNull_put_of_ne (by decide)]
      exact ⟨rfl, rfl⟩
  rw [categoryOf_congr (start "category" (by decide)) (start "extension" (by decide))] at known
  rw [shown.1, shown.2]
  refine ⟨category, number, known, ?_, fun n counts => ?_⟩
  · rcases origin with ⟨unknown, zero, rfl⟩ | ⟨name, value, fields, found, opened, told, rfl⟩
    · exact Or.inl ⟨unknown, zero, Entries.orNull_congr (start "category" (by decide))⟩
    · refine Or.inr ⟨name, value, fields, found, opened, told, ?_⟩
      rw [Entries.orNull_put_of_ne (by decide), Entries.orNull_put_self]
  · rw [scope] at scoping
    rw [← digits]
    exact Uid.eventClass_whole (Uid.categoryOfClass_whole whole counts scoping) (localUid_ok numbered) composed

private theorem identify_uid {draft : Draft} {key : Text} {item result : Fields} {mark : Option Nat}
    {categories : Fields} (shape : draft.categories = .object mark categories)
    (counted : ∀ entry ∈ categories, Counted entry.2)
    (whole : (Entries.orNull "extension_id" item).isNull = true ∨
      ∃ n, (Entries.orNull "extension_id" item).whole? = some n)
    (ran : (identify draft key item).Yields result) :
    0 ≤ uidNamed (categoryUid? categories) (Entries.orNull "category" result) ∧
    Entries.orNull "uid" result = .int (ClassUid.ofCategory
      (uidNamed (categoryUid? categories) (Entries.orNull "category" result))
      (Entries.orNull "extension_id" item) (ownNumber item)).digits := by
  obtain ⟨category, number, known, origin, composed⟩ := identify_composed whole ran
  obtain ⟨without, within⟩ := uidNamed_of_categoryOf shape counted known
  rw [Uid.digits_ofCategory]
  rcases origin with ⟨unknown, rfl, same⟩ | ⟨name, value, fields, found, opened, told, same⟩
  · rw [same, without unknown]
    exact ⟨le_refl 0, composed 0 (Uid.asNumber_of_whole rfl)⟩
  · obtain ⟨fields', n, opened', nonnegative, held, uid⟩ := within name value found
    cases opened.symm.trans opened'
    have whole : number.whole? = some n := by rw [told, Entries.getOr, held]; rfl
    rw [same, uid]
    exact ⟨nonnegative, composed n (Uid.asNumber_of_whole whole)⟩

end Draft

theorem Draft.read_identified {draft : Draft} {key : Text} {flat identified result : Fields} {entity : Entity}
    (ran : (identify draft key flat).Yields identified)
    (same : Entries.SameBeside ["attributes", "profiles"] identified result)
    (reads : Entity.ofFields key .eventClass result = .ok entity) :
    entity.uid = Entries.orNull "uid" identified ∧ entity.category = Entries.orNull "category" identified ∧
      entity.extensionId = Entries.orNull "extension_id" flat := by
  have read : entity.uid = Entries.orNull "uid" result ∧ entity.category = Entries.orNull "category" result ∧
      entity.extensionId = Entries.orNull "extension_id" result := by
    unfold Entity.ofFields at reads
    obtain ⟨_, _, reads⟩ := bind_eq_ok.mp reads
    obtain ⟨_, _, reads⟩ := bind_eq_ok.mp reads
    obtain ⟨_, _, reads⟩ := bind_eq_ok.mp reads
    rw [← pure_eq_ok.mp reads]
    exact ⟨rfl, rfl, rfl⟩
  have extension : Entries.get? "extension_id" identified = Entries.get? "extension_id" flat :=
    (identify_ok ran).2 "extension_id" (by decide)
  exact ⟨read.1.trans (Entries.orNull_congr (same "uid" (by decide))),
    read.2.1.trans (Entries.orNull_congr (same "category" (by decide))),
    read.2.2.trans (Entries.orNull_congr ((same "extension_id" (by decide)).trans extension))⟩

/-! ### Classes of the graph -/

namespace Stages

variable {d : Definitions} {graph : Graph} (stages : Stages d graph)

theorem categories_eq : stages.resolved.categories = stages.start.categories ∧
    stages.finished.categories = stages.start.categories := by
  obtain ⟨_, resolved⟩ := Draft.resolveDictionary_ok stages.resolving
  obtain ⟨_, _, _, dated⟩ := stages.dated_eq
  obtain ⟨_, _, _, required, _⟩ := Draft.requireAll_ok stages.requiring
  obtain ⟨_, _, _, finished, _⟩ := Draft.finish_ok stages.finishing
  constructor
  · rw [resolved]
    rfl
  · rw [finished, required, dated]
    rfl

theorem sameBeside_classes : Entries.Related
    (fun _ => Entries.SameBeside ["attributes", "profiles"]) stages.identified.classes
      stages.finished.classes := by
  have listed : stages.listed.classes = stages.identified.classes := by
    rcases Draft.listObservables_ok stages.listing with ⟨_, same⟩ | ⟨_, _, _, _, _, _, _, _, same⟩
    · rw [same]
    · rw [same]
  obtain ⟨_, _, closed, _, closes⟩ := Draft.closeAllProfiles_ok (motive := fun _ _ => True)
    stages.closing trivial (fun _ _ _ _ _ _ _ _ => trivial) (fun _ _ _ _ _ => trivial)
  obtain ⟨_, _, _, required, requires, _⟩ := Draft.requireAll_ok stages.requiring
  obtain ⟨_, _, _, finished, finishes, _⟩ := Draft.finish_ok stages.finishing
  have apart {field : Text} (kept : field ∉ (["attributes", "profiles"] : List Text)) :
      field ≠ "attributes" ∧ field ≠ "profiles" := by
    simpa only [List.mem_cons, List.not_mem_nil, or_false, not_or] using kept
  have free {item result : Fields} (frame : ∀ field : Text, field ≠ "attributes" →
      Entries.get? field result = Entries.get? field item) :
      Entries.SameBeside ["attributes", "profiles"] item result :=
    fun field kept => frame field (apart kept).1
  have closing : Entries.Related (fun _ => Entries.SameBeside ["attributes", "profiles"])
      stages.identified.classes stages.closed.classes := by
    rw [closed, ← listed]
    refine closes.imp fun _ _ _ ran field kept => ?_
    obtain ⟨_, _, _, _, _, frame⟩ := Draft.closeProfiles_ok ran
    exact frame field (apart kept).2
  have dating : Entries.Related (fun _ => Entries.SameBeside ["attributes", "profiles"])
      stages.closed.classes stages.dated.classes := by
    rcases Draft.addDatetimeSiblings_ok stages.dating with ⟨_, same⟩ | ⟨_, _, _, same, dates, _⟩
    · rw [same]
      exact List.forall₂_same.mpr fun _ _ => ⟨rfl, .refl _ _⟩
    · rw [same]
      refine dates.imp fun _ _ _ ran field kept => ?_
      obtain ⟨_, _, _, _, frame⟩ := Draft.addSiblings_ok ran
      exact frame field (apart kept).1 (apart kept).2
  have classes : stages.required.classes = _ := congrArg Draft.classes required
  have others : stages.finished.classes = _ := congrArg Draft.classes finished
  rw [classes] at finishes
  rw [others]
  refine (((closing.trans dating).trans requires).trans finishes).imp ?_
  rintro _ item result ⟨_, ⟨_, ⟨_, closed, dated⟩, _, requires⟩, finishes⟩
  exact ((closed.trans dated).trans (free (Draft.requireItem_ok requires).2)).trans
    (free (Draft.finishItem_ok finishes).2)

end Stages

namespace Graph

def categoryUid (graph : Graph) (entity : Entity) : Int :=
  uidNamed (fun key => (Entries.get? key graph.categories).map Category.uid) entity.category

/-- The numbers of a class, its own told by the items that define the classes. -/
def classUid (graph : Graph) (items : Entries Fields) (entry : Text × Entity) : ClassUid :=
  .ofCategory (graph.categoryUid entry.2) entry.2.extensionId
    (Draft.ownNumber ((Entries.get? entry.1 items).getD []))

private theorem categoryUid_eq {graph : Graph} {draft : Draft} {mark : Option Nat} {categories : Fields}
    (shape : draft.categories = .object mark categories)
    (counted : ∀ entry ∈ categories, Draft.Counted entry.2) (ran : draft.graph = .ok graph)
    (entity : Entity) :
    graph.categoryUid entity = uidNamed (Draft.categoryUid? categories) entity.category := by
  obtain ⟨_, _, _, _, ⟨fields, opened, read⟩, _⟩ := of_draft ran
  rw [shape] at opened
  cases opened
  have same : (fun key => (Entries.get? key graph.categories).map Category.uid) =
      Draft.categoryUid? categories := by
    funext key
    cases found : Entries.get? key graph.categories with
    | none =>
        have absent : Entries.get? key categories = none := by
          rw [Entries.get?_eq_none_iff, ← read.keys_eq]
          exact Entries.get?_eq_none_iff.mp found
        rw [Draft.categoryUid?, absent]
        rfl
    | some category =>
        obtain ⟨value, held, reads⟩ := read.get?_right found
        obtain ⟨n, _, numbered⟩ := counted _ (Entries.mem_of_get? held)
        rw [Draft.categoryUid?, held, Option.bind_some, numbered]
        cases value with
        | object mark fields =>
            have own := Draft.at_object_ok numbered
            obtain ⟨_, opened, same⟩ := map_eq_ok.mp reads
            cases opened
            rw [Option.map_some, ← same]
            dsimp only [Category.ofFields]
            rw [Entries.orNull, Entries.getOr, own]
            rfl
        | null | bool _ | int _ | float _ | text _ | array _ => cases numbered
  rw [categoryUid, same]

theorem classOfUid?_of_unique {graph : Graph} (distinct : Entries.Distinct graph.classes)
    (numbered : ∀ entry ∈ graph.classes, ∃ n, entry.2.uid = .int n)
    (unique : ∀ first ∈ graph.classes, ∀ second ∈ graph.classes, first.2.uid = second.2.uid →
      first.1 = second.1)
    {entry : Text × Entity} (member : entry ∈ graph.classes) :
    graph.classOfUid? entry.2.uid = .ok (some entry.2) := by
  obtain ⟨n, uid⟩ := numbered entry member
  have askable : (Value.int n).isKey = true := rfl
  rw [classOfUid?, uid, if_pos askable]
  refine congrArg Except.ok ?_
  have present : entry.2 ∈ (Entries.values graph.classes).reverse :=
    List.mem_reverse.mpr (List.mem_map_of_mem member)
  have answers : (!entry.2.uid.isNull && entry.2.uid.equals (.int n)) = true := by
    rw [uid, Value.int_equals.mpr rfl]
    rfl
  cases found : (Entries.values graph.classes).reverse.find? fun e =>
      !e.uid.isNull && e.uid.equals (.int n) with
  | none => exact absurd answers (List.find?_eq_none.mp found _ present)
  | some other =>
      obtain ⟨⟨key, origin⟩, known, rfl⟩ := List.mem_map.mp (List.mem_reverse.mp (List.mem_of_find?_eq_some found))
      have same := List.find?_some found
      obtain ⟨m, uid'⟩ := numbered _ known
      dsimp only at uid' same
      rw [uid', Bool.and_eq_true, Value.int_equals] at same
      have keys : key = entry.1 := unique _ known _ member (by rw [uid, uid', same.2])
      subst keys
      have one := Entries.get?_of_mem distinct known
      rw [Entries.get?_of_mem distinct member, Option.some.injEq] at one
      rw [one]

end Graph

namespace Stages

variable {d : Definitions} {graph : Graph} (stages : Stages d graph)

theorem related_classes : Entries.Related (fun key flat entity => ∃ identified result,
      (Draft.identify stages.resolved key flat).Yields identified ∧
      Entries.SameBeside ["attributes", "profiles"] identified result ∧
      Entity.ofFields key .eventClass result = .ok entity) stages.resolved.classes graph.classes := by
  obtain ⟨_, read, _⟩ := Draft.graph_ok stages.reading
  obtain ⟨classes, shape, identifies⟩ := Draft.identifyClasses_ok stages.identifying
  have later := stages.sameBeside_classes
  rw [shape] at later
  refine ((identifies.trans later).trans read).imp ?_
  rintro _ _ _ ⟨result, ⟨identified, ran, same⟩, reads⟩
  exact ⟨identified, result, ran, same, reads⟩

theorem mem_flatClasses {entry : Text × Fields} (member : entry ∈ stages.resolved.classes) :
    entry ∈ stages.flatClasses := by
  obtain ⟨_, resolved⟩ := Draft.resolveDictionary_ok stages.resolving
  rw [resolved] at member
  exact List.mem_of_mem_filter member

theorem flat_of_class {entry : Text × Entity} (member : entry ∈ graph.classes) :
    ∃ flat identified result, (entry.1, flat) ∈ stages.flatClasses ∧
      (Draft.identify stages.resolved entry.1 flat).Yields identified ∧
      Entries.SameBeside ["attributes", "profiles"] identified result ∧
      Entity.ofFields entry.1 .eventClass result = .ok entry.2 := by
  obtain ⟨flat, present, identified, result, ran, same, reads⟩ := stages.related_classes.mem_right member
  exact ⟨flat, identified, result, stages.mem_flatClasses present, ran, same, reads⟩

theorem distinct_classes (distinct : Entries.Distinct stages.rawClasses) :
    Entries.Distinct graph.classes := by
  obtain ⟨_, resolved⟩ := Draft.resolveDictionary_ok stages.resolving
  have related := stages.related_classes
  rw [resolved] at related
  have flat := (Lineage.flattenAll_ok stages.flattenClasses).distinct distinct
  exact related.distinct (flat.filter _)

theorem uid_of_class {mark : Option Nat} {categories : Fields}
    (shape : stages.start.categories = .object mark categories)
    (counted : ∀ entry ∈ categories, Draft.Counted entry.2) {entry : Text × Entity}
    (member : entry ∈ graph.classes) (whole : entry.2.extensionId.isNull = true ∨ ∃ n,
      entry.2.extensionId.whole? = some n) :
    0 ≤ graph.categoryUid entry.2 ∧ ∃ flat, (entry.1, flat) ∈ stages.flatClasses ∧
      entry.2.uid = .int (ClassUid.ofCategory (graph.categoryUid entry.2) entry.2.extensionId
        (Draft.ownNumber flat)).digits := by
  obtain ⟨resolved, finished⟩ := stages.categories_eq
  obtain ⟨flat, identified, result, known, ran, same, reads⟩ := stages.flat_of_class member
  obtain ⟨numbered, named, extension⟩ := Draft.read_identified ran same reads
  obtain ⟨nonnegative, uid⟩ := Draft.identify_uid (resolved.trans shape) counted (extension ▸ whole) ran
  rw [← numbered, ← named, ← extension, ← Graph.categoryUid_eq (finished.trans shape) counted stages.reading] at uid
  rw [← named, ← Graph.categoryUid_eq (finished.trans shape) counted stages.reading] at nonnegative
  exact ⟨nonnegative, flat, known, uid⟩

end Stages

end EventSchema
