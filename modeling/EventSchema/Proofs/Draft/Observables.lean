import EventSchema.Draft.Observables
import EventSchema.Proofs.Lineage.Outside
import EventSchema.Proofs.Value.Marks

/-!
Observables of the items of a scope and of all others.

What an item is called in the list of observables may come from an ancestor, and an item outside a
scope has none in it. So items of a scope that mark nothing as observable leave the list as it is.
-/

set_option autoImplicit false

namespace EventSchema.Draft

open Value

variable {scope : Text} {items : Fields}

/-- Nothing in an item marks it, one of its attributes or a path of them as observable. -/
def Unmarked (item : Fields) : Prop :=
  Entries.has "observable" item = false ∧ Entries.has "observables" item = false ∧
    ∀ entry ∈ Entries.attributes item, ∀ mark field, entry.2 = .object mark field →
      Entries.has "observable" field = false

instance : DecidablePred Unmarked := fun item =>
  decidable_of_iff (Entries.has "observable" item = false ∧ Entries.has "observables" item = false ∧
      ∀ entry ∈ Entries.attributes item, (match entry.2 with
        | .object _ field => Entries.has "observable" field
        | _ => false) = false) (by
    refine and_congr_right fun _ => and_congr_right fun _ => forall₂_congr fun entry _ => ?_
    cases entry.2 <;> simp)

/-! ### Captions -/

private theorem captionFrom_outside (proper : Scope.Proper scope) (clear : Lineage.ClearItems scope items)
    (origin : Text) (seen : List Text) (key : Text) (free : Scope.owns scope key = false) :
    captionFrom (Entries.outside scope items) origin seen key = captionFrom items origin seen key := by
  induction seen, key using captionFrom.induct items with
  | case1 seen key ended =>
      rw [captionFrom, captionFrom, dif_pos ended, dif_pos ended]
  | case2 seen key further present ih =>
      obtain ⟨value, found⟩ := Option.isSome_iff_exists.mp (Entries.has_iff_mem_keys.mpr present)
      have kept : Entries.get? key (Entries.outside scope items) = some value :=
        (Entries.get?_outside items free).trans found
      have itself : Entries.orNull key items = value := by
        rw [Entries.orNull, Entries.getOr, found, Option.getD_some]
      have itselfKept : Entries.orNull key (Entries.outside scope items) = value := by
        rw [Entries.orNull, Entries.getOr, kept, Option.getD_some]
      rw [captionFrom, captionFrom, dif_neg further, dif_neg further, dif_pos present,
        dif_pos (Entries.mem_keys_of_get? kept), itself, itselfKept]
      cases value with
      | object mark fields =>
          have surface := (clear_object.mp (clear _ (Entries.mem_of_get? found) free)).surface
          have named : Scope.NameOutside scope (Entries.orNull "extends" fields) :=
            surface.name (by decide)
          have asked : ∀ owner, Entries.get? "extension" fields = some owner →
              Scope.OwnerOutside scope owner := fun owner known => surface.owner proper known
          have parent := Scope.find?_outside proper.plain items named asked
          have later (next : Text) (found : Scope.find? items (Entries.orNull "extends" fields)
              (Entries.get? "extension" fields) = .ok (some (.text next))) :
              captionFrom (Entries.outside scope items) origin (key :: seen) next =
                captionFrom items origin (key :: seen) next :=
            ih next (Scope.nameOutside_of_findBy proper.plain named asked found next rfl)
          simp only [asFields, ok_bind]
          rw [parent]
          cases holds (.object mark fields) "caption" with
          | error fault => rfl
          | ok captioned =>
              cases captioned with
              | true => rfl
              | false =>
                  cases found : Scope.find? items (Entries.orNull "extends" fields)
                      (Entries.get? "extension" fields) with
                  | error fault => rfl
                  | ok next =>
                      rcases next with _ | (_ | _ | _ | _ | next | _ | _)
                      all_goals first
                        | rfl
                        | exact later next found
      | null | bool _ | int _ | float _ | text _ | array _ => rfl
  | case3 seen key further absent =>
      have gone : key ∉ Entries.keys (Entries.outside scope items) := by
        rw [Entries.keys_outside]
        exact fun member => absent (List.mem_of_mem_filter member)
      rw [captionFrom, captionFrom, dif_neg further, dif_neg further, dif_neg absent, dif_neg gone]

private theorem captionFrom_among {property : Value → Prop} (texts : ∀ text : Text, property (.text text))
    (captions : ∀ entry ∈ items, ∀ caption, Entries.get? "caption" entry.2.inner = some caption → property caption)
    {origin : Text} {seen : List Text} {key : Text} {caption : Value}
    (ran : captionFrom items origin seen key = .ok caption) : property caption := by
  induction seen, key using captionFrom.induct items with
  | case1 seen key ended =>
      rw [captionFrom, dif_pos ended] at ran
      exact pure_eq_ok.mp ran ▸ texts origin
  | case2 seen key further present ih =>
      obtain ⟨value, found⟩ := Option.isSome_iff_exists.mp (Entries.has_iff_mem_keys.mpr present)
      have itself : Entries.orNull key items = value := by
        rw [Entries.orNull, Entries.getOr, found, Option.getD_some]
      rw [captionFrom, dif_neg further, dif_pos present, itself] at ran
      obtain ⟨captioned, asked, ran⟩ := bind_eq_ok.mp ran
      cases captioned with
      | true =>
          cases value with
          | object mark fields =>
              unfold at_ at ran
              dsimp only at ran
              cases known : Entries.get? "caption" fields with
              | none =>
                  simp [known] at ran
              | some given =>
                  simp only [known, if_true, Except.ok.injEq] at ran
                  exact ran ▸ captions _ (Entries.mem_of_get? found) given known
          | null | bool _ | int _ | float _ | text _ | array _ => cases ran
      | false =>
          obtain ⟨fields, opened, ran⟩ := bind_eq_ok.mp ran
          obtain ⟨parent, found, ran⟩ := bind_eq_ok.mp ran
          rcases parent with _ | (_ | _ | _ | _ | next | _ | _)
          all_goals first
            | exact ih next ran
            | exact pure_eq_ok.mp ran ▸ texts origin
  | case3 seen key further absent =>
      rw [captionFrom, dif_neg further, dif_neg absent] at ran
      cases ran

private theorem captionFrom_clear (clear : ∀ entry ∈ items, Clear scope entry.2) {origin : Text}
    {seen : List Text} {key : Text} {caption : Value}
    (ran : captionFrom items origin seen key = .ok caption) : Clear scope caption := by
  refine captionFrom_among (fun _ => clear_of_not_object rfl) (fun entry member caption found => ?_) ran
  have inside := clear entry member
  cases shape : entry.2 with
  | object mark fields =>
      rw [shape] at inside found
      exact ((clear_object.mp inside).of_get? found).2
  | null | bool _ | int _ | float _ | text _ | array _ =>
      rw [shape] at found
      cases found

/-! ### The list -/

private theorem observablesOfItem_unmarked {kind : ItemKind} {known after : List Observable} {key : Text}
    {mark : Option Nat} {item : Fields} (unmarked : Unmarked item)
    (ran : observablesOfItem kind items known key (.object mark item) = .ok after) :
    after = known := by
  obtain ⟨unseen, pathless, attributes⟩ := unmarked
  have asked : holds (.object mark item) "observable" = .ok false := congrArg Except.ok unseen
  have absent : Entries.get? "observables" item = none := by simpa [Entries.has] using pathless
  have noPaths : fieldsOrNone (Entries.get? "observables" item) = .ok [] := by rw [absent]; rfl
  unfold observablesOfItem at ran
  obtain ⟨caption, _, ran⟩ := bind_eq_ok.mp ran
  simp only [asked, ok_bind, asFields, noPaths, Bool.false_eq_true, if_false, ite_self,
    List.foldlM_nil] at ran
  obtain ⟨start, same, ran⟩ := bind_eq_ok.mp ran
  obtain ⟨own, read, ran⟩ := bind_eq_ok.mp ran
  obtain ⟨last, inside, ran⟩ := bind_eq_ok.mp ran
  rw [pure_eq_ok] at same ran
  rw [← ran]
  refine foldlM_invariant (motive := fun state => state = known) inside same.symm ?_
  intro state entry next member held step
  rw [← held]
  split at step
  · rename_i mark field shape
    have none? := attributes entry (Lineage.attributes_of_fieldsOrNone read ▸ member) mark field shape
    have silent : Entries.get? "observable" field = none := by simpa [Entries.has] using none?
    rw [silent] at step
    exact (Except.ok.inj step).symm
  · exact (Except.ok.inj step).symm

private theorem observablesOfItem_outside (proper : Scope.Proper scope)
    (clear : Lineage.ClearItems scope items) {key : Text} (free : Scope.owns scope key = false)
    (kind : ItemKind) (known : List Observable) (item : Value) :
    observablesOfItem kind (Entries.outside scope items) known key item =
      observablesOfItem kind items known key item := by
  unfold observablesOfItem captionOf
  rw [captionFrom_outside proper clear key [] key free]

/-- Items of a scope that mark nothing do not show among the observables. -/
theorem observablesOfItems_outside (proper : Scope.Proper scope)
    (clear : Lineage.ClearItems scope items)
    (unmarked : ∀ entry ∈ items, Scope.owns scope entry.1 = true →
      ∃ mark item, entry.2 = .object mark item ∧ Unmarked item)
    {kind : ItemKind} {known listed : List Observable} {mark other : Option Nat}
    (ran : observablesOfItems kind known (.object mark items) = .ok listed) :
    observablesOfItems kind known (.object other (Entries.outside scope items)) = .ok listed := by
  unfold observablesOfItems at ran ⊢
  simp only [asFields, ok_bind] at ran ⊢
  refine Entries.foldlM_outside ran ?_ ?_
  · intro entry member owned state next step
    obtain ⟨mark, item, shape, silent⟩ := unmarked entry member owned
    rw [shape] at step
    exact observablesOfItem_unmarked silent step
  · intro entry member free state
    exact observablesOfItem_outside proper clear free kind state entry.2

def ClearCaptions (scope : Text) (observables : List Observable) : Prop :=
  ∀ o ∈ observables, Clear scope o.caption

private theorem addObservable_clear {known after : List Observable} {id caption description : Value}
    {kind context : Text} (clear : ClearCaptions scope known) (captioned : Clear scope caption)
    (ran : addObservable known id caption description kind context = .ok after) :
    ClearCaptions scope after := by
  unfold addObservable at ran
  dsimp only at ran
  split at ran
  · cases ran
  · rw [← Except.ok.inj ran]
    intro o member
    rcases List.mem_append.mp member with before | last
    · exact clear o before
    · rw [List.mem_singleton.mp last]
      exact captioned

theorem observablesOfDictionary_clear {kind : Text} {known after : List Observable}
    {entries : Fields} (clear : ClearCaptions scope known) (entriesClear : ClearFields scope entries)
    (ran : observablesOfDictionary kind known entries = .ok after) : ClearCaptions scope after := by
  unfold observablesOfDictionary at ran
  refine foldlM_invariant ran clear ?_
  intro state entry next member held step
  dsimp only at step
  obtain ⟨marked, _, step⟩ := bind_eq_ok.mp step
  split at step
  · obtain ⟨fields, opened, step⟩ := bind_eq_ok.mp step
    have inside := (clearFields_iff.mp entriesClear entry member).2.asFields opened
    exact addObservable_clear held (inside.getOr_clear _ (clear_of_not_object rfl)) step
  · exact pure_eq_ok.mp step ▸ held

private theorem observablesOfItem_clear {kind : ItemKind} {known after : List Observable} {key : Text}
    {item : Value} (clear : ClearCaptions scope known) (itemsClear : ∀ entry ∈ items, Clear scope entry.2)
    (ran : observablesOfItem kind items known key item = .ok after) : ClearCaptions scope after := by
  unfold observablesOfItem at ran
  obtain ⟨caption, named, ran⟩ := bind_eq_ok.mp ran
  extract_lets title specific rest at ran
  have specific_clear (known : List Observable) (clear : ClearCaptions scope known) (part : Text)
      (id : Value) (context : Text) (after : List Observable)
      (ran : specific known part id context = .ok after) : ClearCaptions scope after :=
    addObservable_clear clear (clear_of_not_object rfl) ran
  have rest_clear (start : List Observable) (clear : ClearCaptions scope start)
      (ran : rest start = .ok after) : ClearCaptions scope after := by
    obtain ⟨fields, _, ran⟩ := bind_eq_ok.mp ran
    obtain ⟨attributes, _, ran⟩ := bind_eq_ok.mp ran
    obtain ⟨middle, inside, ran⟩ := bind_eq_ok.mp ran
    obtain ⟨paths, _, ran⟩ := bind_eq_ok.mp ran
    have clearMiddle : ClearCaptions scope middle := by
      refine foldlM_invariant inside clear ?_
      intro state entry next _ held step
      split at step
      · split at step
        · exact specific_clear state held _ _ _ next step
        · exact Except.ok.inj step ▸ held
      · exact Except.ok.inj step ▸ held
    exact foldlM_invariant ran clearMiddle fun state entry next _ held step =>
      specific_clear state held _ _ _ next step
  split at ran
  · obtain ⟨marked, _, ran⟩ := bind_eq_ok.mp ran
    split at ran
    · obtain ⟨id, _, ran⟩ := bind_eq_ok.mp ran
      obtain ⟨fields, _, ran⟩ := bind_eq_ok.mp ran
      obtain ⟨start, added, ran⟩ := bind_eq_ok.mp ran
      exact rest_clear start (addObservable_clear clear (captionFrom_clear itemsClear named) added) ran
    · obtain ⟨start, same, ran⟩ := bind_eq_ok.mp ran
      exact rest_clear start (pure_eq_ok.mp same ▸ clear) ran
  · obtain ⟨start, same, ran⟩ := bind_eq_ok.mp ran
    exact rest_clear start (pure_eq_ok.mp same ▸ clear) ran

theorem observablesOfItems_clear {kind : ItemKind} {known after : List Observable}
    {mark : Option Nat} (clear : ClearCaptions scope known)
    (itemsClear : ∀ entry ∈ items, Clear scope entry.2)
    (ran : observablesOfItems kind known (.object mark items) = .ok after) :
    ClearCaptions scope after := by
  unfold observablesOfItems at ran
  obtain ⟨own, opened, ran⟩ := bind_eq_ok.mp ran
  rw [← Except.ok.inj opened] at ran
  exact foldlM_invariant ran clear fun state entry next _ held step =>
    observablesOfItem_clear held itemsClear step

theorem marked_enumerate {t : Nat → Prop} {observables : List Observable} {enumeration after : Value}
    (marked : Marked t enumeration) (ran : enumerate observables enumeration = .ok after) : Marked t after := by
  unfold enumerate at ran
  refine foldlM_invariant (motive := Marked t) ran marked fun state o next _ held step => ?_
  obtain ⟨known, _, step⟩ := bind_eq_ok.mp step
  split at step
  · cases step
  · cases state with
    | object mark fields =>
        cases step
        obtain ⟨own, inside⟩ := marked_object.mp held
        have entry : MarkedFields t [("caption", o.caption.unshared), ("description", .text o.description)] :=
          markedFields_cons.mpr ⟨(plain_unshared o.caption).marked,
            markedFields_cons.mpr ⟨marked_of_leaf rfl, markedFields_nil⟩⟩
        exact marked_object.mpr ⟨own, inside.put (marked_record.mpr entry) _⟩
    | null | bool _ | int _ | float _ | text _ | array _ => cases step

theorem enumerate_clear {observables : List Observable} (clear : ClearCaptions scope observables)
    {enumeration after : Value} (before : Clear scope enumeration)
    (ran : enumerate observables enumeration = .ok after) : Clear scope after := by
  unfold enumerate at ran
  refine foldlM_invariant ran before ?_
  intro state o next member held step
  obtain ⟨known, _, step⟩ := bind_eq_ok.mp step
  have written (step : state.withField o.id (.record [("caption", o.caption.unshared),
      ("description", .text o.description)]) = .ok next) : Clear scope next := by
    cases state with
    | object mark fields =>
        rw [← Except.ok.inj step]
        refine clear_object.mpr ((clear_object.mp held).put_record _ ?_)
        refine clearFields_cons.mpr ⟨clearField_of_key (by decide) _, (Clear.unshared _ (clear o member)).1, ?_⟩
        exact clearFields_cons.mpr
          ⟨clearField_of_key (by decide) _, clear_of_not_object rfl, clearFields_nil⟩
    | null | bool _ | int _ | float _ | text _ | array _ => cases step
  split at step
  · cases step
  · exact written step

end EventSchema.Draft
