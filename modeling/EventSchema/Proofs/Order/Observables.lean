import EventSchema.Proofs.Draft.Declared
import EventSchema.Proofs.Order.Mirror
import EventSchema.Proofs.Scope
import EventSchema.Proofs.Value.Alike
import EventSchema.Proofs.Value.Plain

/-!
Observables collected in another order.

What an item declares depends on what is found under the keys on its line, and not on what was declared
before. So items in another order declare the same observables, in another order, and an identifier that is
given twice stops both. The enumeration of observables then says the same under each key.
-/

set_option autoImplicit false

namespace EventSchema.Draft

open Value

variable {α : Type}

/-! ### Captions -/

/-- The caption of an item depends on what is found under the keys on its line. -/
theorem captionFrom_of_get? {items others : Fields} (same : ∀ key, Entries.get? key others = Entries.get? key items)
    (origin : Text) (seen : List Text) (key : Text) :
    captionFrom others origin seen key = captionFrom items origin seen key := by
  have has (key : Text) : Entries.has key others = Entries.has key items := by rw [Entries.has, Entries.has, same]
  have present (key : Text) : key ∈ Entries.keys others ↔ key ∈ Entries.keys items := by
    rw [← Entries.has_iff_mem_keys, has, Entries.has_iff_mem_keys]
  have itself (key : Text) : Entries.orNull key others = Entries.orNull key items := Entries.orNull_congr (same key)
  induction seen, key using captionFrom.induct items with
  | case1 seen key ended => rw [captionFrom, captionFrom, dif_pos ended, dif_pos ended]
  | case2 seen key further found ih =>
      rw [captionFrom, captionFrom, dif_neg further, dif_neg further, dif_pos ((present key).mpr found), dif_pos found]
      dsimp only
      rw [itself]
      simp only [Scope.find?_of_has has, ih]
  | case3 seen key further absent =>
      rw [captionFrom, captionFrom, dif_neg further, dif_neg further,
        dif_neg fun found => absent ((present key).mp found), dif_neg absent]

private theorem written_captionFrom {items : Fields}
    (written : ∀ key item caption, Entries.get? key items = some item →
      Entries.get? "caption" item.inner = some caption → Written caption)
    {origin : Text} {seen : List Text} {key : Text} {caption : Value}
    (ran : captionFrom items origin seen key = .ok caption) : Written caption := by
  induction seen, key using captionFrom.induct items with
  | case1 seen key ended =>
      rw [captionFrom, dif_pos ended] at ran
      cases ran
      exact written_of_not_object rfl
  | case2 seen key further found ih =>
      rw [captionFrom, dif_neg further, dif_pos found] at ran
      obtain ⟨item, held⟩ := Option.isSome_iff_exists.mp (Entries.has_iff_mem_keys.mpr found)
      have itself : Entries.orNull key items = item := by rw [Entries.orNull, Entries.getOr, held, Option.getD_some]
      dsimp only at ran
      rw [itself] at ran
      obtain ⟨captioned, _, ran⟩ := bind_eq_ok.mp ran
      split at ran
      · cases item with
        | object mark fields =>
            rw [Value.at_] at ran
            split at ran
            · rename_i own present
              cases ran
              exact written key _ caption held present
            · cases ran
        | null | bool _ | int _ | float _ | text _ | array _ => cases ran
      · obtain ⟨fields, _, ran⟩ := bind_eq_ok.mp ran
        obtain ⟨parent, _, ran⟩ := bind_eq_ok.mp ran
        split at ran
        · exact ih _ ran
        · cases ran
          exact written_of_not_object rfl
  | case3 seen key further absent =>
      rw [captionFrom, dif_neg further, dif_neg absent] at ran
      cases ran

/-! ### Collecting -/

/-- One step of collecting: it adds the same declarations whatever is known, with captions in
one place, or it never comes to an end. -/
def Gathers (step : List Observable → Except Fault (List Observable)) : Prop :=
  (∃ declared, (∀ o ∈ declared, Written o.caption) ∧ ∀ known, Collects (step known) known declared) ∨
    ∀ known after, step known ≠ .ok after

namespace Gathers

theorem none : Gathers fun known => .ok known :=
  .inl ⟨[], List.forall_mem_nil _, .none⟩

theorem never {step : List Observable → Except Fault (List Observable)} (fault : Fault)
    (stops : ∀ known, step known = .error fault) : Gathers step := by
  refine .inr fun known after ran => ?_
  rw [stops] at ran
  cases ran

theorem bind {computation : Except Fault α} {next : α → List Observable → Except Fault (List Observable)}
    (each : ∀ value, computation = .ok value → Gathers (next value)) :
    Gathers fun known => computation >>= fun value => next value known := by
  cases computation with
  | error fault => exact never fault fun _ => rfl
  | ok value => exact each value rfl

private theorem andThen {step later : List Observable → Except Fault (List Observable)} (first : Gathers step)
    (second : Gathers later) : Gathers fun known => step known >>= later := by
  rcases first with ⟨declared, written, collects⟩ | stops
  · rcases second with ⟨others, written', collects'⟩ | stops
    · exact .inl ⟨declared ++ others, List.forall_mem_append.mpr ⟨written, written'⟩, fun known =>
        (collects known).bind (collects' _)⟩
    · refine .inr fun known after ran => ?_
      obtain ⟨middle, _, ran⟩ := bind_eq_ok.mp ran
      exact stops middle after ran
  · refine .inr fun known after ran => ?_
    obtain ⟨middle, begun, _⟩ := bind_eq_ok.mp ran
    exact stops known middle begun

theorem foldlM {step : List Observable → α → Except Fault (List Observable)} {items : List α}
    (each : ∀ item ∈ items, Gathers fun known => step known item) : Gathers fun known => items.foldlM step known := by
  induction items with
  | nil => exact none
  | cons head rest ih =>
      obtain ⟨first, others⟩ := List.forall_mem_cons.mp each
      simp only [List.foldlM_cons]
      exact first.andThen (ih others)

/-- What came of a step, where no identifier was known twice. -/
theorem ran {step : List Observable → Except Fault (List Observable)} (gathers : Gathers step)
    {known after : List Observable} (distinct : (Observable.ids known).Nodup) (ran : step known = .ok after) :
    ∃ declared, after = known ++ declared ∧ (Observable.ids after).Nodup ∧ (∀ o ∈ declared, Written o.caption) ∧
      ∀ known, Collects (step known) known declared := by
  rcases gathers with ⟨declared, written, collects⟩ | stops
  · refine ⟨declared, ?_⟩
    by_cases apart : (Observable.ids (known ++ declared)).Nodup
    · cases ran.symm.trans ((collects known).added apart)
      exact ⟨rfl, apart, written, collects⟩
    · obtain ⟨fault, stopped⟩ := (collects known).collides distinct apart
      cases ran.symm.trans stopped
  · exact absurd ran (stops known after)

/-- Items in another order, after the same declarations in another order, declare the same. -/
theorem foldlM_perm {step : List Observable → α → Except Fault (List Observable)} {items others : List α}
    (each : ∀ item ∈ items, Gathers fun known => step known item) (perm : items.Perm others)
    {known known' after : List Observable} (reordered : known.Perm known') (distinct : (Observable.ids known).Nodup)
    (ran : items.foldlM step known = .ok after) :
    ∃ after', others.foldlM step known' = .ok after' ∧ after.Perm after' ∧ (Observable.ids after).Nodup := by
  induction perm generalizing known known' after with
  | nil =>
      cases ran
      exact ⟨known', rfl, reordered, distinct⟩
  | cons item _ ih =>
      obtain ⟨first, rest⟩ := List.forall_mem_cons.mp each
      rw [List.foldlM_cons] at ran ⊢
      obtain ⟨middle, begun, ran⟩ := bind_eq_ok.mp ran
      obtain ⟨declared, rfl, apart, _, collects⟩ := first.ran distinct begun
      have permuted := reordered.append_right declared
      rw [(collects known').added ((permuted.map Observable.id).nodup_iff.mp apart), ok_bind]
      exact ih rest permuted apart ran
  | swap first second rest =>
      obtain ⟨ofSecond, each⟩ := List.forall_mem_cons.mp each
      obtain ⟨ofFirst, each⟩ := List.forall_mem_cons.mp each
      rw [List.foldlM_cons] at ran
      obtain ⟨middle, begun, ran⟩ := bind_eq_ok.mp ran
      obtain ⟨declared, rfl, apart, _, collects⟩ := ofSecond.ran distinct begun
      rw [List.foldlM_cons] at ran
      obtain ⟨last, next, ran⟩ := bind_eq_ok.mp ran
      obtain ⟨others, rfl, apart', _, collects'⟩ := ofFirst.ran apart next
      have permuted : (known ++ declared ++ others).Perm (known' ++ others ++ declared) := by
        rw [List.append_assoc, List.append_assoc]
        exact reordered.append List.perm_append_comm
      have distinct' := (permuted.map Observable.id).nodup_iff.mp apart'
      rw [List.foldlM_cons, (collects' known').added (Collects.distinct_left distinct'), ok_bind, List.foldlM_cons,
        (collects _).added distinct', ok_bind]
      obtain ⟨declared', same, apart'', _, collects''⟩ := (foldlM each).ran apart' ran
      subst same
      have whole := permuted.append_right declared'
      exact ⟨_, (collects'' _).added ((whole.map Observable.id).nodup_iff.mp apart''), whole, apart''⟩
  | trans perm _ first second =>
      obtain ⟨middle, begun, permuted, apart⟩ := first each reordered distinct ran
      obtain ⟨after', ended, permuted', _⟩ := second (fun item member => each item (perm.mem_iff.mpr member)) .rfl
        ((reordered.map Observable.id).nodup_iff.mp distinct) begun
      exact ⟨after', ended, permuted.trans permuted', apart⟩

end Gathers

private theorem gathers_addObservable (id : Value) {caption : Value} (written : Written caption) (description : Value)
    (kind context : Text) : Gathers fun known => addObservable known id caption description kind context :=
  .inl ⟨[.of id caption description kind], List.forall_mem_singleton.mpr written, fun known =>
    collects_addObservable known id caption description kind context⟩

theorem gathers_observablesOfDictionary (kind : Text) {entries : Fields}
    (written : ∀ entry ∈ entries, ∀ caption, Entries.get? "caption" entry.2.inner = some caption → Written caption) :
    Gathers fun known => observablesOfDictionary kind known entries := by
  refine .foldlM fun entry member => ?_
  refine .bind fun marked _ => ?_
  split
  · refine .bind fun fields opened => ?_
    obtain ⟨mark, same⟩ := inner_of_asFields opened
    refine gathers_addObservable _ ?_ _ _ _
    rw [Entries.getOr]
    cases found : Entries.get? "caption" fields with
    | none => exact written_of_not_object rfl
    | some caption => exact written entry member caption (by rw [same]; exact found)
  · exact .none

private theorem gathers_observablesOfItem (kind : ItemKind) {items : Fields} {key : Text} (item : Value)
    (written : ∀ caption, captionOf items key = .ok caption → Written caption) :
    Gathers fun known => observablesOfItem kind items known key item := by
  unfold observablesOfItem
  refine .bind fun caption told => ?_
  have part (name : Text) (id : Value) (context : Text) : Gathers fun known =>
      addObservable known id (.text (caption.shown ++ " " ++ kind.title ++ ": " ++ name))
        (.text (kind.title ++ "-specific attribute " ++ name.enclosed ++ " for the " ++ caption.shown ++ " "
          ++ kind.title ++ "."))
        (kind.title ++ "-Specific Attribute")
        (kind.title ++ " " ++ key.enclosed ++ context ++ name.enclosed) :=
    gathers_addObservable id (written_of_not_object rfl) _ _ _
  extract_lets title specific collect
  have collected : Gathers collect := by
    unfold collect
    refine .bind fun fields _ => .bind fun attributes _ => ?_
    refine Gathers.andThen (.foldlM fun entry _ => ?_) (.bind fun paths _ => .foldlM fun entry _ => ?_)
    · cases entry.2 with
      | object mark field =>
          dsimp only
          cases Entries.get? "observable" field with
          | some id => exact part entry.1 id " attribute "
          | none => exact .none
      | null | bool _ | int _ | float _ | text _ | array _ => exact .none
    · exact part entry.1 entry.2 " observables path "
  by_cases own : kind = .object
  · simp only [if_pos own]
    refine .bind fun marked _ => ?_
    split
    · refine .bind fun id _ => .bind fun fields _ => ?_
      exact (gathers_addObservable id (written caption told) _ _ _).andThen collected
    · exact collected
  · simp only [if_neg own]
    exact collected

def WrittenCaptions (entries : Fields) : Prop :=
  ∀ key value caption, Entries.get? key entries = some value →
    Entries.get? "caption" value.inner = some caption → Written caption

theorem gathers_observablesOfItems (kind : ItemKind) {items : Value} (written : WrittenCaptions items.inner) :
    Gathers fun known => observablesOfItems kind known items := by
  refine .bind fun fields opened => .foldlM fun entry _ => gathers_observablesOfItem kind _ fun caption told => ?_
  obtain ⟨mark, rfl⟩ := inner_of_asFields opened
  exact written_captionFrom written told

theorem observablesOfItems_perm (kind : ItemKind) {items others : Value} (reordered : Reordered items others)
    (keyed : Keyed items) (written : WrittenCaptions items.inner) {known known' after : List Observable}
    (perm : known.Perm known') (distinct : (Observable.ids known).Nodup)
    (ran : observablesOfItems kind known items = .ok after) :
    ∃ after', observablesOfItems kind known' others = .ok after' ∧ after.Perm after' ∧
      (Observable.ids after).Nodup := by
  unfold observablesOfItems at ran
  obtain ⟨fields, opened, ran⟩ := bind_eq_ok.mp ran
  obtain ⟨mark, rfl⟩ := inner_of_asFields opened
  obtain ⟨fields', opened', permuted⟩ := reordered.asFields opened
  have called : captionOf fields' = captionOf fields := funext fun key =>
    captionFrom_of_get? (Entries.get?_of_perm (keyed_object.mp keyed).distinct permuted.symm) key [] key
  have step : (fun known (entry : Text × Value) => observablesOfItem kind fields' known entry.1 entry.2) =
      fun known entry => observablesOfItem kind fields known entry.1 entry.2 := by
    unfold observablesOfItem
    rw [called]
  obtain ⟨after', ended, reordered, apart⟩ := Gathers.foldlM_perm
    (fun entry _ => gathers_observablesOfItem kind entry.2 fun caption told => written_captionFrom written told)
    permuted perm distinct ran
  refine ⟨after', ?_, reordered, apart⟩
  unfold observablesOfItems
  rw [opened', ok_bind, step, ended]

/-! ### The enumeration -/

private theorem distinct_withListings (observables : List Observable) {enumeration : Fields}
    (distinct : Entries.Distinct enumeration) : Entries.Distinct (withListings observables enumeration) := by
  unfold withListings
  induction observables generalizing enumeration with
  | nil => exact distinct
  | cons o rest ih => exact ih (distinct.put o.id (listing o))

/-- New observables come last, in their order. -/
theorem withListings_eq_append {observables : List Observable} {enumeration : Fields}
    (distinct : (Observable.ids observables).Nodup)
    (fresh : ∀ o ∈ observables, Entries.has o.id enumeration = false) :
    withListings observables enumeration = enumeration ++ observables.map fun o => (o.id, listing o) := by
  induction observables generalizing enumeration with
  | nil => exact (List.append_nil _).symm
  | cons o rest ih =>
      obtain ⟨apart, others⟩ := List.nodup_cons.mp distinct
      obtain ⟨first, later⟩ := List.forall_mem_cons.mp fresh
      have absent : o.id ∉ Entries.keys enumeration := fun present => by
        rw [Entries.has_iff_mem_keys.mpr present] at first
        cases first
      have written := Entries.put_append_of_absent absent (listing o) []
      rw [List.append_nil] at written
      have put : withListings (o :: rest) enumeration = withListings rest (Entries.put o.id (listing o) enumeration) :=
        rfl
      rw [put, ih others fun other member => ?_, written, List.append_assoc]
      · rfl
      · have different : o.id ≠ other.id := fun same => apart (same ▸ List.mem_map_of_mem member)
        rw [Entries.has, Entries.get?_put_of_ne different]
        exact later other member

private theorem enumerate_inv {observables : List Observable} {mark : Option Nat} {enumeration : Fields}
    {listed : Value}
    (ran : enumerate observables (.object mark enumeration) = .ok listed) :
    (Observable.ids observables).Nodup ∧ ∀ o ∈ observables, Entries.has o.id enumeration = false := by
  induction observables generalizing enumeration with
  | nil => exact ⟨List.nodup_nil, List.forall_mem_nil _⟩
  | cons o rest ih =>
      rw [enumerate_cons] at ran
      split at ran
      · cases ran
      · rename_i unknown
        obtain ⟨distinct, fresh⟩ := ih ran
        have apart (other : Observable) (member : other ∈ rest) : o.id ≠ other.id := by
          intro same
          have absent := fresh other member
          rw [← same, Entries.has, Entries.get?_put_self] at absent
          cases absent
        refine ⟨List.nodup_cons.mpr ⟨?_, distinct⟩, List.forall_mem_cons.mpr ⟨Bool.not_eq_true _ ▸ unknown, ?_⟩⟩
        · intro present
          obtain ⟨other, member, same⟩ := List.mem_map.mp present
          exact apart other member same.symm
        · intro other member
          have absent := fresh other member
          rwa [Entries.has, Entries.get?_put_of_ne (apart other member)] at absent

private theorem object_of_enumerate {o : Observable} {rest : List Observable} {enumeration listed : Value}
    (ran : enumerate (o :: rest) enumeration = .ok listed) : enumeration.isObject = true := by
  unfold enumerate at ran
  rw [List.foldlM_cons] at ran
  obtain ⟨_, first, _⟩ := bind_eq_ok.mp ran
  obtain ⟨held, _, first⟩ := bind_eq_ok.mp first
  cases enumeration with
  | object mark fields => rfl
  | null | bool _ | int _ | float _ | text _ | array _ => split at first <;> cases first

private theorem occurrencesFields_append (fields others : Fields) :
    occurrencesFields (fields ++ others) = occurrencesFields fields ++ occurrencesFields others := by
  induction fields with
  | nil => rw [occurrencesFields, List.nil_append, List.nil_append]
  | cons head rest ih => rw [List.cons_append, occurrencesFields, occurrencesFields, ih, List.append_assoc]

/-- Observables in another order are listed alike, and what is shared with other places is alike. -/
theorem enumerate_perm {observables others : List Observable} (perm : observables.Perm others)
    (captions : ∀ o ∈ observables, Keyed o.caption) {enumeration : Value} (keyed : Keyed enumeration) :
    Matched (fun listed listed' => Alike listed listed' ∧ AlikeOccurrences (occurrences listed) (occurrences listed') ∧
        Keyed listed ∧ Keyed listed')
      (enumerate observables enumeration) (enumerate others enumeration) := by
  intro listed ran
  cases observables with
  | nil =>
      rw [List.nil_perm.mp perm]
      have same : enumeration = listed := pure_eq_ok.mp ran
      subst same
      exact ⟨enumeration, ran, .same enumeration, .refl _, keyed, keyed⟩
  | cons o rest =>
      cases enumeration with
      | object mark base =>
          obtain ⟨distinct, fresh⟩ := enumerate_inv ran
          have distinct' := (perm.map Observable.id).nodup_iff.mp distinct
          have fresh' : ∀ other ∈ others, Entries.has other.id base = false :=
            fun other member => fresh other (perm.mem_iff.mpr member)
          cases ran.symm.trans (enumerate_ok mark distinct fresh)
          refine ⟨_, enumerate_ok mark distinct' fresh', ?_⟩
          rw [withListings_eq_append distinct fresh, withListings_eq_append distinct' fresh']
          have listings := perm.map fun o => (o.id, listing o)
          have inside := keyed_object.mp keyed
          have whole : Keyed (.record (base ++ (o :: rest).map fun o => (o.id, listing o))) := by
            refine keyed_record.mpr ⟨?_, List.forall_mem_append.mpr ⟨fun _ => inside.of_mem, fun entry member => ?_⟩⟩
            swap
            · obtain ⟨o, among, rfl⟩ := List.mem_map.mp member
              exact keyed_listing (captions o among)
            rw [← withListings_eq_append distinct fresh]
            exact distinct_withListings _ inside.distinct
          have reordered := listings.append_left base
          have alike := alikeFields_of_perm whole.distinct reordered
          have silent (observables : List Observable) :
              occurrencesFields (observables.map fun o => (o.id, listing o)) = [] := by
            refine occurrencesFields_of_plain _ (plainFields_iff.mpr fun entry member => ?_)
            obtain ⟨o, _, rfl⟩ := List.mem_map.mp member
            exact plain_listing o
          refine ⟨alike_object_iff.mpr ⟨rfl, alike⟩, ?_, keyed_object.mpr whole,
            keyed_object.mpr (whole.perm reordered)⟩
          have same : occurrencesFields (base ++ (o :: rest).map fun o => (o.id, listing o)) =
              occurrencesFields (base ++ others.map fun o => (o.id, listing o)) := by
            rw [occurrencesFields_append, occurrencesFields_append, silent, silent]
          cases mark with
          | none =>
              rw [occurrences, occurrences, same]
              exact .refl _
          | some mark =>
              rw [occurrences, occurrences, same]
              exact .cons ⟨rfl, alike_object_iff.mpr ⟨rfl, alike⟩⟩ (AlikeOccurrences.refl _)
      | null | bool _ | int _ | float _ | text _ | array _ => cases object_of_enumerate ran

end EventSchema.Draft
