import EventSchema.Proofs.Contribution.Dictionary

/-!
Requirements under extension.

An extension that gives an attribute of the base schema another requirement is refused if the new one
binds less. A null says nothing to this guard and is merged all the same, so it takes the requirement
away. The requirement given last is the one that stays, and unless one of them is null it binds at
least as much as that of the base schema.

The dictionaries may share objects here. What has a rank is a text or null, and those are not changed
by keeping objects in step.
-/

set_option autoImplicit false

namespace EventSchema

open Value

/-- Nothing but a text or null has a rank. -/
theorem isObject_of_requirementRank {requirement : Value} {rank : Nat}
    (ranked : requirementRank requirement = .ok rank) : requirement.isObject = false := by
  cases requirement with
  | object mark fields => simp [requirementRank, equals, same, isNull] at ranked
  | null | bool _ | int _ | float _ | text _ | array _ => rfl

namespace Contribution

/-! ### Attributes that are objects of their own -/

structure Separate (attributes : Fields) : Prop where
  distinct : Entries.Distinct attributes
  own : ∀ name mark fields, Entries.get? name attributes = some (.object mark fields) →
    mark = none ∧ Entries.Distinct fields

theorem Separate.tail {entry : Text × Value} {rest : Fields} (separate : Separate (entry :: rest)) :
    Separate rest := by
  have fresh := List.nodup_cons.mp separate.distinct
  refine ⟨fresh.2, fun name mark fields found => separate.own name mark fields ?_⟩
  have different : entry.1 ≠ name := fun same => fresh.1 (same ▸ Entries.mem_keys_of_get? found)
  rw [Entries.get?_cons, if_neg different, found]

theorem Separate.renewed {onValue : Value → Value} {onFields : Fields → Fields}
    (renews : Renews onValue onFields) {attributes : Fields} (separate : Separate attributes) :
    Separate (onFields attributes) := by
  refine ⟨renews.distinct separate.distinct, fun name mark fields found => ?_⟩
  rw [renews.found] at found
  obtain ⟨value, known, same⟩ := Option.map_eq_some_iff.mp found
  cases value with
  | object own before =>
      obtain ⟨rfl, distinct⟩ := separate.own name own before known
      rw [← record, renews.record] at same
      cases same
      exact ⟨rfl, renews.distinct distinct⟩
  | null | bool _ | int _ | float _ | text _ | array _ =>
      rw [renews.leaf _ rfl] at same
      cases same

private theorem separate_of_written {attributes : Fields} (written : Written (.record attributes)) :
    Separate attributes := by
  refine ⟨written.distinct, fun name mark fields found => ?_⟩
  obtain ⟨unmarked, inside⟩ := written_object.mp (written.of_get? found)
  exact ⟨unmarked, inside.distinct⟩

/-- Stamping the attributes of an extension keeps them apart. -/
theorem separate_stamped {c stamped : Contribution} (ran : c.stamped = .ok stamped)
    (separate : Separate (Entries.attributes c.dictionary)) :
    Separate (Entries.attributes stamped.dictionary) := by
  obtain ⟨attributes, stampedAttributes, shape⟩ := stampedAttributes_ok ran
  have related := stampSection_related stampedAttributes
  rw [← Entries.attributes_eq_inner] at related
  rw [shape]
  refine ⟨related.distinct separate.distinct, fun name mark fields found => ?_⟩
  obtain ⟨value, known, stampedValue⟩ := related.get?_right found
  obtain ⟨own, before, rfl, same⟩ := stamp_ok stampedValue
  cases same
  obtain ⟨unmarked, distinct⟩ := separate.own name mark before known
  exact ⟨unmarked, (distinct.put _ _).put _ _⟩

/-! ### One attribute -/

def requirementGiven (name : Text) (attributes : Fields) : Option Value :=
  Entries.get? "requirement" (Entries.orNull name attributes).inner

/-- An attribute that says something, on its own, with this requirement. -/
def Requires (requirement : Value) (found : Option Value) : Prop :=
  ∃ fields, found = some (.record fields) ∧ fields ≠ [] ∧
    Entries.orNull "requirement" fields = requirement

private theorem requirementGiven_of_get? {name : Text} {attributes : Fields} {value : Value}
    (found : Entries.get? name attributes = some value) :
    requirementGiven name attributes = Entries.get? "requirement" value.inner := by
  rw [requirementGiven, Entries.orNull, Entries.getOr, found, Option.getD_some]

private theorem requirementGiven_of_absent {name : Text} {attributes : Fields}
    (absent : Entries.get? name attributes = none) : requirementGiven name attributes = none := by
  rw [requirementGiven, Entries.orNull, Entries.getOr, absent, Option.getD_none]
  rfl

private theorem requirementGiven_renewed {onValue : Value → Value} {onFields : Fields → Fields}
    (renews : Renews onValue onFields) {attributes : Fields} (separate : Separate attributes)
    (name : Text) : requirementGiven name (onFields attributes) =
      (requirementGiven name attributes).map onValue := by
  cases found : Entries.get? name attributes with
  | none =>
      rw [requirementGiven_of_absent found, requirementGiven_of_absent (by rw [renews.found, found]; rfl)]
      rfl
  | some value =>
      rw [requirementGiven_of_get? found,
        requirementGiven_of_get? (by rw [renews.found, found, Option.map_some])]
      cases value with
      | object mark fields =>
          rw [(separate.own name mark fields found).1, ← record, renews.record, inner_record,
            inner_record, renews.found]
      | null | bool _ | int _ | float _ | text _ | array _ =>
          rw [renews.leaf _ rfl]
          rfl

theorem Requires.renewed {onValue : Value → Value} {onFields : Fields → Fields}
    (renews : Renews onValue onFields) {requirement : Value} (simple : requirement.isObject = false)
    {found : Option Value} (requires : Requires requirement found) :
    Requires requirement (found.map onValue) := by
  obtain ⟨fields, rfl, filled, same⟩ := requires
  refine ⟨onFields fields, ?_, fun empty => filled ?_, ?_⟩
  · rw [Option.map_some, renews.record]
  · have keys := renews.keys fields
    rw [empty] at keys
    exact List.map_eq_nil_iff.mp keys.symm
  · unfold Entries.orNull Entries.getOr at same ⊢
    rw [renews.found]
    cases present : Entries.get? "requirement" fields with
    | none =>
        rw [present] at same
        exact same
    | some value =>
        rw [present, Option.getD_some] at same
        rw [Option.map_some, Option.getD_some, same, renews.leaf _ simple]

/-- What one extension makes of a requirement: it gives none, or a null, or one that binds at least as
much. -/
structure Binds (requirement : Value) (rank : Nat) (offered : Option Value) (after : Value)
    (later : Nat) : Prop where
  ranked : requirementRank after = .ok later
  last : after = offered.getD requirement
  raised : rank ≤ later ∨ offered = some .null

theorem Binds.silent {requirement : Value} {rank : Nat} (ranked : requirementRank requirement = .ok rank) :
    Binds requirement rank none requirement rank := ⟨ranked, rfl, Or.inl le_rfl⟩

/-- What an extension gives before its objects are kept in step is what is merged. -/
theorem Binds.of_renewed {onValue : Value → Value} {onFields : Fields → Fields}
    (renews : Renews onValue onFields) {requirement after : Value} {rank later : Nat}
    {offered : Option Value} (binds : Binds requirement rank (offered.map onValue) after later) :
    Binds requirement rank offered after later := by
  cases offered with
  | none => exact binds
  | some given =>
      obtain ⟨ranked, last, raised⟩ := binds
      have kept : given = after :=
        renews.eq_leaf (isObject_of_requirementRank ranked) last.symm
      refine ⟨ranked, kept.symm, raised.imp id fun cleared => ?_⟩
      rw [Option.map_some, Option.some.injEq, kept] at cleared
      rw [kept, ← cleared, renews.leaf _ (isObject_of_requirementRank ranked)]

private theorem orNull_requirement_merged {old fields : Fields} (distinct : Entries.Distinct fields)
    (simple : (Entries.orNull "requirement" old).isObject = false) :
    Entries.orNull "requirement" (mergeFields old (unowned fields)) =
      (Entries.get? "requirement" fields).getD (Entries.orNull "requirement" old) := by
  have apart : ¬((("requirement" : String) : Text) = "extension_id" ∨
      (("requirement" : String) : Text) = extensionKey) := by decide
  have whole : Entries.Distinct (unowned fields) := (distinct.erase _).erase _
  unfold Entries.orNull Entries.getOr at simple ⊢
  rw [get?_mergeFields _ old whole, get?_unowned, if_neg apart]
  cases given : Entries.get? "requirement" fields with
  | none => rfl
  | some value =>
      cases before : Entries.get? "requirement" old with
      | none => rfl
      | some known =>
          rw [before, Option.getD_some] at simple
          exact merge_apart (Or.inl simple)

/-- A refinement that is let through gives a requirement that binds at least as much, or null, or none. -/
theorem exists_binds_of_refinable {context : Text} {fields old : Fields} {mark : Option Nat} {rank : Nat}
    (distinct : Entries.Distinct fields)
    (ranked : requirementRank (Entries.orNull "requirement" old) = .ok rank)
    (safe : refinable context fields (.object mark old) = .ok ()) :
    ∃ later, Binds (Entries.orNull "requirement" old) rank (Entries.get? "requirement" fields)
      (Entries.orNull "requirement" (mergeFields old (unowned fields))) later := by
  obtain ⟨_, _, same, _, _, _, guard⟩ := refinable_guards safe
  cases same
  rw [orNull_requirement_merged distinct (isObject_of_requirementRank ranked)]
  cases given : Entries.get? "requirement" fields with
  | none => exact ⟨rank, .silent ranked⟩
  | some value =>
      have offered : Entries.orNull "requirement" fields = value := by
        rw [Entries.orNull, Entries.getOr, given, Option.getD_some]
      rw [offered] at guard
      rcases guard with nothing | ⟨later, before, known, knownBefore, above⟩
      · have cleared : value = .null := by
          cases value with
          | null => rfl
          | bool _ | int _ | float _ | text _ | array _ | object _ _ => cases nothing
        subst cleared
        exact ⟨0, rfl, rfl, Or.inr rfl⟩
      · rw [ranked, Except.ok.injEq] at knownBefore
        exact ⟨later, known, rfl, Or.inl (knownBefore ▸ above)⟩

/-! ### One extension -/

/-- An attribute that refines another leaves it with the requirement that it gives, if any. -/
theorem contributed_binds {extension : Extension} {name : Text} {new given : Value} {later : Fields}
    {requirement : Value} {rank : Nat} {attributes : Fields}
    (ranked : requirementRank requirement = .ok rank)
    (requires : Requires requirement (Entries.get? name attributes))
    (separate : Separate ((name, new) :: later))
    (ran : (contributed extension name new (Entries.orNull name attributes)).Yields given) :
    ∃ after next,
      Requires after (some (match Entries.get? name attributes with
        | some old => merge old given
        | none => given)) ∧
      Binds requirement rank (requirementGiven name ((name, new) :: later)) after next := by
  obtain ⟨old, found, filled, rfl⟩ := requires
  rw [Entries.orNull, Entries.getOr, found, Option.getD_some] at ran
  have here : Entries.get? name ((name, new) :: later) = some new := by
    rw [Entries.get?_cons, if_pos rfl]
  rcases contributed_ok ran with ⟨bare, _⟩ | ⟨_, context, mark, fields, rfl, safe, rfl⟩
  · cases old with
    | nil => exact absurd rfl filled
    | cons => cases bare
  · obtain ⟨next, binds⟩ := exists_binds_of_refinable (separate.own name mark fields here).2 ranked safe
    rw [requirementGiven_of_get? here, found]
    refine ⟨_, next, ⟨mergeFields old (unowned fields),
      congrArg some (merge_object _ _ _ _), fun empty => ?_, rfl⟩, binds⟩
    obtain ⟨entry, rest, nonempty⟩ := List.exists_cons_of_ne_nil filled
    have lost : Entries.get? entry.1 (mergeFields old (unowned fields)) = none := by rw [empty]; rfl
    have gone := (get?_mergeFields_eq_none.mp lost).1
    rw [nonempty, Entries.get?_cons, if_pos rfl] at gone
    cases gone

private theorem mergeAttributes_binds {extension : Extension} {base merged : Value} {new : Fields} {name : Text}
    {requirement : Value} {rank : Nat} (ranked : requirementRank requirement = .ok rank)
    (requires : Requires requirement (Entries.get? name base.inner)) (separate : Separate new)
    (ran : (mergeAttributes extension base new).Yields merged) :
    ∃ after later, Requires after (Entries.get? name merged.inner) ∧
      Binds requirement rank (requirementGiven name new) after later := by
  induction base, new using mergeAttributes.induct generalizing requirement rank with
  | case1 base =>
      rw [mergeAttributes] at ran
      exact ⟨requirement, rank, Act.yields_pure.mp ran ▸ requires, .silent ranked⟩
  | case2 base key value later ih =>
      rw [mergeAttributes] at ran
      obtain ⟨attributes, opened, rest⟩ := Act.yields_bind ran
      obtain ⟨given, contributes, rest⟩ := Act.yields_bind rest
      obtain ⟨mark, rfl⟩ := inner_of_asFields (Act.yields_lift.mp opened)
      obtain ⟨onValue, onFields, renews, coming, written⟩ :=
        overlayOne_renews key given attributes later
      have others := separate.tail.renewed renews
      rw [← coming] at others
      have inside := written name
      by_cases same : name = key
      · subst same
        obtain ⟨after, next, requiresAfter, binds⟩ :=
          contributed_binds ranked requires separate contributes
        rw [if_pos rfl] at inside
        have simple := isObject_of_requirementRank binds.ranked
        obtain ⟨last, rankLast, requiresLast, kept⟩ := ih attributes given binds.ranked
          (inside ▸ requiresAfter.renewed renews simple) others rest
        have fresh := (List.nodup_cons.mp separate.distinct).1
        have silent : requirementGiven name (overlayOne name given attributes later).2 = none := by
          refine requirementGiven_of_absent ?_
          rw [coming, renews.found, Entries.get?_eq_none_iff.mpr fresh, Option.map_none]
        rw [silent] at kept
        have unchanged : last = after := kept.last
        exact ⟨after, next, unchanged ▸ requiresLast, binds⟩
      · rw [if_neg same] at inside
        obtain ⟨last, rankLast, requiresLast, binds⟩ := ih attributes given ranked
          (inside ▸ requires.renewed renews (isObject_of_requirementRank ranked)) others rest
        rw [coming, requirementGiven_renewed renews separate.tail] at binds
        have passed : requirementGiven name ((key, value) :: later) = requirementGiven name later := by
          unfold requirementGiven Entries.orNull Entries.getOr
          rw [Entries.get?_cons, if_neg (Ne.symm same)]
        exact ⟨last, rankLast, requiresLast, passed ▸ binds.of_renewed renews⟩

/-- The requirement that a contribution gives for an attribute, if it gives one. -/
def offers (name : Text) (c : Contribution) : Option Value :=
  requirementGiven name (Entries.attributes c.dictionary)

private theorem extendDictionary_binds {c : Contribution} {dictionary extended : Fields} {name : Text}
    {requirement : Value} {rank : Nat} (ranked : requirementRank requirement = .ok rank)
    (requires : Requires requirement (Entries.get? name (Entries.attributes dictionary)))
    (separate : Separate (Entries.attributes c.dictionary))
    (ran : (c.extendDictionary dictionary).Yields extended) :
    ∃ after later, Requires after (Entries.get? name (Entries.attributes extended)) ∧
      Binds requirement rank (offers name c) after later := by
  obtain ⟨new, attributes, types, _, _, typeAttributes, opened, merged, _, _, _, _, rfl⟩ :=
    extendDictionary_ok ran
  obtain ⟨mark, newIs⟩ := inner_of_asFields opened
  have renews := renews_shift (boundFields dictionary)
  have given : Entries.attributes c.dictionary = new := by
    rw [Entries.attributes_eq_inner, newIs, Value.inner]
  rw [given] at separate
  rw [Entries.attributes_eq_inner] at requires
  obtain ⟨after, later, requiresAfter, binds⟩ :=
    mergeAttributes_binds ranked requires (separate.renewed renews) merged
  rw [requirementGiven_renewed renews separate] at binds
  refine ⟨after, later, ?_, ?_⟩
  · rw [Entries.attributes_put_of_ne (by decide), Entries.attributes_eq_inner, Entries.orEmpty_put_self]
    exact requiresAfter
  · rw [offers, given]
    exact binds.of_renewed renews

/-! ### Any number of extensions -/

def requirementAfter (name : Text) (requirement : Value) (all : List Contribution) : Value :=
  all.foldl (fun current c => (offers name c).getD current) requirement

private theorem requirementAfter_append (name : Text) (requirement : Value) (all : List Contribution)
    (c : Contribution) : requirementAfter name requirement (all ++ [c]) =
      (offers name c).getD (requirementAfter name requirement all) := by
  rw [requirementAfter, List.foldl_append]
  rfl

/-- Along any sequence of merges an attribute requires what was given last. -/
theorem foldlM_requires {base result : Fields} {all : List Contribution} {name : Text}
    {requirement : Value} {rank : Nat} (ranked : requirementRank requirement = .ok rank)
    (requires : Requires requirement (Entries.get? name (Entries.attributes base)))
    (separate : ∀ c ∈ all, Separate (Entries.attributes c.dictionary))
    (ran : (all.foldlM (fun dictionary c => extendDictionary c dictionary) base).Yields result) :
    ∃ later, requirementRank (requirementAfter name requirement all) = .ok later ∧
      Requires (requirementAfter name requirement all)
        (Entries.get? name (Entries.attributes result)) ∧
      (rank ≤ later ∨ ∃ c ∈ all, offers name c = some .null) := by
  refine Act.foldlM_progress (motive := fun done dictionary =>
    (∀ c ∈ done, Separate (Entries.attributes c.dictionary)) → ∃ later,
      requirementRank (requirementAfter name requirement done) = .ok later ∧
        Requires (requirementAfter name requirement done)
          (Entries.get? name (Entries.attributes dictionary)) ∧
        (rank ≤ later ∨ ∃ c ∈ done, offers name c = some .null))
    ran (fun _ => ⟨rank, ranked, requires, Or.inl le_rfl⟩) ?_ separate
  intro done c dictionary next before step separate
  obtain ⟨prior, last⟩ := List.forall_mem_append.mp separate
  obtain ⟨middle, rankedMiddle, requires, raised⟩ := before prior
  obtain ⟨after, later, requiresAfter, binds⟩ := extendDictionary_binds rankedMiddle requires
    (last c (List.mem_singleton_self c)) step
  have same : requirementAfter name requirement (done ++ [c]) = after := by
    rw [requirementAfter_append, binds.last]
  rw [same]
  refine ⟨later, binds.ranked, requiresAfter, ?_⟩
  rcases raised with below | ⟨other, member, cleared⟩
  · rcases binds.raised with above | cleared
    · exact Or.inl (below.trans above)
    · exact Or.inr ⟨c, List.mem_append_right _ (List.mem_singleton_self c), cleared⟩
  · exact Or.inr ⟨other, List.mem_append_left _ member, cleared⟩

/-- The requirement of a base attribute after any sequence of merges is the last one given, and it
binds at least as much as before them unless one of the extensions gives null. An attribute that says
nothing has the least rank of all. -/
theorem extendDictionary_requirement {base result old : Fields} {all : List Contribution}
    {name : Text} {rank : Nat}
    (separate : ∀ c ∈ all, Separate (Entries.attributes c.dictionary))
    (known : Entries.get? name (Entries.attributes base) = some (.record old))
    (ranked : requirementRank (Entries.orNull "requirement" old) = .ok rank)
    (ran : (all.foldlM (fun dictionary c => extendDictionary c dictionary) base).Yields result) :
    (old = [] ∧ rank = 0) ∨
      ∃ new later, Entries.get? name (Entries.attributes result) = some (.record new) ∧
        Entries.orNull "requirement" new =
          requirementAfter name (Entries.orNull "requirement" old) all ∧
        requirementRank (Entries.orNull "requirement" new) = .ok later ∧
        (rank ≤ later ∨ ∃ c ∈ all, offers name c = some .null) := by
  by_cases bare : old = []
  · subst bare
    exact Or.inl ⟨rfl, (Except.ok.inj ranked).symm⟩
  · refine Or.inr ?_
    obtain ⟨later, rankedLater, ⟨new, found, _, same⟩, raised⟩ :=
      foldlM_requires ranked ⟨old, known, bare, rfl⟩ separate ran
    exact ⟨new, later, found, same, same ▸ rankedLater, raised⟩

/-- Two extensions that raise the requirement of an attribute, one after the other. -/
def raising : List Contribution :=
  [ofDictionary "corp" 7 [("severity", .record [("requirement", .text "recommended")])] [],
    ofDictionary "door" 8 [("severity", .record [("requirement", .text "required")])] []]

def withRequirement (requirement : Text) : Fields :=
  [("attributes", .record [("severity", .record [("requirement", .text requirement)])])]

theorem extendDictionary_requirement_raising : ∃ all result new,
    raising.mapM Contribution.stamped = .ok all ∧
      (all.foldlM (fun dictionary c => extendDictionary c dictionary)
        (withRequirement "optional")).Yields result ∧
      Entries.get? "severity" (Entries.attributes result) = some (.record new) ∧
      Entries.orNull "requirement" new = .text "required" := by
  have evaluated : ((mergeAll (withRequirement "optional") raising).outcome {}).1.toOption.map
      (fun _ => ()) = some () := by
    decide +kernel
  obtain ⟨result, yields, _⟩ := Act.exists_of_outcome evaluated
  obtain ⟨all, stamped, ran⟩ := mergeAll_yields yields
  have separate : ∀ c ∈ all, Separate (Entries.attributes c.dictionary) := by
    intro c member
    obtain ⟨origin, known, ran⟩ := exists_left_of_mem (mapM_eq_ok.mp stamped) member
    refine separate_stamped ran (separate_of_written ?_)
    have written : ∀ c ∈ raising, Written (.record (Entries.attributes c.dictionary)) := by decide
    exact written origin known
  have given : requirementAfter "severity" (.text "optional") all = .text "required" := by
    cases stamped
    decide +kernel
  have known : Entries.get? "severity" (Entries.attributes (withRequirement "optional")) =
      some (.record [("requirement", .text "optional")]) := by decide
  have ranked : requirementRank
      (Entries.orNull "requirement" [("requirement", .text "optional")]) = .ok 1 := rfl
  rcases extendDictionary_requirement separate known ranked ran with
    ⟨impossible, _⟩ | ⟨new, _, found, last, _⟩
  · cases impossible
  · exact ⟨all, result, new, stamped, ran, found, last.trans given⟩

/-- An extension whose attribute has null for its requirement. -/
def clearing : List Contribution :=
  [ofDictionary "corp" 7 [("severity", .record [("requirement", .null)])] []]

/-- The requirement is gone: a null passes the guard and is merged. -/
theorem extendDictionary_clears_requirement : ∃ all result,
    clearing.mapM Contribution.stamped = .ok all ∧
      (all.foldlM (fun dictionary c => extendDictionary c dictionary)
        (withRequirement "required")).Yields result ∧
      requirementRank ((requirementGiven "severity"
        (Entries.attributes (withRequirement "required"))).getD .null) = .ok 3 ∧
      requirementRank ((requirementGiven "severity" (Entries.attributes result)).getD .null) = .ok 0 := by
  have evaluated : ((mergeAll (withRequirement "required") clearing).outcome {}).1.toOption.map
      (fun result => (requirementGiven "severity" (Entries.attributes result)).getD .null) =
        some .null := by
    decide +kernel
  obtain ⟨result, yields, shown⟩ := Act.exists_of_outcome evaluated
  obtain ⟨all, stamped, ran⟩ := mergeAll_yields yields
  refine ⟨all, result, stamped, ran, rfl, ?_⟩
  rw [shown]
  rfl

end Contribution

end EventSchema
