import EventSchema.Proofs.Draft.Attributes
import EventSchema.Proofs.Draft.Categories
import EventSchema.Proofs.Draft.Datetime
import EventSchema.Proofs.Draft.Dictionary
import EventSchema.Proofs.Draft.Observables
import EventSchema.Proofs.Draft.Profiles

/-!
The stages of a draft with the items of a scope and without them.

Two drafts are parted if one is the other without the items of a scope and nothing that is left refers
to them. Every stage keeps two such drafts parted: what it does to an item outside the scope it does
in both, and an item of the scope touches no other.
-/

set_option autoImplicit false

namespace EventSchema.Draft

open Value

structure Parted (scope : Text) (full part : Draft) : Prop extends Without scope full part where
  dictionary : ClearAttributes scope part.attributes
  guardedClasses : ∀ entry ∈ part.classes, Guarded scope entry.2
  guardedObjects : ∀ entry ∈ part.objects, Guarded scope entry.2
  guardedProfiles : ∀ profiles, part.profiles.asFields = .ok profiles → ∀ entry ∈ profiles,
    ∀ item, entry.2.asFields = .ok item → Guarded scope item

variable {scope : Text} {full part full' part' : Draft}

theorem Guarded.congr {item other : Fields} (guarded : Guarded scope item)
    (extension : Entries.get? "extension" other = Entries.get? "extension" item)
    (attributes : Entries.attributes other = Entries.attributes item) : Guarded scope other where
  owner given found := guarded.owner given (extension ▸ found)
  attributes := attributes ▸ guarded.attributes

/-! ### Profiles -/

/-- The same objects are reached from an item that refers to none of the scope. -/
theorem reach_outside (proper : Scope.Proper scope) (parted : Parted scope full part)
    (reached : Entries Value) (todo : Fields) (clear : ClearAttributes scope todo) :
    reach part reached todo = reach full reached todo := by
  induction reached, todo using reach.induct part with
  | case1 reached => rw [reach, reach]
  | case2 reached entry rest passed entered =>
      have split := List.forall_mem_cons.mp clear
      have later := passed split.2
      rw [reach, reach, objectTypeOf_outside proper parted.attributes parted.objects split.1]
      cases asked : objectTypeOf full entry with
      | error fault => rfl
      | ok type =>
          rw [← objectTypeOf_outside proper parted.attributes parted.objects split.1] at asked
          have free := nameOutside_of_objectTypeOf proper parted.dictionary split.1 asked
          simp only [ok_bind, later]
          split
          · rfl
          · cases type with
            | text key =>
                have present := Entries.has_outside full.objects (free key rfl)
                have held := Entries.get?_outside full.objects (free key rfl)
                rw [← parted.objects] at present held
                dsimp only
                by_cases seen : Entries.has key reached = true
                · rw [dif_pos seen, dif_pos seen]
                · rw [dif_neg seen, dif_neg seen]
                  by_cases known : Entries.has key part.objects = true
                  · rw [dif_pos known, dif_pos (present ▸ known), ← held]
                    split
                    · rfl
                    · rename_i attributes read
                      obtain ⟨object, found⟩ := Option.isSome_iff_exists.mp known
                      refine entered key seen known attributes read
                        (List.forall_mem_append.mpr ⟨?_, split.2⟩)
                      rw [found, Option.getD_some] at read
                      rw [← attributes_of_ok read]
                      exact (parted.guardedObjects _ (Entries.mem_of_get? found)).attributes
                  · rw [dif_neg known, dif_neg (present ▸ known)]
            | null | bool _ | int _ | float _ | array _ | object _ _ => rfl

private theorem closeProfiles_outside (proper : Scope.Proper scope) (parted : Parted scope full part)
    (kind : ItemKind) (key : Text) {item : Fields} (guarded : Guarded scope item) :
    Act.Agree (closeProfiles part kind key item) (closeProfiles full kind key item) := by
  unfold closeProfiles
  extract_lets start own
  refine (Act.agree_lift rfl).bind fun attributes found _ => ?_
  have clear : ClearAttributes scope attributes :=
    attributes_of_ok (Act.yields_lift.mp found) ▸ guarded.attributes
  refine (Act.agree_lift (reach_outside proper parted start attributes clear)).bind
    fun reached _ _ => (Act.agree_lift rfl).bind fun profiles _ _ => ?_
  extract_lets last
  have lastAgrees (done : PUnit) : Act.Agree (last done) (last done) := by
    unfold last
    split
    · exact Act.agree_pure _
    · exact Act.agree_pure _
  split
  · exact (Act.agree_unit _ _).bind fun done _ _ => lastAgrees done
  · exact lastAgrees ()

private theorem closeProfiles_guarded {draft : Draft} {kind : ItemKind} {key : Text} {item closed : Fields}
    (guarded : Guarded scope item) (ran : (closeProfiles draft kind key item).Yields closed) :
    Guarded scope closed := by
  obtain ⟨_, _, _, _, _, frame⟩ := closeProfiles_ok ran
  exact guarded.congr (frame "extension" (by decide)) (attributes_closeProfiles ran)

def closeObject (draft : Draft) (key : Text) : Act Draft := do
  match Entries.get? key draft.objects with
  | some item =>
    let closed ← closeProfiles draft .object key item
    return { draft with objects := Entries.put key closed draft.objects }
  | none => return draft

private theorem closeObject_ok {draft after : Draft} {key : Text} (ran : (closeObject draft key).Yields after) :
    (Entries.get? key draft.objects = none ∧ after = draft) ∨
      ∃ item closed, Entries.get? key draft.objects = some item ∧
        (closeProfiles draft .object key item).Yields closed ∧
        after = { draft with objects := Entries.put key closed draft.objects } := by
  unfold closeObject at ran
  cases found : Entries.get? key draft.objects with
  | none =>
      rw [found] at ran
      exact Or.inl ⟨rfl, (Act.yields_pure.mp ran).symm⟩
  | some item =>
      rw [found] at ran
      obtain ⟨closed, closing, ran⟩ := Act.yields_bind ran
      exact Or.inr ⟨item, closed, rfl, closing, (Act.yields_pure.mp ran).symm⟩

/-- Closing an object of the scope changes nothing outside it. -/
theorem closeObject_inside {key : Text} (owned : Scope.owns scope key = true)
    (parted : Parted scope full part) (ran : (closeObject full key).Yields full') :
    Parted scope full' part := by
  rcases closeObject_ok ran with ⟨_, rfl⟩ | ⟨item, closed, _, _, rfl⟩
  · exact parted
  · exact { parted with
      objects := parted.objects.trans (Entries.outside_put_of_owned owned closed full.objects).symm }

private theorem closeObject_outside (proper : Scope.Proper scope) {key : Text}
    (free : Scope.owns scope key = false) (parted : Parted scope full part)
    (whole : (closeObject full key).Yields full') (rest : (closeObject part key).Yields part') :
    Parted scope full' part' := by
  have same : Entries.get? key part.objects = Entries.get? key full.objects := by
    rw [parted.objects, Entries.get?_outside full.objects free]
  rcases closeObject_ok whole with ⟨absent, rfl⟩ | ⟨item, closed, found, one, rfl⟩
  · rcases closeObject_ok rest with ⟨_, rfl⟩ | ⟨_, _, found, _⟩
    · exact parted
    · cases absent.symm.trans (same.symm.trans found)
  · rcases closeObject_ok rest with ⟨absent, _⟩ | ⟨other, closed', found', two, rfl⟩
    · cases found.symm.trans (same.symm.trans absent)
    · cases found.symm.trans (same.symm.trans found')
      have guarded := parted.guardedObjects _ (Entries.mem_of_get? found')
      cases closeProfiles_outside proper parted .object key guarded closed' closed two one
      refine { parted with objects := ?_, guardedObjects := ?_ }
      · rw [Entries.outside_put free, parted.objects]
      · intro entry member
        rcases Entries.mem_of_mem_put member with written | before
        · exact written ▸ closeProfiles_guarded guarded two
        · exact parted.guardedObjects entry before

private theorem closeObjects_outside (proper : Scope.Proper scope) (keys : List Text)
    (parted : Parted scope full part) (whole : (keys.foldlM closeObject full).Yields full')
    (rest : ((keys.filter fun key => !Scope.owns scope key).foldlM closeObject part).Yields part') :
    Parted scope full' part' := by
  induction keys generalizing full part with
  | nil =>
      rw [List.foldlM_nil, Act.yields_pure] at whole
      rw [List.filter_nil, List.foldlM_nil, Act.yields_pure] at rest
      exact whole ▸ rest ▸ parted
  | cons key keys ih =>
      rw [List.foldlM_cons] at whole
      obtain ⟨middle, step, whole⟩ := Act.yields_bind whole
      cases owned : Scope.owns scope key with
      | true =>
          rw [List.filter_cons_of_neg (by rw [owned]; decide)] at rest
          exact ih (closeObject_inside owned parted step) whole rest
      | false =>
          rw [List.filter_cons_of_pos (by rw [owned]; decide), List.foldlM_cons] at rest
          obtain ⟨middle', step', rest⟩ := Act.yields_bind rest
          exact ih (closeObject_outside proper owned parted step step') whole rest

theorem closeAllProfiles_outside (proper : Scope.Proper scope) (parted : Parted scope full part)
    (whole : full.closeAllProfiles.Yields full') (rest : part.closeAllProfiles.Yields part') :
    Parted scope full' part' := by
  unfold closeAllProfiles at whole rest
  obtain ⟨middle, closing, whole⟩ := Act.yields_bind whole
  obtain ⟨middle', closing', rest⟩ := Act.yields_bind rest
  rw [parted.objects, Entries.keys_outside] at closing'
  have between := closeObjects_outside proper _ parted closing closing'
  obtain ⟨classes, each, whole⟩ := Act.yields_bind whole
  obtain ⟨classes', each', rest⟩ := Act.yields_bind rest
  have related := Act.yields_mapEntries each
  have related' := Act.yields_mapEntries each'
  have guarded := between.guardedClasses
  rw [between.classes] at related' guarded
  rw [← Act.yields_pure.mp whole, ← Act.yields_pure.mp rest]
  refine { between with classes := related.outside related' ?_, guardedClasses := ?_ }
  · intro entry member free left right one two
    exact (closeProfiles_outside proper between .eventClass entry.1
      (guarded entry (Entries.mem_outside.mpr ⟨member, free⟩)) right left two one).symm
  · intro entry member
    obtain ⟨origin, known, ran⟩ := related'.mem_right member
    exact closeProfiles_guarded (guarded _ known) ran

/-! ### Siblings -/

private theorem addSiblings_outside (parted : Parted scope full part) (item : Fields) :
    part.addSiblings item = full.addSiblings item := by
  have type : part.typeOf = full.typeOf := by
    funext name field
    unfold typeOf
    rw [parted.attributes]
  have sibling : part.siblingOf? = full.siblingOf? := by
    funext attributes entry
    unfold siblingOf?
    rw [type]
  unfold addSiblings
  rw [sibling]

private theorem addSiblings_guarded {draft : Draft} {item result : Fields} (guarded : Guarded scope item)
    (ran : draft.addSiblings item = .ok result) : Guarded scope result := by
  obtain ⟨siblings, found, attributes, _, frame⟩ := addSiblings_ok ran
  refine ⟨fun given known => guarded.owner given ?_, ?_⟩
  · rw [← frame "extension" (by decide) (by decide)]
    exact known
  · rw [attributes]
    intro entry member
    rcases mem_of_mem_withSiblings member with before | added
    · exact guarded.attributes entry before
    · obtain ⟨origin, known, one⟩ := exists_of_filterMapM found added
      unfold siblingOf? at one
      obtain ⟨field, opened, one⟩ := bind_eq_ok.mp one
      obtain ⟨type, _, one⟩ := bind_eq_ok.mp one
      have surface := (guarded.attributes origin known).unshared.asFields opened
      dsimp only at one
      split at one
      · rw [← Option.some.inj (pure_eq_ok.mp one)]
        have bare : ClearSurface scope (Entries.erase "type" field) :=
          fun field member => surface field (List.mem_of_mem_filter member)
        exact clearAttribute_record ((bare.put (clearField_of_key (by decide) _)).put
          (clearField_of_key (by decide) _))
      · cases pure_eq_ok.mp one

theorem addDatetimeSiblings_outside (parted : Parted scope full part)
    (whole : full.addDatetimeSiblings = .ok full') (rest : part.addDatetimeSiblings = .ok part') :
    Parted scope full' part' := by
  have enabled := datetimeEnabled_outside parted.types parted.profiles
  rcases addDatetimeSiblings_ok whole with ⟨off, same⟩ | ⟨on, classes, objects, same, inClasses, inObjects⟩
  · rcases addDatetimeSiblings_ok rest with ⟨_, same'⟩ | ⟨on', _⟩
    · exact same ▸ same' ▸ parted
    · rw [enabled, off] at on'
      cases on'
  · rcases addDatetimeSiblings_ok rest with ⟨off', _⟩ | ⟨_, classes', objects', same', inClasses', inObjects'⟩
    · rw [enabled, on] at off'
      cases off'
    · have agree {item left right : Fields} (one : full.addSiblings item = .ok left)
          (two : part.addSiblings item = .ok right) : left = right := by
        rw [addSiblings_outside parted item, one] at two
        exact Except.ok.inj two
      rw [same, same']
      refine { parted with
        classes := inClasses.outside (parted.classes ▸ inClasses') fun _ _ _ _ _ => agree
        objects := inObjects.outside (parted.objects ▸ inObjects') fun _ _ _ _ _ => agree
        guardedClasses := ?_, guardedObjects := ?_ }
      · intro entry member
        obtain ⟨origin, known, ran⟩ := inClasses'.mem_right member
        exact addSiblings_guarded (parted.guardedClasses _ known) ran
      · intro entry member
        obtain ⟨origin, known, ran⟩ := inObjects'.mem_right member
        exact addSiblings_guarded (parted.guardedObjects _ known) ran

/-! ### Requirements -/

private theorem requireItem_guarded {kind : ItemKind} {key : Text} {item result : Fields}
    {missing : Option Text} (guarded : Guarded scope item)
    (ran : requireItem kind key item = .ok (result, missing)) : Guarded scope result := by
  obtain ⟨filled, frame⟩ := requireItem_ok ran
  refine ⟨fun given known => guarded.owner given ?_, ?_⟩
  · rw [← frame "extension" (by decide)]
    exact known
  · intro entry member
    obtain ⟨origin, known, same⟩ := filled.mem_right member
    have own := guarded.attributes _ known
    rcases same with unchanged | ⟨mark, field, before, after⟩
    · exact unchanged ▸ own
    · rw [after]
      exact clearAttribute_record ((own mark field before).put (clearField_of_key (by decide) _))

theorem requireAll_profiles {draft required : Draft} (ran : draft.requireAll.Yields required) :
    ∃ named profiles, draft.profiles.asFields = .ok named ∧ required.profiles = .record profiles ∧
      Entries.Related (fun key value result => ∃ item filled missing, value.asFields = .ok item ∧
        requireItem .profile key item = .ok (filled, missing) ∧ result = .record filled)
        named profiles := by
  unfold requireAll at ran
  obtain ⟨named, opened, ran⟩ := Act.yields_bind ran
  obtain ⟨done, treated, ran⟩ := Act.yields_bind ran
  obtain ⟨⟨_, _⟩, _, ran⟩ := Act.yields_bind ran
  obtain ⟨⟨_, _⟩, _, ran⟩ := Act.yields_bind ran
  rw [Act.yields_lift] at opened treated
  have related : Entries.Related (fun key value result => ∃ item filled missing,
      value.asFields = .ok item ∧ requireItem .profile key item = .ok (filled, missing) ∧
        result = .record filled) named
      (done.map fun entry => (entry.1.1, Value.record entry.1.2)) := by
    refine List.forall₂_map_right_iff.mpr ((mapM_eq_ok.mp treated).imp ?_)
    intro entry result one
    obtain ⟨item, inside, one⟩ := bind_eq_ok.mp one
    obtain ⟨⟨filled, missing⟩, required, same⟩ := bind_eq_ok.mp one
    rw [← pure_eq_ok.mp same]
    exact ⟨rfl, item, filled, missing, inside, required, rfl⟩
  dsimp only at ran
  split at ran
  · obtain ⟨_, _, ran⟩ := Act.yields_bind ran
    rw [← Act.yields_pure.mp ran]
    exact ⟨named, _, opened, rfl, related⟩
  · rw [← Act.yields_pure.mp ran]
    exact ⟨named, _, opened, rfl, related⟩

/-- What is read of a collection without the items of a scope is what is read of it without them. -/
theorem outside_of_asFields {value other : Value} {fields rest : Fields}
    (without : other = value.outside scope) (opened : value.asFields = .ok fields)
    (left : other.asFields = .ok rest) : rest = Entries.outside scope fields := by
  subst without
  cases value with
  | object mark own =>
      rw [← Except.ok.inj opened]
      exact (Except.ok.inj left).symm
  | null | bool _ | int _ | float _ | text _ | array _ => cases opened

theorem requireAll_outside (parted : Parted scope full part)
    (whole : full.requireAll.Yields full') (rest : part.requireAll.Yields part') :
    Parted scope full' part' := by
  obtain ⟨named, profiles, opened, read, inProfiles⟩ := requireAll_profiles whole
  obtain ⟨named', profiles', opened', read', inProfiles'⟩ := requireAll_profiles rest
  obtain ⟨_, classes, objects, same, inClasses, inObjects⟩ := requireAll_ok whole
  obtain ⟨_, classes', objects', same', inClasses', inObjects'⟩ := requireAll_ok rest
  have agree {kind : ItemKind} {key : Text} {item left right : Fields}
      (one : ∃ missing, requireItem kind key item = .ok (left, missing))
      (two : ∃ missing, requireItem kind key item = .ok (right, missing)) : left = right := by
    obtain ⟨missing, one⟩ := one
    obtain ⟨missing', two⟩ := two
    rw [one] at two
    exact congrArg Prod.fst (Except.ok.inj two)
  have parts : named' = Entries.outside scope named :=
    outside_of_asFields parted.profiles opened opened'
  have profilesOutside : profiles' = Entries.outside scope profiles := by
    refine inProfiles.outside (parts ▸ inProfiles') ?_
    rintro entry _ _ _ _ ⟨item, filled, missing, inside, one, rfl⟩
      ⟨item', filled', missing', inside', two, rfl⟩
    rw [inside, Except.ok.injEq] at inside'
    subst inside'
    rw [agree ⟨missing, one⟩ ⟨missing', two⟩]
  have guardedProfiles : ∀ entry ∈ profiles', ∀ item, entry.2.asFields = .ok item →
      Guarded scope item := by
    intro entry member item inside
    obtain ⟨origin, known, before, filled, missing, opened'', one, shape⟩ :=
      inProfiles'.mem_right member
    rw [shape] at inside
    rw [← Except.ok.inj inside]
    exact requireItem_guarded (parted.guardedProfiles named' opened' _ known before opened'') one
  subst same same'
  refine {
    categories := parted.categories, attributes := parted.attributes, types := parted.types
    observables := parted.observables, allClasses := parted.allClasses
    allObjects := parted.allObjects, dictionary := parted.dictionary
    profiles := ?_
    classes := inClasses.outside (parted.classes ▸ inClasses') fun _ _ _ _ _ => agree
    objects := inObjects.outside (parted.objects ▸ inObjects') fun _ _ _ _ _ => agree
    guardedClasses := ?_, guardedObjects := ?_, guardedProfiles := ?_ }
  · exact read'.trans (profilesOutside ▸ read ▸ rfl)
  · intro entry member
    obtain ⟨origin, known, missing, ran⟩ := inClasses'.mem_right member
    exact requireItem_guarded (parted.guardedClasses _ known) ran
  · intro entry member
    obtain ⟨origin, known, missing, ran⟩ := inObjects'.mem_right member
    exact requireItem_guarded (parted.guardedObjects _ known) ran
  · intro fields inside
    rw [read'] at inside
    exact Except.ok.inj inside ▸ guardedProfiles

end EventSchema.Draft
