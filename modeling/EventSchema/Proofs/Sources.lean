import EventSchema.Proofs.Contribution.Patch
import EventSchema.Proofs.Contribution.Settled
import EventSchema.Proofs.Graph.Outside

/-!
Sources with the items of a scope and without them.

Merging what an extension adds under its own keys changes nothing outside its scope, and merging what
any other extension contributes does the same to the sources with the items of the scope as to those
without them. Patches reach no item of the scope, since each of these belongs to an extension.
-/

set_option autoImplicit false

namespace EventSchema

open Value

variable {scope : Text}

/-! ### Two sequences of steps side by side -/

/-- What relates the states before every step and after it relates the last states. -/
theorem Act.foldlM_lockstep {α β γ : Type} {related : β → γ → Prop} {first : β → α → Act β}
    {second : γ → α → Act γ} {items : List α} {left left' : β} {right right' : γ}
    (start : related left right) (whole : (items.foldlM first left).Yields left')
    (rest : (items.foldlM second right).Yields right')
    (each : ∀ item ∈ items, ∀ left left' right right', related left right →
      (first left item).Yields left' → (second right item).Yields right' → related left' right') :
    related left' right' := by
  induction items generalizing left right with
  | nil => exact yields_pure.mp whole ▸ yields_pure.mp rest ▸ start
  | cons head items ih =>
      rw [List.foldlM_cons] at whole rest
      obtain ⟨middle, one, whole⟩ := yields_bind whole
      obtain ⟨middle', two, rest⟩ := yields_bind rest
      exact ih (each head (List.mem_cons_self ..) _ _ _ _ start one two) whole rest
        fun item member => each item (List.mem_cons_of_mem _ member)

/-! ### Items of one kind -/

/-- One collection of items is the other without those of a scope. What is left refers to none of
them, and they have the given property. -/
structure ItemsParted (scope : Text) (owned : Fields → Prop) (full part : Entries Fields) : Prop where
  outside : part = Entries.outside scope full
  clear : ClearEach scope part
  inside : ∀ entry ∈ full, Scope.owns scope entry.1 = true → owned entry.2

namespace ItemsParted

variable {owned : Fields → Prop} {full part : Entries Fields} {key : Text} {item : Fields}

private theorem put_inside (parted : ItemsParted scope owned full part) (inside : Scope.owns scope key = true)
    (given : owned item) : ItemsParted scope owned (Entries.put key item full) part where
  outside := parted.outside.trans (Entries.outside_put_of_owned inside item full).symm
  clear := parted.clear
  inside entry member free := by
    rcases Entries.mem_of_mem_put member with written | before
    · exact written ▸ given
    · exact parted.inside entry before free

private theorem put_outside (parted : ItemsParted scope owned full part) (free : Scope.owns scope key = false)
    (clear : ClearFields scope item) :
    ItemsParted scope owned (Entries.put key item full) (Entries.put key item part) where
  outside := by rw [Entries.outside_put free, parted.outside]
  clear entry member := by
    rcases Entries.mem_of_mem_put member with written | before
    · exact written ▸ clear
    · exact parted.clear entry before
  inside entry member inScope := by
    rcases Entries.mem_of_mem_put member with written | before
    · rw [written, free] at inScope
      cases inScope
    · exact parted.inside entry before inScope

theorem of_free {items : Entries Fields} (free : ∀ entry ∈ items, Scope.owns scope entry.1 = false)
    (clear : ClearEach scope items) : ItemsParted scope owned items items where
  outside := (Entries.outside_of_free free).symm
  clear := clear
  inside entry member inScope := by
    rw [free entry member] at inScope
    cases inScope

/-- An extension's own items come under keys of its scope. -/
theorem addScoped_inside {e : Extension} {new : Entries Fields}
    (parted : ItemsParted e.name owned full part) (given : ∀ entry ∈ new, owned entry.2) :
    ItemsParted e.name owned (Compilation.addScoped e full new) part := by
  unfold Compilation.addScoped
  induction new generalizing full with
  | nil => exact parted
  | cons head rest ih =>
      obtain ⟨own, others⟩ := List.forall_mem_cons.mp given
      exact ih (parted.put_inside (Scope.owns_within_self ..) own) others

private theorem addScoped_outside {e : Extension} {new : Entries Fields} (plain : scope.hasSlash = false)
    (foreign : Scope.owns scope (e.name ++ "/") = false) (parted : ItemsParted scope owned full part)
    (clear : ClearEach scope new) : ItemsParted scope owned (Compilation.addScoped e full new)
      (Compilation.addScoped e part new) := by
  unfold Compilation.addScoped
  induction new generalizing full part with
  | nil => exact parted
  | cons head rest ih =>
      obtain ⟨own, others⟩ := List.forall_mem_cons.mp clear
      exact ih (parted.put_outside ((Scope.owns_within plain ..).trans foreign) own) others

private theorem outside_record (parted : ItemsParted scope owned full part) :
    Value.record (Entries.mapValues Value.record part) =
      (Value.record (Entries.mapValues Value.record full)).outside scope := by
  rw [parted.outside]
  exact congrArg Value.record (Entries.outside_map (fun entry => Value.record entry.2) full).symm

private theorem clearItems (parted : ItemsParted scope owned full part) {items : Fields}
    (opened : (Value.record (Entries.mapValues Value.record full)).asFields = .ok items) :
    Lineage.ClearItems scope items := by
  cases opened
  intro entry member free
  obtain ⟨origin, known, rfl⟩ := List.mem_map.mp member
  rw [clear_record]
  exact parted.clear origin (parted.outside ▸ Entries.mem_outside.mpr ⟨known, free⟩)

theorem unmarked (parted : ItemsParted scope Contribution.Inert full part) {items : Fields}
    (opened : (Value.record (Entries.mapValues Value.record full)).asFields = .ok items) :
    ∀ entry ∈ items, Scope.owns scope entry.1 = true →
      ∃ mark item, entry.2 = .object mark item ∧ Draft.Unmarked item := by
  cases opened
  intro entry member inside
  obtain ⟨origin, known, rfl⟩ := List.mem_map.mp member
  exact ⟨none, origin.2, rfl, (parted.inside origin known inside).2⟩

end ItemsParted

/-! ### Patches -/

namespace Patch

private theorem clear_replace {patch item : Fields} (clearPatch : ClearFields scope patch)
    (clear : ClearFields scope item) {key : Text} (silent : key ∉ ("extension" : Text) :: referringKeys) :
    ClearFields scope (replace patch item key) := by
  unfold replace
  split
  · rename_i value found
    split
    · exact clear
    · exact clear.put (clearField_of_key silent _) (clearPatch.of_get? found).2
  · exact clear

private theorem clear_replaceEach {patch item : Fields} (clearPatch : ClearFields scope patch)
    (clear : ClearFields scope item) {keys : List Text}
    (silent : ∀ key ∈ keys, key ∉ ("extension" : Text) :: referringKeys) :
    ClearFields scope (keys.foldl (replace patch) item) := by
  induction keys generalizing item with
  | nil => exact clear
  | cons head rest ih =>
      obtain ⟨own, others⟩ := List.forall_mem_cons.mp silent
      exact ih (clear_replace clearPatch clear own) others

private theorem clear_replaceConstraints {patch item : Fields} (clearPatch : ClearFields scope patch)
    (clear : ClearFields scope item) : ClearFields scope (replaceConstraints patch item) := by
  unfold replaceConstraints
  split
  · rename_i constraints found
    split
    · exact clear.put (clearField_of_key (by decide) _) (clearPatch.of_get? found).2
    · exact clear.erase _
  · exact clear

private theorem clear_sourced {attributes : Fields} (source : Text) (clear : ClearFields scope attributes) :
    ClearFields scope (Entries.mapValues (sourced source) attributes) := by
  refine clear.mapValues ?_ ?_
  · intro value shape
    cases value with
    | object mark fields => cases shape
    | null | bool _ | int _ | float _ | text _ | array _ => rfl
  · intro mark inner inside
    exact ⟨rfl, clear_object.mpr
      (inside.put (clearField_of_key (by decide) _) (clear_of_not_object rfl))⟩

private theorem silent_replacedKeys : ∀ key ∈ replacedKeys, key ∉ ("extension" : Text) :: referringKeys := by
  decide

private theorem clear_applyTo {name : Text} {patch item result : Fields} (clearPatch : ClearFields scope patch)
    (clear : ClearFields scope item) (ran : applyTo name patch item = .ok result) :
    ClearFields scope result := by
  obtain ⟨patcher, listed, changes, attributes, patchers, _, shape, opened, written, rfl⟩ := applyTo_ok ran
  have clearListed : ClearFields scope listed := by
    rcases shape with rfl | ⟨joined, rfl⟩
    · exact clear
    · exact clear.put (clearField_of_key (by decide) _) (clear_of_not_object rfl)
  have clearChanges : ClearFields scope changes :=
    Lineage.attributes_of_fieldsOrNone opened ▸ clearPatch.attributes
  have inside : Clear scope attributes := by
    rcases written with ⟨_, rfl⟩ | ⟨fields, known, rfl⟩
    · exact clearListed.orEmpty_clear _
    · exact clear_record.mpr (ClearFields.overlay ((clearListed.orEmpty_clear _).asFields known)
        (clear_sourced _ (ClearFields.shift _ changes clearChanges)))
  refine ClearFields.put ?_ (clearField_of_key (by decide) _) (clear_of_not_object rfl)
  refine clear_replaceConstraints clearPatch (clear_replaceEach clearPatch ?_ silent_replacedKeys)
  exact clearListed.put (clearField_of_key (by decide) _) inside

private theorem itemsParted_apply {kind : ItemKind} {name : Text} {patch : Fields}
    {full part full' part' : Entries Fields} (clear : ClearFields scope patch)
    (parted : ItemsParted scope Contribution.Inert full part)
    (whole : (apply kind full name patch).Yields full') (rest : (apply kind part name patch).Yields part') :
    ItemsParted scope Contribution.Inert full' part' := by
  have known (free : Scope.owns scope name = false) :
      Entries.get? name part = Entries.get? name full := by
    rw [parted.outside, Entries.get?_outside full free]
  rcases apply_ok whole with ⟨absent, rfl⟩ | ⟨item, patched, found, unowned, one, rfl⟩
  · rcases apply_ok rest with ⟨_, rfl⟩ | ⟨item, _, found, _⟩
    · exact parted
    · have outside := parted.outside ▸ Entries.mem_of_get? found
      rw [known (Entries.mem_outside.mp outside).2, absent] at found
      cases found
  · have free : Scope.owns scope name = false := by
      rw [← Bool.not_eq_true]
      intro inside
      have owned := (parted.inside _ (Entries.mem_of_get? found) inside).1
      rw [Entries.has, show Entries.get? Contribution.extensionKey item = none from unowned] at owned
      cases owned
    rw [← known free] at found
    rcases apply_ok rest with ⟨absent, _⟩ | ⟨other, patched', found', _, two, rfl⟩
    · cases found.symm.trans absent
    · cases found.symm.trans found'
      cases one.symm.trans two
      exact parted.put_outside free (clear_applyTo clear (parted.clear _ (Entries.mem_of_get? found)) one)

private theorem itemsParted_applyAll {kind : ItemKind} {patches : Patches}
    {full part full' part' : Entries Fields}
    (clear : ∀ entry ∈ patches, ∀ patch ∈ entry.2, ClearFields scope patch)
    (parted : ItemsParted scope Contribution.Inert full part)
    (whole : (applyAll kind full patches).Yields full') (rest : (applyAll kind part patches).Yields part') :
    ItemsParted scope Contribution.Inert full' part' := by
  refine Act.foldlM_lockstep parted whole rest fun entry member left left' right right' held one two => ?_
  exact Act.foldlM_lockstep held one two fun patch known _ _ _ _ held one two =>
    itemsParted_apply (clear entry member patch known) held one two

end Patch

/-! ### Categories -/

namespace Value

private theorem outside_withField_inside {key : Text} (inside : Scope.owns scope key = true) {target result : Value}
    (given : Value) (ran : target.withField key given = .ok result) :
    result.outside scope = target.outside scope := by
  cases target with
  | object mark fields =>
      rw [← Except.ok.inj ran]
      exact congrArg (Value.object mark) (Entries.outside_put_of_owned inside given fields)
  | null | bool _ | int _ | float _ | text _ | array _ => cases ran

private theorem withField_outside {key : Text} (free : Scope.owns scope key = false) (target given : Value) :
    (target.outside scope).withField key given = Value.outside scope <$> target.withField key given := by
  cases target with
  | object mark fields =>
      exact congrArg (Except.ok ∘ Value.object mark) (Entries.outside_put free given fields).symm
  | null | bool _ | int _ | float _ | text _ | array _ => rfl

theorem Single.withField {key : Text} {target given result : Value} (single : target.Single)
    (ran : target.withField key given = .ok result) : result.Single := by
  cases target with
  | object mark fields =>
      intro other inner shape
      rw [← Except.ok.inj ran, Value.object.injEq] at shape
      exact shape.1 ▸ single mark fields rfl
  | null | bool _ | int _ | float _ | text _ | array _ => cases ran

end Value

namespace Compilation

theorem addCategories_ok {e : Extension} {base new result : Fields}
    (ran : addCategories e base new = .ok result) :
    ∃ entries added, (Entries.orEmpty "attributes" new).asFields = .ok entries ∧
      entries.foldlM (fun categories entry =>
        categories.withField (Scope.within e.name entry.1) entry.2)
        (Entries.orEmpty "attributes" base) = .ok added ∧
      result = Entries.put "attributes" added base := by
  unfold addCategories at ran
  obtain ⟨entries, opened, ran⟩ := bind_eq_ok.mp ran
  obtain ⟨added, written, ran⟩ := bind_eq_ok.mp ran
  exact ⟨entries, added, opened, written, (pure_eq_ok.mp ran).symm⟩

private theorem single_addCategories {e : Extension} {base new result : Fields}
    (single : (Entries.orEmpty "attributes" base).Single)
    (ran : addCategories e base new = .ok result) : (Entries.orEmpty "attributes" result).Single := by
  obtain ⟨entries, added, _, written, rfl⟩ := addCategories_ok ran
  rw [Entries.orEmpty_put_self]
  exact foldlM_invariant (motive := Value.Single) written single
    fun state entry next _ held step => held.withField step

private theorem addCategories_inside {e : Extension} {base new result : Fields}
    (ran : addCategories e base new = .ok result) :
    (Entries.orEmpty "attributes" result).outside e.name =
      (Entries.orEmpty "attributes" base).outside e.name := by
  obtain ⟨entries, added, _, written, rfl⟩ := addCategories_ok ran
  rw [Entries.orEmpty_put_self]
  refine foldlM_invariant (motive := fun state => state.outside e.name =
    (Entries.orEmpty "attributes" base).outside e.name) written rfl ?_
  exact fun state entry next _ held step =>
    (outside_withField_inside (Scope.owns_within_self ..) entry.2 step).trans held

private theorem addCategories_outside {e : Extension} (plain : scope.hasSlash = false)
    (foreign : Scope.owns scope (e.name ++ "/") = false) {full part new result result' : Fields}
    (same : Entries.orEmpty "attributes" part = (Entries.orEmpty "attributes" full).outside scope)
    (whole : addCategories e full new = .ok result) (rest : addCategories e part new = .ok result') :
    Entries.orEmpty "attributes" result' = (Entries.orEmpty "attributes" result).outside scope := by
  obtain ⟨entries, added, opened, written, rfl⟩ := addCategories_ok whole
  obtain ⟨entries', added', opened', written', rfl⟩ := addCategories_ok rest
  cases opened.symm.trans opened'
  rw [Entries.orEmpty_put_self, Entries.orEmpty_put_self]
  rw [same] at written'
  have step (entries : Fields) (start : Value) : entries.foldlM (fun categories entry =>
      categories.withField (Scope.within e.name entry.1) entry.2) (start.outside scope) =
        Value.outside scope <$> entries.foldlM (fun categories entry =>
          categories.withField (Scope.within e.name entry.1) entry.2) start := by
    induction entries generalizing start with
    | nil => rfl
    | cons head rest ih =>
        rw [List.foldlM_cons, List.foldlM_cons,
          withField_outside ((Scope.owns_within plain ..).trans foreign)]
        cases start.withField (Scope.within e.name head.1) head.2 with
        | error fault => rfl
        | ok next => exact ih next
  rw [step, written] at written'
  exact (Except.ok.inj written').symm

/-! ### Patches of all extensions -/

private theorem clear_addPatches {patches : Patches} {new : Entries Fields} (given : ClearEach scope new)
    (clear : ∀ entry ∈ patches, ∀ patch ∈ entry.2, ClearFields scope patch) :
    ∀ entry ∈ addPatches patches new, ∀ patch ∈ entry.2, ClearFields scope patch := by
  unfold addPatches
  induction new generalizing patches with
  | nil => exact clear
  | cons head rest ih =>
      obtain ⟨own, others⟩ := List.forall_mem_cons.mp given
      refine ih others fun entry member patch known => ?_
      rcases Entries.mem_of_mem_put member with written | before
      · rw [written] at known
        rcases List.mem_append.mp known with earlier | last
        · cases found : Entries.get? head.1 patches with
          | none =>
              rw [found] at earlier
              cases earlier
          | some others =>
              rw [found] at earlier
              exact clear _ (Entries.mem_of_get? found) patch earlier
        · exact List.mem_singleton.mp last ▸ own
      · exact clear entry before patch known

/-! ### Sources -/

/-- One collection of sources is the other without the items of a scope. What is left refers to none of
them, and each of them has an owner and marks nothing as observable. -/
structure Sources.Parted (scope : Text) (full part : Sources) : Prop where
  categories : Entries.orEmpty "attributes" part.categories =
    (Entries.orEmpty "attributes" full.categories).outside scope
  singleCategories : (Entries.orEmpty "attributes" full.categories).Single
  dictionary : full.dictionary = part.dictionary ∨
    full.dictionary = Contribution.settled part.dictionary
  singleTypes : (Entries.orEmpty "types" part.dictionary).Single
  clearDictionary : ClearFields scope part.dictionary
  classes : ItemsParted scope Contribution.Inert full.classes part.classes
  objects : ItemsParted scope Contribution.Inert full.objects part.objects
  profiles : ItemsParted scope (fun _ => True) full.profiles part.profiles
  classPatches : full.classPatches = part.classPatches
  objectPatches : full.objectPatches = part.objectPatches
  clearClassPatches : ∀ entry ∈ part.classPatches, ∀ patch ∈ entry.2, ClearFields scope patch
  clearObjectPatches : ∀ entry ∈ part.objectPatches, ∀ patch ∈ entry.2, ClearFields scope patch

theorem Sources.add_ok {s added : Sources} {c : Contribution} (ran : (s.add c).Yields added) :
    ∃ categories dictionary, addCategories c.extension s.categories c.categories = .ok categories ∧
      (c.extendDictionary s.dictionary).Yields dictionary ∧
      added = {
        categories, dictionary
        classes := addScoped c.extension s.classes c.classes
        objects := addScoped c.extension s.objects c.objects
        profiles := addScoped c.extension s.profiles c.profiles
        classPatches := addPatches s.classPatches c.classPatches
        objectPatches := addPatches s.objectPatches c.objectPatches } := by
  unfold Sources.add at ran
  obtain ⟨categories, listed, ran⟩ := Act.yields_bind ran
  obtain ⟨dictionary, extended, ran⟩ := Act.yields_bind ran
  exact ⟨categories, dictionary, Act.yields_lift.mp listed, extended, (Act.yields_pure.mp ran).symm⟩

namespace Sources.Parted

variable {full part full' part' : Sources} {c : Contribution}

/-- An extension that only adds items changes nothing outside its scope. -/
theorem add_inside (parted : Parted c.extension.name full part) (addition : c.Addition)
    (ran : (full.add c).Yields full') : Parted c.extension.name full' part := by
  obtain ⟨categories, dictionary, listed, extended, rfl⟩ := add_ok ran
  obtain ⟨settles, _⟩ := Contribution.extendDictionary_of_empty addition.dictionary extended
  exact {
    parted with
    categories := parted.categories.trans (addCategories_inside listed).symm
    singleCategories := single_addCategories parted.singleCategories listed
    dictionary := by
      rcases parted.dictionary with same | settled
      · exact Or.inr (same ▸ settles)
      · exact Or.inr (settles.trans (settled ▸ Contribution.settled_settled _))
    classes := parted.classes.addScoped_inside addition.classes
    objects := parted.objects.addScoped_inside addition.objects
    profiles := parted.profiles.addScoped_inside fun _ _ => trivial
    classPatches := by rw [addition.classPatches]; exact parted.classPatches
    objectPatches := by rw [addition.objectPatches]; exact parted.objectPatches }

private theorem add_outside (plain : scope.hasSlash = false)
    (foreign : Scope.owns scope (c.extension.name ++ "/") = false) (clear : c.ClearOf scope)
    (parted : Parted scope full part) (whole : (full.add c).Yields full')
    (rest : (part.add c).Yields part') : Parted scope full' part' := by
  obtain ⟨categories, dictionary, listed, extended, rfl⟩ := add_ok whole
  obtain ⟨categories', dictionary', listed', extended', rfl⟩ := add_ok rest
  have same : dictionary = dictionary' := by
    rcases parted.dictionary with same | settled
    · rw [same] at extended
      exact Contribution.agree_extendDictionary c _ _ _ extended extended'
    · rw [settled] at extended
      exact Contribution.extendDictionary_settled parted.singleTypes extended extended'
  exact {
    categories := addCategories_outside plain foreign parted.categories listed listed'
    singleCategories := single_addCategories parted.singleCategories listed
    dictionary := Or.inl same
    singleTypes := by
      obtain ⟨_, _, _, _, _, _, _, _, _, _, _, _, rfl⟩ := Contribution.extendDictionary_ok extended'
      rw [Entries.orEmpty_put_self]
      intro mark fields shape
      exact (Value.object.inj shape).1.symm
    clearDictionary := Contribution.clear_extendDictionary parted.clearDictionary clear.dictionary
      extended'
    classes := parted.classes.addScoped_outside plain foreign clear.classes
    objects := parted.objects.addScoped_outside plain foreign clear.objects
    profiles := parted.profiles.addScoped_outside plain foreign clear.profiles
    classPatches := by rw [parted.classPatches]
    objectPatches := by rw [parted.objectPatches]
    clearClassPatches := clear_addPatches clear.classPatches parted.clearClassPatches
    clearObjectPatches := clear_addPatches clear.objectPatches parted.clearObjectPatches }

/-- So all contributions come to the same outside the scope with the extension of the scope among them
and without it. -/
theorem merge (plain : c.extension.name.hasSlash = false) {before after : List Contribution}
    (parted : Parted c.extension.name full part) (addition : c.Addition)
    (others : ∀ other ∈ before ++ after, Scope.owns c.extension.name (other.extension.name ++ "/") = false ∧
      other.ClearOf c.extension.name)
    (whole : ((before ++ c :: after).foldlM Sources.add full).Yields full')
    (rest : ((before ++ after).foldlM Sources.add part).Yields part') :
    Parted c.extension.name full' part' := by
  have lockstep {contributions : List Contribution} (known : contributions ⊆ before ++ after)
      {full part full' part' : Sources} (parted : Parted c.extension.name full part)
      (whole : (contributions.foldlM Sources.add full).Yields full')
      (rest : (contributions.foldlM Sources.add part).Yields part') :
      Parted c.extension.name full' part' := by
    refine Act.foldlM_lockstep parted whole rest fun other member _ _ _ _ held one two => ?_
    obtain ⟨foreign, clear⟩ := others other (known member)
    exact add_outside plain foreign clear held one two
  rw [List.foldlM_append] at whole rest
  obtain ⟨middle, one, whole⟩ := Act.yields_bind whole
  obtain ⟨middle', two, rest⟩ := Act.yields_bind rest
  rw [List.foldlM_cons] at whole
  obtain ⟨extended, adds, whole⟩ := Act.yields_bind whole
  have first := lockstep (List.subset_append_left ..) parted one two
  exact lockstep (List.subset_append_right ..) (first.add_inside addition adds) whole rest

end Sources.Parted

/-! ### Definitions -/

/-- Categories that are no object count as none. -/
theorem orElse_orEmpty (key : Text) (fields : Fields) :
    orElse (Entries.get? key fields) (.record []) = orElse (some (Entries.orEmpty key fields)) (.record []) := by
  rw [Entries.orEmpty, Entries.getOr]
  cases Entries.get? key fields with
  | none => rfl
  | some value => rfl

private theorem orElse_outside {value : Value} (single : value.Single) :
    orElse (some (value.outside scope)) (.record []) = (orElse (some value) (.record [])).outside scope := by
  have itself (fields : Fields) : orElse (some (.record fields)) (.record []) = .record fields := by
    cases fields <;> rfl
  cases value with
  | object mark fields =>
      cases single mark fields rfl
      change orElse (some (.record (Entries.outside scope fields))) (.record []) =
        (orElse (some (.record fields)) (.record [])).outside scope
      rw [itself, itself]
      rfl
  | null | bool _ | int _ | float _ | text _ | array _ =>
      unfold orElse
      dsimp only [Value.outside]
      split <;> rfl

private theorem shared_ok {d : Definitions} {dictionary attributes types : Fields}
    (given : d.dictionary = .record dictionary) (ran : d.shared = .ok (attributes, types)) :
    (Entries.orEmpty "attributes" dictionary).asFields = .ok attributes ∧
      ∃ inner, (Entries.orEmpty "types" dictionary).asFields = .ok inner ∧
        (Entries.orEmpty "attributes" inner).asFields = .ok types := by
  obtain ⟨mark, own, fields, inner, shape, known, openedTypes, openedInner⟩ := Definitions.exists_of_shared ran
  cases given.symm.trans shape
  rw [Entries.orEmpty, Entries.getOr, known]
  exact ⟨rfl, inner, openedTypes, openedInner⟩

theorem Sources.definitions_ok {s : Sources} {version : Value} {extensions : List Extension}
    {d : Definitions} (ran : (s.definitions version extensions).Yields d) :
    ∃ classes objects, (Patch.applyAll .eventClass s.classes s.classPatches).Yields classes ∧
      (Patch.applyAll .object s.objects s.objectPatches).Yields objects ∧
      d = {
        version, extensions
        categories := .record s.categories
        dictionary := .record s.dictionary
        classes := .record (Entries.mapValues Value.record classes)
        objects := .record (Entries.mapValues Value.record objects)
        profiles := .record (Entries.mapValues Value.record s.profiles) } := by
  unfold Sources.definitions at ran
  obtain ⟨classes, inClasses, ran⟩ := Act.yields_bind ran
  obtain ⟨objects, inObjects, ran⟩ := Act.yields_bind ran
  exact ⟨classes, objects, inClasses, inObjects, (Act.yields_pure.mp ran).symm⟩

/-- Sources that differ in the items of a scope define schemas that differ in them only. -/
theorem Sources.Parted.definitions {full part : Sources} (parted : full.Parted scope part)
    {version version' : Value} {extensions extensions' : List Extension} {d d' : Definitions}
    (whole : (full.definitions version extensions).Yields d)
    (rest : (part.definitions version' extensions').Yields d') : d.Parted scope d' := by
  obtain ⟨classes, objects, inClasses, inObjects, rfl⟩ := definitions_ok whole
  obtain ⟨classes', objects', inClasses', inObjects', rfl⟩ := definitions_ok rest
  rw [parted.classPatches] at inClasses
  rw [parted.objectPatches] at inObjects
  have patchedClasses := Patch.itemsParted_applyAll parted.clearClassPatches parted.classes inClasses
    inClasses'
  have patchedObjects := Patch.itemsParted_applyAll parted.clearObjectPatches parted.objects inObjects
    inObjects'
  have sections : Entries.orEmpty "attributes" full.dictionary = Entries.orEmpty "attributes" part.dictionary ∧
      Entries.orEmpty "attributes" (Entries.orEmpty "types" full.dictionary).inner =
        Entries.orEmpty "attributes" (Entries.orEmpty "types" part.dictionary).inner := by
    rcases parted.dictionary with same | settled
    · rw [same]
      exact ⟨rfl, rfl⟩
    · rw [settled, Contribution.attributes_settled, Contribution.types_settled, inner_record,
        Entries.orEmpty_put_self]
      exact ⟨rfl, rfl⟩
  exact {
    categories := by
      intro left right one two
      obtain ⟨found, read, one⟩ := bind_eq_ok.mp one
      obtain ⟨found', read', two⟩ := bind_eq_ok.mp two
      cases read
      cases read'
      rw [← pure_eq_ok.mp one, ← pure_eq_ok.mp two, orElse_orEmpty, orElse_orEmpty,
        parted.categories, orElse_outside parted.singleCategories]
    dictionary := by
      rintro ⟨attributes, types⟩ ⟨attributes', types'⟩ one two
      obtain ⟨opened, inner, openedTypes, openedInner⟩ := shared_ok rfl one
      obtain ⟨opened', inner', openedTypes', openedInner'⟩ := shared_ok rfl two
      obtain ⟨mark, innerIs⟩ := inner_of_asFields openedTypes
      obtain ⟨mark', innerIs'⟩ := inner_of_asFields openedTypes'
      rw [innerIs, innerIs'] at sections
      rw [sections.1] at opened
      have types := sections.2
      dsimp only [Value.inner] at types
      rw [types] at openedInner
      cases opened.symm.trans opened'
      cases openedInner.symm.trans openedInner'
      rfl
    classes := patchedClasses.outside_record
    objects := patchedObjects.outside_record
    profiles := parted.profiles.outside_record
    clearDictionary := by
      intro attributes types shared
      obtain ⟨opened, inner, openedTypes, openedInner⟩ := shared_ok rfl shared
      have clear := parted.clearDictionary
      exact ⟨(clear.orEmpty_clear _).asFields opened,
        (((clear.orEmpty_clear _).asFields openedTypes).orEmpty_clear _).asFields openedInner⟩
    clearClasses := fun items => patchedClasses.clearItems
    clearObjects := fun items => patchedObjects.clearItems
    clearProfiles := fun items => parted.profiles.clearItems
    unmarkedClasses := fun items => patchedClasses.unmarked
    unmarkedObjects := fun items => patchedObjects.unmarked }

end Compilation

end EventSchema
