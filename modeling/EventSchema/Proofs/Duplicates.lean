import EventSchema.Proofs.Homes
import EventSchema.Proofs.Walk
import Mathlib.Data.List.Induction

/-!
Files of one scan that define the same name.

A scan reads the files of a folder in walking order, and where two of them have one name the policy decides.
If duplicates are faults, a scan finds one definition for each file, in the order of the files, or it stops at
the second file of a name. If later files win, it always ends: the names come in the order in which each of
them comes first, the last file of a name says what is under it, and each file but the first of a name is
warned of. The same goes for the files of an extension, whose patches are kept apart from its definitions.
-/

set_option autoImplicit false

namespace EventSchema

namespace Entries

variable {α : Type}

private theorem ofList_concat (pairs : List (Text × α)) (last : Text × α) :
    ofList (pairs ++ [last]) = put last.1 last.2 (ofList pairs) := ofList_append pairs [last]

/-- The keys of a list of pairs come in the order in which each of them comes first. -/
theorem keys_ofList (pairs : List (Text × α)) : keys (ofList pairs) = (keys pairs).eraseDups := by
  induction pairs using List.reverseRecOn with
  | nil => rfl
  | append_singleton pairs last ih =>
      have both : keys (pairs ++ [last]) = keys pairs ++ [last.1] := List.map_append
      rw [ofList_concat, keys_put, ih, both, List.eraseDups_append]
      by_cases known : last.1 ∈ keys pairs
      · have present : has last.1 (ofList pairs) = true := by
          apply has_iff_mem_keys.mpr
          rw [ih]
          exact List.mem_eraseDups.mpr known
        have nothing : [last.1].removeAll (keys pairs) = [] := by
          simp [List.removeAll, known]
        rw [if_pos present, nothing, List.eraseDups_nil, List.append_nil]
      · have absent : ¬has last.1 (ofList pairs) = true := by
          intro present
          have listed := has_iff_mem_keys.mp present
          rw [ih] at listed
          exact known (List.mem_eraseDups.mp listed)
        have itself : [last.1].removeAll (keys pairs) = [last.1] := by
          simp [List.removeAll, known]
        rw [if_neg absent, itself]
        rfl

private theorem keys_put_perm (key : Text) (value : α) (entries : Entries α) :
    (keys (put key value entries)).Perm
      (if key ∈ keys entries then keys entries else key :: keys entries) := by
  rw [keys_put]
  simp only [has_iff_mem_keys]
  split
  · exact List.Perm.refl _
  · exact List.perm_append_singleton _ _

private theorem get?_ofList (key : Text) (pairs : List (Text × α)) :
    get? key (ofList pairs) = get? key pairs.reverse := by
  induction pairs using List.reverseRecOn with
  | nil => rfl
  | append_singleton pairs last ih =>
      rw [ofList_concat, get?_put, ih, List.reverse_append, List.reverse_singleton,
        List.singleton_append, get?_cons]
      by_cases same : key = last.1
      · rw [if_pos same, if_pos same.symm]
      · rw [if_neg same, if_neg fun equal => same equal.symm]

/-- What is left of a list of pairs where later ones win: the keys come in the order in which each of them
comes first, and the last pair with a key says what is under it. -/
structure LastWins (pairs : List (Text × α)) (entries : Entries α) : Prop where
  order : keys entries = (keys pairs).eraseDups
  winner : ∀ key, get? key entries = get? key pairs.reverse

private theorem lastWins_ofList (pairs : List (Text × α)) : LastWins pairs (ofList pairs) where
  order := keys_ofList pairs
  winner := fun key => get?_ofList key pairs

end Entries

namespace Scan

variable {scan : Scan}

private theorem add_fresh {items : Entries Fields} {name : Text} (fresh : name ∉ Entries.keys items)
    (context : Text) (file : Path) (document : Fields) :
    scan.add context file items name document = pure (Entries.put name document items) := by
  unfold add
  rw [Entries.get?_eq_none_iff.mpr fresh]

/-- How two definitions of one name are told of: by their captions, the file that the earlier one came from
and the file of the later one. -/
def collision (context : Text) (file : Path) (existing document : Fields) : DuplicateFault :=
  .itemName context ((Entries.get? "caption" document).getD (.text ∅))
    ((Entries.get? "caption" existing).getD (.text ∅)) (Entries.orNull "_origin" existing) file

private theorem add_collides {items : Entries Fields} {name : Text} {existing : Fields}
    (held : Entries.get? name items = some existing) (context : Text) (file : Path) (document : Fields) :
    scan.add context file items name document = match scan.policy with
      | .error => throw (.duplicate (collision context file existing document))
      | .warn => do
          warn (.laterDefinitionWins (collision context file existing document))
          return Entries.put name document items := by
  unfold add
  rw [held]
  cases scan.policy with
  | error => rfl
  | warn => rfl

/-! ### Files one after another -/

section Gathering

variable {state label : Type} [DecidableEq label]

structure Gathers (scan : Scan) (files : List Path) (held : state → List label)
    (labelled : Path → label) (place : state → Path → state) (counted : Path → Diagnostics)
    (step : state → Path → Act state) : Prop where
  fixed : ∀ found file, (step found file).Fixed scan.tree
  fresh : ∀ found, ∀ file ∈ files, labelled file ∉ held found →
    (step found file).content = .ok (place found file) ∧ (step found file).reports = counted file
  clash : scan.policy = .error → ∀ found, ∀ file ∈ files, labelled file ∈ held found →
    ∃ fault, (step found file).content = .error (.duplicate fault)
  tolerated : scan.policy = .warn → ∀ found, ∀ file ∈ files, labelled file ∈ held found →
    (step found file).content = .ok (place found file) ∧
      (step found file).reports = (counted file).add { warnings := 1 }
  holds : ∀ found, ∀ file ∈ files, (held (place found file)).Perm
    (if labelled file ∈ held found then held found else labelled file :: held found)

namespace Gathers

variable {files : List Path} {held : state → List label} {labelled : Path → label}
  {place : state → Path → state} {counted : Path → Diagnostics} {step : state → Path → Act state}

theorem tail {file : Path} {rest : List Path}
    (gathers : scan.Gathers (file :: rest) held labelled place counted step) :
    scan.Gathers rest held labelled place counted step where
  fixed := gathers.fixed
  fresh := fun found other member => gathers.fresh found other (List.mem_cons_of_mem _ member)
  clash := fun strict found other member =>
    gathers.clash strict found other (List.mem_cons_of_mem _ member)
  tolerated := fun lenient found other member =>
    gathers.tolerated lenient found other (List.mem_cons_of_mem _ member)
  holds := fun found other member => gathers.holds found other (List.mem_cons_of_mem _ member)

/-- Where no label comes twice, everything is placed. Otherwise the second file of a label is a fault. -/
theorem strict (gathers : scan.Gathers files held labelled place counted step)
    (strict : scan.policy = .error) {start : state} (distinct : (held start).Nodup) :
    ((held start ++ files.map labelled).Nodup →
      (files.foldlM step start).content = .ok (files.foldl place start)) ∧
    (¬(held start ++ files.map labelled).Nodup →
      ∃ fault, (files.foldlM step start).content = .error (.duplicate fault)) := by
  induction files generalizing start with
  | nil =>
      rw [List.map_nil, List.append_nil]
      exact ⟨fun _ => rfl, fun clash => absurd distinct clash⟩
  | cons file rest ih =>
      have here : file ∈ file :: rest := List.mem_cons_self ..
      rw [List.foldlM_cons, List.foldl_cons, List.map_cons,
        Act.content_bind (gathers.fixed start file) fun next _ =>
          Act.fixed_foldlM next fun found other _ => gathers.fixed found other]
      by_cases known : labelled file ∈ held start
      · have twice : ¬(held start ++ labelled file :: rest.map labelled).Nodup := by
          intro nodup
          exact (List.nodup_append.mp nodup).2.2 _ known _ (List.mem_cons_self ..) rfl
        obtain ⟨fault, stops⟩ := gathers.clash strict start file here known
        rw [stops]
        exact ⟨fun nodup => absurd nodup twice, fun _ => ⟨fault, rfl⟩⟩
      · have holds := gathers.holds start file here
        rw [if_neg known] at holds
        have moved : (held (place start file) ++ rest.map labelled).Perm
            (held start ++ labelled file :: rest.map labelled) :=
          (holds.append_right _).trans List.perm_middle.symm
        have later := ih gathers.tail (holds.nodup_iff.mpr (List.nodup_cons.mpr ⟨known, distinct⟩))
        rw [moved.nodup_iff] at later
        rw [(gathers.fresh start file here known).1, ok_bind]
        exact later

private theorem length_held_le (gathers : scan.Gathers files held labelled place counted step) (start : state) :
    (held (files.foldl place start)).length ≤ (held start).length + files.length := by
  induction files generalizing start with
  | nil => exact Nat.le_refl _
  | cons file rest ih =>
      have rest := ih gathers.tail (place start file)
      have size := (gathers.holds start file (List.mem_cons_self ..)).length_eq
      rw [List.foldl_cons, List.length_cons]
      split at size
      · omega
      · rw [List.length_cons] at size
        omega

/-- Where later files may win, everything is placed, and each file whose label was held already is
warned of. -/
theorem lenient (gathers : scan.Gathers files held labelled place counted step)
    (lenient : scan.policy = .warn) (start : state) :
    (files.foldlM step start).content = .ok (files.foldl place start) ∧
      (files.foldlM step start).reports.warnings + (held (files.foldl place start)).length =
        (files.map fun file => (counted file).warnings).sum + (held start).length + files.length := by
  induction files generalizing start with
  | nil => exact ⟨rfl, by simp [Act.reports, Act.outcome_pure]⟩
  | cons file rest ih =>
      have here : file ∈ file :: rest := List.mem_cons_self ..
      have later (next : state) : (rest.foldlM step next).Fixed scan.tree :=
        Act.fixed_foldlM next fun found other _ => gathers.fixed found other
      obtain ⟨content, warnings⟩ := ih gathers.tail (place start file)
      have first : (step start file).content = .ok (place start file) ∧
          (step start file).reports.warnings + (held (place start file)).length =
            (counted file).warnings + (held start).length + 1 := by
        have size := (gathers.holds start file here).length_eq
        by_cases known : labelled file ∈ held start
        · obtain ⟨placed, told⟩ := gathers.tolerated lenient start file here known
          rw [if_pos known] at size
          refine ⟨placed, ?_⟩
          rw [told, size]
          simp only [Diagnostics.add]
          omega
        · obtain ⟨placed, told⟩ := gathers.fresh start file here known
          rw [if_neg known, List.length_cons] at size
          refine ⟨placed, ?_⟩
          rw [told, size]
          omega
      rw [List.foldlM_cons, List.foldl_cons, List.map_cons, List.sum_cons, List.length_cons,
        Act.content_bind (gathers.fixed start file) fun next _ => later next,
        Act.reports_bind (gathers.fixed start file) fun next _ => later next, first.1]
      refine ⟨content, ?_⟩
      simp only [Diagnostics.add]
      omega

end Gathers

end Gathering

/-! ### The two scans -/

def expansion (scan : Scan) (kind : Text) (file : Path) : Act Fields := do
  let fragment ← Fragment.load scan.tree file
  Include.expand scan.tree scan.places (scan.context ++ " " ++ kind ++ " file " ++ file.name.enclosed)
    (some file) fragment

private theorem fixed_expansion (kind : Text) (file : Path) : (scan.expansion kind file).Fixed scan.tree :=
  (Fragment.fixed_load file).bind fun _ _ => Include.fixed_expand _ _ _ _

/-- What a scan keeps of a file: the expanded content with the origin. -/
def stamped (file : Path) (expanded : Fields) : Fields :=
  Entries.put "_origin" (.text file.text) expanded

private theorem document_eq (kind : Text) (file : Path) :
    scan.document kind file = scan.expansion kind file >>= fun expanded => pure (stamped file expanded) := by
  rw [document_eq_load]
  unfold expansion
  rw [bind_assoc]
  rfl

private theorem document_of_expansion {kind : Text} {file : Path} {expanded : Fields}
    (reads : (scan.expansion kind file).content = .ok expanded) :
    (scan.document kind file).content = .ok (stamped file expanded) ∧
      (scan.document kind file).reports = (scan.expansion kind file).reports := by
  have pureFixed (value : Fields) : (pure (stamped file value) : Act Fields).Fixed scan.tree :=
    Act.fixed_pure _
  rw [document_eq, Act.content_bind (fixed_expansion kind file) fun value _ => pureFixed value,
    Act.reports_bind (fixed_expansion kind file) fun value _ => pureFixed value, reads]
  exact ⟨rfl, Diagnostics.add_none _⟩

def spelled (key : Text) (document : Fields) : Text :=
  match Entries.get? key document with
  | some (.text text) => text
  | _ => ∅

def Named (document : Fields) : Prop :=
  ∃ name : Text, name ≠ ∅ ∧ Entries.get? "name" document = some (.text name)

def TextOrAbsent (key : Text) (document : Fields) : Prop :=
  Entries.get? key document = none ∨ ∃ text, Entries.get? key document = some (.text text)

structure NamedOrExtending (document : Fields) : Prop where
  name : TextOrAbsent "name" document
  parent : TextOrAbsent "extends" document
  either : spelled "name" document ≠ ∅ ∨ spelled "extends" document ≠ ∅

def isPatch (document : Fields) : Bool :=
  spelled "name" document = ∅ ∨ spelled "name" document = spelled "extends" document

private theorem get?_stamped {key : Text} (other : key ≠ "_origin") (file : Path) (expanded : Fields) :
    Entries.get? key (stamped file expanded) = Entries.get? key expanded :=
  Entries.get?_put_of_ne other.symm _ _

private theorem itemName_of_named {kind : Text} {file : Path} {expanded : Fields} (named : Named expanded) :
    itemName kind file (stamped file expanded) = .ok (spelled "name" expanded) := by
  obtain ⟨name, given, held⟩ := named
  have truthy : (Value.text name).truthy = true := by
    rw [Value.truthy, Bool.not_eq_true', Bool.eq_false_iff]
    exact fun empty => given (Text.isEmpty_iff.mp empty)
  unfold itemName spelled
  rw [get?_stamped (by decide), held]
  dsimp only
  rw [truthy]
  rfl

/-- Under a key is nothing, the empty text or a proper one. -/
theorem TextOrAbsent.cases {key : Text} {document : Fields} (given : TextOrAbsent key document) :
    spelled key document = ∅ ∧
        (Entries.get? key document = none ∨ Entries.get? key document = some (.text ∅)) ∨
      spelled key document ≠ ∅ ∧ Entries.get? key document = some (.text (spelled key document)) := by
  unfold spelled
  rcases given with absent | ⟨text, held⟩
  · simp [absent]
  · by_cases empty : text = ∅
    · simp [held, empty]
    · simp [held, empty]

/-- The role that a document plays, told by its name and the name that it extends. -/
theorem role_of_namedOrExtending (kind : Text) (file : Path) {expanded : Fields}
    (given : NamedOrExtending expanded) : role kind file (stamped file expanded) =
      .ok (if isPatch expanded then .patches (spelled "extends" expanded)
        else .defines (spelled "name" expanded)) := by
  have either := given.either
  have nothing : (∅ : Text).isEmpty = true := rfl
  have proper {text : Text} (full : text ≠ ∅) : text.isEmpty = false := by
    rw [Bool.eq_false_iff]
    exact fun empty => full (Text.isEmpty_iff.mp empty)
  unfold role isPatch
  rw [get?_stamped (by decide), get?_stamped (by decide)]
  rcases given.name.cases with ⟨unnamed, name⟩ | ⟨named, name⟩
  · rcases given.parent.cases with ⟨alone, parent⟩ | ⟨extending, parent⟩
    · simp [unnamed, alone] at either
    · rcases name with name | name <;>
        simp [name, parent, unnamed, nothing, proper extending, Value.given, Value.truthy]
  · rcases given.parent.cases with ⟨alone, parent⟩ | ⟨extending, parent⟩
    · rcases parent with parent | parent <;>
        simp [name, parent, named, alone, nothing, proper named, Value.given, Value.truthy]
    · simp [name, parent, named, proper named, proper extending, Value.given, Value.truthy]

/-! ### What the scans find -/

variable {kind : Text} {files : List Path} {expanded : Path → Fields}

/-- What a scan of named files keeps: each under its name. -/
def definitions (expanded : Path → Fields) (files : List Path) : List (Text × Fields) :=
  files.map fun file => (spelled "name" (expanded file), stamped file (expanded file))

/-- The patches among the files of an extension: each under the name that it extends. -/
def patches (expanded : Path → Fields) (files : List Path) : List (Text × Fields) :=
  (files.filter fun file => isPatch (expanded file)).map fun file =>
    (spelled "extends" (expanded file), stamped file (expanded file))

/-- A step of a scan that reads a file and then adds what it holds to some items: what it comes to, and the
problems that it counts beyond those of reading. -/
structure AddsTo (scan : Scan) {state : Type} (step : Act state) (counted : Diagnostics)
    (items : Entries Fields) (name : Text) (placed : state) : Prop where
  fresh : name ∉ Entries.keys items → step.content = .ok placed ∧ step.reports = counted
  clash : scan.policy = .error → name ∈ Entries.keys items →
    ∃ fault, step.content = .error (.duplicate fault)
  tolerated : scan.policy = .warn → name ∈ Entries.keys items →
    step.content = .ok placed ∧ step.reports = counted.add { warnings := 1 }

private theorem addsTo {state : Type} {next : Fields → Act state} {file : Path}
    (reads : (scan.expansion kind file).content = .ok (expanded file))
    (fixed : ∀ document, (next document).Fixed scan.tree) {items : Entries Fields} {name : Text}
    (wrap : Entries Fields → state)
    (adds : ∃ context, next (stamped file (expanded file)) =
      scan.add context file items name (stamped file (expanded file)) >>= fun added => pure (wrap added)) :
    scan.AddsTo (scan.document kind file >>= next) (scan.expansion kind file).reports items name
      (wrap (Entries.put name (stamped file (expanded file)) items)) := by
  obtain ⟨context, adds⟩ := adds
  obtain ⟨document, told⟩ := document_of_expansion reads
  have content := Act.content_bind (fixed_document scan kind file) fun value _ => fixed value
  have reports := Act.reports_bind (fixed_document scan kind file) fun value _ => fixed value
  rw [document, ok_bind, adds] at content
  rw [document, told] at reports
  dsimp only at reports
  rw [adds] at reports
  constructor
  · intro fresh
    rw [content, reports, add_fresh fresh, pure_bind]
    exact ⟨rfl, Diagnostics.add_none _⟩
  · intro strict known
    obtain ⟨existing, held⟩ :=
      Option.ne_none_iff_exists'.mp (Entries.get?_eq_none_iff.not_left.mpr known)
    rw [content, add_collides held, strict]
    exact ⟨_, rfl⟩
  · intro lenient known
    obtain ⟨existing, held⟩ :=
      Option.ne_none_iff_exists'.mp (Entries.get?_eq_none_iff.not_left.mpr known)
    rw [content, reports, add_collides held, lenient]
    exact ⟨rfl, rfl⟩

private theorem gathers_items
    (reads : ∀ file ∈ files, (scan.expansion kind file).content = .ok (expanded file))
    (named : ∀ file ∈ files, Named (expanded file)) :
    scan.Gathers files Entries.keys (fun file => spelled "name" (expanded file))
      (fun items file => Entries.put (spelled "name" (expanded file)) (stamped file (expanded file)) items)
      (fun file => (scan.expansion kind file).reports) (scan.addItem kind) := by
  have step (items : Entries Fields) (file : Path) (member : file ∈ files) :
      scan.AddsTo (scan.addItem kind items file) (scan.expansion kind file).reports items
        (spelled "name" (expanded file))
        (Entries.put (spelled "name" (expanded file)) (stamped file (expanded file)) items) := by
    refine addsTo (reads file member) (fun document => ?_) id ?_
    · exact (Act.fixed_lift _).bind fun name _ => fixed_add scan _ file items name document
    · rw [itemName_of_named (named file member)]
      exact ⟨_, (bind_pure _).symm⟩
  exact {
    fixed := fixed_addItem scan kind
    fresh := fun items file member => (step items file member).fresh
    clash := fun strict items file member => (step items file member).clash strict
    tolerated := fun lenient items file member => (step items file member).tolerated lenient
    holds := fun items file _ => Entries.keys_put_perm _ _ items }

def Patchable.roles (found : Patchable) : List Role :=
  (Entries.keys found.items).map .defines ++ (Entries.keys found.patches).map .patches

def roleOf (expanded : Path → Fields) (file : Path) : Role :=
  if isPatch (expanded file) then .patches (spelled "extends" (expanded file))
  else .defines (spelled "name" (expanded file))

def place (expanded : Path → Fields) (found : Patchable) (file : Path) : Patchable :=
  if isPatch (expanded file) then
    { found with
      patches := Entries.put (spelled "extends" (expanded file)) (stamped file (expanded file))
        found.patches }
  else
    { found with
      items := Entries.put (spelled "name" (expanded file)) (stamped file (expanded file)) found.items }

def playRole (scan : Scan) (kind : Text) (found : Patchable) (file : Path) (document : Fields) :
    Act Patchable := do
  let place := scan.context ++ " " ++ kind
  match ← role kind file document with
  | .patches name =>
    let patches ← scan.add (place ++ " patch " ++ name.enclosed) file found.patches name document
    return { found with patches }
  | .defines name =>
    let items ← scan.add (place ++ " " ++ name.enclosed) file found.items name document
    return { found with items }

private theorem fixed_playRole (found : Patchable) (file : Path) (document : Fields) :
    (scan.playRole kind found file document).Fixed scan.tree := by
  refine (Act.fixed_lift _).bind fun role _ => ?_
  cases role with
  | patches name => exact (fixed_add scan _ file _ name document).bind fun _ _ => Act.fixed_pure _
  | defines name => exact (fixed_add scan _ file _ name document).bind fun _ _ => Act.fixed_pure _

private theorem addPatchable_eq (found : Patchable) (file : Path) : scan.addPatchable kind found file =
    scan.document kind file >>= scan.playRole kind found file := rfl

private theorem addsTo_patchable {file : Path}
    (reads : (scan.expansion kind file).content = .ok (expanded file))
    (given : NamedOrExtending (expanded file)) (found : Patchable) :
    ∃ items name, (roleOf expanded file ∈ found.roles ↔ name ∈ Entries.keys items) ∧
      scan.AddsTo (scan.addPatchable kind found file) (scan.expansion kind file).reports items name
        (place expanded found file) := by
  have played := role_of_namedOrExtending kind file given
  rw [addPatchable_eq]
  unfold place roleOf Patchable.roles
  by_cases patch : isPatch (expanded file) = true
  · rw [if_pos patch] at played ⊢
    rw [if_pos patch]
    refine ⟨found.patches, spelled "extends" (expanded file), by simp, ?_⟩
    refine addsTo reads (fixed_playRole found file) (fun patches => { found with patches }) ?_
    unfold playRole
    rw [played]
    exact ⟨_, rfl⟩
  · rw [if_neg patch] at played ⊢
    rw [if_neg patch]
    refine ⟨found.items, spelled "name" (expanded file), by simp, ?_⟩
    refine addsTo reads (fixed_playRole found file) (fun items => { found with items }) ?_
    unfold playRole
    rw [played]
    exact ⟨_, rfl⟩

private theorem roles_place (found : Patchable) (file : Path) : (place expanded found file).roles.Perm
    (if roleOf expanded file ∈ found.roles then found.roles else roleOf expanded file :: found.roles) := by
  unfold place roleOf Patchable.roles
  by_cases patch : isPatch (expanded file) = true
  · rw [if_pos patch, if_pos patch]
    have grown := Entries.keys_put_perm (spelled "extends" (expanded file))
      (stamped file (expanded file)) found.patches
    have whole := ((grown.map Role.patches).append_left ((Entries.keys found.items).map Role.defines))
    by_cases known : spelled "extends" (expanded file) ∈ Entries.keys found.patches
    · rw [if_pos known] at whole
      rwa [if_pos (by simp [known])]
    · rw [if_neg known] at whole
      rw [if_neg (by simp [known])]
      exact whole.trans List.perm_middle
  · rw [if_neg patch, if_neg patch]
    have grown := Entries.keys_put_perm (spelled "name" (expanded file))
      (stamped file (expanded file)) found.items
    have whole := ((grown.map Role.defines).append_right ((Entries.keys found.patches).map Role.patches))
    by_cases known : spelled "name" (expanded file) ∈ Entries.keys found.items
    · rw [if_pos known] at whole
      rwa [if_pos (by simp [known])]
    · rw [if_neg known] at whole
      rwa [if_neg (by simp [known])]

private theorem gathers_patchable
    (reads : ∀ file ∈ files, (scan.expansion kind file).content = .ok (expanded file))
    (given : ∀ file ∈ files, NamedOrExtending (expanded file)) :
    scan.Gathers files Patchable.roles (roleOf expanded) (place expanded)
      (fun file => (scan.expansion kind file).reports) (scan.addPatchable kind) := by
  constructor
  · exact fixed_addPatchable scan kind
  · intro found file member fresh
    obtain ⟨items, name, known, adds⟩ := addsTo_patchable (reads file member) (given file member) found
    exact adds.fresh fun held => fresh (known.mpr held)
  · intro strict found file member held
    obtain ⟨items, name, known, adds⟩ := addsTo_patchable (reads file member) (given file member) found
    exact adds.clash strict (known.mp held)
  · intro lenient found file member held
    obtain ⟨items, name, known, adds⟩ := addsTo_patchable (reads file member) (given file member) found
    exact adds.tolerated lenient (known.mp held)
  · exact fun found file _ => roles_place found file

private theorem foldl_place (start : Patchable) :
    files.foldl (place expanded) start = {
      items := (definitions expanded (files.filter fun file => !isPatch (expanded file))).foldl
        (fun entries pair => Entries.put pair.1 pair.2 entries) start.items
      patches := (patches expanded files).foldl
        (fun entries pair => Entries.put pair.1 pair.2 entries) start.patches } := by
  induction files generalizing start with
  | nil => rfl
  | cons file rest ih =>
      rw [List.foldl_cons, ih]
      unfold place definitions patches
      by_cases patch : isPatch (expanded file) = true
      · simp [patch]
      · simp [patch]

/-- The roles of the files are told apart by the names of the definitions and by those of the patches. -/
theorem nodup_roles : (files.map (roleOf expanded)).Nodup ↔
    (Entries.keys (definitions expanded (files.filter fun file => !isPatch (expanded file)))).Nodup ∧
      (Entries.keys (patches expanded files)).Nodup := by
  have parted : (files.map (roleOf expanded)).Perm
      ((Entries.keys (patches expanded files)).map Role.patches ++
        (Entries.keys (definitions expanded (files.filter fun file => !isPatch (expanded file)))).map
          Role.defines) := by
    have split := (List.filter_append_perm (fun file => isPatch (expanded file)) files).map (roleOf expanded)
    rw [List.map_append] at split
    have patched : (files.filter fun file => isPatch (expanded file)).map (roleOf expanded) =
        (Entries.keys (patches expanded files)).map Role.patches := by
      rw [patches, Entries.keys, List.map_map, List.map_map]
      refine List.map_congr_left fun file member => ?_
      exact if_pos (List.mem_filter.mp member).2
    have defined : (files.filter fun file => !isPatch (expanded file)).map (roleOf expanded) =
        (Entries.keys (definitions expanded (files.filter fun file => !isPatch (expanded file)))).map
          Role.defines := by
      rw [definitions, Entries.keys, List.map_map, List.map_map]
      refine List.map_congr_left fun file member => ?_
      have apart := (List.mem_filter.mp member).2
      rw [Bool.not_eq_true'] at apart
      exact if_neg (Bool.eq_false_iff.mp apart)
    rw [patched, defined] at split
    exact split.symm
  have ofPatches : Function.Injective Role.patches := fun _ _ same => by injection same
  have ofDefines : Function.Injective Role.defines := fun _ _ same => by injection same
  rw [parted.nodup_iff, List.nodup_append, List.nodup_map_iff ofPatches, List.nodup_map_iff ofDefines]
  constructor
  · rintro ⟨patched, defined, -⟩
    exact ⟨defined, patched⟩
  · rintro ⟨defined, patched⟩
    refine ⟨patched, defined, fun first isPatch second isDefinition same => ?_⟩
    obtain ⟨_, _, rfl⟩ := List.mem_map.mp isPatch
    obtain ⟨_, _, rfl⟩ := List.mem_map.mp isDefinition
    cases same

/-! ### Both policies -/

/-- What a scan comes to. Where duplicates are faults, it stops with one if and only if some files collide,
and finds everything otherwise. Where later files win, it never stops, and it counts the warnings given. -/
structure ComesTo (scan : Scan) {found : Type} (act : Act found) (run : Run) (collide : Prop)
    (everything : found) (left : found → Prop) (warnings : Nat) : Prop where
  stops : scan.policy = .error →
    ((∃ fault, (act.outcome run).1 = .error (.duplicate fault)) ↔ collide)
  finds : scan.policy = .error → ¬collide → (act.outcome run).1 = .ok everything
  leaves : scan.policy = .warn → ∃ found, (act.outcome run).1 = .ok found ∧ left found
  warns : scan.policy = .warn →
    (act.outcome run).2.diagnostics.warnings = run.diagnostics.warnings + warnings

/-- What a scan finds and keeps is what its steps place, and it warns of the files beyond the labels. -/
theorem Gathers.comesTo {state label : Type} [DecidableEq label] {held : state → List label}
    {labelled : Path → label} {place : state → Path → state} {counted : Path → Diagnostics}
    {step : state → Path → Act state} (gathers : scan.Gathers files held labelled place counted step)
    {base : Path} (walk : scan.files base kind = .ok files) {run : Run} (faithful : run.Faithful scan.tree)
    (start everything : state) (left : state → Prop) {labels : Nat} (empty : held start = [])
    (whole : (files.map labelled).Nodup → files.foldl place start = everything)
    (merged : left (files.foldl place start)) (size : (held (files.foldl place start)).length = labels) :
    scan.ComesTo ((liftM (scan.files base kind) : Act (List Path)) >>= fun files =>
      files.foldlM step start) run (¬(files.map labelled).Nodup) everything left
      ((files.map fun file => (counted file).warnings).sum + (files.length - labels)) := by
  have fixed : (files.foldlM step start).Fixed scan.tree :=
    Act.fixed_foldlM start fun found file _ => gathers.fixed found file
  obtain ⟨same, continues⟩ := fixed run faithful
  have reduced : ((liftM (scan.files base kind) : Act (List Path)) >>= fun files =>
      files.foldlM step start) = files.foldlM step start := by
    rw [walk]
    rfl
  have strictly (strict : scan.policy = .error) :=
    gathers.strict strict (show (held start).Nodup by rw [empty]; exact List.nodup_nil)
  rw [empty, List.nil_append] at strictly
  rw [reduced]
  constructor
  · intro strict
    obtain ⟨complete, collides⟩ := strictly strict
    rw [same]
    constructor
    · rintro ⟨fault, stopped⟩ distinct
      rw [complete distinct] at stopped
      cases stopped
    · exact collides
  · intro strict distinct
    rw [same, (strictly strict).1 (not_not.mp distinct), whole (not_not.mp distinct)]
  · intro lenient
    rw [same]
    exact ⟨_, (gathers.lenient lenient start).1, merged⟩
  · intro lenient
    have counts := (gathers.lenient lenient start).2
    have bound := gathers.length_held_le start
    rw [continues.counts, Diagnostics.add]
    dsimp only
    rw [empty, List.length_nil, size] at counts bound
    omega

private theorem files_walked (listed : scan.tree.root.Listed) {base : Path}
    (present : scan.tree.isFolder (base.child kind) = true) (walk : scan.files base kind = .ok files) :
    scan.tree.Walk (base.child kind) (fun file => file.name.endsWith ".json") files := by
  obtain ⟨_, _, listing⟩ := bind_eq_ok.mp walk
  rw [← pure_eq_ok.mp listing]
  exact Tree.walk_filesBelow listed present _

/-- The files of a kind, in walking order, that can be read and expanded decide what a scan comes to. A scan
of named files keeps one definition for each file, or the last one of each name. A scan of files that have a
name or extend one keeps the patches apart: those that have no name but the one that they extend. -/
theorem finds_by_policy {base : Path} {w : List Path} (walk : scan.files base kind = .ok w)
    (reads : ∀ file ∈ w, (scan.expansion kind file).content = .ok (expanded file)) {run : Run}
    (faithful : run.Faithful scan.tree) :
    let reading := (w.map fun file => (scan.expansion kind file).reports.warnings).sum
    let names := w.map fun file => spelled "name" (expanded file)
    let items := definitions expanded (w.filter fun file => !isPatch (expanded file))
    let patches := patches expanded w
    (scan.tree.root.Listed → scan.tree.isFolder (base.child kind) = true →
      scan.tree.Walk (base.child kind) (fun file => file.name.endsWith ".json") w) ∧
    ((∀ file ∈ w, Named (expanded file)) →
      scan.ComesTo (scan.items base kind) run (¬names.Nodup) (definitions expanded w)
        (Entries.LastWins (definitions expanded w)) (reading + (w.length - names.eraseDups.length))) ∧
    ((∀ file ∈ w, NamedOrExtending (expanded file)) →
      scan.ComesTo (scan.patchable base kind) run
        (¬((Entries.keys items).Nodup ∧ (Entries.keys patches).Nodup)) { items, patches }
        (fun found => Entries.LastWins items found.items ∧ Entries.LastWins patches found.patches)
        (reading + (w.length -
          ((Entries.keys items).eraseDups.length + (Entries.keys patches).eraseDups.length)))) := by
  intro reading names items patches
  refine ⟨fun listed present => files_walked listed present walk, fun named => ?_, fun given => ?_⟩
  · have keys : Entries.keys (definitions expanded w) = names := by
      rw [definitions, Entries.keys, List.map_map]
      rfl
    have placed : w.foldl (fun items file =>
        Entries.put (spelled "name" (expanded file)) (stamped file (expanded file)) items) [] =
          Entries.ofList (definitions expanded w) := by
      rw [Entries.ofList, definitions, List.foldl_map]
    refine (gathers_items reads named).comesTo walk faithful [] _ _ rfl (fun distinct => ?_) ?_ ?_
    · have apart : (Entries.keys (definitions expanded w)).Nodup := keys ▸ distinct
      rw [placed]
      exact Entries.foldl_put_of_nodup [] apart
    · rw [placed]
      exact Entries.lastWins_ofList _
    · rw [placed, Entries.keys_ofList, keys]
  · have placed : w.foldl (place expanded) { items := [], patches := [] } =
        { items := Entries.ofList items, patches := Entries.ofList patches } := foldl_place _
    rw [← nodup_roles]
    refine (gathers_patchable reads given).comesTo walk faithful _ _ _ rfl (fun distinct => ?_) ?_ ?_
    · obtain ⟨apart, others⟩ := nodup_roles.mp distinct
      rw [placed]
      exact congrArg₂ Patchable.mk (Entries.foldl_put_of_nodup [] apart)
        (Entries.foldl_put_of_nodup [] others)
    · rw [placed]
      exact ⟨Entries.lastWins_ofList _, Entries.lastWins_ofList _⟩
    · rw [placed, Patchable.roles, List.length_append, List.length_map, List.length_map,
        Entries.keys_ofList, Entries.keys_ofList]

/-- A folder of objects where two files define the same one. -/
def twiceTree : Tree :=
  .ofDocuments [
    (["schema", "objects", "device.json"], [("name", .text "device"), ("caption", .text "First")]),
    (["schema", "objects", "more", "host.json"], [("name", .text "device"), ("caption", .text "Second")])]

def twiceScan (policy : DuplicatePolicy) : Scan where
  tree := twiceTree
  places := .schema ("/schema" : Text)
  policy := policy
  context := "base schema"

def twiceFiles : List Path :=
  [("/schema/objects/device.json" : Text), ("/schema/objects/more/host.json" : Text)]

def twiceContent (policy : DuplicatePolicy) (file : Path) : Fields :=
  ((twiceScan policy).expansion "objects" file).content.toOption.getD []

private theorem twice_walk (policy : DuplicatePolicy) :
    (twiceScan policy).files ("/schema" : Text) "objects" = .ok twiceFiles := by
  apply toOption_eq_some.mp
  cases policy <;> decide +kernel

private theorem twice_reads (policy : DuplicatePolicy) : ∀ file ∈ twiceFiles,
    ((twiceScan policy).expansion "objects" file).content = .ok (twiceContent policy file) := by
  have readable : ∀ file ∈ twiceFiles,
      (((twiceScan policy).expansion "objects" file).content.toOption).isSome = true := by
    cases policy <;> decide +kernel
  intro file member
  obtain ⟨content, held⟩ := Option.isSome_iff_exists.mp (readable file member)
  unfold twiceContent
  rw [held]
  exact toOption_eq_some.mp held

/-- The two files collide, or the second one wins with one warning. -/
theorem finds_by_policy_twice :
    (∃ fault, (((twiceScan .error).items ("/schema" : Text) "objects").outcome {}).1 =
      .error (.duplicate fault)) ∧
    ∃ items, (((twiceScan .warn).items ("/schema" : Text) "objects").outcome {}).1 = .ok items ∧
      Entries.keys items = (["device"] : List Text) ∧
      (Entries.get? "device" items).bind (Entries.get? "caption") = some (.text "Second") ∧
      (((twiceScan .warn).items ("/schema" : Text) "objects").outcome {}).2.diagnostics.warnings = 1 := by
  have named (policy : DuplicatePolicy) : ∀ file ∈ twiceFiles, Named (twiceContent policy file) := by
    intro file member
    refine ⟨"device", by decide, ?_⟩
    revert file
    cases policy <;> decide +kernel
  have strict :=
    (finds_by_policy (twice_walk .error) (twice_reads .error) (Run.faithful_start _)).2.1 (named .error)
  have lenient :=
    (finds_by_policy (twice_walk .warn) (twice_reads .warn) (Run.faithful_start _)).2.1 (named .warn)
  obtain ⟨items, found, left⟩ := lenient.leaves rfl
  refine ⟨(strict.stops rfl).mpr (by decide +kernel), items, found, ?_, ?_, ?_⟩
  · rw [left.order]
    decide +kernel
  · rw [left.winner]
    decide +kernel
  · rw [lenient.warns rfl]
    decide +kernel

end Scan
end EventSchema
