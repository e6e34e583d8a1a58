import EventSchema.Proofs.Include.TrimmedTree

/-!
Includes that cannot be read are as if absent.

A name that cannot be read counts one error and gives nothing to merge, at any depth of files. So deleting it
from the directives where it stands changes neither what an expansion comes to nor the exception that it stops
with, and spares the run the errors of the times it was met.
-/

set_option autoImplicit false

namespace EventSchema

open Value

namespace Include

variable {gone : Text → Prop} {tree spared : Tree}

/-! ### What is included -/

/-- The attributes that an included file offers an item whose marks are below the number: those of a profile
tagged with its name. -/
def offer (context : Text) (bound : Nat) (included : Fields) (attributes : Value) : Except Fault Value :=
  let isProfile := match Entries.get? "meta" included with
    | some sort => sort.equals (.text "profile")
    | none => false
  if isProfile then
    match Entries.get? "name" included with
    | none => .error (.definition (.profileWithoutName context))
    | some name => do
      return .record (tag (mark (max bound (boundFields included)) name).1 (← attributes.asFields))
  else .ok attributes

private theorem mergeIncluded_eq (context : Text) (item included : Fields) :
    mergeIncluded context item included =
      match Entries.get? "attributes" (shiftFields (boundFields item) included) with
      | none => do
        warn (.includeWithoutFields context)
        return item
      | some attributes => do
        let offered ← offer context (boundFields item) (shiftFields (boundFields item) included) attributes
        let own ← (Entries.orNull "attributes" item).asFields
        return Entries.put "attributes" (← mergeOwn offered own) item := by
  unfold mergeIncluded
  dsimp only
  generalize shiftFields (boundFields item) included = shifted
  cases Entries.get? "attributes" shifted with
  | none => rfl
  | some attributes =>
      unfold offer
      dsimp only
      cases Entries.get? "meta" shifted with
      | none => rfl
      | some sort =>
          dsimp only
          by_cases profile : sort.equals (.text "profile") = true
          · rw [if_pos profile, if_pos profile]
            cases Entries.get? "name" shifted with
            | none => rfl
            | some name =>
                cases attributes with
                | object own fields => rfl
                | null | bool _ | int _ | float _ | text _ | array _ => rfl
          · rw [if_neg profile, if_neg profile]
            rfl

private theorem single_offer {context : Text} {bound : Nat} {included : Fields} {attributes offered : Value}
    (each : SingleEach attributes.inner) (ran : offer context bound included attributes = .ok offered) :
    SingleEach offered.inner := by
  unfold offer at ran
  dsimp only at ran
  generalize (match Entries.get? "meta" included with
    | some sort => sort.equals (.text "profile")
    | none => false) = isProfile at ran
  split at ran
  · split at ran
    · cases ran
    · obtain ⟨fields, opened, ran⟩ := bind_eq_ok.mp ran
      cases pure_eq_ok.mp ran
      obtain ⟨mark, same⟩ := inner_of_asFields opened
      rw [same] at each
      exact single_tag each
  · cases ran
    exact each

/-- The attributes of an included file are in one place each, whatever marks they are moved to. -/
theorem single_shifted {included : Fields} (document : Document included) (amount : Nat) {attributes : Value}
    (found : Entries.get? "attributes" (shiftFields amount included) = some attributes) :
    SingleEach attributes.inner := by
  rw [get?_shiftFields, Option.map_eq_some_iff] at found
  obtain ⟨before, known, rfl⟩ := found
  exact (document.of_get? known).shift amount

/-! ### Merging -/

/-- An item whose directive is taken out of its attributes is the same but for names inside single ones. -/
abbrev TrimmedInside (gone : Text → Prop) : Fields → Fields → Prop := Within "attributes" (TrimmedEach gone)

theorem TrimmedInside.bound_eq {item kept : Fields} (trimmed : TrimmedInside gone item kept) :
    boundFields item = boundFields kept :=
  Within.bound_eq trimmed fun _ _ related => boundFields_eq related fun _ _ _ cell => cell.bound_eq

/-- The attributes opened: related on both sides, or none on either. -/
theorem TrimmedInside.opened {item kept : Fields} (trimmed : TrimmedInside gone item kept) :
    Concur (TrimmedEach gone) (Entries.orNull "attributes" item).asFields
      (Entries.orNull "attributes" kept).asFields := by
  unfold Entries.orNull Entries.getOr
  rcases trimmed.get? with ⟨same, none⟩ | ⟨mark, inner, other, found, foundKept, related⟩
  · rw [← same]
    cases known : Entries.get? "attributes" item with
    | none => exact .error (.refl _)
    | some value =>
        cases value with
        | object mark fields => exact absurd known (none mark fields)
        | null | bool _ | int _ | float _ | text _ | array _ => exact .error (.refl _)
  · rw [found, foundKept]
    exact .ok related

theorem TrimmedInside.put {item kept : Fields} (trimmed : TrimmedInside gone item kept) {value : Value}
    (each : SingleEach value.inner) :
    TrimmedInside gone (Entries.put "attributes" value item) (Entries.put "attributes" value kept) := by
  cases value with
  | object mark fields => exact Within.put trimmed (trimmedEach_refl each)
  | null | bool _ | int _ | float _ | text _ | array _ =>
      rw [← Within.put_eq trimmed]
      apply Within.apart
      intro mark inner found
      rw [Entries.get?_put_self] at found
      cases found

theorem TrimmedInside.mergeOwn {item kept own other : Fields} (trimmed : TrimmedInside gone item kept)
    {offered : Value} (each : SingleEach offered.inner) (related : TrimmedEach gone own other) :
    Concur (fun joined left => TrimmedInside gone (Entries.put "attributes" joined item)
      (Entries.put "attributes" left kept)) (Include.mergeOwn offered own) (Include.mergeOwn offered other) := by
  have empty : own.isEmpty = other.isEmpty := by
    cases related with
    | nil => rfl
    | cons _ _ => rfl
  unfold Include.mergeOwn
  rw [← empty]
  split
  · exact .ok (trimmed.put each)
  · cases offered with
    | object mark fields =>
        exact .ok (Within.put trimmed ((trimmedEach_refl each).overlay related))
    | null | bool _ | int _ | float _ | text _ | array _ => exact .error (.refl _)

theorem TrimmedInside.mergeIncluded {item kept included : Fields} (trimmed : TrimmedInside gone item kept)
    (document : Document included) (context : Text) :
    (mergeIncluded context item included).Spares tree spared gone (TrimmedInside gone)
      (mergeIncluded context kept included) := by
  rw [mergeIncluded_eq, mergeIncluded_eq, ← trimmed.bound_eq]
  cases found : Entries.get? "attributes" (shiftFields (boundFields item) included) with
  | none => exact (Act.Spares.of_steady (Act.steady_warn rfl)).bind fun _ _ _ => .pure trimmed
  | some attributes =>
      have offers : Concur (fun offered other => offered = other ∧ SingleEach offered.inner)
          (offer context (boundFields item) (shiftFields (boundFields item) included) attributes)
          (offer context (boundFields item) (shiftFields (boundFields item) included) attributes) :=
        .refl fun offered ran => ⟨rfl, single_offer (single_shifted document _ found) ran⟩
      refine (Act.Spares.lift offers).bind fun offered _ same => ?_
      obtain ⟨rfl, each⟩ := same
      refine (Act.Spares.lift trimmed.opened).bind fun own other related => ?_
      exact (Act.Spares.lift (trimmed.mergeOwn each related)).bind fun _ _ joined => .pure joined

/-! ### Files one after another -/

inductive Included : Option Fields → Option Fields → Prop
  | none : Included none none
  | some {included : Fields} (document : Document included) : Included (some included) (some included)

/-- Two readers give the same for each name. Where a name is gone the first one counts an error and gives
nothing. -/
structure Readers (tree spared : Tree) (gone : Text → Prop) (reader other : Reader) : Prop where
  alike : ∀ name context, (reader name context).Spares tree spared gone Included (other name context)
  nothing : ∀ name context, gone name → (reader name context).content = .ok none
  counted : ∀ name context, gone name → (reader name context).reports.Spares gone {}

section Merging

variable {reader other : Reader} (readers : Readers tree spared gone reader other)

include readers

private theorem spares_mergeAll {names kept : List Text} (deletes : Deletes gone names kept) {item left : Fields}
    (trimmed : TrimmedInside gone item left) (context : Text) :
    (mergeAll reader context names item).Spares tree spared gone (TrimmedInside gone)
      (mergeAll other context kept left) := by
  unfold mergeAll
  induction deletes generalizing item left with
  | nil => exact .pure trimmed
  | keep name rest ih =>
      rw [List.foldlM_cons, List.foldlM_cons]
      apply Act.Spares.bind _ fun _ _ merged => ih merged
      refine (readers.alike name context).bind fun included _ same => ?_
      cases same with
      | none => exact .pure trimmed
      | some document => exact trimmed.mergeIncluded document context
  | @drop _ _ name absent rest ih =>
      rw [List.foldlM_cons, bind_assoc]
      exact .skip (readers.alike name context).fixed (readers.nothing name context absent)
        (readers.counted name context absent) (ih trimmed)

private theorem spares_mergeUnder {names kept : List Text} (deletes : Deletes gone names kept) (value : Value)
    (context : Text) : (mergeUnder reader context names value).Spares tree spared gone Eq
      (mergeUnder other context kept value) := by
  unfold mergeUnder
  induction deletes generalizing value with
  | nil => exact .pure rfl
  | keep name rest ih =>
      rw [List.foldlM_cons, List.foldlM_cons]
      apply Act.Spares.bind _ fun merged left (same : merged = left) => same ▸ ih merged
      refine (readers.alike name context).bind fun included _ same => ?_
      cases same with
      | none => exact .pure rfl
      | some document => exact .pure rfl
  | @drop _ _ name absent rest ih =>
      rw [List.foldlM_cons, bind_assoc]
      exact .skip (readers.alike name context).fixed (readers.nothing name context absent)
        (readers.counted name context absent) (ih value)

/-! ### Expanding -/

omit readers in
theorem TrimmedAmong.fileNames {given kept : Value} (trimmed : TrimmedAmong gone given kept) (context : Text) :
    Concur (Deletes gone) (fileNames context given) (fileNames context kept) := by
  cases trimmed with
  | names trimmed =>
      cases trimmed with
      | same => exact .refl fun names _ => .refl names
      | deleted listed deletes =>
          rw [fileNames_of_names? listed, fileNames_of_names? (names?_array _)]
          exact .ok deletes
  | refused shape also =>
      cases given with
      | object _ _ =>
          cases kept with
          | object _ _ => exact .error (.illegal context rfl)
          | null | bool _ | int _ | float _ | text _ | array _ => cases also
      | null | bool _ | int _ | float _ | text _ | array _ => cases shape

private theorem spares_expandAttribute {value kept : Value} (trimmed : TrimmedAttribute gone value kept)
    (context name : Text) : (expandAttribute reader context name value).Spares tree spared gone Eq
      (expandAttribute other context name kept) := by
  cases trimmed with
  | leaf plain =>
      cases value with
      | object _ _ => cases plain
      | null | bool _ | int _ | float _ | text _ | array _ => exact .pure rfl
  | @fields fields left trimmed =>
      have rest := trimmed.erase_eq
      have given := related_get? trimmed directive
      unfold expandAttribute record
      dsimp only
      cases found : Entries.get? directive fields with
      | none =>
          cases foundKept : Entries.get? directive left with
          | none =>
              rw [Entries.erase_of_absent found, Entries.erase_of_absent foundKept] at rest
              exact .pure (by rw [rest])
          | some _ =>
              rw [found, foundKept] at given
              cases given
      | some names =>
          cases foundKept : Entries.get? directive left with
          | none =>
              rw [found, foundKept] at given
              cases given
          | some keptNames =>
              rw [found, foundKept] at given
              cases given with
              | some cell =>
                  rw [if_pos rfl] at cell
                  dsimp only
                  rw [rest]
                  exact (Act.Spares.lift (TrimmedAmong.names cell |>.fileNames _)).bind fun _ _ deletes =>
                    spares_mergeUnder readers deletes _ _

private theorem expandEntries {attributes kept : Fields} (trimmed : TrimmedEach gone attributes kept) (context : Text) :
    List.Forall₂ (fun entry left =>
      (do return (entry.1, ← expandAttribute reader context entry.1 entry.2) : Act (Text × Value)).Spares tree
        spared gone Eq (do return (left.1, ← expandAttribute other context left.1 left.2))) attributes kept := by
  refine List.Forall₂.imp (fun entry left both => ?_) trimmed
  obtain ⟨sameKey, cell⟩ := both
  rw [sameKey]
  refine (spares_expandAttribute readers cell context entry.1).bind fun value result same => ?_
  rw [same]
  exact .pure rfl

private theorem spares_expandWith {item kept : Fields} (trimmed : TrimmedFragment gone item kept) (context : Text) :
    (expandWith reader context item).Spares tree spared gone Eq (expandWith other context kept) := by
  unfold expandWith
  cases trimmed with
  | apart none =>
      split
      · rename_i mark attributes found
        exact absurd found (none mark attributes)
      · exact .pure rfl
  | @inside inner left mark found related =>
      rw [found, Entries.get?_put_self]
      extract_lets finish listed finishKept
      have finished (item kept : Fields) (trimmed : TrimmedInside gone item kept) :
          (finish item).Spares tree spared gone Eq (finishKept kept) := by
        refine (Act.Spares.lift trimmed.opened).bind fun attributes others opened => ?_
        apply Act.Spares.bind (Act.Spares.mapM (expandEntries readers opened context))
        intro expanded results same
        rw [List.forall₂_eq_eq_eq] at same
        rw [same, Within.put_eq trimmed]
        exact .pure rfl
      have given := related_get? related directive
      dsimp only
      generalize absent : Entries.get? directive inner = names, absentKept : Entries.get? directive left = keptNames
        at given
      cases given with
      | none =>
          have each := related.erase
          rw [Entries.erase_of_absent absent, Entries.erase_of_absent absentKept] at each
          exact (Act.Spares.pure (.inside found each)).bind fun _ _ merged => finished _ _ merged
      | some cell =>
          rw [if_pos rfl] at cell
          refine (Act.Spares.lift (cell.fileNames _)).bind fun names others deletes => ?_
          have bare : TrimmedInside gone
              (Entries.put "attributes" (.object mark (Entries.erase directive inner)) item) _ :=
            Within.put (.inside found related) related.erase
          exact (spares_mergeAll readers deletes bare _).bind finished

end Merging

/-! ### Reading -/

/-- Looking for a file counts nothing by itself. -/
theorem reports_find (places : Places) (name : Text) : (find tree places name).reports = {} := by
  have loads (path : Path) : (do return (path, ← Fragment.load tree path) : Act (Path × Fields)).reports = {} := by
    rw [Act.reports_bind (Fragment.fixed_load path) fun _ _ => Act.fixed_pure _, Fragment.reports_load]
    split <;> rfl
  have fixed (path : Path) : (do return (path, ← Fragment.load tree path) : Act (Path × Fields)).Fixed tree :=
    (Fragment.fixed_load path).bind fun _ _ => Act.fixed_pure _
  have resolves (path : Path) : (do
      let path ← tree.resolveNamed path
      return (path, ← Fragment.load tree path) : Act (Path × Fields)).reports = {} := by
    rw [Act.reports_bind (Act.fixed_lift _) fun path _ => fixed path]
    split
    · rw [loads]
      rfl
    · rfl
  unfold find
  rw [Act.reports_bind (Act.fixed_lift _) fun path _ => (Act.fixed_lift _).bind fun path _ => fixed path]
  split
  · rw [resolves]
    rfl
  · rfl

private theorem spares_find (trimmed : tree.Trimmed gone spared) (places : Places) (name : Text) :
    (find tree places name).Spares tree spared gone
      (fun file other => file.1 = other.1 ∧ TrimmedFragment gone file.2 other.2) (find spared places name) where
  fixed := fixed_find places name
  otherFixed := fixed_find places name
  ends := trimmed_find trimmed places name
  reports := by
    rw [reports_find, reports_find]
    exact .refl {}

/-- Both codes of a path, as it is given and made absolute, can be given to the file system. -/
def Nameable (tree : Tree) (path : Path) : Prop :=
  path.nameFault? = none ∧ (tree.resolve path).nameFault? = none

/-- Why no file can be read under a name that an item includes: it is looked for in vain, there is no file at
its path, the file holds no object, or annotations that are none. -/
inductive Unreadable (tree : Tree) (places : Places) (name : Text) : Prop
  | lost {fault : Fault} (search : places.find tree name = .error fault) (tolerated : isTolerated fault = true)
  | absent {path : Path} {fault : LookupFault} (search : places.find tree name = .ok path)
      (nameable : Nameable tree path) (found : tree.node? (tree.resolve path) = .error fault)
  | folder {path : Path} {entries : List (Text × Node)} (search : places.find tree name = .ok path)
      (nameable : Nameable tree path) (found : tree.node? (tree.resolve path) = .ok (.folder entries))
  | illegible {path : Path} {bytes : List UInt8} {fault : DocumentFault}
      (search : places.find tree name = .ok path) (nameable : Nameable tree path)
      (found : tree.node? (tree.resolve path) = .ok (.file bytes))
      (spelled : Fragment.parse (tree.resolve path) bytes = .error (.document fault))
  | misannotated {path : Path} {bytes : List UInt8} {document : Fields} {fault : DocumentFault}
      (search : places.find tree name = .ok path) (nameable : Nameable tree path)
      (found : tree.node? (tree.resolve path) = .ok (.file bytes))
      (spelled : Fragment.parse (tree.resolve path) bytes = .ok document)
      (annotated : Fragment.annotate (some (tree.resolve path)) document = .error (.document fault))

section Causes

variable {places : Places} {name : Text} {path : Path} (search : places.find tree name = .ok path)

include search

private theorem content_find_of_search : (find tree places name).content =
    Tree.checkName path >>= fun _ => Tree.checkName (tree.resolve path) >>= fun _ =>
      (tree.resolve path, ·) <$> Fragment.ofFile tree (tree.resolve path) := by
  have resolves (path : Path) : tree.resolveNamed path = Tree.checkName path >>= fun _ => .ok (tree.resolve path) :=
    rfl
  rw [content_find, search]
  dsimp only [bind, Except.bind]
  rw [resolves]
  cases Tree.checkName path with
  | error fault => rfl
  | ok _ =>
      dsimp only [bind, Except.bind]
      rw [Fragment.content_load, resolves, Tree.resolve_resolve]
      cases Tree.checkName (tree.resolve path) with
      | error fault => rfl
      | ok _ => rfl

/-- What is looked for at a path that can be named is what the file there holds. -/
theorem content_find_of_nameable (nameable : Nameable tree path) :
    (find tree places name).content = (tree.resolve path, ·) <$>
      (match tree.node? (tree.resolve path) with
        | .ok (.file bytes) => Fragment.parse (tree.resolve path) bytes >>= Fragment.annotate (some (tree.resolve path))
        | .ok (.folder _) => .error (.file (.isFolder (tree.resolve path)))
        | .error .missing => .error (.file (.missing (tree.resolve path)))
        | .error .notFolder => .error (.file (.notFolder (tree.resolve path)))) := by
  have named {path : Path} (plain : path.nameFault? = none) : Tree.checkName path = .ok () := by
    unfold Tree.checkName
    rw [plain]
  rw [content_find_of_search search, named nameable.1, named nameable.2, ofFile_eq]
  unfold Tree.content
  rw [named nameable.2]
  dsimp only [bind, Except.bind]
  cases tree.node? (tree.resolve path) with
  | ok node => cases node <;> rfl
  | error fault => cases fault <;> rfl

/-- A path that cannot be named stops the search with a misuse. -/
theorem nameable_of_tolerated {fault : Fault} (failed : (find tree places name).content = .error fault)
    (tolerated : isTolerated fault = true) : Nameable tree path := by
  have named {path : Path} {next : Except Fault (Path × Fields)}
      (failed : (Tree.checkName path >>= fun _ => next) = .error fault) :
      path.nameFault? = none ∧ next = .error fault := by
    unfold Tree.checkName at failed
    cases given : path.nameFault? with
    | none =>
        rw [given] at failed
        exact ⟨rfl, failed⟩
    | some reason =>
        rw [given] at failed
        cases failed
        cases tolerated
  rw [content_find_of_search search] at failed
  obtain ⟨given, rest⟩ := named failed
  exact ⟨given, (named rest).1⟩

end Causes

private theorem document_of_parse {path : Path} {bytes : List UInt8} {fault : Fault}
    (failed : Fragment.parse path bytes = .error fault) (tolerated : isTolerated fault = true) :
    ∃ reason, fault = .document reason := by
  unfold Fragment.parse at failed
  split at failed
  · cases failed
    exact ⟨_, rfl⟩
  · split at failed
    · cases failed
      exact ⟨_, rfl⟩
    · cases failed
      cases tolerated
    · cases failed
    · cases failed
      exact ⟨_, rfl⟩

private theorem document_of_annotate {file : Option Path} {document : Fields} {fault : Fault}
    (failed : Fragment.annotate file document = .error fault) : ∃ reason, fault = .document reason := by
  unfold Fragment.annotate at failed
  dsimp only at failed
  split at failed
  · cases failed
  · split at failed
    · split at failed
      · split at failed <;> cases failed
      · cases failed
        exact ⟨_, rfl⟩
    · cases failed

/-- Those are the names whose reading ends in a fault that is tolerated. -/
theorem unreadable_iff {places : Places} {name : Text} : Unreadable tree places name ↔
    ∃ fault, (find tree places name).content = .error fault ∧ isTolerated fault = true := by
  constructor
  · intro unreadable
    cases unreadable with
    | lost search tolerated =>
        rw [content_find, search]
        exact ⟨_, rfl, tolerated⟩
    | @absent path fault search nameable found =>
        rw [content_find_of_nameable search nameable, found]
        cases fault with
        | missing | notFolder => exact ⟨_, rfl, rfl⟩
    | folder search nameable found =>
        rw [content_find_of_nameable search nameable, found]
        exact ⟨_, rfl, rfl⟩
    | illegible search nameable found spelled =>
        rw [content_find_of_nameable search nameable, found]
        dsimp only
        rw [spelled]
        exact ⟨_, rfl, rfl⟩
    | misannotated search nameable found spelled annotated =>
        rw [content_find_of_nameable search nameable, found]
        dsimp only
        rw [spelled]
        dsimp only [bind, Except.bind]
        rw [annotated]
        exact ⟨_, rfl, rfl⟩
  · rintro ⟨fault, failed, tolerated⟩
    cases search : places.find tree name with
    | error stopped =>
        rw [content_find, search] at failed
        cases failed
        exact .lost search tolerated
    | ok path =>
        have nameable := nameable_of_tolerated search failed tolerated
        rw [content_find_of_nameable search nameable] at failed
        cases found : tree.node? (tree.resolve path) with
        | error reason => exact .absent search nameable found
        | ok node =>
            cases node with
            | folder entries => exact .folder search nameable found
            | file bytes =>
                rw [found] at failed
                dsimp only at failed
                cases spelled : Fragment.parse (tree.resolve path) bytes with
                | error wrong =>
                    rw [spelled] at failed
                    cases failed
                    obtain ⟨reason, rfl⟩ := document_of_parse spelled tolerated
                    exact .illegible search nameable found spelled
                | ok document =>
                    rw [spelled] at failed
                    dsimp only [bind, Except.bind] at failed
                    cases annotated : Fragment.annotate (some (tree.resolve path)) document with
                    | ok fragment =>
                        rw [annotated] at failed
                        cases failed
                    | error wrong =>
                        rw [annotated] at failed
                        cases failed
                        obtain ⟨reason, rfl⟩ := document_of_annotate annotated
                        exact .misannotated search nameable found spelled annotated

section Reading

variable {places : Places} {name : Text} {fault : Fault} (failed : (find tree places name).content = .error fault)
  (tolerated : isTolerated fault = true) (stack : List Path) (context : Text)

include failed tolerated

private theorem content_read_of_fault : (read tree places stack name context).content = .ok none := by
  rw [content_read, failed]
  exact if_pos tolerated

private theorem reports_read_of_fault : (read tree places stack name context).reports =
    { errors := 1, unresolved := [.notIncluded context name fault] } := by
  have quiet : (find tree places name).reports = {} := reports_find places name
  unfold Act.content at failed
  rw [Include.read]
  unfold Act.reports at quiet ⊢
  rw [Act.outcome_bind, Act.outcome_attempt]
  dsimp only
  rw [failed]
  dsimp only
  rw [if_pos tolerated]
  generalize ((find tree places name).outcome {}).2 = run at quiet ⊢
  obtain ⟨diagnostics, notices, cache⟩ := run
  cases quiet
  rfl

end Reading

variable {places : Places} (trimmed : tree.Trimmed gone spared)
  (unreadable : ∀ name, gone name → Unreadable tree places name)

include unreadable

private theorem readers_read {stack : List Path} (alike : ∀ name context,
    (read tree places stack name context).Spares tree spared gone Included (read spared places stack name context)) :
    Readers tree spared gone (read tree places stack) (read spared places stack) where
  alike := alike
  nothing name context absent := by
    obtain ⟨fault, failed, tolerated⟩ := unreadable_iff.mp (unreadable name absent)
    exact content_read_of_fault failed tolerated stack context
  counted name context absent := by
    obtain ⟨fault, failed, tolerated⟩ := unreadable_iff.mp (unreadable name absent)
    rw [reports_read_of_fault failed tolerated]
    exact ⟨rfl, 1, rfl, .drop context fault absent .nil⟩

include trimmed

/-- A file is read alike at every depth: each one entered leaves fewer to enter. -/
theorem spares_read (stack : List Path) (name context : Text) :
    (read tree places stack name context).Spares tree spared gone Included
      (read spared places stack name context) := by
  rw [Include.read, Include.read]
  have file : (find tree places name).Spares tree spared gone _ (find spared places name) :=
    (spares_find trimmed places name).holding fun _ ran => document_find ran
  refine file.attempt.bind fun outcome other concur => ?_
  cases concur with
  | error alike =>
      cases alike with
      | refl =>
          dsimp only
          split
          · exact (Act.Spares.of_steady (Act.steady_leaveUnresolved _)).bind fun _ _ _ => .pure .none
          · exact .throw _ (.refl _)
      | illegal context sameType => exact .throw _ (.illegal context sameType)
  | @ok found foundKept related =>
      obtain ⟨path, fragment⟩ := found
      obtain ⟨other, kept⟩ := foundKept
      obtain ⟨⟨same, fragments⟩, document⟩ := related
      dsimp only at same fragments document ⊢
      rw [← same, ← trimmed.candidates_eq]
      split
      · exact .throw _ (.refl _)
      · rename_i fresh
        split
        · rename_i present
          have deeper := readers_read unreadable (spares_read (stack ++ [path]))
          refine (Act.Spares.of_steady (Act.steady_note rfl)).bind fun _ _ _ => ?_
          have expanded := (spares_expandWith deeper fragments ("include " ++ name.enclosed)).holding fun _ ran =>
            document_expandWith (fixed_read places _) (document_read places _) document ran
          refine expanded.bind fun included left both => ?_
          obtain ⟨rfl, whole⟩ := both
          exact .pure (.some whole)
        · exact .throw _ (.refl _)
termination_by ((candidates tree).filter (· ∉ stack)).length
decreasing_by exact remaining_lt (by assumption) (by assumption)

private theorem spares_expand {item kept : Fields} (same : TrimmedItem gone item kept) (context : Text)
    (origin : Option Path) : (expand tree places context origin item).Spares tree spared gone Eq
      (expand spared places context origin kept) := by
  have expands (stack : List Path) : (expandWith (read tree places stack) context item).Spares tree spared gone Eq
      (expandWith (read spared places stack) context kept) :=
    spares_expandWith (readers_read unreadable (spares_read trimmed unreadable stack)) same.fragment context
  rw [expand_eq, expand_eq]
  cases origin with
  | none => exact (Act.Spares.pure rfl).bind fun stack _ same => same ▸ expands stack
  | some file =>
      have resolves : Concur Eq (tree.resolveNamed file) (spared.resolveNamed file) :=
        trimmed.resolveNamed_eq file ▸ .refl fun _ _ => rfl
      refine (Act.Spares.lift resolves).bind fun path _ same => ?_
      rw [← same]
      exact (Act.Spares.pure rfl).bind fun stack _ same => same ▸ expands stack

/-- An include that cannot be read is as if absent: deleting such names from the directives where they stand,
of the item and of the files, leaves the result and the exception as they are. The errors that are counted
and the unresolved references that are listed are more by one for each time that such a name is read. -/
theorem expand_as_if_absent {item kept : Fields} (same : TrimmedItem gone item kept) (context : Text)
    (origin : Option Path) {run other : Run} (faithful : run.Faithful tree) (otherFaithful : other.Faithful spared) :
    Concur Eq ((expand tree places context origin item).outcome run).1
        ((expand spared places context origin kept).outcome other).1 ∧
      (∃ more fewer : Diagnostics, more.Spares gone fewer ∧
        ((expand tree places context origin item).outcome run).2.diagnostics = run.diagnostics.add more ∧
        ((expand spared places context origin kept).outcome other).2.diagnostics = other.diagnostics.add fewer) ∧
      ∀ name, gone name → ∀ stack context, ∃ cause, isTolerated cause = true ∧
        ((read tree places stack name context).outcome run).1 = .ok none ∧
        ((read tree places stack name context).outcome run).2.diagnostics =
          run.diagnostics.add { errors := 1, unresolved := [.notIncluded context name cause] } := by
  have spares := spares_expand trimmed unreadable same context origin
  obtain ⟨ends, continues⟩ := spares.fixed run faithful
  obtain ⟨otherEnds, otherContinues⟩ := spares.otherFixed other otherFaithful
  refine ⟨?_, ⟨_, _, spares.reports, continues.counts, otherContinues.counts⟩, fun name absent stack context => ?_⟩
  · rw [ends, otherEnds]
    exact spares.ends
  · obtain ⟨cause, failed, tolerated⟩ := unreadable_iff.mp (unreadable name absent)
    obtain ⟨result, counts⟩ := fixed_read places stack name context run faithful
    refine ⟨cause, tolerated, result.trans (content_read_of_fault failed tolerated stack context), ?_⟩
    rw [counts.counts, reports_read_of_fault failed tolerated]

omit trimmed unreadable

/-! ### A name met at two depths -/

def lostName : Text := "missing.json"

def includingInside (names : Value) : Fields := [("attributes", .record [("y", .record [(directive, names)])])]

def includingTree (names : Value) : Tree where
  root := .folder [("a.json", .spelling (includingInside names))]
  directory := []

def includingTwice (among inside : Value) : Fields :=
  [("attributes", .record [(directive, among), ("x", .record [(directive, inside)])])]

/-- Names that are deleted from a list but for the given ones. -/
theorem trimmed_lost (names : List Text) : TrimmedNames (· = lostName) (.array ((names ++ [lostName]).map .text))
    (.array (names.map .text)) := by
  refine .deleted (names?_array _) ?_
  induction names with
  | nil => exact .drop rfl .nil
  | cons name rest ih => exact ih.keep name

/-- A lone name that is deleted leaves the empty list. -/
theorem trimmed_lone : TrimmedNames (· = lostName) (.text lostName) (.array []) := by
  have listed : names? (.text lostName) = some [lostName] := rfl
  have deletes : Deletes (· = lostName) [lostName] [] := .drop rfl .nil
  exact .deleted listed deletes

private theorem trimmed_directive {given kept : Value} (trimmed : TrimmedNames gone given kept) :
    TrimmedAttribute gone (.record [(directive, given)]) (.record [(directive, kept)]) :=
  .fields (.cons ⟨rfl, (if_pos rfl).mpr trimmed⟩ .nil)

private theorem trimmed_includingInside : TrimmedDocument (· = lostName) (includingInside (.text lostName))
    (includingInside (.array [])) := by
  refine ⟨includingInside (.array []), ?_, .apart fun mark inner found => ?_⟩
  · exact .inside rfl (.cons ⟨rfl, (if_neg (by decide)).mpr (trimmed_directive trimmed_lone)⟩ .nil)
  · cases found

private theorem parse_includingInside : (Fragment.parse ⟨.top, []⟩ (Utf8.encode (Json.write .line
    (.record (includingInside (.text lostName)))))) = .ok (includingInside (.text lostName)) :=
  toOption_eq_some.mp (by decide +kernel)

private theorem parse_includingInside_nothing : (Fragment.parse ⟨.top, []⟩ (Utf8.encode (Json.write .line
    (.record (includingInside (.array [])))))) = .ok (includingInside (.array [])) :=
  toOption_eq_some.mp (by decide +kernel)

private theorem trimmed_includingTree :
    (includingTree (.text lostName)).Trimmed (· = lostName) (includingTree (.array [])) where
  root := .folder (.cons "a.json" (.file (Fragment.parse_elsewhere parse_includingInside)
    (Fragment.parse_elsewhere parse_includingInside_nothing) trimmed_includingInside) .nil)
  directory := rfl

private theorem trimmed_includingTwice : TrimmedItem (· = lostName)
    (includingTwice (.array [.text "a.json", .text lostName]) (.text lostName))
    (includingTwice (.array [.text "a.json"]) (.array [])) := by
  exact .inside rfl (.cons ⟨rfl, (if_pos rfl).mpr (trimmed_lost ["a.json"])⟩
    (.cons ⟨rfl, (if_neg (by decide)).mpr (trimmed_directive trimmed_lone)⟩ .nil))

private theorem unreadable_lost : Unreadable (includingTree (.text lostName)) (.schema ("/" : Text)) lostName := by
  have search : (Places.schema ("/" : Text)).find (includingTree (.text lostName)) lostName =
      .ok ⟨.top, [lostName]⟩ := rfl
  have found : (includingTree (.text lostName)).node? ((includingTree (.text lostName)).resolve ⟨.top, [lostName]⟩) =
      .error .missing := rfl
  exact .absent search ⟨by decide +kernel, by decide +kernel⟩ found

def expandTwice : Except Fault Fields × Run :=
  (expand (includingTree (.text lostName)) (.schema ("/" : Text)) "test" none
    (includingTwice (.array [.text "a.json", .text lostName]) (.text lostName))).outcome {}

def expandOnce : Except Fault Fields × Run :=
  (expand (includingTree (.array [])) (.schema ("/" : Text)) "test" none
    (includingTwice (.array [.text "a.json"]) (.array []))).outcome {}

/-- The name is met in the item, inside its attribute, and in the file that the item includes. -/
theorem expand_as_if_absent_twice : Concur Eq expandTwice.1 expandOnce.1 ∧
    expandTwice.1.toOption = some ([("attributes", .record [("y", .record []), ("x", .record [])])] : Fields) ∧
    expandTwice.2.diagnostics.errors = 3 ∧ expandOnce.2.diagnostics.errors = 0 ∧
    expandTwice.2.diagnostics.Spares (· = lostName) expandOnce.2.diagnostics := by
  have gone : ∀ name, name = lostName → Unreadable (includingTree (.text lostName)) (.schema ("/" : Text)) name := by
    rintro name rfl
    exact unreadable_lost
  obtain ⟨ends, ⟨more, fewer, spares, counted, otherCounted⟩, _⟩ := expand_as_if_absent trimmed_includingTree gone
    trimmed_includingTwice "test" none (Run.faithful_start _) (Run.faithful_start _)
  rw [Diagnostics.none_add] at counted otherCounted
  refine ⟨ends, by decide +kernel, by decide +kernel, by decide +kernel, ?_⟩
  unfold expandTwice expandOnce
  rw [counted, otherCounted]
  exact spares

/-! ### A name that no bytes can be written for -/

def halfPairName : Text := ⟨0xd800 :: Text.codes ".json"⟩

def emptyTree : Tree where
  root := .folder []
  directory := []

def includingAmong (names : List Value) : Fields := [("attributes", .record [(directive, .array names)])]

private theorem unwritable_of_match {computation : Except Fault Fields}
    (stopped : (match computation with
      | .error (.misuse .unwritable) => true
      | _ => false) = true) : computation = .error (.misuse .unwritable) := by
  split at stopped
  · rfl
  · cases stopped

/-- The name has no zero code and there is no file under it, yet it stops the expansion that succeeds
without it. -/
theorem expand_stops_at_half_pair : 0 ∉ halfPairName.codes ∧
    emptyTree.node? (Path.child ("/" : Text) halfPairName) = .error .missing ∧
    ((expand emptyTree (.schema ("/" : Text)) "test" none (includingAmong [.text halfPairName])).outcome {}).1 =
      .error (.misuse .unwritable) ∧
    ((expand emptyTree (.schema ("/" : Text)) "test" none (includingAmong [])).outcome {}).1 =
      .ok [("attributes", .record [])] :=
  ⟨by decide, rfl, unwritable_of_match (by decide +kernel), toOption_eq_some.mp (by decide +kernel)⟩

end Include

end EventSchema
