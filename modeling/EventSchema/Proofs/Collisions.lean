import EventSchema.Proofs.Discovery
import EventSchema.Proofs.Homes
import EventSchema.Proofs.Range.Compilation
import Mathlib.Data.List.Pairwise

/-!
Extensions of a compilation that collide.

A compilation locates the extensions of the schema itself and those of the given paths, each folder once. If two
of the folders have a name or a uid in common, it ends there with the collision; otherwise no collision ends it,
and the extensions of its graph are those of the folders.
-/

set_option autoImplicit false

namespace EventSchema

namespace Extension

variable {tree : Tree} {extensions : List Extension}

/-! ### Folders that collide -/

/-- Two folders whose manifests give the same name or the same uid. -/
def Collide (tree : Tree) (first later : Path) : Prop :=
  first ≠ later ∧ ∃ name uid other number, Identified tree first name uid ∧ Identified tree later other number ∧
    (name = other ∨ uid = number)

structure Lists (tree : Tree) (located : Path → Prop) (extensions : List Extension) : Prop where
  mem : ∀ folder, folder ∈ extensions.map path ↔ located folder
  once : (extensions.map path).Nodup
  named : ∀ e ∈ extensions, Identified tree e.path e.name e.uid

theorem Discovers.lists {home : Path} {paths : List Path} {isPlatform : Bool} {version : Value}
    (discovers : Discovers tree home paths isPlatform version extensions) :
    Lists tree (fun folder => ∃ path ∈ paths, Leads tree home path folder) extensions where
  mem := discovers.mem
  once := discovers.once
  named _ member := discovers.named member

theorem Lists.addLocated {some others : Path → Prop} {known located : List Extension}
    (before : Lists tree some known) (own : Lists tree others located) :
    Lists tree (fun folder => some folder ∨ others folder) (Compilation.addLocated known located) := by
  have added : Compilation.addLocated known located =
      known ++ located.filter fun e => !(known.any fun other => other.path = e.path) :=
    foldl_unless_known path known own.once
  have fresh {e : Extension} : e ∈ (located.filter fun e => !(known.any fun other => other.path = e.path)) ↔
      e ∈ located ∧ e.path ∉ known.map path := by
    rw [List.mem_filter, Bool.not_eq_true', List.any_eq_false, List.mem_map]
    simp
  rw [added]
  constructor
  · intro folder
    rw [List.map_append, List.mem_append, before.mem]
    constructor
    · rintro (known | new)
      · exact .inl known
      · obtain ⟨e, member, rfl⟩ := List.mem_map.mp new
        exact .inr ((own.mem _).mp (List.mem_map_of_mem (fresh.mp member).1))
    · rintro (known | other)
      · exact .inl known
      · by_cases known : some folder
        · exact .inl known
        · obtain ⟨e, member, rfl⟩ := List.mem_map.mp ((own.mem folder).mpr other)
          exact .inr (List.mem_map_of_mem (fresh.mpr ⟨member, fun listed => known ((before.mem _).mp listed)⟩))
  · rw [List.map_append, List.nodup_append]
    refine ⟨before.once, own.once.sublist (List.filter_sublist.map _), ?_⟩
    rintro folder listed other new rfl
    obtain ⟨e, member, rfl⟩ := List.mem_map.mp new
    exact (fresh.mp member).2 listed
  · intro e member
    rcases List.mem_append.mp member with known | new
    · exact before.named e known
    · exact own.named e (fresh.mp new).1

instance : Std.Symm Apart := ⟨fun _ _ held => ⟨held.1.symm, held.2.symm⟩⟩

private theorem Lists.pairwise_apart_iff {located : Path → Prop} (lists : Lists tree located extensions) :
    extensions.Pairwise Apart ↔ ∀ first later, located first → located later → ¬Collide tree first later := by
  constructor
  · rintro apart first later inFirst inLater ⟨different, name, uid, other, number, one, two, common⟩
    obtain ⟨e, member, rfl⟩ := List.mem_map.mp ((lists.mem first).mpr inFirst)
    obtain ⟨e', member', rfl⟩ := List.mem_map.mp ((lists.mem later).mpr inLater)
    obtain ⟨uids, names⟩ := apart.forall member member' fun same => different (congrArg path same)
    obtain ⟨rfl, rfl⟩ := one.unique (lists.named e member)
    obtain ⟨rfl, rfl⟩ := two.unique (lists.named e' member')
    exact common.elim names uids
  · intro clear
    refine (List.pairwise_map.mp lists.once).imp_of_mem fun {first later} here there different => ?_
    have collides (common : first.name = later.name ∨ first.uid = later.uid) : False :=
      clear first.path later.path ((lists.mem _).mp (List.mem_map_of_mem here))
        ((lists.mem _).mp (List.mem_map_of_mem there))
        ⟨different, _, _, _, _, lists.named first here, lists.named later there, common⟩
    exact ⟨fun same => collides (.inr same), fun same => collides (.inl same)⟩

end Extension

/-! ### Compilations -/

/-- The folders that a compilation locates: those of the schema itself, unless they are left out, and those that
the given paths lead to. -/
def Settings.Located (s : Settings) (tree : Tree) (folder : Path) : Prop :=
  (s.ignorePlatform = false ∧ tree.isFolder s.platformFolder = true ∧
    Extension.Leads tree s.schema s.platformFolder folder) ∨
  ∃ path ∈ s.extensionPaths, Extension.Leads tree s.schema path folder

structure Settings.ReadsRoot (s : Settings) (tree : Tree) : Prop where
  schema : tree.isFolder s.schema = true
  version : ∃ version, (s.compilation tree).version.content = .ok version
  categories : ∃ categories, ((s.compilation tree).requiredDocument "categories.json").content = .ok categories
  dictionary : ∃ dictionary, ((s.compilation tree).requiredDocument "dictionary.json").content = .ok dictionary

namespace Compilation

open Extension (Lists Discovers legible Leads Identified chosen)

variable {tree : Tree} {s : Settings} {version : Value} {extensions : List Extension}

private theorem lists_of_locatePlatform (listed : tree.root.Listed)
    (ran : ((s.compilation tree).locatePlatform version).Yields extensions) :
    Lists tree (fun folder => s.ignorePlatform = false ∧ tree.isFolder s.platformFolder = true ∧
      Leads tree s.schema s.platformFolder folder) extensions := by
  unfold locatePlatform at ran
  extract_lets settings at ran
  split at ran
  · rename_i asked
    obtain ⟨own, present⟩ := Bool.and_eq_true_iff.mp asked
    obtain ⟨mem, once, named⟩ := (Extension.discovers_of_locate listed ran).lists
    refine ⟨fun folder => (mem folder).trans ?_, once, named⟩
    constructor
    · rintro ⟨path, member, leads⟩
      cases List.mem_singleton.mp member
      exact ⟨(Bool.not_eq_true' _).mp own, present, leads⟩
    · rintro ⟨_, _, leads⟩
      exact ⟨_, List.mem_singleton_self _, leads⟩
  · rename_i unasked
    cases Act.yields_pure.mp ran
    refine ⟨fun folder => ⟨fun impossible => absurd impossible List.not_mem_nil, ?_⟩, List.nodup_nil,
      List.forall_mem_nil _⟩
    rintro ⟨own, present, _⟩
    exact absurd (Bool.and_eq_true_iff.mpr ⟨(Bool.not_eq_true' _).mpr own, present⟩) unasked

private theorem lists_of_locate (listed : tree.root.Listed) {platform given : List Extension}
    (own : ((s.compilation tree).locatePlatform version).Yields platform)
    (others : (Extension.locate tree s.schema s.extensionPaths false version).Yields given) :
    Lists tree (s.Located tree) (addLocated platform given) :=
  (lists_of_locatePlatform listed own).addLocated (Extension.discovers_of_locate listed others).lists

/-- The folder of the schema's own extensions stands for itself. -/
theorem nameable_platformFolder (present : tree.isFolder s.platformFolder = true) :
    (chosen tree s.schema s.platformFolder).nameFault? = none := by
  obtain ⟨entries, named⟩ := Tree.isFolder_iff.mp present
  have here : tree.present s.platformFolder = true := by rw [Tree.present, named, Option.isSome_some]
  rw [chosen, if_pos here]
  exact Tree.nameable_of_named? named

private theorem ensures_locatePlatform (listed : tree.root.Listed) (clear : legible tree.root = true)
    (valid : ∀ folder, s.Located tree folder → ∃ name uid, Identified tree folder name uid) (version : Value) :
    ((s.compilation tree).locatePlatform version).Ensures fun _ => True := by
  unfold locatePlatform
  extract_lets settings
  split
  · rename_i asked
    obtain ⟨own, present⟩ := Bool.and_eq_true_iff.mp asked
    refine (Extension.ensures_locate true version listed clear ?_ ?_).imp fun _ _ => trivial
    · exact List.forall_mem_singleton.mpr (nameable_platformFolder present)
    · refine List.forall_mem_singleton.mpr fun folder leads => valid folder (.inl ⟨?_, present, leads⟩)
      exact (Bool.not_eq_true' _).mp own
  · exact Act.ensures_pure trivial

/-- The extensions that are located are compared, and nothing else ends the step. -/
theorem content_locateExtensions (listed : tree.root.Listed) (clear : legible tree.root = true)
    (nameable : ∀ path ∈ s.extensionPaths, (chosen tree s.schema path).nameFault? = none)
    (valid : ∀ folder, s.Located tree folder → ∃ name uid, Identified tree folder name uid) (version : Value) :
    ∃ extensions, Lists tree (s.Located tree) extensions ∧
      ((s.compilation tree).locateExtensions version).content =
        Extension.validate extensions >>= fun _ => .ok extensions := by
  obtain ⟨platform, middle, own, _⟩ := ensures_locatePlatform listed clear valid version {}
  obtain ⟨given, after, others, _⟩ := Extension.ensures_locate false version listed clear nameable
    (fun path member folder leads => valid folder (.inr ⟨path, member, leads⟩)) middle
  refine ⟨addLocated platform given, lists_of_locate listed (.of_outcome own) (.of_outcome others), ?_⟩
  rw [locateExtensions_eq, Act.content, Act.outcome_bind_of_ok own]
  dsimp only [Settings.compilation]
  rw [Act.outcome_bind_of_ok others, Act.outcome_bind, Act.outcome_lift]
  cases Extension.validate (addLocated platform given) with
  | ok => rfl
  | error fault => rfl

theorem found_eq (read : s.ReadsRoot tree) (listed : tree.root.Listed) (clear : legible tree.root = true)
    (nameable : ∀ path ∈ s.extensionPaths, (chosen tree s.schema path).nameFault? = none)
    (valid : ∀ folder, s.Located tree folder → ∃ name uid, Identified tree folder name uid) :
    ∃ extensions, Lists tree (s.Located tree) extensions ∧
      (s.compilation tree).found = Extension.validate extensions >>= fun _ => .ok extensions := by
  obtain ⟨version, naming⟩ := read.version
  obtain ⟨extensions, lists, content⟩ := content_locateExtensions listed clear nameable valid version
  exact ⟨extensions, lists, by rw [found, naming, ok_bind, content]⟩

/-! ### Where a compilation ends -/

/-- A fault where the extensions are located ends the build. -/
theorem outcome_build_of_found (read : s.ReadsRoot tree) {fault : Fault}
    (failed : (s.compilation tree).found = .error fault) {run : Run} (faithful : run.Faithful tree) :
    ((s.compilation tree).build.outcome run).1 = .error fault := by
  obtain ⟨version, naming⟩ := read.version
  obtain ⟨categories, readCategories⟩ := read.categories
  obtain ⟨dictionary, readDictionary⟩ := read.dictionary
  obtain ⟨opened, named, faithful⟩ := (s.compilation tree).fixed_version.exists_step faithful naming
  obtain ⟨opened, categorized, faithful⟩ :=
    ((s.compilation tree).fixed_requiredDocument _).exists_step faithful readCategories
  obtain ⟨opened, worded, faithful⟩ :=
    ((s.compilation tree).fixed_requiredDocument _).exists_step faithful readDictionary
  rw [found, naming, ok_bind, ← ((s.compilation tree).fixed_locateExtensions version opened faithful).1] at failed
  unfold build
  rw [Act.outcome_bind_of_ok named, Act.outcome_bind_of_ok categorized, Act.outcome_bind_of_ok worded,
    Act.outcome_bind_of_error (Prod.ext failed rfl)]

private theorem ensures_openCache : openCache.Ensures fun _ => True := by
  have asked : (get : Act Run).Ensures fun _ => True := fun run => ⟨run, run, rfl, trivial⟩
  unfold openCache
  refine asked.bind fun run _ => ?_
  extract_lets emptied
  have ends : (emptied ()).Ensures fun _ => True := fun run => ⟨(), _, rfl, trivial⟩
  split
  · exact (Act.ensures_note _).bind fun _ _ => ends
  · exact ends

/-- A fault ends an action with something to be done in the end, too. -/
theorem outcome_finally_of_error {act : Act Graph} {run : Run} {fault : Fault}
    (failed : (act.outcome run).1 = .error fault) : ((act.finally clearCache).outcome run).1 = .error fault := by
  unfold Act.finally
  rw [Act.outcome_bind_of_ok (Act.outcome_attempt act run), failed]
  rfl

private theorem outcome_run_of_found (read : s.ReadsRoot tree) {fault : Fault}
    (failed : (s.compilation tree).found = .error fault) (run : Run) :
    ((s.compilation tree).run.outcome run).1 = .error fault := by
  unfold Compilation.run
  extract_lets opened started
  have opens (run : Run) : ((opened ()).outcome run).1 = .error fault := by
    obtain ⟨_, empty, opening, _⟩ := ensures_openCache run
    have emptied := (tells_of_openCache opening).2
    have faithful : empty.Faithful tree := fun path fragment found => by rw [emptied] at found; cases found
    have built := outcome_finally_of_error (outcome_build_of_found read failed faithful)
    unfold opened
    rw [Act.outcome_bind_of_ok opening, Act.outcome_bind_of_error (Prod.ext built rfl)]
  have starts : ((started ()).outcome run).1 = .error fault := by
    unfold started
    rw [Act.outcome_bind_of_ok (Act.outcome_note rfl run)]
    have present : ¬(!(s.compilation tree).tree.isFolder (s.compilation tree).settings.schema) = true := by
      rw [Bool.not_eq_true', Bool.not_eq_false]
      exact read.schema
    rw [if_neg present]
    exact opens _
  exact starts

end Compilation

namespace Settings

open Extension (Lists legible Identified Collide chosen)

variable {tree : Tree} {s : Settings}

private theorem ensures_announce (s : Settings) : s.announce.Ensures fun _ => True := by
  unfold announce
  refine (Act.ensures_note _).bind fun _ _ => (Act.ensures_note _).bind fun _ _ => ?_
  extract_lets last
  have ends : (last ()).Ensures fun _ => True := by
    unfold last
    split
    · exact Act.ensures_note _
    · exact Act.ensures_pure trivial
  split
  · exact (Act.ensures_note _).bind fun _ _ => ends
  · exact ends

private theorem outcome_compile_of_found (read : s.ReadsRoot tree) {fault : Fault}
    (failed : (s.compilation tree).found = .error fault) (run : Run) :
    ((s.compile tree).outcome run).1 = .error fault := by
  obtain ⟨_, announced, announcing, _⟩ := s.ensures_announce run
  unfold compile
  rw [Act.outcome_bind_of_ok announcing]
  exact Compilation.outcome_run_of_found read failed announced

private theorem compile_collides_iff (read : s.ReadsRoot tree) (listed : tree.root.Listed)
    (clear : legible tree.root = true)
    (nameable : ∀ path ∈ s.extensionPaths, (chosen tree s.schema path).nameFault? = none)
    (valid : ∀ folder, s.Located tree folder → ∃ name uid, Identified tree folder name uid) (run : Run) :
    (∃ cause, ((s.compile tree).outcome run).1 = .error (.integrity cause) ∧ cause.isCollision = true) ↔
      ∃ first later, s.Located tree first ∧ s.Located tree later ∧ Collide tree first later := by
  obtain ⟨extensions, lists, found⟩ := Compilation.found_eq read listed clear nameable valid
  have apart := lists.pairwise_apart_iff
  constructor
  · rintro ⟨cause, ended, collides⟩
    have failed : (s.compilation tree).found = .error (.integrity cause) :=
      s.confined_compile tree run _ ended collides
    by_contra clear
    have parted := apart.mpr fun first later inFirst inLater collide => clear ⟨first, later, inFirst, inLater, collide⟩
    have valid := Extension.validateAfter_ok_iff.mpr ⟨fun _ _ => List.forall_mem_nil _, parted⟩
    rw [found, Extension.validate, valid] at failed
    cases failed
  · rintro ⟨first, later, inFirst, inLater, collide⟩
    cases valid : Extension.validate extensions with
    | ok => exact absurd collide (apart.mp (Extension.validateAfter_ok_iff.mp valid).2 first later inFirst inLater)
    | error fault =>
        obtain ⟨cause, rfl, collides⟩ := Extension.collision_of_validate valid
        rw [valid] at found
        exact ⟨cause, outcome_compile_of_found read found run, collides⟩

end Settings

/-! ### The extensions of a graph -/

private theorem Draft.extensions_ofDefinitions {d : Definitions} {draft : Draft} (ran : ofDefinitions d = .ok draft) :
    draft.extensions = d.extensions := by
  unfold ofDefinitions at ran
  obtain ⟨_, _, ran⟩ := bind_eq_ok.mp ran
  obtain ⟨⟨fields, attributes⟩, _, ran⟩ := bind_eq_ok.mp ran
  obtain ⟨based, _, ran⟩ := bind_eq_ok.mp ran
  dsimp only at ran
  split at ran
  · cases ran
  · obtain ⟨_, _, ran⟩ := bind_eq_ok.mp ran
    obtain ⟨_, _, ran⟩ := bind_eq_ok.mp ran
    obtain ⟨_, _, ran⟩ := bind_eq_ok.mp ran
    rw [← pure_eq_ok.mp ran]

private theorem Draft.extensions_graph {draft : Draft} {graph : Graph} (ran : draft.graph = .ok graph) :
    graph.extensions = Entries.ofList (draft.extensions.map fun e => (e.name, e)) := by
  unfold Draft.graph at ran
  obtain ⟨_, _, ran⟩ := bind_eq_ok.mp ran
  obtain ⟨_, _, ran⟩ := bind_eq_ok.mp ran
  obtain ⟨_, _, ran⟩ := bind_eq_ok.mp ran
  obtain ⟨_, _, ran⟩ := bind_eq_ok.mp ran
  obtain ⟨_, _, ran⟩ := bind_eq_ok.mp ran
  obtain ⟨_, _, ran⟩ := bind_eq_ok.mp ran
  obtain ⟨_, _, ran⟩ := bind_eq_ok.mp ran
  rw [← pure_eq_ok.mp ran]

private theorem Stages.extensions_eq {d : Definitions} {graph : Graph} (stages : Stages d graph) :
    graph.extensions = Entries.ofList (d.extensions.map fun e => (e.name, e)) := by
  obtain ⟨_, _, _, dated⟩ := stages.dated_eq
  obtain ⟨_, _, _, required, _⟩ := Draft.requireAll_ok stages.requiring
  obtain ⟨_, _, _, finished, _⟩ := Draft.finish_ok stages.finishing
  have kept : stages.finished.extensions = stages.start.extensions := by
    rw [finished, required, dated]
    rfl
  rw [Draft.extensions_graph stages.reading, kept, Draft.extensions_ofDefinitions stages.starting]

private theorem Settings.extensions_of_compile {s : Settings} {tree : Tree} {graph : Graph} (listed : tree.root.Listed)
    (compiled : (s.compile tree).Yields graph) :
    Extension.Lists tree (s.Located tree) (Entries.values graph.extensions) ∧
      (Entries.values graph.extensions).Pairwise Extension.Apart := by
  obtain ⟨steps⟩ := exists_steps compiled
  obtain ⟨platform, given, own, others, same, apart⟩ :=
    Compilation.locateExtensions_ok (Act.settles_of_content tree steps.locating).yields
  have lists := Compilation.lists_of_locate listed own others
  obtain ⟨stages⟩ := exists_stages steps.building
  have defined : steps.definitions.extensions = steps.extensions := by
    have ran := steps.defining
    unfold Compilation.Sources.definitions at ran
    obtain ⟨_, _, ran⟩ := Act.yields_bind ran
    obtain ⟨_, _, ran⟩ := Act.yields_bind ran
    rw [← Act.yields_pure.mp ran]
  have values : Entries.values graph.extensions = steps.extensions := by
    have distinct : (Entries.keys (steps.extensions.map fun e => (e.name, e))).Nodup := by
      rw [Entries.keys, List.map_map]
      exact List.pairwise_map.mpr (apart.imp And.right)
    have kept : Entries.ofList (steps.extensions.map fun e => (e.name, e)) =
        steps.extensions.map fun e => (e.name, e) := Entries.foldl_put_of_nodup [] distinct
    rw [stages.extensions_eq, defined, kept, Entries.values, List.map_map]
    exact List.map_id _
  rw [values]
  exact ⟨same ▸ lists, apart⟩

/-! ### Discovery is exact -/

namespace Extension

open Compilation (lists_of_locate)

/-- The folders that given paths lead to are found, each once and no others, in the order of discovery. The
extensions of a graph are those of the folders that its compilation locates, and they differ in folder, name and
uid. A compilation that has read the files it cannot do without ends with a collision of extensions if two of
the folders that it locates have a name or a uid in common, and not otherwise. -/
theorem discovery_exact {tree : Tree} (listed : tree.root.Listed) :
    (legible tree.root = true → ∀ home paths isPlatform version,
      (∀ path ∈ paths, (chosen tree home path).nameFault? = none) →
      (∀ path ∈ paths, ∀ folder, Leads tree home path folder → ∃ name uid, Identified tree folder name uid) →
      (locate tree home paths isPlatform version).Ensures (Discovers tree home paths isPlatform version)) ∧
    (∀ (s : Settings) graph, (s.compile tree).Yields graph →
      (∀ folder, folder ∈ (Entries.values graph.extensions).map path ↔ s.Located tree folder) ∧
      ((Entries.values graph.extensions).map path).Nodup ∧
      ((Entries.values graph.extensions).map name).Nodup ∧
      ((Entries.values graph.extensions).map uid).Nodup) ∧
    (legible tree.root = true → ∀ s : Settings, s.ReadsRoot tree →
      (∀ path ∈ s.extensionPaths, (chosen tree s.schema path).nameFault? = none) →
      (∀ folder, s.Located tree folder → ∃ name uid, Identified tree folder name uid) →
      ∀ run, (∃ cause, ((s.compile tree).outcome run).1 = .error (.integrity cause) ∧ cause.isCollision = true) ↔
        ∃ first later, s.Located tree first ∧ s.Located tree later ∧ Collide tree first later) := by
  refine ⟨fun clear home paths isPlatform version nameable valid => ?_, fun s graph compiled => ?_,
    fun clear s read nameable valid run => ?_⟩
  · exact ensures_locate isPlatform version listed clear nameable valid
  · obtain ⟨lists, apart⟩ := Settings.extensions_of_compile listed compiled
    exact ⟨lists.mem, lists.once, List.pairwise_map.mpr (apart.imp And.right),
      List.pairwise_map.mpr (apart.imp And.left)⟩
  · exact Settings.compile_collides_iff read listed clear nameable valid run

/-! ### Two folders of one name -/

def twinTree : Tree := .ofDocuments [
  (["schema", "categories.json"], [("attributes", .record [])]),
  (["schema", "dictionary.json"], [("attributes", .record [])]),
  (["schema", "events", "base_event.json"], [("name", .text "base_event")]),
  (["schema", "extensions", "linux", "extension.json"], [("name", .text "linux"), ("uid", .int 1)]),
  (["corp", "inner", "version.json"], [("name", .text "corp"), ("uid", .int 7)]),
  (["corp", "inner", "below", "extension.json"], [("name", .text "hidden"), ("uid", .int 9)]),
  (["twin", "version.json"], [("version", .text "2.0.0")]),
  (["twin", "extension.json"], [("name", .text "corp"), ("uid", .int 8)])]

/-- The same folder twice, and a manifest. -/
def twinPaths : List Path :=
  [("/corp" : Text), ("/twin/../corp/inner/version.json" : Text), ("twin/extension.json" : Text)]

def withTwins : Settings where
  schema := ("/schema" : Text)
  extensionPaths := twinPaths

/-- The folder of an extension of the schema itself is given, too. -/
def withoutTwin : Settings where
  schema := ("/schema" : Text)
  extensionPaths := [("/corp" : Text), ("extensions/linux" : Text)]

def twinFolders : List (Path × Text × Int) := [(("/corp/inner" : Text), "corp", 7), (("/twin" : Text), "corp", 8)]

/-- What the schema itself and the paths without the twin lead to. -/
def knownFolders : List (Path × Text × Int) :=
  [(("/schema/extensions/linux" : Text), "linux", 1), (("/corp/inner" : Text), "corp", 7)]

def identity (e : Extension) : Path × Text × Int := (e.path, e.name, e.uid)

private theorem listed_twinTree : twinTree.root.Listed := by decide +kernel

private theorem legible_twinTree : legible twinTree.root = true := by decide +kernel

/-- What extensions are discovered, seen by their folders, names and uids, tells what the paths lead to. -/
theorem Discovers.known {tree : Tree} {home : Path} {paths : List Path} {isPlatform : Bool} {version : Value}
    {extensions : List Extension} (discovers : Discovers tree home paths isPlatform version extensions)
    {seen : List (Path × Text × Int)} (same : extensions.map identity = seen) :
    ∀ entry ∈ seen, (∃ path ∈ paths, Leads tree home path entry.1) ∧ Identified tree entry.1 entry.2.1 entry.2.2 := by
  subst same
  intro entry member
  obtain ⟨e, among, rfl⟩ := List.mem_map.mp member
  exact ⟨(discovers.mem _).mp (List.mem_map_of_mem among), discovers.named among⟩

theorem Lists.valid {tree : Tree} {located : Path → Prop} {extensions : List Extension}
    (lists : Lists tree located extensions) (folder : Path) (found : located folder) :
    ∃ name uid, Identified tree folder name uid := by
  obtain ⟨e, member, rfl⟩ := List.mem_map.mp ((lists.mem folder).mpr found)
  exact ⟨e.name, e.uid, lists.named e member⟩

private theorem readsRoot_withTwins : withTwins.ReadsRoot twinTree where
  schema := by decide +kernel
  version := ⟨.text "0.0.0", toOption_eq_some.mp (by decide +kernel)⟩
  categories := ⟨[("attributes", .record [])], toOption_eq_some.mp (by decide +kernel)⟩
  dictionary := ⟨[("attributes", .record [])], toOption_eq_some.mp (by decide +kernel)⟩

/-- Two paths lead to one folder, which is found once, and the folder below it is none of an extension. A folder
of the same name ends the compilation. -/
theorem discovery_exact_twins :
    (∃ extensions after,
      (locate twinTree ("/schema" : Text) twinPaths false .null).outcome {} = (.ok extensions, after) ∧
      Discovers twinTree ("/schema" : Text) twinPaths false .null extensions ∧
      extensions.map identity = twinFolders) ∧
    (∃ graph, (withoutTwin.compile twinTree).Yields graph ∧
      (Entries.values graph.extensions).map identity = knownFolders ∧
      ((Entries.values graph.extensions).map path).Nodup) ∧
    ∃ cause, ((withTwins.compile twinTree).outcome {}).1 = .error (.integrity cause) ∧ cause.isCollision = true := by
  obtain ⟨locates, graphs, collides⟩ := discovery_exact listed_twinTree
  have located : ((locate twinTree ("/schema" : Text) twinPaths false .null).outcome {}).1.toOption.map
      (fun extensions => extensions.map identity) = some twinFolders := by
    decide +kernel
  have platform : (((withTwins.compilation twinTree).locatePlatform .null).outcome {}).1.toOption.map
      (fun extensions => extensions.map identity) = some (knownFolders.take 1) := by
    decide +kernel
  have compiled : ((withoutTwin.compile twinTree).outcome {}).1.toOption.map
      (fun graph => (Entries.values graph.extensions).map identity) = some knownFolders := by
    decide +kernel
  obtain ⟨given, yields, seen⟩ := Act.exists_of_outcome located
  obtain ⟨own, yieldsOwn, _⟩ := Act.exists_of_outcome platform
  have discovers := discovers_of_locate listed_twinTree yields
  have lists : Lists twinTree (withTwins.Located twinTree) (Compilation.addLocated own given) :=
    lists_of_locate listed_twinTree yieldsOwn yields
  refine ⟨?_, ?_, ?_⟩
  · have valid : ∀ path ∈ twinPaths, ∀ folder, Leads twinTree ("/schema" : Text) path folder →
        ∃ name uid, Identified twinTree folder name uid :=
      fun path member folder leads => discovers.lists.valid folder ⟨path, member, leads⟩
    obtain ⟨extensions, after, ran, exact⟩ :=
      locates legible_twinTree _ twinPaths false .null (by decide +kernel) valid {}
    refine ⟨extensions, after, ran, exact, ?_⟩
    rw [ran] at located
    exact Option.some.inj located
  · obtain ⟨graph, yields, seen⟩ := Act.exists_of_outcome compiled
    exact ⟨graph, yields, seen, (graphs withoutTwin graph yields).2.1⟩
  · have known := discovers.known seen
    obtain ⟨inner, one⟩ := known (("/corp/inner" : Text), "corp", 7) (by decide)
    obtain ⟨twin, two⟩ := known (("/twin" : Text), "corp", 8) (by decide)
    exact (collides legible_twinTree withTwins readsRoot_withTwins (by decide +kernel) lists.valid {}).mpr
      ⟨_, _, .inr inner, .inr twin, by decide, _, _, _, _, one, two, .inl rfl⟩

/-! ### A path that cannot be named -/

def zeroPath : Path := ⟨.here, [⟨[0x6e, 0, 0x6f]⟩]⟩

private theorem content_of_match {α : Type} {computation : Except Fault α}
    (stopped : (match computation with
      | .error (.misuse .content) => true
      | _ => false) = true) : computation = .error (.misuse .content) := by
  split at stopped
  · rfl
  · cases stopped

/-- A path that cannot be named leads nowhere, but it is not passed over: it ends the discovery of the folder that
another path leads to. -/
theorem locate_stops_at_zero_code :
    twinTree.root.Listed ∧ Leads twinTree ("/schema" : Text) ("/twin" : Text) ("/twin" : Text) ∧
      (∀ path ∈ ([("/twin" : Text), zeroPath] : List Path), ∀ folder,
        Leads twinTree ("/schema" : Text) path folder → ∃ name uid, Identified twinTree folder name uid) ∧
      ((locate twinTree ("/schema" : Text) [("/twin" : Text), zeroPath] false .null).outcome {}).1 =
        .error (.misuse .content) := by
  have located : ((locate twinTree ("/schema" : Text) [("/twin" : Text)] false .null).outcome {}).1.toOption.map
      (fun extensions => extensions.map identity) = some (twinFolders.drop 1) := by
    decide +kernel
  obtain ⟨given, yields, seen⟩ := Act.exists_of_outcome located
  have discovers := discovers_of_locate listed_twinTree yields
  obtain ⟨⟨path, member, leads⟩, _⟩ := discovers.known seen (("/twin" : Text), "corp", 8) (by decide)
  cases List.mem_singleton.mp member
  have noFile : twinTree.isFile (candidate twinTree ("/schema" : Text) zeroPath) = false := by decide +kernel
  have noFolder : twinTree.isFolder (candidate twinTree ("/schema" : Text) zeroPath) = false := by decide +kernel
  refine ⟨listed_twinTree, leads, ?_, content_of_match (by decide +kernel)⟩
  refine List.forall_mem_cons.mpr ⟨fun folder leads => ?_, List.forall_mem_singleton.mpr fun folder leads => ?_⟩
  · exact discovers.lists.valid folder ⟨_, List.mem_singleton_self _, leads⟩
  · cases leads with
    | file present => rw [noFile] at present; cases present
    | folder present => rw [noFolder] at present; cases present

end Extension

end EventSchema
