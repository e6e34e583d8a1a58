import EventSchema.Proofs.Include.Circles
import EventSchema.Proofs.Include.Unrolled
import Mathlib.Logic.Relation

/-!
Circles of included files.

The files that an expansion may come to are the places of a graph, with a way from a place to each file that
a directive of it lists. The expansion keeps the files that it is in, and stops when it comes to one of them
again; it may come to a file as often as it likes otherwise. So where all files can be read and merged, it
stops exactly if a circle can be reached: every file that it is in leads to the place where it is, and where
a circle can be reached, one of the next files leads to it.
-/

set_option autoImplicit false

namespace EventSchema.Include

open Relation

/-- An item to be expanded, as a file at `origin` if one is given, and where its files are. -/
structure Inclusion where
  tree : Tree
  places : Places
  origin : Option Path
  item : Fields

namespace Inclusion

variable {i : Inclusion}

/-- Where the item is: at its resolved origin, or at a place of its own. All other places are resolved paths
of files. -/
def start (i : Inclusion) : Option Path := i.origin.map i.tree.resolve

/-- What is at a place: the item at the start, and the fragment of the file elsewhere. -/
def content (i : Inclusion) (place : Option Path) : Option Fields :=
  if place = i.start then some i.item
  else place.bind fun path => (Fragment.ofFile i.tree path).toOption

/-- A directive of what is at the place lists a name under which the file at the other one is found. -/
def Way (i : Inclusion) (place next : Option Path) : Prop :=
  ∃ fields, i.content place = some fields ∧ ∃ name ∈ namesIncluded fields, ∃ path fragment,
    (find i.tree i.places name).content = .ok (path, fragment) ∧ next = some path

def Reaches (i : Inclusion) (place : Option Path) : Prop := ReflTransGen i.Way i.start place

def LeadsRound (i : Inclusion) (place : Option Path) : Prop :=
  ∃ repeated, ReflTransGen i.Way place repeated ∧ TransGen i.Way repeated repeated

/-- A circle can be reached from the item. -/
def Cyclic (i : Inclusion) : Prop := i.LeadsRound i.start

/-- The item is a document, its origin can be named, every directive that can be reached lists names of files
that can be read, and each of these may be included. -/
structure WellFormed (i : Inclusion) : Prop where
  named : ∀ file ∈ i.origin, Tree.checkName file = .ok ()
  document : Document i.item
  legible : ∀ place fields, i.Reaches place → i.content place = some fields → Legible i.tree i.places fields
  mergeable : ∀ place fields, i.Reaches place → place ≠ i.start → i.content place = some fields → Mergeable fields

/-! ### The graph -/

private theorem content_start (i : Inclusion) : i.content i.start = some i.item := if_pos rfl

private theorem content_of_find {entries : List (Text × Node)} (rooted : i.tree.root = .folder entries) {name : Text}
    {path : Path} {fragment : Fields} (found : (find i.tree i.places name).content = .ok (path, fragment))
    (apart : some path ≠ i.start) : i.content (some path) = some fragment := by
  rw [content, if_neg apart, Option.bind_some, (find_ok rooted found).2]
  rfl

theorem LeadsRound.next {place : Option Path} (leads : i.LeadsRound place) :
    ∃ next, i.Way place next ∧ i.LeadsRound next := by
  obtain ⟨repeated, reaches, circle⟩ := leads
  rcases ReflTransGen.cases_head reaches with rfl | ⟨next, way, rest⟩
  · obtain ⟨next, way, rest⟩ := TransGen.head'_iff.mp circle
    exact ⟨next, way, _, rest, circle⟩
  · exact ⟨next, way, repeated, rest, circle⟩

theorem LeadsRound.of_way {place next : Option Path} (way : i.Way place next) (leads : i.LeadsRound next) :
    i.LeadsRound place := by
  obtain ⟨repeated, reaches, circle⟩ := leads
  exact ⟨repeated, .head way reaches, circle⟩

/-! ### Reading along the graph -/

/-- What an expansion makes of a file that may be included may be included. -/
theorem mergeable_expandWith {tree : Tree} {reader : Reader}
    (fixed : ∀ name context, (reader name context).Fixed tree) {context : Text} {fragment expanded : Fields}
    (mergeable : Mergeable fragment) (ran : (expandWith reader context fragment).content = .ok expanded) :
    Mergeable expanded := by
  have frame {field : Text} (other : field ≠ "attributes") := expandWith_frame fixed other ran
  refine ⟨fun value found => ?_, ?_, fun profile => ?_⟩
  · rcases expandWith_ok fixed ran with ⟨rfl, _⟩ | ⟨_, _, _, _, _, each⟩
    · exact mergeable.shape value found
    · obtain ⟨_, results, _, _, rfl⟩ := expandEach_ok each
      rw [Entries.get?_put_self, Option.some.injEq] at found
      exact found ▸ rfl
  · rw [frame (by decide)]
    exact mergeable.bare
  · rw [frame (by decide)] at profile ⊢
    exact mergeable.named profile

section Reading

variable {entries : List (Text × Node)} (rooted : i.tree.root = .folder entries) (wellFormed : i.WellFormed)
include rooted wellFormed

/-- A listed file runs into a circle if one can be reached from it, and can be included otherwise. The
induction is on the files that are not being expanded: each one entered leaves fewer. Every file that is
being expanded leads to the place. -/
theorem circles_or_includes {place : Option Path} {fields : Fields} (reaches : i.Reaches place)
    (here : i.content place = some fields) (stack : List Path) (started : ∀ path, i.start = some path → path ∈ stack)
    (above : ∀ path ∈ stack, ReflTransGen i.Way (some path) place) {name : Text}
    (listed : name ∈ namesIncluded fields) {path : Path} {fragment : Fields}
    (found : (find i.tree i.places name).content = .ok (path, fragment)) :
    (i.LeadsRound (some path) → Circles (read i.tree i.places stack) name) ∧
      (¬i.LeadsRound (some path) → Includes (read i.tree i.places stack) name) := by
  have way : i.Way place (some path) := ⟨fields, here, name, listed, path, fragment, found, rfl⟩
  by_cases entered : path ∈ stack
  · have circle : TransGen i.Way (some path) (some path) := .tail' (above path entered) way
    refine ⟨fun _ context => ?_, fun safe => absurd ⟨some path, .refl, circle⟩ safe⟩
    rw [content_read, found]
    dsimp only
    rw [if_pos entered]
    exact ⟨context, stack ++ [path], rfl⟩
  · have apart : some path ≠ i.start := fun same => entered (started path same.symm)
    have present := (find_ok rooted found).1
    have reached : i.Reaches (some path) := reaches.tail way
    have inside := content_of_find rooted found apart
    have document : Document fragment := document_find found
    have legible := wellFormed.legible _ _ reached inside
    have fixed : ∀ name context, (read i.tree i.places (stack ++ [path]) name context).Fixed i.tree :=
      fixed_read i.places (stack ++ [path])
    have reads (context : Text) := content_read_of_find rooted found entered context
    have deeper {other : Text} (listed : other ∈ namesIncluded fragment) {path' : Path} {fragment' : Fields}
        (found : (find i.tree i.places other).content = .ok (path', fragment')) :=
      circles_or_includes reached inside (stack ++ [path])
        (fun start same => List.mem_append_left _ (started start same)) (fun earlier member => by
          rcases List.mem_append.mp member with before | last
          · exact (above earlier before).tail way
          · exact List.mem_singleton.mp last ▸ .refl) listed found
    constructor
    · intro leads context
      obtain ⟨_, ⟨_, same, other, listed, path', fragment', found', rfl⟩, leads'⟩ := leads.next
      cases inside.symm.trans same
      have circular := expandWith_circles fixed document legible.directed (fun other listed => by
        obtain ⟨path', fragment', found'⟩ := legible.readable other listed
        by_cases leads : i.LeadsRound (some path')
        · exact .inr ((deeper listed found').1 leads)
        · exact .inl ((deeper listed found').2 leads)) ⟨other, listed, (deeper listed found').1 leads'⟩
          ("include " ++ name.enclosed)
      rw [reads]
      exact circular.map some
    · intro safe context
      obtain ⟨expanded, ran, settled⟩ := expandWith_includes fixed document legible.directed (fun other listed => by
        obtain ⟨path', fragment', found'⟩ := legible.readable other listed
        exact (deeper listed found').2 fun leads => safe (leads.of_way
          ⟨fragment, inside, other, listed, path', fragment', found', rfl⟩)) ("include " ++ name.enclosed)
      refine ⟨expanded, by rw [reads, ran]; rfl, ?_, ?_, settled⟩
      · exact mergeable_expandWith fixed (wellFormed.mergeable _ _ reached apart inside) ran
      · exact document_expandWith fixed (document_read i.places (stack ++ [path])) document ran
termination_by ((candidates i.tree).filter (· ∉ stack)).length
decreasing_by exact remaining_lt present entered

/-- The item itself runs into a circle if one can be reached, and is expanded otherwise. -/
theorem content_expandWith_start (context : Text) :
    (i.Cyclic → Circular (expandWith (read i.tree i.places i.start.toList) context i.item).content) ∧
      (¬i.Cyclic → ∃ expanded,
        (expandWith (read i.tree i.places i.start.toList) context i.item).content = .ok expanded) := by
  have legible := wellFormed.legible _ _ .refl i.content_start
  have fixed : ∀ name context, (read i.tree i.places i.start.toList name context).Fixed i.tree :=
    fixed_read i.places i.start.toList
  have each {name : Text} (listed : name ∈ namesIncluded i.item) {path : Path} {fragment : Fields}
      (found : (find i.tree i.places name).content = .ok (path, fragment)) :=
    circles_or_includes rooted wellFormed .refl i.content_start i.start.toList
      (fun path same => Option.mem_toList.mpr same)
      (fun path member => (Option.mem_toList.mp member : i.start = some path) ▸ .refl) listed found
  constructor
  · intro cyclic
    obtain ⟨_, ⟨_, same, name, listed, path, fragment, found, rfl⟩, leads⟩ := LeadsRound.next cyclic
    cases i.content_start.symm.trans same
    refine expandWith_circles fixed wellFormed.document legible.directed (fun other listed => ?_)
      ⟨name, listed, (each listed found).1 leads⟩ context
    obtain ⟨path, fragment, found⟩ := legible.readable other listed
    by_cases leads : i.LeadsRound (some path)
    · exact .inr ((each listed found).1 leads)
    · exact .inl ((each listed found).2 leads)
  · intro acyclic
    obtain ⟨expanded, ran, _⟩ := expandWith_includes fixed wellFormed.document legible.directed
      (fun name listed => by
        obtain ⟨path, fragment, found⟩ := legible.readable name listed
        exact (each listed found).2 fun leads => acyclic (leads.of_way
          ⟨i.item, i.content_start, name, listed, path, fragment, found, rfl⟩)) context
    exact ⟨expanded, ran⟩

end Reading

private theorem outermost_start (named : ∀ file ∈ i.origin, Tree.checkName file = .ok ()) :
    outermost i.tree i.origin = .ok i.start.toList := by
  unfold start
  cases known : i.origin with
  | none => rfl
  | some file =>
      unfold outermost Tree.resolveNamed
      dsimp only
      rw [named file known]
      rfl

/-- An expansion ends: unrolled to any depth above the number of files, with whatever beyond, it is the same.
Where all files can be read and included, it stops exactly if a circle can be reached from the item, and then
it says so; otherwise it succeeds, however often a file is included. -/
theorem expand_terminates_detects {entries : List (Text × Node)} (rooted : i.tree.root = .folder entries)
    (context : Text) {run : Run} (faithful : run.Faithful i.tree) :
    (∀ (last : Reader) (depth : Nat), (candidates i.tree).length < depth →
      (expandUpTo i.tree i.places last depth context i.origin i.item).outcome run =
        (expand i.tree i.places context i.origin i.item).outcome run) ∧
    (i.WellFormed →
      ((∃ fault, ((expand i.tree i.places context i.origin i.item).outcome run).1 = .error (.integrity fault)) ↔
        i.Cyclic) ∧
      (i.Cyclic → Circular ((expand i.tree i.places context i.origin i.item).outcome run).1) ∧
      (¬i.Cyclic → ∃ expanded, ((expand i.tree i.places context i.origin i.item).outcome run).1 = .ok expanded)) := by
  refine ⟨fun last depth enough => (alike_expandUpTo rooted last enough context i.origin i.item run faithful).symm,
    fun wellFormed => ?_⟩
  rw [(fixed_expand i.places context i.origin i.item run faithful).1, content_expand,
    outermost_start wellFormed.named, ok_bind]
  obtain ⟨circles, succeeds⟩ := content_expandWith_start rooted wellFormed context
  refine ⟨⟨?_, fun cyclic => ?_⟩, circles, succeeds⟩
  · rintro ⟨fault, stopped⟩
    by_contra acyclic
    obtain ⟨expanded, ran⟩ := succeeds acyclic
    cases ran.symm.trans stopped
  · obtain ⟨context, chain, stopped⟩ := circles cyclic
    exact ⟨_, stopped⟩

def firstFields : Fields := [("attributes", .record [(directive, .text "b.json")])]

/-- That file, which includes the first one inside an attribute. -/
def secondFields : Fields := [("attributes", .record [("x", .record [(directive, .text "a.json")])])]

def pairEntries : List (Text × Node) := [("a.json", .spelling firstFields), ("b.json", .spelling secondFields)]

def firstPath : Path := ⟨.top, ["a.json"]⟩

def secondPath : Path := ⟨.top, ["b.json"]⟩

/-- The first file, expanded where it is. -/
def pair : Inclusion where
  tree := { root := .folder pairEntries, directory := [] }
  places := atTop
  origin := some firstPath
  item := firstFields

private theorem length_candidates_pair : (candidates pair.tree).length = 2 := by
  simp [candidates, pair, pairEntries, Node.spelling, Node.files, Node.folderFiles, Node.ownFiles]

private theorem start_pair : pair.start = some firstPath := by decide +kernel

private theorem find_first : (find pair.tree atTop "a.json").content = .ok (firstPath, firstFields) :=
  toOption_eq_some.mp (by decide +kernel)

private theorem find_second : (find pair.tree atTop "b.json").content = .ok (secondPath, secondFields) :=
  toOption_eq_some.mp (by decide +kernel)

private theorem content_first : pair.content (some firstPath) = some firstFields := start_pair ▸ pair.content_start

private theorem content_second : pair.content (some secondPath) = some secondFields :=
  content_of_find rfl find_second (by rw [start_pair]; decide)

private theorem names_first : namesIncluded firstFields = ["b.json"] := by decide

private theorem names_second : namesIncluded secondFields = ["a.json"] := by decide

private theorem way_pair {place next : Option Path} (among : place = some firstPath ∨ place = some secondPath)
    (way : pair.Way place next) : next = some firstPath ∨ next = some secondPath := by
  obtain ⟨fields, here, name, listed, path, fragment, found, rfl⟩ := way
  rcases among with rfl | rfl
  · cases content_first.symm.trans here
    rw [names_first] at listed
    cases find_second.symm.trans (List.mem_singleton.mp listed ▸ found)
    exact .inr rfl
  · cases content_second.symm.trans here
    rw [names_second] at listed
    cases find_first.symm.trans (List.mem_singleton.mp listed ▸ found)
    exact .inl rfl

private theorem reaches_pair {place : Option Path} (reaches : pair.Reaches place) :
    place = some firstPath ∨ place = some secondPath := by
  induction reaches with
  | refl => exact .inl start_pair
  | tail _ way ih => exact way_pair ih way

private theorem wellFormed_pair : pair.WellFormed where
  named := by
    rintro file ⟨⟩
    rfl
  document := document_find find_first
  legible place fields reaches here := by
    rcases reaches_pair reaches with rfl | rfl
    · cases content_first.symm.trans here
      refine ⟨by decide, fun name listed => ?_⟩
      rw [names_first] at listed
      exact List.mem_singleton.mp listed ▸ ⟨_, _, find_second⟩
    · cases content_second.symm.trans here
      refine ⟨by decide, fun name listed => ?_⟩
      rw [names_second] at listed
      exact List.mem_singleton.mp listed ▸ ⟨_, _, find_first⟩
  mergeable place fields reaches apart here := by
    rcases reaches_pair reaches with rfl | rfl
    · exact absurd start_pair.symm apart
    · cases content_second.symm.trans here
      refine ⟨?_, by decide, ?_⟩
      · rintro value ⟨⟩
        rfl
      · rintro ⟨⟩

private theorem cyclic_pair : pair.Cyclic := by
  have there : pair.Way (some firstPath) (some secondPath) :=
    ⟨firstFields, content_first, "b.json", by decide, secondPath, secondFields, find_second, rfl⟩
  have back : pair.Way (some secondPath) (some firstPath) :=
    ⟨secondFields, content_second, "a.json", by decide, firstPath, firstFields, find_first, rfl⟩
  exact ⟨some firstPath, start_pair ▸ .refl, .head there (.single back)⟩

/-- The first file runs into a circle, at a depth of two files. -/
theorem expand_terminates_detects_pair :
    pair.tree.root = .folder pairEntries ∧ ({} : Run).Faithful pair.tree ∧ pair.WellFormed ∧ pair.Cyclic ∧
      (∀ last, (expandUpTo pair.tree pair.places last 3 "test" pair.origin pair.item).outcome {} =
        (expand pair.tree pair.places "test" pair.origin pair.item).outcome {}) ∧
      Circular ((expand pair.tree pair.places "test" pair.origin pair.item).outcome {}).1 := by
  obtain ⟨ends, detects⟩ := expand_terminates_detects (i := pair) rfl "test" (Run.faithful_start _)
  exact ⟨rfl, Run.faithful_start _, wellFormed_pair, cyclic_pair,
    fun last => ends last 3 (length_candidates_pair ▸ by decide),
    (detects wellFormed_pair).2.1 cyclic_pair⟩

end Inclusion

end EventSchema.Include
