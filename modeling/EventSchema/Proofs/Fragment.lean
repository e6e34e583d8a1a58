import EventSchema.Fragment.Loader
import EventSchema.Json.Writer
import EventSchema.Proofs.Outcome
import EventSchema.Proofs.Value.Written

/-!
Fragments as documents.

What the reader of a document returns is written as documents are: no key twice in an object, and
nothing shared. Annotations put one value into several attributes, so a fragment whose annotations are
no objects is written as its document is.
-/

set_option autoImplicit false

namespace EventSchema

open Value

namespace Json

private theorem written_readNumber {s : List Nat} {value : Value} {rest : Rest s}
    (ran : readNumber s = .ok (value, rest)) : Written value := by
  unfold readNumber at ran
  extract_lets at ran
  split at ran
  · cases ran
  · extract_lets at ran
    split at ran
    · split at ran
      · split at ran
        · cases ran
        · cases ran
          exact written_of_not_object rfl
      · cases ran
        exact written_of_not_object rfl
    · cases ran
      exact written_of_not_object rfl

private theorem written_readAtom {s : List Nat} {value : Value} {rest : Rest s}
    (ran : readAtom s = .ok (value, rest)) : Written value := by
  cases s with
  | nil =>
      rw [readAtom] at ran
      exact written_readNumber ran
  | cons c later =>
      unfold readAtom at ran
      cases found : word? (c :: later) with
      | none =>
          rw [found] at ran
          exact written_readNumber ran
      | some word =>
          rw [found] at ran
          cases ran
          have simple : ∀ known ∈ words, known.2.isObject = false := by decide
          exact written_of_not_object (simple _ (List.mem_of_find?_eq_some found))

/-- The fields of an object are one field and, unless it is the last, those that follow it. -/
theorem readFields_ok {done fields : Fields} {s : List Nat} {rest : Rest s}
    (ran : readFields done s = .ok (fields, rest)) :
    ∃ key text value, text.length < s.length ∧ (∃ after, readValue text = .ok (value, after)) ∧
      (fields = Entries.put key value done ∨ ∃ more, more.length < s.length ∧
        ∃ after, readFields (Entries.put key value done) more = .ok (fields, after)) := by
  rw [readFields.eq_def] at ran
  split at ran
  · rename_i later
    split at ran
    · cases ran
    · rename_i key afterKey shorterKey _
      have boundKey := skipBlanks_length_le afterKey
      split at ran
      · rename_i valueText colon
        rw [colon, List.length_cons] at boundKey
        have boundColon := skipBlanks_length_le valueText
        split at ran
        · cases ran
        · rename_i value afterValue shorterValue inside
          have boundValue := skipBlanks_length_le afterValue
          refine ⟨⟨key⟩, skipBlanks valueText, value, ?_, ⟨_, inside⟩, ?_⟩
          · rw [List.length_cons]
            omega
          · split at ran
            · cases ran
              exact Or.inl rfl
            · rename_i more closing
              rw [closing, List.length_cons] at boundValue
              have boundMore := skipBlanks_length_le more
              extract_lets at ran
              split at ran
              · cases ran
              · rename_i others
                cases ran
                refine Or.inr ⟨skipBlanks more, ?_, _, others⟩
                rw [List.length_cons]
                omega
            · cases ran
      · cases ran
  · cases ran

mutual
/-- A value that is read is written, since no key of an object is written twice. -/
theorem written_readValue : (s : List Nat) → {value : Value} → {rest : Rest s} →
    readValue s = .ok (value, rest) → Written value
  | [], _, _, ran => by
      rw [readValue] at ran
      cases ran
  | c :: later, _, _, ran => by
      have bound := skipBlanks_length_le later
      rw [readValue] at ran
      split at ran
      · split at ran
        · cases ran
        · cases ran
          exact written_of_not_object rfl
      · split at ran
        · split at ran
          · cases ran
            exact written_nil
          · split at ran
            · cases ran
            · rename_i fields _ _ inside
              cases ran
              exact written_readFields [] _ written_nil inside
        · split at ran
          · split at ran
            · cases ran
              exact written_of_not_object rfl
            · split at ran
              · cases ran
              · cases ran
                exact written_of_not_object rfl
          · exact written_readAtom ran
termination_by s => 2 * s.length
decreasing_by simp; omega
private theorem written_readFields (done : Fields) (s : List Nat) (before : Written (.record done))
    {fields : Fields} {rest : Rest s} (ran : readFields done s = .ok (fields, rest)) :
    Written (.record fields) := by
  obtain ⟨key, text, value, shorter, ⟨_, inside⟩, last | ⟨more, left, _, others⟩⟩ := readFields_ok ran
  · exact last ▸ before.put (written_readValue text inside) key
  · exact written_readFields _ more (before.put (written_readValue text inside) key) others
termination_by 2 * s.length
end

private theorem written_of_read {text : Text} {value : Value} (ran : read text = .value value) :
    Written value := by
  unfold read readCodes at ran
  split at ran
  · rename_i ended
    split at ended
    · cases ended
    · split at ended
      · cases ended
      · rename_i spelled
        split at ended
        · cases ended
          cases ran
          exact written_readValue _ spelled
        · cases ended
  · cases ran
  · cases ran

end Json

namespace Fragment

private theorem markFields_simple {fields : Fields} (simple : ∀ entry ∈ fields, entry.2.isObject = false)
    (next : Nat) : (markFields next fields).1 = fields := by
  induction fields generalizing next with
  | nil => rw [markFields]
  | cons head rest ih =>
      obtain ⟨key, value⟩ := head
      obtain ⟨own, others⟩ := List.forall_mem_cons.mp simple
      simp only [markFields, mark_of_not_object own, ih others]

private theorem written_fill {annotations fields : Fields}
    (simple : ∀ entry ∈ annotations, entry.2.isObject = false) (written : Written (.record fields)) :
    Written (.record (fill annotations fields)) := by
  unfold fill
  induction annotations generalizing fields with
  | nil => exact written
  | cons head rest ih =>
      obtain ⟨own, others⟩ := List.forall_mem_cons.mp simple
      exact ih others (written.putNew (written_of_not_object own) head.1)

def SimplyAnnotated (document : Fields) : Prop :=
  ∀ mark annotations, Entries.get? "annotations" document = some (.object mark annotations) →
    ∀ entry ∈ annotations, entry.2.isObject = false

theorem annotate_ok {file : Option Path} {document fragment : Fields}
    (ran : annotate file document = .ok fragment) :
    fragment = Entries.erase "annotations" document ∨
      ∃ own annotations mark attributes,
        Entries.get? "annotations" document = some (.object own annotations) ∧
        Entries.get? "attributes" (Entries.erase "annotations" document) =
          some (.object mark attributes) ∧
        fragment = Entries.put "attributes" (.object mark
          (fillEach (markFields (boundFields document) annotations).1 attributes))
          (Entries.erase "annotations" document) := by
  unfold annotate at ran
  dsimp only at ran
  cases given : Entries.get? "annotations" document with
  | none =>
      rw [given] at ran
      exact Or.inl (Except.ok.inj ran).symm
  | some value =>
      rw [given] at ran
      dsimp only at ran
      split at ran
      · cases value with
        | object own annotations =>
            dsimp only at ran
            split at ran
            · rename_i mark attributes held
              exact Or.inr ⟨own, annotations, mark, attributes, rfl, held, (Except.ok.inj ran).symm⟩
            · exact Or.inl (Except.ok.inj ran).symm
        | null | bool _ | int _ | float _ | text _ | array _ => cases ran
      · exact Or.inl (Except.ok.inj ran).symm

private theorem written_annotate {file : Option Path} {document fragment : Fields}
    (written : Written (.record document)) (simple : SimplyAnnotated document)
    (ran : annotate file document = .ok fragment) : Written (.record fragment) := by
  have rest := written.erase "annotations"
  rcases annotate_ok ran with rfl | ⟨own, annotations, mark, attributes, given, held, rfl⟩
  · exact rest
  · have plain := simple own annotations given
    obtain ⟨unmarked, inside⟩ := written_object.mp (rest.of_get? held)
    rw [markFields_simple plain]
    refine rest.put (written_object.mpr ⟨unmarked, inside.mapValues fun value given => ?_⟩) _
    cases value with
    | object mark fields =>
        obtain ⟨unmarked, fields⟩ := written_object.mp given
        exact written_object.mpr ⟨unmarked, written_fill plain fields⟩
    | null | bool _ | int _ | float _ | text _ | array _ => exact written_of_not_object rfl

theorem written_readObject {tree : Tree} {file : Path} {document : Fields}
    (ran : readObject tree file = .ok document) : Written (.record document) := by
  unfold readObject at ran
  obtain ⟨bytes, _, ran⟩ := bind_eq_ok.mp ran
  unfold parse at ran
  split at ran
  · cases ran
  · split at ran
    · cases ran
    · cases ran
    · rename_i spelled
      exact Except.ok.inj ran ▸ (written_object.mp (Json.written_of_read spelled)).2
    · cases ran

theorem written_ofFile {tree : Tree} {file : Path} {fragment : Fields}
    (simple : ∀ document, readObject tree file = .ok document → SimplyAnnotated document)
    (ran : ofFile tree file = .ok fragment) : Written (.record fragment) := by
  unfold ofFile at ran
  obtain ⟨document, read, ran⟩ := bind_eq_ok.mp ran
  exact written_annotate (written_readObject read) (simple document read) ran

end Fragment

def Node.spelling (fields : Fields) : Node :=
  .file (Utf8.encode (Json.write .line (.record fields)))

/-- The tree that holds the given documents, each under the names that lead to it. -/
def Tree.ofDocuments (documents : List (List Text × Fields)) : Tree where
  root := documents.foldl (fun root document =>
    Node.insert (Node.spelling document.2) document.1 root) (.folder [])
  directory := []

end EventSchema
