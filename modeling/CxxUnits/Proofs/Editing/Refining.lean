import CxxUnits.Proofs.Editing.Completing
import CxxUnits.Proofs.Session.Consistent
import CxxUnits.Proofs.Token.Word

/-!
Completing once more, behind a candidate that was taken. Keywords and the words that a session
gathers consist of word characters, so the candidate is the word that is found there, beginning
where the first one began. What is offered then was offered before. This need not hold of
known words at large, in which any character may stand.
-/
namespace CxxUnits.Editing

open Text

/-- The line with a text in the place of its bytes from `start` up to `stop`. -/
def replaceBytes? (line : String) (start stop : Nat) (text : String) : Option String := do
  let (before, _) ← splitAtByte? start line.toList
  let (_, after) ← splitAtByte? stop line.toList
  return String.ofList before ++ text ++ String.ofList after

def IsProperPrefix (word other : String) : Prop :=
  word.toList <+: other.toList ∧ word ≠ other

instance (word other : String) : Decidable (IsProperPrefix word other) :=
  inferInstanceAs (Decidable (_ ∧ _))

theorem isWordChar_of_mem_keywords {word : String} (h : word ∈ keywords) :
    ∀ c ∈ word.toList, isWordChar c = true := by
  have hall : keywords.all (·.toList.all isWordChar) = true := by decide +kernel
  exact List.all_eq_true.1 (List.all_eq_true.1 hall word h)

theorem replaceBytes?_of_eq_append {line : String} {front word after : List Char}
    (h : line.toList = front ++ word ++ after) (text : String) :
    replaceBytes? line (byteLength front) (byteLength (front ++ word)) text =
      some (String.ofList front ++ text ++ String.ofList after) := by
  have hfront : splitAtByte? (byteLength front) line.toList = some (front, word ++ after) := by
    rw [h, List.append_assoc, splitAtByte?_byteLength]
  have hword : splitAtByte? (byteLength (front ++ word)) line.toList =
      some (front ++ word, after) := by
    rw [h, splitAtByte?_byteLength]
  simp only [replaceBytes?, hfront, hword, Option.bind_eq_bind, Option.bind_some]
  rfl

namespace Vocabulary

variable (vocabulary : Vocabulary)

theorem complete?_of_word {line : String} {front word after : List Char}
    (hline : line.toList = front ++ word ++ after)
    (hfront : ∀ c ∈ front.getLast?, isWordChar c = false)
    (hword : ∀ c ∈ word, isWordChar c = true) (hne : word ≠ []) :
    vocabulary.complete? line (byteLength (front ++ word)) =
      some ⟨byteLength front, (vocabulary.candidates word).toList⟩ := by
  have hbefore : wordBefore (front ++ word) = word :=
    (isWordBefore_wordBefore _).unique (isWordBefore_append hfront hword)
  rw [vocabulary.complete?_of_eq_append hline, hbefore, vocabulary.answer_of_ne_nil hne,
    byteLength_append, Nat.add_sub_cancel]

/-- Where anything is offered there is a word, and the answer is the one for it. -/
theorem exists_word_of_mem {line c : String} {cursor : Nat} {completion : Completion}
    (h : vocabulary.complete? line cursor = some completion) (hmem : c ∈ completion.candidates) :
    ∃ front word after, line.toList = front ++ word ++ after ∧
      (∀ c ∈ front.getLast?, isWordChar c = false) ∧ cursor = byteLength (front ++ word) ∧
      completion = ⟨byteLength front, (vocabulary.candidates word).toList⟩ := by
  have hinside : ¬IsOutside line cursor := by
    rw [← vocabulary.complete?_eq_none_iff, h]
    exact Option.some_ne_none completion
  obtain ⟨before, after, hline, rfl⟩ := exists_append_of_not_isOutside hinside
  obtain ⟨front, hbefore, hword, hfront⟩ := exists_append_wordBefore before
  have hanswer := vocabulary.complete?_of_eq_append hline
  generalize wordBefore before = word at hbefore hword hanswer
  subst hbefore
  by_cases hne : word = []
  · rw [hanswer, hne] at h
    obtain rfl := Option.some.inj h
    cases hmem
  · rw [vocabulary.complete?_of_word hline hfront hword hne] at h
    exact ⟨front, word, after, hline, hfront, rfl, (Option.some.inj h).symm⟩

/-- What goes on from a candidate goes on from the word that it was offered for. -/
theorem toList_candidates_of_mem {word : List Char} {c : String}
    (h : c ∈ vocabulary.candidates word) : (vocabulary.candidates c.toList).toList =
      (vocabulary.candidates word).toList.filter (IsProperPrefix c) := by
  obtain ⟨-, hword, hne⟩ := vocabulary.mem_candidates_iff.1 h
  apply WordSet.toList_eq ((vocabulary.candidates word).increasing.filter _)
  intro other
  rw [List.mem_filter, ← WordSet.mem_def, vocabulary.mem_candidates_iff,
    vocabulary.mem_candidates_iff, decide_eq_true_iff, IsProperPrefix]
  constructor
  · rintro ⟨hknown, hgoesOn, hother⟩
    refine ⟨⟨hknown, hword.trans hgoesOn, ?_⟩, hgoesOn, ?_⟩
    · intro heq
      rw [heq] at hgoesOn
      exact hne (hgoesOn.eq_of_length_le hword.length_le)
    · rintro rfl
      exact hother rfl
  · rintro ⟨⟨hknown, -, -⟩, hgoesOn, hother⟩
    exact ⟨hknown, hgoesOn, fun heq => hother (String.toList_inj.1 heq.symm)⟩

theorem isWordChar_of_mem_candidates {word : List Char} {c : String}
    (hwords : ∀ w ∈ vocabulary.words, ∀ d ∈ w.toList, isWordChar d = true)
    (h : c ∈ vocabulary.candidates word) : ∀ d ∈ c.toList, isWordChar d = true := by
  rcases (vocabulary.mem_candidates_iff.1 h).1 with hkeyword | hknown
  · exact isWordChar_of_mem_keywords hkeyword
  · exact hwords c hknown

end Vocabulary

section Session

variable {σ : Type} [TokenSource σ] {source : σ} {history : List Entry} {session : Session σ}

/-- All that a session gathers are words, whatever is fed to it. -/
theorem isWordChar_of_mem_identifiers {word : String} (hrun : Session.Run source history session)
    (h : word ∈ session.identifiers) : ∀ c ∈ word.toList, isWordChar c = true := by
  obtain ⟨unit, -, hword⟩ := (hrun.tallies.mem_identifiers_iff word).1 h
  exact isWordChar_of_matches_word (matches_word_of_mem_identifiers hword)

/-- Where a session's words are known, let a candidate of the first answer be put in the place of
the word before the cursor. Completing behind it begins at the same byte, and offers of the first
answer, in its order, the words that have the candidate as a proper prefix. -/
theorem completing_twice_refines {vocabulary : Vocabulary} {line c : String} {cursor : Nat}
    {completion : Completion} (hrun : Session.Run source history session)
    (hwords : ∀ word, word ∈ vocabulary.words ↔ word ∈ session.identifiers)
    (hcomplete : vocabulary.complete? line cursor = some completion)
    (hmem : c ∈ completion.candidates) :
    ∃ refined, replaceBytes? line completion.start cursor c = some refined ∧
      vocabulary.complete? refined (completion.start + c.utf8ByteSize) =
        some ⟨completion.start, completion.candidates.filter (IsProperPrefix c)⟩ := by
  obtain ⟨front, word, after, hline, hfront, rfl, rfl⟩ :=
    vocabulary.exists_word_of_mem hcomplete hmem
  have hchars : ∀ d ∈ c.toList, isWordChar d = true := by
    refine vocabulary.isWordChar_of_mem_candidates ?_ hmem
    intro w hw
    exact isWordChar_of_mem_identifiers hrun ((hwords w).1 hw)
  have hne : c.toList ≠ [] := by
    obtain ⟨-, hprefix, hother⟩ := vocabulary.mem_candidates_iff.1 hmem
    intro hnil
    rw [hnil] at hprefix hother
    exact hother (List.prefix_nil.1 hprefix).symm
  refine ⟨_, replaceBytes?_of_eq_append hline c, ?_⟩
  have hrefined : (String.ofList front ++ c ++ String.ofList after).toList =
      front ++ c.toList ++ after := by
    simp
  have hcursor : byteLength front + c.utf8ByteSize = byteLength (front ++ c.toList) := by
    rw [byteLength_append, byteLength_toList]
  rw [hcursor, vocabulary.complete?_of_word hrefined hfront hchars hne,
    vocabulary.toList_candidates_of_mem hmem]

end Session

/-- `int` is put in the place of `in`. Of the words offered before, two go on from it; both were
gathered from what was fed, and the rejected line gave nothing. -/
theorem completing_twice_refines_behind_wide_text :
    let fresh := Session.start ({} : FragmentLexer)
    let first := fresh.answer "long inter, intern;"
    let second := first.2.answer "integer ]"
    let history := [.fed (first.2.held "integer ]") second.1,
      .fed (fresh.held "long inter, intern;") first.1]
    let vocabulary := Vocabulary.update {} second.2.identifiers.toList
    Session.Run ({} : FragmentLexer) history second.2 ∧
      vocabulary.complete? "é in)" 5 = some ⟨3, ["inline", "int", "inter", "intern"]⟩ ∧
      ∃ refined, replaceBytes? "é in)" 3 5 "int" = some refined ∧
        vocabulary.complete? refined 6 = some ⟨3, ["inter", "intern"]⟩ := by
  intro fresh first second history vocabulary
  have hrun : Session.Run ({} : FragmentLexer) history second.2 :=
    (Session.Run.start.answer "long inter, intern;").answer "integer ]"
  have hcomplete : vocabulary.complete? "é in)" 5 =
      some ⟨3, ["inline", "int", "inter", "intern"]⟩ := by
    decide +kernel
  obtain ⟨refined, hrefined, hagain⟩ :=
    completing_twice_refines hrun (fun _ => Iff.rfl) hcomplete (c := "int") (by decide)
  have hleft : ["inline", "int", "inter", "intern"].filter (IsProperPrefix "int") =
      ["inter", "intern"] := by
    decide +kernel
  rw [hleft] at hagain
  exact ⟨hrun, hcomplete, refined, hrefined, hagain⟩

end CxxUnits.Editing
