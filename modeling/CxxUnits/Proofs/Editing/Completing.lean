import CxxUnits.Editing.Completion
import CxxUnits.Proofs.Text.ByteOrder
import CxxUnits.Proofs.Token.Tiling

/-!
Completing the word before the cursor. The word is found by going back over bytes as it is by
going back over characters: the bytes of its characters stand for these alone, and no byte of
another character does. What is offered are the keywords and the words known last that go on
from the word, in the one order that their bytes have, however they were come by. There is an
answer for every cursor that stands between characters, and for no other.
-/
namespace CxxUnits.Editing

open Text

/-- The cursor stands behind the line or inside one of its characters. -/
inductive IsOutside (line : String) (cursor : Nat) : Prop
  | beyond (h : line.utf8ByteSize < cursor) : IsOutside line cursor
  | inside {before after : List Char} {c : Char} (hline : line.toList = before ++ c :: after)
      (hstart : byteLength before < cursor) (hstop : cursor < byteLength before + c.utf8Size) :
      IsOutside line cursor

/-- The longest run of word characters that the text ends in. -/
structure IsWordBefore (text word : List Char) : Prop where
  ends : word <:+ text
  all : ∀ c ∈ word, isWordChar c = true
  longest : ∀ other, other <:+ text → (∀ c ∈ other, isWordChar c = true) →
    other.length ≤ word.length

/-- An ASCII letter or digit, or an underscore. -/
def isWordByte (b : UInt8) : Bool :=
  (48 ≤ b && b ≤ 57) || (65 ≤ b && b ≤ 90) || (97 ≤ b && b ≤ 122) || b == 95

/-- Back over word bytes from byte `n` on; nothing if there is no byte to look at. -/
def wordStart? (bytes : List UInt8) : Nat → Option Nat
  | 0 => some 0
  | n + 1 =>
    match bytes[n]? with
    | none => none
    | some b => if isWordByte b then wordStart? bytes n else some (n + 1)

/-- Where the word before the cursor begins, and the word, found among the bytes. -/
def wordAt? (line : String) (cursor : Nat) : Option (Nat × String) := do
  let start ← wordStart? (encode line.toList) cursor
  let word ← slice? line start cursor
  return (start, word)

/-- What is known after some updates, of which each gives a list of words. -/
def Vocabulary.after (updates : List (List String)) : Vocabulary :=
  updates.foldl update {}

def lastWords (updates : List (List String)) : List String :=
  updates.getLast?.getD []

def Vocabulary.answer (vocabulary : Vocabulary) (cursor start : Nat) (word : String) :
    Completion :=
  if word = "" then ⟨cursor, []⟩ else ⟨start, (vocabulary.candidates word.toList).toList⟩

theorem splitAtByte?_eq_none_iff {n : Nat} {cs : List Char} :
    splitAtByte? n cs = none ↔ byteLength cs < n ∨ ∃ before c after, cs = before ++ c :: after ∧
      byteLength before < n ∧ n < byteLength before + c.utf8Size := by
  constructor
  · intro h
    fun_induction splitAtByte? n cs with
    | case1 => cases h
    | case2 n => exact .inl (Nat.succ_pos n)
    | case3 n c cs hle ih =>
        rcases ih (Option.map_eq_none_iff.1 h) with hbeyond | ⟨before, d, after, rfl, hstart, hstop⟩
        · left
          rw [byteLength_cons]
          omega
        · right
          refine ⟨c :: before, d, after, rfl, ?_, ?_⟩ <;> rw [byteLength_cons] <;> omega
    | case4 n c cs hlt => exact .inr ⟨[], c, cs, rfl, Nat.succ_pos n, by simpa using hlt⟩
  · intro h
    by_contra hsome
    obtain ⟨⟨xs, ys⟩, hsplit⟩ := Option.ne_none_iff_exists'.1 hsome
    obtain ⟨rfl, rfl⟩ := eq_append_of_splitAtByte? hsplit
    rcases h with hbeyond | ⟨before, c, after, hcs, hstart, hstop⟩
    · rw [byteLength_append] at hbeyond
      omega
    · rcases List.append_eq_append_iff.1 hcs with ⟨more, rfl, -⟩ | ⟨more, rfl, hmore⟩
      · rw [byteLength_append] at hstart
        omega
      · cases more with
        | nil => simp at hstart
        | cons d more =>
            obtain rfl := (List.cons.inj hmore).1
            rw [byteLength_append, byteLength_cons] at hstop
            omega

theorem isOutside_iff {line : String} {cursor : Nat} :
    IsOutside line cursor ↔ splitAtByte? cursor line.toList = none := by
  rw [splitAtByte?_eq_none_iff, byteLength_toList]
  constructor
  · rintro (hbeyond | ⟨hline, hstart, hstop⟩)
    · exact .inl hbeyond
    · exact .inr ⟨_, _, _, hline, hstart, hstop⟩
  · rintro (hbeyond | ⟨before, c, after, hline, hstart, hstop⟩)
    · exact .beyond hbeyond
    · exact .inside hline hstart hstop

theorem exists_append_of_not_isOutside {line : String} {cursor : Nat}
    (h : ¬IsOutside line cursor) :
    ∃ before after, line.toList = before ++ after ∧ byteLength before = cursor := by
  rw [isOutside_iff] at h
  obtain ⟨⟨before, after⟩, hsplit⟩ := Option.ne_none_iff_exists'.1 h
  exact ⟨before, after, eq_append_of_splitAtByte? hsplit⟩

theorem isWordChar_iff {c : Char} : isWordChar c = true ↔
    (48 ≤ c.toNat ∧ c.toNat ≤ 57) ∨ (65 ≤ c.toNat ∧ c.toNat ≤ 90) ∨
      (97 ≤ c.toNat ∧ c.toNat ≤ 122) ∨ c.toNat = 95 := by
  have hunderscore : c = '_' ↔ c.toNat = 95 := Char.toNat_inj.symm
  have hupper : c.isUpper = decide ('A'.val ≤ c.val ∧ c.val ≤ 'Z'.val) := rfl
  have hlower : c.isLower = (decide ('a'.val ≤ c.val) && decide (c.val ≤ 'z'.val)) := rfl
  have hdigit : c.isDigit = (decide ('0'.val ≤ c.val) && decide (c.val ≤ '9'.val)) := rfl
  have hvalues : '0'.val.toNat = 48 ∧ '9'.val.toNat = 57 ∧ 'A'.val.toNat = 65 ∧
      'Z'.val.toNat = 90 ∧ 'a'.val.toNat = 97 ∧ 'z'.val.toNat = 122 := by decide
  have hval : c.toNat = c.val.toNat := rfl
  change (c.isUpper || c.isLower || c.isDigit || c == '_') = true ↔ _
  simp only [hupper, hlower, hdigit, Bool.or_eq_true, Bool.and_eq_true, decide_eq_true_eq,
    beq_iff_eq, hunderscore, UInt32.le_iff_toNat_le]
  omega

theorem isWordByte_iff {b : UInt8} : isWordByte b = true ↔
    (48 ≤ b.toNat ∧ b.toNat ≤ 57) ∨ (65 ≤ b.toNat ∧ b.toNat ≤ 90) ∨
      (97 ≤ b.toNat ∧ b.toNat ≤ 122) ∨ b.toNat = 95 := by
  have hunderscore : b = 95 ↔ b.toNat = 95 := UInt8.toNat_inj.symm
  simp only [isWordByte, Bool.or_eq_true, Bool.and_eq_true, decide_eq_true_eq, beq_iff_eq,
    hunderscore, UInt8.le_iff_toNat_le, or_assoc]
  rfl

/-- The last byte of a character tells whether it belongs to a word, and it is the only byte of
one that does. -/
theorem exists_last_byte (c : Char) : ∃ bytes b, String.utf8EncodeChar c = bytes ++ [b] ∧
    isWordByte b = isWordChar c ∧ (isWordChar c = true → bytes = []) := by
  by_cases hc : c.toNat < 128
  · refine ⟨[], _, utf8EncodeChar_of_lt hc, ?_, fun _ => rfl⟩
    have hbyte : (UInt8.ofNat c.toNat).toNat = c.toNat := by
      rw [UInt8.toNat_ofNat', Nat.mod_eq_of_lt (by omega)]
    rw [Bool.eq_iff_iff, isWordByte_iff, isWordChar_iff, hbyte]
  · have hnotWord : isWordChar c = false := by
      rw [Bool.eq_false_iff, ne_eq, isWordChar_iff]
      omega
    obtain hnil | ⟨bytes, b, hbytes⟩ := List.eq_nil_or_concat' (String.utf8EncodeChar c)
    · exact absurd hnil String.utf8EncodeChar_ne_nil
    · have hlarge := le_of_mem_utf8EncodeChar hc (b := b) (by simp [hbytes])
      refine ⟨bytes, b, hbytes, ?_, by simp [hnotWord]⟩
      rw [hnotWord, Bool.eq_false_iff, ne_eq, isWordByte_iff]
      omega

theorem wordStart?_step (before after : List UInt8) (b : UInt8) :
    wordStart? (before ++ b :: after) (before.length + 1) =
      if isWordByte b then wordStart? (before ++ b :: after) before.length
      else some (before.length + 1) := by
  simp [wordStart?]

/-- Going back over bytes stops behind the last character that belongs to no word. -/
theorem wordStart?_of_front {front : List Char}
    (h : ∀ c ∈ front.getLast?, isWordChar c = false) (after : List UInt8) :
    wordStart? (encode front ++ after) (byteLength front) = some (byteLength front) := by
  rcases List.eq_nil_or_concat' front with rfl | ⟨front, c, rfl⟩
  · rfl
  · obtain ⟨bytes, b, hbytes, hb, -⟩ := exists_last_byte c
    rw [h c (by simp)] at hb
    have hencode : encode (front ++ [c]) ++ after = (encode front ++ bytes) ++ b :: after := by
      simp [encode_cons, hbytes]
    have hlength : byteLength (front ++ [c]) = (encode front ++ bytes).length + 1 := by
      rw [← length_encode]
      simp [encode_cons, hbytes]
      omega
    rw [hencode, hlength, wordStart?_step, hb]
    rfl

/-- It goes on over the characters of a word, one byte for each of them. -/
theorem wordStart?_append {word : List Char} (h : ∀ c ∈ word, isWordChar c = true)
    (front : List Char) (after : List UInt8) :
    wordStart? (encode (front ++ word) ++ after) (byteLength (front ++ word)) =
      wordStart? (encode (front ++ word) ++ after) (byteLength front) := by
  induction word generalizing front with
  | nil => rw [List.append_nil]
  | cons c word ih =>
      obtain ⟨hc, hword⟩ := List.forall_mem_cons.1 h
      obtain ⟨bytes, b, hbytes, hb, hone⟩ := exists_last_byte c
      rw [hone hc, List.nil_append] at hbytes
      have hencode : encode (front ++ c :: word) ++ after =
          encode front ++ b :: (encode word ++ after) := by
        simp [encode_cons, hbytes]
      have hlength : byteLength (front ++ [c]) = (encode front).length + 1 := by
        rw [← length_encode, encode_append, encode_cons, hbytes]
        simp
      have hrest := ih hword (front ++ [c])
      rw [List.append_assoc, List.singleton_append] at hrest
      rw [hrest, hencode, hlength, wordStart?_step, if_pos (hb.trans hc), length_encode]

/-- A text is what belongs to no word at its end, and the word it ends in. -/
theorem exists_append_wordBefore (cs : List Char) : ∃ front, cs = front ++ wordBefore cs ∧
    (∀ c ∈ wordBefore cs, isWordChar c = true) ∧ ∀ c ∈ front.getLast?, isWordChar c = false := by
  refine ⟨(cs.reverse.dropWhile isWordChar).reverse, ?_, ?_, ?_⟩
  · rw [wordBefore, ← List.reverse_append, List.takeWhile_append_dropWhile, List.reverse_reverse]
  · intro c hc
    exact List.all_eq_true.1 List.all_takeWhile c (List.mem_reverse.1 hc)
  · intro c hc
    rw [List.getLast?_reverse] at hc
    have hhead := List.head?_dropWhile_not isWordChar cs.reverse
    rwa [Option.mem_def.1 hc] at hhead

/-- A run of word characters that a text ends in does not go on over what belongs to no word. -/
theorem isWordBefore_append {front word : List Char}
    (hfront : ∀ c ∈ front.getLast?, isWordChar c = false)
    (hword : ∀ c ∈ word, isWordChar c = true) : IsWordBefore (front ++ word) word where
  ends := List.suffix_append front word
  all := hword
  longest := by
    intro other hother hall
    by_contra hlonger
    have hends : word <:+ other :=
      List.suffix_of_suffix_length_le (List.suffix_append front word) hother (by omega)
    obtain ⟨more, rfl⟩ := hends
    obtain ⟨before, hbefore⟩ := hother
    rw [← List.append_assoc] at hbefore
    obtain rfl := List.append_cancel_right hbefore
    rcases List.eq_nil_or_concat' more with rfl | ⟨more, c, rfl⟩
    · simp at hlonger
    · have hlast := hfront c (by simp)
      rw [hall c (by simp)] at hlast
      cases hlast

theorem IsWordBefore.unique {text word other : List Char} (h : IsWordBefore text word)
    (hother : IsWordBefore text other) : word = other := by
  have hle := h.longest other hother.ends hother.all
  have hge := hother.longest word h.ends h.all
  exact (List.suffix_of_suffix_length_le h.ends hother.ends hge).eq_of_length (by omega)

theorem isWordBefore_wordBefore (cs : List Char) : IsWordBefore cs (wordBefore cs) := by
  obtain ⟨front, hcs, hword, hfront⟩ := exists_append_wordBefore cs
  have hbefore := isWordBefore_append hfront hword
  rwa [← hcs] at hbefore

theorem wordAt?_of_eq_append {line : String} {before after : List Char}
    (h : line.toList = before ++ after) : wordAt? line (byteLength before) =
      some (byteLength before - byteLength (wordBefore before),
        String.ofList (wordBefore before)) := by
  obtain ⟨front, hbefore, hword, hfront⟩ := exists_append_wordBefore before
  generalize wordBefore before = word at hbefore hword ⊢
  subst hbefore
  have hstart : wordStart? (encode line.toList) (byteLength (front ++ word)) =
      some (byteLength front) := by
    have hencode : encode line.toList = encode front ++ (encode word ++ encode after) := by
      rw [h]
      simp
    rw [h, encode_append, wordStart?_append hword, ← encode_append, ← h, hencode,
      wordStart?_of_front hfront]
  have hslice := slice?_of_eq_append (h.trans (List.append_assoc front word after))
  rw [← byteLength_append] at hslice
  have hlength : byteLength (front ++ word) - byteLength word = byteLength front := by simp
  simp only [wordAt?, hstart, hslice, hlength, Option.bind_eq_bind, Option.bind_some]
  rfl

theorem exists_append_of_slice? {text found : String} {start stop : Nat}
    (h : slice? text start stop = some found) :
    ∃ before after, text.toList = before ++ after ∧ byteLength before = stop := by
  rw [slice?] at h
  split at h
  · next hle =>
    split at h
    · cases h
    · next before rest hsplit =>
      obtain ⟨⟨middle, after⟩, hmiddle, -⟩ := Option.map_eq_some_iff.1 h
      obtain ⟨htext, hbefore⟩ := eq_append_of_splitAtByte? hsplit
      obtain ⟨rfl, hlength⟩ := eq_append_of_splitAtByte? hmiddle
      refine ⟨before ++ middle, after, by rw [htext, List.append_assoc], ?_⟩
      rw [byteLength_append]
      omega
  · cases h

theorem wordAt?_of_isOutside {line : String} {cursor : Nat} (h : IsOutside line cursor) :
    wordAt? line cursor = none := by
  by_contra hsome
  obtain ⟨⟨start, word⟩, hfound⟩ := Option.ne_none_iff_exists'.1 hsome
  simp only [wordAt?, Option.bind_eq_bind, Option.bind_eq_some_iff] at hfound
  obtain ⟨_, -, _, hslice, -⟩ := hfound
  obtain ⟨before, after, hline, rfl⟩ := exists_append_of_slice? hslice
  rw [isOutside_iff, hline, splitAtByte?_byteLength] at h
  cases h

namespace Vocabulary

variable (vocabulary : Vocabulary)

theorem complete?_of_eq_append {line : String} {before after : List Char}
    (h : line.toList = before ++ after) : vocabulary.complete? line (byteLength before) =
      some (vocabulary.answer (byteLength before)
        (byteLength before - byteLength (wordBefore before))
        (String.ofList (wordBefore before))) := by
  simp only [complete?, h, splitAtByte?_byteLength, Option.map_some]
  cases wordBefore before with
  | nil => simp [answer]
  | cons c word => simp [answer]

theorem answer_of_ne_nil {word : List Char} (h : word ≠ []) (cursor start : Nat) :
    vocabulary.answer cursor start (String.ofList word) =
      ⟨start, (vocabulary.candidates word).toList⟩ := by
  simp [answer, h]

theorem complete?_eq_none_iff {line : String} {cursor : Nat} :
    vocabulary.complete? line cursor = none ↔ IsOutside line cursor := by
  rw [complete?, Option.map_eq_none_iff, isOutside_iff]

/-- The answer is the one for the word that is found among the bytes. -/
theorem complete?_eq (line : String) (cursor : Nat) : vocabulary.complete? line cursor =
    (wordAt? line cursor).map fun (start, word) => vocabulary.answer cursor start word := by
  by_cases h : IsOutside line cursor
  · rw [(vocabulary.complete?_eq_none_iff).2 h, wordAt?_of_isOutside h]
    rfl
  · obtain ⟨before, after, hline, rfl⟩ := exists_append_of_not_isOutside h
    rw [vocabulary.complete?_of_eq_append hline, wordAt?_of_eq_append hline]
    rfl

theorem words_after (updates : List (List String)) :
    (after updates).words = lastWords updates := by
  rcases List.eq_nil_or_concat' updates with rfl | ⟨earlier, words, rfl⟩
  · rfl
  · rw [after, lastWords, List.foldl_concat, List.getLast?_concat]
    rfl

theorem mem_candidates_iff {word : List Char} {other : String} :
    other ∈ vocabulary.candidates word ↔ (other ∈ keywords ∨ other ∈ vocabulary.words) ∧
      word <+: other.toList ∧ other.toList ≠ word := by
  simp only [candidates, extendsWord, WordSet.mem_ofList, List.mem_filter, List.mem_append,
    Bool.and_eq_true, List.isPrefixOf_iff_prefix, decide_eq_true_eq]

/-- What is offered depends on the words that are known, and on nothing else about them. -/
theorem candidates_congr {other : Vocabulary} (h : ∀ w, w ∈ vocabulary.words ↔ w ∈ other.words)
    (word : List Char) : vocabulary.candidates word = other.candidates word := by
  have hlist : (vocabulary.candidates word).toList = (other.candidates word).toList := by
    apply WordSet.toList_eq (other.candidates word).increasing
    intro w
    rw [← WordSet.mem_def, mem_candidates_iff, mem_candidates_iff, h]
  generalize vocabulary.candidates word = set at hlist
  generalize other.candidates word = set' at hlist
  cases set
  cases set'
  cases hlist
  rfl

end Vocabulary

/-- The completion offers these words and no others, each once, in the order of their bytes,
and shows each as what it puts in. -/
structure Offers (completion : Completion) (words : String → Prop) : Prop where
  mem_iff : ∀ word, word ∈ completion.suggestions.map (·.replacement) ↔ words word
  shown : ∀ suggestion ∈ completion.suggestions, suggestion.display = suggestion.replacement
  increasing : (completion.suggestions.map (·.display)).Pairwise fun word other =>
    encode word.toList < encode other.toList
  sorted : ∀ list : List String, list.Nodup → (∀ word, word ∈ list ↔ words word) →
    completion.suggestions.map (·.display) = list.mergeSort bytesLe

theorem offers_of_toList (start : Nat) (set : WordSet) :
    Offers ⟨start, set.toList⟩ (· ∈ set) := by
  have hreplacement : (Completion.suggestions ⟨start, set.toList⟩).map (·.replacement) =
      set.toList := by
    rw [Completion.suggestions, List.map_map]
    exact List.map_id _
  have hdisplay : (Completion.suggestions ⟨start, set.toList⟩).map (·.display) =
      set.toList := by
    rw [Completion.suggestions, List.map_map]
    exact List.map_id _
  refine ⟨?_, ?_, ?_, ?_⟩
  · intro word
    rw [hreplacement]
    rfl
  · intro suggestion hmem
    obtain ⟨word, -, rfl⟩ := List.mem_map.1 hmem
    rfl
  · rw [hdisplay]
    exact set.increasing_bytes
  · intro list hnodup hmem
    rw [hdisplay, WordSet.mergeSort_eq hnodup hmem]

/-- Completing the word before the cursor is refused outside the line and inside a character,
and nowhere else. Otherwise the word is the longest run of word characters before the cursor;
it begins so many bytes before; and what is offered are the keywords and the words last known
that go on from it, sorted by their bytes, in whatever order and however often they came. -/
theorem completion_is_exact (updates : List (List String)) (line : String) (cursor : Nat) :
    ((Vocabulary.after updates).complete? line cursor = (wordAt? line cursor).map
      fun (start, word) => (Vocabulary.after updates).answer cursor start word) ∧
    ((Vocabulary.after updates).complete? line cursor = none ↔ IsOutside line cursor) ∧
    (¬IsOutside line cursor → ∃ before after word completion,
      line.toList = before ++ after ∧ byteLength before = cursor ∧ IsWordBefore before word ∧
      (Vocabulary.after updates).complete? line cursor = some completion ∧
      (word = [] → completion = ⟨cursor, []⟩) ∧
      (word ≠ [] → completion.start + byteLength word = cursor ∧
        Offers completion fun w => (w ∈ keywords ∨ w ∈ lastWords updates) ∧
          word <+: w.toList ∧ w.toList ≠ word)) ∧
    ∀ updates' : List (List String), (∀ w, w ∈ lastWords updates' ↔ w ∈ lastWords updates) →
      (Vocabulary.after updates').complete? line cursor =
        (Vocabulary.after updates).complete? line cursor := by
  have hknown := Vocabulary.words_after updates
  generalize Vocabulary.after updates = vocabulary at hknown ⊢
  refine ⟨vocabulary.complete?_eq line cursor, vocabulary.complete?_eq_none_iff, ?_, ?_⟩
  · intro hinside
    obtain ⟨before, after, hline, rfl⟩ := exists_append_of_not_isOutside hinside
    obtain ⟨front, hbefore, -⟩ := exists_append_wordBefore before
    refine ⟨before, after, wordBefore before, _, hline, rfl, isWordBefore_wordBefore before,
      vocabulary.complete?_of_eq_append hline, ?_, ?_⟩
    · intro hword
      simp [hword, Vocabulary.answer]
    · intro hword
      rw [vocabulary.answer_of_ne_nil hword]
      constructor
      · have hlength := congrArg byteLength hbefore
        rw [byteLength_append] at hlength
        simp only
        omega
      · have hoffers := offers_of_toList (byteLength before - byteLength (wordBefore before))
          (vocabulary.candidates (wordBefore before))
        simpa only [Vocabulary.mem_candidates_iff, hknown] using hoffers
  · intro updates' hsame
    have hwords : ∀ w, w ∈ (Vocabulary.after updates').words ↔ w ∈ vocabulary.words := by
      intro w
      rw [Vocabulary.words_after, hknown, hsame]
    have hcandidates := Vocabulary.candidates_congr _ hwords
    simp only [Vocabulary.complete?, hcandidates]

/-- The first byte of `é` is no place to complete at. Behind `in` two keywords are offered and
two known words, of which one is known twice; the words known before are forgotten. -/
theorem completion_is_exact_behind_wide_text :
    let updates := [["integer"], ["inter", "int8", "inline", "inter", "in"]]
    let completion : Completion := ⟨5, ["inline", "int", "int8", "inter"]⟩
    (Vocabulary.after updates).complete? "é = in" 7 = some completion ∧
      IsOutside "é = in" 1 ∧ ¬IsOutside "é = in" 7 ∧
      completion.suggestions.map (·.display) =
        ["inter", "inline", "int8", "int"].mergeSort bytesLe := by
  intro updates completion
  have hcomplete : (Vocabulary.after updates).complete? "é = in" 7 = some completion := by
    decide +kernel
  have houtside : IsOutside "é = in" 1 :=
    (completion_is_exact updates "é = in" 1).2.1.1 (by decide +kernel)
  have hinside : ¬IsOutside "é = in" 7 := by
    rw [isOutside_iff]
    decide +kernel
  refine ⟨hcomplete, houtside, hinside, ?_⟩
  obtain ⟨before, after, word, found, hline, hlength, hword, hfound, -, hoffers⟩ :=
    (completion_is_exact updates "é = in" 7).2.2.1 hinside
  obtain rfl : completion = found := Option.some.inj (hcomplete.symm.trans hfound)
  have hbefore : before = "é = in".toList := by
    have hsplit := splitAtByte?_byteLength before after
    rw [← hline, hlength] at hsplit
    have hwhole : splitAtByte? 7 "é = in".toList = some ("é = in".toList, []) := by
      decide +kernel
    exact (Prod.mk.inj (Option.some.inj (hsplit.symm.trans hwhole))).1
  subst hbefore
  obtain rfl : word = ['i', 'n'] := hword.unique (isWordBefore_wordBefore _)
  have hoffered := (hoffers (by decide)).2
  refine hoffered.sorted _ (by decide) ?_
  intro w
  rw [← hoffered.mem_iff]
  simp only [Completion.suggestions, completion, List.map_cons, List.map_nil, List.mem_cons,
    List.not_mem_nil, or_false]
  tauto

end CxxUnits.Editing
