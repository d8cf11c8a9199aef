import CxxUnits.Proofs.Token.Tiling

/-!
A fragment lexer over any run of calls. Each fragment it is given gets the next number and
is read from its first token on, whatever was left unread before; past its last token there
are ends of input only. Every token can be spelled out from the lexer for good, since no
call changes a fragment that has its number. An end of input that is handed out before the
first fragment belongs to none; it bears the number the first fragment will get, and is
spelled empty then too.
-/
namespace CxxUnits

open Text

/-- The end of input behind a text. -/
def endOf (code : String) : Token :=
  ⟨.atEnd, ⟨code.utf8ByteSize, code.utf8ByteSize⟩⟩

/-- What is read of a text after so many tokens, comments left out. -/
def tokenAt (code : String) (position : Nat) : Token :=
  (((lex code).filter (·.kind ≠ .comment))[position]?).getD (endOf code)

theorem slice?_of_mem_lex {source : String} {token : Token} (h : token ∈ lex source) :
    slice? source token.span.start token.span.stop = some token.text := by
  have htiles : Tiles 0 (lex source) source.toList := tiles_tokensFrom 0 source.toList
  obtain ⟨before, after, hsource, hstart, hstop, -⟩ := htiles.exists_append_of_mem h
  rw [hstop, hstart, Nat.zero_add, slice?_of_eq_append hsource, String.ofList_toList]

theorem slice?_endOf (code : String) :
    slice? code (endOf code).span.start (endOf code).span.stop = some "" := by
  have hcode : code.toList = code.toList ++ ([] ++ []) := by simp
  have hslice := slice?_of_eq_append hcode
  rw [byteLength_toList] at hslice
  exact hslice

theorem slice?_empty (text : String) : slice? text 0 0 = some "" := by
  have hfront : text.toList = [] ++ ([] ++ text.toList) := rfl
  exact slice?_of_eq_append hfront

theorem slice?_tokenAt (code : String) (position : Nat) :
    slice? code (tokenAt code position).span.start (tokenAt code position).span.stop =
      some (tokenAt code position).text := by
  unfold tokenAt
  cases hfound : ((lex code).filter (·.kind ≠ .comment))[position]? with
  | none => exact slice?_endOf code
  | some token =>
      have hmem : token ∈ lex code := (List.mem_filter.1 (List.mem_of_getElem? hfound)).1
      exact slice?_of_mem_lex hmem

theorem Fragments.text_eq (fragments : Fragments) (number : Nat) :
    fragments.text number = (fragments.texts.toList[number]?).getD "" := by
  rw [text, Array.getElem?_toList]

namespace FragmentLexer

inductive Call
  | enter (fragment : String)
  | next
  deriving DecidableEq

inductive Reply
  /-- The fragment has this number. -/
  | entered (number : Nat)
  | read (token : FragmentToken)
  deriving DecidableEq

def Call.fragment? : Call → Option String
  | enter fragment => some fragment
  | next => none

def Reply.number? : Reply → Option Nat
  | entered number => some number
  | read _ => none

def Call.perform (lexer : FragmentLexer) : Call → Reply × FragmentLexer
  | enter fragment => (.entered (lexer.enter fragment).current, lexer.enter fragment)
  | next => (.read lexer.next.1, lexer.next.2)

def after (lexer : FragmentLexer) : List Call → FragmentLexer
  | [] => lexer
  | call :: later => after (call.perform lexer).2 later

def replies (lexer : FragmentLexer) : List Call → List Reply
  | [] => []
  | call :: later => (call.perform lexer).1 :: replies (call.perform lexer).2 later

/-- The fragments given, in order. -/
def entries (calls : List Call) : List String :=
  calls.filterMap Call.fragment?

/-- What the lexer hands out after so many tokens, if no fragment comes in between. -/
def peek (lexer : FragmentLexer) (position : Nat) : FragmentToken :=
  (lexer.pending[position]?).getD ⟨endOf (lexer.fragments.text lexer.current), lexer.current⟩

theorem replies_append (lexer : FragmentLexer) (earlier later : List Call) :
    replies lexer (earlier ++ later) =
      replies lexer earlier ++ replies (after lexer earlier) later := by
  induction earlier generalizing lexer with
  | nil => rfl
  | cons call earlier ih => exact congrArg (_ :: ·) (ih _)

theorem next_eq (lexer : FragmentLexer) :
    lexer.next = (lexer.peek 0, { lexer with pending := lexer.pending.tail }) := by
  obtain ⟨fragments, pending, current⟩ := lexer
  cases pending <;> rfl

theorem peek_next (lexer : FragmentLexer) (position : Nat) :
    lexer.next.2.peek position = lexer.peek (position + 1) := by
  simp [next_eq, peek]

theorem replies_replicate_next (lexer : FragmentLexer) (count : Nat) :
    replies lexer (List.replicate count .next) =
      (List.range count).map fun position => .read (lexer.peek position) := by
  induction count generalizing lexer with
  | zero => rfl
  | succ count ih =>
      have hfirst : lexer.next.1 = lexer.peek 0 := by rw [next_eq]
      rw [List.replicate_succ, replies, List.range_succ_eq_map, List.map_cons, List.map_map]
      rw [Call.perform, ih, hfirst]
      simp [Function.comp_def, peek_next]

/-- No call changes a fragment; a new one goes behind those there are. -/
theorem toList_texts_perform (lexer : FragmentLexer) (call : Call) :
    (call.perform lexer).2.fragments.texts.toList =
      lexer.fragments.texts.toList ++ call.fragment?.toList := by
  cases call with
  | enter fragment => exact Array.toList_push
  | next => simp [Call.perform, Call.fragment?, next_eq]

theorem toList_texts_after (lexer : FragmentLexer) (calls : List Call) :
    (after lexer calls).fragments.texts.toList =
      lexer.fragments.texts.toList ++ entries calls := by
  induction calls generalizing lexer with
  | nil => simp [after, entries]
  | cons call later ih =>
      rw [after, ih, toList_texts_perform, List.append_assoc]
      cases call <;> rfl

theorem size_fragments_perform (lexer : FragmentLexer) (call : Call) :
    (call.perform lexer).2.fragments.size =
      lexer.fragments.size + call.fragment?.toList.length := by
  have htexts := congrArg List.length (toList_texts_perform lexer call)
  rw [List.length_append] at htexts
  exact htexts

/-- Fragments are numbered on from those there are. -/
theorem numbers_replies (lexer : FragmentLexer) (calls : List Call) :
    (replies lexer calls).filterMap Reply.number? =
      List.range' lexer.fragments.size (entries calls).length := by
  induction calls generalizing lexer with
  | nil => rfl
  | cons call later ih =>
      have hlater := ih (call.perform lexer).2
      rw [size_fragments_perform] at hlater
      cases call with
      | enter fragment => exact congrArg (lexer.fragments.size :: ·) hlater
      | next => exact hlater

theorem peek_enter (lexer : FragmentLexer) (code : String) (position : Nat) :
    (lexer.enter code).peek position = ⟨tokenAt code position, lexer.fragments.size⟩ := by
  have htext : (lexer.fragments.add code).text lexer.fragments.size = code := by
    simp [Fragments.text, Fragments.add, Fragments.size]
  have hpeek : (lexer.enter code).peek position =
      (((fragmentTokens lexer.fragments.size code)[position]?).getD
        ⟨endOf ((lexer.fragments.add code).text lexer.fragments.size), lexer.fragments.size⟩) :=
    rfl
  rw [hpeek, htext, fragmentTokens, List.getElem?_map, tokenAt]
  cases ((lex code).filter (·.kind ≠ .comment))[position]? <;> rfl

theorem spelling_of_slice? {lexer : FragmentLexer} {token : FragmentToken} {text : String}
    (h : slice? (lexer.fragments.text token.fragment) token.span.start token.span.stop =
      some text) : lexer.spelling token = text := by
  rw [spelling, Fragments.spelling, h, Option.getD_some]

theorem text_after (calls : List Call) (number : Nat) :
    (after {} calls).fragments.text number = ((entries calls)[number]?).getD "" := by
  rw [Fragments.text_eq, toList_texts_after, List.nil_append]

/-- A fragment stays under its number whatever is asked after it was given. -/
theorem text_after_enter (earlier later : List Call) (code : String) :
    (after {} (earlier ++ .enter code :: later)).fragments.text (entries earlier).length =
      code := by
  have hentries : entries (earlier ++ .enter code :: later) =
      entries earlier ++ code :: entries later :=
    List.filterMap_append
  rw [text_after, hentries, List.getElem?_append_right (Nat.le_refl _), Nat.sub_self]
  rfl

/-- The numbers of fragments count on from zero. What is read after a fragment was given are
its tokens in order and then ends of input, all of them with its number; and whatever is
asked later, the lexer still holds the fragment under that number and spells each token as
the fragment has it. -/
theorem tokens_keep_their_text :
    (∀ calls, (replies {} calls).filterMap Reply.number? = List.range (entries calls).length) ∧
    (∀ count, replies {} (List.replicate count .next) =
      List.replicate count (.read ⟨endOf "", 0⟩)) ∧
    (∀ calls, (after {} calls).spelling ⟨endOf "", 0⟩ = "") ∧
    ∀ earlier code, let number := (entries earlier).length
      (∀ count, replies {} (earlier ++ .enter code :: List.replicate count .next) =
        replies {} earlier ++ .entered number ::
          (List.range count).map fun position => .read ⟨tokenAt code position, number⟩) ∧
      ∀ later position, let token : FragmentToken := ⟨tokenAt code position, number⟩
        let lexer := after {} (earlier ++ .enter code :: later)
        lexer.fragments.text number = code ∧ lexer.spelling token = token.text ∧
          slice? code token.span.start token.span.stop = some (lexer.spelling token) := by
  refine ⟨?_, ?_, ?_, ?_⟩
  · intro calls
    rw [numbers_replies, List.range_eq_range']
    rfl
  · intro count
    have hpeek : ∀ position, peek {} position = ⟨endOf "", 0⟩ := fun _ => rfl
    simp [replies_replicate_next, hpeek, List.map_const']
  · intro calls
    exact spelling_of_slice? (slice?_empty _)
  · intro earlier code number
    constructor
    · intro count
      have hnumber : (after {} earlier).fragments.size = number :=
        congrArg List.length (toList_texts_after {} earlier)
      rw [replies_append, replies, Call.perform, replies_replicate_next]
      simp only [peek_enter, hnumber]
      exact congrArg (_ ++ Reply.entered · :: _) hnumber
    · intro later position token lexer
      have htext : lexer.fragments.text number = code := text_after_enter earlier later code
      have hslice := slice?_tokenAt code position
      have hspelling : lexer.spelling token = token.text := by
        apply spelling_of_slice?
        rw [htext]
        exact hslice
      refine ⟨htext, hspelling, ?_⟩
      rw [hspelling]
      exact hslice

end FragmentLexer

end CxxUnits
