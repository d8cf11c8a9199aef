import CxxUnits.Proofs.Text.Encoding
import CxxUnits.Proofs.Token.Opener
import CxxUnits.Proofs.Token.Tiling

/-!
Where a quoted literal ends. Its text is read character by character, a backslash taking the
one behind it along, up to the first quote or line feed that is not taken so, or to the end of
the source. The same end is found by walking over bytes, two at a time from a backslash on:
such a step may land inside a character, but no byte there looks like a quote, a line feed or
a backslash, and what the last step goes too far is cut off at the end of the source.
-/
namespace CxxUnits

open Text

/-- A backslash in the text takes the character behind it along, whichever that is; no quote and
no line feed stands in the text but those that are taken so. -/
inductive Unended (quote : Char) : List Char → Prop
  | nil : Unended quote []
  | plain {c : Char} {cs : List Char} (hback : c ≠ '\\') (hline : c ≠ '\n') (hquote : c ≠ quote)
      (rest : Unended quote cs) : Unended quote (c :: cs)
  | escaped {c : Char} {cs : List Char} (rest : Unended quote cs) :
      Unended quote ('\\' :: c :: cs)

/-- Of the text behind an opening quote the front belongs to the literal and the rest does
not. -/
inductive EndsLiteral (quote : Char) : List Char → List Char → Prop
  | atQuote {front rest : List Char} (h : Unended quote front) :
      EndsLiteral quote (front ++ [quote]) rest
  | atLineFeed {front rest : List Char} (h : Unended quote front) :
      EndsLiteral quote front ('\n' :: rest)
  | atEnd {front : List Char} (h : Unended quote front) : EndsLiteral quote front []
  | atBackslash {front : List Char} (h : Unended quote front) :
      EndsLiteral quote (front ++ ['\\']) []

theorem Unended.append {quote : Char} {front cs : List Char} (h : Unended quote front)
    (hcs : Unended quote cs) : Unended quote (front ++ cs) := by
  induction h with
  | nil => exact hcs
  | plain hback hline hquote _ ih => exact .plain hback hline hquote ih
  | escaped _ ih => exact .escaped ih

theorem EndsLiteral.after {quote : Char} {front body rest : List Char}
    (hfront : Unended quote front) (h : EndsLiteral quote body rest) :
    EndsLiteral quote (front ++ body) rest := by
  cases h with
  | atQuote h =>
      rw [← List.append_assoc]
      exact .atQuote (hfront.append h)
  | atLineFeed h => exact .atLineFeed (hfront.append h)
  | atEnd h => exact .atEnd (hfront.append h)
  | atBackslash h =>
      rw [← List.append_assoc]
      exact .atBackslash (hfront.append h)

/-- What is measured belongs to the literal. The cases are those of the measure. -/
theorem endsLiteral_quotedLength (quote : Char) (cs : List Char) :
    EndsLiteral quote (cs.take (quotedLength quote cs)) (cs.drop (quotedLength quote cs)) := by
  fun_induction quotedLength quote cs with
  | case1 => exact .atEnd .nil
  | case2 => exact .atBackslash .nil
  | case3 c cs ih => exact ih.after (.escaped .nil)
  | case4 cs => exact .atLineFeed .nil
  | case5 cs => exact .atQuote .nil
  | case6 c cs hone hmore hline hquote ih =>
      exact ih.after (.plain (ne_backslash hone hmore) hline hquote .nil)

theorem Unended.quotedLength_append {quote : Char} {front : List Char} (h : Unended quote front)
    (cs : List Char) : quotedLength quote (front ++ cs) = front.length + quotedLength quote cs := by
  induction h with
  | nil => simp
  | plain hback hline hquote _ ih =>
      rw [List.cons_append, quotedLength_cons quote _ hback, if_neg hline, if_neg hquote, ih,
        List.length_cons]
      omega
  | escaped _ ih =>
      rw [List.cons_append, List.cons_append, quotedLength, ih, List.length_cons, List.length_cons]
      omega

/-- There is one end: all that belongs to the literal is measured. -/
theorem EndsLiteral.quotedLength_eq {quote : Char} {body rest : List Char}
    (h : EndsLiteral quote body rest) (hquote : quote ∈ quotes) :
    quotedLength quote (body ++ rest) = body.length := by
  have hescape : quote ≠ '\\' ∧ quote ≠ '\n' := by
    rcases mem_quotes_iff.1 hquote with rfl | rfl <;> decide
  cases h with
  | atQuote h =>
      rw [List.append_assoc, h.quotedLength_append, List.singleton_append,
        quotedLength_cons quote _ hescape.1, if_neg hescape.2, if_pos rfl, List.length_append]
      rfl
  | atLineFeed h => simp [h.quotedLength_append, quotedLength]
  | atEnd h =>
      rw [h.quotedLength_append]
      rfl
  | atBackslash h => simp [h.quotedLength_append, quotedLength]

theorem EndsLiteral.unique {quote : Char} {body rest body' rest' : List Char}
    (h : EndsLiteral quote body rest) (h' : EndsLiteral quote body' rest')
    (hquote : quote ∈ quotes) (hsame : body ++ rest = body' ++ rest') : body = body' := by
  have hlength := h.quotedLength_eq hquote
  rw [hsame, h'.quotedLength_eq hquote] at hlength
  exact (List.append_inj hsame hlength.symm).1

/-- What a look at one byte leads to. -/
inductive ByteStep
  | goOn (next : Nat)
  | leave (stop : Nat)
  deriving DecidableEq

def byteOf (c : Char) : UInt8 := UInt8.ofNat c.toNat

/-- A look at byte `i` of those behind an opening quote. No other byte is looked at. -/
def quotedStep (quote : UInt8) (bytes : List UInt8) (i : Nat) : ByteStep :=
  match bytes[i]? with
  | none => .leave i
  | some b =>
    if b = byteOf '\\' then .goOn (i + 2)
    else if b = byteOf '\n' then .leave i
    else if b = quote then .leave (i + 1)
    else .goOn (i + 1)

/-- Begun at byte `i`, the walk takes so many looks and is left at byte `stop`. -/
inductive WalkEnds (quote : UInt8) (bytes : List UInt8) : Nat → Nat → Nat → Prop
  | leave {i stop : Nat} (hstep : quotedStep quote bytes i = .leave stop) :
      WalkEnds quote bytes i 1 stop
  | goOn {i next looks stop : Nat} (hstep : quotedStep quote bytes i = .goOn next)
      (rest : WalkEnds quote bytes next looks stop) : WalkEnds quote bytes i (looks + 1) stop

theorem lt_of_quotedStep {quote : UInt8} {bytes : List UInt8} {i next : Nat}
    (h : quotedStep quote bytes i = .goOn next) : i < next ∧ i < bytes.length := by
  simp only [quotedStep] at h
  split at h
  · cases h
  · next b hb =>
    have hlength := (List.getElem?_eq_some_iff.1 hb).1
    split at h
    · cases h
      omega
    · split at h
      · cases h
      · split at h
        · cases h
        · cases h
          omega

/-- The walk comes to an end, whatever the bytes are. -/
theorem exists_walkEnds (quote : UInt8) (bytes : List UInt8) (i : Nat) :
    ∃ looks stop, looks ≤ bytes.length - i + 1 ∧ WalkEnds quote bytes i looks stop := by
  induction hleft : bytes.length - i using Nat.strongRecOn generalizing i with
  | ind left ih =>
      subst hleft
      cases hstep : quotedStep quote bytes i with
      | leave stop => exact ⟨1, stop, Nat.le_add_left 1 _, .leave hstep⟩
      | goOn next =>
          have hlt := lt_of_quotedStep hstep
          obtain ⟨looks, stop, hlooks, hends⟩ := ih (bytes.length - next) (by omega) next rfl
          exact ⟨looks + 1, stop, by omega, .goOn hstep hends⟩

theorem WalkEnds.unique {quote : UInt8} {bytes : List UInt8} {i looks stop looks' stop' : Nat}
    (h : WalkEnds quote bytes i looks stop) (h' : WalkEnds quote bytes i looks' stop') :
    stop = stop' := by
  induction h generalizing looks' with
  | leave hstep =>
      cases h' with
      | leave hstep' => exact ByteStep.leave.inj (hstep.symm.trans hstep')
      | goOn hstep' _ => cases hstep.symm.trans hstep'
  | goOn hstep _ ih =>
      cases h' with
      | leave hstep' => cases hstep.symm.trans hstep'
      | goOn hstep' rest' =>
          cases ByteStep.goOn.inj (hstep.symm.trans hstep')
          exact ih rest'

theorem quotedStep_append (quote b : UInt8) (before rest : List UInt8) :
    quotedStep quote (before ++ b :: rest) before.length =
      if b = byteOf '\\' then .goOn (before.length + 2)
      else if b = byteOf '\n' then .leave before.length
      else if b = quote then .leave (before.length + 1)
      else .goOn (before.length + 1) := by
  simp [quotedStep]

theorem quotedStep_of_length_le {quote : UInt8} {bytes : List UInt8} {i : Nat}
    (h : bytes.length ≤ i) : quotedStep quote bytes i = .leave i := by
  simp [quotedStep, h]

/-- Wherever these bytes stand, the walk goes on behind them. -/
def Passes (quote : UInt8) (passed : List UInt8) : Prop :=
  ∀ before rest looks stop,
    WalkEnds quote (before ++ (passed ++ rest)) (before.length + passed.length) looks stop →
      ∃ looks', WalkEnds quote (before ++ (passed ++ rest)) before.length looks' stop

namespace Passes

variable {quote : UInt8} {passed passed' : List UInt8}

theorem nil : Passes quote [] :=
  fun _ _ looks _ hends => ⟨looks, hends⟩

theorem append (h : Passes quote passed) (h' : Passes quote passed') :
    Passes quote (passed ++ passed') := by
  intro before rest looks stop hends
  have hinner := h' (before ++ passed) rest looks stop
  rw [List.append_assoc, List.length_append] at hinner
  rw [List.append_assoc, List.length_append, ← Nat.add_assoc] at hends
  obtain ⟨looks', hends'⟩ := hinner hends
  rw [List.append_assoc]
  exact h before (passed' ++ rest) looks' stop hends'

theorem of_step (h : ∀ before rest, quotedStep quote (before ++ (passed ++ rest)) before.length =
    .goOn (before.length + passed.length)) : Passes quote passed :=
  fun before rest looks _ hends => ⟨looks + 1, .goOn (h before rest) hends⟩

theorem of_forall (h : ∀ b ∈ passed, b ≠ byteOf '\\' ∧ b ≠ byteOf '\n' ∧ b ≠ quote) :
    Passes quote passed := by
  induction passed with
  | nil => exact nil
  | cons b passed ih =>
      obtain ⟨⟨hback, hline, hquote⟩, hpassed⟩ := List.forall_mem_cons.1 h
      have hone : Passes quote [b] := by
        apply of_step
        intro before rest
        rw [List.singleton_append, quotedStep_append, if_neg hback, if_neg hline, if_neg hquote]
        rfl
      exact hone.append (ih hpassed)

/-- A backslash is passed together with the byte behind it, whichever that is. -/
theorem escape (b : UInt8) : Passes quote [byteOf '\\', b] := by
  apply of_step
  intro before rest
  rw [List.cons_append, quotedStep_append, if_pos rfl]
  rfl

end Passes

theorem encode_cons_of_lt {c : Char} (hc : c.toNat < 128) (cs : List Char) :
    encode (c :: cs) = byteOf c :: encode cs := by
  rw [encode_cons, utf8EncodeChar_of_lt hc]
  rfl

/-- Behind its first byte a character has none that could be taken for one of these. -/
theorem ne_byteOf_of_mem_tail {c d : Char} {b : UInt8} (hd : d.toNat < 128)
    (h : b ∈ (String.utf8EncodeChar c).tail) : b ≠ byteOf d := by
  rintro rfl
  by_cases hc : c.toNat < 128
  · rw [utf8EncodeChar_of_lt hc] at h
    cases h
  · have hle := le_of_mem_utf8EncodeChar hc (List.mem_of_mem_tail h)
    simp only [byteOf, UInt8.toNat_ofNat'] at hle
    omega

theorem lt_of_mem_quotes {quote : Char} (h : quote ∈ quotes) : quote.toNat < 128 := by
  rcases mem_quotes_iff.1 h with rfl | rfl <;> decide

/-- The walk goes on behind every text that does not end the literal. Where a character is
taken along by a backslash, only its first byte is passed with that; the others are passed one
by one. -/
theorem Unended.passes {quote : Char} {front : List Char} (h : Unended quote front)
    (hquote : quote ∈ quotes) : Passes (byteOf quote) (encode front) := by
  induction h with
  | nil => exact .nil
  | @plain c cs hback hline hne _ ih =>
      rw [encode_cons]
      refine Passes.append (.of_forall ?_) ih
      have hbyte : ∀ d : Char, d.toNat < 128 → c ≠ d → ∀ b ∈ String.utf8EncodeChar c,
          b ≠ byteOf d := by
        rintro d hd hcd _ hmem rfl
        exact hcd ((mem_utf8EncodeChar_iff hd c).1 hmem).symm
      intro b hb
      exact ⟨hbyte _ (by decide) hback b hb, hbyte _ (by decide) hline b hb,
        hbyte _ (lt_of_mem_quotes hquote) hne b hb⟩
  | @escaped c cs _ ih =>
      obtain ⟨b, tail, hbytes⟩ := List.exists_cons_of_ne_nil (String.utf8EncodeChar_ne_nil (c := c))
      rw [encode_cons_of_lt (by decide), encode_cons, hbytes]
      refine (Passes.escape b).append (.append (.of_forall ?_) ih)
      intro b' hb'
      have hmem : b' ∈ (String.utf8EncodeChar c).tail := by rwa [hbytes]
      exact ⟨ne_byteOf_of_mem_tail (by decide) hmem, ne_byteOf_of_mem_tail (by decide) hmem,
        ne_byteOf_of_mem_tail (lt_of_mem_quotes hquote) hmem⟩

/-- A walk that ends from behind such a text on ends there from its front on. -/
theorem Unended.walkEnds {quote : Char} {front : List Char} {bytes : List UInt8}
    {looks stop : Nat} (h : Unended quote front) (hquote : quote ∈ quotes)
    (hends : WalkEnds (byteOf quote) (encode front ++ bytes) (encode front).length looks stop) :
    ∃ looks', WalkEnds (byteOf quote) (encode front ++ bytes) 0 looks' stop := by
  have hpasses := h.passes hquote [] bytes looks stop
  rw [List.nil_append, List.length_nil, Nat.zero_add] at hpasses
  exact hpasses hends

/-- The walk is left right behind the literal, or one byte further where the source ends in
a backslash. -/
theorem EndsLiteral.exists_walkEnds {quote : Char} {body rest : List Char}
    (h : EndsLiteral quote body rest) (hquote : quote ∈ quotes) :
    ∃ looks stop, WalkEnds (byteOf quote) (encode (body ++ rest)) 0 looks stop ∧
      min stop (encode (body ++ rest)).length = byteLength body := by
  have hlt := lt_of_mem_quotes hquote
  have hescape : byteOf quote ≠ byteOf '\\' ∧ byteOf quote ≠ byteOf '\n' := by
    rcases mem_quotes_iff.1 hquote with rfl | rfl <;> decide
  cases h with
  | @atQuote front rest h =>
      have hstep := quotedStep_append (byteOf quote) (byteOf quote) (encode front) (encode rest)
      rw [if_neg hescape.1, if_neg hescape.2, if_pos rfl] at hstep
      obtain ⟨looks, hends⟩ := h.walkEnds hquote (.leave hstep)
      rw [List.append_assoc, List.singleton_append, encode_append, encode_cons_of_lt hlt]
      refine ⟨looks, _, hends, ?_⟩
      have hsize : quote.utf8Size = 1 := by
        rw [← String.length_utf8EncodeChar, utf8EncodeChar_of_lt hlt]
        rfl
      simp [hsize]
  | @atLineFeed front rest h =>
      have hstep :=
        quotedStep_append (byteOf quote) (byteOf '\n') (encode body) (encode rest)
      rw [if_neg (by decide), if_pos rfl] at hstep
      obtain ⟨looks, hends⟩ := h.walkEnds hquote (.leave hstep)
      rw [encode_append, encode_cons_of_lt (by decide)]
      exact ⟨looks, _, hends, by simp⟩
  | atEnd h =>
      have hstep : quotedStep (byteOf quote) (encode body ++ []) (encode body).length =
          .leave (encode body).length := quotedStep_of_length_le (by simp)
      obtain ⟨looks, hends⟩ := h.walkEnds hquote (.leave hstep)
      rw [List.append_nil] at hends ⊢
      exact ⟨looks, _, hends, by simp⟩
  | @atBackslash front h =>
      have hstep := quotedStep_append (byteOf quote) (byteOf '\\') (encode front) []
      rw [if_pos rfl] at hstep
      have hbeyond : quotedStep (byteOf quote) (encode front ++ [byteOf '\\'])
          ((encode front).length + 2) = .leave ((encode front).length + 2) :=
        quotedStep_of_length_le (by simp)
      obtain ⟨looks, hends⟩ := h.walkEnds hquote (.goOn hstep (.leave hbeyond))
      have hsize : '\\'.utf8Size = 1 := rfl
      rw [List.append_nil, encode_append, encode_cons_of_lt (by decide)]
      exact ⟨looks, _, hends, by simp [hsize]⟩

/-- What a token of this kind is quoted with. -/
def literalQuotes : List (TokenKind × Char) :=
  [(.string, '"'), (.character, '\'')]

/-- The text begins like a raw string. -/
def IsRaw (text : String) : Prop :=
  ∃ encoding ∈ encodings, (encoding ++ "R\"").toList <+: text.toList

theorem literalRule_cases {rule : Rule} {kind : TokenKind} (h : rule ∈ rules)
    (hkind : rule.action.kind? = some kind) (hliteral : kind = .string ∨ kind = .character) :
    ∃ encoding ∈ encodings, rule = .spelled (encoding ++ "R\"") .rawString ∨
      ∃ quote, (kind, quote) ∈ literalQuotes ∧
        rule = ⟨.spelling (encoding.toList ++ [quote]), .quoted quote kind⟩ := by
  have hall : ∀ rule ∈ rules, ∀ kind ∈ [TokenKind.string, TokenKind.character],
      rule.action.kind? = some kind →
        ∃ encoding ∈ encodings, rule = .spelled (encoding ++ "R\"") .rawString ∨
          ∃ found ∈ literalQuotes, found.1 = kind ∧
            rule = ⟨.spelling (encoding.toList ++ [found.2]), .quoted found.2 kind⟩ := by
    decide +kernel
  obtain ⟨encoding, hencoding, hrule⟩ := hall rule h kind (by simpa using hliteral) hkind
  refine ⟨encoding, hencoding, hrule.imp_right ?_⟩
  rintro ⟨⟨_, quote⟩, hmem, rfl, hquoted⟩
  exact ⟨quote, hmem, hquoted⟩

/-- A literal that is not raw is read as an encoding, a quote and the body that this quote
opens. -/
theorem ReadsAs.of_quoted {cs text : List Char} {kind : TokenKind}
    (h : ReadsAs cs (some kind) text) (hliteral : kind = .string ∨ kind = .character)
    (hraw : ¬IsRaw (String.ofList text)) :
    ∃ encoding ∈ encodings, ∃ quote body rest, (kind, quote) ∈ literalQuotes ∧
      text = encoding.toList ++ quote :: body ∧ cs = text ++ rest ∧
      EndsLiteral quote body rest := by
  generalize hkind : some kind = kind? at h
  cases h with
  | @whole rule front body rest hrule hbody =>
      obtain ⟨encoding, hencoding, rfl | ⟨quote, hquote, rfl⟩⟩ :=
        literalRule_cases hrule.mem hkind.symm hliteral
      · have hfront : front = (encoding ++ "R\"").toList := hrule.isMatch.1
        refine absurd ⟨encoding, hencoding, ?_⟩ hraw
        rw [String.toList_ofList, hfront]
        exact List.prefix_append _ body
      · have hfront : front = encoding.toList ++ [quote] := hrule.isMatch.1
        have hlength : quotedLength quote (body ++ rest) = body.length := Option.some.inj hbody
        have hends := endsLiteral_quotedLength quote (body ++ rest)
        rw [hlength, List.take_left, List.drop_left] at hends
        exact ⟨encoding, hencoding, quote, body, rest, hquote, by simp [hfront],
          (List.append_assoc front body rest).symm, hends⟩
  | rejected | stray =>
      obtain rfl := Option.some.inj hkind
      simp at hliteral

/-- A quoted literal of a source ends where the text behind its opening quote says, read
character by character. There is one such end for every text, and a walk over the bytes of the
text that steps over two of them from a backslash on finds it, in at most one look more than
there are bytes: what is passed, cut off at the end of the text, are the bytes of the body. -/
theorem quoted_literals_end_as_read (source : String) :
    (∀ token ∈ lex source, token.kind = .string ∨ token.kind = .character → ¬IsRaw token.text →
      ∃ before encoding quote body rest, encoding ∈ encodings ∧
        (token.kind, quote) ∈ literalQuotes ∧
        source.toList = before ++ (encoding.toList ++ quote :: (body ++ rest)) ∧
        token.text.toList = encoding.toList ++ quote :: body ∧
        token.span.start = byteLength before ∧
        token.span.stop = byteLength (before ++ (encoding.toList ++ quote :: body)) ∧
        EndsLiteral quote body rest) ∧
    ∀ quote ∈ quotes, ∀ cs : List Char, ∃ body rest, cs = body ++ rest ∧
      EndsLiteral quote body rest ∧
      (∀ body' rest', cs = body' ++ rest' → EndsLiteral quote body' rest' → body' = body) ∧
      (∃ looks stop, looks ≤ byteLength cs + 1 ∧
        WalkEnds (byteOf quote) (encode cs) 0 looks stop) ∧
      ∀ looks stop, WalkEnds (byteOf quote) (encode cs) 0 looks stop →
        min stop (byteLength cs) = byteLength body := by
  constructor
  · intro token hmem hliteral hraw
    obtain ⟨before, rest', hsource, hstart, hreads⟩ :=
      (lexesTo_pieces 0 source.toList).exists_front hmem
    obtain ⟨-, -, -, -, hstop, -⟩ :=
      (tiles_tokensFrom 0 source.toList).exists_append_of_mem hmem
    obtain ⟨encoding, hencoding, quote, body, rest, hquote, htext, rfl, hends⟩ :=
      hreads.of_quoted hliteral (by rwa [String.ofList_toList])
    rw [Nat.zero_add] at hstart
    refine ⟨before, encoding, quote, body, rest, hencoding, hquote, ?_, htext, hstart, ?_, hends⟩
    · rw [hsource, htext]
      simp
    · rw [hstop, hstart, byteLength_append, htext]
  · intro quote hquote cs
    have hends := endsLiteral_quotedLength quote cs
    have hsplit := List.take_append_drop (quotedLength quote cs) cs
    refine ⟨_, _, hsplit.symm, hends, ?_, ?_, ?_⟩
    · intro body' rest' hcs hends'
      exact hends'.unique hends hquote (hcs.symm.trans hsplit.symm)
    · obtain ⟨looks, stop, hlooks, hwalk⟩ := exists_walkEnds (byteOf quote) (encode cs) 0
      rw [length_encode] at hlooks
      exact ⟨looks, stop, hlooks, hwalk⟩
    · intro looks stop hwalk
      obtain ⟨looks', stop', hwalk', hmin⟩ := hends.exists_walkEnds hquote
      rw [hsplit] at hwalk' hmin
      rw [hwalk.unique hwalk', ← length_encode cs, hmin]

/-- A backslash takes a character of two bytes along, another one a quote, and a third one the
line feed; the literal ends before the second line feed. -/
theorem quoted_literals_end_as_read_before_line_feed :
    let source := "x u8\"\\é\\\"ß\\\n(\n\""
    let token : Token := ⟨⟨.string, "u8\"\\é\\\"ß\\\n("⟩, ⟨2, 15⟩⟩
    token ∈ lex source ∧ ¬IsRaw token.text ∧
      ∃ before encoding quote body rest, encoding ∈ encodings ∧
        source.toList = before ++ (encoding.toList ++ quote :: (body ++ rest)) ∧
        token.span.stop = byteLength (before ++ (encoding.toList ++ quote :: body)) ∧
        EndsLiteral quote body rest := by
  intro source token
  have hmem : token ∈ lex source := by decide +kernel
  have hraw : ¬IsRaw token.text := by
    have hnone : ∀ encoding ∈ encodings,
        ¬(encoding ++ "R\"").toList <+: token.text.toList := by decide +kernel
    rintro ⟨encoding, hencoding, hfront⟩
    exact hnone encoding hencoding hfront
  obtain ⟨before, encoding, quote, body, rest, hencoding, -, hsource, -, -, hstop, hends⟩ :=
    (quoted_literals_end_as_read source).1 token hmem (.inl rfl) hraw
  exact ⟨hmem, hraw, before, encoding, quote, body, rest, hencoding, hsource, hstop, hends⟩

end CxxUnits
