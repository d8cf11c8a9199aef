import CxxUnits.Editing.Highlight
import CxxUnits.Proofs.Token.Tiling

/-!
Colouring adds codes to a line and changes nothing else. What a terminal shows of a coloured
line is the line; every colour that is set is ended before the next one is set and before the
line is over; and what is shown in colour are the tokens that have one, each whole. The
coloured line is also what comes of putting gaps, tokens and tail together by the byte offsets
of the tokens, and none of the offsets reaches into a character.
-/
namespace CxxUnits.Editing

open Text

/-- What a terminal takes a text for: characters that it shows, and codes. -/
inductive Sign
  | shown (c : Char)
  | code (text : String)
  deriving DecidableEq

def escape : Char := '\x1b'

/-- Read a text, perhaps in the middle of a code of which this much has been read, last
character first. A code goes on from an escape to the next `m`. -/
def signsFrom : Option (List Char) → List Char → List Sign
  | none, [] => []
  | some begun, [] => [.code (String.ofList begun.reverse)]
  | none, c :: cs => if c = escape then signsFrom (some [c]) cs else .shown c :: signsFrom none cs
  | some begun, c :: cs =>
    if c = 'm' then .code (String.ofList (c :: begun).reverse) :: signsFrom none cs
    else signsFrom (some (c :: begun)) cs

def signs (text : String) : List Sign :=
  signsFrom none text.toList

def Sign.shown? : Sign → Option Char
  | shown c => some c
  | code _ => none

def Sign.code? : Sign → Option String
  | shown _ => none
  | code text => some text

/-- The text without the codes in it. -/
def visible (text : String) : String :=
  String.ofList ((signs text).filterMap Sign.shown?)

def codes (text : String) : List String :=
  (signs text).filterMap Sign.code?

/-- A colour is set, then ended, as often as need be. -/
inductive Alternates : List String → Prop
  | nil : Alternates []
  | pair {colour : Colour} {rest : List String} (hrest : Alternates rest) :
      Alternates (colour.code :: resetCode :: rest)

/-- The spans of visible text that is shown in a colour, what comes next being at byte
`position` and the colour having been set at byte `since?`, if one is. A code ends the colour
before it, and sets another unless it is the one that resets. -/
def regionsFrom (position : Nat) (since? : Option Nat) : List Sign → List Span
  | [] => since?.toList.map (⟨·, position⟩)
  | .shown c :: rest => regionsFrom (position + c.utf8Size) since? rest
  | .code text :: rest =>
    since?.toList.map (⟨·, position⟩) ++
      regionsFrom position (if text = resetCode then none else some position) rest

def regions (text : String) : List Span :=
  regionsFrom 0 none (signs text)

/-- The token is shown in colour, if this is the one before it. -/
def IsColoured (previous? : Option Token) (token : Token) : Prop :=
  token.kind ∈ [.string, .character, .number, .comment, .hash, .hashHash] ∨
    token.kind = .identifier ∧ (previous?.map (·.kind) = some .hash ∨ token.text ∈ keywords)

instance (previous? : Option Token) (token : Token) : Decidable (IsColoured previous? token) :=
  inferInstanceAs (Decidable (_ ∨ _))

/-- The spans of the tokens that are shown in colour, behind this one. -/
def colouredSpans : Option Token → List Token → List Span
  | _, [] => []
  | previous?, token :: rest =>
    if IsColoured previous? token then token.span :: colouredSpans (some token) rest
    else colouredSpans (some token) rest

/-- The text between two offsets, which is not cut out of the line where there is none. -/
def between? (line : String) (start stop : Nat) : Option String :=
  if start < stop then slice? line start stop else some ""

/-- The line put together by offsets, from byte `done` on: before each token the text since
the last one, then the token, and behind them the rest of the line. Nothing if an offset lies
inside a character or outside the line. -/
def assemble? (line : String) (done : Nat) (afterHash : Bool) : List Token → Option String
  | [] => between? line done line.utf8ByteSize
  | token :: rest => do
    let gap ← between? line done token.span.start
    let text ← slice? line token.span.start token.span.stop
    let more ← assemble? line token.span.stop (token.kind = .hash) rest
    return gap ++ Segment.render ⟨text, colour? token.kind text afterHash⟩ ++ more

theorem colour?_isSome_iff (token : Token) (previous? : Option Token) :
    (colour? token.kind token.text (previous?.map (·.kind) = some .hash)).isSome = true ↔
      IsColoured previous? token := by
  cases hkind : token.kind with
  | identifier =>
      by_cases hhash : previous?.map (·.kind) = some .hash
      · simp [colour?, IsColoured, hkind, hhash]
      · by_cases hword : token.text ∈ keywords
        · simp [colour?, IsColoured, hkind, hhash, hword]
        · simp [colour?, IsColoured, hkind, hhash, hword]
  | _ => simp [colour?, IsColoured, hkind]

theorem signsFrom_text {text : List Char} (h : escape ∉ text) (rest : List Char) :
    signsFrom none (text ++ rest) = text.map .shown ++ signsFrom none rest := by
  induction text with
  | nil => rfl
  | cons c text ih =>
      obtain ⟨hc, htext⟩ := List.ne_and_not_mem_of_not_mem_cons h
      rw [List.cons_append, signsFrom, if_neg hc.symm, ih htext]
      rfl

theorem signsFrom_colour (colour : Colour) (rest : List Char) :
    signsFrom none (colour.code.toList ++ rest) = .code colour.code :: signsFrom none rest := by
  cases colour <;> rfl

theorem signsFrom_reset (rest : List Char) :
    signsFrom none (resetCode.toList ++ rest) = .code resetCode :: signsFrom none rest := rfl

/-- What a terminal takes a segment for. -/
def Segment.signs (segment : Segment) : List Sign :=
  match segment.colour? with
  | some colour => .code colour.code :: (segment.text.toList.map .shown ++ [.code resetCode])
  | none => segment.text.toList.map .shown

theorem Segment.signsFrom_render {segment : Segment} (h : escape ∉ segment.text.toList)
    (rest : List Char) :
    signsFrom none (segment.render.toList ++ rest) = segment.signs ++ signsFrom none rest := by
  obtain ⟨text, colour?⟩ := segment
  cases colour? with
  | none => exact signsFrom_text h rest
  | some colour =>
      simp only [render, Segment.signs, String.toList_append, List.append_assoc]
      rw [signsFrom_colour, signsFrom_text h, signsFrom_reset]
      simp

theorem signs_join {list : List Segment} (h : ∀ segment ∈ list, escape ∉ segment.text.toList) :
    signs (String.join (list.map Segment.render)) = list.flatMap Segment.signs := by
  rw [signs, String.toList_join, List.flatMap_map]
  induction list with
  | nil => rfl
  | cons segment list ih =>
      obtain ⟨hsegment, hlist⟩ := List.forall_mem_cons.1 h
      rw [List.flatMap_cons, List.flatMap_cons, Segment.signsFrom_render hsegment, ih hlist]

theorem flatMap_text_segments (afterHash : Bool) (ps : List Piece) :
    (segments afterHash ps).flatMap (·.text.toList) = ps.flatMap Piece.text := by
  induction ps generalizing afterHash with
  | nil => rfl
  | cons piece rest ih =>
      cases hkind : piece.kind? with
      | none => simp [segments, hkind, ih]
      | some kind => simp [segments, hkind, ih]

theorem signs_highlight {line : String} (h : escape ∉ line.toList) :
    signs (highlight line) = (segments false (pieces line.toList)).flatMap Segment.signs := by
  apply signs_join
  intro segment hsegment hmem
  apply h
  rw [← flatMap_text_pieces line.toList, ← flatMap_text_segments false]
  exact List.mem_flatMap.2 ⟨segment, hsegment, hmem⟩

theorem filterMap_shown?_signs (segment : Segment) :
    segment.signs.filterMap Sign.shown? = segment.text.toList := by
  obtain ⟨text, colour?⟩ := segment
  have htext : (text.toList.map Sign.shown).filterMap Sign.shown? = text.toList := by
    rw [List.filterMap_map]
    exact List.filterMap_some
  cases colour? with
  | none => exact htext
  | some colour =>
      rw [Segment.signs, List.filterMap_cons_none rfl, List.filterMap_append, htext]
      exact List.append_nil _

theorem visible_highlight {line : String} (h : escape ∉ line.toList) :
    visible (highlight line) = line := by
  rw [visible, signs_highlight h, List.filterMap_flatMap]
  simp only [filterMap_shown?_signs, flatMap_text_segments, flatMap_text_pieces]
  exact String.ofList_toList

theorem filterMap_code?_signs (segment : Segment) :
    segment.signs.filterMap Sign.code? =
      segment.colour?.toList.flatMap fun colour => [colour.code, resetCode] := by
  obtain ⟨text, colour?⟩ := segment
  have htext : (text.toList.map Sign.shown).filterMap Sign.code? = [] := by
    simp [List.filterMap_map, Sign.code?]
  cases colour? with
  | none => exact htext
  | some colour => simp [Segment.signs, Sign.code?, htext]

theorem alternates_codes_highlight {line : String} (h : escape ∉ line.toList) :
    Alternates (codes (highlight line)) := by
  rw [codes, signs_highlight h, List.filterMap_flatMap]
  simp only [filterMap_code?_signs]
  induction segments false (pieces line.toList) with
  | nil => exact .nil
  | cons segment rest ih =>
      rw [List.flatMap_cons]
      cases segment.colour? with
      | none => exact ih
      | some colour => exact .pair ih

theorem regionsFrom_text (position : Nat) (since? : Option Nat) (text : List Char)
    (rest : List Sign) :
    regionsFrom position since? (text.map .shown ++ rest) =
      regionsFrom (position + byteLength text) since? rest := by
  induction text generalizing position with
  | nil => rfl
  | cons c text ih =>
      rw [List.map_cons, List.cons_append, regionsFrom, ih, byteLength_cons, Nat.add_assoc]

theorem regionsFrom_segment (position : Nat) (segment : Segment) (rest : List Sign) :
    regionsFrom position none (segment.signs ++ rest) =
      (segment.colour?.toList.map fun _ =>
          ⟨position, position + byteLength segment.text.toList⟩) ++
        regionsFrom (position + byteLength segment.text.toList) none rest := by
  obtain ⟨text, colour?⟩ := segment
  cases colour? with
  | none => exact regionsFrom_text position none text.toList rest
  | some colour =>
      have hset : colour.code ≠ resetCode := by cases colour <;> decide
      simp only [Segment.signs, List.cons_append, List.append_assoc, regionsFrom, if_neg hset,
        regionsFrom_text]
      rfl

/-- The coloured regions are those of the tokens. The induction is on the pieces; a gap has no
colour and leaves the token before it as it is. -/
theorem regionsFrom_segments (previous? : Option Token) (start : Nat) (ps : List Piece) :
    regionsFrom start none
        ((segments (previous?.map (·.kind) = some .hash) ps).flatMap Segment.signs) =
      colouredSpans previous? (tokensFrom start ps) := by
  induction ps generalizing previous? start with
  | nil => rfl
  | cons piece rest ih =>
      obtain ⟨kind?, text⟩ := piece
      cases kind? with
      | none =>
          have hgap := ih previous? (start + byteLength text)
          simp only [segments, tokensFrom, List.flatMap_cons, regionsFrom_segment,
            String.toList_ofList]
          exact hgap
      | some kind =>
          let token : Token := ⟨⟨kind, String.ofList text⟩, ⟨start, start + byteLength text⟩⟩
          have hcolour := colour?_isSome_iff token previous?
          have hrest : regionsFrom (start + byteLength text) none
              ((segments (kind = .hash) rest).flatMap Segment.signs) =
                colouredSpans (some token) (tokensFrom (start + byteLength text) rest) := by
            simpa using ih (some token) (start + byteLength text)
          simp only [segments, tokensFrom, List.flatMap_cons, regionsFrom_segment,
            String.toList_ofList, colouredSpans]
          rw [hrest]
          cases hfound :
              colour? kind (String.ofList text) (previous?.map (·.kind) = some .hash) with
          | none =>
              rw [hfound] at hcolour
              rw [if_neg (by simpa using hcolour)]
              rfl
          | some colour =>
              rw [hfound] at hcolour
              rw [if_pos (hcolour.1 rfl)]
              rfl

theorem regions_highlight {line : String} (h : escape ∉ line.toList) :
    regions (highlight line) = colouredSpans none (lex line) := by
  rw [regions, signs_highlight h]
  exact regionsFrom_segments none 0 (pieces line.toList)

theorem between?_of_eq_append {line : String} {before found after : List Char}
    (h : line.toList = before ++ (found ++ after)) :
    between? line (byteLength before) (byteLength before + byteLength found) =
      some (String.ofList found) := by
  cases found with
  | nil => simp [between?]
  | cons c found =>
      have hpos := byteLength_pos (List.cons_ne_nil c found)
      rw [between?, if_pos (by omega), slice?_of_eq_append h]

/-- Offsets and pieces make up the same line. The gap in front of the pieces has not been put
out yet; a piece that is a gap joins it, and a token puts it out. -/
theorem assemble?_tokensFrom {line : String} {before gap : List Char} {ps : List Piece}
    (h : line.toList = before ++ (gap ++ ps.flatMap Piece.text)) (afterHash : Bool) :
    assemble? line (byteLength before) afterHash
        (tokensFrom (byteLength before + byteLength gap) ps) =
      some (String.ofList gap ++ String.join ((segments afterHash ps).map Segment.render)) := by
  induction ps generalizing before gap afterHash with
  | nil =>
      have hsize : line.utf8ByteSize = byteLength before + byteLength gap := by
        rw [← byteLength_toList, h]
        simp
      rw [tokensFrom, assemble?, hsize, between?_of_eq_append h]
      simp [segments]
  | cons piece rest ih =>
      obtain ⟨kind?, text⟩ := piece
      cases kind? with
      | none =>
          have hgap : line.toList = before ++ ((gap ++ text) ++ rest.flatMap Piece.text) := by
            rw [h]
            simp
          have hrest := ih hgap afterHash
          rw [byteLength_append, ← Nat.add_assoc] at hrest
          simp only [tokensFrom, segments, List.map_cons, String.join_cons, Segment.render]
          rw [hrest, String.ofList_append, String.append_assoc]
      | some kind =>
          have htext : line.toList = (before ++ gap) ++ (text ++ rest.flatMap Piece.text) := by
            rw [h]
            simp
          have hbehind : line.toList =
              (before ++ gap ++ text) ++ ([] ++ rest.flatMap Piece.text) := by
            rw [htext]
            simp
          have hslice := slice?_of_eq_append htext
          have hrest := ih hbehind (kind = .hash)
          simp only [byteLength_append, byteLength_nil, Nat.add_zero] at hslice hrest
          simp only [tokensFrom, assemble?, between?_of_eq_append h, hslice, hrest, segments,
            List.map_cons, String.join_cons]
          simp [String.append_assoc]

/-- Colouring a line adds codes to it and nothing else. Put together by the offsets of the
tokens, the coloured line is the same; without its codes it is the line; colours are set and
ended in turn; and shown in colour are, each from its first byte to its last, the tokens of
the line that are a literal, a number, a comment, a hash or two, the name behind a hash, or a
keyword. -/
theorem colouring_adds_codes_only {line : String} (h : escape ∉ line.toList) :
    assemble? line 0 false (lex line) = some (highlight line) ∧
      visible (highlight line) = line ∧ Alternates (codes (highlight line)) ∧
      regions (highlight line) = colouredSpans none (lex line) := by
  refine ⟨?_, visible_highlight h, alternates_codes_highlight h, regions_highlight h⟩
  have hline : line.toList = [] ++ ([] ++ (pieces line.toList).flatMap Piece.text) := by
    rw [flatMap_text_pieces]
    rfl
  exact (assemble?_tokensFrom hline false).trans (congrArg some String.empty_append)

/-- The name behind the hash is coloured as such, the keyword and the comment as what they are;
the character that begins no token and the name behind the keyword are not. -/
theorem colouring_adds_codes_only_around_plain_text :
    let line := "#if é int x/*ü*/"
    escape ∉ line.toList ∧ assemble? line 0 false (lex line) = some (highlight line) ∧
      visible (highlight line) = line ∧ Alternates (codes (highlight line)) ∧
      regions (highlight line) = [⟨0, 1⟩, ⟨1, 3⟩, ⟨7, 10⟩, ⟨12, 18⟩] := by
  intro line
  have hline : escape ∉ line.toList := by decide +kernel
  have hspans : colouredSpans none (lex line) = [⟨0, 1⟩, ⟨1, 3⟩, ⟨7, 10⟩, ⟨12, 18⟩] := by
    decide +kernel
  obtain ⟨hoffsets, hvisible, halternates, hregions⟩ := colouring_adds_codes_only hline
  exact ⟨hline, hoffsets, hvisible, halternates, hregions.trans hspans⟩

end CxxUnits.Editing
