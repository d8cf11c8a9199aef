import CxxUnits.Batch.Line
import CxxUnits.Proofs.Text.Encoding

/-!
The lines of a stream that holds a text. They are the lines of the text: it makes no
difference whether line feeds are looked for among characters or among bytes. A stream
that begins with whole lines has their lines first, whatever bytes come after them.
-/
namespace CxxUnits.Batch

open Text

/-- Without the carriage return at its end, if there is one. -/
def dropReturn (line : List Char) : List Char :=
  if line.getLast? = some '\r' then line.dropLast else line

/-- The lines of a text. It is cut at the line feeds, with a carriage return just before
one, and what is left after the last one is a line unless it is empty. -/
def textLines (text : String) : List String :=
  let parts := text.toList.splitOn '\n'
  let last := parts.getLastD []
  (parts.dropLast.map dropReturn ++ if last = [] then [] else [last]).map String.ofList

/-- Lines put one below the other, each ended by a line feed. -/
def endLines (lines : List (List Char)) : List Char :=
  lines.flatMap (· ++ ['\n'])

theorem exists_endLines (cs : List Char) :
    ∃ lines tail, (∀ line ∈ lines, '\n' ∉ line) ∧ '\n' ∉ tail ∧ cs = endLines lines ++ tail := by
  induction cs with
  | nil => exact ⟨[], [], by simp [endLines]⟩
  | cons c cs ih =>
      obtain ⟨lines, tail, hlines, htail, rfl⟩ := ih
      by_cases hc : c = '\n'
      · exact ⟨[] :: lines, tail, by simpa using hlines, htail, by simp [endLines, hc]⟩
      · cases lines with
        | nil => exact ⟨[], c :: tail, by simp [endLines, htail, Ne.symm hc]⟩
        | cons line lines =>
            refine ⟨(c :: line) :: lines, tail, ?_, htail, by simp [endLines]⟩
            simpa [Ne.symm hc] using hlines

theorem exists_eq_ofList_endLines (text : String) :
    ∃ lines tail, (∀ line ∈ lines, '\n' ∉ line) ∧ '\n' ∉ tail ∧
      text = String.ofList (endLines lines ++ tail) := by
  obtain ⟨lines, tail, hlines, htail, htext⟩ := exists_endLines text.toList
  exact ⟨lines, tail, hlines, htail, by rw [← htext, String.ofList_toList]⟩

theorem splitOn_endLines {lines : List (List Char)} {tail : List Char}
    (hlines : ∀ line ∈ lines, '\n' ∉ line) (htail : '\n' ∉ tail) :
    (endLines lines ++ tail).splitOn '\n' = lines ++ [tail] := by
  induction lines with
  | nil => exact List.splitOn_eq_singleton htail
  | cons line lines ih =>
      obtain ⟨hline, hlines⟩ := List.forall_mem_cons.1 hlines
      have hcons : endLines (line :: lines) ++ tail = line ++ '\n' :: (endLines lines ++ tail) := by
        simp [endLines]
      rw [hcons, List.splitOn_append_cons_self_of_not_mem hline, ih hlines, List.cons_append]

theorem textLines_endLines {lines : List (List Char)} {tail : List Char}
    (hlines : ∀ line ∈ lines, '\n' ∉ line) (htail : '\n' ∉ tail) :
    textLines (String.ofList (endLines lines ++ tail)) =
      (lines.map dropReturn ++ if tail = [] then [] else [tail]).map String.ofList := by
  rw [textLines, String.toList_ofList, splitOn_endLines hlines htail, List.dropLast_concat,
    List.getLastD_concat]

/-- The lines of a text are those before a line feed and those after it. -/
theorem textLines_append_newline (text more : String) :
    textLines (text ++ "\n" ++ more) = textLines (text ++ "\n") ++ textLines more := by
  obtain ⟨lines, tail, hlines, htail, rfl⟩ := exists_eq_ofList_endLines text
  obtain ⟨others, last, hothers, hlast, rfl⟩ := exists_eq_ofList_endLines more
  have hended : ∀ line ∈ lines ++ [tail], '\n' ∉ line :=
    List.forall_mem_append.2 ⟨hlines, List.forall_mem_singleton.2 htail⟩
  have hall : ∀ line ∈ lines ++ [tail] ++ others, '\n' ∉ line :=
    List.forall_mem_append.2 ⟨hended, hothers⟩
  have hfront : String.ofList (endLines lines ++ tail) ++ "\n" =
      String.ofList (endLines (lines ++ [tail]) ++ []) := by
    apply String.toList_inj.1
    simp [endLines]
  have hwhole : String.ofList (endLines (lines ++ [tail]) ++ []) ++
      String.ofList (endLines others ++ last) =
      String.ofList (endLines (lines ++ [tail] ++ others) ++ last) := by
    apply String.toList_inj.1
    simp [endLines]
  rw [hfront, hwhole, textLines_endLines hall hlast, textLines_endLines hended List.not_mem_nil,
    textLines_endLines hothers hlast]
  simp

theorem textLines_line {line : String} (hfeed : '\n' ∉ line.toList) (hreturn : '\r' ∉ line.toList) :
    textLines (line ++ "\n") = [line] := by
  have hline : line ++ "\n" = String.ofList (endLines [line.toList] ++ []) := by
    apply String.toList_inj.1
    simp [endLines]
  have hlast : line.toList.getLast? ≠ some '\r' := by
    intro h
    exact hreturn (List.mem_of_getLast? h)
  rw [hline, textLines_endLines (List.forall_mem_singleton.2 hfeed) List.not_mem_nil]
  simp [dropReturn, hlast]

/-- Lines that are joined and ended by a line feed are read back. -/
theorem textLines_intercalate {lines : List String} (hne : lines ≠ [])
    (h : ∀ line ∈ lines, '\n' ∉ line.toList ∧ '\r' ∉ line.toList) :
    textLines ("\n".intercalate lines ++ "\n") = lines := by
  induction lines with
  | nil => contradiction
  | cons line rest ih =>
      obtain ⟨⟨hfeed, hreturn⟩, hrest⟩ := List.forall_mem_cons.1 h
      cases rest with
      | nil => rw [String.intercalate_singleton, textLines_line hfeed hreturn]
      | cons next rest =>
          rw [String.intercalate_cons_cons, String.append_assoc, textLines_append_newline,
            textLines_line hfeed hreturn, ih (List.cons_ne_nil next rest) hrest]
          rfl

theorem dropReturn_subset (line : List Char) : dropReturn line ⊆ line := by
  rw [dropReturn]
  split
  · exact List.dropLast_subset line
  · exact List.Subset.refl line

theorem subset_of_mem_textLines {text line : String} (h : line ∈ textLines text) :
    line.toList ⊆ text.toList := by
  obtain ⟨lines, tail, hlines, htail, rfl⟩ := exists_eq_ofList_endLines text
  rw [textLines_endLines hlines htail] at h
  obtain ⟨cs, hcs, rfl⟩ := List.mem_map.1 h
  rw [String.toList_ofList, String.toList_ofList]
  intro c hc
  cases List.mem_append.1 hcs with
  | inl hcs =>
      obtain ⟨whole, hwhole, rfl⟩ := List.mem_map.1 hcs
      have hended : c ∈ endLines lines :=
        List.mem_flatMap.2 ⟨whole, hwhole, List.mem_append_left _ (dropReturn_subset whole hc)⟩
      exact List.mem_append_left tail hended
  | inr hcs =>
      split at hcs
      · cases hcs
      · rw [List.mem_singleton.1 hcs] at hc
        exact List.mem_append_right (endLines lines) hc

theorem linesFrom_append {line : List UInt8} (h : lineFeed ∉ line) (begun rest : List UInt8) :
    linesFrom begun (line ++ rest) = linesFrom (line.reverse ++ begun) rest := by
  induction line generalizing begun with
  | nil => rfl
  | cons b line ih =>
      obtain ⟨hb, hline⟩ := not_or.1 (mt List.mem_cons.2 h)
      rw [List.cons_append, linesFrom, if_neg (Ne.symm hb), ih hline, List.reverse_cons,
        List.append_assoc, List.singleton_append]

theorem linesFrom_ended {line : List UInt8} (h : lineFeed ∉ line) (rest : List UInt8) :
    linesFrom [] (line ++ lineFeed :: rest) =
      (stripReturn line.reverse).reverse :: linesFrom [] rest := by
  rw [linesFrom_append h, List.append_nil, linesFrom, if_pos rfl]

theorem linesFrom_of_not_mem {line : List UInt8} (h : lineFeed ∉ line) :
    linesFrom [] line = if line = [] then [] else [line] := by
  have happend := linesFrom_append h [] []
  rw [List.append_nil, List.append_nil] at happend
  rw [happend, linesFrom, List.reverse_reverse]
  simp

theorem lineFeed_mem_encode {cs : List Char} : lineFeed ∈ encode cs ↔ '\n' ∈ cs :=
  mem_encode_iff (show '\n'.toNat < 128 by decide) cs

theorem carriageReturn_mem_encode {cs : List Char} : carriageReturn ∈ encode cs ↔ '\r' ∈ cs :=
  mem_encode_iff (show '\r'.toNat < 128 by decide) cs

theorem encode_newline_cons (cs : List Char) : encode ('\n' :: cs) = lineFeed :: encode cs := rfl

theorem stripReturn_of_ne {b : UInt8} (hb : b ≠ carriageReturn) (bytes : List UInt8) :
    stripReturn (b :: bytes) = b :: bytes :=
  if_neg hb

/-- The carriage return that is dropped from the bytes of a line is one of its characters. -/
theorem stripReturn_encode (cs : List Char) :
    (stripReturn (encode cs).reverse).reverse = encode (dropReturn cs) := by
  rcases List.eq_nil_or_concat cs with rfl | ⟨front, c, rfl⟩
  · rfl
  · rw [List.concat_eq_append, encode_append, List.reverse_append]
    by_cases hc : c = '\r'
    · subst hc
      have hreturn : encode ['\r'] = [carriageReturn] := rfl
      simp [dropReturn, hreturn, stripReturn]
    · cases hbytes : (encode [c]).reverse with
      | nil => simp [encode_eq_nil_iff] at hbytes
      | cons b bytes =>
          have hb : b ≠ carriageReturn := by
            rintro rfl
            have hmem : carriageReturn ∈ encode [c] := by
              rw [← List.mem_reverse, hbytes]
              exact List.mem_cons_self
            exact hc (List.mem_singleton.1 (carriageReturn_mem_encode.1 hmem)).symm
          rw [List.cons_append, stripReturn_of_ne hb, ← List.cons_append, ← hbytes]
          simp [dropReturn, hc]

theorem decodeLine_encode (cs : List Char) : decodeLine (encode cs) = .ok (String.ofList cs) := by
  rw [decodeLine, fromUTF8?_encode]

/-- Whole lines at the front of a stream are its first lines. -/
theorem linesOf_endLines_append {lines : List (List Char)} (hlines : ∀ line ∈ lines, '\n' ∉ line)
    (rest : List UInt8) :
    linesOf (encode (endLines lines) ++ rest) =
      (lines.map fun line => .ok (String.ofList (dropReturn line))) ++ linesOf rest := by
  induction lines with
  | nil => rfl
  | cons line lines ih =>
      obtain ⟨hline, hlines⟩ := List.forall_mem_cons.1 hlines
      have hcons : encode (endLines (line :: lines)) ++ rest =
          encode line ++ lineFeed :: (encode (endLines lines) ++ rest) := by
        simp [endLines, encode_newline_cons]
      rw [hcons, linesOf, linesFrom_ended (mt lineFeed_mem_encode.1 hline), List.map_cons,
        stripReturn_encode, decodeLine_encode, ← linesOf, ih hlines, List.map_cons,
        List.cons_append]

theorem linesOf_encode_of_not_mem {tail : List Char} (h : '\n' ∉ tail) :
    linesOf (encode tail) = if tail = [] then [] else [.ok (String.ofList tail)] := by
  rw [linesOf, linesFrom_of_not_mem (mt lineFeed_mem_encode.1 h)]
  by_cases htail : tail = []
  · simp [htail]
  · simp [htail, encode_eq_nil_iff, decodeLine_encode]

/-- The lines of the bytes of a text are the lines of the text. -/
theorem linesOf_encode (text : String) :
    linesOf (encode text.toList) = (textLines text).map .ok := by
  obtain ⟨lines, tail, hlines, htail, rfl⟩ := exists_eq_ofList_endLines text
  rw [String.toList_ofList, encode_append, linesOf_endLines_append hlines,
    linesOf_encode_of_not_mem htail, textLines_endLines hlines htail]
  by_cases h : tail = []
  · simp [h]
  · simp [h]

-- Only a carriage return before a line feed belongs to the end of its line.
example : textLines "a\r\n\nb\r" = ["a", "", "b\r"] := by decide

theorem stripReturn_subset (bytes : List UInt8) : stripReturn bytes ⊆ bytes := by
  cases bytes with
  | nil => exact List.Subset.refl []
  | cons b bytes =>
      rw [stripReturn]
      split
      · exact List.subset_cons_self b bytes
      · exact List.Subset.refl _

/-- What all bytes of a stream have in common but for the line feeds, the bytes of its
lines have in common. -/
theorem forall_mem_linesFrom {P : UInt8 → Prop} {begun bytes : List UInt8}
    (hbegun : ∀ b ∈ begun, P b) (hbytes : ∀ b ∈ bytes, b = lineFeed ∨ P b) :
    ∀ line ∈ linesFrom begun bytes, ∀ b ∈ line, P b := by
  induction bytes generalizing begun with
  | nil =>
      intro line hline b hb
      rw [linesFrom] at hline
      split at hline
      · cases hline
      · rw [List.mem_singleton.1 hline] at hb
        exact hbegun b (List.mem_reverse.1 hb)
  | cons c bytes ih =>
      obtain ⟨hc, hbytes⟩ := List.forall_mem_cons.1 hbytes
      rw [linesFrom]
      by_cases hfeed : c = lineFeed
      · rw [if_pos hfeed, List.forall_mem_cons]
        constructor
        · intro b hb
          exact hbegun b (stripReturn_subset begun (List.mem_reverse.1 hb))
        · exact ih (by simp) hbytes
      · rw [if_neg hfeed]
        exact ih (List.forall_mem_cons.2 ⟨hc.resolve_left hfeed, hbegun⟩) hbytes

theorem encode_of_decodeLine_eq_ok {bytes : List UInt8} {line : String}
    (h : decodeLine bytes = .ok line) : encode line.toList = bytes := by
  rw [decodeLine, String.fromUTF8?] at h
  by_cases hvalid : bytes.toByteArray.IsValidUTF8
  · rw [dif_pos hvalid] at h
    cases h
    rw [← toList_toUTF8]
    exact toList_toByteArray bytes
  · rw [dif_neg hvalid] at h
    cases h

/-- No line that is read has a line feed in it, or a carriage return if there is none in
the stream. -/
theorem not_mem_of_ok_mem_linesOf {bytes : List UInt8} {line : String}
    (hreturn : carriageReturn ∉ bytes) (h : .ok line ∈ linesOf bytes) :
    '\n' ∉ line.toList ∧ '\r' ∉ line.toList := by
  obtain ⟨encoded, hmem, hdecode⟩ := List.mem_map.1 h
  have hbytes : ∀ b ∈ bytes, b = lineFeed ∨ (b ≠ lineFeed ∧ b ≠ carriageReturn) := by
    intro b hb
    by_cases hfeed : b = lineFeed
    · exact .inl hfeed
    · refine .inr ⟨hfeed, ?_⟩
      rintro rfl
      exact hreturn hb
  have hline := forall_mem_linesFrom (by simp) hbytes encoded hmem
  rw [← encode_of_decodeLine_eq_ok hdecode] at hline
  constructor
  · intro hfeed
    exact (hline lineFeed (lineFeed_mem_encode.2 hfeed)).1 rfl
  · intro hreturn
    exact (hline carriageReturn (carriageReturn_mem_encode.2 hreturn)).2 rfl

end CxxUnits.Batch
