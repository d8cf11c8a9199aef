import CxxUnits.Proofs.Batch.Stretches

/-!
Splitting what a batch has printed. If the separator is blank and no carriage return is
lost on the way, the printed lines fall into the units they were printed for, with blank
lines between them, and they are printed once more as they are.
-/
namespace CxxUnits.Batch

open Text Session

/-- The stretches in what is printed for a stretch. -/
def Stretch.reprinted (separator : String) : Stretch → List Stretch
  | unit lines => unit lines :: (textLines (separator ++ "\n")).map blank
  | _ => []

theorem allLines_map_blank (lines : List String) : allLines (lines.map Stretch.blank) = lines := by
  induction lines with
  | nil => rfl
  | cons line rest ih => rw [List.map_cons, allLines_cons, ih]; rfl

theorem join_printed_blank (separator : String) (lines : List String) :
    String.join ((lines.map Stretch.blank).map (Stretch.printed separator)) = "" := by
  induction lines with
  | nil => exact String.join_nil
  | cons line rest ih => rw [List.map_cons, List.map_cons, String.join_cons, ih]; rfl

theorem textLines_separated {lines : List String} (hne : lines ≠ [])
    (h : ∀ line ∈ lines, '\n' ∉ line.toList ∧ '\r' ∉ line.toList) (separator : String) :
    textLines ("\n".intercalate lines ++ "\n" ++ separator ++ "\n") =
      lines ++ textLines (separator ++ "\n") := by
  rw [String.append_assoc, textLines_append_newline, textLines_intercalate hne h]

section Printed

variable {stretches : List Stretch} (separator : String)

/-- What is printed is read as the lines of the printed stretches. -/
theorem textLines_join_printed (hholds : ∀ stretch ∈ stretches, stretch.Holds)
    (h : ∀ line ∈ allLines stretches, '\n' ∉ line.toList ∧ '\r' ∉ line.toList) :
    textLines (String.join (stretches.map (Stretch.printed separator))) =
      allLines (stretches.flatMap (Stretch.reprinted separator)) := by
  induction stretches with
  | nil => rfl
  | cons stretch rest ih =>
      obtain ⟨hstretch, hholds⟩ := List.forall_mem_cons.1 hholds
      rw [allLines_cons, List.forall_mem_append] at h
      rw [List.map_cons, String.join_cons, List.flatMap_cons, allLines_append, ← ih hholds h.2]
      cases stretch with
      | blank line | unbalanced lines => exact congrArg textLines String.empty_append
      | unit lines =>
          rw [Stretch.printed, textLines_append_newline,
            textLines_separated (EndsAs.ne_nil hstretch) h.1, Stretch.reprinted,
            allLines_cons, allLines_map_blank]
          rfl

theorem join_printed_reprinted (stretches : List Stretch) :
    String.join ((stretches.flatMap (Stretch.reprinted separator)).map
        (Stretch.printed separator)) =
      String.join (stretches.map (Stretch.printed separator)) := by
  induction stretches with
  | nil => rfl
  | cons stretch rest ih =>
      rw [List.flatMap_cons, List.map_append, String.join_append, ih, List.map_cons,
        String.join_cons]
      congr 1
      cases stretch with
      | blank line | unbalanced lines => exact String.join_nil
      | unit lines =>
          rw [Stretch.reprinted, List.map_cons, String.join_cons, join_printed_blank,
            String.append_empty]

variable {separator}

theorem isBlankLine_of_mem_textLines (hseparator : isBlankLine separator = true) {line : String}
    (h : line ∈ textLines (separator ++ "\n")) : isBlankLine line = true := by
  apply List.all_eq_true.2
  intro c hc
  have hmem := subset_of_mem_textLines h hc
  rw [String.toList_append, List.mem_append] at hmem
  cases hmem with
  | inl hmem => exact List.all_eq_true.1 hseparator c hmem
  | inr hmem => rw [List.mem_singleton.1 hmem]; rfl

/-- Only units and blank lines are in what is printed. -/
theorem holds_reprinted (hseparator : isBlankLine separator = true)
    (hholds : ∀ stretch ∈ stretches, stretch.Holds) :
    ∀ printed ∈ stretches.flatMap (Stretch.reprinted separator),
      printed.Holds ∧ printed.isUnbalanced = false := by
  intro printed hmem
  obtain ⟨stretch, hstretch, hmem⟩ := List.mem_flatMap.1 hmem
  cases stretch with
  | blank line | unbalanced lines => cases hmem
  | unit lines =>
      cases List.mem_cons.1 hmem with
      | inl hunit =>
          subst hunit
          exact ⟨hholds _ hstretch, rfl⟩
      | inr hblank =>
          obtain ⟨line, hline, rfl⟩ := List.mem_map.1 hblank
          exact ⟨isBlankLine_of_mem_textLines hseparator hline, rfl⟩

end Printed

/-- Of units and blank lines nothing is said, and nothing is logged. -/
theorem join_complaint_of_not_isUnbalanced {stretches : List Stretch}
    (h : ∀ stretch ∈ stretches, stretch.isUnbalanced = false) (log : Log) (first : Nat) :
    String.join ((events first stretches).map (Event.complaint log)) = "" := by
  induction stretches generalizing first with
  | nil => rfl
  | cons stretch rest ih =>
      obtain ⟨hstretch, hrest⟩ := List.forall_mem_cons.1 h
      rw [events, List.map_append, String.join_append, ih hrest]
      cases stretch with
      | blank line | unit lines => rfl
      | unbalanced lines => cases hstretch

/-- The lines of an input are read up to its end or up to the first that cannot be. -/
theorem exists_read (lines : List (Except ReadFault String)) :
    ∃ (read : List String) (rest : List (Except ReadFault String)),
      lines = read.map .ok ++ rest ∧
      (rest = [] ∨ ∃ fault more, rest = .error fault :: more) := by
  induction lines with
  | nil => exact ⟨[], [], rfl, .inl rfl⟩
  | cons line lines ih =>
      cases line with
      | error fault => exact ⟨[], .error fault :: lines, rfl, .inr ⟨fault, lines, rfl⟩⟩
      | ok line =>
          obtain ⟨read, rest, rfl, hrest⟩ := ih
          exact ⟨line :: read, rest, rfl, hrest⟩

/-- The units of the lines that were read are printed, whether the end was reached or not. -/
theorem stdout_of_read {stretches : List Stretch} {left : List String}
    (hholds : ∀ stretch ∈ stretches, stretch.Holds) (hleft : StaysOpen left)
    {rest : List (Except ReadFault String)}
    (hrest : rest = [] ∨ ∃ fault more, rest = .error fault :: more) (separator : String)
    (log : Log) :
    ((report (.ok ((allLines stretches ++ left).map .ok ++ rest))).answer separator log).stdout =
      String.join (stretches.map (Stretch.printed separator)) := by
  obtain rfl | ⟨fault, more, rfl⟩ := hrest
  · rw [List.append_nil, answer_of_stretches hholds hleft]
  · rw [answer_of_fault hholds hleft]

/-- What a batch has printed of an input without carriage returns is split by a further
run as it was, with the same separator, if that is blank: it is printed unchanged, nothing
is said on the error output, and the exit code is zero. The input need not be a text, and
the first run may have failed. The log may be on or off; there is nothing to warn of. -/
theorem splitting_again_changes_nothing (log : Log) (separator : String) (bytes : List UInt8)
    (hreturn : carriageReturn ∉ bytes) (hseparator : isBlankLine separator = true) :
    run log separator (run log separator bytes).stdout.toUTF8.toList =
      { stdout := (run log separator bytes).stdout, stderr := "", exitCode := 0 } := by
  obtain ⟨read, rest, hread, hrest⟩ := exists_read (linesOf bytes)
  obtain ⟨stretches, left, rfl, hholds, hleft⟩ := exists_stretches read
  have hstdout : (run log separator bytes).stdout =
      String.join (stretches.map (Stretch.printed separator)) := by
    rw [run, hread]
    exact stdout_of_read hholds hleft hrest separator log
  have hlines : ∀ line ∈ allLines stretches, '\n' ∉ line.toList ∧ '\r' ∉ line.toList := by
    intro line hline
    apply not_mem_of_ok_mem_linesOf hreturn
    rw [hread]
    exact List.mem_append_left rest (List.mem_map_of_mem (List.mem_append_left left hline))
  have hagain : textLines (run log separator bytes).stdout =
      allLines (stretches.flatMap (Stretch.reprinted separator)) ++ [] := by
    rw [hstdout, textLines_join_printed separator hholds hlines, List.append_nil]
  have hreprinted := holds_reprinted hseparator hholds
  have hunits : ∀ printed ∈ stretches.flatMap (Stretch.reprinted separator),
      printed.isUnbalanced = false := fun printed hmem => (hreprinted printed hmem).2
  rw [run, toList_toUTF8, linesOf_encode, hagain,
    answer_of_stretches (fun printed hmem => (hreprinted printed hmem).1) staysOpen_nil,
    join_printed_reprinted, ← hstdout, join_complaint_of_not_isUnbalanced hunits,
    if_pos ⟨rfl, hunits⟩]
  rfl

/-- A unit around a blank line, an unbalanced turn, and a byte that is no text. -/
theorem splitting_again_changes_nothing_after_fault :
    let log : Log := fun _ warning => warning.message ++ "\n"
    let bytes := [102, 40, 10, 10, 41, 10, 93, 10, 255]
    carriageReturn ∉ bytes ∧ isBlankLine " " = true ∧
      run log " " (run log " " bytes).stdout.toUTF8.toList =
        { stdout := (run log " " bytes).stdout, stderr := "", exitCode := 0 } := by
  intro log bytes
  have hreturn : carriageReturn ∉ bytes := by decide
  exact ⟨hreturn, rfl, splitting_again_changes_nothing log " " bytes hreturn rfl⟩

end CxxUnits.Batch
