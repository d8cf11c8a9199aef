import CxxUnits.Proofs.Balance.Judgement
import CxxUnits.Proofs.Balance.Lines
import CxxUnits.Token.Script

/-!
Where the judgement of a fragment stops. Lexemes are handled one after another, a directive
together with its name, up to the first end of input, hash without a name, or closer that
does not meet its opener on top. Nothing behind that is looked at or taken, and the comma
that keeps a turn open is looked for just before it. The source plays lexemes back as they
are listed, so an end of input may stand anywhere among them.
-/
namespace CxxUnits

/-- These lexemes are handled one after another from the pairs `opened`, and leave open the
pairs that come last. -/
inductive Handles : List Pair → List Lexeme → List Pair → Prop
  | nil {opened : List Pair} : Handles opened [] opened
  | token {opened next left : List Pair} {lexeme : Lexeme} {rest : List Lexeme}
      (hhash : lexeme.kind ≠ .hash) (hend : lexeme.kind ≠ .endOfInput)
      (hstep : (Item.token lexeme.kind).step? opened = some next)
      (hrest : Handles next rest left) : Handles opened (lexeme :: rest) left
  | directive {opened next left : List Pair} {hash name : Lexeme} {rest : List Lexeme}
      (hhash : hash.kind = .hash) (hend : name.kind ≠ .endOfInput)
      (hstep : (Item.directive name).step? opened = some next)
      (hrest : Handles next rest left) : Handles opened (hash :: name :: rest) left

/-- With the pairs `opened` still open these lexemes are where a scan stops. The flag is
false for a closer that does not meet its opener. -/
inductive StopsAt (opened : List Pair) : List Lexeme → Bool → Prop
  | atEnd {last : Lexeme} (hend : last.kind = .endOfInput) : StopsAt opened [last] true
  | loneHash {hash last : Lexeme} (hhash : hash.kind = .hash) (hend : last.kind = .endOfInput) :
      StopsAt opened [hash, last] true
  | bracket {closer : Lexeme} {b : Bracket} (hkind : closer.kind = .closing b)
      (htop : opened.head? ≠ some (.bracket b)) : StopsAt opened [closer] false
  | endif {hash name : Lexeme} (hhash : hash.kind = .hash) (hend : name.kind ≠ .endOfInput)
      (hname : Directive.ofName name.text.toList = .closes)
      (htop : opened.head? ≠ some .conditional) : StopsAt opened [hash, name] false

/-- Read from the pairs `opened`, the stream has `front` handled and stops at `stop`. -/
structure ReadsTo (opened : List Pair) (stream front stop : List Lexeme) (left : List Pair)
    (matched : Bool) : Prop where
  begins : front ++ stop <+: stream
  handles : Handles opened front left
  stops : StopsAt left stop matched

namespace Item

theorem step?_eq_none_iff {item : Item} {opened : List Pair} :
    item.step? opened = none ↔
      ∃ pair, item.mark? = some (.closes pair) ∧ opened.head? ≠ some pair := by
  have hcloses : ∀ pair : Pair, (Mark.closes pair).step? opened = none ↔
      opened.head? ≠ some pair := by
    intro pair
    cases opened <;> simp [Mark.step?]
  constructor
  · intro h
    obtain ⟨pair, hmark⟩ := closes_of_step?_none h
    refine ⟨pair, hmark, ?_⟩
    rw [← hcloses]
    simpa [step?, hmark] using h
  · rintro ⟨pair, hmark, htop⟩
    rw [step?, hmark]
    exact (hcloses pair).2 htop

theorem closing_of_mark? {kind : TokenKind} {pair : Pair}
    (h : (token kind).mark? = some (.closes pair)) :
    ∃ b, kind = .closing b ∧ pair = .bracket b := by
  cases kind with
  | closing b => exact ⟨b, rfl, by simpa [mark?, eq_comm] using h⟩
  | _ => simp [mark?] at h

theorem endif_of_mark? {name : Lexeme} {pair : Pair}
    (h : (directive name).mark? = some (.closes pair)) :
    Directive.ofName name.text.toList = .closes ∧ pair = .conditional := by
  cases hname : Directive.ofName name.text.toList with
  | closes => exact ⟨rfl, by simpa [mark?, hname, eq_comm] using h⟩
  | opens | other => simp [mark?, hname] at h

theorem update?_of_step?_none {item : Item} {stack : BalanceStack}
    (h : item.step? stack.pairs = none) : item.update? stack = none := by
  rw [← update?_pairs] at h
  exact Option.map_eq_none_iff.1 h

theorem exists_update?_of_step? {item : Item} {stack : BalanceStack} {next : List Pair}
    (h : item.step? stack.pairs = some next) :
    ∃ later, item.update? stack = some later ∧ later.pairs = next := by
  rw [← update?_pairs] at h
  exact Option.map_eq_some_iff.1 h

end Item

/-- The lexemes before the first end of input. -/
def beforeEnd (stream : List Lexeme) : List Lexeme :=
  stream.takeWhile fun lexeme => decide (lexeme.kind ≠ .endOfInput)

theorem beforeEnd_cons {lexeme : Lexeme} (h : lexeme.kind ≠ .endOfInput) (rest : List Lexeme) :
    beforeEnd (lexeme :: rest) = lexeme :: beforeEnd rest :=
  List.takeWhile_cons_of_pos (decide_eq_true h)

theorem beforeEnd_of_end {lexeme : Lexeme} (h : lexeme.kind = .endOfInput) (rest : List Lexeme) :
    beforeEnd (lexeme :: rest) = [] :=
  List.takeWhile_cons_of_neg (by simp [h])

theorem beforeEnd_concat_atEnd (stream : List Lexeme) :
    beforeEnd (stream ++ [.atEnd]) = beforeEnd stream := by
  induction stream with
  | nil => rfl
  | cons lexeme rest ih =>
      by_cases h : lexeme.kind = .endOfInput
      · rw [List.cons_append, beforeEnd_of_end h, beforeEnd_of_end h]
      · rw [List.cons_append, beforeEnd_cons h, beforeEnd_cons h, ih]

theorem ne_endOfInput_of_hash {lexeme : Lexeme} (h : lexeme.kind = .hash) :
    lexeme.kind ≠ .endOfInput := by
  simp [h]

theorem StopsAt.readsTo {opened : List Pair} {stop : List Lexeme} {matched : Bool}
    (h : StopsAt opened stop matched) (rest : List Lexeme) :
    ReadsTo opened (stop ++ rest) [] stop opened matched :=
  ⟨List.prefix_append stop rest, .nil, h⟩

/-- Every stream comes to a stop. The induction is on the grouping into items. -/
theorem exists_readsTo (list : List Lexeme) (opened : List Pair) :
    ∃ front stop left matched, ReadsTo opened (list ++ [.atEnd]) front stop left matched := by
  induction list using Item.group.induct generalizing opened with
  | case1 => exact ⟨[], _, _, _, (StopsAt.atEnd rfl).readsTo []⟩
  | case2 hash hhash => exact ⟨[], _, _, _, (StopsAt.loneHash hhash rfl).readsTo []⟩
  | case3 hash hhash name rest ih =>
      by_cases hend : name.kind = .endOfInput
      · exact ⟨[], _, _, _, (StopsAt.loneHash hhash hend).readsTo (rest ++ [.atEnd])⟩
      · cases hstep : (Item.directive name).step? opened with
        | none =>
            obtain ⟨pair, hmark, htop⟩ := Item.step?_eq_none_iff.1 hstep
            obtain ⟨hname, rfl⟩ := Item.endif_of_mark? hmark
            exact ⟨[], _, _, _, (StopsAt.endif hhash hend hname htop).readsTo (rest ++ [.atEnd])⟩
        | some next =>
            obtain ⟨front, stop, left, matched, hbegins, hhandles, hstops⟩ := ih next
            refine ⟨hash :: name :: front, stop, left, matched, ?_, ?_, hstops⟩
            · exact List.cons_prefix_cons.2 ⟨rfl, List.cons_prefix_cons.2 ⟨rfl, hbegins⟩⟩
            · exact .directive hhash hend hstep hhandles
  | case4 lexeme rest hhash ih =>
      by_cases hend : lexeme.kind = .endOfInput
      · exact ⟨[], _, _, _, (StopsAt.atEnd hend).readsTo (rest ++ [.atEnd])⟩
      · cases hstep : (Item.token lexeme.kind).step? opened with
        | none =>
            obtain ⟨pair, hmark, htop⟩ := Item.step?_eq_none_iff.1 hstep
            obtain ⟨b, hkind, rfl⟩ := Item.closing_of_mark? hmark
            exact ⟨[], _, _, _, (StopsAt.bracket hkind htop).readsTo (rest ++ [.atEnd])⟩
        | some next =>
            obtain ⟨front, stop, left, matched, hbegins, hhandles, hstops⟩ := ih next
            refine ⟨lexeme :: front, stop, left, matched, ?_, ?_, hstops⟩
            · exact List.cons_prefix_cons.2 ⟨rfl, hbegins⟩
            · exact .token hhash hend hstep hhandles

namespace Scan

open Item

theorem latest_cons (lexeme : Lexeme) (front : List Lexeme) (before : Option TokenKind) :
    ((lexeme :: front).getLast?.map Lexeme.kind).or before =
      (front.getLast?.map Lexeme.kind).or (some lexeme.kind) := by
  rw [List.getLast?_cons]
  cases front.getLast? <;> rfl

/-- What stands behind the stop makes no difference to a scan. -/
theorem run_of_stopsAt {stack : BalanceStack} {stop : List Lexeme} {matched : Bool}
    (h : StopsAt stack.pairs stop matched) (before : Option TokenKind) :
    ∃ final : BalanceStack, final.pairs = stack.pairs ∧ ∀ rest,
      run stack before (group (beforeEnd (stop ++ rest))) =
        ⟨matched, before, final, stop.length⟩ := by
  cases h with
  | atEnd hend =>
      refine ⟨stack, rfl, ?_⟩
      intro rest
      rw [List.singleton_append, beforeEnd_of_end hend]
      rfl
  | loneHash hhash hend =>
      refine ⟨stack, rfl, ?_⟩
      intro rest
      rw [List.cons_append, beforeEnd_cons (ne_endOfInput_of_hash hhash), List.singleton_append,
        beforeEnd_of_end hend, group_hash hhash]
      rfl
  | @bracket closer b hkind htop =>
      have hnone : (token closer.kind).update? stack = none :=
        update?_of_step?_none (step?_eq_none_iff.2 ⟨.bracket b, by rw [hkind]; rfl, htop⟩)
      refine ⟨stack.discardAngles, stack.pairs_discardAngles, ?_⟩
      intro rest
      rw [List.singleton_append, beforeEnd_cons (by simp [hkind]), group_token (by simp [hkind])]
      exact run_cons_of_update?_none hnone before _
  | @endif hash name hhash hend hname htop =>
      have hnone : (directive name).update? stack = none :=
        update?_of_step?_none (step?_eq_none_iff.2 ⟨.conditional, by simp [mark?, hname], htop⟩)
      refine ⟨stack.discardAngles, stack.pairs_discardAngles, ?_⟩
      intro rest
      rw [List.cons_append, beforeEnd_cons (ne_endOfInput_of_hash hhash), List.singleton_append,
        beforeEnd_cons hend, group_directive hhash]
      exact run_cons_of_update?_none hnone before _

/-- A scan goes through what is handled and stops behind it. The induction is on the handling,
with any stack that has these pairs open. -/
theorem run_of_handles {stack : BalanceStack} {opened left : List Pair}
    {front stop : List Lexeme} {matched : Bool} (hhandles : Handles opened front left)
    (hopened : stack.pairs = opened) (hstop : StopsAt left stop matched)
    (before : Option TokenKind) :
    ∃ final : BalanceStack, final.pairs = left ∧ ∀ rest,
      run stack before (group (beforeEnd (front ++ (stop ++ rest)))) =
        ⟨matched, (front.getLast?.map Lexeme.kind).or before, final,
          (front ++ stop).length⟩ := by
  induction hhandles generalizing stack before with
  | nil =>
      subst hopened
      exact run_of_stopsAt hstop before
  | @token opened next left lexeme front hhash hend hstep hrest ih =>
      subst hopened
      obtain ⟨later, hlater, hpairs⟩ := exists_update?_of_step? hstep
      obtain ⟨final, hleft, hrun⟩ := ih hpairs hstop (some lexeme.kind)
      refine ⟨final, hleft, ?_⟩
      intro rest
      rw [List.cons_append, beforeEnd_cons hend, group_token hhash,
        run_cons_of_update? (by simp) hlater]
      show (run later (some lexeme.kind) _).after 1 = _
      rw [hrun, latest_cons]
      rfl
  | @directive opened next left hash name front hhash hend hstep hrest ih =>
      subst hopened
      obtain ⟨later, hlater, hpairs⟩ := exists_update?_of_step? hstep
      obtain ⟨final, hleft, hrun⟩ := ih hpairs hstop (some name.kind)
      refine ⟨final, hleft, ?_⟩
      intro rest
      rw [List.cons_append, List.cons_append, beforeEnd_cons (ne_endOfInput_of_hash hhash),
        beforeEnd_cons hend, group_directive hhash, run_cons_of_update? (by simp) hlater]
      show (run later (some name.kind) _).after 2 = _
      rw [hrun, latest_cons, latest_cons]
      rfl

end Scan

namespace TokenScript

/-- What a script plays for the next fragment: the lexemes listed for it, then the end. -/
def stream (script : TokenScript) : List Lexeme :=
  script.queued.headD [] ++ [.atEnd]

theorem upcoming_eq (script : TokenScript) :
    TokenSource.upcoming script = beforeEnd script.current := by
  obtain ⟨queued, current, taken⟩ := script
  induction current generalizing taken with
  | nil => exact TokenSource.upcoming_of_end rfl
  | cons lexeme rest ih =>
      by_cases h : lexeme.kind = .endOfInput
      · rw [beforeEnd_of_end h]
        exact TokenSource.upcoming_of_end h
      · rw [beforeEnd_cons h, TokenSource.upcoming_of_not_end h]
        exact congrArg (lexeme :: ·) (ih (taken + 1))

theorem next_eq (script : TokenScript) :
    (TokenSource.next script).2 =
      ⟨script.queued, script.current.tail, script.taken + min 1 script.current.length⟩ := by
  obtain ⟨queued, current, taken⟩ := script
  cases current <;> rfl

/-- What is asked for is taken once and in order, as long as there is any. -/
theorem advance_eq (script : TokenScript) (count : Nat) :
    TokenSource.advance count script =
      ⟨script.queued, script.current.drop count,
        script.taken + min count script.current.length⟩ := by
  induction count generalizing script with
  | zero => simp
  | succ count ih =>
      rw [TokenSource.advance, ih, next_eq]
      simp only [List.drop_tail, List.length_tail, Nat.add_assoc, mk.injEq, true_and]
      omega

end TokenScript

namespace Turn

/-- The verdict on a fragment by what is handled before the stop: a comma last keeps the turn
open whatever stops the scan. -/
def verdictAt (front : List Lexeme) (left : List Pair) (matched : Bool) : Verdict :=
  if front.getLast?.map Lexeme.kind = some .comma then .incomplete
  else if !matched then .invalid
  else if left = [] then .complete
  else .incomplete

theorem verdict_eq_verdictAt {scan : Scan} {front : List Lexeme} {left : List Pair}
    (hbefore : scan.before = front.getLast?.map Lexeme.kind) (hleft : scan.stack.pairs = left) :
    scan.verdict = verdictAt front left scan.matched := by
  subst hleft
  by_cases hcomma : scan.before = some .comma
  · rw [Scan.verdict_of_comma hcomma, verdictAt, if_pos (hbefore ▸ hcomma)]
  · rw [Scan.verdict_of_not_comma hcomma, Scan.structuralVerdict_eq, verdictAt,
      if_neg (hbefore ▸ hcomma)]
    cases scan.matched with
    | false => rfl
    | true => cases scan.stack.pairs <;> rfl

theorem items_script (script : TokenScript) (fragment : String) :
    items script fragment = Item.group (beforeEnd script.stream) := by
  rw [items, TokenScript.upcoming_eq, TokenScript.stream, beforeEnd_concat_atEnd]
  rfl

/-- All streams that begin alike up to the stop are scanned alike. -/
theorem exists_scan_of_handles {turn : Turn} {front stop : List Lexeme} {left : List Pair}
    {matched : Bool} (hhandles : Handles turn.stack.pairs front left)
    (hstops : StopsAt left stop matched) :
    ∃ final : BalanceStack, final.pairs = left ∧ ∀ (script : TokenScript) (fragment : String),
      front ++ stop <+: script.stream →
        turn.scan script fragment =
          ⟨matched, front.getLast?.map Lexeme.kind, final, (front ++ stop).length⟩ := by
  obtain ⟨final, hleft, hrun⟩ := Scan.run_of_handles hhandles rfl hstops none
  refine ⟨final, hleft, ?_⟩
  intro script fragment hbegins
  obtain ⟨rest, hrest⟩ := hbegins
  rw [scan, items_script, ← hrest, List.append_assoc, hrun, Option.or_none]

/-- A scan stops somewhere, and wherever it stops, it takes what is listed up to there and no
more. The verdict is that of what was handled before, and neither the verdict nor the stack
depends on what comes behind. -/
theorem scan_ends_at_its_stop (turn : Turn) (script : TokenScript) (fragment : String) :
    (∃ front stop left matched,
      ReadsTo turn.stack.pairs script.stream front stop left matched) ∧
    ∀ front stop left matched,
      ReadsTo turn.stack.pairs script.stream front stop left matched →
        let list := script.queued.headD []
        let next := turn.validate script fragment
        next.1.verdict = verdictAt front left matched ∧
          next.1.stack.pairs = left ∧
          next.2 = ⟨script.queued.tail, list.drop (front ++ stop).length,
            min (front ++ stop).length list.length⟩ ∧
          ∀ (other : TokenScript) (line : String), front ++ stop <+: other.stream →
            (turn.validate other line).1.verdict = next.1.verdict ∧
              (turn.validate other line).1.stack = next.1.stack := by
  refine ⟨exists_readsTo _ _, ?_⟩
  intro front stop left matched hreads list next
  obtain ⟨final, hleft, hscan⟩ := exists_scan_of_handles hreads.handles hreads.stops
  have hnext := hscan script fragment hreads.begins
  have hvalidate : next.1 = turn.extend fragment (turn.scan script fragment) := rfl
  refine ⟨?_, ?_, ?_, ?_⟩
  · have hverdict := verdict_eq_verdictAt (congrArg Scan.before hnext)
      ((congrArg (·.stack.pairs) hnext).trans hleft)
    rw [hnext] at hverdict
    rw [hvalidate, hnext]
    exact hverdict
  · rw [hvalidate, extend_pairs, hnext]
    exact hleft
  · have htaken : next.2 =
        TokenSource.advance (turn.scan script fragment).taken (script.enter fragment) := rfl
    rw [htaken, hnext, TokenScript.advance_eq]
    simp [TokenScript.enter, list]
  · intro other line hbegins
    rw [validate_fst, hvalidate, hscan other line hbegins, hnext]
    exact ⟨rfl, rfl⟩

/-- A comma that is the name of a directive stands before the bracket that stops the scan. -/
theorem scan_ends_at_its_stop_after_comma :
    let hash : Lexeme := ⟨.hash, "#"⟩
    let comma : Lexeme := ⟨.comma, ","⟩
    let closer : Lexeme := ⟨.closing .square, "]"⟩
    let script : TokenScript := { queued := [[hash, comma, closer, .atEnd, comma]] }
    ReadsTo empty.stack.pairs script.stream [hash, comma] [closer] [] false ∧
      (empty.validate script "#,]").1.verdict = .incomplete ∧
      (empty.validate script "#,]").2 = ⟨[], [.atEnd, comma], 3⟩ := by
  intro hash comma closer script
  have hhandles : Handles [] [hash, comma] [] :=
    .directive rfl (by decide) (by decide +kernel) .nil
  have hreads : ReadsTo empty.stack.pairs script.stream [hash, comma] [closer] [] false :=
    ⟨by decide, hhandles, .bracket rfl (by decide)⟩
  obtain ⟨hverdict, -, htaken, -⟩ :=
    (scan_ends_at_its_stop empty script "#,]").2 _ _ _ _ hreads
  exact ⟨hreads, hverdict, htaken⟩

end Turn

end CxxUnits
