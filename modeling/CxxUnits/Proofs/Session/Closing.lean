import CxxUnits.Proofs.Balance.Cuts
import CxxUnits.Proofs.Session.Consistent
import CxxUnits.Proofs.Session.Feeding
import CxxUnits.Proofs.Token.Apart
import CxxUnits.Proofs.Turn.Stopping

/-!
How an open turn is closed. The closers of what stands open, the innermost first, close the
turn in one line, whatever angles lie between and however the turn came to be open; some of
them close as many and leave the rest. A line that begins with any other closer ends the
turn as invalid, since nothing comes before it that could be a comma.
-/
namespace CxxUnits

/-- What closes a pair, as it is spelt. -/
def Pair.closer : Pair → String
  | bracket .square => "]"
  | bracket .brace => "\x7d"
  | bracket .paren => ")"
  | conditional => "#endif"

def Pair.closerItem : Pair → Item
  | bracket b => .token (.closing b)
  | conditional => .directive ⟨.identifier, "endif"⟩

/-- The first lexeme is a closing bracket, or the first two are a hash and `endif`. -/
inductive BeginsWithCloser : Pair → List Lexeme → Prop
  | bracket {closer : Lexeme} {b : Bracket} (rest : List Lexeme)
      (hkind : closer.kind = .closing b) : BeginsWithCloser (.bracket b) (closer :: rest)
  | endif {hash name : Lexeme} (rest : List Lexeme) (hhash : hash.kind = .hash)
      (hname : name.text = "endif") : BeginsWithCloser .conditional (hash :: name :: rest)

theorem Pair.mark?_closerItem (pair : Pair) : pair.closerItem.mark? = some (.closes pair) := by
  cases pair with
  | bracket b => rfl
  | conditional => decide +kernel

theorem Pair.kind_closerItem_ne_comma (pair : Pair) : pair.closerItem.kind ≠ .comma := by
  cases pair <;> simp [closerItem, Item.kind]

theorem Item.kind_ne_comma_of_mem_closers {opened : List Pair} :
    ∀ item ∈ opened.map Pair.closerItem, item.kind ≠ .comma :=
  List.forall_mem_map.2 fun pair _ => pair.kind_closerItem_ne_comma

theorem Item.word_closers (opened : List Pair) :
    word (opened.map Pair.closerItem) = opened.map .closes := by
  have hmark : mark? ∘ Pair.closerItem = some ∘ Mark.closes := funext Pair.mark?_closerItem
  rw [word, List.filterMap_map, hmark, List.filterMap_eq_map]

theorem BeginsWithCloser.exists_item {pair : Pair} {lexemes : List Lexeme}
    (h : BeginsWithCloser pair lexemes) :
    ∃ item rest, Item.group lexemes = item :: rest ∧ item.mark? = some (.closes pair) := by
  cases h with
  | @bracket closer b rest hkind =>
      have hhash : closer.kind ≠ .hash := by simp [hkind]
      exact ⟨_, _, Item.group_token hhash rest, by rw [hkind]; rfl⟩
  | @endif hash name rest hhash hname =>
      have hcloses : Directive.ofName "endif".toList = .closes := by decide
      refine ⟨_, _, Item.group_directive hhash name rest, ?_⟩
      simp only [Item.mark?, hname, hcloses]

namespace Turn

variable {lexer : FragmentLexer}

theorem items_empty : items lexer "" = [] := by
  rw [items, FragmentLexer.upcoming_enter, String.toList_empty, lexemes_nil]
  rfl

theorem items_semicolon : items lexer ";" = [.token .semicolon] := by
  rw [items, FragmentLexer.upcoming_enter]
  decide +kernel

theorem items_closer (pair : Pair) : items lexer pair.closer = [pair.closerItem] := by
  rw [items, FragmentLexer.upcoming_enter]
  rcases pair with (_ | _ | _) | _ <;> decide +kernel

theorem items_closer_append (pair : Pair) (rest : String) :
    items lexer (pair.closer ++ " " ++ rest) = pair.closerItem :: items lexer rest := by
  have happart : EndsApart (pair.closer ++ " ") := by
    refine Or.inr ⟨pair.closer.toList, ' ', String.toList_append, ?_⟩
    rcases pair with (_ | _ | _) | _ <;> decide +kernel
  have hreturn : ¬['\\', '\r'] <:+ (pair.closer ++ " ").toList := by
    rcases pair with (_ | _ | _) | _ <;> decide +kernel
  have hitems : Item.group ((lexemes (pair.closer ++ " ").toList).filter (·.kind ≠ .comment)) =
      [pair.closerItem] := by
    rcases pair with (_ | _ | _) | _ <;> decide +kernel
  have hhash : Item.loneHash ∉ [pair.closerItem] := by
    cases pair <;> simp [Pair.closerItem]
  rw [items, items, FragmentLexer.upcoming_enter, FragmentLexer.upcoming_enter,
    String.toList_append, lexemes_append happart hreturn, List.filter_append,
    Item.group_append (hitems ▸ hhash), hitems]
  rfl

/-- A line of closers has their items, and behind them those of what comes behind them. -/
theorem items_closers (lexer : FragmentLexer) (opened : List Pair) (rest : List String) :
    items lexer (" ".intercalate (opened.map Pair.closer ++ rest)) =
      opened.map Pair.closerItem ++ items lexer (" ".intercalate rest) := by
  induction opened with
  | nil => rfl
  | cons pair opened ih =>
      rw [List.map_cons, List.map_cons, List.cons_append, List.cons_append, ← ih]
      by_cases hlast : opened.map Pair.closer ++ rest = []
      · -- No space comes behind the last closer, which is the whole of the text.
        rw [hlast, String.intercalate_singleton, items_closer, String.intercalate_nil, items_empty]
      · rw [String.intercalate_cons_of_ne_nil hlast, items_closer_append]

end Turn

namespace Session

variable {session : Session FragmentLexer}

theorem judged_pairs (session : Session FragmentLexer) (line : String) :
    (session.judged line).turn.stack.pairs =
      (nest session.turn.stack.pairs (Item.word (Turn.items session.source line))).opened := by
  rw [Turn.nest_scan]
  exact session.turn.extend_pairs line (session.scan line)

/-- A line of the closers of the `k` innermost pairs leaves the others open, and so it does
with more words behind them that open or close nothing and are no commas. -/
theorem scan_take_closers {line : String} (k : Nat) (more : List String)
    (hline : line =
      " ".intercalate ((session.turn.stack.pairs.take k).map Pair.closer ++ more))
    (hword : Item.word (Turn.items session.source (" ".intercalate more)) = [])
    (hcomma : ∀ item ∈ Turn.items session.source (" ".intercalate more), item.kind ≠ .comma) :
    (session.scan line).verdict = (Nesting.mk true (session.turn.stack.pairs.drop k)).verdict ∧
      (session.judged line).turn.stack.pairs = session.turn.stack.pairs.drop k := by
  have hitems := Turn.items_closers session.source (session.turn.stack.pairs.take k) more
  rw [← hline] at hitems
  have hread : nest session.turn.stack.pairs (Item.word (Turn.items session.source line)) =
      ⟨true, session.turn.stack.pairs.drop k⟩ := by
    rw [hitems, Item.word_append, Item.word_closers, hword, List.append_nil, nest_take_closers]
  have hnone : ∀ item ∈ Turn.items session.source line, item.kind ≠ .comma := by
    rw [hitems]
    exact List.forall_mem_append.2 ⟨Item.kind_ne_comma_of_mem_closers, hcomma⟩
  constructor
  · exact (Turn.scan_verdict_of_comma_free hnone).trans (congrArg Nesting.verdict hread)
  · exact (session.judged_pairs line).trans (congrArg Nesting.opened hread)

/-- The closers of all that stands open, and a semicolon, leave nothing open. -/
theorem scan_closers (session : Session FragmentLexer) :
    let line := " ".intercalate (session.turn.stack.pairs.map Pair.closer ++ [";"])
    (session.scan line).verdict = .complete ∧ (session.judged line).turn.stack = .empty := by
  intro line
  have hline : line = " ".intercalate
      ((session.turn.stack.pairs.take session.turn.stack.pairs.length).map Pair.closer ++
        [";"]) := by
    rw [List.take_length]
  have hitems : Turn.items session.source (" ".intercalate [";"]) = [.token .semicolon] := by
    rw [String.intercalate_singleton, Turn.items_semicolon]
  obtain ⟨hverdict, hpairs⟩ := scan_take_closers _ [";"] hline (by rw [hitems]; rfl)
    (by rw [hitems]; simp [Item.kind])
  rw [List.drop_length] at hverdict hpairs
  refine ⟨hverdict, ?_⟩
  -- Angles may be left below, and a turn does not keep them by themselves.
  refine (session.turn.extend_stack line (session.scan line)).resolve_right ?_
  exact not_not_intro ((BalanceStack.pairs_eq_iff (t := .empty)).1 hpairs)

/-- The closers of some pairs leave those further out open. -/
theorem scan_some_closers (session : Session FragmentLexer) {k : Nat}
    (hk : k < session.turn.stack.pairs.length) :
    let line := " ".intercalate ((session.turn.stack.pairs.take k).map Pair.closer)
    (session.scan line).verdict = .incomplete ∧
      (session.judged line).turn.stack.hard = session.turn.stack.hard.drop k := by
  intro line
  have hline : line =
      " ".intercalate ((session.turn.stack.pairs.take k).map Pair.closer ++ []) := by
    rw [List.append_nil]
  have hitems : Turn.items session.source (" ".intercalate []) = [] := by
    rw [String.intercalate_nil, Turn.items_empty]
  obtain ⟨hverdict, hpairs⟩ := scan_take_closers k [] hline (by rw [hitems]; rfl)
    (by rw [hitems]; simp)
  constructor
  · rw [hverdict, List.drop_eq_getElem_cons hk]
    rfl
  · rw [BalanceStack.hard_eq_map_opener, hpairs, List.map_drop, ← BalanceStack.hard_eq_map_opener]

/-- A closer that comes first and is not the one to come finds no comma before it. -/
theorem scan_of_beginsWithCloser {line : String} {pair : Pair}
    (h : BeginsWithCloser pair ((lexemes line.toList).filter (·.kind ≠ .comment)))
    (htop : session.turn.stack.pairs.head? ≠ some pair) :
    (session.scan line).verdict = .invalid := by
  obtain ⟨item, rest, hgroup, hmark⟩ := h.exists_item
  have hitems : Turn.items session.source line = item :: rest := by
    rw [Turn.items, FragmentLexer.upcoming_enter, hgroup]
  have hstep : item.step? session.turn.stack.pairs = none :=
    Item.step?_eq_none_iff.2 ⟨pair, hmark, htop⟩
  have hbefore : (session.scan line).before ≠ some .comma := by
    rw [scan, Turn.scan_before, hitems, Item.beforeStop_cons_of_step?_none hstep]
    simp
  refine (Turn.scan_verdict_of_before hbefore).trans ?_
  rw [hitems, Item.nest_cons_of_step?_none hstep]
  rfl

/-- An open turn closes as a unit with the closers of what stands open, the innermost first,
and a semicolon, and nothing stays open. With the first `k` of the closers alone it stays
open, and what stood open further out is what is left. A line that begins with another
closer ends it as invalid. -/
theorem open_turn_closes_in_order {source : FragmentLexer} {history : List Entry}
    (hrun : Run source history session) (hopen : session.isContinuing = true) :
    let opened := session.turn.stack.pairs
    let closing := " ".intercalate (opened.map Pair.closer ++ [";"])
    ((session.turn.validate session.source closing).1.stack = .empty ∧
      ∃ next, next.turn = .empty ∧ session.feed closing =
        .ok (.ready (joinedText (openLines history ++ [session.held closing])), next)) ∧
    (∀ k < opened.length, ∃ next,
      session.feed (" ".intercalate ((opened.take k).map Pair.closer)) = .ok (.more, next) ∧
      next.turn.stack.hard = session.turn.stack.hard.drop k) ∧
    ∀ line pair, BeginsWithCloser pair ((lexemes line.toList).filter (·.kind ≠ .comment)) →
      opened.head? ≠ some pair → ∃ next, next.turn = .empty ∧ session.feed line =
        .ok (.rejected (joinedText (openLines history ++ [session.held line])), next) := by
  intro opened closing
  refine ⟨?_, ?_, ?_⟩
  · obtain ⟨hverdict, hstack⟩ := session.scan_closers
    refine ⟨hstack, session.accepting closing, rfl, ?_⟩
    rw [feed_eq_answer, answer_of_complete (ignores_of_open hopen closing) hverdict,
      hrun.collects.judged_input_eq]
  · intro k hk
    obtain ⟨hverdict, hstack⟩ := session.scan_some_closers hk
    refine ⟨session.judged _, ?_, hstack⟩
    rw [feed_eq_answer, answer_of_incomplete (ignores_of_open hopen _) hverdict]
  · intro line pair hline htop
    refine ⟨session.rejecting line, rfl, ?_⟩
    rw [feed_eq_answer, answer_of_invalid (ignores_of_open hopen line)
      (scan_of_beginsWithCloser hline htop), hrun.collects.judged_input_eq]

/-- A turn that a comma keeps open over a wrong closer, with an angle among its openers. -/
theorem open_turn_closes_in_order_after_wrong_closer :
    let fresh := start ({} : FragmentLexer)
    let first := fresh.answer "#if A f(a < \x7bx,]"
    let history := [Entry.fed (fresh.held "#if A f(a < \x7bx,]") first.1]
    Run ({} : FragmentLexer) history first.2 ∧ first.2.isContinuing = true ∧
      first.2.turn.stack = ⟨[.bracket .brace, .angle, .bracket .paren, .conditional]⟩ ∧
      (∃ next, next.turn = .empty ∧ first.2.feed "\x7d ) #endif ;" =
        .ok (.ready "#if A f(a < \x7bx,]\n\x7d ) #endif ;", next)) ∧
      (∃ next, first.2.feed "\x7d )" = .ok (.more, next) ∧
        next.turn.stack.hard = [.conditional]) ∧
      BeginsWithCloser (.bracket .paren) ((lexemes ") x".toList).filter (·.kind ≠ .comment)) ∧
      ∃ next, next.turn = .empty ∧ first.2.feed ") x" =
        .ok (.rejected "#if A f(a < \x7bx,]\n) x", next) := by
  intro fresh first history
  have hrun : Run ({} : FragmentLexer) history first.2 := Run.start.answer "#if A f(a < \x7bx,]"
  have hopen : first.2.isContinuing = true := by decide +kernel
  have hstack : first.2.turn.stack =
      ⟨[.bracket .brace, .angle, .bracket .paren, .conditional]⟩ := by
    decide +kernel
  have hhead : first.2.turn.stack.pairs.head? ≠ some (.bracket .paren) := by
    rw [hstack]
    decide
  have hlexemes : (lexemes ") x".toList).filter (·.kind ≠ .comment) =
      [⟨.closing .paren, ")"⟩, ⟨.identifier, "x"⟩] := by
    decide +kernel
  have hbegins : BeginsWithCloser (.bracket .paren)
      ((lexemes ") x".toList).filter (·.kind ≠ .comment)) :=
    hlexemes ▸ .bracket _ rfl
  have hclosing : " ".intercalate (first.2.turn.stack.pairs.map Pair.closer ++ [";"]) =
      "\x7d ) #endif ;" := by
    rw [hstack]
    decide +kernel
  have htwo : " ".intercalate ((first.2.turn.stack.pairs.take 2).map Pair.closer) = "\x7d )" := by
    rw [hstack]
    decide +kernel
  have hlength : 2 < first.2.turn.stack.pairs.length := by
    rw [hstack]
    decide
  have hdrop : first.2.turn.stack.hard.drop 2 = [.conditional] := by
    rw [hstack]
    rfl
  have hunit : joinedText (openLines history ++ [first.2.held "\x7d ) #endif ;"]) =
      "#if A f(a < \x7bx,]\n\x7d ) #endif ;" := by
    decide +kernel
  have htext : joinedText (openLines history ++ [first.2.held ") x"]) =
      "#if A f(a < \x7bx,]\n) x" := by
    decide +kernel
  obtain ⟨⟨-, hready⟩, hmore, hrejected⟩ := open_turn_closes_in_order hrun hopen
  have hprefix := hmore 2 hlength
  have hwrong := hrejected _ _ hbegins hhead
  rw [hclosing, hunit] at hready
  rw [htwo, hdrop] at hprefix
  rw [htext] at hwrong
  exact ⟨hrun, hopen, hstack, hready, hprefix, hbegins, hwrong⟩

end Session

end CxxUnits
