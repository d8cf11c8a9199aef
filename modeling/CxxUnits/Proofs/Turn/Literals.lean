import CxxUnits.Proofs.Balance.Judgement
import CxxUnits.Proofs.Token.Apart
import CxxUnits.Proofs.Token.Opener

/-!
What stands inside a literal or a comment does not count. A scan sees of a lexeme its kind
and what it would name as a directive, which is nothing for a text that begins with a quote;
comments it does not see at all. So two fragments that differ inside one literal or comment
are judged alike, as long as what comes before ends apart from it. Literals with escapes or
with an encoding are not covered.
-/
namespace CxxUnits

open Text

/-- What a scan can tell of a lexeme. -/
def Lexeme.role (lexeme : Lexeme) : TokenKind × Directive :=
  (lexeme.kind, Directive.ofName lexeme.text.toList)

theorem Lexeme.role_eq_iff {lexeme other : Lexeme} :
    lexeme.role = other.role ↔ lexeme.kind = other.kind ∧
      Directive.ofName lexeme.text.toList = Directive.ofName other.text.toList := by
  rw [Lexeme.role, Lexeme.role, Prod.mk.injEq]

theorem Item.update?_directive_congr {name other : Lexeme} (h : name.role = other.role)
    (stack : BalanceStack) : (directive name).update? stack = (directive other).update? stack := by
  simp only [update?, (Lexeme.role_eq_iff.1 h).2]

namespace Scan

theorem run_cons_congr {item other : Item} {rest later : List Item} (stack : BalanceStack)
    (hitem : item ≠ .loneHash ∧ other ≠ .loneHash)
    (hshape : item.kind = other.kind ∧ item.width = other.width)
    (hupdate : item.update? stack = other.update? stack)
    (h : ∀ stack before, run stack before rest = run stack before later)
    (before : Option TokenKind) :
    run stack before (item :: rest) = run stack before (other :: later) := by
  cases hnext : item.update? stack with
  | none =>
      rw [run_cons_of_update?_none hnext, run_cons_of_update?_none (hupdate.symm.trans hnext),
        hshape.2]
  | some next =>
      rw [run_cons_of_update? hitem.1 hnext, run_cons_of_update? hitem.2 (hupdate.symm.trans hnext),
        h next, hshape.1, hshape.2]

/-- Lexemes of the same roles are scanned alike. -/
theorem run_group_congr {lexemes others : List Lexeme}
    (h : lexemes.map Lexeme.role = others.map Lexeme.role) (stack : BalanceStack)
    (before : Option TokenKind) :
    run stack before (Item.group lexemes) = run stack before (Item.group others) := by
  induction lexemes using Item.group.induct generalizing others stack before with
  | case1 => rw [List.map_eq_nil_iff.1 h.symm]
  | case2 hash hhash =>
      obtain ⟨other, rfl, hother⟩ := List.map_eq_singleton_iff.1 h.symm
      have hkind : other.kind = .hash := (Lexeme.role_eq_iff.1 hother).1.trans hhash
      rw [Item.group_hash hhash, Item.group_hash hkind]
  | case3 hash hhash name rest ih =>
      obtain ⟨other, others, rfl, hother, hrest⟩ := List.map_eq_cons_iff.1 h.symm
      obtain ⟨otherName, later, rfl, hname, hlater⟩ := List.map_eq_cons_iff.1 hrest
      have hkind : other.kind = .hash := (Lexeme.role_eq_iff.1 hother).1.trans hhash
      rw [Item.group_directive hhash, Item.group_directive hkind]
      refine run_cons_congr stack ?_ ?_ ?_ (ih hlater.symm) before
      · constructor <;> simp
      · exact ⟨(Lexeme.role_eq_iff.1 hname).1.symm, rfl⟩
      · exact Item.update?_directive_congr hname.symm stack
  | case4 lexeme rest hlexeme ih =>
      obtain ⟨other, later, rfl, hother, hlater⟩ := List.map_eq_cons_iff.1 h.symm
      have hkind : other.kind = lexeme.kind := (Lexeme.role_eq_iff.1 hother).1
      have hnotHash : other.kind ≠ .hash := hkind ▸ hlexeme
      rw [Item.group_token hlexeme, Item.group_token hnotHash, hkind]
      refine run_cons_congr stack ?_ ⟨rfl, rfl⟩ rfl (ih hlater.symm) before
      constructor <;> simp

end Scan

/-- A name that begins with a quote is that of no directive. -/
theorem Directive.ofName_of_quote {quote : Char} (h : quote ∈ quotes) (name : List Char) :
    ofName (quote :: name) = .other := by
  rcases mem_quotes_iff.1 h with rfl | rfl <;> simp [ofName, isEndif]

namespace Turn

/-- The turn comes to the same verdict and the same stack on both fragments. -/
def JudgesAlike (turn : Turn) (lexer : FragmentLexer) (fragment other : String) : Prop :=
  (turn.validate lexer fragment).1.verdict = (turn.validate lexer other).1.verdict ∧
    (turn.validate lexer fragment).1.stack = (turn.validate lexer other).1.stack

theorem judgesAlike_of_roles (turn : Turn) (lexer : FragmentLexer) {fragment other : String}
    (h : ((lexemes fragment.toList).filter (·.kind ≠ .comment)).map Lexeme.role =
      ((lexemes other.toList).filter (·.kind ≠ .comment)).map Lexeme.role) :
    turn.JudgesAlike lexer fragment other := by
  have hscan : turn.scan lexer fragment = turn.scan lexer other := by
    rw [scan, scan, items, items, FragmentLexer.upcoming_enter, FragmentLexer.upcoming_enter]
    exact Scan.run_group_congr h turn.stack none
  rw [JudgesAlike, validate_fst, validate_fst, hscan]
  exact ⟨rfl, rfl⟩

theorem role_quoted {quote : Char} (h : quote ∈ quotes) (kind : TokenKind) (body : List Char) :
    Lexeme.role ⟨kind, String.ofList (quote :: body)⟩ = (kind, .other) := by
  rw [Lexeme.role, String.toList_ofList, Directive.ofName_of_quote h]

/-- A front that lexes by itself hides no difference: what comes behind is compared alone. -/
theorem judgesAlike_of_behind (turn : Turn) (lexer : FragmentLexer) {front : String}
    (hfront : EndsApart front) (hreturn : ¬['\\', '\r'] <:+ front.toList)
    {fragment other : String} {later otherLater : List Char}
    (hfragment : fragment.toList = front.toList ++ later)
    (hother : other.toList = front.toList ++ otherLater)
    (h : ((lexemes later).filter (·.kind ≠ .comment)).map Lexeme.role =
      ((lexemes otherLater).filter (·.kind ≠ .comment)).map Lexeme.role) :
    turn.JudgesAlike lexer fragment other := by
  apply judgesAlike_of_roles
  rw [hfragment, hother, lexemes_append hfront hreturn, lexemes_append hfront hreturn]
  rw [List.filter_append, List.filter_append, List.map_append, List.map_append, h]

/-- No text inside a literal or a comment counts for the judgement of a fragment, whatever
stands before it, as long as that lexes by itself, and whatever comes behind. -/
theorem literals_and_comments_do_not_count (turn : Turn) (lexer : FragmentLexer)
    (front rest : String) (hfront : EndsApart front)
    (hreturn : ¬['\\', '\r'] <:+ front.toList) :
    (∀ quote ∈ quotes, ∀ x y : String, IsPlain quote x.toList → IsPlain quote y.toList →
      turn.JudgesAlike lexer (front ++ quote.toString ++ x ++ quote.toString ++ rest)
        (front ++ quote.toString ++ y ++ quote.toString ++ rest)) ∧
    (∀ x y : String, ¬['*', '/'] <:+: x.toList → ¬['*', '/'] <:+: y.toList →
      turn.JudgesAlike lexer (front ++ "/*" ++ x ++ "*/" ++ rest)
        (front ++ "/*" ++ y ++ "*/" ++ rest)) ∧
    (∀ x y : String, '\n' ∉ x.toList → '\n' ∉ y.toList →
      turn.JudgesAlike lexer (front ++ "//" ++ x ++ "\n" ++ rest)
        (front ++ "//" ++ y ++ "\n" ++ rest)) := by
  -- the front lexes alike, so only what the literal or the comment adds is compared
  refine ⟨?_, ?_, ?_⟩
  · intro quote hquote x y hx hy
    obtain ⟨kind, hkind, hlexemes⟩ := lexemes_quoted hquote
    have hspelt : ∀ z : String,
        (front ++ quote.toString ++ z ++ quote.toString ++ rest).toList =
          front.toList ++ quote :: (z.toList ++ quote :: rest.toList) := by
      simp
    refine turn.judgesAlike_of_behind lexer hfront hreturn (hspelt x) (hspelt y) ?_
    rw [hlexemes _ hx, hlexemes _ hy]
    simp only [List.filter_cons, hkind, ne_eq, not_false_eq_true, decide_true, if_true,
      List.map_cons, role_quoted hquote]
  · intro x y hx hy
    have hspelt : ∀ z : String, (front ++ "/*" ++ z ++ "*/" ++ rest).toList =
        front.toList ++ '/' :: '*' :: (z.toList ++ '*' :: '/' :: rest.toList) := by
      simp
    refine turn.judgesAlike_of_behind lexer hfront hreturn (hspelt x) (hspelt y) ?_
    rw [lexemes_blockComment hx, lexemes_blockComment hy]
    simp
  · intro x y hx hy
    have hspelt : ∀ z : String, (front ++ "//" ++ z ++ "\n" ++ rest).toList =
        front.toList ++ '/' :: '/' :: (z.toList ++ '\n' :: rest.toList) := by
      simp
    refine turn.judgesAlike_of_behind lexer hfront hreturn (hspelt x) (hspelt y) ?_
    rw [lexemes_lineComment hx, lexemes_lineComment hy]
    simp

/-- A bracket that closes nothing and a mark that opens a comment, in a literal behind another. -/
theorem literals_and_comments_do_not_count_behind_literal :
    let turn : Turn := { stack := ⟨[.bracket .paren]⟩ }
    let front := "f('\\'', "
    EndsApart front ∧ ¬['\\', '\r'] <:+ front.toList ∧
      IsPlain '"' "]".toList ∧ IsPlain '"' "/*,'".toList ∧
      turn.JudgesAlike ({} : FragmentLexer) (front ++ "\"" ++ "]" ++ "\"" ++ "))")
        (front ++ "\"" ++ "/*,'" ++ "\"" ++ "))") := by
  intro turn front
  have hfront : EndsApart front := Or.inr ⟨"f('\\'',".toList, ' ', by decide +kernel⟩
  have hreturn : ¬['\\', '\r'] <:+ front.toList := by decide +kernel
  have hbracket : IsPlain '"' "]".toList := by simp [IsPlain]
  have hmark : IsPlain '"' "/*,'".toList := by simp [IsPlain]
  exact ⟨hfront, hreturn, hbracket, hmark,
    (literals_and_comments_do_not_count turn {} front "))" hfront hreturn).1 '"' (by decide)
      "]" "/*,'" hbracket hmark⟩

end Turn

end CxxUnits
