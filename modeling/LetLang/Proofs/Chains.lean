import LetLang.Proofs.Rendering

/-!
# Chains

A chain is a tree that leans all the way to the left, with operators of one category and operands that
need but one level.  It can be written without parentheses, and then it is nested two levels deep however
long it is, while its rendering is nested deeper with every operand.

    Chain c n e → e.need = if n = 1 then 1 else n + 1                                  (Chain.need_eq)
    Chain c n e → ∃ m ≤ 2, Derives c m e.flatTokens e                                 (Chain.derives)
-/

namespace LetLang

/-- The operator belongs to the category. -/
def Category.Operates : Category → String → Prop
  | sum, operator => operator = "+" ∨ operator = "-"
  | product, operator => operator = "*" ∨ operator = "/"
  | _, _ => False

/-- `e` is a chain of so many operands. -/
inductive Chain (c : Category) : Nat → Expr → Prop
  | operand {e} (he : e.WellFormed) (hneed : e.need = 1) : Chain c 1 e
  | operation {n l operator r} (hl : Chain c n l) (hop : c.Operates operator) (hr : r.WellFormed)
      (hneed : r.need = 1) : Chain c (n + 1) (.binary l operator r)

namespace Expr

/-- The text of a chain, without parentheses. -/
def flat : Expr → String
  | binary left operator right => left.flat ++ " " ++ operator ++ " " ++ right.render
  | e => e.render

def flatTokens : Expr → List Token
  | binary left operator right => left.flatTokens ++ operatorToken operator :: right.tokens
  | e => e.tokens

theorem flat_of_need_eq_one {e : Expr} (h : e.need = 1) : e.flat = e.render := by
  cases e with
  | binary left operator right =>
    have hneed : max (1 + left.need) (2 + right.need) = 1 := h
    omega
  | _ => rfl

theorem flatTokens_of_need_eq_one {e : Expr} (h : e.need = 1) : e.flatTokens = e.tokens := by
  cases e with
  | binary left operator right =>
    have hneed : max (1 + left.need) (2 + right.need) = 1 := h
    omega
  | _ => rfl

end Expr

namespace Chain

variable {c : Category} {n : Nat} {e : Expr}

theorem isOperator {operator : String} (h : c.Operates operator) : IsOperator operator := by
  cases c with
  | sum => exact h.elim .inl (.inr ∘ .inl)
  | product => exact .inr (.inr h)
  | signed => exact h.elim
  | atom => exact h.elim

theorem wellFormed (h : Chain c n e) : e.WellFormed := by
  induction h with
  | operand he _ => exact he
  | operation _ hop hr _ ih => exact ⟨ih, isOperator hop, hr⟩

theorem pos (h : Chain c n e) : 0 < n := by
  cases h <;> omega

/-- Written with parentheses, every operand but the first two takes up one level more. -/
theorem need_eq (h : Chain c n e) : e.need = if n = 1 then 1 else n + 1 := by
  induction h with
  | operand _ hneed => exact hneed
  | @operation n l operator r hl _ _ hneed ih =>
    have hpos := hl.pos
    have hbinary : (Expr.binary l operator r).need = max (1 + l.need) (2 + r.need) := rfl
    rw [hbinary, ih, hneed]
    by_cases hn : n = 1
    · subst hn
      rfl
    · rw [if_neg hn, if_neg (by omega)]
      omega

theorem scanAll_flat (h : Chain c n e) : scanAll e.flat.toList = e.flatTokens := by
  induction h with
  | operand he hneed =>
    rw [Expr.flat_of_need_eq_one hneed, Expr.flatTokens_of_need_eq_one hneed, Expr.scanAll_render he]
  | @operation n l operator r hl hop hr hneed ih =>
    have htext : (Expr.binary l operator r).flat.toList =
        l.flat.toList ++ ' ' :: (operator.toList ++ ' ' :: r.render.toList) := by simp [Expr.flat]
    rw [htext, scanAll_append_cons _ (by decide), scanAll_blank (by decide),
      scanAll_operator (isOperator hop), scanAll_blank (by decide), ih, Expr.scanAll_render hr]
    rfl

/-- A chain without parentheses is nested no more than two levels deep. -/
theorem derives (h : Chain c n e) : ∃ m, m ≤ 2 ∧ Derives c m e.flatTokens e := by
  induction h with
  | @operand e he hneed =>
    have hatom := he.derives
    rw [← Expr.flatTokens_of_need_eq_one hneed, hneed] at hatom
    exact ⟨1, by omega, hatom.widen (by cases c <;> decide)⟩
  | @operation n l operator r _ hop hr hneed ih =>
    obtain ⟨m, hm, hl⟩ := ih
    have hright := Derives.signedOfAtom hr.derives
    rw [hneed] at hright
    refine ⟨max m (1 + 1), by omega, ?_⟩
    cases c with
    | sum =>
      apply Derives.addition _ hl (.productOfSigned hright)
      rcases hop with rfl | rfl
      · exact .inl rfl
      · exact .inr rfl
    | product =>
      apply Derives.multiplication _ hl hright
      rcases hop with rfl | rfl
      · exact .inl rfl
      · exact .inr rfl
    | signed => exact hop.elim
    | atom => exact hop.elim

end Chain

/-- The chain that holds one operand over and over. -/
def Expr.repeated (operator : String) (operand : Expr) : Nat → Expr
  | 0 => operand
  | n + 1 => .binary (repeated operator operand n) operator operand

/-- There are chains of any length. -/
theorem chain_repeated {c : Category} {operator : String} {operand : Expr}
    (hop : c.Operates operator) (he : operand.WellFormed) (hneed : operand.need = 1) (n : Nat) :
    Chain c (n + 1) (.repeated operator operand n) := by
  induction n with
  | zero => exact .operand he hneed
  | succ n ih => exact .operation ih hop he hneed

end LetLang
