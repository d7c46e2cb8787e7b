import LetLang.Agreement

/-!
# Expressions step by step

What reading an expression does on a stream, one step an equation.  `operations` is given a number of
rounds; `extend` gives it as many as the stream can need, and then there are no rounds left to speak
of: an operator above the bound is taken with its right operand, and anything else ends the expression.

    expression g (room + 1) bound = operand …, then extend g room bound           (expression_eq_extend)
    extend at a power up to the bound stops there                                 (extend_of_le)
    extend at an operator above the bound goes on behind its right operand        (extend_of_lt)
-/

namespace LetLang

open TokenStream Parse

variable {ε σ α β : Type}

theorem andThen_eq_done_iff {o : Outcome ε σ α} {f : α → Parse ε σ β} {b : β}
    {last : σ} : o.andThen f = .done b last ↔ ∃ a rest, o = .done a rest ∧ f a rest = .done b last := by
  cases o with
  | done a rest =>
    constructor
    · intro h
      exact ⟨a, rest, rfl, h⟩
    · rintro ⟨a, rest, h, h'⟩
      cases h
      exact h'
  | failed e rest =>
    constructor
    · intro h
      cases h
    · rintro ⟨a, rest, h, -⟩
      cases h
  | endless =>
    constructor
    · intro h
      cases h
    · rintro ⟨a, rest, h, -⟩
      cases h

variable [TokenStream σ]

/-! ## Moving past known tokens -/

theorem Logged.stream_skip (n : Nat) (s : Logged σ) : (skip n s).stream = skip n s.stream := by
  induction n generalizing s with
  | zero => rfl
  | succ n ih => exact ih (advance s)

/-- The tokens `ts` stand between `s` and `rest`, and moving `s` on by just so many gives `rest`. -/
structure Spans (s : σ) (ts : List Token) (rest : σ) : Prop where
  tokens_eq : tokens s = ts ++ tokens rest
  rest_eq : rest = skip ts.length s

namespace Spans

theorem of_append {s : σ} {ts rest : List Token} (h : tokens s = ts ++ rest) :
    Spans s ts (skip ts.length s) :=
  ⟨by rw [tokens_skip, h, List.drop_left], rfl⟩

theorem current_cons {s rest : σ} {t : Token} {ts : List Token} (h : Spans s (t :: ts) rest) :
    current s = t :=
  current_of_tokens_cons h.tokens_eq

theorem tail {s rest : σ} {t : Token} {ts : List Token} (h : Spans s (t :: ts) rest) :
    Spans (advance s) ts rest :=
  ⟨tokens_advance_of_cons h.tokens_eq, h.rest_eq⟩

theorem trans {s mid rest : σ} {ts us : List Token} (h : Spans s ts mid) (h' : Spans mid us rest) :
    Spans s (ts ++ us) rest := by
  refine ⟨by rw [h.tokens_eq, h'.tokens_eq, List.append_assoc], ?_⟩
  rw [h'.rest_eq, h.rest_eq, skip_skip, List.length_append]

theorem exists_mid {s rest : σ} {ts us : List Token} (h : Spans s (ts ++ us) rest) :
    ∃ mid, Spans s ts mid ∧ Spans mid us rest := by
  have hs : tokens s = ts ++ (us ++ tokens rest) := by rw [h.tokens_eq, List.append_assoc]
  have hm := of_append hs
  refine ⟨skip ts.length s, hm, ?_, ?_⟩
  · exact List.append_cancel_left (hm.tokens_eq.symm.trans hs)
  · rw [h.rest_eq, skip_skip, List.length_append]

/-- One token other than the end. -/
theorem single {s : σ} (h : (current s).kind ≠ .eof) : Spans s [current s] (advance s) := by
  refine ⟨?_, rfl⟩
  cases hs : tokens s with
  | nil => exact absurd hs (tokens_ne_nil h)
  | cons t ts => rw [current_of_tokens_cons hs, tokens_advance_of_cons hs]; rfl

end Spans

theorem expect_eq_done_iff {k : Kind} {s rest : σ} {t : Token} :
    expect k s = .done t rest ↔ (current s).kind = k ∧ t = current s ∧ rest = advance s := by
  by_cases hk : (current s).kind = k
  · rw [expect_of_kind_eq hk]
    constructor
    · intro h
      cases h
      exact ⟨hk, rfl, rfl⟩
    · rintro ⟨-, rfl, rfl⟩
      rfl
  · rw [expect_of_kind_ne hk]
    constructor
    · intro h
      cases h
    · rintro ⟨h, -, -⟩
      exact absurd h hk

/-! ## Operands -/

section

variable (nested : Power → Parse Diagnostic σ Expr) {s : σ}

theorem read_identifier (h : (current s).kind = .identifier) :
    OperandRule.identifier.read nested s = .done (.identifier (current s).text) (advance s) := by
  show (expect .identifier s).andThen _ = _
  rw [expect_of_kind_eq h]
  rfl

theorem read_integer (h : (current s).kind = .integer) :
    OperandRule.integer.read nested s = .done (.integer (current s).text) (advance s) := by
  show (expect .integer s).andThen _ = _
  rw [expect_of_kind_eq h]
  rfl

theorem read_boolean :
    OperandRule.boolean.read nested s =
      .done (.boolean ((current s).kind = .trueWord)) (advance s) := rfl

theorem read_unary :
    OperandRule.unary.read nested s =
      (nested .unary (advance s)).andThen fun e rest =>
        .done (.unary (current s).text e) rest := rfl

theorem read_group (h : (current s).kind = .openParen) :
    OperandRule.group.read nested s =
      (nested .lowest (advance s)).andThen fun e rest =>
        (expect .closeParen rest).andThen fun _ after => .done e after := by
  show (expect .openParen s).andThen _ = _
  rw [expect_of_kind_eq h]
  rfl

end

/-! ## Operators -/

/-- Takes in all operators above `bound` that follow, the left operand being known. -/
def extend (g : Grammar) (room : Nat) (bound : Power) (l : Expr) : Parse Diagnostic σ Expr :=
  fun s => operations g (expression g room) bound (left s + 1) l s

theorem expression_eq_extend (g : Grammar) (room : Nat) (bound : Power) (s : σ) :
    expression g (room + 1) bound s =
      (operand g (expression g room) s).andThen (extend g room bound) := rfl

theorem expression_of_operand {g : Grammar} {room : Nat} {e : Expr} {s rest : σ}
    (bound : Power) (rule : OperandRule) (h : g.operand (current s).kind = some rule)
    (hr : rule.read (expression g room) s = .done e rest) :
    expression g (room + 1) bound s = extend g room bound e rest := by
  rw [expression_eq_extend, operand_of_some _ h, hr]
  rfl

theorem operations_eq_extend {g : Grammar} {room rounds : Nat} {bound : Power} {l : Expr} {s : σ}
    (h : (tokens s).length < rounds) :
    operations g (expression g room) bound rounds l s = extend g room bound l s := by
  have hl := length_tokens_le s
  exact operations_rounds (moves_expression g room)
    (fun p => respects_expression g room p alike_tokens) _ _ l s h (by omega)

theorem extend_of_le {g : Grammar} {bound : Power} {s : σ} (room : Nat) (l : Expr)
    (h : g.power (current s).kind ≤ bound) : extend g room bound l s = .done l s := by
  apply operations_of_none
  apply Option.not_isSome_iff_eq_none.1
  rw [Grammar.operatorAbove?_isSome_iff]
  exact Nat.not_lt.2 h

theorem extend_of_lt {g : Grammar} {bound power : Power} {s : σ} (room : Nat) (l : Expr)
    (ho : g.operator (current s).kind = some power) (hb : bound < power)
    (hs : tokens s ≠ []) :
    extend g room bound l s =
      (expression g room power (advance s)).andThen fun r rest =>
        extend g room bound (.binary l (current s).text r) rest := by
  show operations g (expression g room) bound (left s + 1) l s = _
  rw [operations_of_some _ _ _ (Grammar.operatorAbove?_eq_some_iff.2 ⟨ho, hb⟩), operation_apply]
  have hm := moves_expression g room power (advance s)
  cases hx : expression g room power (advance s) with
  | failed e rest => rfl
  | endless => rfl
  | done r rest =>
    rw [hx] at hm
    obtain ⟨n, rfl⟩ := hm
    have hlt := length_advance_lt hs
    have hle := length_skip_le n (advance s)
    have hleft := length_tokens_le s
    exact operations_eq_extend (by omega)

end LetLang
