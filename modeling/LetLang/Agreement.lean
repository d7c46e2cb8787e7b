import LetLang.Progress

/-!
# Agreement

What is read off a stream depends on nothing but the tokens that the stream shows.  `Alike R` says that
related streams hold the same tokens and stay related when both are moved on; then every parse, run
on two related streams, comes to the same value or the same error and leaves related streams.

    Alike R → Respects R (expression g room bound) (expression g room bound)         (respects_expression)
    Alike R → R s t → the turns from s and from t are the same                       (turns_related)
    the turns from s are the turns from the list tokens s                            (turns_tokens)

The number of rounds that `operations` gets, and the number of turns that `turnsUpTo` gets, may differ
from stream to stream.  It does not matter, as long as it is no smaller than it has to be
(operations_rounds, turnsUpTo_rounds).
-/

namespace LetLang

open TokenStream

variable {ε ε' σ τ α β : Type}

/-! ## Related outcomes -/

/-- Two outcomes that differ in nothing but the streams left, and these are related. -/
inductive Outcome.Related (R : σ → τ → Prop) : Outcome ε σ α → Outcome ε τ α → Prop
  | done {s : σ} {t : τ} (a : α) (h : R s t) : Related R (.done a s) (.done a t)
  | failed {s : σ} {t : τ} (e : ε) (h : R s t) : Related R (.failed e s) (.failed e t)
  | endless : Related R .endless .endless

/-- Two parses that come to related outcomes on related streams. -/
def Parse.Respects (R : σ → τ → Prop) (f : Parse ε σ α) (f' : Parse ε τ α) : Prop :=
  ∀ s t, R s t → Outcome.Related R (f s) (f' t)

/-- Related streams hold the same tokens, now and when both are moved on. -/
structure Alike [TokenStream σ] [TokenStream τ] (R : σ → τ → Prop) : Prop where
  tokens_eq : ∀ {s t}, R s t → tokens s = tokens t
  advance : ∀ {s t}, R s t → R (advance s) (advance t)

section

variable [TokenStream σ] [TokenStream τ] {R : σ → τ → Prop}

theorem Alike.current_eq (h : Alike R) {s : σ} {t : τ} (hst : R s t) : current s = current t := by
  rw [TokenStream.current_eq, TokenStream.current_eq, h.tokens_eq hst]

/-- Streams with the same tokens are alike. -/
theorem alike_tokens : Alike (fun (s : σ) (t : τ) => tokens s = tokens t) where
  tokens_eq h := h
  advance h := by rw [tokens_advance, tokens_advance, h]

/-- A relation of streams, with the same log on both sides. -/
def Logged.Lift (R : σ → τ → Prop) (s : Logged σ) (t : Logged τ) : Prop :=
  R s.stream t.stream ∧ s.log = t.log

theorem Alike.logged (h : Alike R) : Alike (Logged.Lift R) where
  tokens_eq hst := h.tokens_eq hst.1
  advance hst := ⟨h.advance hst.1, by
    show current _ :: _ = current _ :: _
    rw [h.current_eq (h.advance hst.1), hst.2]⟩

end

/-! ## Single parses -/

namespace Parse

variable {R : σ → τ → Prop}

theorem respects_pure (a : α) : Respects R (pure a : Parse ε σ α) (pure a) :=
  fun _ _ h => .done a h

theorem respects_fail (e : ε) : Respects R (fail e : Parse ε σ α) (fail e) :=
  fun _ _ h => .failed e h

theorem respects_endless : Respects R (endless : Parse ε σ α) endless :=
  fun _ _ _ => .endless

theorem Respects.bind {p : Parse ε σ α} {p' : Parse ε τ α} {f : α → Parse ε σ β}
    {f' : α → Parse ε τ β} (hp : Respects R p p') (hf : ∀ a, Respects R (f a) (f' a)) :
    Respects R (p >>= f) (p' >>= f') := by
  intro s t hst
  have h := hp s t hst
  rw [bind_apply, bind_apply]
  generalize p s = o at h ⊢
  generalize p' t = o' at h ⊢
  cases h with
  | done a h => exact hf a _ _ h
  | failed e h => exact .failed e h
  | endless => exact .endless

variable [TokenStream σ] [TokenStream τ] (h : Alike R)

include h

theorem respects_peek : Respects R (peek : Parse ε σ Token) peek := by
  intro s t hst
  rw [peek_apply, peek_apply, h.current_eq hst]
  exact .done _ hst

theorem respects_next : Respects R (next : Parse ε σ Token) next := by
  intro s t hst
  rw [next_apply, next_apply, h.current_eq hst]
  exact .done _ (h.advance hst)

theorem respects_expect (kind : Kind) : Respects R (expect kind) (expect kind) := by
  refine (respects_peek h).bind fun t => ?_
  split
  · exact respects_next h
  · exact respects_fail _

theorem Respects.restate {p : Parse ε σ α} {p' : Parse ε τ α} (hp : Respects R p p')
    (f : ε → Token → ε') : Respects R (p.restate f) (p'.restate f) := by
  intro s t hst
  have hr := hp s t hst
  unfold Parse.restate
  generalize p s = o at hr ⊢
  generalize p' t = o' at hr ⊢
  cases hr with
  | done a h' => exact .done a h'
  | failed e h' =>
    simp only [h.current_eq h']
    exact .failed _ h'
  | endless => exact .endless

end Parse

open Parse

/-! ## Operands and operators -/

section

variable [TokenStream σ] [TokenStream τ] {R : σ → τ → Prop} (h : Alike R)
  {nested : Power → Parse Diagnostic σ Expr} {nested' : Power → Parse Diagnostic τ Expr}
  (hn : ∀ p, Respects R (nested p) (nested' p))

include h hn

theorem respects_read (rule : OperandRule) : Respects R (rule.read nested) (rule.read nested') := by
  cases rule with
  | identifier => exact (respects_expect h _).bind fun _ => respects_pure _
  | integer => exact (respects_expect h _).bind fun _ => respects_pure _
  | boolean => exact (respects_next h).bind fun _ => respects_pure _
  | unary => exact (respects_next h).bind fun _ => (hn _).bind fun _ => respects_pure _
  | group =>
    exact (respects_expect h _).bind fun _ => (hn _).bind fun _ =>
      (respects_expect h _).bind fun _ => respects_pure _

theorem respects_operand (g : Grammar) : Respects R (operand g nested) (operand g nested') := by
  refine (respects_peek h).bind fun t => ?_
  split
  · exact respects_fail _
  · exact respects_read h hn _

theorem respects_operation (power : Power) (l : Expr) :
    Respects R (operation nested power l) (operation nested' power l) :=
  (respects_next h).bind fun _ => (hn _).bind fun _ => respects_pure _

theorem respects_operations (g : Grammar) (bound : Power) (rounds : Nat) (l : Expr) :
    Respects R (operations g nested bound rounds l) (operations g nested' bound rounds l) := by
  induction rounds generalizing l with
  | zero =>
    refine (respects_peek h).bind fun t => ?_
    split
    · exact respects_pure _
    · exact respects_endless
  | succ rounds ih =>
    refine (respects_peek h).bind fun t => ?_
    split
    · exact respects_pure _
    · exact (respects_operation h hn _ _).bind fun _ => ih _

end

/-! ## Rounds enough -/

section

variable [TokenStream σ] {g : Grammar} {bound : Power}
  {nested : Power → Parse Diagnostic σ Expr}
  (hm : ∀ p, (nested p).Moves)
  (hn : ∀ p, Respects (fun s t : σ => tokens s = tokens t) (nested p) (nested p))

include hn

/-- Where the end token has been taken for an operator once, it is taken again for ever. -/
theorem operations_eq_endless {power : Power} {s s' : σ} {r : Expr} (hs : tokens s = [])
    (ho : g.operatorAbove? bound .eof = some power) (hr : nested power s = .done r s')
    (hs' : tokens s' = []) (rounds : Nat) (l : Expr) (t : σ) (ht : tokens t = []) :
    operations g nested bound rounds l t = .endless := by
  induction rounds generalizing l t with
  | zero =>
    have hk : (current t).kind = .eof := by rw [current_of_tokens_nil ht]; rfl
    simp [operations, hk, ho]
  | succ rounds ih =>
    have hk : (current t).kind = .eof := by rw [current_of_tokens_nil ht]; rfl
    have ha : tokens (advance t) = [] := by rw [tokens_advance, ht]; rfl
    rw [operations_of_some nested rounds l (hk ▸ ho), operation_apply]
    have hrel := hn power s (advance t) (hs.trans ha.symm)
    rw [hr] at hrel
    generalize nested power (advance t) = o at hrel ⊢
    cases hrel with
    | done _ h => exact ih _ _ (h.symm.trans hs')

include hm

/-- The number of rounds does not matter once it is greater than the number of tokens. -/
theorem operations_rounds (m n : Nat) (l : Expr) (s : σ) (h : (tokens s).length < m)
    (h' : (tokens s).length < n) :
    operations g nested bound m l s = operations g nested bound n l s := by
  induction m generalizing n l s with
  | zero => exact absurd h (Nat.not_lt_zero _)
  | succ m ih =>
    cases n with
    | zero => exact absurd h' (Nat.not_lt_zero _)
    | succ n =>
      cases ho : g.operatorAbove? bound (current s).kind with
      | none => rw [operations_of_none _ _ _ ho, operations_of_none _ _ _ ho]
      | some power =>
        rw [operations_of_some _ _ _ ho, operations_of_some _ _ _ ho, operation_apply]
        have hr := hm power (advance s)
        cases hx : nested power (advance s) with
        | failed e rest => rfl
        | endless => rfl
        | done r rest =>
          rw [hx] at hr
          obtain ⟨k, rfl⟩ := hr
          have hle := length_skip_le k (advance s)
          show operations g nested bound m _ _ = operations g nested bound n _ _
          cases hs : tokens s with
          | cons t ts =>
            have hlt : (tokens (advance s)).length < (tokens s).length := by
              rw [tokens_advance_of_cons hs, hs]; simp
            exact ih _ _ _ (by omega) (by omega)
          | nil =>
            have ha : tokens (advance s) = [] := by rw [tokens_advance, hs]; rfl
            have hk : tokens (skip k (advance s)) = [] := by rw [tokens_skip, ha, List.drop_nil]
            rw [current_of_tokens_nil hs] at ho
            rw [operations_eq_endless hn ha ho hx hk _ _ _ hk,
              operations_eq_endless hn ha ho hx hk _ _ _ hk]

end

/-! ## Expressions -/

/-- Expressions read off related streams are the same. -/
theorem respects_expression (g : Grammar) (room : Nat) (bound : Power) {σ τ : Type}
    [TokenStream σ] [TokenStream τ] {R : σ → τ → Prop} (h : Alike R) :
    Respects R (expression g room bound) (expression g room bound) := by
  induction room generalizing bound σ τ with
  | zero => exact respects_fail _
  | succ room ih =>
    intro s t hst
    rw [expression_succ, expression_succ]
    have hrel := respects_operand h (fun p => ih p h) g s t hst
    generalize operand g (expression g room) s = o at hrel ⊢
    generalize operand g (expression g room) t = o' at hrel ⊢
    cases hrel with
    | failed e h' => exact .failed e h'
    | endless => exact .endless
    | @done s' t' l h' =>
      have hs := length_tokens_le s'
      have ht := length_tokens_le t'
      have heq := h.tokens_eq h'
      show Outcome.Related R (operations g _ bound _ l s') (operations g _ bound _ l t')
      rw [operations_rounds (moves_expression g room) (fun p => ih p alike_tokens) (left s' + 1)
          (left s' + left t' + 1) l s' (by omega) (by omega),
        operations_rounds (moves_expression g room) (fun p => ih p alike_tokens) (left t' + 1)
          (left s' + left t' + 1) l t' (by omega) (by rw [← heq]; omega)]
      exact respects_operations h (fun p => ih p h) g bound _ l s' t' h'

/-! ## Statements -/

section

variable [TokenStream σ] [TokenStream τ] {R : σ → τ → Prop} (h : Alike R) (g : Grammar) (room : Nat)

include h

theorem respects_letStatement : Respects R (letStatement g room) (letStatement g room) :=
  (respects_expect h _).bind fun _ => (respects_expect h _).bind fun _ =>
    (respects_expect h _).bind fun _ => (respects_expression g room _ h).bind fun _ =>
      (respects_expect h _).bind fun _ => respects_pure _

theorem respects_expressionStatement :
    Respects R (expressionStatement g room) (expressionStatement g room) :=
  (respects_expression g room _ h).bind fun _ => (respects_expect h _).bind fun _ =>
    respects_pure _

theorem respects_statement : Respects R (statement g room) (statement g room) := by
  refine (respects_peek h).bind fun t => ?_
  split
  · next rule _ =>
    cases rule with
    | letBinding => exact (respects_letStatement h g room).restate h _
    | expression => exact (respects_expressionStatement h g room).restate h _
  · exact (respects_expressionStatement h g room).restate h _

end

/-! ## Turns -/

/-- Two results with the same answer and related streams, or none on both sides. -/
inductive SameAnswer (R : σ → τ → Prop) : Option (α × σ) → Option (α × τ) → Prop
  | none : SameAnswer R none none
  | some {s : σ} {t : τ} (a : α) (h : R s t) : SameAnswer R (some (a, s)) (some (a, t))

section

variable [TokenStream σ] [TokenStream τ] {R : σ → τ → Prop}

theorem turn_related (h : Alike R) (g : Grammar) (room : Nat) {s : σ} {t : τ} (hst : R s t) :
    SameAnswer R (turn g room s) (turn g room t) := by
  have hrel := respects_statement h.logged g room ⟨s, []⟩ ⟨t, []⟩ ⟨hst, rfl⟩
  unfold turn
  rw [h.current_eq hst]
  generalize statement g room (Logged.mk s []) = o at hrel ⊢
  generalize statement g room (Logged.mk t []) = o' at hrel ⊢
  cases hrel with
  | endless => exact .none
  | @done s' t' stmt h' =>
    have hseen : s'.seen = t'.seen := congrArg List.reverse h'.2
    simp only [hseen]
    exact .some _ h'.1
  | @failed s' t' r h' =>
    have ha := h.logged.advance h'
    have hseen : (advance s').seen = (advance t').seen := congrArg List.reverse ha.2
    simp only [hseen, h.logged.current_eq h']
    exact .some _ ha.1

theorem turnsUpTo_related (h : Alike R) (g : Grammar) (room n : Nat) {s : σ} {t : τ}
    (hst : R s t) : SameAnswer R (turnsUpTo g room n s) (turnsUpTo g room n t) := by
  induction n generalizing s t with
  | zero => exact .some _ hst
  | succ n ih =>
    unfold turnsUpTo
    rw [h.current_eq hst]
    split
    · exact .some _ hst
    · have hrel := turn_related h g room hst
      generalize turn g room s = o at hrel ⊢
      generalize turn g room t = o' at hrel ⊢
      cases hrel with
      | none => exact .none
      | @some s' t' x h' =>
        have hrest := ih h'
        show SameAnswer R (Option.map _ (turnsUpTo g room n s'))
          (Option.map _ (turnsUpTo g room n t'))
        generalize turnsUpTo g room n s' = o at hrest ⊢
        generalize turnsUpTo g room n t' = o' at hrest ⊢
        cases hrest with
        | none => exact .none
        | some xs hx => exact .some _ hx

end

/-- The number of turns allowed does not matter once it is no smaller than that of the tokens. -/
theorem turnsUpTo_rounds [TokenStream σ] (g : Grammar) (room m n : Nat) (s : σ)
    (h : (tokens s).length ≤ m) (h' : (tokens s).length ≤ n) :
    turnsUpTo g room m s = turnsUpTo g room n s := by
  induction m generalizing n s with
  | zero =>
    cases n with
    | zero => rfl
    | succ n =>
      have hs : current s = Token.eof :=
        current_of_tokens_nil (List.eq_nil_of_length_eq_zero (Nat.le_zero.1 h))
      simp [turnsUpTo, hs]
  | succ m ih =>
    cases n with
    | zero =>
      have hs : current s = Token.eof :=
        current_of_tokens_nil (List.eq_nil_of_length_eq_zero (Nat.le_zero.1 h'))
      simp [turnsUpTo, hs]
    | succ n =>
      unfold turnsUpTo
      split
      · rfl
      · next hk =>
        cases ht : turn g room s with
        | none => rfl
        | some x =>
          obtain ⟨x, rest⟩ := x
          have hlt := length_turn_lt hk ht
          simp only [ih n rest (by omega) (by omega)]

/-- The turns taken from related streams are the same. -/
theorem turns_related [TokenStream σ] [TokenStream τ] {R : σ → τ → Prop} (h : Alike R)
    (g : Grammar) (room : Nat) {s : σ} {t : τ} (hst : R s t) :
    SameAnswer R (turns g room s) (turns g room t) := by
  have hs := length_tokens_le s
  have ht := length_tokens_le t
  have heq := h.tokens_eq hst
  unfold turns
  rw [turnsUpTo_rounds g room (left s) (left s + left t) s hs (by omega),
    turnsUpTo_rounds g room (left t) (left s + left t) t ht (by omega)]
  exact turnsUpTo_related h g room _ hst

/-- The turns of a stream are the turns of the list of its tokens. -/
theorem turns_tokens [TokenStream σ] (g : Grammar) (room : Nat) (s : σ) :
    SameAnswer (fun (s : σ) (ts : List Token) => tokens s = ts) (turns g room s)
      (turns g room (tokens s)) :=
  turns_related (R := fun (s : σ) (ts : List Token) => tokens s = ts)
    ⟨fun h => h, fun {s t} h => by rw [tokens_advance, h]; rfl⟩ g room rfl

end LetLang
