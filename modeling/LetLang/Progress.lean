import LetLang.Turn

/-!
# Progress

A parse does nothing to its stream but move it on, and no parse is endless.  Only a grammar in which the end
token can extend itself is an exception: it is an operator there, and read as an operand whatever its kind.

    f.Moves   f leaves every stream some tokens further on
    f.Takes   f moves on by at least one token whenever it succeeds
    f.Ends    f is endless on no stream

    (expression g room bound).Moves                                         (moves_expression)
    (statement g room).Takes                                                (takes_statement)
    g.extendsEnd = false → (expression g room bound).Ends                   (ends_expression)
    g.extendsEnd = false → (turns g room s).isSome                          (turns_isSome)
    turns g room s = some (ts, last) → (current last).kind = .eof           (current_of_turns)
-/

namespace LetLang

open TokenStream

variable {ε ε' σ α β : Type}

/-! ## Coming to an end -/

namespace Parse

/-- The parse is endless on no stream. -/
def Ends (f : Parse ε σ α) : Prop := ∀ s, f s ≠ .endless

theorem ends_pure (a : α) : (pure a : Parse ε σ α).Ends := fun _ h => nomatch h

theorem ends_fail (e : ε) : (fail e : Parse ε σ α).Ends := fun _ h => nomatch h

theorem Ends.bind {p : Parse ε σ α} {f : α → Parse ε σ β} (hp : p.Ends)
    (hf : ∀ a, (f a).Ends) : (p >>= f).Ends := by
  intro s
  rw [bind_apply]
  cases hs : p s with
  | done a rest => exact hf a rest
  | failed e rest => exact fun h => nomatch h
  | endless => exact absurd hs (hp s)

end Parse

variable [TokenStream σ]

/-! ## Moving on -/

/-- The stream moved on by `n` tokens. -/
def skip : Nat → σ → σ
  | 0, s => s
  | n + 1, s => skip n (advance s)

@[simp] theorem skip_zero (s : σ) : skip 0 s = s := rfl

theorem skip_succ (n : Nat) (s : σ) : skip (n + 1) s = skip n (advance s) := rfl

@[simp] theorem skip_skip (m n : Nat) (s : σ) : skip n (skip m s) = skip (m + n) s := by
  induction m generalizing s with
  | zero => simp
  | succ m ih => rw [Nat.succ_add, skip_succ, skip_succ, ih]

theorem tokens_skip (n : Nat) (s : σ) : tokens (skip n s) = (tokens s).drop n := by
  induction n generalizing s with
  | zero => simp
  | succ n ih => rw [skip_succ, ih, tokens_advance, List.drop_tail]

theorem length_skip_le (n : Nat) (s : σ) : (tokens (skip n s)).length ≤ (tokens s).length := by
  rw [tokens_skip, List.length_drop]; omega

namespace Outcome

/-- The parse has left a stream that is `s` moved on. -/
def From (s : σ) : Outcome ε σ α → Prop
  | done _ rest => ∃ n, rest = skip n s
  | failed _ rest => ∃ n, rest = skip n s
  | endless => True

theorem From.of_skip {n : Nat} {s : σ} {o : Outcome ε σ α} (h : o.From (skip n s)) : o.From s := by
  cases o with
  | done a rest => obtain ⟨m, rfl⟩ := h; exact ⟨n + m, skip_skip _ _ _⟩
  | failed e rest => obtain ⟨m, rfl⟩ := h; exact ⟨n + m, skip_skip _ _ _⟩
  | endless => trivial

end Outcome

namespace Parse

/-- The parse leaves every stream some tokens further on. -/
def Moves (f : Parse ε σ α) : Prop := ∀ s, (f s).From s

/-- The parse moves on by at least one token whenever it succeeds. -/
def Takes (f : Parse ε σ α) : Prop := ∀ s a rest, f s = .done a rest → ∃ n, rest = skip (n + 1) s

theorem moves_pure (a : α) : (pure a : Parse ε σ α).Moves := fun _ => ⟨0, rfl⟩

theorem moves_fail (e : ε) : (fail e : Parse ε σ α).Moves := fun _ => ⟨0, rfl⟩

theorem moves_peek : (peek : Parse ε σ Token).Moves := fun _ => ⟨0, rfl⟩

theorem moves_next : (next : Parse ε σ Token).Moves := fun _ => ⟨1, rfl⟩

theorem moves_countLeft : (countLeft : Parse ε σ Nat).Moves := fun _ => ⟨0, rfl⟩

/-- What comes after goes on from the stream that was left. -/
theorem From.andThen {s : σ} {o : Outcome ε σ α} {f : α → Parse ε σ β} (h : o.From s)
    (hf : ∀ a, (f a).Moves) : (o.andThen f).From s := by
  cases o with
  | done a rest =>
    obtain ⟨n, rfl⟩ := h
    exact (hf a _).of_skip
  | failed e rest => exact h
  | endless => trivial

theorem Moves.bind {p : Parse ε σ α} {f : α → Parse ε σ β} (hp : p.Moves)
    (hf : ∀ a, (f a).Moves) : (p >>= f).Moves := by
  intro s
  rw [bind_apply]
  exact From.andThen (hp s) hf

theorem Moves.restate {p : Parse ε σ α} (hp : p.Moves) (f : ε → Token → ε') :
    (p.restate f).Moves := by
  intro s
  have h := hp s
  unfold Parse.restate
  cases hs : p s with
  | done a rest => rw [hs] at h; exact h
  | failed e rest => rw [hs] at h; exact h
  | endless => trivial

theorem moves_expect (kind : Kind) : (expect kind : Parse Diagnostic σ Token).Moves := by
  refine moves_peek.bind fun t => ?_
  split
  · exact moves_next
  · exact moves_fail _

theorem takes_expect (kind : Kind) : (expect kind : Parse Diagnostic σ Token).Takes := by
  intro s a rest h
  by_cases hk : (current s).kind = kind
  · rw [expect_of_kind_eq hk] at h
    cases h
    exact ⟨0, rfl⟩
  · rw [expect_of_kind_ne hk] at h
    cases h

/-- A sequence takes a token if its first part does. -/
theorem Takes.bind {p : Parse ε σ α} {f : α → Parse ε σ β} (hp : p.Takes)
    (hf : ∀ a, (f a).Moves) : (p >>= f).Takes := by
  intro s b last h
  rw [bind_apply] at h
  cases hs : p s with
  | done a rest =>
    rw [hs, Outcome.andThen_done] at h
    obtain ⟨n, rfl⟩ := hp s a rest hs
    have hm := hf a (skip (n + 1) s)
    rw [h] at hm
    obtain ⟨m, rfl⟩ := hm
    exact ⟨n + m, by rw [skip_skip]; congr 1; omega⟩
  | failed e rest => rw [hs] at h; cases h
  | endless => rw [hs] at h; cases h

/-- A sequence takes a token if its second part does. -/
theorem Takes.after {p : Parse ε σ α} {f : α → Parse ε σ β} (hf : ∀ a, (f a).Takes)
    (hp : p.Moves) : (p >>= f).Takes := by
  intro s b last h
  rw [bind_apply] at h
  have hm := hp s
  cases hs : p s with
  | done a rest =>
    rw [hs] at h hm
    obtain ⟨m, rfl⟩ := hm
    obtain ⟨n, rfl⟩ := hf a _ b last h
    exact ⟨m + n, skip_skip _ _ _⟩
  | failed e rest => rw [hs] at h; cases h
  | endless => rw [hs] at h; cases h

theorem Takes.restate {p : Parse ε σ α} (hp : p.Takes) (f : ε → Token → ε') :
    (p.restate f).Takes := by
  intro s a rest h
  unfold Parse.restate at h
  cases hs : p s with
  | done b rest' =>
    rw [hs] at h
    cases h
    exact hp s a rest hs
  | failed e rest' => rw [hs] at h; cases h
  | endless => rw [hs] at h; cases h

theorem ends_peek : (peek : Parse ε σ Token).Ends := fun _ h => nomatch h

theorem ends_next : (next : Parse ε σ Token).Ends := fun _ h => nomatch h

theorem Ends.restate {p : Parse ε σ α} (hp : p.Ends) (f : ε → Token → ε') :
    (p.restate f).Ends := by
  intro s
  unfold Parse.restate
  cases hs : p s with
  | done a rest => exact fun h => nomatch h
  | failed e rest => exact fun h => nomatch h
  | endless => exact absurd hs (hp s)

theorem ends_expect (kind : Kind) : (expect kind : Parse Diagnostic σ Token).Ends := by
  refine ends_peek.bind fun t => ?_
  split
  · exact ends_next
  · exact ends_fail _

end Parse

open Parse

/-! ## Expressions -/

theorem moves_read {nested : Power → Parse Diagnostic σ Expr} (hn : ∀ p, (nested p).Moves)
    (rule : OperandRule) : (rule.read nested).Moves := by
  cases rule with
  | identifier => exact (moves_expect _).bind fun _ => moves_pure _
  | integer => exact (moves_expect _).bind fun _ => moves_pure _
  | boolean => exact moves_next.bind fun _ => moves_pure _
  | unary => exact moves_next.bind fun _ => (hn _).bind fun _ => moves_pure _
  | group =>
    exact (moves_expect _).bind fun _ => (hn _).bind fun _ =>
      (moves_expect _).bind fun _ => moves_pure _

theorem moves_operand (g : Grammar) {nested : Power → Parse Diagnostic σ Expr}
    (hn : ∀ p, (nested p).Moves) : (operand g nested).Moves := by
  refine moves_peek.bind fun t => ?_
  split
  · exact moves_fail _
  · exact moves_read hn _

theorem moves_operation {nested : Power → Parse Diagnostic σ Expr} (hn : ∀ p, (nested p).Moves)
    (power : Power) (l : Expr) : (operation nested power l).Moves :=
  moves_next.bind fun _ => (hn _).bind fun _ => moves_pure _

theorem moves_operations (g : Grammar) {nested : Power → Parse Diagnostic σ Expr}
    (hn : ∀ p, (nested p).Moves) (bound : Power) (rounds : Nat) (l : Expr) :
    (operations g nested bound rounds l).Moves := by
  induction rounds generalizing l with
  | zero =>
    refine moves_peek.bind fun t => ?_
    split
    · exact moves_pure _
    · exact fun _ => trivial
  | succ rounds ih =>
    refine moves_peek.bind fun t => ?_
    split
    · exact moves_pure _
    · exact (moves_operation hn _ _).bind fun _ => ih _

theorem moves_expression (g : Grammar) (room : Nat) (bound : Power) :
    (expression g room bound : Parse Diagnostic σ Expr).Moves := by
  induction room generalizing bound with
  | zero => exact moves_fail _
  | succ room ih =>
    exact (moves_operand g ih).bind fun _ => moves_countLeft.bind fun _ =>
      moves_operations g ih _ _ _

theorem ends_read {nested : Power → Parse Diagnostic σ Expr} (hn : ∀ p, (nested p).Ends)
    (rule : OperandRule) : (rule.read nested).Ends := by
  cases rule with
  | identifier => exact (ends_expect _).bind fun _ => ends_pure _
  | integer => exact (ends_expect _).bind fun _ => ends_pure _
  | boolean => exact ends_next.bind fun _ => ends_pure _
  | unary => exact ends_next.bind fun _ => (hn _).bind fun _ => ends_pure _
  | group =>
    exact (ends_expect _).bind fun _ => (hn _).bind fun _ =>
      (ends_expect _).bind fun _ => ends_pure _

theorem ends_operand (g : Grammar) {nested : Power → Parse Diagnostic σ Expr}
    (hn : ∀ p, (nested p).Ends) : (operand g nested).Ends := by
  refine ends_peek.bind fun t => ?_
  split
  · exact ends_fail _
  · exact ends_read hn _

/-- At the end nothing can be read but by the rule that takes a token of any kind. -/
theorem read_ne_done {nested : Power → Parse Diagnostic σ Expr}
    (hn : ∀ p s e rest, tokens s = [] → nested p s ≠ .done e rest) {rule : OperandRule}
    (hrule : rule ≠ .boolean) {s : σ} (hs : tokens s = []) (e : Expr) (rest : σ) :
    rule.read nested s ≠ .done e rest := by
  have hkind : ∀ k ≠ .eof, (current s).kind ≠ k := by
    intro k hk
    rw [current_of_tokens_nil hs]
    exact hk.symm
  cases rule with
  | identifier =>
    show (expect .identifier s).andThen _ ≠ _
    rw [expect_of_kind_ne (hkind _ (by decide))]
    exact fun h => nomatch h
  | integer =>
    show (expect .integer s).andThen _ ≠ _
    rw [expect_of_kind_ne (hkind _ (by decide))]
    exact fun h => nomatch h
  | boolean => exact absurd rfl hrule
  | unary =>
    show (nested .unary (advance s)).andThen _ ≠ _
    have ha : tokens (advance s) = [] := by rw [tokens_advance, hs]; rfl
    cases hx : nested .unary (advance s) with
    | done x last => exact absurd hx (hn _ _ _ _ ha)
    | failed d last => exact fun h => nomatch h
    | endless => exact fun h => nomatch h
  | group =>
    show (expect .openParen s).andThen _ ≠ _
    rw [expect_of_kind_ne (hkind _ (by decide))]
    exact fun h => nomatch h

theorem expression_ne_done {g : Grammar} (hg : g.operand .eof ≠ some .boolean) (room : Nat)
    (bound : Power) (s : σ) (e : Expr) (rest : σ) (hs : tokens s = []) :
    expression g room bound s ≠ .done e rest := by
  induction room generalizing bound s e rest with
  | zero => exact fun h => nomatch h
  | succ room ih =>
    have hk : (current s).kind = .eof := by rw [current_of_tokens_nil hs]; rfl
    rw [expression_succ]
    cases ho : g.operand .eof with
    | none =>
      rw [operand_of_none _ (hk ▸ ho)]
      exact fun h => nomatch h
    | some rule =>
      rw [operand_of_some _ (hk ▸ ho)]
      have hrule : rule ≠ .boolean := by
        rintro rfl
        exact hg ho
      cases hx : rule.read (expression g room) s with
      | done x last => exact absurd hx (read_ne_done ih hrule hs x last)
      | failed d last => exact fun h => nomatch h
      | endless => exact fun h => nomatch h

/-- As many rounds as there are tokens are enough to come to a stop. -/
theorem operations_ne_endless {g : Grammar} (hg : g.extendsEnd = false) {room : Nat}
    (he : ∀ p, (expression g room p : Parse Diagnostic σ Expr).Ends) (bound : Power) (rounds : Nat)
    (l : Expr) (s : σ) (h : (tokens s).length < rounds) :
    operations g (expression g room) bound rounds l s ≠ .endless := by
  induction rounds generalizing l s with
  | zero => exact absurd h (Nat.not_lt_zero _)
  | succ rounds ih =>
    cases ho : g.operatorAbove? bound (current s).kind with
    | none =>
      rw [operations_of_none _ _ _ ho]
      exact fun h => nomatch h
    | some power =>
      rw [operations_of_some _ _ _ ho, operation_apply]
      have hm := moves_expression g room power (advance s)
      cases hx : expression g room power (advance s) with
      | failed e rest => exact fun h => nomatch h
      | endless => exact absurd hx (he power _)
      | done r rest =>
        rw [hx] at hm
        obtain ⟨n, rfl⟩ := hm
        -- a right operand has been read, so the operator was not the end token
        have hne : tokens s ≠ [] := by
          intro hs
          have ha : tokens (advance s) = [] := by rw [tokens_advance, hs]; rfl
          have hpower : bound < g.power .eof := by
            rw [current_of_tokens_nil hs] at ho
            exact Grammar.operatorAbove?_isSome_iff.1 (by rw [← Token.kind_eof, ho]; rfl)
          have hboolean : g.operand .eof ≠ some .boolean := by
            intro hboolean
            have hlowest : Power.lowest < g.power .eof := Nat.lt_of_le_of_lt (Nat.zero_le _) hpower
            simp [Grammar.extendsEnd, hboolean, hlowest] at hg
          exact expression_ne_done hboolean room power _ _ _ ha hx
        have hlt : (tokens (advance s)).length < (tokens s).length := by
          have hpos := List.length_pos_iff.2 hne
          rw [tokens_advance, List.length_tail]
          omega
        have hle := length_skip_le n (advance s)
        exact ih _ _ (by omega)

theorem ends_expression {g : Grammar} (hg : g.extendsEnd = false) (room : Nat) (bound : Power) :
    (expression g room bound : Parse Diagnostic σ Expr).Ends := by
  induction room generalizing bound with
  | zero => exact ends_fail _
  | succ room ih =>
    intro s
    rw [expression_succ]
    cases ho : operand g (expression g room) s with
    | done l rest =>
      have hl := length_tokens_le rest
      exact operations_ne_endless hg ih _ _ _ _ (by omega)
    | failed e rest => exact fun h => nomatch h
    | endless => exact absurd ho (ends_operand g ih s)

/-! ## Statements -/

theorem moves_letStatement (g : Grammar) (room : Nat) :
    (letStatement g room : Parse Diagnostic σ Stmt).Moves :=
  (moves_expect _).bind fun _ => (moves_expect _).bind fun _ => (moves_expect _).bind fun _ =>
    (moves_expression g room _).bind fun _ => (moves_expect _).bind fun _ => moves_pure _

theorem moves_expressionStatement (g : Grammar) (room : Nat) :
    (expressionStatement g room : Parse Diagnostic σ Stmt).Moves :=
  (moves_expression g room _).bind fun _ => (moves_expect _).bind fun _ => moves_pure _

theorem moves_statement (g : Grammar) (room : Nat) :
    (statement g room : Parse Rejection σ Stmt).Moves := by
  refine moves_peek.bind fun t => ?_
  split
  · next rule _ =>
    cases rule with
    | letBinding => exact (moves_letStatement g room).restate _
    | expression => exact (moves_expressionStatement g room).restate _
  · exact (moves_expressionStatement g room).restate _

theorem ends_letStatement {g : Grammar} (hg : g.extendsEnd = false) (room : Nat) :
    (letStatement g room : Parse Diagnostic σ Stmt).Ends :=
  (ends_expect _).bind fun _ => (ends_expect _).bind fun _ => (ends_expect _).bind fun _ =>
    (ends_expression hg room _).bind fun _ => (ends_expect _).bind fun _ => ends_pure _

theorem ends_expressionStatement {g : Grammar} (hg : g.extendsEnd = false) (room : Nat) :
    (expressionStatement g room : Parse Diagnostic σ Stmt).Ends :=
  (ends_expression hg room _).bind fun _ => (ends_expect _).bind fun _ => ends_pure _

theorem ends_statement {g : Grammar} (hg : g.extendsEnd = false) (room : Nat) :
    (statement g room : Parse Rejection σ Stmt).Ends := by
  refine ends_peek.bind fun t => ?_
  split
  · next rule _ =>
    cases rule with
    | letBinding => exact (ends_letStatement hg room).restate _
    | expression => exact (ends_expressionStatement hg room).restate _
  · exact (ends_expressionStatement hg room).restate _

theorem takes_letStatement (g : Grammar) (room : Nat) :
    (letStatement g room : Parse Diagnostic σ Stmt).Takes :=
  (takes_expect _).bind fun _ => (moves_expect _).bind fun _ => (moves_expect _).bind fun _ =>
    (moves_expression g room _).bind fun _ => (moves_expect _).bind fun _ => moves_pure _

theorem takes_expressionStatement (g : Grammar) (room : Nat) :
    (expressionStatement g room : Parse Diagnostic σ Stmt).Takes :=
  Takes.after (fun _ => (takes_expect _).bind fun _ => moves_pure _) (moves_expression g room _)

theorem takes_statement (g : Grammar) (room : Nat) :
    (statement g room : Parse Rejection σ Stmt).Takes := by
  refine Takes.after (fun t => ?_) moves_peek
  split
  · next rule _ =>
    cases rule with
    | letBinding => exact (takes_letStatement g room).restate _
    | expression => exact (takes_expressionStatement g room).restate _
  · exact (takes_expressionStatement g room).restate _

/-! ## Turns -/

/-- A turn that does not start at the end uses up a token. -/
theorem length_turn_lt {g : Grammar} {room : Nat} {s rest : σ} {t : Turn}
    (hs : (current s).kind ≠ .eof) (h : turn g room s = some (t, rest)) :
    (tokens rest).length < (tokens s).length := by
  have hpos : 0 < (tokens s).length := List.length_pos_iff.2 (tokens_ne_nil hs)
  unfold turn at h
  split at h
  · next stmt last hd =>
    cases h
    obtain ⟨n, rfl⟩ := takes_statement g room _ _ _ hd
    show (tokens (skip (n + 1) (Logged.mk s []))).length < (tokens s).length
    rw [tokens_skip, List.length_drop, Logged.tokens_mk]
    omega
  · next r last hd =>
    cases h
    have hm := moves_statement g room (Logged.mk s [])
    rw [hd] at hm
    obtain ⟨n, rfl⟩ := hm
    show (tokens (advance (skip n (Logged.mk s [])))).length < (tokens s).length
    rw [tokens_advance, List.length_tail, tokens_skip, List.length_drop, Logged.tokens_mk]
    omega
  · cases h

theorem turn_isSome {g : Grammar} (hg : g.extendsEnd = false) (room : Nat) (s : σ) :
    (turn g room s).isSome := by
  unfold turn
  split
  · rfl
  · rfl
  · next h => exact absurd h (ends_statement hg room _)

theorem turnsUpTo_isSome {g : Grammar} (hg : g.extendsEnd = false) (room n : Nat) (s : σ) :
    (turnsUpTo g room n s).isSome := by
  induction n generalizing s with
  | zero => rfl
  | succ n ih =>
    unfold turnsUpTo
    split
    · rfl
    · have ht := turn_isSome hg room s
      split
      · next h => rw [h] at ht; cases ht
      · simpa using ih _

/-- As many turns as there are tokens are enough to come to the end. -/
theorem current_of_turnsUpTo {g : Grammar} {room n : Nat} {s last : σ} {ts : List Turn}
    (hn : (tokens s).length ≤ n) (h : turnsUpTo g room n s = some (ts, last)) :
    (current last).kind = .eof := by
  induction n generalizing s ts with
  | zero =>
    cases h
    rw [current_of_tokens_nil (List.eq_nil_of_length_eq_zero (Nat.le_zero.1 hn))]
    rfl
  | succ n ih =>
    unfold turnsUpTo at h
    split at h
    · next hk => cases h; exact hk
    · next hk =>
      split at h
      · cases h
      · next t rest ht =>
        have hlt := length_turn_lt hk ht
        rw [Option.map_eq_some_iff] at h
        obtain ⟨⟨us, final⟩, hu, he⟩ := h
        cases he
        exact ih (by omega) hu

/-- The turns of a stream end where the end token shows. -/
theorem current_of_turns {g : Grammar} {room : Nat} {s last : σ} {ts : List Turn}
    (h : turns g room s = some (ts, last)) : (current last).kind = .eof :=
  current_of_turnsUpTo (length_tokens_le s) h

theorem turns_isSome {g : Grammar} (hg : g.extendsEnd = false) (room : Nat) (s : σ) :
    (turns g room s).isSome :=
  turnsUpTo_isSome hg room _ s

end LetLang
