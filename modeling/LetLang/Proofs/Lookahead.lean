import LetLang.Proofs.Steps

/-!
# One token of lookahead

What a parse comes to depends on the tokens that it moves past and on the one that it stops at.
`front n s` are the first `n` tokens that a stream shows, end tokens included once it is used up.

A parse that `Looks` moves past no token of a certain kind, and two streams with the same front up to
the token where it stops have the same outcome.  A parse that `Closes` does the same until it fails or
moves past one token of the kind, which is the last that it looks at.

    (expression g room bound) looks                                              (looks_expression)
    (statement .standard room) closes at the semicolon                           (closes_statement)
-/

namespace LetLang

open TokenStream Parse

variable {ε ε' σ α β : Type} [TokenStream σ]

/-! ## The front of a stream -/

/-- The first `n` tokens that the stream shows. -/
def front : Nat → σ → List Token
  | 0, _ => []
  | n + 1, s => current s :: front n (advance s)

@[simp] theorem length_front (n : Nat) (s : σ) : (front n s).length = n := by
  induction n generalizing s with
  | zero => rfl
  | succ n ih => rw [front, List.length_cons, ih]

theorem front_add (m n : Nat) (s : σ) : front (m + n) s = front m s ++ front n (skip m s) := by
  induction m generalizing s with
  | zero => rw [Nat.zero_add]; rfl
  | succ m ih => rw [Nat.succ_add, front, front, ih, List.cons_append, skip_succ]

theorem front_of_tokens {s : σ} {ts rest : List Token} (h : tokens s = ts ++ rest) :
    front ts.length s = ts := by
  induction ts generalizing s with
  | nil => rfl
  | cons t ts ih =>
    rw [List.length_cons, front, current_of_tokens_cons h, ih (tokens_advance_of_cons h)]

theorem front_logged (n : Nat) (s : σ) (log : List Token) :
    front n (Logged.mk s log) = front n s := by
  induction n generalizing s log with
  | zero => rfl
  | succ n ih => exact congrArg (current s :: ·) (ih (advance s) _)

theorem current_skip_mem_front (n : Nat) (s : σ) : current (skip n s) ∈ front (n + 1) s := by
  rw [front_add]
  exact List.mem_append_right _ List.mem_cons_self

theorem front_left {m n : Nat} {s t : σ} (h : front (m + n) s = front (m + n) t) :
    front m s = front m t := by
  rw [front_add, front_add] at h
  exact (List.append_inj h (by simp)).1

theorem front_right {m n : Nat} {s t : σ} (h : front (m + n) s = front (m + n) t) :
    front n (skip m s) = front n (skip m t) := by
  rw [front_add, front_add] at h
  exact (List.append_inj h (by simp)).2

theorem current_of_front {n : Nat} {s t : σ} (h : front (n + 1) s = front (n + 1) t) :
    current s = current t :=
  (List.cons.inj h).1

theorem current_skip_of_front {n : Nat} {s t : σ} (h : front (n + 1) s = front (n + 1) t) :
    current (skip n s) = current (skip n t) :=
  current_of_front (front_right h)

theorem front_split {m n : Nat} {s t : σ} (h : front (m + n + 1) s = front (m + n + 1) t) :
    front (m + 1) s = front (m + 1) t ∧
      front (n + 1) (skip m s) = front (n + 1) (skip m t) := by
  constructor
  · rw [Nat.add_right_comm] at h
    exact front_left h
  · rw [Nat.add_assoc] at h
    exact front_right h

/-! ## Looking -/

/-- From `s`, the parse comes past tokens of other kinds than `k` to a token at which it fails or
succeeds; in success it moves past `last` tokens more, and that only at a token of kind `k`.  The
tokens up to the one where it settles decide what it comes to. -/
def Parse.Settles (k : Kind) (last : Nat) (f : Parse ε σ α) (s : σ) : Prop :=
  f s = .endless ∨ ∃ n, (∀ t ∈ front n s, t.kind ≠ k) ∧
    ((∃ a, (0 < last → (current (skip n s)).kind = k) ∧
        ∀ t, front (n + 1) s = front (n + 1) t → f t = .done a (skip (n + last) t)) ∨
      ∃ e, ∀ t, front (n + 1) s = front (n + 1) t → f t = .failed e (skip n t))

/-- The parse settles and moves no further. -/
def Parse.Looks (k : Kind) (f : Parse ε σ α) (s : σ) : Prop := f.Settles k 0 s

/-- The parse settles, and in success it moves past one token of kind `k`. -/
def Parse.Closes (k : Kind) (f : Parse ε σ α) (s : σ) : Prop := f.Settles k 1 s

namespace Parse

variable {k : Kind}

theorem looks_of_done {f : Parse ε σ α} {s : σ} {a : α} (n : Nat)
    (hn : ∀ t ∈ front n s, t.kind ≠ k)
    (h : ∀ t, front (n + 1) s = front (n + 1) t → f t = .done a (skip n t)) : f.Looks k s :=
  .inr ⟨n, hn, .inl ⟨a, fun h => absurd h (Nat.lt_irrefl 0), h⟩⟩

theorem settles_of_failed {f : Parse ε σ α} {s : σ} {e : ε} {last : Nat}
    (h : ∀ t, current s = current t → f t = .failed e t) : f.Settles k last s :=
  .inr ⟨0, by simp [front], .inr ⟨e, fun t ht => h t (current_of_front ht)⟩⟩

theorem looks_pure (a : α) (s : σ) : (pure a : Parse ε σ α).Looks k s :=
  looks_of_done 0 (by simp [front]) fun _ _ => rfl

theorem looks_fail (e : ε) (s : σ) : (fail e : Parse ε σ α).Looks k s :=
  settles_of_failed fun _ _ => rfl

theorem looks_next {s : σ} (h : (current s).kind ≠ k) : (next : Parse ε σ Token).Looks k s := by
  apply looks_of_done 1 (by simpa [front] using h)
  intro t ht
  rw [next_apply, ← current_of_front ht]
  rfl

theorem settles_expect_of_ne {j : Kind} {last : Nat} {s : σ} (h : (current s).kind ≠ j) :
    (expect j : Parse Diagnostic σ Token).Settles k last s := by
  apply settles_of_failed
  intro t ht
  rw [expect_of_kind_ne (by rw [← ht]; exact h), ← ht]

theorem looks_expect {j : Kind} {s : σ} (h : (current s).kind = j → (current s).kind ≠ k) :
    (expect j : Parse Diagnostic σ Token).Looks k s := by
  by_cases hj : (current s).kind = j
  · apply looks_of_done 1 (by simpa [front] using h hj)
    intro t ht
    have hc := current_of_front ht
    rw [expect_of_kind_eq (by rw [← hc]; exact hj), ← hc]
    rfl
  · exact settles_expect_of_ne hj

theorem closes_expect (s : σ) : (expect k : Parse Diagnostic σ Token).Closes k s := by
  by_cases hk : (current s).kind = k
  · refine .inr ⟨0, by simp [front], .inl ⟨current s, fun _ => hk, fun t ht => ?_⟩⟩
    have hc := current_of_front ht
    rw [expect_of_kind_eq (by rw [← hc]; exact hk), hc]
    rfl
  · exact settles_expect_of_ne hk

/-- What follows has to settle from where the first parse stops. -/
theorem Looks.bind {p : Parse ε σ α} {f : α → Parse ε σ β} {s : σ} {last : Nat} (hp : p.Looks k s)
    (hf : ∀ a n, p s = .done a (skip n s) → (f a).Settles k last (skip n s)) :
    (p >>= f).Settles k last s := by
  rcases hp with hp | ⟨n, hn, ⟨a, -, hp⟩ | ⟨e, hp⟩⟩
  · exact .inl (by rw [bind_apply, hp]; rfl)
  · rcases hf a n (hp s rfl) with hfa | ⟨m, hm, hfa⟩
    · refine .inl ?_
      rw [bind_apply, hp s rfl]
      exact hfa
    · refine .inr ⟨n + m, ?_, ?_⟩
      · intro t ht
        rw [front_add, List.mem_append] at ht
        exact ht.elim (hn t) (hm t)
      · rcases hfa with ⟨b, hk, hfa⟩ | ⟨e, hfa⟩
        · refine .inl ⟨b, by rwa [skip_skip] at hk, fun t ht => ?_⟩
          obtain ⟨h, h'⟩ := front_split ht
          rw [bind_apply, hp t h, Nat.add_zero, Outcome.andThen_done, hfa _ h', skip_skip,
            Nat.add_assoc]
        · refine .inr ⟨e, fun t ht => ?_⟩
          obtain ⟨h, h'⟩ := front_split ht
          rw [bind_apply, hp t h, Nat.add_zero, Outcome.andThen_done, hfa _ h', skip_skip]
  · refine .inr ⟨n, hn, .inr ⟨e, fun t ht => ?_⟩⟩
    rw [bind_apply, hp t ht]
    rfl

theorem settles_peek {f : Token → Parse ε σ α} {s : σ} {last : Nat}
    (hf : (f (current s)).Settles k last s) : (peek >>= f).Settles k last s := by
  have happly : ∀ t, (peek >>= f) t = f (current t) t := fun _ => rfl
  rcases hf with hf | ⟨n, hn, ⟨a, hk, hf⟩ | ⟨e, hf⟩⟩
  · exact .inl hf
  · refine .inr ⟨n, hn, .inl ⟨a, hk, fun t ht => ?_⟩⟩
    rw [happly, ← current_of_front ht, hf t ht]
  · refine .inr ⟨n, hn, .inr ⟨e, fun t ht => ?_⟩⟩
    rw [happly, ← current_of_front ht, hf t ht]

theorem Closes.map {p : Parse ε σ α} {s : σ} (hp : p.Closes k s) (f : α → β) :
    (p >>= fun a => pure (f a)).Closes k s := by
  rcases hp with hp | ⟨n, hn, ⟨a, hk, hp⟩ | ⟨e, hp⟩⟩
  · exact .inl (by rw [bind_apply, hp]; rfl)
  · refine .inr ⟨n, hn, .inl ⟨f a, hk, fun t ht => ?_⟩⟩
    rw [bind_apply, hp t ht]
    rfl
  · refine .inr ⟨n, hn, .inr ⟨e, fun t ht => ?_⟩⟩
    rw [bind_apply, hp t ht]
    rfl

theorem Closes.restate {p : Parse ε σ α} {s : σ} (hp : p.Closes k s) (f : ε → Token → ε') :
    (p.restate f).Closes k s := by
  unfold Closes Settles Parse.restate
  rcases hp with hp | ⟨n, hn, ⟨a, hk, hp⟩ | ⟨e, hp⟩⟩
  · exact .inl (by rw [hp])
  · refine .inr ⟨n, hn, .inl ⟨a, hk, fun t ht => ?_⟩⟩
    rw [hp t ht]
  · refine .inr ⟨n, hn, .inr ⟨f e (current (skip n s)), fun t ht => ?_⟩⟩
    rw [hp t ht, current_skip_of_front ht]

end Parse

/-! ## Expressions -/

/-- Rounds to spare change nothing. -/
theorem operations_add {g : Grammar} {nested : Power → Parse Diagnostic σ Expr} {bound : Power}
    {m : Nat} {l : Expr} {s : σ} (n : Nat) (h : operations g nested bound m l s ≠ .endless) :
    operations g nested bound (m + n) l s = operations g nested bound m l s := by
  induction m generalizing l s with
  | zero =>
    cases ho : g.operatorAbove? bound (current s).kind with
    | none => rw [operations_of_none _ _ _ ho, operations_of_none _ _ _ ho]
    | some power => simp [operations, ho] at h
  | succ m ih =>
    cases ho : g.operatorAbove? bound (current s).kind with
    | none => rw [operations_of_none _ _ _ ho, operations_of_none _ _ _ ho]
    | some power =>
      rw [operations_of_some _ _ _ ho] at h
      rw [Nat.succ_add, operations_of_some _ _ _ ho, operations_of_some _ _ _ ho]
      cases hx : operation nested power l s with
      | failed e rest => rfl
      | endless => rfl
      | done longer rest =>
        rw [hx] at h
        exact ih h

section

variable {g : Grammar} {k : Kind} {nested : Power → Parse Diagnostic σ Expr}
  (hn : ∀ p s, (nested p).Looks k s)

include hn

theorem looks_read (hc : k ≠ .closeParen) {rule : OperandRule} {s : σ} (hs : (current s).kind ≠ k) :
    (rule.read nested).Looks k s := by
  cases rule with
  | identifier => exact (looks_expect fun _ => hs).bind fun _ _ _ => looks_pure _ _
  | integer => exact (looks_expect fun _ => hs).bind fun _ _ _ => looks_pure _ _
  | boolean => exact (looks_next hs).bind fun _ _ _ => looks_pure _ _
  | unary => exact (looks_next hs).bind fun _ _ _ => (hn _ _).bind fun _ _ _ => looks_pure _ _
  | group =>
    refine (looks_expect fun _ => hs).bind fun _ _ _ => (hn _ _).bind fun _ _ _ => ?_
    exact (looks_expect fun h => by rw [h]; exact hc.symm).bind fun _ _ _ => looks_pure _ _

theorem looks_operand (hc : k ≠ .closeParen) (hk : g.operand k = none) (s : σ) :
    (operand g nested).Looks k s := by
  apply settles_peek
  split
  · exact looks_fail _ _
  · next rule hr =>
    apply looks_read hn hc
    intro h
    rw [h, hk] at hr
    cases hr

theorem looks_operations (hk : g.operator k = none) (bound : Power) (rounds : Nat) (l : Expr)
    (s : σ) : (operations g nested bound rounds l).Looks k s := by
  induction rounds generalizing l s with
  | zero =>
    apply settles_peek
    split
    · exact looks_pure _ _
    · exact .inl rfl
  | succ rounds ih =>
    apply settles_peek
    split
    · exact looks_pure _ _
    · next power ho =>
      have hs : (current s).kind ≠ k := by
        intro h
        rw [h, Grammar.operatorAbove?_eq_none_of _ hk] at ho
        cases ho
      refine Looks.bind ?_ fun _ _ _ => ih _ _
      exact (looks_next hs).bind fun _ _ _ => (hn _ _).bind fun _ _ _ => looks_pure _ _

end

theorem looks_extend {g : Grammar} {k : Kind} {room : Nat} (bound : Power) (l : Expr) (s : σ)
    (hk : g.operator k = none) (hn : ∀ p (s : σ), (expression g room p).Looks k s) :
    (extend g room bound l).Looks k s := by
  -- how many rounds `extend` has is a matter of the whole stream, but those of `s` are enough
  have hround : ∀ (t : σ), operations g (expression g room) bound (left s + 1) l t ≠ .endless →
      extend g room bound l t = operations g (expression g room) bound (left s + 1) l t := by
    intro t ht
    have hle := length_tokens_le t
    rw [← operations_add (left t) ht]
    exact (operations_eq_extend (by omega)).symm
  rcases looks_operations hn hk bound (left s + 1) l s with h | ⟨n, hs, ⟨a, h0, h⟩ | ⟨e, h⟩⟩
  · exact .inl h
  · refine .inr ⟨n, hs, .inl ⟨a, h0, fun t ht => ?_⟩⟩
    rw [hround t (by rw [h t ht]; exact fun h => nomatch h), h t ht]
  · refine .inr ⟨n, hs, .inr ⟨e, fun t ht => ?_⟩⟩
    rw [hround t (by rw [h t ht]; exact fun h => nomatch h), h t ht]

/-- An expression moves past operands, operators and closing parentheses only, and looks one token
ahead. -/
theorem looks_expression {g : Grammar} {k : Kind} (hc : k ≠ .closeParen) (hk : g.operand k = none)
    (ho : g.operator k = none) (room : Nat) (bound : Power) (s : σ) :
    (expression g room bound).Looks k s := by
  induction room generalizing bound s with
  | zero => exact looks_fail _ _
  | succ room ih =>
    have hoperand := looks_operand ih hc hk s
    exact Looks.bind hoperand fun l n _ => looks_extend bound l (skip n s) ho ih

/-! ## Statements -/

section

variable {g : Grammar} (hk : g.operand .semicolon = none) (ho : g.operator .semicolon = none)
  (room : Nat) (s : σ)

include hk ho

theorem closes_letStatement : (letStatement g room).Closes .semicolon s := by
  refine (looks_expect fun h => by rw [h]; decide).bind fun _ _ _ => ?_
  refine (looks_expect fun h => by rw [h]; decide).bind fun _ _ _ => ?_
  refine (looks_expect fun h => by rw [h]; decide).bind fun _ _ _ => ?_
  refine (looks_expression (by decide) hk ho room _ _).bind fun _ _ _ => ?_
  exact (closes_expect _).map _

theorem closes_expressionStatement : (expressionStatement g room).Closes .semicolon s :=
  (looks_expression (by decide) hk ho room _ s).bind fun _ _ _ => (closes_expect _).map _

theorem closes_statement : (statement g room).Closes .semicolon s := by
  apply settles_peek
  split
  · next rule _ =>
    cases rule with
    | letBinding => exact (closes_letStatement hk ho room _).restate _
    | expression => exact (closes_expressionStatement hk ho room _).restate _
  · exact (closes_expressionStatement hk ho room _).restate _

end

end LetLang
