import LetLang.Proofs.Precedence

/-!
# Reading statements

A statement is read just where one of the grammar stands whose expression is nested no deeper than the
room allows; what follows it does not matter, since a semicolon ends it.

    statement .standard room s = .done stmt rest ↔
      ∃ ts n, Spans s ts rest ∧ n ≤ room ∧ DerivesStatement n ts stmt          (statement_eq_done_iff)
-/

namespace LetLang

open TokenStream Parse

variable {ε ε' σ α : Type} [TokenStream σ] {room : Nat} {s rest : σ}

theorem restate_eq_done_iff {p : Parse ε σ α} {f : ε → Token → ε'} {a : α} :
    p.restate f s = .done a rest ↔ p s = .done a rest := by
  unfold Parse.restate
  cases h : p s with
  | done b last =>
    constructor <;> (intro h'; cases h'; rfl)
  | failed e last =>
    constructor <;> (intro h'; cases h')
  | endless =>
    constructor <;> (intro h'; cases h')

theorem expression_semicolon {n : Nat} {ts : List Token} {e : Expr} {semi : Token}
    (h : Derives .sum n ts e) (hn : n ≤ room) (hsemi : semi.kind = .semicolon)
    (hs : Spans s (ts ++ [semi]) rest) :
    ∃ mid, expression .standard room .lowest s = .done e mid ∧
      expect .semicolon mid = .done (current mid) rest := by
  obtain ⟨mid, hts, hclose⟩ := hs.exists_mid
  have hk : (current mid).kind = .semicolon := by rw [hclose.current_cons, hsemi]
  have hsum : Derives (.above .lowest) n ts e := h
  refine ⟨mid, hsum.expression_eq_done hn hts (by rw [hk]; decide), ?_⟩
  rw [expect_of_kind_eq hk, hclose.rest_eq]
  rfl

theorem letStatement_eq_done_iff {stmt : Stmt} :
    letStatement .standard room s = .done stmt rest ↔
      ∃ ts n, Spans s ts rest ∧ n ≤ room ∧ DerivesStatement n ts stmt ∧
        (current s).kind = .letWord := by
  constructor
  · intro h
    unfold letStatement at h
    simp only [bind_apply, andThen_eq_done_iff, expect_eq_done_iff, expression_eq_done_iff,
      pure_apply] at h
    obtain ⟨_, s1, ⟨hword, rfl, rfl⟩, _, s2, ⟨hname, rfl, rfl⟩, _, s3, ⟨hsign, rfl, rfl⟩, e, s4,
      ⟨ts, n, hs, hn, hd, -⟩, _, s5, ⟨hsemi, rfl, rfl⟩, h⟩ := h
    cases h
    refine ⟨_, n, ?_, hn, .letBinding hword hname hsign hd hsemi, hword⟩
    have h1 := spans_single hword (by decide)
    have h2 := spans_single hname (by decide)
    have h3 := spans_single hsign (by decide)
    have h5 := spans_single hsemi (by decide)
    exact h1.trans (h2.trans (h3.trans (hs.trans h5)))
  · rintro ⟨ts, n, hs, hn, hd, hlet⟩
    cases hd with
    | @letBinding word name sign ts e semi hword hname hsign hd hsemi =>
      have h1 := hs.tail
      have h2 := h1.tail
      obtain ⟨mid, he, hexpect⟩ := expression_semicolon hd hn hsemi h2.tail
      unfold letStatement
      rw [bind_apply, expect_of_kind_eq hlet, Outcome.andThen_done, bind_apply,
        expect_of_kind_eq (by rw [h1.current_cons, hname]), Outcome.andThen_done, bind_apply,
        expect_of_kind_eq (by rw [h2.current_cons, hsign]), Outcome.andThen_done, bind_apply, he,
        Outcome.andThen_done, bind_apply, hexpect, h1.current_cons]
      rfl
    | expression hd hsemi =>
      obtain ⟨t, us, rfl, ht⟩ := hd.head
      rw [List.cons_append] at hs
      rw [hs.current_cons] at hlet
      exact absurd hlet ht

theorem expressionStatement_eq_done_iff {stmt : Stmt} :
    expressionStatement .standard room s = .done stmt rest ↔
      ∃ ts n, Spans s ts rest ∧ n ≤ room ∧ DerivesStatement n ts stmt ∧
        (current s).kind ≠ .letWord := by
  constructor
  · intro h
    unfold expressionStatement at h
    simp only [bind_apply, andThen_eq_done_iff, expect_eq_done_iff, expression_eq_done_iff,
      pure_apply] at h
    obtain ⟨e, mid, ⟨ts, n, hs, hn, hd, -⟩, _, last, ⟨hsemi, rfl, rfl⟩, h⟩ := h
    cases h
    refine ⟨_, n, hs.trans (spans_single hsemi (by decide)), hn, .expression hd hsemi, ?_⟩
    obtain ⟨t, us, rfl, ht⟩ := Derives.head hd
    rw [hs.current_cons]
    exact ht
  · rintro ⟨ts, n, hs, hn, hd, hlet⟩
    cases hd with
    | letBinding hword =>
      rw [hs.current_cons] at hlet
      exact absurd hword hlet
    | expression hd hsemi =>
      obtain ⟨mid, he, hexpect⟩ := expression_semicolon hd hn hsemi hs
      unfold expressionStatement
      rw [bind_apply, he, Outcome.andThen_done, bind_apply, hexpect]
      rfl

/-- A statement is read just where one of the grammar stands that fits the room. -/
theorem statement_eq_done_iff {stmt : Stmt} :
    statement .standard room s = .done stmt rest ↔
      ∃ ts n, Spans s ts rest ∧ n ≤ room ∧ DerivesStatement n ts stmt := by
  by_cases hk : (current s).kind = .letWord
  · have hrule : Grammar.standard.statement (current s).kind = some .letBinding := by
      rw [hk]
      rfl
    rw [statement_of_some room hrule, restate_eq_done_iff]
    show letStatement .standard room s = _ ↔ _
    simp only [letStatement_eq_done_iff, hk, and_true]
  · have hrule : Grammar.standard.statement (current s).kind = none := by
      revert hk
      generalize (current s).kind = k
      cases k <;> decide
    rw [statement_of_none room hrule, restate_eq_done_iff]
    simp only [expressionStatement_eq_done_iff, ne_eq, hk, not_false_eq_true, and_true]

end LetLang
