import LetLang.Proofs.Openings
import LetLang.Proofs.Statements

/-!
# Where reading fails

A failure leaves the stream behind an opening.  The diagnostic is about the token that comes next, and if
it asks for a token of another kind, then the opening with such a token behind it is an opening again.
`Stuck` says all this of a parse, and it is carried outwards from the phrase that could not be read to
every sentence around it (`Stuck.within`).

What no diagnostic is ever about, such as an operator found in place of a closing parenthesis, is said by
`Diagnostic.Lacks`.

    an expression gets stuck in an opening of its category                  (stuck_of_expression)
    a statement gets stuck in an opening of a statement                     (rejected_of_statement)
-/

namespace LetLang

open TokenStream Parse

variable {ε σ α β : Type}

theorem andThen_eq_failed_iff {o : Outcome ε σ α} {f : α → Parse ε σ β} {e : ε} {last : σ} :
    o.andThen f = .failed e last ↔
      o = .failed e last ∨ ∃ a rest, o = .done a rest ∧ f a rest = .failed e last := by
  cases o with
  | done a rest =>
    constructor
    · intro h
      exact .inr ⟨a, rest, rfl, h⟩
    · rintro (h | ⟨a, rest, h, h'⟩)
      · cases h
      · cases h
        exact h'
  | failed e' rest =>
    constructor
    · intro h
      cases h
      exact .inl rfl
    · rintro (h | ⟨a, rest, h, -⟩)
      · cases h
        rfl
      · cases h
  | endless =>
    constructor
    · intro h
      cases h
    · rintro (h | ⟨a, rest, h, -⟩) <;> cases h

/-! ## What a diagnostic tells -/

namespace Diagnostic

/-- The diagnostic is about the token `t`, if it is about any. -/
def Blames (t : Token) : Diagnostic → Prop
  | unexpectedToken _ found text => found = t.kind ∧ text = t.text
  | noOperand kind text => kind = t.kind ∧ text = t.text
  | invalidStatement kind => kind = t.kind
  | nestingTooDeep _ => True

/-- A token of one of the kinds was lacking, or an operand was.  No operator is found where an expression
has to end, and nothing that opens an operand is found where one is lacking. -/
def Lacks (ks : List Kind) : Diagnostic → Prop
  | unexpectedToken expected found _ =>
    expected ∈ ks ∧
      (expected = .semicolon ∨ expected = .closeParen → Grammar.standard.operator found = none)
  | noOperand kind _ => Grammar.standard.operand kind = none
  | invalidStatement _ => False
  | nestingTooDeep limit => limit = nestingLimit

theorem Lacks.mono {js ks : List Kind} {d : Diagnostic} (h : d.Lacks js) (hk : js ⊆ ks) :
    d.Lacks ks := by
  cases d with
  | unexpectedToken expected found text => exact ⟨hk h.1, h.2⟩
  | _ => exact h

end Diagnostic

variable [TokenStream σ]

theorem Spans.nil (s : σ) : Spans s [] s := ⟨rfl, rfl⟩

/-- From `s` reading came past `ts` to `rest`, and there it failed with `d`.  The tokens open a sentence
of `P`, also with one more behind them of the kind that `d` asks for. -/
structure Stuck (P : List Token → Prop) (ks : List Kind) (s : σ) (ts : List Token) (d : Diagnostic)
    (rest : σ) : Prop where
  spans : Spans s ts rest
  opens : Opens P ts
  expected : ∀ k found text, d = .unexpectedToken k found text → ∀ t : Token, t.kind = k →
    Opens P (ts ++ [t])
  blames : d.Blames (current rest)
  lacks : d.Lacks ks

namespace Stuck

variable {P Q : List Token → Prop} {js ks : List Kind} {s mid rest : σ} {ts : List Token}
  {d : Diagnostic}

/-- The sentence around the one that could not be read is stuck at the same token. -/
theorem within {before : List Token} (after : List Token) (h : Stuck P ks mid ts d rest)
    (hs : Spans s before mid) (hpart : ∀ vs, P vs → Q (before ++ vs ++ after)) :
    Stuck Q ks s (before ++ ts) d rest where
  spans := hs.trans h.spans
  opens := h.opens.within after hpart
  expected k found text hd t ht := by
    rw [List.append_assoc]
    exact (h.expected k found text hd t ht).within after hpart
  blames := h.blames
  lacks := h.lacks

theorem mono (h : Stuck P js s ts d rest) (hP : ∀ vs, P vs → Q vs) (hk : js ⊆ ks) :
    Stuck Q ks s ts d rest where
  spans := h.spans
  opens := h.opens.mono hP
  expected k found text hd t ht := (h.expected k found text hd t ht).mono hP
  blames := h.blames
  lacks := h.lacks.mono hk

/-- A token of a certain kind has to come next, and does not. -/
theorem of_expect {k : Kind} (h : expect k mid = .failed d rest) (hs : Spans s ts mid)
    (hopen : ∀ t : Token, t.kind = k → Opens P (ts ++ [t])) (hk : k ∈ ks)
    (hend : k = .semicolon ∨ k = .closeParen →
      Grammar.standard.operator (current mid).kind = none) : Stuck P ks s ts d rest := by
  by_cases hkind : (current mid).kind = k
  · rw [expect_of_kind_eq hkind] at h
    cases h
  · rw [expect_of_kind_ne hkind] at h
    cases h
    refine ⟨hs, (hopen ⟨k, ""⟩ rfl).of_append, ?_, ⟨rfl, rfl⟩, hk, hend⟩
    intro k' found text hd t ht
    cases hd
    exact hopen t ht

end Stuck

/-! ## Expressions -/

theorem operator_eq_none_of_le {k : Kind} (h : Grammar.standard.power k ≤ .lowest) :
    Grammar.standard.operator k = none := by
  revert h
  cases k <;> decide

section

variable {room : Nat} (ih : ∀ (bound : Power) (s : σ) (d : Diagnostic) (rest : σ),
  expression .standard room bound s = .failed d rest →
    ∃ ts, Stuck (Phrase (.above bound)) [.closeParen] s ts d rest)

include ih

theorem stuck_of_group {s rest : σ} {d : Diagnostic} (hk : (current s).kind = .openParen)
    (h : OperandRule.group.read (expression .standard room) s = .failed d rest) :
    ∃ ts, Stuck (Phrase .atom) [.closeParen] s ts d rest := by
  have hs : Spans s [current s] (advance s) := spans_single hk (by decide)
  rw [read_group _ hk] at h
  rcases andThen_eq_failed_iff.1 h with h | ⟨e, mid, he, h⟩
  · -- stuck inside the parentheses
    obtain ⟨ts, h⟩ := ih _ _ _ _ h
    refine ⟨_, h.within [⟨.closeParen, ")"⟩] hs fun vs hvs => ?_⟩
    exact Phrase.group hk rfl hvs
  · -- the inside is complete, and no operator stands behind it
    obtain ⟨ts, n, hts, -, hd, hstop⟩ := complete_of_expression room _ _ _ _ he
    rcases andThen_eq_failed_iff.1 h with h | ⟨t, last, -, h⟩
    · refine ⟨_, .of_expect h (hs.trans hts) (fun t ht => ?_) List.mem_cons_self
        fun _ => operator_eq_none_of_le hstop⟩
      exact .of_sentence (Phrase.group hk ht ⟨n, e, hd⟩)
    · cases h

theorem stuck_of_operand {s rest : σ} {d : Diagnostic}
    (h : operand .standard (expression .standard room) s = .failed d rest) :
    ∃ ts, Stuck (Phrase .signed) [.closeParen] s ts d rest := by
  cases ho : Grammar.standard.operand (current s).kind with
  | none =>
    rw [operand_of_none _ ho] at h
    cases h
    exact ⟨[], .nil s, Phrase.opens_nil _, (fun _ _ _ hd => nomatch hd), ⟨rfl, rfl⟩, ho⟩
  | some rule =>
    rw [operand_of_some _ ho] at h
    have hk := kind_of_operand ho
    cases rule with
    | identifier =>
      rw [read_identifier _ hk] at h
      cases h
    | integer =>
      rw [read_integer _ hk] at h
      cases h
    | boolean =>
      rw [read_boolean] at h
      cases h
    | unary =>
      rw [read_unary] at h
      rcases andThen_eq_failed_iff.1 h with h | ⟨e, last, -, h⟩
      · obtain ⟨ts, h⟩ := ih _ _ _ _ h
        refine ⟨_, h.within [] (spans_single hk (by decide)) fun vs hvs => ?_⟩
        rw [List.append_nil]
        exact Phrase.negation hk hvs
      · cases h
    | group =>
      obtain ⟨ts, h⟩ := stuck_of_group ih hk h
      exact ⟨ts, h.mono (fun _ hvs => hvs.widen (by decide)) (List.Subset.refl _)⟩

/-- The phrase read so far is the left operand of the operator whose right operand cannot be read. -/
theorem stuck_of_operations {rounds m : Nat} {bound : Power} {c : Category} {ls : List Token}
    {l : Expr} {s mid rest : σ} {d : Diagnostic} (hs : Spans s ls mid) (hl : Derives c m ls l)
    (hlast : Grammar.standard.power (current mid).kind ≤ c.last)
    (h : operations .standard (expression .standard room) bound rounds l mid = .failed d rest) :
    ∃ ts, Stuck (Phrase (.above bound)) [.closeParen] s ts d rest := by
  induction rounds generalizing m c ls l mid with
  | zero =>
    cases ho : Grammar.standard.operatorAbove? bound (current mid).kind <;> simp [operations, ho] at h
  | succ rounds hr =>
    cases ho : Grammar.standard.operatorAbove? bound (current mid).kind with
    | none =>
      rw [operations_of_none _ _ _ ho] at h
      cases h
    | some p =>
      obtain ⟨hop, hb⟩ := Grammar.operatorAbove?_eq_some_iff.1 ho
      rw [power_of_operator hop] at hlast
      have hspan := hs.trans (Spans.single (kind_ne_eof_of_operator hop))
      rw [operations_of_some _ _ _ ho, operation_apply] at h
      rcases andThen_eq_failed_iff.1 h with h | ⟨longer, next, h, hrest⟩
      · rcases andThen_eq_failed_iff.1 h with h | ⟨r, last, -, h⟩
        · -- stuck in the right operand
          obtain ⟨rs, h⟩ := ih _ _ _ _ h
          refine ⟨_, h.within [] hspan fun vs hvs => ?_⟩
          rw [List.append_nil, List.append_assoc]
          exact (Phrase.joined hop hlast hl hvs).widen (Category.rank_above_le_joined hb)
        · cases h
      · -- stuck further on, with this operation for the left operand
        obtain ⟨r, last, hx, hbinary⟩ := andThen_eq_done_iff.1 h
        cases hbinary
        obtain ⟨rs, n, hsr, -, hd, hle⟩ := complete_of_expression room _ _ _ _ hx
        have hjoined := Derives.joined hop hlast hl hd
        rw [List.append_cons] at hjoined
        exact hr (hspan.trans hsr) hjoined (Nat.le_trans hle (Category.le_last_joined p)) hrest

end

/-- An expression that cannot be read is stuck in an opening of its category, and the only token that it
may lack is a closing parenthesis. -/
theorem stuck_of_expression (room : Nat) :
    ∀ (bound : Power) (s : σ) (d : Diagnostic) (rest : σ),
      expression .standard room bound s = .failed d rest →
        ∃ ts, Stuck (Phrase (.above bound)) [.closeParen] s ts d rest := by
  induction room with
  | zero =>
    intro bound s d rest h
    cases h
    exact ⟨[], .nil s, Phrase.opens_nil _, (fun _ _ _ hd => nomatch hd), trivial, rfl⟩
  | succ room ih =>
    intro bound s d rest h
    rw [expression_eq_extend] at h
    rcases andThen_eq_failed_iff.1 h with h | ⟨l, mid, hx, h⟩
    · obtain ⟨ts, h⟩ := stuck_of_operand ih h
      refine ⟨ts, h.mono (fun _ hvs => hvs.widen ?_) (List.Subset.refl _)⟩
      cases bound <;> decide
    · obtain ⟨ls, m, hs, -, hl⟩ := derives_of_operand (complete_of_expression room) hx
      have hpower : Grammar.standard.power (current mid).kind ≤ Category.signed.last := by
        generalize (current mid).kind = k
        cases k <;> decide
      exact stuck_of_operations ih hs hl hpower h

/-! ## Statements -/

/-- The kinds of tokens that a binding may lack behind so many of its own. -/
def bindingLacks : Nat → List Kind
  | 0 => []
  | 1 => [.identifier]
  | 2 => [.assignment]
  | _ => [.semicolon, .closeParen]

/-- The value of a statement, with the semicolon that has to follow, fails inside the value or at its
end. -/
theorem stuck_of_value {room : Nat} {s mid rest : σ} {before : List Token} {d : Diagnostic}
    {f : Expr → Stmt} (hs : Spans s before mid)
    (hpart : ∀ vs (t : Token), t.kind = .semicolon → Phrase .sum vs → Sentence (before ++ vs ++ [t]))
    (h : (do let e ← expression .standard room .lowest; let _ ← expect .semicolon; pure (f e)) mid =
      .failed d rest) :
    ∃ ts, Stuck Sentence [.semicolon, .closeParen] s (before ++ ts) d rest := by
  rw [bind_apply] at h
  rcases andThen_eq_failed_iff.1 h with h | ⟨e, last, he, h⟩
  · obtain ⟨ts, h⟩ := stuck_of_expression room _ _ _ _ h
    have hsentence := h.within [⟨.semicolon, ";"⟩] hs fun vs hvs => hpart vs _ rfl hvs
    exact ⟨ts, hsentence.mono (fun _ hvs => hvs) (by simp)⟩
  · obtain ⟨ts, n, hts, -, hd, hstop⟩ := complete_of_expression room _ _ _ _ he
    rw [bind_apply] at h
    rcases andThen_eq_failed_iff.1 h with h | ⟨t, after, -, h⟩
    · refine ⟨ts, .of_expect h (hs.trans hts) (fun t ht => ?_) List.mem_cons_self
        fun _ => operator_eq_none_of_le hstop⟩
      exact .of_sentence (hpart ts t ht ⟨n, e, hd⟩)
    · cases h

theorem stuck_of_letStatement {room : Nat} {s rest : σ} {d : Diagnostic}
    (hword : (current s).kind = .letWord) (h : letStatement .standard room s = .failed d rest) :
    ∃ ts, Stuck Sentence (bindingLacks ts.length) s ts d rest := by
  have hs := spans_single hword (by decide)
  unfold letStatement at h
  rw [bind_apply, expect_of_kind_eq hword, Outcome.andThen_done, bind_apply] at h
  rcases andThen_eq_failed_iff.1 h with h | ⟨_, _, hexpect, h⟩
  · refine ⟨_, .of_expect h hs (fun t ht => ?_) (by simp [bindingLacks]) (by simp)⟩
    have hhead : Opens Sentence ([current s] ++ [t] ++ [⟨.assignment, "="⟩]) :=
      Sentence.opens_head hword ht rfl
    exact hhead.of_append
  obtain ⟨hname, rfl, rfl⟩ := expect_eq_done_iff.1 hexpect
  have hs' := hs.trans (spans_single hname (by decide))
  rw [bind_apply] at h
  rcases andThen_eq_failed_iff.1 h with h | ⟨_, _, hexpect, h⟩
  · refine ⟨_, .of_expect h hs' (fun t ht => ?_) (by simp [bindingLacks]) (by simp)⟩
    exact Sentence.opens_head hword hname ht
  obtain ⟨hsign, rfl, rfl⟩ := expect_eq_done_iff.1 hexpect
  have hhead : Spans s [current s, current (advance s), current (advance (advance s))] _ :=
    hs'.trans (spans_single hsign (by decide))
  obtain ⟨ts, h⟩ := stuck_of_value hhead
    (fun vs t ht hvs => Sentence.letBinding hword hname hsign hvs ht) h
  have hlacks : bindingLacks ([current s, current (advance s), current (advance (advance s))] ++
      ts).length = [.semicolon, .closeParen] := rfl
  exact ⟨_, hlacks ▸ h⟩

theorem stuck_of_expressionStatement {room : Nat} {s rest : σ} {d : Diagnostic}
    (h : expressionStatement .standard room s = .failed d rest) :
    ∃ ts, Stuck Sentence [.semicolon, .closeParen] s ts d rest := by
  obtain ⟨ts, h⟩ := stuck_of_value (.nil s) (fun _ _ ht hvs => Sentence.expression hvs ht) h
  exact ⟨_, h⟩

/-- How a statement is rejected whose reading came past `ts` and failed with `d` at `rest`. -/
inductive Rejected (s : σ) (ts : List Token) (d : Diagnostic) (rest : σ) : List Diagnostic → Prop
  | letBinding (hlet : (current s).kind = .letWord)
      (h : Stuck Sentence (bindingLacks ts.length) s ts d rest) : Rejected s ts d rest [d]
  | expression (hlet : (current s).kind ≠ .letWord)
      (h : Stuck Sentence [.semicolon, .closeParen] s ts d rest) :
      Rejected s ts d rest [d, .invalidStatement (current rest).kind]

theorem Rejected.stuck {s rest : σ} {ts : List Token} {d : Diagnostic} {ds : List Diagnostic}
    (h : Rejected s ts d rest ds) : ∃ ks, Stuck Sentence ks s ts d rest := by
  cases h with
  | letBinding _ h => exact ⟨_, h⟩
  | expression _ h => exact ⟨_, h⟩

theorem Rejected.head? {s rest : σ} {ts : List Token} {d : Diagnostic} {ds : List Diagnostic}
    (h : Rejected s ts d rest ds) : ds.head? = some d := by
  cases h <;> rfl

theorem restate_eq_failed_iff {ε' : Type} {p : Parse ε σ α} {f : ε → Token → ε'} {e' : ε'}
    {s rest : σ} :
    p.restate f s = .failed e' rest ↔ ∃ e, p s = .failed e rest ∧ e' = f e (current rest) := by
  unfold Parse.restate
  constructor
  · intro h
    split at h
    · cases h
    · next e _ hp =>
      cases h
      exact ⟨e, hp, rfl⟩
    · cases h
  · rintro ⟨e, hp, rfl⟩
    rw [hp]

theorem rule_of_let {k : Kind} (h : k = .letWord) :
    Grammar.standard.statement k = some .letBinding := by
  rw [h]
  rfl

theorem rule_of_ne_let {k : Kind} (h : k ≠ .letWord) : Grammar.standard.statement k = none := by
  revert h
  cases k <;> decide

theorem rejected_of_statement {room : Nat} {s rest : σ} {r : Rejection}
    (h : statement .standard room s = .failed r rest) :
    ∃ ts d, Rejected s ts d rest r.diagnostics := by
  by_cases hlet : (current s).kind = .letWord
  · rw [statement_of_some room (rule_of_let hlet), restate_eq_failed_iff] at h
    obtain ⟨d, h, rfl⟩ := h
    obtain ⟨ts, hts⟩ := stuck_of_letStatement hlet h
    exact ⟨ts, d, .letBinding hlet hts⟩
  · rw [statement_of_none room (rule_of_ne_let hlet), restate_eq_failed_iff] at h
    obtain ⟨d, h, rfl⟩ := h
    obtain ⟨ts, hts⟩ := stuck_of_expressionStatement h
    exact ⟨ts, d, .expression hlet hts⟩

end LetLang
