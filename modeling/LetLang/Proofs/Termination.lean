import LetLang.Proofs.Failures
import LetLang.Proofs.MainLoop

/-!
# Coming to an end

Parsing ends whatever the tables say, with one exception: where the end token is an operator and is also read
as an operand of any kind, it extends an expression for ever.  Short of that, an operator at the end finds
no right operand, and an operand that opens another one without moving on comes to the nesting limit.

What a whole parse gives is bounded by the tokens.  Every round of the main loop takes one; a statement
takes two at least and gives no diagnostic, and one that is dropped gives two at most.

    g.extendsEnd = true → an expression at the end is endless               (expression_eq_endless)
    rounds, diagnostics and statements are bounded by the tokens            (Run.length_le, Run.weight_le)
    p.grammar.extendsEnd = false → every way of parsing comes to an end     (parsing_ends)
-/

namespace LetLang

open TokenStream Parse

variable {ε σ α : Type} [TokenStream σ] {g : Grammar} {room : Nat}

/-! ## The exception -/

/-- Where the end token extends itself, an expression at the end never comes to its own. -/
theorem expression_eq_endless (hg : g.extendsEnd = true) (room : Nat) {s : σ} (hs : tokens s = []) :
    expression g (room + 2) .lowest s = .endless := by
  obtain ⟨hpower, hboolean⟩ : .lowest < g.power .eof ∧ g.operand .eof = some .boolean := by
    simpa [Grammar.extendsEnd] using hg
  obtain ⟨power, ho⟩ := Option.isSome_iff_exists.1 (Grammar.operatorAbove?_isSome_iff.2 hpower)
  have hcurrent : ∀ t : σ, tokens t = [] → (current t).kind = .eof := by
    intro t ht
    rw [current_of_tokens_nil ht]
    rfl
  have hadvance : tokens (advance s) = [] := by
    rw [tokens_advance, hs]
    rfl
  -- the end token is an operand, and as a right operand it takes in no further operator
  have hright : expression g (room + 1) power s =
      .done (.boolean ((current s).kind = .trueWord)) (advance s) := by
    have hrule : g.operand (current s).kind = some .boolean := hcurrent s hs ▸ hboolean
    rw [expression_of_operand power .boolean hrule (read_boolean _)]
    apply extend_of_le
    rw [hcurrent _ hadvance, power_of_operator (Grammar.operatorAbove?_eq_some_iff.1 ho).1]
    exact Nat.le_refl _
  have hfirst : g.operand (current s).kind = some .boolean := hcurrent s hs ▸ hboolean
  rw [expression_of_operand .lowest .boolean hfirst (read_boolean _)]
  exact operations_eq_endless (fun p => respects_expression g (room + 1) p alike_tokens) hs ho hright
    hadvance _ _ _ hadvance

/-! ## Parsers -/

theorem Parser.isSome_parseStatement {p : Parser σ} (hg : p.grammar.extendsEnd = false) :
    p.parseStatement.isSome := by
  have hrun := isSome_run (p := p) (ends_statement hg p.room)
  unfold parseStatement
  split
  · next h =>
    rw [h] at hrun
    cases hrun
  · rfl
  · rfl

theorem Parser.exists_turns {p : Parser σ} (hg : p.grammar.extendsEnd = false) :
    ∃ ts q, p.parse = some (programOf ts, q) ∧ q.currentKind = .eof ∧
      Run p.grammar p.room p.stream ts q.stream ∧
        q.diagnostics.size = p.diagnostics.size + (diagnosticsOf ts).length := by
  obtain ⟨⟨ts, last⟩, hturns⟩ := Option.isSome_iff_exists.1 (turns_isSome hg p.room p.stream)
  obtain ⟨q, hq, hlast, -, -, hdiagnostics, -⟩ := parse_eq_of_turns hturns
  refine ⟨ts, q, hq, ?_, ?_, ?_⟩
  · rw [currentKind, currentToken, hlast]
    exact current_of_turns hturns
  · rw [hlast]
    exact run_of_turnsUpTo hturns
  · rw [← Diagnostics.length_toList, hdiagnostics, List.length_append, Diagnostics.length_toList]

/-! ## Bounds -/

/-- Every turn takes a token. -/
theorem Run.length_le {s rest : σ} {ts : List Turn} (h : Run g room s ts rest) :
    ts.length + (tokens rest).length ≤ (tokens s).length := by
  induction h with
  | stop s => simp
  | turn hs ht _ ih =>
    have hlt := length_turn_lt hs ht
    rw [List.length_cons]
    omega

theorem DerivesStatement.two_le_length {n : Nat} {ts : List Token} {stmt : Stmt}
    (h : DerivesStatement n ts stmt) : 2 ≤ ts.length := by
  cases h with
  | letBinding _ _ _ _ _ => simp only [List.length_cons]; omega
  | expression h _ =>
    obtain ⟨t, us, rfl, -⟩ := h.head
    simp

/-- What a turn gives, a statement counted four times. -/
def Turn.weight (t : Turn) : Nat := t.diagnostics.length + 4 * t.statement?.toList.length

theorem turn_weight_le {s rest : σ} {t : Turn} (hs : (current s).kind ≠ .eof)
    (h : turn .standard room s = some (t, rest)) :
    t.weight + 2 * (tokens rest).length ≤ 2 * (tokens s).length := by
  obtain ⟨-, ⟨n, stmt, hdone, rfl, -, hv⟩ | ⟨n, r, hfailed, -, -, hv⟩⟩ := turn_cases h
  · -- a statement is two tokens at least
    obtain ⟨ts, m, hspan, -, hd⟩ := statement_eq_done_iff.1 hdone
    obtain rfl : n = ts.length := Logged.skip_injective hspan.rest_eq
    have hweight : t.weight = 4 := by simp [Turn.weight, Turn.diagnostics, Turn.statement?, hv]
    have htwo := hd.two_le_length
    have hlength := congrArg List.length hspan.tokens_eq
    rw [tokens_skip, List.length_append, List.length_drop, Logged.tokens_mk] at hlength
    rw [hweight, tokens_skip, List.length_drop]
    omega
  · -- a statement that is dropped has two diagnostics at most
    obtain ⟨ts, d, hreject⟩ := rejected_of_statement hfailed
    have htwo : r.diagnostics.length ≤ 2 := by
      generalize r.diagnostics = ds at hreject
      cases hreject <;> simp
    have hweight : t.weight = r.diagnostics.length := by
      simp [Turn.weight, Turn.diagnostics, Turn.statement?, hv]
    have hlt := length_turn_lt hs h
    omega

theorem Run.weight_le {s rest : σ} {ts : List Turn} (h : Run .standard room s ts rest) :
    (diagnosticsOf ts).length + 4 * (statementsOf ts).length + 2 * (tokens rest).length ≤
      2 * (tokens s).length := by
  induction h with
  | stop s => simp
  | @turn s mid rest t ts hs ht _ ih =>
    have hturn := turn_weight_le hs ht
    rw [Turn.weight] at hturn
    rw [diagnosticsOf_cons, statementsOf_cons, List.length_append, List.length_append]
    omega

/-- The tokens that a window has still to show are none of them the end. -/
theorem Window.countP_tokens (w : Window) :
    (tokens w).countP (·.kind ≠ .eof) = (tokens w).length := by
  rw [List.countP_eq_length]
  intro t ht
  rcases List.mem_append.1 ht with ht | ht
  · exact (List.mem_filter.1 ht).2
  · simpa using kind_ne_eof_of_mem_scanAll _ t ht

/-! ## Every way of parsing -/

/-- Unless the end token extends itself, a parser in any state whatever comes to an end of an expression, of
a statement and of all that is left; and then it has come to the end token.  In the standard grammar, it
attempts no more statements than there are tokens left, and what it gives is bounded by them. -/
theorem parsing_ends (p : Parser Window) (hg : p.grammar.extendsEnd = false) :
    (∀ bound, (p.parseExpression bound).isSome) ∧ p.parseStatement.isSome ∧
      ∃ program q, p.parse = some (program, q) ∧ q.currentKind = .eof ∧
        (p.grammar = .standard →
          let n := (tokens p.stream).countP (·.kind ≠ .eof)
          (∀ attempts r, p.Rounds attempts r → attempts.length ≤ n) ∧
            q.diagnostics.size + 4 * program.size ≤ p.diagnostics.size + 2 * n) := by
  obtain ⟨ts, q, hq, heof, hrun, hsize⟩ := Parser.exists_turns hg
  refine ⟨fun bound => Parser.isSome_run (ends_expression hg p.room bound),
    Parser.isSome_parseStatement hg, programOf ts, q, hq, heof, ?_⟩
  intro hstandard n
  have hn : n = (tokens p.stream).length := Window.countP_tokens p.stream
  constructor
  · intro attempts r hrounds
    obtain ⟨us, rest, hus, rfl, -⟩ := Parser.rounds_iff_run.1 hrounds
    have hle := hus.length_le
    rw [List.length_map]
    omega
  · rw [hstandard] at hrun
    have hle := hrun.weight_le
    rw [hsize, programOf, Program.size_mk]
    omega

/-- Where the end token is an operator and a sign, expressions open one another without moving on, up to the
nesting limit.  And `= x; = *` gives all that its five tokens allow: six diagnostics and a statement. -/
theorem parsing_ends_of_sign_at_end :
    let g := (Grammar.standard.withOperator .eof .product).withOperand .eof .unary
    let p : Parser Window := { Parser.ofString "1 + 2" .empty with grammar := g, depth := 250 }
    let q := Parser.ofString "= x; = *" .empty
    (g.extendsEnd = false ∧ (p.parseExpression .lowest).isSome ∧
      ∃ program last, p.parse = some (program, last) ∧ last.currentKind = .eof) ∧
    (q.grammar.extendsEnd = false ∧ q.grammar = .standard ∧
      ∃ program last, q.parse = some (program, last) ∧ last.currentKind = .eof ∧
        last.diagnostics.size + 4 * program.size ≤ 0 + 2 * 5) := by
  intro g p q
  have hg : g.extendsEnd = false := by decide
  obtain ⟨hexpression, -, program, last, hparse, heof, -⟩ := parsing_ends p hg
  refine ⟨⟨hg, hexpression .lowest, program, last, hparse, heof⟩, rfl, rfl, ?_⟩
  obtain ⟨-, -, program', last', hparse', heof', hbound⟩ := parsing_ends q rfl
  have htokens : (tokens q.stream).countP (·.kind ≠ .eof) = 5 := by decide +kernel
  have hle := (hbound rfl).2
  rw [htokens] at hle
  exact ⟨program', last', hparse', heof', hle⟩

end LetLang
