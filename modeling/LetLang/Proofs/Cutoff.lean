import LetLang.Proofs.Movement

/-!
# Cut off at the nesting limit

The nesting limit does nothing but cut off.  With more room an expression comes to the same outcome, or
it goes on from where it was cut off.  For a parse that is cut off in a part is cut off as a whole: no
rule goes on after a failure, and none turns one failure into another.

    o.CutTo o'                              o is o', or o' cut off at the nesting limit
    room ≤ room' → reading with the one is reading with the other, cut off      (cutsTo_expression)
    the same of a parser at two depths of nesting                          (parseExpression_cut_off)
-/

namespace LetLang

open TokenStream

variable {σ α β : Type} [TokenStream σ]

/-! ## Outcomes -/

/-- The first outcome is the second, or it is the nesting limit, met no further on than the second has
come. -/
inductive Outcome.CutTo : Outcome Diagnostic σ α → Outcome Diagnostic σ α → Prop
  | same (o : Outcome Diagnostic σ α) : CutTo o o
  | cut {rest : σ} {o : Outcome Diagnostic σ α} (h : o.From rest) :
      CutTo (.failed (.nestingTooDeep nestingLimit) rest) o

namespace Parse

/-- On every stream the first parse comes to what the second comes to, or is cut off before. -/
def CutsTo (f f' : Parse Diagnostic σ α) : Prop := ∀ s, (f s).CutTo (f' s)

theorem CutsTo.refl (f : Parse Diagnostic σ α) : f.CutsTo f := fun s => .same (f s)

theorem CutsTo.bind {f f' : Parse Diagnostic σ α} {next next' : α → Parse Diagnostic σ β}
    (hf : f.CutsTo f') (hnext : ∀ a, (next a).CutsTo (next' a)) (hmoves : ∀ a, (next' a).Moves) :
    (f >>= next).CutsTo (f' >>= next') := by
  intro s
  rw [bind_apply, bind_apply]
  have h := hf s
  generalize f s = o at h ⊢
  generalize f' s = o' at h ⊢
  cases h with
  | same =>
    cases o with
    | done a rest => exact hnext a rest
    | failed e rest => exact .same _
    | endless => exact .same _
  | cut h => exact .cut (Parse.From.andThen h hmoves)

end Parse

open Parse

/-! ## Expressions -/

section

variable {nested nested' : Power → Parse Diagnostic σ Expr}
  (h : ∀ bound, (nested bound).CutsTo (nested' bound)) (hmoves : ∀ bound, (nested' bound).Moves)

include h hmoves

theorem cutsTo_read (rule : OperandRule) : (rule.read nested).CutsTo (rule.read nested') := by
  cases rule with
  | identifier => exact .refl _
  | integer => exact .refl _
  | boolean => exact .refl _
  | unary =>
    exact (CutsTo.refl next).bind
      (fun _ => (h .unary).bind (fun _ => .refl _) fun _ => moves_pure _)
      fun _ => (hmoves .unary).bind fun _ => moves_pure _
  | group =>
    have hclose : ∀ e : Expr, (do let _ ← expect .closeParen; pure e : Parse Diagnostic σ Expr).Moves :=
      fun _ => (moves_expect _).bind fun _ => moves_pure _
    exact (CutsTo.refl (expect .openParen)).bind
      (fun _ => (h .lowest).bind (fun _ => .refl _) hclose)
      fun _ => (hmoves .lowest).bind hclose

theorem cutsTo_operand (g : Grammar) : (operand g nested).CutsTo (operand g nested') := by
  intro s
  cases ho : g.operand (current s).kind with
  | none =>
    rw [operand_of_none _ ho, operand_of_none _ ho]
    exact .same _
  | some rule =>
    rw [operand_of_some _ ho, operand_of_some _ ho]
    exact cutsTo_read h hmoves rule s

theorem cutsTo_operation (power : Power) (l : Expr) :
    (operation nested power l).CutsTo (operation nested' power l) :=
  (CutsTo.refl next).bind (fun _ => (h power).bind (fun _ => .refl _) fun _ => moves_pure _)
    fun _ => (hmoves power).bind fun _ => moves_pure _

theorem cutsTo_operations (g : Grammar) (bound : Power) (rounds : Nat) (l : Expr) :
    (operations g nested bound rounds l).CutsTo (operations g nested' bound rounds l) := by
  induction rounds generalizing l with
  | zero => exact .refl _
  | succ rounds ih =>
    intro s
    cases ho : g.operatorAbove? bound (current s).kind with
    | none =>
      rw [operations_of_none _ _ _ ho, operations_of_none _ _ _ ho]
      exact .same _
    | some power =>
      rw [operations_of_some _ _ _ ho, operations_of_some _ _ _ ho]
      exact (cutsTo_operation h hmoves power l).bind ih (moves_operations g hmoves bound rounds) s

end

/-- With less room an expression comes to the same outcome, or is cut off before. -/
theorem cutsTo_expression (g : Grammar) {room room' : Nat} (hroom : room ≤ room') (bound : Power) :
    (expression g room bound : Parse Diagnostic σ Expr).CutsTo (expression g room' bound) := by
  induction room generalizing room' bound with
  | zero => exact fun s => .cut (moves_expression g room' bound s)
  | succ room ih =>
    obtain ⟨room', rfl⟩ : ∃ k, room' = k + 1 := ⟨room' - 1, by omega⟩
    have hle : room ≤ room' := by omega
    have hnested := ih hle
    have hmoves : ∀ p, (expression g room' p : Parse Diagnostic σ Expr).Moves := moves_expression g room'
    -- both operands leave the same stream, so the operators get equally many rounds
    exact (cutsTo_operand hnested hmoves g).bind
      (fun l s => cutsTo_operations hnested hmoves g bound (left s + 1) l s)
      fun l => moves_countLeft.bind fun _ => moves_operations g hmoves bound _ l

/-! ## Parsers -/

namespace Parser

/-- The parser at another depth of nesting. -/
def atDepth {σ : Type} (p : Parser σ) (depth : Nat) : Parser σ := { p with depth }

theorem atDepth_advanceBy (p : Parser σ) (n depth : Nat) :
    (p.advanceBy n).atDepth depth = (p.atDepth depth).advanceBy n := by
  induction n generalizing p with
  | zero => rfl
  | succ n ih => exact ih p.advance.2

omit [TokenStream σ] in
/-- The depth of nesting is nothing to a parse that is run. -/
theorem run_atDepth (p : Parser σ) (f : Parse Diagnostic (Logged σ) α) (depth : Nat) :
    (p.atDepth depth).run f = (p.run f).map fun (r, q) => (r, q.atDepth depth) := by
  have hstream : (p.atDepth depth).stream = p.stream := rfl
  unfold run
  rw [hstream]
  cases f ⟨p.stream, []⟩ <;> rfl

theorem run_of_from {p : Parser σ} {f : Parse Diagnostic (Logged σ) α} {m : Nat} (hends : f.Ends)
    (hfrom : (f ⟨p.stream, []⟩).From (skip m ⟨p.stream, []⟩)) :
    ∃ r n, p.run f = some (r, p.advanceBy (m + n)) := by
  obtain ⟨⟨r, q⟩, hrun⟩ := Option.isSome_iff_exists.1 (isSome_run (p := p) hends)
  obtain ⟨n, rfl⟩ := eq_advanceBy_of_run hfrom hrun
  exact ⟨r, n, hrun⟩

theorem run_cut_off {p : Parser σ} {f f' : Parse Diagnostic (Logged σ) α} (h : f.CutsTo f')
    (hmoves : f.Moves) (hends : f.Ends) (hends' : f'.Ends) :
    ∃ r m r' n, p.run f = some (r, p.advanceBy m) ∧ p.run f' = some (r', p.advanceBy (m + n)) ∧
      (r ≠ .error (.nestingTooDeep nestingLimit) → r' = r ∧ n = 0) := by
  have hs := h ⟨p.stream, []⟩
  have hm := hmoves ⟨p.stream, []⟩
  generalize hf : f ⟨p.stream, []⟩ = o at hs hm
  generalize hf' : f' ⟨p.stream, []⟩ = o' at hs
  cases hs with
  | same =>
    obtain ⟨r, m, hrun⟩ := run_of_from (m := 0) hends (by rw [hf]; exact hm)
    rw [Nat.zero_add] at hrun
    have hrun' : p.run f' = p.run f := by rw [run, run, hf, hf']
    exact ⟨r, m, r, 0, hrun, hrun'.trans hrun, fun _ => ⟨rfl, rfl⟩⟩
  | @cut rest _ hfrom =>
    obtain ⟨m, rfl⟩ := hm
    obtain ⟨r', n, hrun'⟩ := run_of_from hends' (by rw [hf']; exact hfrom)
    refine ⟨.error (.nestingTooDeep nestingLimit), m, r', n, ?_, hrun', fun hne => absurd rfl hne⟩
    rw [run, hf, ← resume_skip]

end Parser

/-- The nesting limit only cuts off.  Where the end token is no operator, a parser nested less deep comes to
the same result and leaves the same tokens, unless the deeper one has met the limit; and where that has
stopped, it has come as well, past the same tokens and perhaps more. -/
theorem parseExpression_cut_off (p : Parser σ) (hg : p.grammar.operator .eof = none) (bound : Power)
    {depth : Nat} (hdepth : depth ≤ p.depth) :
    ∃ r q r' q', p.parseExpression bound = some (r, q) ∧
      (p.atDepth depth).parseExpression bound = some (r', q') ∧
      (r ≠ .error (.nestingTooDeep nestingLimit) → r' = r ∧ q' = q.atDepth depth) ∧
      (∃ ts us, tokens p.stream = ts ++ tokens q.stream ∧
        tokens p.stream = ts ++ us ++ tokens q'.stream) ∧
      ∃ n, q' = (q.atDepth depth).advanceBy n := by
  have hextends : p.grammar.extendsEnd = false := by
    simp [Grammar.extendsEnd, Grammar.power, hg, Power.not_lt_lowest]
  have hroom : p.room ≤ (p.atDepth depth).room := by
    show nestingLimit - p.depth ≤ nestingLimit - depth
    omega
  obtain ⟨r, m, r', n, hrun, hrun', hsame⟩ := Parser.run_cut_off (p := p)
    (cutsTo_expression p.grammar hroom bound) (moves_expression p.grammar p.room bound)
    (ends_expression hextends p.room bound) (ends_expression hextends _ bound)
  refine ⟨r, p.advanceBy m, r', (p.advanceBy (m + n)).atDepth depth, hrun, ?_, ?_, ?_, n, ?_⟩
  · show (p.atDepth depth).run (expression p.grammar (p.atDepth depth).room bound) = _
    rw [Parser.run_atDepth, hrun']
    rfl
  · intro hr
    obtain ⟨rfl, rfl⟩ := hsame hr
    exact ⟨rfl, rfl⟩
  · refine ⟨(tokens p.stream).take m, ((tokens p.stream).drop m).take n, ?_, ?_⟩
    · rw [Parser.stream_advanceBy, tokens_skip, List.take_append_drop]
    · show _ = _ ++ tokens (p.advanceBy (m + n)).stream
      rw [Parser.stream_advanceBy, tokens_skip, List.append_assoc, ← List.drop_drop,
        List.take_append_drop, List.take_append_drop]
  · rw [Parser.advanceBy_add, Parser.atDepth_advanceBy]

/-- With `=` for an operator, the inside of the group in `a = -(b);` is on the fourth level of the expression.
From depth 253 that is one level too many; from 252 the tree is read, and from 251 the same tree. -/
theorem parseExpression_cut_off_in_group :
    let p : Parser Window := { Parser.ofString "a = -(b);" .empty with
      grammar := Grammar.standard.withOperator .assignment .sum, depth := 253 }
    let tree := Expr.binary (.identifier "a") "=" (.unary "-" (.identifier "b"))
    p.grammar.operator .eof = none ∧ 252 ≤ p.depth ∧ 251 ≤ (p.atDepth 252).depth ∧
      ∃ q q' ts us, p.parseExpression .lowest = some (.error (.nestingTooDeep nestingLimit), q) ∧
        (p.atDepth 252).parseExpression .lowest = some (.ok tree, q') ∧
        tokens p.stream = ts ++ tokens q.stream ∧ tokens p.stream = ts ++ us ++ tokens q'.stream ∧
        (p.atDepth 251).parseExpression .lowest = some (.ok tree, q'.atDepth 251) := by
  intro p tree
  have hg : p.grammar.operator .eof = none := rfl
  have hdeep : (p.parseExpression .lowest).map Prod.fst =
      some (.error (.nestingTooDeep nestingLimit)) := rfl
  have htree : ((p.atDepth 252).parseExpression .lowest).map Prod.fst = some (.ok tree) := rfl
  obtain ⟨r, q, r', q', hr, hr', -, ⟨ts, us, hts, hus⟩, -⟩ :=
    parseExpression_cut_off p hg .lowest (show 252 ≤ p.depth by decide)
  obtain ⟨r₂, q₂, r₃, q₃, hr₂, hr₃, hsame, -, -⟩ :=
    parseExpression_cut_off (p.atDepth 252) hg .lowest (show 251 ≤ (p.atDepth 252).depth by decide)
  rw [hr] at hdeep
  rw [hr'] at htree hr₂
  cases hdeep
  cases htree
  cases hr₂
  obtain ⟨rfl, rfl⟩ := hsame (by intro h; cases h)
  exact ⟨hg, by decide, by decide, q, q', ts, us, hr, hr', hts, hus, hr₃⟩

end LetLang
