import LetLang.Proofs.Movement
import LetLang.Proofs.OperatorTrees
import LetLang.Proofs.Precedence

/-!
# Climbing by power

Whatever powers are given to whatever kinds, a row of operands with operators between them is read as the
one tree of the row that is ordered by power.  Left operands are taken in by the loop, one operator after
the other; right operands are read one level down, above the power of their operator.  As every level down
goes with a greater power, and there are but four, a row takes up no more than four levels however long it
is.

    an expression comes past the row of an ordered tree, then goes on extending   (OperatorTree.Ordered.reads)
    p.parseExpression .lowest reads the ordered tree of the row                         (parseExpression_row)
-/

namespace LetLang

open TokenStream Parse OperatorTree

/-- The kinds of the operands that are one token each. -/
def leafKinds : List Kind := [.identifier, .integer, .trueWord, .falseWord]

/-- Makes operators of kinds, one after the other. -/
def Grammar.withOperators (g : Grammar) (operators : List (Kind × Power)) : Grammar :=
  operators.foldl (fun g (kind, power) => g.withOperator kind power) g

@[simp] theorem Grammar.operand_withOperators (g : Grammar) (operators : List (Kind × Power)) :
    (g.withOperators operators).operand = g.operand := by
  induction operators generalizing g with
  | nil => rfl
  | cons entry operators ih => exact ih (g.withOperator entry.1 entry.2)

theorem Grammar.operator_of_lowest_lt {g : Grammar} {k : Kind} (h : .lowest < g.power k) :
    g.operator k = some (g.power k) := by
  unfold Grammar.power at h ⊢
  cases hk : g.operator k with
  | some p => rfl
  | none =>
    rw [hk] at h
    exact absurd h (Power.not_lt_lowest _)

variable {σ : Type} [TokenStream σ] {g : Grammar}

/-- One token is read as an operand by itself. -/
theorem expression_leaf (hg : g.operand = Grammar.standard.operand) {operand : Token}
    (hk : operand.kind ∈ leafKinds) {room : Nat} {bound : Power} {s : σ}
    (hs : current s = operand) :
    expression g (room + 1) bound s = extend g room bound (leafExpr operand) (advance s) := by
  subst hs
  simp only [leafKinds, List.mem_cons, List.not_mem_nil, or_false] at hk
  rcases hk with hk | hk | hk | hk
  · apply expression_of_operand bound .identifier (by rw [hg, hk]; rfl)
    rw [read_identifier _ hk, leafExpr, hk]
  · apply expression_of_operand bound .integer (by rw [hg, hk]; rfl)
    rw [read_integer _ hk, leafExpr, hk]
  · apply expression_of_operand bound .boolean (by rw [hg, hk]; rfl)
    rw [read_boolean, leafExpr, hk]
  · apply expression_of_operand bound .boolean (by rw [hg, hk]; rfl)
    rw [read_boolean, leafExpr, hk]

/-- With levels enough for the powers above the bound, reading comes past the row of an ordered tree to
its expression, and then goes on with the operators that follow. -/
theorem OperatorTree.Ordered.reads {τ : OperatorTree} (h : τ.Ordered g)
    (hg : g.operand = Grammar.standard.operand) (hoperands : ∀ t ∈ τ.row.operands, t.kind ∈ leafKinds)
    (hoperators : ∀ o ∈ τ.row.operators, .lowest < g.power o.kind) {room : Nat} {bound : Power}
    {s rest : σ} (hroom : Power.unary.rank ≤ room + bound.rank)
    (hbound : ∀ root ∈ τ.root?, bound < g.power root.kind) (hs : Spans s τ.row.tokens rest)
    (hrest : ∀ root ∈ τ.root?, g.power (current rest).kind ≤ g.power root.kind) :
    expression g (room + 1) bound s = extend g room bound τ.toExpr rest := by
  induction τ generalizing room bound s rest with
  | leaf operand =>
    rw [expression_leaf hg (hoperands operand List.mem_cons_self) hs.current_cons, hs.rest_eq]
    rfl
  | node left operator right ihl ihr =>
    obtain ⟨hl, hr, hle, hlt⟩ := h
    rw [row, Row.operands_join, List.forall_mem_append] at hoperands
    rw [row, Row.operators_join, List.forall_mem_append, List.forall_mem_cons] at hoperators
    rw [row, Row.tokens_join] at hs
    obtain ⟨mid, hsl, hsr⟩ := hs.exists_mid
    have hcur := hsr.current_cons
    have hb : bound.rank < (g.power operator.kind).rank := hbound operator rfl
    have hp : (g.power operator.kind).rank ≤ Power.unary.rank := by cases g.power operator.kind <;> decide
    obtain ⟨room, rfl⟩ : ∃ k, room = k + 1 := ⟨room - 1, by omega⟩
    have hrest' := hrest operator rfl
    -- the left operand is read as if it were all there is, and the operator extends it
    have hleft := ihl hl hoperands.1 hoperators.1 hroom
      (fun root hroot => Nat.lt_of_lt_of_le hb (hle root hroot)) hsl
      (fun root hroot => hcur ▸ hle root hroot)
    -- the level that the right operand takes up is paid for by the power that it is read above
    have hright : expression g (room + 1) (g.power operator.kind) (advance mid) =
        .done right.toExpr rest := by
      rw [ihr hr hoperands.2 hoperators.2.2 (by omega) hlt hsr.tail
        (fun root hroot => Nat.le_of_lt (Nat.lt_of_le_of_lt hrest' (hlt root hroot)))]
      exact extend_of_le room _ hrest'
    have hoperator : g.operator (current mid).kind = some (g.power operator.kind) := by
      rw [hcur]
      exact Grammar.operator_of_lowest_lt hoperators.2.1
    have hmid : tokens mid ≠ [] := by
      rw [hsr.tokens_eq]
      exact List.cons_ne_nil _ _
    rw [hleft, extend_of_lt _ _ hoperator hb hmid, hright, hcur]
    rfl

/-! ## Parsers -/

/-- **Climbing by power.**  However kinds have been made operators, and of whatever power, a row of
operands is read to the end where nothing stands behind it that is an operator, and the expression is that
of the one tree of the row that is ordered by power.  A level of nesting for each power is enough for rows
of any length. -/
theorem parseExpression_row {p : Parser σ} {operators : List (Kind × Power)} {row : Row}
    {rest : List Token} (hg : p.grammar = Grammar.standard.withOperators operators)
    (hdepth : p.depth + 4 ≤ nestingLimit) (htokens : tokens p.stream = row.tokens ++ rest)
    (hoperands : ∀ t ∈ row.operands, t.kind ∈ leafKinds)
    (hoperators : ∀ o ∈ row.operators, .lowest < p.grammar.power o.kind)
    (hrest : p.grammar.power (rest.headD Token.eof).kind = .lowest) :
    ∃ τ : OperatorTree, (τ.row = row ∧ τ.Ordered p.grammar) ∧
      (∀ υ : OperatorTree, υ.row = row ∧ υ.Ordered p.grammar → υ = τ) ∧
      ∃ q, p.parseExpression .lowest = some (.ok τ.toExpr, q) ∧ p.MovedPast row.tokens q := by
  let last := skip row.tokens.length (Logged.mk p.stream [])
  have hs : Spans (Logged.mk p.stream []) row.tokens last := .of_append htokens
  have hlast : p.grammar.power (current last).kind = .lowest := by
    have htail : tokens last = rest := List.append_cancel_left (hs.tokens_eq.symm.trans htokens)
    rw [current_eq, htail, hrest]
  have hordered : (row.tree p.grammar).Ordered p.grammar := row.ordered_tree
  refine ⟨row.tree p.grammar, ⟨row.row_tree, hordered⟩, ?_, p.resume last, ?_,
    Parser.movedPast_resume hs⟩
  · rintro υ ⟨hrow, hυ⟩
    exact hυ.eq_tree hrow
  · obtain ⟨room, hroom, hfour⟩ : ∃ room, p.room = room + 1 ∧ 3 ≤ room :=
      ⟨p.room - 1, by unfold Parser.room; omega, by unfold Parser.room; omega⟩
    have hread : expression p.grammar (room + 1) .lowest (Logged.mk p.stream []) =
        extend p.grammar room .lowest (row.tree p.grammar).toExpr last := by
      rw [← row.row_tree (g := p.grammar)] at hoperands hoperators hs
      refine hordered.reads (by rw [hg, Grammar.operand_withOperators]) hoperands hoperators hfour
        (fun root hroot => ?_) hs (fun root _ => ?_)
      · exact hoperators root (root_mem_operators hroot)
      · rw [hlast]
        exact Nat.zero_le _
    unfold Parser.parseExpression
    rw [Parser.run_eq_ok_iff, hroom, hread]
    exact ⟨last, extend_of_le room _ (by rw [hlast]; exact Nat.le_refl _), rfl⟩

/-- With `+` made tighter than `*`, and names the tightest operators of all, on the last of the levels. -/
theorem parseExpression_row_of_names :
    let operators : List (Kind × Power) :=
      [(.plus, .unary), (.star, .sum), (.plus, .product), (.identifier, .unary)]
    let row : Row := ⟨⟨.integer, "1"⟩, [(⟨.identifier, "x"⟩, ⟨.integer, "2"⟩),
      (⟨.star, "*"⟩, ⟨.identifier, "a"⟩), (⟨.plus, "+"⟩, ⟨.trueWord, "true"⟩)]⟩
    let p : Parser Window :=
      { Parser.ofString "1 x 2 * a + true ) 3" .empty with
        grammar := Grammar.standard.withOperators operators, depth := 252 }
    ∃ q, p.parseExpression .lowest = some (.ok (.binary (.binary (.integer "1") "x" (.integer "2")) "*"
        (.binary (.identifier "a") "+" (.boolean true))), q) ∧ p.MovedPast row.tokens q := by
  intro operators row p
  have hg : p.grammar = Grammar.standard.withOperators operators := rfl
  have htokens : tokens p.stream = row.tokens ++ [⟨.closeParen, ")"⟩, ⟨.integer, "3"⟩] := by
    decide +kernel
  obtain ⟨τ, -, hunique, q, hq, hmoved⟩ := parseExpression_row hg (by decide) htokens (by decide)
    (by decide +kernel) (by decide +kernel)
  obtain rfl := hunique (.node (.node (.leaf ⟨.integer, "1"⟩) ⟨.identifier, "x"⟩ (.leaf ⟨.integer, "2"⟩))
    ⟨.star, "*"⟩ (.node (.leaf ⟨.identifier, "a"⟩) ⟨.plus, "+"⟩ (.leaf ⟨.trueWord, "true"⟩)))
    (by decide +kernel)
  exact ⟨q, hq, hmoved⟩

end LetLang
