import LetLang.Proofs.Movement
import LetLang.Proofs.Stratified

/-!
# Reading by power is reading by the stratified grammar

An expression above a bound is read just where a phrase of the category of the bound stands that is
nested no deeper than the room allows, and no operator above the bound follows it.

A phrase that starts with a left operand is not read as the grammar tells it: the left operand is read
first, as if it were all, and the operator extends it.  `Reads` therefore says of a phrase that reading
comes past it and goes on extending, and it is kept from rule to rule (`Derives.reads`).  The other
way, whatever has been read so far is a phrase that may stand to the left of the operator that comes
next (`complete_of_operations`).

    expression .standard room bound s = .done e rest ↔ Complete room bound s e rest
                                                                           (expression_eq_done_iff)
-/

namespace LetLang

open TokenStream Parse

variable {σ : Type} [TokenStream σ]

/-! ## The standard operators and operands -/

theorem operator_sum {k : Kind} (h : k = .plus ∨ k = .dash) :
    Grammar.standard.operator k = some .sum := by
  rcases h with rfl | rfl <;> rfl

theorem operator_product {k : Kind} (h : k = .star ∨ k = .slash) :
    Grammar.standard.operator k = some .product := by
  rcases h with rfl | rfl <;> rfl

theorem power_of_operator {g : Grammar} {k : Kind} {p : Power} (h : g.operator k = some p) :
    g.power k = p := by
  rw [Grammar.power, h]
  rfl

theorem le_of_operatorAbove?_eq_none {g : Grammar} {bound : Power} {k : Kind}
    (h : g.operatorAbove? bound k = none) : g.power k ≤ bound := by
  apply Nat.not_lt.1
  intro hlt
  have hsome := Grammar.operatorAbove?_isSome_iff.2 hlt
  rw [h] at hsome
  cases hsome

theorem kind_of_operand {k : Kind} {rule : OperandRule}
    (h : Grammar.standard.operand k = some rule) :
    match rule with
    | .identifier => k = .identifier
    | .integer => k = .integer
    | .boolean => k = .trueWord ∨ k = .falseWord
    | .unary => k = .dash
    | .group => k = .openParen := by
  cases k <;> cases h <;> simp

theorem kind_of_operator {k : Kind} {p : Power} (h : Grammar.standard.operator k = some p) :
    p = .sum ∧ (k = .plus ∨ k = .dash) ∨ p = .product ∧ (k = .star ∨ k = .slash) := by
  cases k <;> cases h <;> simp

theorem kind_ne_eof_of_operator {k : Kind} {p : Power} (h : Grammar.standard.operator k = some p) :
    k ≠ .eof := by
  rintro rfl
  cases h

theorem spans_single {s : σ} {k : Kind} (h : (current s).kind = k) (hk : k ≠ .eof) :
    Spans s [current s] (advance s) :=
  .single (by rw [h]; exact hk)

/-! ## Every phrase is read -/

/-- With levels enough, reading above a bound that the category allows comes past `ts` to the tree
`e`, and then goes on with the operators that follow. -/
def Reads (σ : Type) [TokenStream σ] (c : Category) (n : Nat) (ts : List Token) (e : Expr) : Prop :=
  ∀ (room : Nat) (bound : Power) (s rest : σ), n ≤ room + 1 → bound ≤ c.bound → Spans s ts rest →
    Grammar.standard.power (current rest).kind ≤ c.last →
    expression .standard (room + 1) bound s = extend .standard room bound e rest

/-- An operator with the right operand that follows it. -/
theorem extend_operator {room : Nat} {bound power : Power} {l : Expr} {s : σ}
    (ho : Grammar.standard.operator (current s).kind = some power) (hb : bound < power) :
    extend .standard room bound l s =
      (expression .standard room power (advance s)).andThen fun r rest =>
        extend .standard room bound (.binary l (current s).text r) rest :=
  extend_of_lt room l ho hb (tokens_ne_nil (kind_ne_eof_of_operator ho))

theorem Reads.widen {c d : Category} {n : Nat} {ts : List Token} {e : Expr} (h : Reads σ c n ts e)
    (hb : d.bound ≤ c.bound) (hlast : d.last ≤ c.last) : Reads σ d n ts e := by
  intro room bound s rest hn hbound hs hstop
  exact h room bound s rest hn (Nat.le_trans hbound hb) hs (Nat.le_trans hstop hlast)

theorem Reads.binary {c d : Category} {m n : Nat} {ls rs : List Token} {l r : Expr} {op : Token}
    (ho : Grammar.standard.operator op.kind = some c.last) (hc : c.bound < c.last)
    (hd : c.last ≤ d.bound) (hd' : c.last ≤ d.last) (hn : 0 < n) (hl : Reads σ c m ls l)
    (hr : Reads σ d n rs r) : Reads σ c (max m (n + 1)) (ls ++ op :: rs) (.binary l op.text r) := by
  intro room bound s rest hroom hbound hs hstop
  obtain ⟨mid, hsl, hsr⟩ := hs.exists_mid
  obtain ⟨room, rfl⟩ : ∃ k, room = k + 1 := ⟨room - 1, by omega⟩
  have hcur := hsr.current_cons
  have hmid : Grammar.standard.power (current mid).kind ≤ c.last := by
    rw [hcur, power_of_operator ho]
    exact Nat.le_refl _
  have hright : expression .standard (room + 1) c.last (advance mid) = .done r rest := by
    rw [hr room c.last (advance mid) rest (by omega) hd hsr.tail (Nat.le_trans hstop hd')]
    exact extend_of_le room r hstop
  rw [hl (room + 1) bound s mid (by omega) hbound hsl hmid,
    extend_operator (hcur ▸ ho) (Nat.lt_of_le_of_lt hbound hc), hright, hcur]
  rfl

/-- A token that is an operand by itself. -/
theorem Reads.single {c : Category} {t : Token} {e : Expr} (rule : OperandRule)
    (ho : Grammar.standard.operand t.kind = some rule)
    (hr : ∀ (nested : Power → Parse Diagnostic σ Expr) (s : σ), current s = t →
      rule.read nested s = .done e (advance s)) : Reads σ c 1 [t] e := by
  intro room bound s rest hn hbound hs hstop
  have hcur := hs.current_cons
  apply expression_of_operand bound rule (hcur ▸ ho)
  rw [hr _ s hcur, hs.rest_eq]
  rfl

theorem Reads.negation {n : Nat} {op : Token} {ts : List Token} {e : Expr} (hop : op.kind = .dash)
    (hn : 0 < n) (h : Reads σ .signed n ts e) :
    Reads σ .signed (n + 1) (op :: ts) (.unary op.text e) := by
  intro room bound s rest hroom hbound hs hstop
  obtain ⟨room, rfl⟩ : ∃ k, room = k + 1 := ⟨room - 1, by omega⟩
  have hin : expression .standard (room + 1) .unary (advance s) = .done e rest := by
    rw [h room .unary (advance s) rest (by omega) (by decide) hs.tail hstop]
    exact extend_of_le room e hstop
  apply expression_of_operand bound .unary (by rw [hs.current_cons, hop]; rfl)
  rw [read_unary, hin, hs.current_cons]
  rfl

theorem Reads.group {n : Nat} {o c : Token} {ts : List Token} {e : Expr}
    (ho : o.kind = .openParen) (hc : c.kind = .closeParen) (hn : 0 < n)
    (h : Reads σ .sum n ts e) : Reads σ .atom (n + 1) (o :: (ts ++ [c])) e := by
  intro room bound s rest hroom hbound hs hstop
  obtain ⟨room, rfl⟩ : ∃ k, room = k + 1 := ⟨room - 1, by omega⟩
  obtain ⟨mid, hin, hclose⟩ := hs.tail.exists_mid
  have hk : (current s).kind = .openParen := by rw [hs.current_cons, ho]
  have hkc : (current mid).kind = .closeParen := by rw [hclose.current_cons, hc]
  have hle : ∀ b, Grammar.standard.power (current mid).kind ≤ b := by
    intro b
    rw [hkc]
    exact Nat.zero_le _
  have hinside : expression .standard (room + 1) .lowest (advance s) = .done e mid := by
    rw [h room .lowest (advance s) mid (by omega) (by decide) hin (hle _)]
    exact extend_of_le room e (hle _)
  apply expression_of_operand bound .group (by rw [hk]; rfl)
  rw [read_group _ hk, hinside]
  show (expect .closeParen mid).andThen _ = _
  rw [expect_of_kind_eq hkc, hclose.rest_eq]
  rfl

theorem Derives.reads {c : Category} {n : Nat} {ts : List Token} {e : Expr}
    (h : Derives c n ts e) : Reads σ c n ts e := by
  induction h with
  | sumOfProduct _ ih => exact ih.widen (by decide) (by decide)
  | addition hop _ hr ihl ihr =>
    exact ihl.binary (operator_sum hop) (by decide) (by decide) (by decide) hr.pos ihr
  | productOfSigned _ ih => exact ih.widen (by decide) (by decide)
  | multiplication hop _ hr ihl ihr =>
    exact ihl.binary (operator_product hop) (by decide) (by decide) (by decide) hr.pos ihr
  | signedOfAtom _ ih => exact ih.widen (by decide) (by decide)
  | negation hop h ih => exact ih.negation hop h.pos
  | identifier ht =>
    apply Reads.single .identifier (by rw [ht]; rfl)
    rintro nested s rfl
    exact read_identifier nested ht
  | integer ht =>
    apply Reads.single .integer (by rw [ht]; rfl)
    rintro nested s rfl
    exact read_integer nested ht
  | trueWord ht =>
    apply Reads.single .boolean (by rw [ht]; rfl)
    rintro nested s rfl
    rw [read_boolean, ht]
    rfl
  | falseWord ht =>
    apply Reads.single .boolean (by rw [ht]; rfl)
    rintro nested s rfl
    rw [read_boolean, ht]
    rfl
  | group ho hc h ih => exact ih.group ho hc h.pos

theorem Derives.expression_eq_done {n : Nat} {ts : List Token} {e : Expr} {room : Nat}
    {bound : Power} {s rest : σ} (h : Derives (.above bound) n ts e) (hn : n ≤ room)
    (hs : Spans s ts rest) (hstop : Grammar.standard.power (current rest).kind ≤ bound) :
    expression .standard room bound s = .done e rest := by
  have hpos := h.pos
  obtain ⟨room, rfl⟩ : ∃ k, room = k + 1 := ⟨room - 1, by omega⟩
  rw [h.reads room bound s rest hn (Category.le_bound_above bound) hs
    (Nat.le_trans hstop (Category.le_last_above bound))]
  exact extend_of_le room e hstop

/-! ## Nothing else is read -/

/-- A phrase above the bound stands between `s` and `rest`, nested no deeper than `room`, and no
operator above the bound follows it. -/
def Complete (room : Nat) (bound : Power) (s : σ) (e : Expr) (rest : σ) : Prop :=
  ∃ ts n, Spans s ts rest ∧ n ≤ room ∧ Derives (.above bound) n ts e ∧
    Grammar.standard.power (current rest).kind ≤ bound

section

variable {room : Nat} (ih : ∀ (bound : Power) (s : σ) (e : Expr) (rest : σ),
  expression .standard room bound s = .done e rest → Complete room bound s e rest)

include ih

theorem derives_of_operand {s rest : σ} {e : Expr}
    (h : operand .standard (expression .standard room) s = .done e rest) :
    ∃ ts n, Spans s ts rest ∧ n ≤ room + 1 ∧ Derives .signed n ts e := by
  cases ho : Grammar.standard.operand (current s).kind with
  | none =>
    rw [operand_of_none _ ho] at h
    cases h
  | some rule =>
    rw [operand_of_some _ ho] at h
    have hk := kind_of_operand ho
    cases rule with
    | identifier =>
      rw [read_identifier _ hk] at h
      cases h
      exact ⟨_, 1, spans_single hk (by decide), by omega, .signedOfAtom (.identifier hk)⟩
    | integer =>
      rw [read_integer _ hk] at h
      cases h
      exact ⟨_, 1, spans_single hk (by decide), by omega, .signedOfAtom (.integer hk)⟩
    | boolean =>
      rw [read_boolean] at h
      cases h
      rcases hk with hk | hk
      · rw [hk]
        exact ⟨_, 1, spans_single hk (by decide), by omega, .signedOfAtom (.trueWord hk)⟩
      · rw [hk]
        exact ⟨_, 1, spans_single hk (by decide), by omega, .signedOfAtom (.falseWord hk)⟩
    | unary =>
      rw [read_unary] at h
      obtain ⟨x, last, hx, h⟩ := andThen_eq_done_iff.1 h
      cases h
      obtain ⟨ts, n, hs, hn, hd, -⟩ := ih _ _ _ _ hx
      exact ⟨_, n + 1, (spans_single hk (by decide)).trans hs, by omega, .negation hk hd⟩
    | group =>
      rw [read_group _ hk] at h
      obtain ⟨x, mid, hx, h⟩ := andThen_eq_done_iff.1 h
      obtain ⟨_, last, hclose, h⟩ := andThen_eq_done_iff.1 h
      obtain ⟨hc, rfl, rfl⟩ := expect_eq_done_iff.1 hclose
      cases h
      obtain ⟨ts, n, hs, hn, hd, -⟩ := ih _ _ _ _ hx
      have hspan := (spans_single hk (by decide)).trans (hs.trans (spans_single hc (by decide)))
      exact ⟨_, n + 1, hspan, by omega, .signedOfAtom (.group hk hc hd)⟩

/-- The phrase read so far can be the left operand of whatever operator comes next. -/
theorem complete_of_operations {rounds m : Nat} {bound : Power} {c : Category} {ls : List Token}
    {l e : Expr} {s mid rest : σ} (hs : Spans s ls mid) (hm : m ≤ room + 1) (hl : Derives c m ls l)
    (hb : bound ≤ c.bound) (hlast : Grammar.standard.power (current mid).kind ≤ c.last)
    (h : operations .standard (expression .standard room) bound rounds l mid = .done e rest) :
    Complete (room + 1) bound s e rest := by
  induction rounds generalizing m c ls l mid with
  | zero =>
    cases ho : Grammar.standard.operatorAbove? bound (current mid).kind with
    | none =>
      rw [operations_of_none _ _ _ ho] at h
      cases h
      exact ⟨ls, m, hs, hm, hl.widen (Category.rank_above_le hb), le_of_operatorAbove?_eq_none ho⟩
    | some p => simp [operations, ho] at h
  | succ rounds hr =>
    cases ho : Grammar.standard.operatorAbove? bound (current mid).kind with
    | none =>
      rw [operations_of_none _ _ _ ho] at h
      cases h
      exact ⟨ls, m, hs, hm, hl.widen (Category.rank_above_le hb), le_of_operatorAbove?_eq_none ho⟩
    | some p =>
      rw [operations_of_some _ _ _ ho, operation_apply] at h
      obtain ⟨_, last, hoperation, hrest⟩ := andThen_eq_done_iff.1 h
      obtain ⟨r, _, hx, hbinary⟩ := andThen_eq_done_iff.1 hoperation
      cases hbinary
      obtain ⟨hop, hbp⟩ := Grammar.operatorAbove?_eq_some_iff.1 ho
      obtain ⟨rs, n, hsr, hn, hd, hle⟩ := ih _ _ _ _ hx
      rw [power_of_operator hop] at hlast
      have hspan := hs.trans ((Spans.single (kind_ne_eof_of_operator hop)).trans hsr)
      -- no operator tighter than `c.last` is left, so `l` can stand left of this one
      rcases kind_of_operator hop with ⟨rfl, hkind⟩ | ⟨rfl, hkind⟩
      · have hleft : Derives .sum m ls l := hl.widen (Nat.zero_le _)
        exact hr hspan (by omega) (.addition hkind hleft hd) (Nat.le_of_lt_succ hbp) hle hrest
      · have hleft : Derives .product m ls l := hl.widen (by revert hlast; cases c <;> decide)
        exact hr hspan (by omega) (.multiplication hkind hleft hd) (Nat.le_of_lt_succ hbp) hle
          hrest

end

theorem complete_of_expression (room : Nat) :
    ∀ (bound : Power) (s : σ) (e : Expr) (rest : σ),
      expression .standard room bound s = .done e rest → Complete room bound s e rest := by
  induction room with
  | zero =>
    intro bound s e rest h
    cases h
  | succ room ih =>
    intro bound s e rest h
    rw [expression_eq_extend] at h
    obtain ⟨l, mid, hx, h⟩ := andThen_eq_done_iff.1 h
    obtain ⟨ls, m, hs, hm, hl⟩ := derives_of_operand ih hx
    have hbound : bound ≤ Category.signed.bound := by cases bound <;> decide
    have hpower : Grammar.standard.power (current mid).kind ≤ Category.signed.last := by
      generalize (current mid).kind = k
      cases k <;> decide
    exact complete_of_operations ih hs hm hl hbound hpower h

/-- Reading above a bound comes to just the phrases of the category. -/
theorem expression_eq_done_iff {room : Nat} {bound : Power} {s rest : σ} {e : Expr} :
    expression .standard room bound s = .done e rest ↔ Complete room bound s e rest := by
  constructor
  · exact complete_of_expression room bound s e rest
  · rintro ⟨ts, n, hs, hn, hd, hstop⟩
    exact hd.expression_eq_done hn hs hstop

/-! ## Parsers -/

/-- **Precedence.**  An expression is read off a parser just where a phrase of the category of the
bound comes next, nested in the levels that are left, and no operator above the bound follows it;
then the parser has moved past that phrase and nothing more. -/
theorem parseExpression_eq_ok_iff {p : Parser σ} (hg : p.grammar = .standard) (bound : Power)
    (e : Expr) :
    (∀ ts, (∃ q, p.parseExpression bound = some (.ok e, q) ∧ p.MovedPast ts q) ↔
      ∃ rest n, tokens p.stream = ts ++ rest ∧ Derives (.above bound) n ts e ∧
        p.depth + n ≤ nestingLimit ∧ p.grammar.power (rest.headD Token.eof).kind ≤ bound) ∧
    ∀ q, p.parseExpression bound = some (.ok e, q) → ∃ ts, p.MovedPast ts q := by
  have hiff : ∀ q, p.parseExpression bound = some (.ok e, q) ↔
      ∃ rest, Complete p.room bound ⟨p.stream, []⟩ e rest ∧ q = p.resume rest := by
    intro q
    unfold Parser.parseExpression
    rw [hg, Parser.run_eq_ok_iff]
    simp only [expression_eq_done_iff]
  refine ⟨fun ts => ⟨?_, ?_⟩, ?_⟩
  · rintro ⟨q, hq, hts⟩
    obtain ⟨rest, ⟨us, n, hs, hn, hd, hstop⟩, rfl⟩ := (hiff q).1 hq
    obtain rfl : us = ts :=
      List.append_cancel_right (hs.tokens_eq.symm.trans hts.1)
    have hpos := hd.pos
    refine ⟨tokens rest, n, hs.tokens_eq, hd, ?_, ?_⟩
    · unfold Parser.room at hn
      omega
    · rw [hg, ← current_eq]
      exact hstop
  · rintro ⟨rest, n, hts, hd, hn, hstop⟩
    have hs : Spans (Logged.mk p.stream []) ts (skip ts.length ⟨p.stream, []⟩) := .of_append hts
    have hrest : tokens (skip ts.length (Logged.mk p.stream [])) = rest :=
      List.append_cancel_left (hs.tokens_eq.symm.trans hts)
    refine ⟨_, (hiff _).2 ⟨_, ⟨ts, n, hs, ?_, hd, ?_⟩, rfl⟩, Parser.movedPast_resume hs⟩
    · unfold Parser.room
      omega
    · rw [current_eq, hrest, ← hg]
      exact hstop
  · intro q hq
    obtain ⟨rest, ⟨ts, n, hs, -, -, -⟩, rfl⟩ := (hiff q).1 hq
    exact ⟨ts, Parser.movedPast_resume hs⟩

/-- `-1 + 2 * (x)` takes up four levels, and nothing is read of the parenthesis that follows. -/
theorem parseExpression_sum_of_product :
    let p : Parser Window := { Parser.ofString "-1 + 2 * (x) ) ;" .empty with depth := 252 }
    p.grammar = .standard ∧
      ∃ q, p.parseExpression .lowest = some (.ok (.binary (.unary "-" (.integer "1")) "+"
        (.binary (.integer "2") "*" (.identifier "x"))), q) ∧
        p.MovedPast [⟨.dash, "-"⟩, ⟨.integer, "1"⟩, ⟨.plus, "+"⟩, ⟨.integer, "2"⟩, ⟨.star, "*"⟩,
          ⟨.openParen, "("⟩, ⟨.identifier, "x"⟩, ⟨.closeParen, ")"⟩] q := by
  refine ⟨rfl, ((parseExpression_eq_ok_iff rfl _ _).1 _).2
    ⟨[⟨.closeParen, ")"⟩, ⟨.semicolon, ";"⟩], 4, by decide +kernel, ?_, by decide, by decide⟩⟩
  have hone : Derives .sum 2 [⟨.dash, "-"⟩, ⟨.integer, "1"⟩] (.unary "-" (.integer "1")) :=
    .sumOfProduct (.productOfSigned (.negation rfl (.signedOfAtom (.integer rfl))))
  have hx : Derives .sum 1 [⟨.identifier, "x"⟩] (.identifier "x") :=
    .sumOfProduct (.productOfSigned (.signedOfAtom (.identifier rfl)))
  have htwo : Derives .product 1 [⟨.integer, "2"⟩] (.integer "2") :=
    .productOfSigned (.signedOfAtom (.integer rfl))
  have hproduct : Derives .product 3 [⟨.integer, "2"⟩, ⟨.star, "*"⟩, ⟨.openParen, "("⟩,
      ⟨.identifier, "x"⟩, ⟨.closeParen, ")"⟩] (.binary (.integer "2") "*" (.identifier "x")) :=
    .multiplication (.inl rfl) htwo (.signedOfAtom (.group rfl rfl hx))
  exact .addition (.inl rfl) hone hproduct

end LetLang
