import LetLang.Proofs.Chains
import LetLang.Proofs.Segments

/-!
# Reading what was rendered

The rendering of a well-formed program is read back as that program if no expression of it needs more
levels than the nesting limit, and only then.  For the tokens of a rendering are those of its statements,
each of them a segment, and what a segment comes to is a matter of how deep its statement is nested.

    parse p.render = (p, .empty) ↔ ∀ stmt ∈ p.statements, stmt.value.need ≤ nestingLimit
                                                                                     (parse_render)

However deep its statements are nested, the tokens of a rendering tell what they are: cut into segments they
are the tokens of one statement after the other, and a statement has one tree.  So no two well-formed
programs share a rendering.

    p.render = q.render → p = q                                                  (render_injective)
-/

namespace LetLang

theorem segments_statement {n : Nat} {ts : List Token} {stmt : Stmt}
    (h : DerivesStatement n ts stmt) (rest : List Token) :
    segments (ts ++ rest) = ts :: segments rest := by
  obtain ⟨us, semi, rfl, hsemi, hus⟩ := h.exists_semicolon
  rw [List.append_assoc, List.singleton_append, segments_append hus hsemi]

theorem fitting_iff {n : Nat} {ts : List Token} {stmt : Stmt} (h : DerivesStatement n ts stmt) :
    (∃ other, Fitting ts other) ↔ n ≤ nestingLimit := by
  constructor
  · rintro ⟨other, m, hm, h'⟩
    obtain ⟨rfl, -⟩ := h.unique h'
    exact hm
  · intro hn
    exact ⟨stmt, n, hn, h⟩

section Statements

variable {ts : Stmt → List Token} (depth : Stmt → Nat) {stmts : List Stmt}

theorem segments_flatMap (h : ∀ stmt ∈ stmts, DerivesStatement (depth stmt) (ts stmt) stmt) :
    segments (stmts.flatMap ts) = stmts.map ts := by
  induction stmts with
  | nil => rfl
  | cons stmt stmts ih =>
    rw [List.forall_mem_cons] at h
    rw [List.flatMap_cons, segments_statement h.1, ih h.2]
    rfl

/-- The tokens of statements, put in a row, tell the statements. -/
theorem eq_of_flatMap_eq {stmts' : List Stmt}
    (h : ∀ stmt ∈ stmts, DerivesStatement (depth stmt) (ts stmt) stmt)
    (h' : ∀ stmt ∈ stmts', DerivesStatement (depth stmt) (ts stmt) stmt)
    (heq : stmts.flatMap ts = stmts'.flatMap ts) : stmts = stmts' := by
  have hmap : stmts.map ts = stmts'.map ts := by
    rw [← segments_flatMap depth h, heq, segments_flatMap depth h']
  clear heq
  induction stmts generalizing stmts' with
  | nil => exact (List.map_eq_nil_iff.1 hmap.symm).symm
  | cons stmt stmts ih =>
    cases stmts' with
    | nil => cases hmap
    | cons stmt' stmts' =>
      obtain ⟨htokens, hrest⟩ := List.cons.inj hmap
      obtain ⟨hstmt, hstmts⟩ := List.forall_mem_cons.1 h
      obtain ⟨hstmt', hstmts'⟩ := List.forall_mem_cons.1 h'
      rw [← htokens] at hstmt'
      rw [(hstmt.unique hstmt').2, ih hstmts hstmts' hrest]

theorem settled_statements {parts : List (List Turn)}
    (h : ∀ stmt ∈ stmts, DerivesStatement (depth stmt) (ts stmt) stmt)
    (hparts : List.Forall₂ (fun stmt => Settled (ts stmt)) stmts parts) :
    (parts.flatMap diagnosticsOf = [] ↔ ∀ stmt ∈ stmts, depth stmt ≤ nestingLimit) ∧
      ((∀ stmt ∈ stmts, depth stmt ≤ nestingLimit) → parts.flatMap statementsOf = stmts) := by
  induction hparts with
  | nil => simp
  | @cons stmt part stmts parts hset _ ih =>
    rw [List.forall_mem_cons] at h
    obtain ⟨hclean, hkept⟩ := ih h.2
    simp only [List.flatMap_cons, List.forall_mem_cons, List.append_eq_nil_iff, hset.clean_iff,
      fitting_iff h.1, hclean, true_and]
    rintro ⟨hstmt, hstmts⟩
    rw [hkept hstmts, hset.kept stmt ⟨_, hstmt, h.1⟩]
    rfl

/-- A source that holds the tokens of statements is read as these if they keep to the nesting limit. -/
theorem parse_eq_iff {source : String} (hsource : scanAll source.toList = stmts.flatMap ts)
    (h : ∀ stmt ∈ stmts, DerivesStatement (depth stmt) (ts stmt) stmt) :
    parse source = (⟨stmts⟩, .empty) ↔ ∀ stmt ∈ stmts, depth stmt ≤ nestingLimit := by
  obtain ⟨parts, hturns, hparts⟩ := exists_parts source
  rw [hsource, segments_flatMap depth h, List.forall₂_map_left_iff] at hparts
  obtain ⟨hclean, hkept⟩ := settled_statements depth h hparts
  constructor
  · intro hp
    rw [← hclean, ← diagnosticsOf_flatten, ← hturns, ← toList_parse_snd, hp]
    rfl
  · intro hfit
    have hprogram : (parse source).1 = ⟨stmts⟩ := by
      show Program.mk (statementsOf (turnsOf source)) = _
      rw [hturns, statementsOf_flatten, hkept hfit]
    have hdiagnostics : (parse source).2 = .empty := by
      rw [← Diagnostics.toList_inj, toList_parse_snd, hturns, diagnosticsOf_flatten, hclean.2 hfit]
      rfl
    exact Prod.ext hprogram hdiagnostics

end Statements

theorem parse_flat {c : Category} {n : Nat} {e : Expr} (h : Chain c n e) :
    parse (e.flat ++ ";") = (⟨[.expression e]⟩, .empty) := by
  obtain ⟨m, hm, hd⟩ := h.derives
  have hlist : (e.flat ++ ";").toList = e.flat.toList ++ [';'] := by simp
  have hsource : scanAll (e.flat ++ ";").toList =
      [Stmt.expression e].flatMap fun _ => e.flatTokens ++ [symbolToken ';'] := by
    rw [hlist, scanAll_append_cons _ (by decide), scanAll_symbol (by decide) (by decide), scanAll_nil,
      h.scanAll_flat]
    simp
  have hstatement : ∀ stmt ∈ [Stmt.expression e],
      DerivesStatement m (e.flatTokens ++ [symbolToken ';']) stmt := by
    intro stmt hstmt
    rw [List.mem_singleton.1 hstmt]
    exact .expression (hd.widen (Nat.zero_le _)) rfl
  refine (parse_eq_iff (fun _ => m) hsource hstatement).2 fun _ _ => ?_
  have hlimit : 2 ≤ nestingLimit := by decide
  omega

/-- A well-formed program is read back from its rendering just if no expression of it needs more levels
than the nesting limit.  So the rendering of a long chain is not, though the chain itself, written
without parentheses, is read whatever its length. -/
theorem parse_render :
    (∀ p : Program, p.WellFormed →
      (parse p.render = (p, .empty) ↔ ∀ stmt ∈ p.statements, stmt.value.need ≤ nestingLimit)) ∧
    ∀ (c : Category) (n : Nat) (e : Expr), Chain c n e → nestingLimit ≤ n →
      parse (e.flat ++ ";") = (⟨[.expression e]⟩, .empty) ∧
        parse (Program.render ⟨[.expression e]⟩) ≠ (⟨[.expression e]⟩, .empty) := by
  have hround : ∀ p : Program, p.WellFormed →
      (parse p.render = (p, .empty) ↔ ∀ stmt ∈ p.statements, stmt.value.need ≤ nestingLimit) :=
    fun p h => parse_eq_iff (fun stmt => stmt.value.need) (Program.scanAll_render h)
      fun stmt hstmt => (h stmt hstmt).derives
  refine ⟨hround, fun c n e h hn => ⟨parse_flat h, ?_⟩⟩
  have hwf : Program.WellFormed ⟨[.expression e]⟩ := by
    intro stmt hstmt
    rw [List.mem_singleton.1 hstmt]
    exact h.wellFormed
  intro hread
  -- a chain of n operands needs n + 1 levels
  have hneed : e.need ≤ nestingLimit := (hround _ hwf).1 hread _ List.mem_cons_self
  have hlimit : 1 < nestingLimit := by decide
  rw [h.need_eq, if_neg (by omega)] at hneed
  omega

/-- A program that is read back, and a sum of as many names as there are levels, which is not. -/
theorem parse_render_sum_of_names :
    (Program.WellFormed ⟨[.letBinding "x" (.unary "-" (.integer "1")),
        .expression (.binary (.identifier "x") "*" (.boolean true))]⟩ ∧
      parse (Program.render ⟨[.letBinding "x" (.unary "-" (.integer "1")),
        .expression (.binary (.identifier "x") "*" (.boolean true))]⟩) =
          (⟨[.letBinding "x" (.unary "-" (.integer "1")),
            .expression (.binary (.identifier "x") "*" (.boolean true))]⟩, .empty)) ∧
    Chain .sum nestingLimit (.repeated "+" (.identifier "x") 255) ∧
      parse ((Expr.repeated "+" (.identifier "x") 255).flat ++ ";") =
        (⟨[.expression (.repeated "+" (.identifier "x") 255)]⟩, .empty) ∧
      parse (Program.render ⟨[.expression (.repeated "+" (.identifier "x") 255)]⟩) ≠
        (⟨[.expression (.repeated "+" (.identifier "x") 255)]⟩, .empty) := by
  have hwf : Program.WellFormed ⟨[.letBinding "x" (.unary "-" (.integer "1")),
      .expression (.binary (.identifier "x") "*" (.boolean true))]⟩ := by decide
  have hop : Category.sum.Operates "+" := .inl rfl
  have hchain : Chain .sum nestingLimit (.repeated "+" (.identifier "x") 255) :=
    chain_repeated hop (by decide) rfl 255
  exact ⟨⟨hwf, (parse_render.1 _ hwf).2 (by decide)⟩, hchain,
    parse_render.2 .sum nestingLimit _ hchain (Nat.le_refl _)⟩

/-- A well-formed program is told by its rendering, whether or not that can be read back. -/
theorem render_injective (p q : Program) (hp : p.WellFormed) (hq : q.WellFormed)
    (h : p.render = q.render) : p = q := by
  have htokens : p.statements.flatMap Stmt.tokens = q.statements.flatMap Stmt.tokens := by
    rw [← Program.scanAll_render hp, ← Program.scanAll_render hq, h]
  have hstatements := eq_of_flatMap_eq (fun stmt => stmt.value.need)
    (fun stmt hstmt => (hp stmt hstmt).derives) (fun stmt hstmt => (hq stmt hstmt).derives) htokens
  cases p
  cases q
  exact congrArg Program.mk hstatements

/-- The rendering of what was read tells the tree that was made of it. -/
theorem render_injective_of_parse :
    let p := (parse "let x = -(1 + y) * 3; x;").1
    let product : Expr :=
      .binary (.unary "-" (.binary (.integer "1") "+" (.identifier "y"))) "*" (.integer "3")
    let q : Program := ⟨[.letBinding "x" product, .expression (.identifier "x")]⟩
    (p.WellFormed ∧ q.WellFormed ∧ p.render = q.render) ∧ p = q := by
  intro p product q
  have hp : p.WellFormed := by decide +kernel
  have hq : q.WellFormed := by decide +kernel
  have hrender : p.render = q.render := by decide +kernel
  exact ⟨⟨hp, hq, hrender⟩, render_injective p q hp hq hrender⟩

end LetLang
