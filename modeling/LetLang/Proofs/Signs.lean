import LetLang.Proofs.Climbing
import LetLang.Proofs.Failures
import LetLang.Proofs.Lexemes
import LetLang.Proofs.Segments

/-!
# Signs in a row

Every sign in front of an operand takes up a level of nesting, and so does the operand.  In a row of
more signs than there are levels the attempt fails behind as many as there are, whatever comes next is
skipped, and the next attempt starts with what is left.  So a row is dropped piece by piece, and the
statement that is kept in the end has no more signs than the last piece.  If nothing is left of the row
but what no attempt can read, then the operand is skipped, and after it the semicolon.

    behind `room` signs an attempt fails                                        (statement_signs)
    a run drops any number of such pieces, each with the token behind it        (exists_run_signs)
    parse_signs                                                what becomes of a row of any length
-/

namespace LetLang

open TokenStream Parse OperatorTree

variable {σ : Type} [TokenStream σ] {room : Nat}

/-- The sign that stands in front of an operand. -/
def sign : Token := ⟨.dash, "-"⟩

/-- An expression behind so many signs. -/
def Expr.signed : Nat → Expr → Expr
  | 0, e => e
  | n + 1, e => .unary "-" (signed n e)

/-! ## More signs than levels -/

/-- Each sign uses up a level, and then there is none for what comes next. -/
theorem expression_signs {bound : Power} {s rest : σ} (hs : Spans s (List.replicate room sign) rest) :
    expression .standard room bound s = .failed (.nestingTooDeep nestingLimit) rest := by
  induction room generalizing bound s with
  | zero =>
    obtain rfl : rest = s := hs.rest_eq
    rfl
  | succ room ih =>
    rw [List.replicate_succ] at hs
    have ho : Grammar.standard.operand (current s).kind = some .unary := by
      rw [hs.current_cons]
      rfl
    rw [expression_eq_extend, operand_of_some _ ho, read_unary, ih hs.tail]
    rfl

theorem statement_signs {s rest : σ} (hroom : 0 < room)
    (hs : Spans s (List.replicate room sign) rest) :
    statement .standard room s =
      .failed ⟨[.nestingTooDeep nestingLimit], .invalidStatement (current rest).kind⟩ rest := by
  have hlet : (current s).kind ≠ .letWord := by
    obtain ⟨n, rfl⟩ : ∃ n, room = n + 1 := ⟨room - 1, by omega⟩
    rw [List.replicate_succ] at hs
    rw [hs.current_cons]
    decide
  rw [statement_of_none room (rule_of_ne_let hlet), restate_eq_failed_iff]
  refine ⟨_, ?_, rfl⟩
  unfold expressionStatement
  rw [bind_apply, expression_signs hs]
  rfl

/-- The turn on more signs than there are levels drops them, and with them the token that comes next. -/
theorem turn_signs (hroom : 0 < room) (t : Token) (rest : List Token) :
    ∃ u, turn .standard room (List.replicate room sign ++ t :: rest) = some (u, rest) ∧
      u.verdict = .dropped [.nestingTooDeep nestingLimit, .invalidStatement t.kind] t := by
  let s := List.replicate room sign ++ t :: rest
  have hs : Spans (Logged.mk s []) (List.replicate room sign) _ := .of_append rfl
  have hfail := statement_signs hroom hs
  rw [List.length_replicate] at hfail
  have hskip : skip room s = t :: rest := by
    rw [skip_list]
    exact List.drop_left' List.length_replicate
  have hcurrent : current (skip room (Logged.mk s [])) = t := by
    show current (skip room (Logged.mk s [])).stream = t
    rw [Logged.stream_skip, hskip]
    rfl
  obtain ⟨u, hu, -, hv⟩ := turn_of_failed hfail
  rw [← skip_skip room 1, hskip] at hu
  rw [hskip, hcurrent] at hv
  exact ⟨u, hu, hv⟩

/-- What is reported of so many pieces of a row, each dropped at the sign behind it. -/
def signReports (n : Nat) : List Diagnostic :=
  (List.replicate n [.nestingTooDeep nestingLimit, .invalidStatement .dash]).flatten

/-- A run drops a row piece by piece. -/
theorem exists_run_signs (hroom : 0 < room) (q : Nat) (rest : List Token) :
    ∃ us, Run .standard room (List.replicate ((room + 1) * q) sign ++ rest) us rest ∧
      statementsOf us = [] ∧ diagnosticsOf us = signReports q := by
  induction q with
  | zero => exact ⟨[], .stop rest, rfl, rfl⟩
  | succ q ih =>
    obtain ⟨us, hus, hstatements, hdiagnostics⟩ := ih
    -- the first piece: as many signs as there are levels, and the one that is skipped
    have hsplit : List.replicate ((room + 1) * (q + 1)) sign ++ rest =
        List.replicate room sign ++ sign :: (List.replicate ((room + 1) * q) sign ++ rest) := by
      rw [Nat.mul_succ, Nat.add_comm, ← List.replicate_append_replicate, List.replicate_succ',
        List.append_assoc, List.append_assoc]
      rfl
    obtain ⟨u, hu, hv⟩ := turn_signs hroom sign (List.replicate ((room + 1) * q) sign ++ rest)
    have hcurrent : (current (List.replicate room sign ++
        sign :: (List.replicate ((room + 1) * q) sign ++ rest))).kind ≠ .eof := by
      obtain ⟨n, rfl⟩ : ∃ n, room = n + 1 := ⟨room - 1, by omega⟩
      exact nofun
    rw [hsplit]
    refine ⟨u :: us, .turn hcurrent hu hus, ?_, ?_⟩
    · rw [statementsOf_cons, hstatements]
      simp [Turn.statement?, hv]
    · rw [diagnosticsOf_cons, hdiagnostics]
      simp [Turn.diagnostics, hv, signReports, List.replicate_succ, sign]

/-! ## Signs that there are levels for -/

theorem derives_leaf {x : Token} (h : x.kind ∈ leafKinds) : Derives .atom 1 [x] (leafExpr x) := by
  simp only [leafKinds, List.mem_cons, List.not_mem_nil, or_false] at h
  rcases h with h | h | h | h
  · rw [leafExpr, h]
    exact .identifier h
  · rw [leafExpr, h]
    exact .integer h
  · rw [leafExpr, h]
    exact .trueWord h
  · rw [leafExpr, h]
    exact .falseWord h

theorem derives_signed {x : Token} (h : x.kind ∈ leafKinds) (r : Nat) :
    Derives .signed (r + 1) (List.replicate r sign ++ [x]) (.signed r (leafExpr x)) := by
  induction r with
  | zero => exact .signedOfAtom (derives_leaf h)
  | succ r ih => exact .negation rfl ih

/-! ## Whole sources -/

theorem scanAll_signs (n : Nat) (cs : List Char) :
    scanAll (List.replicate n '-' ++ cs) = List.replicate n sign ++ scanAll cs := by
  induction n with
  | zero => rfl
  | succ n ih =>
    rw [List.replicate_succ, List.cons_append, scanAll_symbol (by decide) (by decide), ih]
    rfl

theorem Lexeme.scanAll_semicolon {x : Token} (h : Lexeme x.kind x.text) :
    scanAll (x.text.toList ++ [';']) = [x, symbolToken ';'] := by
  rw [scanAll_append_cons _ (by decide), scanAll_symbol (by decide) (by decide), scanAll_nil,
    scanAll_of_ne_eof (by rw [h.scan_eq]; exact h.kind_ne_eof), h.scan_eq, scanAll_nil]
  rfl

theorem turnsOf_signs {q r : Nat} {x : Token} (hx : Lexeme x.kind x.text) :
    ∃ us, turnsOf (String.ofList (List.replicate ((nestingLimit + 1) * q + r) '-') ++ x.text ++ ";") =
        us ++ readAll (List.replicate r sign ++ [x, symbolToken ';']) ∧
      statementsOf us = [] ∧ diagnosticsOf us = signReports q := by
  have htext : (String.ofList (List.replicate ((nestingLimit + 1) * q + r) '-') ++ x.text ++ ";").toList =
      List.replicate ((nestingLimit + 1) * q + r) '-' ++ (x.text.toList ++ [';']) := by simp
  have hroom : 0 < nestingLimit := by decide
  obtain ⟨us, hus, hstatements, hdiagnostics⟩ :=
    exists_run_signs hroom q (List.replicate r sign ++ [x, symbolToken ';'])
  refine ⟨us, ?_, hstatements, hdiagnostics⟩
  rw [turnsOf_eq_readAll, htext, scanAll_signs, hx.scanAll_semicolon,
    ← List.replicate_append_replicate, List.append_assoc, readAll_of_run hus]

theorem current_signs (r : Nat) {x : Token} (hx : Lexeme x.kind x.text) (rest : List Token) :
    (current (List.replicate r sign ++ x :: rest)).kind ≠ .eof := by
  cases r with
  | zero => exact hx.kind_ne_eof
  | succ r => exact nofun

/-- With a level left for the operand the statement is kept. -/
theorem readAll_signs_of_lt {r : Nat} {x : Token} (hx : Lexeme x.kind x.text)
    (hleaf : x.kind ∈ leafKinds) (hr : r < nestingLimit) :
    let ts := readAll (List.replicate r sign ++ [x, symbolToken ';'])
    statementsOf ts = [.expression (.signed r (leafExpr x))] ∧ diagnosticsOf ts = [] := by
  intro ts
  have hd : DerivesStatement (r + 1) (List.replicate r sign ++ [x] ++ [symbolToken ';'])
      (.expression (.signed r (leafExpr x))) :=
    .expression ((derives_signed hleaf r).widen (by decide)) rfl
  obtain ⟨t, ht, -, hv⟩ := turn_of_fits hd hr []
  rw [List.append_nil, List.append_assoc] at ht
  have hts : ts = [t] := readAll_of_run (.turn (current_signs r hx _) ht (.stop _))
  rw [hts]
  exact ⟨by simp [statementsOf, Turn.statement?, hv], by simp [diagnosticsOf, Turn.diagnostics, hv]⟩

/-- With no level left for the operand it is skipped, and the semicolon alone makes no statement. -/
theorem readAll_signs_of_eq {x : Token} (hx : Lexeme x.kind x.text) :
    let ts := readAll (List.replicate nestingLimit sign ++ [x, symbolToken ';'])
    statementsOf ts = [] ∧ diagnosticsOf ts = [.nestingTooDeep nestingLimit, .invalidStatement x.kind,
      .noOperand .semicolon ";", .invalidStatement .semicolon] := by
  intro ts
  have hroom : 0 < nestingLimit := by decide
  obtain ⟨u, hu, hv⟩ := turn_signs hroom x [symbolToken ';']
  have hts : ts = u :: readAll [symbolToken ';'] :=
    readAll_of_run (.turn (current_signs _ hx _) hu (.stop _))
  have hsemi : readAll [symbolToken ';'] = [⟨⟨.semicolon, ";"⟩, [.eof],
      .dropped [.noOperand .semicolon ";", .invalidStatement .semicolon] ⟨.semicolon, ";"⟩⟩] := by
    decide +kernel
  rw [hts, hsemi]
  exact ⟨by simp [statementsOf, Turn.statement?, hv], by simp [diagnosticsOf, Turn.diagnostics, hv]⟩

/-- What becomes of a row of signs of any length in front of an operand that is one token.  Of a row cut
into pieces, each as long as there are levels and one token more, every whole piece is dropped and
reported.  The signs that are left over are kept with the operand, unless they are as many as there are
levels; then they are dropped as well, with the operand and with the semicolon behind it. -/
theorem parse_signs {n q r : Nat} {x : Token} (hn : n = (nestingLimit + 1) * q + r)
    (hr : r ≤ nestingLimit) (hx : Lexeme x.kind x.text) (hleaf : x.kind ∈ leafKinds) :
    let source := String.ofList (List.replicate n '-') ++ x.text ++ ";"
    (r < nestingLimit →
      parse source = (⟨[.expression (.signed r (leafExpr x))]⟩, .ofList (signReports q))) ∧
    (r = nestingLimit →
      parse source = (⟨[]⟩, .ofList (signReports q ++
        [.nestingTooDeep nestingLimit, .invalidStatement x.kind, .noOperand .semicolon ";",
          .invalidStatement .semicolon]))) := by
  intro source
  obtain ⟨us, hturns, hstatements, hdiagnostics⟩ := turnsOf_signs (q := q) (r := r) hx
  rw [← hn] at hturns
  have hparse : parse source =
      (⟨statementsOf (readAll (List.replicate r sign ++ [x, symbolToken ';']))⟩, .ofList (signReports q ++
        diagnosticsOf (readAll (List.replicate r sign ++ [x, symbolToken ';'])))) := by
    rw [parse, programOf, hturns, statementsOf_append, diagnosticsOf_append, hstatements, hdiagnostics,
      List.nil_append]
  constructor
  · intro hlt
    obtain ⟨hkept, hclean⟩ := readAll_signs_of_lt hx hleaf hlt
    rw [hparse, hkept, hclean, List.append_nil]
  · intro heq
    subst heq
    obtain ⟨hkept, hreports⟩ := readAll_signs_of_eq hx
    rw [hparse, hkept, hreports]

/-- Of 520 signs, six are left over; of 770, as many as there are levels. -/
theorem parse_signs_left_over :
    let name : Token := ⟨.identifier, "x"⟩
    let word : Token := ⟨.trueWord, "true"⟩
    (Lexeme name.kind name.text ∧ name.kind ∈ leafKinds ∧ 520 = (nestingLimit + 1) * 2 + 6 ∧
      parse (String.ofList (List.replicate 520 '-') ++ name.text ++ ";") =
        (⟨[.expression (.signed 6 (.identifier "x"))]⟩,
          .ofList [.nestingTooDeep 256, .invalidStatement .dash, .nestingTooDeep 256,
            .invalidStatement .dash])) ∧
    (Lexeme word.kind word.text ∧ word.kind ∈ leafKinds ∧ 770 = (nestingLimit + 1) * 2 + 256 ∧
      parse (String.ofList (List.replicate 770 '-') ++ word.text ++ ";") =
        (⟨[]⟩, .ofList [.nestingTooDeep 256, .invalidStatement .dash, .nestingTooDeep 256,
          .invalidStatement .dash, .nestingTooDeep 256, .invalidStatement .trueWord,
          .noOperand .semicolon ";", .invalidStatement .semicolon])) := by
  intro name word
  have hname : Lexeme name.kind name.text := .identifier (by decide)
  have hword : Lexeme word.kind word.text := .keyword (by decide)
  have hsix : 520 = (nestingLimit + 1) * 2 + 6 := rfl
  have hall : 770 = (nestingLimit + 1) * 2 + 256 := rfl
  exact ⟨⟨hname, by decide, hsix, (parse_signs hsix (by decide) hname (by decide)).1 (by decide)⟩,
    hword, by decide, hall, (parse_signs hall (by decide) hword (by decide)).2 rfl⟩

end LetLang
