import LetLang.Proofs.Courses

/-!
# Frames

Whatever a parser is told to read, and however that ends, it comes back to the depth of nesting and to the
tables that it had.  On the way it goes down no further than the limit.  A routine reports nothing, but for
two: a statement reports the diagnostic of an expression statement that was tried for want of a rule, and a
whole parse those of its turns.  Each diagnostic has its one line.

    routine.carryOut c gives the answer and the parser of c.parser.perform           (Routine.carryOut_tracks)
    what a routine leaves as it was, and what it reports                             (Routine.leaves_of_perform)
    the frame of every routine, in the end and on the way                            (routine_frame)
-/

namespace LetLang

open TokenStream Parse

variable {ε ε' σ α : Type} [TokenStream σ]

namespace Course

variable {start : Parser σ}

/-! ## Running a routine -/

/-- The answer of a routine and the course afterwards. -/
def run (c : Course σ) (f : Parse ε (Course σ) α) : Option (Except ε α × Course σ) :=
  match f c with
  | .done a rest => some (.ok a, rest)
  | .failed e rest => some (.error e, rest)
  | .endless => none

/-- The course has come to the parser `q`, and it is sound from `start` on. -/
def Tracks (start : Parser σ) (q : Parser σ) (c : Course σ) : Prop := c.parser = q ∧ c.Sound start

theorem run_tracks {c : Course σ} {f : Parse ε (Logged σ) α} {f' : Parse ε (Course σ) α}
    (hc : c.Sound start) (h : Respects (Follows start c.parser) f f') :
    SameAnswer (Tracks start) (c.parser.run f) (c.run f') := by
  have hstart : c.parser = c.parser.resume ⟨c.parser.stream, []⟩ := (c.parser.resume_skip 0).symm
  have hrel := h ⟨c.parser.stream, []⟩ c ⟨hstart, hc⟩
  unfold Parser.run run
  generalize f ⟨c.parser.stream, []⟩ = o at hrel ⊢
  generalize f' c = o' at hrel ⊢
  cases hrel with
  | done a hrest => exact .some _ hrest
  | failed e hrest => exact .some _ hrest
  | endless => exact .none

end Course

/-! ## Parsing a statement -/

/-- After a turn that never ends none is taken. -/
theorem turns_eq_none {g : Grammar} {room : Nat} {s : σ}
    (hs : (current s).kind ≠ .eof) (ht : turn g room s = none) : turns g room s = none := by
  have hpos : 0 < (tokens s).length := List.length_pos_iff.2 (tokens_ne_nil hs)
  have hle := length_tokens_le s
  obtain ⟨n, hn⟩ : ∃ n, left s = n + 1 := ⟨left s - 1, by omega⟩
  rw [turns, hn, turnsUpTo, if_neg hs, ht]

namespace Parser

variable {p : Parser σ}

/-- With a rule for the token that it starts at, a statement is read by the rule. -/
theorem parseStatement_of_some {rule : StatementRule}
    (h : p.grammar.statement p.currentKind = some rule) :
    p.parseStatement = p.run (rule.read p.grammar p.room) := by
  have hstatement : statement p.grammar p.room (Logged.mk p.stream []) = _ :=
    statement_of_some p.room h
  unfold parseStatement run
  rw [hstatement]
  unfold Parse.restate
  cases rule.read p.grammar p.room (Logged.mk p.stream []) with
  | done stmt rest => rfl
  | failed d rest => rfl
  | endless => rfl

/-- Without a rule an expression statement is read.  If it fails, its diagnostic is reported, and the answer
is that no statement starts with the token at which it stopped. -/
theorem parseStatement_of_none (h : p.grammar.statement p.currentKind = none) :
    p.parseStatement = p.parseExpressionStatement.map fun
      | (.ok stmt, q) => (.ok stmt, q)
      | (.error d, q) => (.error (.invalidStatement q.currentKind), q.report d) := by
  have hstatement : statement p.grammar p.room (Logged.mk p.stream []) = _ :=
    statement_of_none p.room h
  unfold parseStatement parseExpressionStatement run
  rw [hstatement]
  unfold Parse.restate
  cases expressionStatement p.grammar p.room (Logged.mk p.stream []) with
  | done stmt rest => rfl
  | failed d rest => rfl
  | endless => rfl

theorem round_eq_none (h : turn p.grammar p.room p.stream = none) : p.round = none := by
  cases hround : p.round with
  | none => rfl
  | some r =>
    obtain ⟨kept, q⟩ := r
    obtain ⟨t, rest, ht, -⟩ := turn_of_round hround
    rw [h] at ht
    cases ht

/-- The parser once it has come to the end token, with the statements `body` kept. -/
def finish (p : Parser σ) (body : List Stmt) : Parser σ :=
  p.tell [.finished body.length p.diagnostics.size]

/-- What a whole parse gives that has kept the statements `body` and has these turns still to take. -/
def ending (p : Parser σ) (body : List Stmt) (r : List Turn × σ) : Program × Parser σ :=
  (⟨body ++ statementsOf r.1⟩, (p.having r.1 r.2).finish (body ++ statementsOf r.1))

omit [TokenStream σ] in
theorem ending_nil (p : Parser σ) (body : List Stmt) :
    p.ending body ([], p.stream) = (⟨body⟩, p.finish body) := by
  rw [ending, statementsOf_nil, List.append_nil, having_nil]

omit [TokenStream σ] in
theorem ending_cons (p : Parser σ) (body : List Stmt) (t : Turn) (ts : List Turn) (mid last : σ) :
    p.ending body (t :: ts, last) =
      (p.having [t] mid).ending (body ++ t.statement?.toList) (ts, last) := by
  rw [ending, ending, statementsOf_cons, ← having_append, List.append_assoc]
  rfl

theorem parse_eq_map : p.parse = (turns p.grammar p.room p.stream).map (p.ending []) := by
  unfold parse
  cases turns p.grammar p.room p.stream <;> rfl

end Parser

namespace Course

variable {start : Parser σ}

omit [TokenStream σ] in
theorem attempt_apply (f : Parse ε (Course σ) α) (c : Course σ) :
    (attempt f c : Outcome ε' (Course σ) (Except ε α)) =
      match c.run f with
      | some (r, rest) => .done r rest
      | none => .endless := by
  unfold attempt run
  cases f c <;> rfl

theorem run_statement_of_some {c : Course σ} {rule : StatementRule}
    (h : c.parser.grammar.statement c.parser.currentKind = some rule) :
    c.run statement = c.run (ruled rule) := by
  have hkind : c.parser.grammar.statement (current c).kind = some rule := h
  simp only [run, statement, bind_apply, peek_apply, Outcome.andThen_done, tables, hkind]

theorem run_statement_of_none {c : Course σ}
    (h : c.parser.grammar.statement c.parser.currentKind = none) :
    c.run statement = (c.run expressionStatement).map fun
      | (.ok stmt, rest) => (.ok stmt, rest)
      | (.error d, rest) =>
        (.error (.invalidStatement rest.parser.currentKind), rest.goTo (rest.parser.report d)) := by
  have hkind : c.parser.grammar.statement (current c).kind = none := h
  simp only [run, statement, bind_apply, peek_apply, Outcome.andThen_done, tables, hkind, attempt]
  cases expressionStatement c <;> rfl

theorem statement_tracks {c : Course σ} (hc : c.Sound start) :
    SameAnswer (Tracks start) c.parser.parseStatement (c.run statement) := by
  cases hrule : c.parser.grammar.statement c.parser.currentKind with
  | some rule =>
    rw [Parser.parseStatement_of_some hrule, run_statement_of_some hrule]
    exact run_tracks hc (respects_ruled rule)
  | none =>
    rw [Parser.parseStatement_of_none hrule, run_statement_of_none hrule]
    have hrel := run_tracks hc (respects_expressionStatement (p := c.parser))
    rw [Parser.parseExpressionStatement]
    generalize c.parser.run (LetLang.expressionStatement c.parser.grammar c.parser.room) = o at hrel ⊢
    generalize c.run expressionStatement = o' at hrel ⊢
    cases hrel with
    | none => exact .none
    | @some q c' r htracks =>
      obtain ⟨rfl, hsound⟩ := htracks
      cases r with
      | ok stmt => exact .some _ ⟨rfl, hsound⟩
      | error d => exact .some _ ⟨rfl, hsound.report d⟩

/-! ## The main loop -/

theorem round_tracks {c : Course σ} (hc : c.Sound start) :
    SameAnswer (Tracks start) c.parser.round (round c).value? := by
  have hrel := statement_tracks hc
  unfold Parser.round round
  rw [bind_apply, attempt_apply]
  generalize c.parser.parseStatement = o at hrel ⊢
  generalize c.run statement = o' at hrel ⊢
  cases hrel with
  | none => exact .none
  | @some q c' r htracks =>
    obtain ⟨rfl, hsound⟩ := htracks
    cases r with
    | ok stmt => exact .some _ ⟨rfl, hsound⟩
    | error d => exact .some _ ⟨rfl, (hsound.report d).advance.tell _⟩

theorem program_of_eof {c : Course σ} (rounds : Nat) (body : List Stmt)
    (h : c.parser.currentKind = .eof) :
    program (rounds + 1) body c = .done ⟨body⟩ (c.goTo (c.parser.finish body)) := by
  have hkind : (current c).kind = .eof := h
  simp only [program, bind_apply, peek_apply, Outcome.andThen_done, hkind, if_true]
  rfl

theorem program_of_ne_eof {c : Course σ} (rounds : Nat) (body : List Stmt)
    (h : c.parser.currentKind ≠ .eof) :
    program (rounds + 1) body c =
      (round c).andThen fun kept rest => program rounds (body ++ kept.toList) rest := by
  have hkind : (current c).kind ≠ .eof := h
  simp only [program, bind_apply, peek_apply, Outcome.andThen_done, hkind, if_false]

/-- The main loop step by step is the turns still to take.  The induction is on the rounds allowed, which the
tokens left are fewer than. -/
theorem program_tracks (rounds : Nat) (body : List Stmt) {c : Course σ} (hc : c.Sound start)
    (hrounds : (tokens c).length < rounds) :
    SameAnswer (Tracks start)
      ((turns c.parser.grammar c.parser.room c.parser.stream).map (c.parser.ending body))
      (program rounds body c).value? := by
  induction rounds generalizing body c with
  | zero => exact absurd hrounds (Nat.not_lt_zero _)
  | succ rounds ih =>
    by_cases heof : c.parser.currentKind = .eof
    · have hturns : turns c.parser.grammar c.parser.room c.parser.stream = some ([], c.parser.stream) :=
        turns_of_eof heof
      rw [hturns, program_of_eof rounds body heof, Option.map_some, Parser.ending_nil]
      exact .some _ ⟨rfl, hc.tell _⟩
    · have hrel := round_tracks hc
      rw [program_of_ne_eof rounds body heof]
      cases hturn : turn c.parser.grammar c.parser.room c.parser.stream with
      | none =>
        rw [turns_eq_none heof hturn]
        rw [Parser.round_eq_none hturn] at hrel
        generalize round c = o at hrel ⊢
        cases o with
        | endless => exact .none
        | done kept c' => cases hrel
        | failed e c' => cases e
      | some r =>
        obtain ⟨t, mid⟩ := r
        have hturns : turns c.parser.grammar c.parser.room c.parser.stream =
            (turns c.parser.grammar c.parser.room mid).map fun r => (t :: r.1, r.2) :=
          turns_of_turn heof hturn
        have hending : (c.parser.ending body ∘ fun r => (t :: r.1, r.2)) =
            (c.parser.having [t] mid).ending (body ++ t.statement?.toList) := by
          funext r
          exact c.parser.ending_cons body t r.1 mid r.2
        rw [hturns, Option.map_map, hending]
        rw [Parser.round_of_turn hturn] at hrel
        generalize round c = o at hrel ⊢
        cases o with
        | endless => cases hrel
        | failed e c' => cases e
        | done kept c' =>
          cases hrel with
          | some _ htracks =>
            obtain ⟨hparser, hsound⟩ := htracks
            have hlt : (tokens c').length < rounds := by
              have hless := length_turn_lt heof hturn
              show (tokens c'.parser.stream).length < rounds
              rw [hparser, Parser.stream_having]
              exact Nat.lt_of_lt_of_le hless (Nat.le_of_lt_succ hrounds)
            have hrest := ih (body ++ t.statement?.toList) hsound hlt
            rw [hparser, Parser.grammar_having, Parser.room_having, Parser.stream_having] at hrest
            exact hrest

end Course

/-! ## Routines -/

/-- The ways of reading that a parser has. -/
inductive Routine where
  | operand (rule : OperandRule)
  | operation (left : Expr) (power : Power)
  | expression (bound : Power)
  | letStatement
  | expressionStatement
  | statement
  | program

namespace Routine

/-- The command for the routine. -/
def command : Routine → Command
  | operand rule => .parseOperand rule
  | operation left power => .parseOperation left power
  | expression bound => .parseExpression bound
  | letStatement => .parseLetStatement
  | expressionStatement => .parseExpressionStatement
  | statement => .parseStatement
  | program => .parse

/-- Carries the routine out step by step. -/
def carryOut (c : Course σ) : Routine → Option (Answer × Course σ)
  | operand rule =>
    (c.run (rule.read (Course.expression Course.mostCalls))).map (Prod.map .expression id)
  | operation left power =>
    (c.run (LetLang.operation (Course.expression Course.mostCalls) power left)).map
      (Prod.map .expression id)
  | expression bound =>
    (c.run (Course.expression Course.mostCalls bound)).map (Prod.map .expression id)
  | letStatement => (c.run Course.letStatement).map (Prod.map .statement id)
  | expressionStatement => (c.run Course.expressionStatement).map (Prod.map .statement id)
  | statement => (c.run Course.statement).map (Prod.map .statement id)
  | program => (Course.program (left c + 1) [] c).value?.map (Prod.map .program id)

/-- Step by step a routine gives the answer that it gives at once, and leaves the parser as it does. -/
theorem carryOut_tracks {start : Parser σ} {c : Course σ} (hc : c.Sound start) (routine : Routine) :
    SameAnswer (Course.Tracks start) (c.parser.perform routine.command) (routine.carryOut c) := by
  have hnested : ∀ bound, Respects (Course.Follows start c.parser)
      (LetLang.expression c.parser.grammar c.parser.room bound)
      (Course.expression Course.mostCalls bound) :=
    fun bound => Course.respects_expression _ bound (Course.room_lt_mostCalls c.parser)
  cases routine with
  | operand rule =>
    exact (Course.run_tracks hc (respects_read Course.alike_follows hnested rule)).map Answer.expression
  | operation left power =>
    exact (Course.run_tracks hc (respects_operation Course.alike_follows hnested power left)).map
      Answer.expression
  | expression bound => exact (Course.run_tracks hc (hnested bound)).map Answer.expression
  | letStatement => exact (Course.run_tracks hc Course.respects_letStatement).map Answer.statement
  | expressionStatement =>
    exact (Course.run_tracks hc Course.respects_expressionStatement).map Answer.statement
  | statement => exact (Course.statement_tracks hc).map Answer.statement
  | program =>
    have hlength := length_tokens_le c
    have hrel := Course.program_tracks (left c + 1) [] hc (Nat.lt_succ_of_le hlength)
    rw [← Parser.parse_eq_map] at hrel
    exact hrel.map Answer.program

end Routine

/-! ## What a routine leaves -/

namespace Parser

variable {p q : Parser σ}

omit [TokenStream σ] in
theorem run_frame {f : Parse ε (Logged σ) α} {r : Except ε α} (h : p.run f = some (r, q)) :
    q.depth = p.depth ∧ q.grammar = p.grammar ∧ q.diagnostics = p.diagnostics ∧ q.lines = p.lines := by
  unfold run at h
  split at h
  · cases h
    exact ⟨rfl, rfl, rfl, rfl⟩
  · cases h
    exact ⟨rfl, rfl, rfl, rfl⟩
  · cases h

/-- The diagnostic of an expression statement that is tried for want of a rule and fails. -/
def noted (p : Parser σ) : List Diagnostic :=
  match p.grammar.statement p.currentKind, p.parseExpressionStatement with
  | none, some (.error d, _) => [d]
  | _, _ => []

/-- The parser has come back to its depth and its tables, and has reported `ds`. -/
structure Leaves (p : Parser σ) (ds : List Diagnostic) (q : Parser σ) : Prop where
  depth_eq : q.depth = p.depth
  grammar_eq : q.grammar = p.grammar
  diagnostics_eq : q.diagnostics.toList = p.diagnostics.toList ++ ds
  lines_eq : q.lines.toList = p.lines.toList ++ ds.map Diagnostic.report

omit [TokenStream σ] in
theorem leaves_of_run {f : Parse ε (Logged σ) α} {r : Except ε α} (h : p.run f = some (r, q)) :
    p.Leaves [] q := by
  obtain ⟨hdepth, hgrammar, hdiagnostics, hlines⟩ := run_frame h
  exact ⟨hdepth, hgrammar, by rw [hdiagnostics, List.append_nil],
    by rw [hlines, List.map_nil, List.append_nil]⟩

theorem leaves_of_parseStatement {r : Except Diagnostic Stmt} (h : p.parseStatement = some (r, q)) :
    p.Leaves p.noted q := by
  cases hrule : p.grammar.statement p.currentKind with
  | some rule =>
    have hnoted : p.noted = [] := by rw [noted, hrule]
    rw [parseStatement_of_some hrule] at h
    rw [hnoted]
    exact leaves_of_run h
  | none =>
    rw [parseStatement_of_none hrule] at h
    obtain ⟨⟨r', q'⟩, hrun, heq⟩ := Option.map_eq_some_iff.1 h
    obtain ⟨hdepth, hgrammar, hdiagnostics, hlines⟩ := run_frame hrun
    cases r' with
    | ok stmt =>
      cases heq
      have hnoted : p.noted = [] := by rw [noted, hrule, hrun]
      rw [hnoted]
      exact leaves_of_run hrun
    | error d =>
      cases heq
      have hnoted : p.noted = [d] := by rw [noted, hrule, hrun]
      rw [hnoted]
      exact ⟨hdepth, hgrammar, by simp [report, hdiagnostics], by simp [report, hlines]⟩

theorem leaves_of_parse {program : Program} (h : p.parse = some (program, q)) :
    ∃ ts last, turns p.grammar p.room p.stream = some (ts, last) ∧ p.Leaves (diagnosticsOf ts) q := by
  cases hturns : turns p.grammar p.room p.stream with
  | none =>
    rw [parse, hturns] at h
    cases h
  | some r =>
    obtain ⟨ts, last⟩ := r
    obtain ⟨q', hq', -, hgrammar, hdepth, hdiagnostics, hlines, -⟩ := parse_eq_of_turns hturns
    rw [h] at hq'
    cases hq'
    exact ⟨ts, last, rfl, hdepth, hgrammar, hdiagnostics, hlines⟩

end Parser

namespace Routine

/-- What the routine reports.  Of a statement that fails, the last diagnostic is left to the caller. -/
def Reports (p : Parser σ) (ds : List Diagnostic) : Routine → Prop
  | statement => ds = p.noted
  | program => ∃ ts last, turns p.grammar p.room p.stream = some (ts, last) ∧ ds = diagnosticsOf ts
  | _ => ds = []

/-- However it ends, a routine leaves the depth and the tables as they were, and it reports what it has to. -/
theorem leaves_of_perform {p q : Parser σ} {routine : Routine} {answer : Answer}
    (h : p.perform routine.command = some (answer, q)) :
    ∃ ds, routine.Reports p ds ∧ p.Leaves ds q := by
  have hrun : ∀ {β : Type} {f : Parse Diagnostic (Logged σ) β} {name : Except Diagnostic β → Answer},
      (p.run f).map (Prod.map name id) = some (answer, q) → p.Leaves [] q := by
    intro β f name hf
    obtain ⟨⟨r, q'⟩, hr, heq⟩ := Option.map_eq_some_iff.1 hf
    cases heq
    exact Parser.leaves_of_run hr
  cases routine with
  | operand rule => exact ⟨[], rfl, hrun h⟩
  | operation left power => exact ⟨[], rfl, hrun h⟩
  | expression bound => exact ⟨[], rfl, hrun h⟩
  | letStatement => exact ⟨[], rfl, hrun h⟩
  | expressionStatement => exact ⟨[], rfl, hrun h⟩
  | statement =>
    obtain ⟨⟨r, q'⟩, hr, heq⟩ := Option.map_eq_some_iff.1 h
    cases heq
    exact ⟨p.noted, rfl, Parser.leaves_of_parseStatement hr⟩
  | program =>
    obtain ⟨⟨program, q'⟩, hr, heq⟩ := Option.map_eq_some_iff.1 h
    cases heq
    obtain ⟨ts, last, hturns, hleaves⟩ := Parser.leaves_of_parse hr
    exact ⟨diagnosticsOf ts, ⟨ts, last, hturns, rfl⟩, hleaves⟩

end Routine

/-- The frame of a routine.  Whatever it reads and however that ends, the parser comes back to its depth and
has kept its tables, and what has come on record has been shown, line by line.  In every state on the way the
depth is within the limit, the tables are the same, and the record and the lines are between those at the
start and those in the end. -/
theorem routine_frame (p : Parser σ) (hdepth : p.depth ≤ nestingLimit) (routine : Routine)
    {answer : Answer} {q : Parser σ} (h : p.perform routine.command = some (answer, q)) :
    q.depth = p.depth ∧ q.grammar = p.grammar ∧
      (∃ ds, routine.Reports p ds ∧ q.diagnostics.toList = p.diagnostics.toList ++ ds ∧
        q.lines.toList = p.lines.toList ++ ds.map Diagnostic.report) ∧
      ∃ past, routine.carryOut ⟨p, []⟩ = some (answer, ⟨q, past⟩) ∧
        ∀ m ∈ past, m.depth ≤ nestingLimit ∧ m.grammar = p.grammar ∧ p.Grows m ∧ m.Grows q := by
  obtain ⟨ds, hreports, hleaves⟩ := Routine.leaves_of_perform h
  have hrel := Routine.carryOut_tracks (Course.sound_start hdepth) routine
  rw [h] at hrel
  refine ⟨hleaves.depth_eq, hleaves.grammar_eq,
    ⟨ds, hreports, hleaves.diagnostics_eq, hleaves.lines_eq⟩, ?_⟩
  generalize routine.carryOut ⟨p, []⟩ = o at hrel ⊢
  cases hrel with
  | @some _ c _ htracks =>
    obtain ⟨rfl, hsound⟩ := htracks
    refine ⟨c.past, rfl, fun m hm => ?_⟩
    obtain ⟨hframes, hgrown⟩ := hsound.past m hm
    exact ⟨hframes.depth_le, hframes.grammar_eq, hframes.grows, hgrown⟩

/-- At depth 253 the group in `-(-x);` is on the last level there is.  The sign in it finds no room for its
operand, and the parser comes up again from 256, with one diagnostic and its line. -/
theorem routine_frame_at_limit :
    let p : Parser Window := { Parser.ofString "-(-x);" (.ofList [.invalidStatement .plus]) with
      grammar := Grammar.standard.withOperand .assignment .unary, depth := 253 }
    let answer := Answer.statement (.error (.invalidStatement .identifier))
    p.depth ≤ nestingLimit ∧ ∃ q past, p.perform Routine.statement.command = some (answer, q) ∧
      q.depth = 253 ∧ q.grammar = p.grammar ∧
      q.diagnostics.toList = [.invalidStatement .plus, .nestingTooDeep 256] ∧
      q.lines.toList = [(Diagnostic.nestingTooDeep 256).report] ∧
      Routine.statement.carryOut ⟨p, []⟩ = some (answer, ⟨q, past⟩) ∧
      past.reverse.map Parser.depth = [253, 254, 254, 255, 255, 256, 256, 255, 254, 253] ∧
      ∀ m ∈ past, m.depth ≤ nestingLimit := by
  intro p answer
  have hanswer : (p.perform Routine.statement.command).map Prod.fst = some answer := by decide +kernel
  have hnoted : p.noted = [.nestingTooDeep 256] := by decide +kernel
  have hdepths : (Routine.statement.carryOut ⟨p, []⟩).map (fun r => r.2.past.reverse.map Parser.depth) =
      some [253, 254, 254, 255, 255, 256, 256, 255, 254, 253] := by
    decide +kernel
  have hp : p.depth ≤ nestingLimit := by decide
  obtain ⟨⟨answer', q⟩, hq, rfl⟩ := Option.map_eq_some_iff.1 hanswer
  obtain ⟨hdepth, hgrammar, ⟨ds, hreports, hdiagnostics, hlines⟩, past, hpast, hwithin⟩ :=
    routine_frame p hp .statement hq
  obtain rfl : ds = [.nestingTooDeep 256] := hreports.trans hnoted
  rw [hpast] at hdepths
  exact ⟨hp, q, past, hq, hdepth, hgrammar, hdiagnostics, hlines, hpast, Option.some.inj hdepths,
    fun m hm => (hwithin m hm).1⟩

end LetLang
