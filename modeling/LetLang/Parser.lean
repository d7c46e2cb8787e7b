import LetLang.Progress
import LetLang.Window

/-!
# Parsers

A parser is a stream with all that a session keeps beside it: the grammar, the depth of nesting, the
diagnostics on record, the lines shown to the user and the events told so far.  The diagnostics may
hold older ones, so several parsers can share one record.

Every way of reading is a `Parse` that `run` applies to the parser: the stream is left where the parse
stopped, and the tokens seen on the way are told as events.  `none` stands for a parse that never ends.

    reporting records and shows, and touches nothing else                 (Parser.reportAll_eq)
    what a whole parse adds comes from the turns taken                    (Parser.parse_eq_of_turns)
-/

namespace LetLang

open TokenStream

/-- A stream and the state of a session on it. -/
structure Parser (σ : Type) where
  stream : σ
  grammar : Grammar := .standard
  depth : Nat := 0
  diagnostics : Diagnostics := .empty
  lines : Array String := #[]
  events : Array Event := #[]

namespace Parser

/-- A parser of the standard grammar on a source, going on with a record of diagnostics. -/
def ofString (source : String) (diagnostics : Diagnostics) : Parser Window :=
  { stream := .ofString source, diagnostics }

/-- A parser on what a cursor has still to read; there is none inside a character. -/
def ofCursor? (c : Cursor) (diagnostics : Diagnostics) : Option (Parser Window) :=
  (Window.ofCursor? c).map fun stream => { stream, diagnostics }

variable {ε σ α : Type} [TokenStream σ]

/-! ## Looking -/

/-- The token shown. -/
def currentToken (p : Parser σ) : Token := current p.stream

def currentKind (p : Parser σ) : Kind := p.currentToken.kind

/-- The kind of the token after the current one. -/
def nextKind (p : Parser σ) : Kind := (current (advance p.stream)).kind

/-- The power of the current token. -/
def currentPower (p : Parser σ) : Power := p.grammar.power p.currentKind

/-- The levels of nesting still allowed. -/
def room (p : Parser σ) : Nat := nestingLimit - p.depth

/-! ## Single steps -/

/-- Puts a diagnostic on record and shows its report. -/
def report (p : Parser σ) (d : Diagnostic) : Parser σ :=
  { p with diagnostics := p.diagnostics.add d, lines := p.lines.push d.report }

/-- Reports several diagnostics in their order. -/
def reportAll (p : Parser σ) (ds : List Diagnostic) : Parser σ := ds.foldl report p

/-- Tells of several events in their order. -/
def tell (p : Parser σ) (es : List Event) : Parser σ := { p with events := p.events ++ es }

/-- Goes one level of nesting down, unless the limit is reached. -/
def enterNesting (p : Parser σ) : Except Diagnostic (Parser σ) :=
  if p.depth < nestingLimit then .ok { p with depth := p.depth + 1 }
  else .error (.nestingTooDeep nestingLimit)

/-- Goes one level of nesting up. -/
def exitNesting (p : Parser σ) : Parser σ := { p with depth := p.depth - 1 }

/-- Lets `kind` open a statement, read by `rule`. -/
def withStatement (p : Parser σ) (kind : Kind) (rule : StatementRule) : Parser σ :=
  { p with grammar := p.grammar.withStatement kind rule }

/-- Lets `kind` open an expression, its operand read by `rule`. -/
def withOperand (p : Parser σ) (kind : Kind) (rule : OperandRule) : Parser σ :=
  { p with grammar := p.grammar.withOperand kind rule }

/-- Makes `kind` an operator. -/
def withOperator (p : Parser σ) (kind : Kind) (power : Power) : Parser σ :=
  { p with grammar := p.grammar.withOperator kind power }

/-! ## Running a parse -/

/-- The parser where a parse has left its stream. -/
def resume (p : Parser σ) (s : Logged σ) : Parser σ :=
  { p with stream := s.stream }.tell (s.seen.map Event.token)

/-- Applies a parse; the answer is its value or its error, and the parser afterwards. -/
def run (p : Parser σ) (f : Parse ε (Logged σ) α) : Option (Except ε α × Parser σ) :=
  match f ⟨p.stream, []⟩ with
  | .done a rest => some (.ok a, p.resume rest)
  | .failed e rest => some (.error e, p.resume rest)
  | .endless => none

/-- Moves on, and gives the token moved past. -/
def advance (p : Parser σ) : Token × Parser σ :=
  (p.currentToken, p.resume (TokenStream.advance ⟨p.stream, []⟩))

/-- Moves past a token of the kind expected; stays at any other. -/
def expect (p : Parser σ) (kind : Kind) : Except Diagnostic Token × Parser σ :=
  if p.currentKind = kind then (.ok p.currentToken, p.advance.2)
  else (.error (.unexpectedToken kind p.currentKind p.currentToken.text), p)

/-- Reads an operand by a rule, whatever token opens it. -/
def parseOperand (p : Parser σ) (rule : OperandRule) : Option (Except Diagnostic Expr × Parser σ) :=
  p.run (rule.read (expression p.grammar p.room))

/-- Takes the current token for an operator of the given power, and reads its right operand. -/
def parseOperation (p : Parser σ) (left : Expr) (power : Power) :
    Option (Except Diagnostic Expr × Parser σ) :=
  p.run (operation (expression p.grammar p.room) power left)

/-- Reads an expression of operators above `bound`. -/
def parseExpression (p : Parser σ) (bound : Power) :
    Option (Except Diagnostic Expr × Parser σ) :=
  p.run (expression p.grammar p.room bound)

/-- Reads a binding, whatever token opens it. -/
def parseLetStatement (p : Parser σ) : Option (Except Diagnostic Stmt × Parser σ) :=
  p.run (letStatement p.grammar p.room)

/-- Reads an expression statement, whatever token opens it. -/
def parseExpressionStatement (p : Parser σ) : Option (Except Diagnostic Stmt × Parser σ) :=
  p.run (expressionStatement p.grammar p.room)

/-- Reads the statement that the current token opens.  What is noted on the way to a rejection is
reported here; the last diagnostic is left to the caller. -/
def parseStatement (p : Parser σ) : Option (Except Diagnostic Stmt × Parser σ) :=
  match p.run (statement p.grammar p.room) with
  | none => none
  | some (.ok stmt, q) => some (.ok stmt, q)
  | some (.error rejection, q) => some (.error rejection.error, q.reportAll rejection.noted)

/-! ## Whole sources -/

/-- Reads statements until the end token shows, and tells how many were kept and how many diagnostics
are on record. -/
def parse (p : Parser σ) : Option (Program × Parser σ) :=
  match turns p.grammar p.room p.stream with
  | none => none
  | some (ts, last) =>
    let q := ({ p with stream := last }.reportAll (diagnosticsOf ts)).tell (eventsOf ts)
    some (programOf ts, q.tell [.finished (programOf ts).size q.diagnostics.size])

/-- What a user sees who is shown every line. -/
def console (p : Parser σ) : String := String.join (p.lines.toList.map (· ++ "\n"))

end Parser

/-! ## Lemmas -/

namespace Parser

variable {ε σ α : Type}

/-- Reporting is recording and showing, and touches nothing else. -/
theorem reportAll_eq (p : Parser σ) (ds : List Diagnostic) :
    p.reportAll ds =
      { p with
        diagnostics := p.diagnostics.addAll ds
        lines := p.lines ++ ds.map Diagnostic.report } := by
  induction ds generalizing p with
  | nil => simp [reportAll, Diagnostics.addAll]
  | cons d ds ih =>
    have h := ih (p.report d)
    simp only [reportAll, List.foldl_cons] at h ⊢
    rw [h]
    simp [report, Diagnostics.addAll]

@[simp] theorem stream_reportAll (p : Parser σ) (ds : List Diagnostic) :
    (p.reportAll ds).stream = p.stream := by rw [reportAll_eq]

@[simp] theorem grammar_reportAll (p : Parser σ) (ds : List Diagnostic) :
    (p.reportAll ds).grammar = p.grammar := by rw [reportAll_eq]

@[simp] theorem depth_reportAll (p : Parser σ) (ds : List Diagnostic) :
    (p.reportAll ds).depth = p.depth := by rw [reportAll_eq]

@[simp] theorem events_reportAll (p : Parser σ) (ds : List Diagnostic) :
    (p.reportAll ds).events = p.events := by rw [reportAll_eq]

@[simp] theorem toList_diagnostics_reportAll (p : Parser σ) (ds : List Diagnostic) :
    (p.reportAll ds).diagnostics.toList = p.diagnostics.toList ++ ds := by
  rw [reportAll_eq, Diagnostics.toList_addAll]

@[simp] theorem toList_lines_reportAll (p : Parser σ) (ds : List Diagnostic) :
    (p.reportAll ds).lines.toList = p.lines.toList ++ ds.map Diagnostic.report := by
  rw [reportAll_eq]; simp

@[simp] theorem toList_events_tell (p : Parser σ) (es : List Event) :
    (p.tell es).events.toList = p.events.toList ++ es := by simp [tell]

/-- A level of nesting is entered just where room is left for one, and takes it up. -/
theorem enterNesting_eq_ok_iff (p q : Parser σ) :
    p.enterNesting = .ok q ↔ 0 < p.room ∧ q = { p with depth := p.depth + 1 } := by
  unfold enterNesting room
  by_cases h : p.depth < nestingLimit
  · rw [if_pos h]
    constructor
    · rintro ⟨rfl⟩
      exact ⟨by omega, rfl⟩
    · rintro ⟨_, rfl⟩
      rfl
  · rw [if_neg h]
    constructor
    · intro h'
      cases h'
    · rintro ⟨h', _⟩
      omega

variable [TokenStream σ]

/-- Moving on is the plainest parse. -/
theorem run_next (p : Parser σ) :
    p.run (Parse.next : Parse ε (Logged σ) Token) = some (.ok p.advance.1, p.advance.2) := rfl

/-- The step `expect` is the parse of that name. -/
theorem run_expect (p : Parser σ) (kind : Kind) :
    p.run (Parse.expect kind) = some (p.expect kind) := by
  by_cases h : p.currentKind = kind
  · have hc : (current (Logged.mk p.stream [])).kind = kind := h
    rw [run, Parse.expect_of_kind_eq hc, expect, if_pos h]
    rfl
  · have hc : (current (Logged.mk p.stream [])).kind ≠ kind := h
    rw [run, Parse.expect_of_kind_ne hc, expect, if_neg h]
    simp [resume, tell, currentKind, currentToken]

/-- A whole parse in one view: everything it adds comes from the turns taken. -/
theorem parse_eq_of_turns {p : Parser σ} {ts : List Turn} {last : σ}
    (h : turns p.grammar p.room p.stream = some (ts, last)) :
    ∃ q, p.parse = some (programOf ts, q) ∧ q.stream = last ∧ q.grammar = p.grammar ∧
      q.depth = p.depth ∧ q.diagnostics.toList = p.diagnostics.toList ++ diagnosticsOf ts ∧
      q.lines.toList = p.lines.toList ++ linesOf ts ∧
      q.events.toList = p.events.toList ++ eventsOf ts ++
        [.finished (programOf ts).size q.diagnostics.size] := by
  unfold parse
  rw [h]
  exact ⟨_, rfl, by simp [tell], by simp [tell], by simp [tell], by simp [tell],
    by simp [tell, linesOf], by simp [tell]⟩

end Parser

end LetLang
