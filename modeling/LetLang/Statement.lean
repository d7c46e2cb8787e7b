import LetLang.Expression

/-!
# Statements

A binding is `let`, a name, `=`, an expression and a semicolon; an expression statement is an
expression and a semicolon.  The first token decides which of the two is read: the grammar may give it a
rule of its own, and every other token opens an expression statement.

A statement opened by a rule of its own fails with one diagnostic.  An expression statement tried for
want of a rule fails with two: first what was wrong in the expression, and then that no statement
starts with the token at which reading stopped.
-/

namespace LetLang

open TokenStream Parse

/-- Why a statement was rejected: `error` in the end, after what was noted on the way. -/
structure Rejection where
  noted : List Diagnostic
  error : Diagnostic
  deriving DecidableEq

/-- All diagnostics of a rejection, in the order in which they came. -/
def Rejection.diagnostics (r : Rejection) : List Diagnostic := r.noted ++ [r.error]

variable {σ : Type} [TokenStream σ]

/-! ## Algorithm -/

/-- Reads `let name = value;`. -/
def letStatement (g : Grammar) (room : Nat) : Parse Diagnostic σ Stmt := do
  let _ ← expect .letWord
  let name ← expect .identifier
  let _ ← expect .assignment
  let value ← expression g room .lowest
  let _ ← expect .semicolon
  pure (.letBinding name.text value)

/-- Reads `value;`. -/
def expressionStatement (g : Grammar) (room : Nat) : Parse Diagnostic σ Stmt := do
  let value ← expression g room .lowest
  let _ ← expect .semicolon
  pure (.expression value)

/-- Reads a statement by its rule. -/
def StatementRule.read (g : Grammar) (room : Nat) : StatementRule → Parse Diagnostic σ Stmt
  | .letBinding => letStatement g room
  | .expression => expressionStatement g room

/-- Reads the statement that the current token opens. -/
def statement (g : Grammar) (room : Nat) : Parse Rejection σ Stmt := do
  let t ← peek
  match g.statement t.kind with
  | some rule => (rule.read g room).restate fun e _ => ⟨[], e⟩
  | none => (expressionStatement g room).restate fun e t => ⟨[e], .invalidStatement t.kind⟩

/-! ## Lemmas -/

theorem statement_of_some {g : Grammar} {s : σ} {rule : StatementRule} (room : Nat)
    (h : g.statement (current s).kind = some rule) :
    statement g room s = (rule.read g room).restate (fun e _ => ⟨[], e⟩) s := by
  simp [statement, h]

theorem statement_of_none {g : Grammar} {s : σ} (room : Nat)
    (h : g.statement (current s).kind = none) :
    statement g room s =
      (expressionStatement g room).restate (fun e t => ⟨[e], .invalidStatement t.kind⟩) s := by
  simp [statement, h]

end LetLang
