import LetLang.Token

/-!
# Diagnostics

A diagnostic says what kept a statement from being read.  Its message names kinds of tokens only; the
tip, where there is one, may quote the text of the offending token.  The report is the line shown
to a user: the message, followed by the tip in parentheses.

`Diagnostics` is the record of a session.  It only grows, and it keeps the order in which the
diagnostics came.

    (ds.add d).toList = ds.toList ++ [d]                                  (Diagnostics.toList_add)
    d.report = d.message, or d.message ++ " (" ++ tip ++ ")"               (Diagnostic.report)
-/

namespace LetLang

/-- What went wrong in a statement. -/
inductive Diagnostic where
  /-- A certain kind of token had to come next, and another one, with this text, did. -/
  | unexpectedToken (expected found : Kind) (text : String)
  /-- No expression starts with a token of this kind. -/
  | noOperand (kind : Kind) (text : String)
  /-- No statement starts with a token of this kind. -/
  | invalidStatement (kind : Kind)
  /-- The expression is nested more than `limit` levels deep. -/
  | nestingTooDeep (limit : Nat)
  deriving DecidableEq, Inhabited

namespace Diagnostic

/-- The name of the sort of diagnostic. -/
def name : Diagnostic → String
  | unexpectedToken .. => "UnexpectedToken"
  | noOperand .. => "NoPrefixHandler"
  | invalidStatement .. => "InvalidStatement"
  | nestingTooDeep .. => "NestingTooDeep"

/-- The message, in one line and without any text of the source. -/
def message : Diagnostic → String
  | unexpectedToken expected found _ => "expected " ++ expected.name ++ ", found " ++ found.name
  | noOperand kind _ => "no prefix handler for " ++ kind.name
  | invalidStatement kind => "no statement starts with " ++ kind.name
  | nestingTooDeep limit => "expression nesting exceeds " ++ toString limit ++ " levels"

/-- A hint at how to mend the source. -/
def tip? : Diagnostic → Option String
  | unexpectedToken .semicolon _ text =>
    some ("Unexpected token: `" ++ text ++ "`, did you miss a semicolon?")
  | unexpectedToken .closeParen _ _ => some "Unclosed `(` in expression"
  | unexpectedToken .. => none
  | noOperand .illegal text => some ("Unrecognised character `" ++ text ++ "`")
  | noOperand .eof _ => some "Source ended where an expression was expected"
  | noOperand _ text => some ("`" ++ text ++ "` cannot start an expression")
  | invalidStatement _ => none
  | nestingTooDeep _ => some "Split the expression with intermediate `let` bindings"

/-- The message, followed by the tip if there is one. -/
def report (d : Diagnostic) : String :=
  match d.tip? with
  | none => d.message
  | some tip => d.message ++ " (" ++ tip ++ ")"

/-- A report starts with its message. -/
theorem exists_report_eq (d : Diagnostic) : ∃ rest, d.report = d.message ++ rest := by
  unfold report
  split
  · exact ⟨"", by simp⟩
  · next tip _ => exact ⟨" (" ++ tip ++ ")", by simp [String.append_assoc]⟩

end Diagnostic

/-! ## The record of a session -/

/-- Diagnostics in the order in which they came. -/
structure Diagnostics where
  entries : Array Diagnostic := #[]
  deriving DecidableEq, Inhabited

namespace Diagnostics

def empty : Diagnostics := {}

def ofList (ds : List Diagnostic) : Diagnostics := ⟨ds.toArray⟩

/-- The diagnostics as a list, oldest first. -/
def toList (ds : Diagnostics) : List Diagnostic := ds.entries.toList

/-- Puts one more diagnostic on record. -/
def add (ds : Diagnostics) (d : Diagnostic) : Diagnostics := ⟨ds.entries.push d⟩

/-- Puts several more on record, in their order. -/
def addAll (ds : Diagnostics) (more : List Diagnostic) : Diagnostics := more.foldl add ds

def size (ds : Diagnostics) : Nat := ds.entries.size

def isEmpty (ds : Diagnostics) : Bool := ds.entries.isEmpty

/-- The messages, one for each diagnostic. -/
def messages (ds : Diagnostics) : List String := ds.toList.map Diagnostic.message

/-- The messages as one text, each closed by a line break. -/
def display (ds : Diagnostics) : String := String.join (ds.messages.map (· ++ "\n"))

/-! ## Lemmas -/

@[simp] theorem toList_add (ds : Diagnostics) (d : Diagnostic) :
    (ds.add d).toList = ds.toList ++ [d] := by simp [toList, add]

@[simp] theorem toList_addAll (ds : Diagnostics) (more : List Diagnostic) :
    (ds.addAll more).toList = ds.toList ++ more := by
  induction more generalizing ds with
  | nil => simp [addAll]
  | cons d more ih =>
    have h := ih (ds.add d)
    rw [toList_add, List.append_assoc] at h
    exact h

@[simp] theorem length_toList (ds : Diagnostics) : ds.toList.length = ds.size := by
  simp [toList, size]

theorem toList_inj {ds es : Diagnostics} : ds.toList = es.toList ↔ ds = es := by
  cases ds; cases es; simp [toList]

end Diagnostics

end LetLang
