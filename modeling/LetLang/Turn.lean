import LetLang.Event
import LetLang.Statement

/-!
# Turns

A source is read turn by turn until the end token shows.  A turn either keeps a statement or drops
one: then the diagnostics of the rejection go on record and one token, the one at which reading
stopped, is skipped, so that every turn moves on.

The turns of a source hold all there is to know about how it was read.  The program, the diagnostics,
the lines shown to the user and the events told on the way are views of the list of turns, and each
of them is put together turn by turn.

    programOf (ts ++ us) has the statements of ts, then those of us           (statementsOf_append)
    diagnosticsOf (ts ++ us) = diagnosticsOf ts ++ diagnosticsOf us           (diagnosticsOf_append)
-/

namespace LetLang

open TokenStream

/-- What a turn comes to. -/
inductive Verdict where
  /-- A statement was read. -/
  | kept (statement : Stmt)
  /-- A statement was rejected, and the token at which reading stopped was skipped. -/
  | dropped (diagnostics : List Diagnostic) (skipped : Token)
  deriving DecidableEq

/-- One turn: the token it started at, the tokens that came to be shown in the course of it, and what
it came to. -/
structure Turn where
  opening : Token
  seen : List Token
  verdict : Verdict
  deriving DecidableEq

namespace Turn

/-- The tokens that the turn moved past. -/
def taken (t : Turn) : List Token := (t.opening :: t.seen).dropLast

/-- The statement that the turn kept. -/
def statement? (t : Turn) : Option Stmt :=
  match t.verdict with
  | .kept statement => some statement
  | .dropped .. => none

def diagnostics (t : Turn) : List Diagnostic :=
  match t.verdict with
  | .kept _ => []
  | .dropped diagnostics _ => diagnostics

/-- The token that the turn skipped. -/
def skipped? (t : Turn) : Option Token :=
  match t.verdict with
  | .kept _ => none
  | .dropped _ skipped => some skipped

/-- What there is to tell of the turn. -/
def events (t : Turn) : List Event :=
  t.seen.map Event.token ++ (t.skipped?.map Event.dropped).toList

end Turn

/-! ## Views of a list of turns -/

def statementsOf (ts : List Turn) : List Stmt := ts.filterMap Turn.statement?

/-- The program that the turns kept. -/
def programOf (ts : List Turn) : Program := ⟨statementsOf ts⟩

def diagnosticsOf (ts : List Turn) : List Diagnostic := ts.flatMap Turn.diagnostics

/-- The lines shown to the user: the report of each diagnostic. -/
def linesOf (ts : List Turn) : List String := (diagnosticsOf ts).map Diagnostic.report

def eventsOf (ts : List Turn) : List Event := ts.flatMap Turn.events

/-! ## Algorithm -/

variable {σ : Type} [TokenStream σ]

/-- Takes one turn; `none` if it never ends. -/
def turn (g : Grammar) (room : Nat) (s : σ) : Option (Turn × σ) :=
  match statement g room (Logged.mk s []) with
  | .done stmt rest => some (⟨current s, rest.seen, .kept stmt⟩, rest.stream)
  | .failed rejection rest =>
    let after := advance rest
    some (⟨current s, after.seen, .dropped rejection.diagnostics (current rest)⟩, after.stream)
  | .endless => none

/-- Takes turns until the end token shows, at most so many. -/
def turnsUpTo (g : Grammar) (room : Nat) : Nat → σ → Option (List Turn × σ)
  | 0, s => some ([], s)
  | n + 1, s =>
    if (current s).kind = .eof then some ([], s)
    else
      match turn g room s with
      | none => none
      | some (t, rest) => (turnsUpTo g room n rest).map fun (ts, last) => (t :: ts, last)

/-- Takes turns until the end token shows.  Every turn uses up a token, so there are no more turns
than tokens left. -/
def turns (g : Grammar) (room : Nat) (s : σ) : Option (List Turn × σ) :=
  turnsUpTo g room (left s) s

/-! ## Lemmas -/

@[simp] theorem statementsOf_nil : statementsOf [] = [] := rfl

@[simp] theorem diagnosticsOf_nil : diagnosticsOf [] = [] := rfl

@[simp] theorem eventsOf_nil : eventsOf [] = [] := rfl

@[simp] theorem statementsOf_append (ts us : List Turn) :
    statementsOf (ts ++ us) = statementsOf ts ++ statementsOf us := by simp [statementsOf]

@[simp] theorem diagnosticsOf_append (ts us : List Turn) :
    diagnosticsOf (ts ++ us) = diagnosticsOf ts ++ diagnosticsOf us := by simp [diagnosticsOf]

@[simp] theorem eventsOf_append (ts us : List Turn) :
    eventsOf (ts ++ us) = eventsOf ts ++ eventsOf us := by simp [eventsOf]

end LetLang
