import LetLang.Diagnostic
import LetLang.Stream

/-!
# Parses

A parse reads from a token stream.  It comes to a value, it fails with an error, and in both cases it
leaves the stream where it stopped; or it goes round for ever without moving on, which is an outcome
of its own.  Parses are put together in sequence, and the first failure ends a sequence.

    expect k on a token of kind k    is that token, with the stream moved on       (expect_of_kind_eq)
    expect k on any other token      fails and leaves the stream as it is          (expect_of_kind_ne)
-/

namespace LetLang

open TokenStream

/-- What a parse comes to. -/
inductive Outcome (ε σ α : Type) where
  /-- It read a value and left `rest`. -/
  | done (value : α) (rest : σ)
  /-- It failed, and left `rest`. -/
  | failed (error : ε) (rest : σ)
  /-- It never ends. -/
  | endless
  deriving DecidableEq

/-- A way of reading an `α` off a stream, with errors in `ε`. -/
def Parse (ε σ α : Type) : Type := σ → Outcome ε σ α

namespace Outcome

variable {ε σ α β : Type}

/-- Goes on with `next` after success. -/
def andThen (o : Outcome ε σ α) (next : α → Parse ε σ β) : Outcome ε σ β :=
  match o with
  | done a rest => next a rest
  | failed e rest => failed e rest
  | endless => endless

@[simp] theorem andThen_done (a : α) (rest : σ) (next : α → Parse ε σ β) :
    (done a rest : Outcome ε σ α).andThen next = next a rest := rfl

@[simp] theorem andThen_failed (e : ε) (rest : σ) (next : α → Parse ε σ β) :
    (failed e rest : Outcome ε σ α).andThen next = failed e rest := rfl

@[simp] theorem andThen_endless (next : α → Parse ε σ β) :
    (endless : Outcome ε σ α).andThen next = endless := rfl

end Outcome

/-! ## Algorithm -/

namespace Parse

variable {ε ε' σ α β : Type}

instance : Monad (Parse ε σ) where
  pure a s := .done a s
  bind p next s := (p s).andThen next

/-- Fails on the spot. -/
def fail (e : ε) : Parse ε σ α := fun s => .failed e s

/-- Never ends. -/
def endless : Parse ε σ α := fun _ => .endless

variable [TokenStream σ]

/-- The token shown, which stays in place. -/
def peek : Parse ε σ Token := fun s => .done (current s) s

/-- The token shown; the stream moves on. -/
def next : Parse ε σ Token := fun s => .done (current s) (advance s)

/-- At least as many as there are tokens left. -/
def countLeft : Parse ε σ Nat := fun s => .done (left s) s

/-- The token shown if it is of the kind expected; any other stays in place and is a failure. -/
def expect (kind : Kind) : Parse Diagnostic σ Token := do
  let t ← peek
  if t.kind = kind then next else fail (.unexpectedToken kind t.kind t.text)

/-- Restates an error in view of the token at which the parse stopped. -/
def restate (f : ε → Token → ε') (p : Parse ε σ α) : Parse ε' σ α := fun s =>
  match p s with
  | .done a rest => .done a rest
  | .failed e rest => .failed (f e (current rest)) rest
  | .endless => .endless

end Parse

/-! ## Lemmas -/

namespace Parse

variable {ε ε' σ α β : Type}

@[simp] theorem pure_apply (a : α) (s : σ) : (pure a : Parse ε σ α) s = .done a s := rfl

@[simp] theorem bind_apply (p : Parse ε σ α) (next : α → Parse ε σ β) (s : σ) :
    (p >>= next) s = (p s).andThen next := rfl

@[simp] theorem fail_apply (e : ε) (s : σ) : (fail e : Parse ε σ α) s = .failed e s := rfl

@[simp] theorem endless_apply (s : σ) : (endless : Parse ε σ α) s = .endless := rfl

variable [TokenStream σ]

@[simp] theorem peek_apply (s : σ) : (peek : Parse ε σ Token) s = .done (current s) s := rfl

@[simp] theorem next_apply (s : σ) :
    (next : Parse ε σ Token) s = .done (current s) (advance s) := rfl

@[simp] theorem countLeft_apply (s : σ) : (countLeft : Parse ε σ Nat) s = .done (left s) s := rfl

theorem expect_of_kind_eq {kind : Kind} {s : σ} (h : (current s).kind = kind) :
    expect kind s = .done (current s) (advance s) := by
  simp [expect, h]

theorem expect_of_kind_ne {kind : Kind} {s : σ} (h : (current s).kind ≠ kind) :
    expect kind s = .failed (.unexpectedToken kind (current s).kind (current s).text) s := by
  simp [expect, h]

end Parse

end LetLang
