import LetLang.Grammar
import LetLang.Parse
import LetLang.Syntax

/-!
# Expressions

An expression is an operand, followed by operators with their right operands as long as the operators
are more powerful than the bound that the expression is read above.  The right operand of an operator
is an expression above that operator's own power; so the more powerful operator takes its operands
first, and of two equally powerful ones the left.

Expressions nest: the operand of a unary operator, the inside of a group and every right operand are
expressions one level down.  `room` counts the levels still allowed, and with no room left an
expression fails at its first token.

An operator standing at the end of the stream could be taken again and again.  `operations` therefore
gets a number of rounds, one more than there can be tokens left; when they are used up the stream has
come to its end without anything to stop at, and the parse is endless.
-/

namespace LetLang

open TokenStream Parse

/-- The most levels that expressions may be nested. -/
def nestingLimit : Nat := 256

variable {σ : Type} [TokenStream σ]

/-! ## Algorithm -/

/-- Reads an operand by its rule; `nested` reads the expressions inside it. -/
def OperandRule.read (nested : Power → Parse Diagnostic σ Expr) :
    OperandRule → Parse Diagnostic σ Expr
  | .identifier => do
    let name ← expect .identifier
    pure (.identifier name.text)
  | .integer => do
    let digits ← expect .integer
    pure (.integer digits.text)
  | .boolean => do
    let word ← next
    pure (.boolean (word.kind = .trueWord))
  | .unary => do
    let operator ← next
    let operand ← nested .unary
    pure (.unary operator.text operand)
  | .group => do
    let _ ← expect .openParen
    let inside ← nested .lowest
    let _ ← expect .closeParen
    pure inside

/-- Reads an operator of the given power and its right operand, the left one being known. -/
def operation (nested : Power → Parse Diagnostic σ Expr) (power : Power) (left : Expr) :
    Parse Diagnostic σ Expr := do
  let operator ← next
  let right ← nested power
  pure (.binary left operator.text right)

/-- Takes in operators above `bound`, in at most so many rounds. -/
def operations (g : Grammar) (nested : Power → Parse Diagnostic σ Expr) (bound : Power) :
    Nat → Expr → Parse Diagnostic σ Expr
  | 0, left => do
    let t ← peek
    match g.operatorAbove? bound t.kind with
    | none => pure left
    | some _ => endless
  | rounds + 1, left => do
    let t ← peek
    match g.operatorAbove? bound t.kind with
    | none => pure left
    | some power => do
      let longer ← operation nested power left
      operations g nested bound rounds longer

/-- Reads the operand that the current token opens. -/
def operand (g : Grammar) (nested : Power → Parse Diagnostic σ Expr) :
    Parse Diagnostic σ Expr := do
  let t ← peek
  match g.operand t.kind with
  | none => fail (.noOperand t.kind t.text)
  | some rule => rule.read nested

/-- Reads an expression of operators above `bound`, with `room` levels left for it. -/
def expression (g : Grammar) : (room : Nat) → (bound : Power) → Parse Diagnostic σ Expr
  | 0, _ => fail (.nestingTooDeep nestingLimit)
  | room + 1, bound => do
    let first ← operand g (expression g room)
    let rounds ← countLeft
    operations g (expression g room) bound (rounds + 1) first

/-! ## Lemmas -/

theorem expression_succ (g : Grammar) (room : Nat) (bound : Power) (s : σ) :
    expression g (room + 1) bound s =
      (operand g (expression g room) s).andThen fun first rest =>
        operations g (expression g room) bound (left rest + 1) first rest := rfl

theorem operand_of_none {g : Grammar} {s : σ} (nested : Power → Parse Diagnostic σ Expr)
    (h : g.operand (current s).kind = none) :
    operand g nested s = .failed (.noOperand (current s).kind (current s).text) s := by
  simp [operand, h]

theorem operand_of_some {g : Grammar} {s : σ} {rule : OperandRule}
    (nested : Power → Parse Diagnostic σ Expr) (h : g.operand (current s).kind = some rule) :
    operand g nested s = rule.read nested s := by
  simp [operand, h]

/-- Where no operator above the bound stands, the expression is complete. -/
theorem operations_of_none {g : Grammar} {bound : Power} {s : σ}
    (nested : Power → Parse Diagnostic σ Expr) (rounds : Nat) (l : Expr)
    (h : g.operatorAbove? bound (current s).kind = none) :
    operations g nested bound rounds l s = .done l s := by
  cases rounds <;> simp [operations, h]

theorem operations_of_some {g : Grammar} {bound power : Power} {s : σ}
    (nested : Power → Parse Diagnostic σ Expr) (rounds : Nat) (l : Expr)
    (h : g.operatorAbove? bound (current s).kind = some power) :
    operations g nested bound (rounds + 1) l s =
      (operation nested power l s).andThen fun longer rest =>
        operations g nested bound rounds longer rest := by
  simp [operations, h]

theorem operation_apply (nested : Power → Parse Diagnostic σ Expr) (power : Power) (l : Expr)
    (s : σ) :
    operation nested power l s =
      (nested power (advance s)).andThen fun r rest =>
        .done (.binary l (current s).text r) rest := rfl

end LetLang
