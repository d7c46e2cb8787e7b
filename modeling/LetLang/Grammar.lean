import LetLang.Token

/-!
# Grammars

A grammar says, kind by kind, what a token may do: open a statement, open an expression, or stand
between two operands.  Operators have a power, and an expression read above some bound takes in only
operators of greater power; kinds that are no operators count as `Power.lowest`, so they end every
expression.

`Grammar.standard` is the language: `let` opens a binding; names, digits, `true`, `false`, `-` and
`(` open an expression; `+` and `-` have the power of sums, `*` and `/` that of products.

    g.operatorAbove? bound k = some p ↔ g.operator k = some p ∧ bound < p        (operatorAbove?_eq_some_iff)
-/

namespace LetLang

/-- How tightly an operator holds its operands, loosest first. -/
inductive Power where
  | lowest
  | sum
  | product
  | unary
  deriving DecidableEq, Inhabited

namespace Power

def rank : Power → Nat
  | lowest => 0
  | sum => 1
  | product => 2
  | unary => 3

instance : LT Power := ⟨fun p q => p.rank < q.rank⟩

instance : LE Power := ⟨fun p q => p.rank ≤ q.rank⟩

instance (p q : Power) : Decidable (p < q) := inferInstanceAs (Decidable (p.rank < q.rank))

instance (p q : Power) : Decidable (p ≤ q) := inferInstanceAs (Decidable (p.rank ≤ q.rank))

theorem not_lt_lowest (p : Power) : ¬p < lowest := Nat.not_lt_zero _

end Power

/-- The ways in which an operand can be read from the token it starts with. -/
inductive OperandRule where
  /-- A name. -/
  | identifier
  /-- A run of digits. -/
  | integer
  /-- One token of any kind: true if it is the word `true`, false if not. -/
  | boolean
  /-- An operator and its one operand. -/
  | unary
  /-- An expression in parentheses. -/
  | group
  deriving DecidableEq, Inhabited

/-- The ways in which a statement can be read.  To choose among them by the first token is not one itself: a
table that gave it to a token would make it choose itself for ever. -/
inductive StatementRule where
  /-- `let name = value;` -/
  | letBinding
  /-- `value;` -/
  | expression
  deriving DecidableEq, Inhabited

/-- What each kind of token can open, and the power of those that are operators. -/
structure Grammar where
  statement : Kind → Option StatementRule
  operand : Kind → Option OperandRule
  operator : Kind → Option Power

namespace Grammar

/-- The grammar of the language. -/
def standard : Grammar where
  statement
    | .letWord => some .letBinding
    | _ => none
  operand
    | .identifier => some .identifier
    | .integer => some .integer
    | .trueWord => some .boolean
    | .falseWord => some .boolean
    | .dash => some .unary
    | .openParen => some .group
    | _ => none
  operator
    | .plus => some .sum
    | .dash => some .sum
    | .star => some .product
    | .slash => some .product
    | _ => none

/-! ## Changing a grammar -/

/-- Lets `kind` open a statement, read by `rule`. -/
def withStatement (g : Grammar) (kind : Kind) (rule : StatementRule) : Grammar :=
  { g with statement := fun k => if k = kind then some rule else g.statement k }

/-- Lets `kind` open an expression, its operand read by `rule`. -/
def withOperand (g : Grammar) (kind : Kind) (rule : OperandRule) : Grammar :=
  { g with operand := fun k => if k = kind then some rule else g.operand k }

/-- Makes `kind` an operator. -/
def withOperator (g : Grammar) (kind : Kind) (power : Power) : Grammar :=
  { g with operator := fun k => if k = kind then some power else g.operator k }

/-! ## Reading a grammar -/

/-- The power of a kind; the lowest for what is no operator. -/
def power (g : Grammar) (k : Kind) : Power := (g.operator k).getD .lowest

/-- The power of an operator that takes part in an expression read above `bound`. -/
def operatorAbove? (g : Grammar) (bound : Power) (k : Kind) : Option Power :=
  (g.operator k).filter (bound < ·)

/-- The end token can be taken for an operator and then for its right operand, again and again. -/
def extendsEnd (g : Grammar) : Bool := .lowest < g.power .eof ∧ g.operand .eof = some .boolean

/-- The kinds that open a statement of their own. -/
def statementKinds (g : Grammar) : List Kind := Kind.all.filter fun k => (g.statement k).isSome

/-- The kinds that open an expression. -/
def operandKinds (g : Grammar) : List Kind := Kind.all.filter fun k => (g.operand k).isSome

/-- The operators with their powers. -/
def operators (g : Grammar) : List (Kind × Power) :=
  Kind.all.filterMap fun k => (g.operator k).map fun p => (k, p)

/-! ## Lemmas -/

theorem operatorAbove?_eq_some_iff {g : Grammar} {bound p : Power} {k : Kind} :
    g.operatorAbove? bound k = some p ↔ g.operator k = some p ∧ bound < p := by
  simp [operatorAbove?, Option.filter_eq_some_iff]

/-- What takes part is what is more powerful than the bound. -/
theorem operatorAbove?_isSome_iff {g : Grammar} {bound : Power} {k : Kind} :
    (g.operatorAbove? bound k).isSome ↔ bound < g.power k := by
  unfold operatorAbove? power
  cases h : g.operator k with
  | none => simpa using Power.not_lt_lowest bound
  | some p => by_cases hb : bound < p <;> simp [Option.filter, hb]

theorem operatorAbove?_eq_none_of {g : Grammar} {k : Kind} (bound : Power)
    (h : g.operator k = none) : g.operatorAbove? bound k = none := by
  simp [operatorAbove?, h]

theorem mem_operators {g : Grammar} {k : Kind} {p : Power} :
    (k, p) ∈ g.operators ↔ g.operator k = some p := by
  simp [operators, Kind.mem_all]

end Grammar

end LetLang
