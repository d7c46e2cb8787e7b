/-!
# Syntax

The trees that source text is read into.  A program is a list of statements; a statement binds an
expression to a name or just holds one.  Names, digits and operators are kept as text, exactly as
they were written, and parentheses leave no trace in a tree.

Trees are written back as source: every operator with its operands stands in parentheses, so the
text shows the shape of the tree, and statements stand on lines of their own.

    (Expr.unary op x).render    = "(" op x ")"                                  (Expr.render_unary)
    (Expr.binary l op r).render = "(" l " " op " " r ")"                       (Expr.render_binary)
-/

namespace LetLang

/-- Expressions. -/
inductive Expr where
  | identifier (name : String)
  | integer (digits : String)
  | boolean (value : Bool)
  | unary (operator : String) (operand : Expr)
  | binary (left : Expr) (operator : String) (right : Expr)
  deriving DecidableEq, Inhabited

/-- Statements. -/
inductive Stmt where
  | letBinding (name : String) (value : Expr)
  | expression (value : Expr)
  deriving DecidableEq, Inhabited

/-- A program: its statements in the order of the source. -/
structure Program where
  statements : List Stmt
  deriving DecidableEq, Inhabited

/-! ## Rendering -/

/-- The source text of an expression. -/
def Expr.render : Expr → String
  | identifier name => name
  | integer digits => digits
  | boolean true => "true"
  | boolean false => "false"
  | unary operator operand => "(" ++ operator ++ operand.render ++ ")"
  | binary left operator right =>
    "(" ++ left.render ++ " " ++ operator ++ " " ++ right.render ++ ")"

/-- The source text of a statement, closed by a semicolon. -/
def Stmt.render : Stmt → String
  | letBinding name value => "let " ++ name ++ " = " ++ value.render ++ ";"
  | expression value => value.render ++ ";"

namespace Program

/-- The number of statements. -/
def size (p : Program) : Nat := p.statements.length

def isEmpty (p : Program) : Bool := p.statements.isEmpty

/-- The source text of a program, one statement a line, with no line break at the end. -/
def render (p : Program) : String := "\n".intercalate (p.statements.map Stmt.render)

end Program

/-! ## Lemmas -/

@[simp] theorem Expr.render_identifier (name : String) : (identifier name).render = name := rfl

@[simp] theorem Expr.render_integer (digits : String) : (integer digits).render = digits := rfl

@[simp] theorem Expr.render_boolean (value : Bool) :
    (boolean value).render = if value then "true" else "false" := by cases value <;> rfl

@[simp] theorem Expr.render_unary (operator : String) (operand : Expr) :
    (unary operator operand).render = "(" ++ operator ++ operand.render ++ ")" := rfl

@[simp] theorem Expr.render_binary (left : Expr) (operator : String) (right : Expr) :
    (binary left operator right).render =
      "(" ++ left.render ++ " " ++ operator ++ " " ++ right.render ++ ")" := rfl

@[simp] theorem Stmt.render_letBinding (name : String) (value : Expr) :
    (letBinding name value).render = "let " ++ name ++ " = " ++ value.render ++ ";" := rfl

@[simp] theorem Stmt.render_expression (value : Expr) :
    (expression value).render = value.render ++ ";" := rfl

@[simp] theorem Program.size_mk (statements : List Stmt) :
    (Program.mk statements).size = statements.length := rfl

end LetLang
