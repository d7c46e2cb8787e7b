import LetLang.Syntax
import LetLang.Proofs.Concatenation
import LetLang.Proofs.Stratified

/-!
# Tokens of a rendering

A tree is well formed if its names, digits and operators are such as a source can hold.  The rendering
of a well-formed tree has the tokens that one expects: no two pieces of the text run into each other,
and no name is taken for a keyword.  An expression is one parenthesised phrase, nested as deep as the
shape of the tree needs.

    e.need                      the levels of nesting that the rendering takes up
    scanAll p.render.toList = p.statements.flatMap Stmt.tokens                  (Program.scanAll_render)
    Derives .atom e.need e.tokens e                                             (Expr.WellFormed.derives)
-/

namespace LetLang

/-! ## Well-formed trees -/

def IsName (name : String) : Prop :=
  name ≠ "" ∧ name.toList.all isWordChar ∧ name ≠ "let" ∧ name ≠ "true" ∧ name ≠ "false"

def IsDigits (digits : String) : Prop := digits ≠ "" ∧ digits.toList.all Char.isDigit

def IsOperator (operator : String) : Prop :=
  operator = "+" ∨ operator = "-" ∨ operator = "*" ∨ operator = "/"

namespace Expr

def WellFormed : Expr → Prop
  | identifier name => IsName name
  | integer digits => IsDigits digits
  | boolean _ => True
  | unary operator operand => operator = "-" ∧ operand.WellFormed
  | binary left operator right => left.WellFormed ∧ IsOperator operator ∧ right.WellFormed

/-- The levels of nesting that the rendering takes up.  Parentheses take one, a sign and the place of a
right operand one more. -/
def need : Expr → Nat
  | identifier _ => 1
  | integer _ => 1
  | boolean _ => 1
  | unary _ operand => 2 + operand.need
  | binary left _ right => max (1 + left.need) (2 + right.need)

end Expr

namespace Stmt

/-- The expression of the statement. -/
def value : Stmt → Expr
  | letBinding _ value => value
  | expression value => value

def WellFormed : Stmt → Prop
  | letBinding name value => IsName name ∧ value.WellFormed
  | expression value => value.WellFormed

end Stmt

def Program.WellFormed (p : Program) : Prop := ∀ stmt ∈ p.statements, stmt.WellFormed

instance (name : String) : Decidable (IsName name) :=
  inferInstanceAs (Decidable (_ ∧ _ ∧ _ ∧ _ ∧ _))

instance (digits : String) : Decidable (IsDigits digits) := inferInstanceAs (Decidable (_ ∧ _))

instance (operator : String) : Decidable (IsOperator operator) :=
  inferInstanceAs (Decidable (_ ∨ _ ∨ _ ∨ _))

def Expr.decidableWellFormed : (e : Expr) → Decidable e.WellFormed
  | identifier name => inferInstanceAs (Decidable (IsName name))
  | integer digits => inferInstanceAs (Decidable (IsDigits digits))
  | boolean _ => inferInstanceAs (Decidable True)
  | unary _ operand =>
    have := operand.decidableWellFormed
    inferInstanceAs (Decidable (_ ∧ operand.WellFormed))
  | binary left operator right =>
    have := left.decidableWellFormed
    have := right.decidableWellFormed
    inferInstanceAs (Decidable (left.WellFormed ∧ IsOperator operator ∧ right.WellFormed))

instance (e : Expr) : Decidable e.WellFormed := e.decidableWellFormed

instance (stmt : Stmt) : Decidable stmt.WellFormed :=
  match stmt with
  | .letBinding name value => inferInstanceAs (Decidable (IsName name ∧ value.WellFormed))
  | .expression value => inferInstanceAs (Decidable value.WellFormed)

instance (p : Program) : Decidable p.WellFormed :=
  inferInstanceAs (Decidable (∀ stmt ∈ p.statements, stmt.WellFormed))

/-! ## Tokens -/

def Kind.ofOperator (operator : String) : Kind :=
  if operator = "+" then .plus
  else if operator = "-" then .dash
  else if operator = "*" then .star
  else .slash

def operatorToken (operator : String) : Token := ⟨.ofOperator operator, operator⟩

def Expr.tokens : Expr → List Token
  | identifier name => [wordToken name]
  | integer digits => [digitsToken digits]
  | boolean true => [wordToken "true"]
  | boolean false => [wordToken "false"]
  | unary operator operand =>
    symbolToken '(' :: ((operatorToken operator :: operand.tokens) ++ [symbolToken ')'])
  | binary left operator right =>
    symbolToken '(' :: ((left.tokens ++ operatorToken operator :: right.tokens) ++ [symbolToken ')'])

def Stmt.tokens : Stmt → List Token
  | letBinding name value =>
    wordToken "let" :: wordToken name :: symbolToken '=' :: (value.tokens ++ [symbolToken ';'])
  | expression value => value.tokens ++ [symbolToken ';']

theorem scanAll_operator {operator : String} (h : IsOperator operator) (cs : List Char) :
    scanAll (operator.toList ++ cs) = operatorToken operator :: scanAll cs := by
  rcases h with rfl | rfl | rfl | rfl <;> exact scanAll_symbol (by decide) (by decide) cs

theorem scanAll_parenthesised (cs : List Char) :
    scanAll ('(' :: (cs ++ [')'])) = symbolToken '(' :: (scanAll cs ++ [symbolToken ')']) := by
  rw [scanAll_symbol (by decide) (by decide), scanAll_append_cons _ (by decide),
    scanAll_symbol (by decide) (by decide), scanAll_nil]

theorem Expr.scanAll_render {e : Expr} (h : e.WellFormed) : scanAll e.render.toList = e.tokens := by
  induction e with
  | identifier name => exact scanAll_word h.1 h.2.1
  | integer digits => exact scanAll_digits h.1 h.2
  | boolean value =>
    cases value with
    | true => exact scanAll_word (by decide) (by decide)
    | false => exact scanAll_word (by decide) (by decide)
  | unary operator operand ih =>
    have hoperator : IsOperator operator := .inr (.inl h.1)
    have htext : (unary operator operand).render.toList =
        '(' :: ((operator.toList ++ operand.render.toList) ++ [')']) := by simp
    rw [htext, scanAll_parenthesised, scanAll_operator hoperator, ih h.2]
    rfl
  | binary left operator right ihl ihr =>
    obtain ⟨hl, ho, hr⟩ := h
    have htext : (binary left operator right).render.toList =
        '(' :: ((left.render.toList ++ ' ' :: (operator.toList ++ ' ' :: right.render.toList)) ++
          [')']) := by simp
    rw [htext, scanAll_parenthesised, scanAll_append_cons _ (by decide), scanAll_blank (by decide),
      scanAll_operator ho, scanAll_blank (by decide), ihl hl, ihr hr]
    rfl

theorem Stmt.scanAll_render {stmt : Stmt} (h : stmt.WellFormed) :
    scanAll stmt.render.toList = stmt.tokens := by
  have hclose : ∀ e : Expr, e.WellFormed →
      scanAll (e.render.toList ++ [';']) = e.tokens ++ [symbolToken ';'] := by
    intro e he
    rw [scanAll_append_cons _ (by decide), scanAll_symbol (by decide) (by decide), scanAll_nil,
      Expr.scanAll_render he]
  cases stmt with
  | letBinding name value =>
    obtain ⟨hname, hvalue⟩ := h
    have htext : (letBinding name value).render.toList =
        "let".toList ++ ' ' :: (name.toList ++ ' ' :: '=' :: ' ' ::
          (value.render.toList ++ [';'])) := by simp
    rw [htext, scanAll_append_cons _ (by decide), scanAll_word (by decide) (by decide),
      scanAll_blank (by decide), scanAll_append_cons _ (by decide), scanAll_word hname.1 hname.2.1,
      scanAll_blank (by decide), scanAll_symbol (by decide) (by decide), scanAll_blank (by decide),
      hclose value hvalue]
    rfl
  | expression value =>
    have htext : (expression value).render.toList = value.render.toList ++ [';'] := by simp
    rw [htext, hclose value h]
    rfl

/-- The rendering of a well-formed program has the tokens of its statements. -/
theorem Program.scanAll_render {p : Program} (h : p.WellFormed) :
    scanAll p.render.toList = p.statements.flatMap Stmt.tokens := by
  obtain ⟨stmts⟩ := p
  induction stmts with
  | nil => exact scanAll_nil
  | cons stmt stmts ih =>
    obtain ⟨hstmt, hstmts⟩ := List.forall_mem_cons.1 h
    cases stmts with
    | nil =>
      show scanAll ("\n".intercalate [stmt.render]).toList = _
      rw [String.intercalate_singleton, Stmt.scanAll_render hstmt]
      simp
    | cons next rest =>
      have htext : (Program.mk (stmt :: next :: rest)).render.toList =
          stmt.render.toList ++ '\n' :: (Program.mk (next :: rest)).render.toList := by
        simp [Program.render]
      rw [htext, scanAll_append_cons _ (by decide), scanAll_blank (by decide),
        Stmt.scanAll_render hstmt, ih hstmts]
      rfl

/-! ## Derivations -/

theorem Expr.WellFormed.derives {e : Expr} (h : e.WellFormed) :
    Derives .atom e.need e.tokens e := by
  induction e with
  | identifier name =>
    exact .identifier ((Kind.ofWord_eq_identifier_iff name).2 h.2.2)
  | integer digits => exact .integer rfl
  | boolean value =>
    cases value with
    | true => exact .trueWord rfl
    | false => exact .falseWord rfl
  | unary operator operand ih =>
    obtain ⟨rfl, hoperand⟩ := h
    have hneed : (unary "-" operand).need = operand.need + 1 + 1 := by
      show 2 + operand.need = _
      omega
    rw [hneed]
    exact .group rfl rfl
      (.sumOfProduct (.productOfSigned (.negation rfl (.signedOfAtom (ih hoperand)))))
  | binary left operator right ihl ihr =>
    obtain ⟨hl, ho, hr⟩ := h
    have hneed : (binary left operator right).need = max left.need (right.need + 1) + 1 := by
      show max (1 + left.need) (2 + right.need) = _
      omega
    have hleft := ihl hl
    have hright := Derives.signedOfAtom (ihr hr)
    rw [hneed]
    apply Derives.group rfl rfl
    rcases ho with rfl | rfl | rfl | rfl
    · exact .addition (.inl rfl) (hleft.widen (by decide)) (.productOfSigned hright)
    · exact .addition (.inr rfl) (hleft.widen (by decide)) (.productOfSigned hright)
    · exact .sumOfProduct (.multiplication (.inl rfl) (hleft.widen (by decide)) hright)
    · exact .sumOfProduct (.multiplication (.inr rfl) (hleft.widen (by decide)) hright)

theorem Stmt.WellFormed.derives {stmt : Stmt} (h : stmt.WellFormed) :
    DerivesStatement stmt.value.need stmt.tokens stmt := by
  cases stmt with
  | letBinding name value =>
    exact .letBinding rfl ((Kind.ofWord_eq_identifier_iff name).2 h.1.2.2) rfl
      (h.2.derives.widen (by decide)) rfl
  | expression value => exact .expression (Expr.WellFormed.derives h |>.widen (by decide)) rfl

end LetLang
