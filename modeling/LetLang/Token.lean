/-!
# Tokens

A token is a kind and the source text it was read from.  Fifteen kinds cover the language: names,
integer literals, eight symbols, three keywords, the end of the source, and `illegal` for every
character that belongs nowhere.

    Kind.ofWord w = .identifier ↔ w is none of let, true, false      (Kind.ofWord_eq_identifier_iff)
-/

namespace LetLang

/-- What a token is. -/
inductive Kind where
  | illegal
  | eof
  | identifier
  | integer
  | openParen
  | closeParen
  | assignment
  | semicolon
  | plus
  | dash
  | slash
  | star
  | letWord
  | trueWord
  | falseWord
  deriving DecidableEq, Inhabited

namespace Kind

/-- Every kind, in the order in which tables list them. -/
def all : List Kind :=
  [illegal, eof, identifier, integer, openParen, closeParen, assignment, semicolon,
    plus, dash, slash, star, letWord, trueWord, falseWord]

/-- The name that diagnostics call a kind by. -/
def name : Kind → String
  | illegal => "Illegal"
  | eof => "EOF"
  | identifier => "Identifier"
  | integer => "Integer"
  | openParen => "OpenParen"
  | closeParen => "CloseParen"
  | assignment => "Assignment"
  | semicolon => "Semicolon"
  | plus => "Plus"
  | dash => "Dash"
  | slash => "Slash"
  | star => "Star"
  | letWord => "Let"
  | trueWord => "True"
  | falseWord => "False"

/-- The kind with a given name. -/
def ofName? (s : String) : Option Kind := all.find? (·.name = s)

/-- The kind of a word: one of the three keywords, or else a name. -/
def ofWord (word : String) : Kind :=
  if word = "let" then letWord
  else if word = "true" then trueWord
  else if word = "false" then falseWord
  else identifier

/-- The kind of a character that forms a token by itself. -/
def ofSymbol : Char → Kind
  | ';' => semicolon
  | '=' => assignment
  | '+' => plus
  | '-' => dash
  | '*' => star
  | '/' => slash
  | '(' => openParen
  | ')' => closeParen
  | _ => illegal

theorem mem_all (k : Kind) : k ∈ all := by cases k <;> decide

theorem name_injective : ∀ j k : Kind, j.name = k.name → j = k := by
  intro j k; cases j <;> cases k <;> decide

theorem ofName?_name (k : Kind) : ofName? k.name = some k := by cases k <;> decide

theorem ofWord_eq_identifier_iff (w : String) :
    ofWord w = identifier ↔ w ≠ "let" ∧ w ≠ "true" ∧ w ≠ "false" := by
  unfold ofWord
  split
  · simp [*]
  · split
    · simp [*]
    · split <;> simp [*]

theorem ofWord_ne_eof (w : String) : ofWord w ≠ eof := by
  unfold ofWord; repeat' split
  all_goals decide

theorem ofSymbol_ne_eof (c : Char) : ofSymbol c ≠ eof := by
  unfold ofSymbol; split <;> decide

end Kind

/-- A kind together with the exact source text it was read from. -/
structure Token where
  kind : Kind
  text : String
  deriving DecidableEq, Inhabited

namespace Token

/-- The token that stands for the end of the source; its text is empty. -/
def eof : Token := ⟨.eof, ""⟩

@[simp] theorem kind_eof : eof.kind = .eof := rfl

/-- A token written out over three lines. -/
def display (t : Token) : String :=
  "Token \x7b\nkind: " ++ t.kind.name ++ ",\nvalue: " ++ t.text ++ "\x7d"

end Token

end LetLang
