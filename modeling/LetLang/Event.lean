import LetLang.Token

/-!
# Events

What a parser tells about its work while it goes along: each token that it comes to look at, each
statement that it drops, and a closing summary.
-/

namespace LetLang

/-- Something worth telling. -/
inductive Event where
  /-- The parser has moved on to this token. -/
  | token (t : Token)
  /-- A statement was dropped, and this token skipped. -/
  | dropped (skipped : Token)
  /-- The end was reached, with so many statements kept and so many diagnostics on record. -/
  | finished (statements diagnostics : Nat)
  deriving DecidableEq

namespace Event

/-- How closely one has to follow the parser to be told. -/
def level : Event → String
  | token _ => "TRACE"
  | dropped _ => "DEBUG"
  | finished .. => "DEBUG"

def message : Event → String
  | token _ => "token"
  | dropped _ => "dropped statement, skipping token"
  | finished .. => "parse finished"

end Event

end LetLang
