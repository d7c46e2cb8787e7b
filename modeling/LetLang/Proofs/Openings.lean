import LetLang.Proofs.Precedence

/-!
# Openings

Tokens are an opening of a sentence if some tokens behind them complete it.  The sentences of a category
are its phrases, and no limit is set to how deep they are nested.  Wherever a part of a sentence may
stand, an opening of that part makes an opening of the whole: behind a sign, behind a parenthesis, behind a
left operand with its operator, behind the head of a binding.

    Opens P ts           some tokens behind ts make a sentence of P
    Phrase c, Sentence   the phrases of a category, the statements
    Derives.joined       an operator joins its operands, whatever its power
-/

namespace LetLang

/-- Some tokens behind `ts` make a sentence of `P`. -/
def Opens (P : List Token → Prop) (ts : List Token) : Prop := ∃ us, P (ts ++ us)

/-- The tokens are a phrase of the category, nested as deep as may be. -/
def Phrase (c : Category) (ts : List Token) : Prop := ∃ n e, Derives c n ts e

/-- The tokens are a statement, its expression nested as deep as may be. -/
def Sentence (ts : List Token) : Prop := ∃ n stmt, DerivesStatement n ts stmt

namespace Opens

variable {P Q : List Token → Prop} {ts us : List Token}

theorem of_sentence (h : P ts) : Opens P ts := ⟨[], by rwa [List.append_nil]⟩

/-- What stands at the front of an opening is one too. -/
theorem of_append (h : Opens P (ts ++ us)) : Opens P ts := by
  obtain ⟨vs, h⟩ := h
  exact ⟨us ++ vs, by rwa [← List.append_assoc]⟩

/-- An opening of a part makes an opening of the whole, whatever completes the whole. -/
theorem within {before : List Token} (after : List Token) (h : Opens P ts)
    (hpart : ∀ vs, P vs → Q (before ++ vs ++ after)) : Opens Q (before ++ ts) := by
  obtain ⟨us, h⟩ := h
  have hwhole := hpart _ h
  rw [← List.append_assoc, List.append_assoc] at hwhole
  exact ⟨us ++ after, hwhole⟩

theorem mono (h : Opens P ts) (hpart : ∀ vs, P vs → Q vs) : Opens Q ts := by
  obtain ⟨us, h⟩ := h
  exact ⟨us, hpart _ h⟩

end Opens

/-! ## Phrases -/

namespace Category

/-- The phrases that operators of a power make, with the last operand read above that power. -/
def joined : Power → Category
  | .lowest => sum
  | .sum => sum
  | .product => product
  | .unary => signed

theorem rank_above_le_joined {bound power : Power} (h : bound < power) :
    (above bound).rank ≤ (joined power).rank := by
  revert h
  cases bound <;> cases power <;> decide

theorem le_last_joined (power : Power) : power ≤ (joined power).last := by cases power <;> decide

end Category

/-- An operator joins what is read above its power to a left operand that it may end. -/
theorem Derives.joined {c : Category} {power : Power} {m n : Nat} {ls rs : List Token} {l r : Expr}
    {op : Token} (ho : Grammar.standard.operator op.kind = some power) (hc : power ≤ c.last)
    (hl : Derives c m ls l) (hr : Derives (.above power) n rs r) :
    Derives (.joined power) (max m (n + 1)) (ls ++ op :: rs) (.binary l op.text r) := by
  rcases kind_of_operator ho with ⟨rfl, hkind⟩ | ⟨rfl, hkind⟩
  · exact .addition hkind (hl.widen (Nat.zero_le _)) hr
  · exact .multiplication hkind (hl.widen (by revert hc; cases c <;> decide)) hr

namespace Phrase

variable {c d : Category} {ts : List Token}

theorem widen (h : Phrase c ts) (hcd : d.rank ≤ c.rank) : Phrase d ts := by
  obtain ⟨n, e, h⟩ := h
  exact ⟨n, e, h.widen hcd⟩

theorem negation {op : Token} (hop : op.kind = .dash) (h : Phrase .signed ts) :
    Phrase .signed (op :: ts) := by
  obtain ⟨n, e, h⟩ := h
  exact ⟨n + 1, _, .negation hop h⟩

theorem group {o c : Token} (ho : o.kind = .openParen) (hc : c.kind = .closeParen)
    (h : Phrase .sum ts) : Phrase .atom (o :: (ts ++ [c])) := by
  obtain ⟨n, e, h⟩ := h
  exact ⟨n + 1, e, .group ho hc h⟩

theorem joined {power : Power} {m : Nat} {ls rs : List Token} {l : Expr} {op : Token}
    (ho : Grammar.standard.operator op.kind = some power) (hc : power ≤ c.last)
    (hl : Derives c m ls l) (hr : Phrase (.above power) rs) :
    Phrase (.joined power) (ls ++ op :: rs) := by
  obtain ⟨n, r, hr⟩ := hr
  exact ⟨_, _, .joined ho hc hl hr⟩

/-- Every category has phrases. -/
theorem opens_nil (c : Category) : Opens (Phrase c) [] := by
  have hname : Derives .atom 1 [⟨.identifier, "x"⟩] (.identifier "x") := .identifier rfl
  exact ⟨_, 1, _, hname.widen (by cases c <;> decide)⟩

end Phrase

/-! ## Statements -/

namespace Sentence

variable {ts : List Token} {word name sign semi : Token}

theorem expression (h : Phrase .sum ts) (hsemi : semi.kind = .semicolon) :
    Sentence (ts ++ [semi]) := by
  obtain ⟨n, e, h⟩ := h
  exact ⟨n, _, .expression h hsemi⟩

theorem letBinding (hword : word.kind = .letWord) (hname : name.kind = .identifier)
    (hsign : sign.kind = .assignment) (h : Phrase .sum ts) (hsemi : semi.kind = .semicolon) :
    Sentence ([word, name, sign] ++ ts ++ [semi]) := by
  obtain ⟨n, e, h⟩ := h
  exact ⟨n, _, .letBinding hword hname hsign h hsemi⟩

/-- The head of a binding with an opening of its value. -/
theorem opens_letBinding (hword : word.kind = .letWord) (hname : name.kind = .identifier)
    (hsign : sign.kind = .assignment) (h : Opens (Phrase .sum) ts) :
    Opens Sentence ([word, name, sign] ++ ts) :=
  h.within [⟨.semicolon, ";"⟩] fun _ hvs => letBinding hword hname hsign hvs rfl

/-- The head of a binding. -/
theorem opens_head (hword : word.kind = .letWord) (hname : name.kind = .identifier)
    (hsign : sign.kind = .assignment) : Opens Sentence [word, name, sign] :=
  opens_letBinding hword hname hsign (Phrase.opens_nil .sum)

end Sentence

end LetLang
