import LetLang.Expression

/-!
# The stratified grammar

The expressions of the language as a grammar of four categories, one inside the other, with no
mention of powers or of any way of reading them.

    sum     ::= product | sum ("+" | "-") product
    product ::= signed | product ("*" | "/") signed
    signed  ::= atom | "-" signed
    atom    ::= name | digits | "true" | "false" | "(" sum ")"

A derivation is nested some levels deep.  It is on its first level itself; the operand of a sign, the
inside of a group and every right operand are one level down from the phrase that they stand in, and a
left operand is on the same level.

    Category.above bound    the phrases whose operators are above a bound
    Derives c n ts e        ts is a phrase of category c with tree e, nested n levels deep
    Derives.widen           a phrase is one of every looser category
-/

namespace LetLang

/-- The categories of expressions, loosest first. -/
inductive Category where
  | sum
  | product
  | signed
  | atom
  deriving DecidableEq

namespace Category

def rank : Category → Nat
  | sum => 0
  | product => 1
  | signed => 2
  | atom => 3

/-- The expressions whose operators are all above a bound. -/
def above : Power → Category
  | .lowest => sum
  | .sum => product
  | .product => signed
  | .unary => signed

/-- The loosest bound that all operators of the category are above. -/
def bound : Category → Power
  | sum => .lowest
  | product => .sum
  | signed => .unary
  | atom => .unary

/-- The bound that the last operand of the category is read above. -/
def last : Category → Power
  | sum => .sum
  | product => .product
  | signed => .unary
  | atom => .unary

theorem rank_above_le {c : Category} {b : Power} (h : b ≤ c.bound) : (above b).rank ≤ c.rank := by
  revert h
  cases c <;> cases b <;> decide

theorem le_bound_above (b : Power) : b ≤ (above b).bound := by cases b <;> decide

theorem le_last_above (b : Power) : b ≤ (above b).last := by cases b <;> decide

end Category

/-- `ts` is a phrase of the category with the given tree, nested so many levels deep. -/
inductive Derives : Category → Nat → List Token → Expr → Prop
  | sumOfProduct {n ts e} (h : Derives .product n ts e) : Derives .sum n ts e
  | addition {m n ls l op rs r} (hop : op.kind = .plus ∨ op.kind = .dash)
      (hl : Derives .sum m ls l) (hr : Derives .product n rs r) :
      Derives .sum (max m (n + 1)) (ls ++ op :: rs) (.binary l op.text r)
  | productOfSigned {n ts e} (h : Derives .signed n ts e) : Derives .product n ts e
  | multiplication {m n ls l op rs r} (hop : op.kind = .star ∨ op.kind = .slash)
      (hl : Derives .product m ls l) (hr : Derives .signed n rs r) :
      Derives .product (max m (n + 1)) (ls ++ op :: rs) (.binary l op.text r)
  | signedOfAtom {n ts e} (h : Derives .atom n ts e) : Derives .signed n ts e
  | negation {n op ts e} (hop : op.kind = .dash) (h : Derives .signed n ts e) :
      Derives .signed (n + 1) (op :: ts) (.unary op.text e)
  | identifier {t} (ht : t.kind = .identifier) : Derives .atom 1 [t] (.identifier t.text)
  | integer {t} (ht : t.kind = .integer) : Derives .atom 1 [t] (.integer t.text)
  | trueWord {t} (ht : t.kind = .trueWord) : Derives .atom 1 [t] (.boolean true)
  | falseWord {t} (ht : t.kind = .falseWord) : Derives .atom 1 [t] (.boolean false)
  | group {n o ts c e} (ho : o.kind = .openParen) (hc : c.kind = .closeParen)
      (h : Derives .sum n ts e) : Derives .atom (n + 1) (o :: (ts ++ [c])) e

namespace Derives

variable {c d : Category} {n : Nat} {ts : List Token} {e : Expr}

theorem pos (h : Derives c n ts e) : 0 < n := by
  induction h <;> omega

/-- A phrase is one of every looser category. -/
theorem widen (h : Derives c n ts e) (hcd : d.rank ≤ c.rank) : Derives d n ts e := by
  cases c <;> cases d <;> first | exact h | (exfalso; revert hcd; decide) | skip
  · exact .sumOfProduct h
  · exact .sumOfProduct (.productOfSigned h)
  · exact .productOfSigned h
  · exact .sumOfProduct (.productOfSigned (.signedOfAtom h))
  · exact .productOfSigned (.signedOfAtom h)
  · exact .signedOfAtom h

/-- No phrase starts with a keyword of statements. -/
theorem head (h : Derives c n ts e) : ∃ t us, ts = t :: us ∧ t.kind ≠ .letWord := by
  induction h with
  | sumOfProduct _ ih => exact ih
  | addition _ _ _ ihl _ =>
    obtain ⟨t, us, rfl, ht⟩ := ihl
    exact ⟨t, _, List.cons_append, ht⟩
  | productOfSigned _ ih => exact ih
  | multiplication _ _ _ ihl _ =>
    obtain ⟨t, us, rfl, ht⟩ := ihl
    exact ⟨t, _, List.cons_append, ht⟩
  | signedOfAtom _ ih => exact ih
  | negation hop => exact ⟨_, _, rfl, by rw [hop]; decide⟩
  | group ho => exact ⟨_, _, rfl, by rw [ho]; decide⟩
  | identifier ht => exact ⟨_, _, rfl, by rw [ht]; decide⟩
  | integer ht => exact ⟨_, _, rfl, by rw [ht]; decide⟩
  | trueWord ht => exact ⟨_, _, rfl, by rw [ht]; decide⟩
  | falseWord ht => exact ⟨_, _, rfl, by rw [ht]; decide⟩

/-- No phrase holds a semicolon. -/
theorem kind_ne_semicolon (h : Derives c n ts e) : ∀ t ∈ ts, t.kind ≠ .semicolon := by
  induction h with
  | sumOfProduct _ ih => exact ih
  | addition hop _ _ ihl ihr =>
    refine List.forall_mem_append.2 ⟨ihl, List.forall_mem_cons.2 ⟨?_, ihr⟩⟩
    rcases hop with hop | hop <;> (rw [hop]; decide)
  | productOfSigned _ ih => exact ih
  | multiplication hop _ _ ihl ihr =>
    refine List.forall_mem_append.2 ⟨ihl, List.forall_mem_cons.2 ⟨?_, ihr⟩⟩
    rcases hop with hop | hop <;> (rw [hop]; decide)
  | signedOfAtom _ ih => exact ih
  | negation hop _ ih => exact List.forall_mem_cons.2 ⟨by rw [hop]; decide, ih⟩
  | identifier ht => simp [ht]
  | integer ht => simp [ht]
  | trueWord ht => simp [ht]
  | falseWord ht => simp [ht]
  | group ho hc _ ih =>
    refine List.forall_mem_cons.2 ⟨by rw [ho]; decide, List.forall_mem_append.2 ⟨ih, ?_⟩⟩
    simp [hc]

end Derives

/-! ## Statements -/

/-- `ts` is a statement with the given tree, its expression nested so many levels deep. -/
inductive DerivesStatement : Nat → List Token → Stmt → Prop
  | letBinding {n word name sign ts e semi} (hword : word.kind = .letWord)
      (hname : name.kind = .identifier) (hsign : sign.kind = .assignment)
      (h : Derives .sum n ts e) (hsemi : semi.kind = .semicolon) :
      DerivesStatement n (word :: name :: sign :: (ts ++ [semi])) (.letBinding name.text e)
  | expression {n ts e semi} (h : Derives .sum n ts e) (hsemi : semi.kind = .semicolon) :
      DerivesStatement n (ts ++ [semi]) (.expression e)

/-- The semicolon of a statement is its last token. -/
theorem DerivesStatement.exists_semicolon {n : Nat} {ts : List Token} {stmt : Stmt}
    (h : DerivesStatement n ts stmt) :
    ∃ us semi, ts = us ++ [semi] ∧ semi.kind = .semicolon ∧ ∀ t ∈ us, t.kind ≠ .semicolon := by
  cases h with
  | @letBinding word name sign ts e semi hword hname hsign h hsemi =>
    refine ⟨word :: name :: sign :: ts, semi, rfl, hsemi, ?_⟩
    simp only [List.forall_mem_cons, hword, hname, hsign]
    exact ⟨by decide, by decide, by decide, h.kind_ne_semicolon⟩
  | expression h hsemi => exact ⟨_, _, rfl, hsemi, h.kind_ne_semicolon⟩

/-- A statement that keeps to the nesting limit. -/
def Fitting (ts : List Token) (stmt : Stmt) : Prop :=
  ∃ n, n ≤ nestingLimit ∧ DerivesStatement n ts stmt

end LetLang
