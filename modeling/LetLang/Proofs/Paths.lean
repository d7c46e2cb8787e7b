import LetLang.Proofs.RoundTrip
import LetLang.Proofs.Stretches

/-!
# Paths in the trees of a program

Whoever walks down a tree takes a path of edges: to the operand of a sign, to a left operand, to a right
one. The nesting limit bounds the first and the last of these on every path in every tree of a program,
for each is a level down in the phrase that the tree was read from.  It does not bound the left ones.  A
left operand is on the level of its operator, so a row of operands that is read without a diagnostic can
have a path of any length.

    e.Path edges                          the edges lead from the root of e to one of its leaves
    Derives c n ts e → e.Path edges → edges.countP Edge.descends < n              (Derives.countP_path_lt)
    paths_of_parse                        what the limit bounds and what it does not
-/

namespace LetLang

/-- The ways from an expression to a part of it. -/
inductive Edge where
  /-- To the operand of a sign. -/
  | operand
  /-- To the left operand of an operator. -/
  | left
  /-- To the right operand of an operator. -/
  | right
  deriving DecidableEq

/-- The edge leads to an expression that was read one level down. -/
def Edge.descends : Edge → Bool
  | operand => true
  | left => false
  | right => true

/-- The edges lead from the root of the expression to a leaf. -/
inductive Expr.Path : Expr → List Edge → Prop
  | identifier (name : String) : Path (.identifier name) []
  | integer (digits : String) : Path (.integer digits) []
  | boolean (value : Bool) : Path (.boolean value) []
  | operand {operator : String} {x : Expr} {edges : List Edge} (h : Path x edges) :
      Path (.unary operator x) (.operand :: edges)
  | left {operator : String} {l r : Expr} {edges : List Edge} (h : Path l edges) :
      Path (.binary l operator r) (.left :: edges)
  | right {operator : String} {l r : Expr} {edges : List Edge} (h : Path r edges) :
      Path (.binary l operator r) (.right :: edges)

/-! ## Bounded edges -/

/-- A path in an operation goes on in one of the operands, and in the right one a level down. -/
theorem Expr.Path.countP_binary_lt {m n : Nat} {l r : Expr} {operator : String} {edges : List Edge}
    (h : (Expr.binary l operator r).Path edges)
    (hl : ∀ edges, l.Path edges → edges.countP Edge.descends < m)
    (hr : ∀ edges, r.Path edges → edges.countP Edge.descends < n) :
    edges.countP Edge.descends < max m (n + 1) := by
  cases h with
  | left h =>
    have hlt := hl _ h
    rw [List.countP_cons_of_neg (by decide)]
    omega
  | right h =>
    have hlt := hr _ h
    rw [List.countP_cons_of_pos (by decide)]
    omega

/-- A phrase is nested deeper than any path in its tree descends. -/
theorem Derives.countP_path_lt {c : Category} {n : Nat} {ts : List Token} {e : Expr}
    (h : Derives c n ts e) : ∀ edges, e.Path edges → edges.countP Edge.descends < n := by
  induction h with
  | sumOfProduct _ ih => exact ih
  | productOfSigned _ ih => exact ih
  | signedOfAtom _ ih => exact ih
  | addition _ _ _ ihl ihr => exact fun edges hpath => hpath.countP_binary_lt ihl ihr
  | multiplication _ _ _ ihl ihr => exact fun edges hpath => hpath.countP_binary_lt ihl ihr
  | negation _ _ ih =>
    intro edges hpath
    cases hpath with
    | operand hpath =>
      have hlt := ih _ hpath
      rw [List.countP_cons_of_pos (by decide)]
      omega
  | group _ _ _ ih =>
    -- parentheses take up a level and leave no edge
    intro edges hpath
    exact Nat.lt_succ_of_lt (ih edges hpath)
  | identifier _ =>
    rintro _ ⟨⟩
    exact Nat.one_pos
  | integer _ =>
    rintro _ ⟨⟩
    exact Nat.one_pos
  | trueWord _ =>
    rintro _ ⟨⟩
    exact Nat.one_pos
  | falseWord _ =>
    rintro _ ⟨⟩
    exact Nat.one_pos

theorem DerivesStatement.exists_derives {n : Nat} {ts : List Token} {stmt : Stmt}
    (h : DerivesStatement n ts stmt) : ∃ us, Derives .sum n us stmt.value := by
  cases h with
  | letBinding _ _ _ h _ => exact ⟨_, h⟩
  | expression h _ => exact ⟨_, h⟩

/-! ## Left edges -/

/-- The first operand of a chain is at the end of a path that goes to the left all the way. -/
theorem path_repeated {operator : String} {operand : Expr} (h : operand.Path []) (n : Nat) :
    (Expr.repeated operator operand n).Path (List.replicate n .left) := by
  induction n with
  | zero => exact h
  | succ n ih => exact .left ih

/-- On every path in a tree of a program there are fewer edges to operands of signs and to right
operands than levels of nesting are allowed, whatever the source.  Of edges to left operands there can
be any number, in a program that is read without a diagnostic. -/
theorem paths_of_parse :
    (∀ (source : String), ∀ stmt ∈ (parse source).1.statements, ∀ edges, stmt.value.Path edges →
      edges.countP Edge.descends < nestingLimit) ∧
    ∀ n, ∃ source stmt, parse source = (⟨[stmt]⟩, .empty) ∧
      stmt.value.Path (List.replicate n .left) := by
  constructor
  · intro source stmt hstmt edges hpath
    obtain ⟨ts, n, hn, hd⟩ := (stretches_parse source).exists_of_mem stmt hstmt
    obtain ⟨us, hvalue⟩ := hd.exists_derives
    exact Nat.lt_of_lt_of_le (hvalue.countP_path_lt edges hpath) hn
  · intro n
    have hop : Category.sum.Operates "+" := .inl rfl
    have hchain : Chain .sum (n + 1) (.repeated "+" (.identifier "x") n) :=
      chain_repeated hop (by decide) rfl n
    exact ⟨_, _, parse_flat hchain, path_repeated (.identifier "x") n⟩

/-- The path to `b` in `a - -(2 * b);`, which stands between tokens that are dropped, and one with a
thousand left edges. -/
theorem paths_of_parse_to_last_name :
    let e : Expr := .binary (.identifier "a") "-" (.unary "-" (.binary (.integer "2") "*" (.identifier "b")))
    let edges : List Edge := [.right, .operand, .right]
    (.expression e ∈ (parse ") a - -(2 * b); (").1.statements ∧ e.Path edges ∧
      edges.countP Edge.descends < nestingLimit) ∧
    ∃ source stmt, parse source = (⟨[stmt]⟩, .empty) ∧ stmt.value.Path (List.replicate 1000 .left) := by
  intro e edges
  have hmem : .expression e ∈ (parse ") a - -(2 * b); (").1.statements := by decide +kernel
  have hpath : e.Path edges := .right (.operand (.right (.identifier "b")))
  exact ⟨⟨hmem, hpath, paths_of_parse.1 _ _ hmem edges hpath⟩, paths_of_parse.2 1000⟩

end LetLang
