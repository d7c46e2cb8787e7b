import LetLang.Expression

/-!
# Trees of operators

Operands with operators between them stand in a row, and many trees have that row for their leaves and
operators.  One of them is ordered by power: no operator holds a looser one to its left, and none holds one
to its right that is not tighter.

Its root can only be the last of the loosest operators in the row, so there is no more than one such tree
(`Ordered.eq_of_row_eq`).  It is built operand by operand: a new operator goes down the right side of the
tree, below all that are looser, and takes for its left operand what it finds there (`insert`).

    (row.tree g).Ordered g, and (row.tree g).row = row             (Row.ordered_tree, Row.row_tree)
    τ.Ordered g → τ.row = row → τ = row.tree g                     (OperatorTree.Ordered.eq_tree)
-/

namespace LetLang

/-- Operands with operators between them: the first operand, then every operator with the operand behind
it. -/
@[ext]
structure Row where
  first : Token
  links : List (Token × Token)
  deriving DecidableEq

namespace Row

def operands (row : Row) : List Token := row.first :: row.links.map Prod.snd

def operators (row : Row) : List Token := row.links.map Prod.fst

/-- All the tokens of the row. -/
def tokens (row : Row) : List Token :=
  row.first :: row.links.flatMap fun (operator, operand) => [operator, operand]

/-- Two rows with an operator between them. -/
def join (row : Row) (operator : Token) (after : Row) : Row :=
  ⟨row.first, row.links ++ (operator, after.first) :: after.links⟩

@[simp] theorem operands_join (row after : Row) (operator : Token) :
    (row.join operator after).operands = row.operands ++ after.operands := by
  simp [join, operands]

@[simp] theorem operators_join (row after : Row) (operator : Token) :
    (row.join operator after).operators = row.operators ++ operator :: after.operators := by
  simp [join, operators]

@[simp] theorem tokens_join (row after : Row) (operator : Token) :
    (row.join operator after).tokens = row.tokens ++ operator :: after.tokens := by
  simp [join, tokens]

end Row

/-- A tree of operators that are tokens, as its leaves are. -/
inductive OperatorTree where
  | leaf (operand : Token)
  | node (left : OperatorTree) (operator : Token) (right : OperatorTree)
  deriving DecidableEq

namespace OperatorTree

/-- The leaves and the operators of a tree, from left to right. -/
def row : OperatorTree → Row
  | leaf operand => ⟨operand, []⟩
  | node left operator right => left.row.join operator right.row

/-- The operator at the root. -/
def root? : OperatorTree → Option Token
  | leaf _ => none
  | node _ operator _ => some operator

theorem root_mem_operators {τ : OperatorTree} {o : Token} (h : o ∈ τ.root?) : o ∈ τ.row.operators := by
  cases τ with
  | leaf operand => cases h
  | node left operator right =>
    cases h
    rw [row, Row.operators_join]
    exact List.mem_append_right _ List.mem_cons_self

/-- The expression of one token. -/
def leafExpr (operand : Token) : Expr :=
  match operand.kind with
  | .identifier => .identifier operand.text
  | .integer => .integer operand.text
  | kind => .boolean (kind = .trueWord)

def toExpr : OperatorTree → Expr
  | leaf operand => leafExpr operand
  | node left operator right => .binary left.toExpr operator.text right.toExpr

/-- An operator to the left of another is at least as powerful, and one to the right is more powerful. -/
def Ordered (g : Grammar) : OperatorTree → Prop
  | leaf _ => True
  | node left operator right =>
    left.Ordered g ∧ right.Ordered g ∧
      (∀ o ∈ left.root?, g.power operator.kind ≤ g.power o.kind) ∧
        ∀ o ∈ right.root?, g.power operator.kind < g.power o.kind

instance decidableOrdered (g : Grammar) : (τ : OperatorTree) → Decidable (τ.Ordered g)
  | leaf _ => isTrue trivial
  | node left _ right =>
    have := decidableOrdered g left
    have := decidableOrdered g right
    inferInstanceAs (Decidable (_ ∧ _ ∧ _ ∧ _))

/-! ## No more than one tree -/

variable {g : Grammar}

/-- No operator of an ordered tree is looser than its root. -/
theorem Ordered.exists_root_le {τ : OperatorTree} (h : τ.Ordered g) {o : Token}
    (ho : o ∈ τ.row.operators) : ∃ root ∈ τ.root?, g.power root.kind ≤ g.power o.kind := by
  induction τ with
  | leaf operand => cases ho
  | node left operator right ihl ihr =>
    obtain ⟨hl, hr, hle, hlt⟩ := h
    rw [row, Row.operators_join, List.mem_append, List.mem_cons] at ho
    refine ⟨operator, rfl, ?_⟩
    rcases ho with ho | rfl | ho
    · obtain ⟨root, hroot, hpower⟩ := ihl hl ho
      exact Nat.le_trans (hle root hroot) hpower
    · exact Nat.le_refl _
    · obtain ⟨root, hroot, hpower⟩ := ihr hr ho
      exact Nat.le_trans (Nat.le_of_lt (hlt root hroot)) hpower

/-- The root of an ordered tree is the last of its loosest operators. -/
theorem Ordered.root_last_loosest {left right : OperatorTree} {operator : Token}
    (h : (node left operator right).Ordered g) :
    (∀ o ∈ left.row.operators, g.power operator.kind ≤ g.power o.kind) ∧
      ∀ o ∈ right.row.operators, g.power operator.kind < g.power o.kind := by
  obtain ⟨hl, hr, hle, hlt⟩ := h
  constructor
  · intro o ho
    obtain ⟨root, hroot, hpower⟩ := hl.exists_root_le ho
    exact Nat.le_trans (hle root hroot) hpower
  · intro o ho
    obtain ⟨root, hroot, hpower⟩ := hr.exists_root_le ho
    exact Nat.lt_of_lt_of_le (hlt root hroot) hpower

/-- There is but one way to split a list at the last of its least elements. -/
theorem eq_of_last_least {α : Type} (f : α → Nat) {before before' after after' : List α} {a a' : α}
    (hb : ∀ x ∈ before, f a ≤ f x) (ha : ∀ x ∈ after, f a < f x)
    (hb' : ∀ x ∈ before', f a' ≤ f x) (ha' : ∀ x ∈ after', f a' < f x)
    (h : before ++ a :: after = before' ++ a' :: after') :
    before = before' ∧ a = a' ∧ after = after' := by
  induction before generalizing before' with
  | nil =>
    cases before' with
    | nil =>
      cases h
      exact ⟨rfl, rfl, rfl⟩
    | cons x before' =>
      -- the second split is further right, so its element is greater, and not greater, than the first
      obtain ⟨rfl, rfl⟩ := List.cons_eq_cons.1 h
      have hlt := ha a' (List.mem_append_right _ List.mem_cons_self)
      have hle := hb' a List.mem_cons_self
      omega
  | cons x before ih =>
    cases before' with
    | nil =>
      obtain ⟨rfl, rfl⟩ := List.cons_eq_cons.1 h
      have hlt := ha' a (List.mem_append_right _ List.mem_cons_self)
      have hle := hb x List.mem_cons_self
      omega
    | cons x' before' =>
      obtain ⟨rfl, hrest⟩ := List.cons_eq_cons.1 h
      obtain ⟨rfl, rfl, rfl⟩ := ih (fun y hy => hb y (List.mem_cons_of_mem _ hy))
        (fun y hy => hb' y (List.mem_cons_of_mem _ hy)) hrest
      exact ⟨rfl, rfl, rfl⟩

/-- A row has no more than one ordered tree. -/
theorem Ordered.eq_of_row_eq {τ υ : OperatorTree} (hτ : τ.Ordered g) (hυ : υ.Ordered g)
    (h : τ.row = υ.row) : τ = υ := by
  induction τ generalizing υ with
  | leaf operand =>
    cases υ with
    | leaf operand' =>
      cases h
      rfl
    | node left' operator' right' =>
      have hlinks := congrArg Row.links h
      simp [row, Row.join] at hlinks
  | node left operator right ihl ihr =>
    cases υ with
    | leaf operand' =>
      have hlinks := congrArg Row.links h
      simp [row, Row.join] at hlinks
    | node left' operator' right' =>
      obtain ⟨hle, hlt⟩ := hτ.root_last_loosest
      obtain ⟨hle', hlt'⟩ := hυ.root_last_loosest
      obtain ⟨hfirst, hlinks⟩ := Row.mk.inj h
      obtain ⟨hleft, hlink, hright⟩ :=
        eq_of_last_least (fun link => (g.power link.1.kind).rank)
          (fun link hlink => hle _ (List.mem_map_of_mem hlink))
          (fun link hlink => hlt _ (List.mem_map_of_mem hlink))
          (fun link hlink => hle' _ (List.mem_map_of_mem hlink))
          (fun link hlink => hlt' _ (List.mem_map_of_mem hlink)) hlinks
      obtain ⟨rfl, hfirst'⟩ := Prod.mk.inj hlink
      rw [ihl hτ.1 hυ.1 (Row.ext hfirst hleft), ihr hτ.2.1 hυ.2.1 (Row.ext hfirst' hright)]

/-! ## The tree that there is -/

/-- Adds an operator and its right operand to the right end of a tree. -/
def insert (g : Grammar) (operator operand : Token) : OperatorTree → OperatorTree
  | leaf first => node (leaf first) operator (leaf operand)
  | node left root right =>
    if g.power root.kind < g.power operator.kind then
      node left root (right.insert g operator operand)
    else node (node left root right) operator (leaf operand)

theorem row_insert (operator operand : Token) (τ : OperatorTree) :
    (τ.insert g operator operand).row = ⟨τ.row.first, τ.row.links ++ [(operator, operand)]⟩ := by
  induction τ with
  | leaf first => rfl
  | node left root right _ ihr =>
    rw [insert]
    split
    · rw [row, ihr]
      simp [row, Row.join]
    · rfl

/-- The root stays, or the new operator comes in its place. -/
theorem root?_insert {operator operand o : Token} {τ : OperatorTree}
    (h : o ∈ (τ.insert g operator operand).root?) : o = operator ∨ o ∈ τ.root? := by
  cases τ with
  | leaf first =>
    cases h
    exact .inl rfl
  | node left root right =>
    rw [insert] at h
    split at h
    · exact .inr h
    · cases h
      exact .inl rfl

theorem Ordered.insert {τ : OperatorTree} (h : τ.Ordered g) (operator operand : Token) :
    (τ.insert g operator operand).Ordered g := by
  induction τ with
  | leaf first => exact ⟨trivial, trivial, fun _ ho => (nomatch ho), fun _ ho => nomatch ho⟩
  | node left root right _ ihr =>
    rw [OperatorTree.insert]
    split
    · next hlt =>
      obtain ⟨hl, hr, hleft, hright⟩ := h
      refine ⟨hl, ihr hr, hleft, fun o ho => ?_⟩
      rcases root?_insert ho with rfl | ho
      · exact hlt
      · exact hright o ho
    · next hlt =>
      refine ⟨h, trivial, fun o ho => ?_, fun _ ho => nomatch ho⟩
      cases ho
      exact Nat.not_lt.1 hlt

end OperatorTree

namespace Row

open OperatorTree

variable {g : Grammar}

/-- The tree of a row, ordered by the powers of the operators. -/
def tree (g : Grammar) (row : Row) : OperatorTree :=
  row.links.foldl (fun τ (operator, operand) => τ.insert g operator operand) (leaf row.first)

theorem row_foldl_insert (links : List (Token × Token)) (τ : OperatorTree) :
    (links.foldl (fun τ (operator, operand) => τ.insert g operator operand) τ).row =
      ⟨τ.row.first, τ.row.links ++ links⟩ := by
  induction links generalizing τ with
  | nil => simp
  | cons link links ih =>
    rw [List.foldl_cons, ih, row_insert]
    simp

theorem row_tree (row : Row) : (row.tree g).row = row := row_foldl_insert row.links (leaf row.first)

theorem ordered_foldl_insert (links : List (Token × Token)) {τ : OperatorTree} (h : τ.Ordered g) :
    (links.foldl (fun τ (operator, operand) => τ.insert g operator operand) τ).Ordered g := by
  induction links generalizing τ with
  | nil => exact h
  | cons link links ih => exact ih (h.insert link.1 link.2)

theorem ordered_tree (row : Row) : (row.tree g).Ordered g :=
  ordered_foldl_insert row.links trivial

end Row

theorem OperatorTree.Ordered.eq_tree {g : Grammar} {τ : OperatorTree} {row : Row} (h : τ.Ordered g)
    (hrow : τ.row = row) : τ = row.tree g :=
  h.eq_of_row_eq row.ordered_tree (hrow.trans row.row_tree.symm)

end LetLang
