import LetLang.Proofs.Lexemes
import LetLang.Proofs.Segments

/-!
# Where statements stand in a source

Every statement of a program was read from a stretch of the tokens of its source, and the stretches
follow one another as the statements do.  A stretch is a phrase of the grammar, so the tree says in
order what the stretch says, except for what a tree keeps no trace of; and as the tokens are lexemes,
the names, digits and operators of the tree are such as a source can hold.

    Stretches P stmts ts              each statement has P of a stretch of ts to itself, in order
    stretches_parse                   statements stand on fitting stretches of their source
    Derives.spoken_eq                 a tree says what its phrase says
    parse_spoken                      the same of a whole program, whatever its source
-/

namespace LetLang

/-! ## Stretches -/

/-- Each of the statements has `P` of a stretch of the tokens.  The stretch of the first comes before
those of the others, with any tokens in front of it and between them. -/
inductive Stretches (P : Stmt → List Token → Prop) : List Stmt → List Token → Prop
  | nil (ts : List Token) : Stretches P [] ts
  | cons {stmt : Stmt} {stmts : List Stmt} (gap : List Token) {stretch rest : List Token}
      (h : P stmt stretch) (hrest : Stretches P stmts rest) :
      Stretches P (stmt :: stmts) (gap ++ stretch ++ rest)

namespace Stretches

variable {P Q : Stmt → List Token → Prop} {stmts : List Stmt} {ts : List Token}

theorem prepend (h : Stretches P stmts ts) (gap : List Token) : Stretches P stmts (gap ++ ts) := by
  cases h with
  | nil => exact .nil _
  | cons gap' hstmt hrest =>
    rw [← List.append_assoc, ← List.append_assoc]
    exact .cons (gap ++ gap') hstmt hrest

theorem append (h : Stretches P stmts ts) (rest : List Token) : Stretches P stmts (ts ++ rest) := by
  induction h with
  | nil => exact .nil _
  | cons gap hstmt _ ih =>
    rw [List.append_assoc]
    exact .cons gap hstmt ih

/-- A stretch has no tokens but those that it is a stretch of. -/
theorem imp (h : Stretches P stmts ts) (hPQ : ∀ stmt us, us ⊆ ts → P stmt us → Q stmt us) :
    Stretches Q stmts ts := by
  induction h with
  | nil => exact .nil _
  | cons gap hstmt _ ih =>
    refine .cons gap (hPQ _ _ ?_ hstmt) (ih fun stmt us hus => hPQ stmt us ?_)
    · exact List.subset_append_of_subset_left _ (List.subset_append_right _ _)
    · exact List.subset_append_of_subset_right _ hus

theorem exists_of_mem (h : Stretches P stmts ts) : ∀ stmt ∈ stmts, ∃ us, P stmt us := by
  induction h with
  | nil => simp
  | cons gap hstmt _ ih => exact List.forall_mem_cons.2 ⟨⟨_, hstmt⟩, ih⟩

end Stretches

/-! ## Programs -/

theorem flatten_segments (ts : List Token) : (segments ts).flatten = ts := by
  induction ts with
  | nil => rfl
  | cons t ts ih =>
    unfold segments
    split
    · rw [List.flatten_cons, ih]
      rfl
    · split
      · next hnil =>
        rw [hnil] at ih
        rw [← ih]
        rfl
      · next seg segs hcons =>
        rw [hcons] at ih
        rw [← ih]
        rfl

/-- What is kept of a segment stands at its end. -/
theorem stretches_of_settled {segs : List (List Token)} {parts : List (List Turn)}
    (h : List.Forall₂ Settled segs parts) :
    Stretches (fun stmt ts => Fitting ts stmt) (parts.flatMap statementsOf) segs.flatten := by
  induction h with
  | nil => exact .nil _
  | cons hset _ ih =>
    rw [List.flatMap_cons, List.flatten_cons]
    rcases hset.kept_end with hnone | ⟨mid, last, stmt, rfl, hfit, hkept⟩
    · rw [hnone]
      exact ih.prepend _
    · -- what was dropped of the segment is the gap in front of the stretch
      rw [hkept]
      exact .cons mid hfit ih

/-- The statements of a program stand on stretches of its source that are statements of the grammar. -/
theorem stretches_parse (source : String) :
    Stretches (fun stmt ts => Fitting ts stmt) (parse source).1.statements
      (scanAll source.toList) := by
  obtain ⟨parts, hturns, hall⟩ := exists_parts source
  have hstatements : (parse source).1.statements = parts.flatMap statementsOf := by
    show statementsOf (turnsOf source) = _
    rw [hturns, statementsOf_flatten]
  rw [hstatements, ← flatten_segments (scanAll source.toList)]
  exact stretches_of_settled hall

/-! ## What a tree says -/

/-- The names, digits, words and operators of an expression, in the order of the source. -/
def Expr.spoken : Expr → List String
  | identifier name => [name]
  | integer digits => [digits]
  | boolean value => [if value then "true" else "false"]
  | unary operator operand => operator :: operand.spoken
  | binary left operator right => left.spoken ++ operator :: right.spoken

/-- The same of a statement; a binding says the name that it binds first. -/
def Stmt.spoken : Stmt → List String
  | letBinding name value => name :: value.spoken
  | expression value => value.spoken

/-- The kinds of tokens that leave no trace in a tree. -/
def silentKinds : List Kind := [.openParen, .closeParen, .letWord, .assignment, .semicolon]

/-- The texts of the tokens that leave a trace. -/
def spokenOf (ts : List Token) : List String :=
  (ts.filter (·.kind ∉ silentKinds)).map Token.text

@[simp] theorem spokenOf_append (ts us : List Token) : spokenOf (ts ++ us) = spokenOf ts ++ spokenOf us := by
  simp [spokenOf]

theorem spokenOf_cons (t : Token) (ts : List Token) :
    spokenOf (t :: ts) = if t.kind ∈ silentKinds then spokenOf ts else t.text :: spokenOf ts := by
  by_cases h : t.kind ∈ silentKinds <;> simp [spokenOf, h]

/-- The kinds of the operators. -/
def operatorKinds : List Kind := [.plus, .dash, .star, .slash]

/-- The kinds of which every token has the same text, each with that text. -/
def fixedTexts : List (String × Kind) :=
  keywords ++ symbols.map fun (c, k) => (String.singleton c, k)

theorem fixedTexts_unique : ∀ p ∈ fixedTexts, ∀ q ∈ fixedTexts, p.2 = q.2 → p.1 = q.1 := by decide

theorem kind_of_fixedTexts : ∀ p ∈ fixedTexts, p.2 ∉ [.identifier, .integer, .illegal] := by decide

theorem isOperator_fixedTexts : ∀ p ∈ fixedTexts, p.2 ∈ operatorKinds → IsOperator p.1 := by decide

theorem operatorKinds_fixedTexts : ∀ k ∈ operatorKinds, ∃ p ∈ fixedTexts, p.2 = k := by decide

theorem operatorKinds_spoken : ∀ k ∈ operatorKinds, k ∉ silentKinds := by decide

namespace Lexeme

variable {k : Kind} {x y : String}

theorem isName (h : Lexeme .identifier x) : IsName x := by
  cases h with
  | keyword h => simp [keywords] at h
  | identifier h => exact h
  | symbol h => simp [symbols] at h

theorem isDigits (h : Lexeme .integer x) : IsDigits x := by
  cases h with
  | keyword h => simp [keywords] at h
  | integer h => exact h
  | symbol h => simp [symbols] at h

theorem text_eq (h : Lexeme k x) (hy : (y, k) ∈ fixedTexts) : x = y := by
  have hk : k ∉ [.identifier, .integer, .illegal] := kind_of_fixedTexts _ hy
  have hx : (x, k) ∈ fixedTexts := by
    cases h with
    | keyword h => exact List.mem_append_left _ h
    | identifier h => exact absurd (by decide) hk
    | integer h => exact absurd (by decide) hk
    | symbol h => exact List.mem_append_right _ (List.mem_map_of_mem h)
    | illegal h => exact absurd (by decide) hk
  exact fixedTexts_unique _ hx _ hy rfl

theorem isOperator (h : Lexeme k x) (hk : k ∈ operatorKinds) : IsOperator x := by
  obtain ⟨⟨y, k⟩, hy, rfl⟩ := operatorKinds_fixedTexts k hk
  rw [h.text_eq hy]
  exact isOperator_fixedTexts _ hy hk

end Lexeme

/-- A token of a kind that leaves a trace is all that it says by itself. -/
theorem lexeme_single {t : Token} {k : Kind} (ht : t.kind = k) (hk : k ∉ silentKinds)
    (hts : ∀ u ∈ [t], Lexeme u.kind u.text) : Lexeme k t.text ∧ spokenOf [t] = [t.text] := by
  subst ht
  refine ⟨hts t List.mem_cons_self, ?_⟩
  rw [spokenOf_cons, if_neg hk]
  rfl

/-- An operation says what its operands say, with its operator in between. -/
theorem spoken_operation {ls rs : List Token} {op : Token} {l r : Expr} (hop : op.kind ∈ operatorKinds)
    (hts : ∀ t ∈ ls ++ op :: rs, Lexeme t.kind t.text)
    (hl : (∀ t ∈ ls, Lexeme t.kind t.text) → l.WellFormed ∧ l.spoken = spokenOf ls)
    (hr : (∀ t ∈ rs, Lexeme t.kind t.text) → r.WellFormed ∧ r.spoken = spokenOf rs) :
    (Expr.binary l op.text r).WellFormed ∧
      (Expr.binary l op.text r).spoken = spokenOf (ls ++ op :: rs) := by
  rw [List.forall_mem_append, List.forall_mem_cons] at hts
  obtain ⟨hls, hlexeme, hrs⟩ := hts
  obtain ⟨hlwf, hlspoken⟩ := hl hls
  obtain ⟨hrwf, hrspoken⟩ := hr hrs
  refine ⟨⟨hlwf, hlexeme.isOperator hop, hrwf⟩, ?_⟩
  rw [Expr.spoken, hlspoken, hrspoken, spokenOf_append, spokenOf_cons,
    if_neg (operatorKinds_spoken _ hop)]

/-- An expression read from lexemes is well formed, and says what they say. -/
theorem Derives.spoken_eq {c : Category} {n : Nat} {ts : List Token} {e : Expr} (h : Derives c n ts e)
    (hts : ∀ t ∈ ts, Lexeme t.kind t.text) : e.WellFormed ∧ e.spoken = spokenOf ts := by
  induction h with
  | sumOfProduct _ ih => exact ih hts
  | productOfSigned _ ih => exact ih hts
  | signedOfAtom _ ih => exact ih hts
  | addition hop _ _ ihl ihr =>
    exact spoken_operation (by rcases hop with hop | hop <;> rw [hop] <;> decide) hts ihl ihr
  | multiplication hop _ _ ihl ihr =>
    exact spoken_operation (by rcases hop with hop | hop <;> rw [hop] <;> decide) hts ihl ihr
  | @negation n op ts e hop _ ih =>
    obtain ⟨hsign, hts⟩ := List.forall_mem_cons.1 hts
    obtain ⟨hwf, hspoken⟩ := ih hts
    rw [hop] at hsign
    refine ⟨⟨hsign.text_eq (by decide), hwf⟩, ?_⟩
    rw [Expr.spoken, hspoken, spokenOf_cons, if_neg (by rw [hop]; decide)]
  | identifier ht =>
    obtain ⟨hlexeme, hspoken⟩ := lexeme_single ht (by decide) hts
    exact ⟨hlexeme.isName, hspoken.symm⟩
  | integer ht =>
    obtain ⟨hlexeme, hspoken⟩ := lexeme_single ht (by decide) hts
    exact ⟨hlexeme.isDigits, hspoken.symm⟩
  | trueWord ht =>
    obtain ⟨hlexeme, hspoken⟩ := lexeme_single ht (by decide) hts
    rw [hspoken, hlexeme.text_eq (by decide : ("true", _) ∈ fixedTexts)]
    exact ⟨trivial, rfl⟩
  | falseWord ht =>
    obtain ⟨hlexeme, hspoken⟩ := lexeme_single ht (by decide) hts
    rw [hspoken, hlexeme.text_eq (by decide : ("false", _) ∈ fixedTexts)]
    exact ⟨trivial, rfl⟩
  | @group n o ts c e ho hc _ ih =>
    have hinside : ∀ t ∈ ts, Lexeme t.kind t.text := fun t ht => hts t (by simp [ht])
    obtain ⟨hwf, hspoken⟩ := ih hinside
    refine ⟨hwf, ?_⟩
    rw [hspoken, spokenOf_cons, if_pos (by rw [ho]; decide), spokenOf_append, spokenOf_cons,
      if_pos (by rw [hc]; decide)]
    exact (List.append_nil _).symm

/-- A statement read from lexemes is well formed, and says what they say. -/
theorem DerivesStatement.spoken_eq {n : Nat} {ts : List Token} {stmt : Stmt}
    (h : DerivesStatement n ts stmt) (hts : ∀ t ∈ ts, Lexeme t.kind t.text) :
    stmt.WellFormed ∧ stmt.spoken = spokenOf ts := by
  have hclose : ∀ (ts : List Token) (semi : Token), semi.kind = .semicolon →
      spokenOf (ts ++ [semi]) = spokenOf ts := by
    intro ts semi hsemi
    rw [spokenOf_append, spokenOf_cons, if_pos (by rw [hsemi]; decide)]
    exact List.append_nil _
  cases h with
  | @letBinding word name equals ts e semi hword hname hequals h hsemi =>
    have hvalue : ∀ t ∈ ts, Lexeme t.kind t.text := fun t ht => hts t (by simp [ht])
    obtain ⟨hwf, hspoken⟩ := h.spoken_eq hvalue
    have hlexeme := hts name (by simp)
    rw [hname] at hlexeme
    refine ⟨⟨hlexeme.isName, hwf⟩, ?_⟩
    rw [Stmt.spoken, hspoken, spokenOf_cons, if_pos (by rw [hword]; decide), spokenOf_cons,
      if_neg (by rw [hname]; decide), spokenOf_cons, if_pos (by rw [hequals]; decide), hclose _ _ hsemi]
  | @expression ts e semi h hsemi =>
    have hvalue : ∀ t ∈ ts, Lexeme t.kind t.text := fun t ht => hts t (by simp [ht])
    obtain ⟨hwf, hspoken⟩ := h.spoken_eq hvalue
    exact ⟨hwf, by rw [Stmt.spoken, hspoken, hclose _ _ hsemi]⟩

theorem lexeme_of_mem_scanAll {text : List Char} : ∀ t ∈ scanAll text, Lexeme t.kind t.text := by
  obtain ⟨lead, pieces, hread⟩ := exists_reading text
  rw [← hread.tokens_eq]
  intro t ht
  obtain ⟨p, hp, rfl⟩ := List.mem_map.1 ht
  exact hread.lexeme p hp

/-- Whatever its source, a program is well formed, and its statements say one after the other what
stretches of the source say, without parentheses, `let`, `=` and semicolons. -/
theorem parse_spoken (source : String) :
    Stretches (fun stmt ts => stmt.WellFormed ∧ stmt.spoken = spokenOf ts) (parse source).1.statements
      (tokenize source) := by
  refine ((stretches_parse source).imp fun stmt ts hts hfit => ?_).append [Token.eof]
  obtain ⟨n, -, hd⟩ := hfit
  exact hd.spoken_eq fun t ht => lexeme_of_mem_scanAll t (hts ht)

end LetLang
