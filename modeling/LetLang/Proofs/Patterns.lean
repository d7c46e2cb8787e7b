import LetLang.Proofs.Lexemes

/-!
# Patterns

Tokens by a table.  A row of it is a pattern and what is done with a match.  Where the cursor stands, the
first row whose pattern matches there is carried out; blanks are dropped, and it goes on behind them.  What
no row matches is one character that has no place in the language.

How a pattern is matched is left open.  A matcher finds the longest match at the front of a text, and it
finds one if there is any; with that it is settled what it finds.  Whatever the matcher, the table and `scan`
read the same, and they refuse the same.

    f.find? p cs = p.find? cs                                                   (Matcher.find?_eq)
    f.next? c = c.next?                                                         (Matcher.next?_eq)
-/

namespace LetLang

/-! ## Patterns -/

/-- What a token looks like, or the blanks in front of one. -/
inductive Pattern where
  /-- One character or more, each of them in one of the ranges. -/
  | run (ranges : List (Char × Char))
  /-- This one character. -/
  | single (c : Char)

/-- The character is in one of the ranges.  Both ends of a range belong to it. -/
def inRanges (ranges : List (Char × Char)) (c : Char) : Bool :=
  ranges.any fun range => range.1 ≤ c && c ≤ range.2

namespace Pattern

/-- The pattern matches the whole of a text. -/
def Matches : Pattern → List Char → Prop
  | run ranges, m => m ≠ [] ∧ ∀ c ∈ m, inRanges ranges c
  | single c, m => m = [c]

/-- Of all that the pattern matches at the front of `cs`, `m` is the longest. -/
structure Longest (p : Pattern) (cs m : List Char) : Prop where
  fits : p.Matches m
  front : m <+: cs
  longest : ∀ other, p.Matches other → other <+: cs → other.length ≤ m.length

variable {p : Pattern} {ranges : List (Char × Char)} {c : Char} {cs m m' : List Char}

theorem Matches.ne_nil (h : p.Matches m) : m ≠ [] := by
  cases p with
  | run ranges => exact h.1
  | single c =>
    rintro rfl
    cases h

theorem Longest.unique (h : p.Longest cs m) (h' : p.Longest cs m') : m = m' := by
  have hle : m.length ≤ m'.length := h'.longest m h.fits h.front
  have hle' : m'.length ≤ m.length := h.longest m' h'.fits h'.front
  exact (List.prefix_of_prefix_length_le h.front h'.front hle).eq_of_length_le hle'

/-- A run goes on for as long as the characters are in the ranges. -/
theorem longest_run (h : inRanges ranges c) (cs : List Char) :
    (run ranges).Longest (c :: cs) (c :: cs.takeWhile (inRanges ranges)) where
  fits := ⟨List.cons_ne_nil _ _, List.forall_mem_cons.2 ⟨h, fun _ hd => List.mem_takeWhile_imp hd⟩⟩
  front := (List.prefix_cons_inj c).2 (List.takeWhile_prefix _)
  longest := by
    rintro other ⟨-, hall⟩ ⟨rest, hrest⟩
    rw [← List.takeWhile_cons_of_pos h, ← hrest, List.takeWhile_append_of_pos hall, List.length_append]
    exact Nat.le_add_right _ _

theorem longest_single (c : Char) (cs : List Char) : (single c).Longest (c :: cs) [c] where
  fits := rfl
  front := (List.prefix_cons_inj c).2 List.nil_prefix
  longest := by
    rintro other rfl -
    exact Nat.le_refl _

/-- The longest match at the front of a text. -/
def find? : Pattern → List Char → Option (List Char)
  | run ranges, x :: cs => if inRanges ranges x then some (x :: cs.takeWhile (inRanges ranges)) else none
  | single c, x :: _ => if x = c then some [x] else none
  | _, [] => none

theorem longest_of_find? (h : p.find? cs = some m) : p.Longest cs m := by
  unfold find? at h
  split at h
  · next ranges x cs =>
    obtain ⟨hx, hm⟩ := Option.ite_none_right_eq_some.1 h
    cases hm
    exact longest_run hx cs
  · next c x cs =>
    obtain ⟨rfl, hm⟩ := Option.ite_none_right_eq_some.1 h
    cases hm
    exact longest_single x cs
  · cases h

theorem isSome_find? (h : p.Matches m) (hm : m <+: cs) : (p.find? cs).isSome := by
  obtain ⟨x, m, rfl⟩ := List.exists_cons_of_ne_nil h.ne_nil
  obtain ⟨rest, rfl⟩ := hm
  cases p with
  | run ranges => simp [find?, h.2 x List.mem_cons_self]
  | single c => simp [find?, (List.cons.inj h).1]

end Pattern

/-! ## Matchers -/

/-- A way to match patterns, anchored at the front of a text and greedy. -/
structure Matcher where
  find? : Pattern → List Char → Option (List Char)
  /-- What is found stands at the front, and nothing longer that stands there is matched. -/
  longest_of_find? : ∀ {p cs m}, find? p cs = some m → p.Longest cs m
  /-- Something is found wherever something is matched. -/
  isSome_find? : ∀ {p cs m}, p.Matches m → m <+: cs → (find? p cs).isSome

/-- What is done with a match. -/
inductive Action where
  /-- It is moved past, and gives no token. -/
  | drop
  | word
  | digits
  /-- The token of this kind and text is given. -/
  | symbol (kind : Kind) (text : String)

/-- Moves past the match `m`, and gives the token. -/
def Action.carryOut (c : Cursor) (m : List Char) : Action → Option Token × Cursor
  | drop => (none, c.advance (byteLength m))
  | word => (some (wordToken (String.ofList m)), c.advance (byteLength m))
  | digits => (some (digitsToken (String.ofList m)), c.advance (byteLength m))
  | symbol kind text => (some ⟨kind, text⟩, c.advance (byteLength text.toList))

/-- The row for a character that is a token. -/
def symbolRow (symbol : Char × Kind) : Pattern × Action :=
  (.single symbol.1, .symbol symbol.2 (String.singleton symbol.1))

/-- The patterns in the order in which they are tried. -/
def table : List (Pattern × Action) :=
  [(.run [(' ', ' '), ('\t', '\t'), ('\r', '\r'), ('\n', '\n')], .drop),
    (.run [('a', 'z'), ('A', 'Z'), ('_', '_')], .word),
    (.run [('0', '9')], .digits)] ++ symbols.map symbolRow

namespace Matcher

variable (f : Matcher)

/-- What the first row that matches does, and the match. -/
def first? (rows : List (Pattern × Action)) (cs : List Char) : Option (Action × List Char) :=
  rows.findSome? fun row => (f.find? row.1 cs).map fun m => (row.2, m)

/-- Carries out the table once on the text `cs` ahead of the cursor. -/
def go (c : Cursor) (cs : List Char) : Option Token × Cursor :=
  match f.first? table cs with
  | some (action, m) => action.carryOut c m
  | none =>
    let foreign := cs.headD '\x00'
    (some ⟨.illegal, String.singleton foreign⟩, c.advance foreign.utf8Size)

variable {f} {p : Pattern} {ranges : List (Char × Char)} {rows : List (Pattern × Action)}
  {action : Action} {x : Char} {cs m : List Char} {c c' : Cursor}

/-- No row matches without taking at least one character. -/
theorem ne_nil_of_first? (h : f.first? rows cs = some (action, m)) : m ≠ [] := by
  obtain ⟨row, -, hrow⟩ := List.exists_of_findSome?_eq_some h
  obtain ⟨found, hfind, heq⟩ := Option.map_eq_some_iff.1 hrow
  cases heq
  exact (f.longest_of_find? hfind).fits.ne_nil

/-- Without a token the cursor has moved on all the same. -/
theorem pos_lt_of_go (h : f.go c cs = (none, c')) : c.pos < c'.pos ∧ c'.text = c.text := by
  unfold go at h
  split at h
  · next action m hfirst =>
    have hpos : 0 < byteLength m := byteLength_pos (ne_nil_of_first? hfirst)
    cases action with
    | drop =>
      cases h
      exact ⟨Nat.lt_add_of_pos_right hpos, rfl⟩
    | word => cases h
    | digits => cases h
    | symbol kind text => cases h
  · cases h

variable (f) in
/-- The next token by the table, or the end token once the text is used up. -/
def next? (c : Cursor) : Option (Token × Cursor) :=
  if _hend : c.atEnd then some (Token.eof, c)
  else
    match c.ahead? with
    | none => none
    | some cs =>
      match _hgo : f.go c cs with
      | (some t, c') => some (t, c')
      | (none, c') => next? c'
termination_by c.size - c.pos
decreasing_by
  obtain ⟨hpos, htext⟩ := pos_lt_of_go _hgo
  have hsize : c'.size = c.size := congrArg byteLength htext
  have hlt : c.pos < c.size := by simpa [Cursor.atEnd] using _hend
  omega

/-! ## What is found -/

theorem find?_eq_some_iff : f.find? p cs = some m ↔ p.Longest cs m := by
  constructor
  · exact f.longest_of_find?
  · intro h
    obtain ⟨m', hm'⟩ := Option.isSome_iff_exists.1 (f.isSome_find? h.fits h.front)
    rw [hm', (f.longest_of_find? hm').unique h]

/-- To look for the longest match is one way, and all ways find the same. -/
def plain : Matcher := ⟨Pattern.find?, Pattern.longest_of_find?, Pattern.isSome_find?⟩

theorem find?_eq (f : Matcher) (p : Pattern) (cs : List Char) : f.find? p cs = p.find? cs := by
  ext m
  exact find?_eq_some_iff.trans (find?_eq_some_iff (f := plain)).symm

end Matcher

/-! ## The table -/

/-- The range from a character to itself has no other in it. -/
theorem le_and_le_self (d c : Char) : (decide (d ≤ c) && decide (c ≤ d)) = decide (c = d) := by
  rw [← Bool.decide_and]
  apply decide_eq_decide.2
  constructor
  · rintro ⟨hle, hge⟩
    exact Char.le_antisymm hge hle
  · rintro rfl
    exact ⟨Char.le_refl c, Char.le_refl c⟩

theorem inRanges_blanks : inRanges [(' ', ' '), ('\t', '\t'), ('\r', '\r'), ('\n', '\n')] = isBlank := by
  funext c
  simp only [inRanges, List.any_cons, List.any_nil, le_and_le_self, isBlank, Bool.or_assoc, Bool.or_false]

theorem inRanges_letters : inRanges [('a', 'z'), ('A', 'Z'), ('_', '_')] = isWordChar := by
  funext c
  have hlower : (decide ('a' ≤ c) && decide (c ≤ 'z')) = c.isLower := rfl
  have hupper : (decide ('A' ≤ c) && decide (c ≤ 'Z')) = c.isUpper := (Bool.decide_and _ _).symm
  have halpha : c.isAlpha = (c.isUpper || c.isLower) := rfl
  simp only [inRanges, List.any_cons, List.any_nil, le_and_le_self, hlower, hupper, isWordChar, halpha]
  rw [Bool.or_false, ← Bool.or_assoc, Bool.or_comm c.isLower]

theorem inRanges_digits : inRanges [('0', '9')] = Char.isDigit := by
  funext c
  simp only [inRanges, List.any_cons, List.any_nil, Bool.or_false]
  rfl

/-- Where no blank stands a word is read, or a run of digits, or one character. -/
theorem scan_cons {x : Char} (hblank : isBlank x = false) (cs : List Char) :
    scan (x :: cs) =
      if isWordChar x then
        (wordToken (String.ofList (x :: cs.takeWhile isWordChar)), cs.dropWhile isWordChar)
      else if x.isDigit then
        (digitsToken (String.ofList (x :: cs.takeWhile Char.isDigit)), cs.dropWhile Char.isDigit)
      else (symbolToken x, cs) := by
  unfold scan
  rw [List.dropWhile_cons_of_neg (by rw [hblank]; exact Bool.false_ne_true)]

/-- A character that stands alone is looked up, and it is illegal if it is not found. -/
theorem ofSymbol_eq_lookup (x : Char) : Kind.ofSymbol x = (symbols.lookup x).getD .illegal := by
  cases hlookup : symbols.lookup x with
  | some kind =>
    obtain ⟨before, after, hsymbols, -⟩ := List.lookup_eq_some_iff.1 hlookup
    have hmem : (x, kind) ∈ symbols := by
      rw [hsymbols]
      exact List.mem_append_right before List.mem_cons_self
    exact ofSymbol_symbol _ hmem
  | none =>
    apply ofSymbol_of_notMem
    rw [List.mem_map]
    rintro ⟨p, hp, rfl⟩
    have hne := List.lookup_eq_none_iff.1 hlookup p hp
    rw [bne_self_eq_false] at hne
    cases hne

namespace Matcher

variable {f : Matcher} {x : Char} {cs : List Char} {c : Cursor}

theorem first?_cons (p : Pattern) (action : Action) (rows : List (Pattern × Action)) (cs : List Char) :
    f.first? ((p, action) :: rows) cs =
      match f.find? p cs with
      | some m => some (action, m)
      | none => f.first? rows cs := by
  unfold first?
  rw [List.findSome?_cons]
  cases f.find? p cs <;> rfl

theorem first?_run (ranges : List (Char × Char)) (action : Action) (rows : List (Pattern × Action))
    (x : Char) (cs : List Char) :
    f.first? ((.run ranges, action) :: rows) (x :: cs) =
      if inRanges ranges x then some (action, x :: cs.takeWhile (inRanges ranges))
      else f.first? rows (x :: cs) := by
  rw [first?_cons, find?_eq, Pattern.find?]
  by_cases h : inRanges ranges x
  · rw [if_pos h, if_pos h]
  · rw [if_neg h, if_neg h]

/-- The characters that are tokens, one after the other. -/
theorem first?_symbols (symbols : List (Char × Kind)) (x : Char) (cs : List Char) :
    f.first? (symbols.map symbolRow) (x :: cs) =
      (symbols.lookup x).map fun kind => (.symbol kind (String.singleton x), [x]) := by
  induction symbols with
  | nil => rfl
  | cons symbol symbols ih =>
    obtain ⟨d, kind⟩ := symbol
    rw [List.map_cons, symbolRow, first?_cons, find?_eq, Pattern.find?, ih, List.lookup_cons]
    by_cases h : x = d
    · subst h
      rw [if_pos rfl, beq_self_eq_true]
      rfl
    · rw [if_neg h, beq_eq_false_iff_ne.2 h]

theorem first?_table (x : Char) (cs : List Char) :
    f.first? table (x :: cs) =
      if isBlank x then some (.drop, x :: cs.takeWhile isBlank)
      else if isWordChar x then some (.word, x :: cs.takeWhile isWordChar)
      else if x.isDigit then some (.digits, x :: cs.takeWhile Char.isDigit)
      else (symbols.lookup x).map fun kind => (.symbol kind (String.singleton x), [x]) := by
  simp only [table, List.cons_append, List.nil_append, first?_run, first?_symbols, inRanges_blanks,
    inRanges_letters, inRanges_digits]

/-- Where blanks stand all of them are dropped. -/
theorem go_blank (h : isBlank x) (c : Cursor) (cs : List Char) :
    f.go c (x :: cs) = (none, c.advance (byteLength (x :: cs.takeWhile isBlank))) := by
  rw [go, first?_table, if_pos h]
  rfl

/-- Where no blank stands the token is the one that `scan` gives, and the cursor moves past its text. -/
theorem go_of_not_blank (h : isBlank x = false) (c : Cursor) (cs : List Char) :
    ∃ m, x :: cs = m ++ (scan (x :: cs)).2 ∧
      f.go c (x :: cs) = (some (scan (x :: cs)).1, c.advance (byteLength m)) := by
  rw [go, first?_table, scan_cons h]
  simp only [h, Bool.false_eq_true, if_false]
  by_cases hletter : isWordChar x
  · simp only [hletter, if_true]
    exact ⟨_, by rw [List.cons_append, List.takeWhile_append_dropWhile], rfl⟩
  simp only [hletter, Bool.false_eq_true, if_false]
  by_cases hdigit : x.isDigit
  · simp only [hdigit, if_true]
    exact ⟨_, by rw [List.cons_append, List.takeWhile_append_dropWhile], rfl⟩
  simp only [hdigit, Bool.false_eq_true, if_false]
  refine ⟨[x], rfl, ?_⟩
  rw [symbolToken, ofSymbol_eq_lookup]
  cases symbols.lookup x with
  | some kind =>
    show Action.carryOut c [x] (.symbol kind (String.singleton x)) = _
    rw [Action.carryOut, String.toList_singleton]
    rfl
  | none => rfl

end Matcher

/-! ## Moving on and leaving -/

namespace Cursor

/-- Moving past a part of what is unread leaves the rest of it. -/
theorem advance_eq_leaving {c : Cursor} {m rest : List Char} (h : c.unread? = some (m ++ rest)) :
    c.advance (byteLength m) = c.leaving rest := by
  have hpos := pos_add_of_unread? h
  rw [byteLength_append] at hpos
  unfold advance leaving
  congr 1
  omega

/-- The next token is the same once the blanks in front of it are dropped. -/
theorem next?_leaving_dropWhile {c : Cursor} {cs : List Char} (h : c.unread? = some cs) :
    (c.leaving (cs.dropWhile isBlank)).next? = c.next? := by
  have hle : byteLength (scan cs).2 ≤ byteLength (cs.dropWhile isBlank) := by
    obtain ⟨m, hm⟩ := scan_suffix (cs.dropWhile isBlank)
    rw [scan_dropWhile] at hm
    rw [← hm, byteLength_append]
    exact Nat.le_add_left _ _
  rw [next?, next?, h, unread?_leaving h (List.dropWhile_suffix _), Option.map_some, Option.map_some,
    scan_dropWhile, leaving_leaving c _ _ hle]

/-- Before the end something is left to scan, unless the position is inside a character. -/
theorem unread?_of_not_atEnd {c : Cursor} {cs : List Char} (hend : ¬c.atEnd) (h : c.ahead? = some cs) :
    c.unread? = some cs ∧ cs ≠ [] := by
  have hunread : c.unread? = some cs := by rw [unread?, if_neg hend, h]
  have hlt : c.pos < c.size := by simpa [atEnd] using hend
  refine ⟨hunread, ?_⟩
  rintro rfl
  have hpos := pos_add_of_unread? hunread
  rw [byteLength_nil] at hpos
  omega

end Cursor

namespace Matcher

variable {f : Matcher} {c c' : Cursor} {cs : List Char} {t : Token}

/-- If carrying out the table gives a token, it is the next one, and the cursor is where it has to be. -/
theorem next?_of_go_some (h : c.unread? = some cs) (hne : cs ≠ []) (hgo : f.go c cs = (some t, c')) :
    c.next? = some (t, c') := by
  obtain ⟨x, cs, rfl⟩ := List.exists_cons_of_ne_nil hne
  by_cases hblank : isBlank x
  · rw [go_blank hblank] at hgo
    cases hgo
  · obtain ⟨m, hm, hgo'⟩ := f.go_of_not_blank (Bool.eq_false_iff.2 hblank) c cs
    rw [hgo] at hgo'
    cases hgo'
    rw [Cursor.next?, h, Option.map_some, Cursor.advance_eq_leaving (h.trans (congrArg some hm))]

/-- If carrying out the table gives no token, the next one is still to come. -/
theorem next?_of_go_none (h : c.unread? = some cs) (hne : cs ≠ []) (hgo : f.go c cs = (none, c')) :
    c'.next? = c.next? := by
  obtain ⟨x, cs, rfl⟩ := List.exists_cons_of_ne_nil hne
  by_cases hblank : isBlank x
  · rw [go_blank hblank] at hgo
    cases hgo
    have hsplit : x :: cs = (x :: cs.takeWhile isBlank) ++ (x :: cs).dropWhile isBlank := by
      rw [List.dropWhile_cons_of_pos hblank, List.cons_append, List.takeWhile_append_dropWhile]
    rw [Cursor.advance_eq_leaving (h.trans (congrArg some hsplit)), Cursor.next?_leaving_dropWhile h]
  · obtain ⟨m, -, hgo'⟩ := f.go_of_not_blank (Bool.eq_false_iff.2 hblank) c cs
    rw [hgo] at hgo'
    cases hgo'

/-- Reading by the table is reading with `scan`: the same token, the same place afterwards, and no answer
from inside a character. -/
theorem next?_eq (f : Matcher) (c : Cursor) : f.next? c = c.next? := by
  fun_induction f.next? c with
  | case1 c hend =>
    have hle : c.size ≤ c.pos := of_decide_eq_true hend
    have hadvance : c.advance (byteLength []) = c.leaving [] :=
      Cursor.advance_eq_leaving (Cursor.unread?_of_size_le hle)
    rw [Cursor.next?, Cursor.unread?_of_size_le hle, Option.map_some, scan_nil, ← hadvance]
    rfl
  | case2 c hend hahead => rw [Cursor.next?, Cursor.unread?, if_neg hend, hahead, Option.map_none]
  | case3 c hend cs hahead t c' hgo =>
    obtain ⟨hunread, hne⟩ := Cursor.unread?_of_not_atEnd hend hahead
    exact (next?_of_go_some hunread hne hgo).symm
  | case4 c hend cs hahead c' hgo ih =>
    obtain ⟨hunread, hne⟩ := Cursor.unread?_of_not_atEnd hend hahead
    rw [ih, next?_of_go_none hunread hne hgo]

end Matcher

end LetLang
