import LetLang.Scan

/-!
# Cursors

A cursor is a text with a position counted in UTF-8 bytes.  `advance` moves the position by any
number of bytes and checks nothing, so a cursor can stand inside a character or past the end.
Reading answers `none` where there is nothing to read from: `ahead?` inside a character and past
the end, the token readers `next?` and `drain?` inside a character only, since past the end there is
still the end token.

    c.unread? = some cs → c.pos + byteLength cs = max c.pos c.size                  (pos_add_of_unread?)
    c.next? = some (t, c') → t.kind ≠ .eof → c.pos < c'.pos ∧ c'.pos ≤ c.size       (pos_lt_of_next?)
    c.drain? is reading with next?, again and again, up to the end token             (drain?_eq)
-/

namespace LetLang

/-! ## Bytes of a text -/

/-- The length of a text written in UTF-8. -/
def byteLength : List Char → Nat
  | [] => 0
  | c :: cs => c.utf8Size + byteLength cs

/-- What follows the first `n` bytes, unless they end inside a character or past the end. -/
def dropBytes : Nat → List Char → Option (List Char)
  | 0, cs => some cs
  | _ + 1, [] => none
  | n + 1, c :: cs => if c.utf8Size ≤ n + 1 then dropBytes (n + 1 - c.utf8Size) cs else none

@[simp] theorem byteLength_nil : byteLength [] = 0 := rfl

@[simp] theorem byteLength_cons (c : Char) (cs : List Char) :
    byteLength (c :: cs) = c.utf8Size + byteLength cs := rfl

@[simp] theorem byteLength_append (as bs : List Char) :
    byteLength (as ++ bs) = byteLength as + byteLength bs := by
  induction as with
  | nil => simp
  | cons a as ih => simp [ih, Nat.add_assoc]

theorem byteLength_pos {cs : List Char} (h : cs ≠ []) : 0 < byteLength cs := by
  cases cs with
  | nil => exact absurd rfl h
  | cons c cs =>
    have := c.utf8Size_pos
    rw [byteLength_cons]; omega

@[simp] theorem dropBytes_zero (cs : List Char) : dropBytes 0 cs = some cs := by
  cases cs <;> rfl

/-- Dropping succeeds exactly where some characters at the front take `n` bytes. -/
theorem dropBytes_eq_some_iff {n : Nat} {cs rest : List Char} :
    dropBytes n cs = some rest ↔ ∃ front, cs = front ++ rest ∧ byteLength front = n := by
  fun_induction dropBytes n cs with
  | case1 cs =>
    constructor
    · rintro ⟨rfl⟩
      exact ⟨[], rfl, rfl⟩
    · rintro ⟨front, rfl, h⟩
      have : front = [] := Classical.byContradiction fun hne => absurd h (Nat.ne_of_gt (byteLength_pos hne))
      simp [this]
  | case2 n =>
    constructor
    · intro h; cases h
    · rintro ⟨front, h, hn⟩
      obtain ⟨rfl, rfl⟩ := List.append_eq_nil_iff.1 h.symm
      cases hn
  | case3 n c cs hle ih =>
    rw [ih]
    clear ih
    constructor
    · rintro ⟨front, rfl, h⟩
      refine ⟨c :: front, rfl, ?_⟩
      rw [byteLength_cons, h]
      omega
    · rintro ⟨front, h, hn⟩
      cases front with
      | nil => cases hn
      | cons d front =>
        obtain ⟨rfl, rfl⟩ := List.cons.inj h
        exact ⟨front, rfl, by rw [byteLength_cons] at hn; omega⟩
  | case4 n c cs hle =>
    constructor
    · intro h; cases h
    · rintro ⟨front, h, hn⟩
      cases front with
      | nil => cases hn
      | cons d front =>
        obtain ⟨rfl, rfl⟩ := List.cons.inj h
        rw [byteLength_cons] at hn; omega

theorem add_byteLength_of_dropBytes {n : Nat} {cs rest : List Char}
    (h : dropBytes n cs = some rest) : n + byteLength rest = byteLength cs := by
  obtain ⟨front, rfl, rfl⟩ := dropBytes_eq_some_iff.1 h
  rw [byteLength_append]

/-! ## Algorithm -/

/-- A text and a position in it, counted in bytes and not checked. -/
structure Cursor where
  text : List Char
  pos : Nat
  deriving DecidableEq

namespace Cursor

/-- The cursor at the start of a text. -/
def ofString (source : String) : Cursor := ⟨source.toList, 0⟩

/-- The length of the text in bytes. -/
def size (c : Cursor) : Nat := byteLength c.text

/-- Whether the position is at the end of the text or past it. -/
def atEnd (c : Cursor) : Bool := c.size ≤ c.pos

/-- Moves the position by `n` bytes, wherever that leads.  There is no last position: the move is made even
where a machine word could not hold the place it leads to, which a program that counts in words has to rule
out. -/
def advance (c : Cursor) (n : Nat) : Cursor := { c with pos := c.pos + n }

/-- The text from the position on; `none` inside a character and past the end. -/
def ahead? (c : Cursor) : Option (List Char) := dropBytes c.pos c.text

/-- The text from the position on, as a string. -/
def remainder? (c : Cursor) : Option String := c.ahead?.map String.ofList

/-- The character at the position; at the very end of the text, the null character. -/
def char? (c : Cursor) : Option Char := c.ahead?.map (·.headD '\x00')

/-- What is left to scan: nothing at the end and past it, and `none` inside a character. -/
def unread? (c : Cursor) : Option (List Char) := if c.atEnd then some [] else c.ahead?

/-- The cursor with only `rest` left to read.  It never moves back. -/
def leaving (c : Cursor) (rest : List Char) : Cursor :=
  { c with pos := max c.pos (c.size - byteLength rest) }

/-- The next token, or the end token once the text is used up. -/
def next? (c : Cursor) : Option (Token × Cursor) :=
  c.unread?.map fun cs => ((scan cs).1, c.leaving (scan cs).2)

/-- All tokens that are left, without the end token, and the cursor once they are read. -/
def drain? (c : Cursor) : Option (List Token × Cursor) :=
  c.unread?.map fun cs => (scanAll cs, c.leaving [])

/-! ## Lemmas -/

@[simp] theorem size_leaving (c : Cursor) (rest : List Char) : (c.leaving rest).size = c.size := rfl

@[simp] theorem pos_leaving (c : Cursor) (rest : List Char) :
    (c.leaving rest).pos = max c.pos (c.size - byteLength rest) := rfl

theorem pos_add_of_unread? {c : Cursor} {cs : List Char} (h : c.unread? = some cs) :
    c.pos + byteLength cs = max c.pos c.size := by
  unfold unread? at h
  split at h
  · next he =>
    obtain rfl := Option.some.inj h
    have : c.size ≤ c.pos := by simpa [atEnd] using he
    simp only [byteLength_nil]; omega
  · have := add_byteLength_of_dropBytes h
    simp only [size]; omega

/-- At the end and past it nothing is left. -/
theorem unread?_of_size_le {c : Cursor} (h : c.size ≤ c.pos) : c.unread? = some [] := by
  simp [unread?, atEnd, h]

/-- Reading up to some end part of the unread text leaves exactly that part unread. -/
theorem unread?_leaving {c : Cursor} {cs rest : List Char} (h : c.unread? = some cs)
    (hs : rest <:+ cs) : (c.leaving rest).unread? = some rest := by
  have hp := pos_add_of_unread? h
  obtain ⟨front, rfl⟩ := hs
  rw [byteLength_append] at hp
  unfold unread? at h
  split at h
  · next he =>
    have hnil := Option.some.inj h
    obtain ⟨rfl, rfl⟩ := List.append_eq_nil_iff.1 hnil.symm
    have : c.size ≤ c.pos := by simpa [atEnd] using he
    exact unread?_of_size_le (by simp only [size_leaving, pos_leaving]; omega)
  · next he =>
    have hlt : c.pos < c.size := by simpa [atEnd] using he
    cases rest with
    | nil => exact unread?_of_size_le (by simp only [size_leaving, pos_leaving, byteLength_nil]; omega)
    | cons d rest =>
      have hd : 0 < byteLength (d :: rest) := byteLength_pos (by simp)
      have hpos : (c.leaving (d :: rest)).pos = c.pos + byteLength front := by
        simp only [pos_leaving]; omega
      unfold unread?
      rw [if_neg (by simp only [atEnd, size_leaving, hpos, decide_eq_true_eq]; omega)]
      obtain ⟨before, ht, hb⟩ := dropBytes_eq_some_iff.1 h
      refine dropBytes_eq_some_iff.2 ⟨before ++ front, ?_, ?_⟩
      · rw [List.append_assoc]; exact ht
      · rw [byteLength_append, hb, hpos]

theorem next?_eq_some_iff {c c' : Cursor} {t : Token} :
    c.next? = some (t, c') ↔
      ∃ cs, c.unread? = some cs ∧ t = (scan cs).1 ∧ c' = c.leaving (scan cs).2 := by
  unfold next?
  rw [Option.map_eq_some_iff]
  constructor
  · rintro ⟨cs, h, h'⟩
    obtain ⟨rfl, rfl⟩ := Prod.mk.inj h'
    exact ⟨cs, h, rfl, rfl⟩
  · rintro ⟨cs, h, rfl, rfl⟩
    exact ⟨cs, h, rfl⟩

/-- A token other than the end moves the cursor on, and never past the end. -/
theorem pos_lt_of_next? {c c' : Cursor} {t : Token} (h : c.next? = some (t, c'))
    (ht : t.kind ≠ .eof) : c.pos < c'.pos ∧ c'.pos ≤ c.size := by
  obtain ⟨cs, hu, rfl, rfl⟩ := next?_eq_some_iff.1 h
  have hp := pos_add_of_unread? hu
  have hlt := length_scan_lt ht
  obtain ⟨front, hf⟩ := scan_suffix cs
  have hfront : front ≠ [] := by
    rintro rfl
    rw [List.nil_append] at hf
    rw [hf] at hlt
    exact Nat.lt_irrefl _ hlt
  have hpos := byteLength_pos hfront
  have hlen : byteLength front + byteLength (scan cs).2 = byteLength cs := by
    rw [← byteLength_append, hf]
  simp only [pos_leaving]
  omega

/-! ## Draining -/

/-- Leaving twice is leaving once, at the later place. -/
theorem leaving_leaving (c : Cursor) (rest rest' : List Char)
    (h : byteLength rest' ≤ byteLength rest) : (c.leaving rest).leaving rest' = c.leaving rest' := by
  simp only [leaving, size]
  congr 1
  omega

/-- Draining is reading one token after the other up to the end token, which is not listed. -/
theorem drain?_eq (c : Cursor) :
    c.drain? =
      match c.next? with
      | none => none
      | some (t, c') =>
        if t.kind = .eof then some ([], c')
        else c'.drain?.map fun (ts, last) => (t :: ts, last) := by
  cases hu : c.unread? with
  | none => simp only [drain?, next?, hu, Option.map_none]
  | some cs =>
    have hd : c.drain? = some (scanAll cs, c.leaving []) := by rw [drain?, hu, Option.map_some]
    have hn : c.next? = some ((scan cs).1, c.leaving (scan cs).2) := by
      rw [next?, hu, Option.map_some]
    have hl : (c.leaving (scan cs).2).drain? =
        some (scanAll (scan cs).2, (c.leaving (scan cs).2).leaving []) := by
      rw [drain?, unread?_leaving hu (scan_suffix cs), Option.map_some]
    rw [hd, hn]
    by_cases ht : (scan cs).1.kind = .eof
    · simp only [scanAll_of_eof ht, scan_eq_of_kind_eof ht, Token.kind_eof, if_true]
    · simp only [ht, if_false, hl, Option.map_some, scanAll_of_ne_eof ht,
        leaving_leaving c (scan cs).2 [] (by simp)]

end Cursor

end LetLang
