import LetLang.Token

/-!
# Scanning

`scan` reads one token off the front of a text: it drops the blanks, then takes the longest word,
the longest run of digits, or one character.  At the end of the text it gives `Token.eof` and keeps
giving it.  `scanAll` reads a text to its end, and `tokenize` closes the list with the end token.

A table of patterns, tried one after the other, reads the same (`Matcher.next?_eq`).  That takes a way of
matching that is anchored at the front of the text, greedy, and finds a match wherever there is one.

    (scan cs).1.kind = .eof → scan cs = (Token.eof, [])                      (scan_eq_of_kind_eof)
    (scan cs).1.kind ≠ .eof → (scan cs).2.length < cs.length                 (length_scan_lt)
    scanAll cs = if the first token is the end then [] else it, then the rest     (scanAll_eq)
-/

namespace LetLang

/-! ## Character classes -/

/-- Blanks separate tokens and belong to none. -/
def isBlank (c : Char) : Bool := c = ' ' || c = '\t' || c = '\r' || c = '\n'

/-- Words are made of unaccented letters and underscores. -/
def isWordChar (c : Char) : Bool := c.isAlpha || c = '_'

/-! ## Algorithm -/

/-- The token of a whole word. -/
def wordToken (word : String) : Token := ⟨Kind.ofWord word, word⟩

/-- The token of a whole run of digits; the digits are kept as they are written. -/
def digitsToken (digits : String) : Token := ⟨.integer, digits⟩

/-- The token of a character that stands alone. -/
def symbolToken (c : Char) : Token := ⟨Kind.ofSymbol c, String.singleton c⟩

/-- The first token of a text and the text after it. -/
def scan (cs : List Char) : Token × List Char :=
  match cs.dropWhile isBlank with
  | [] => (Token.eof, [])
  | c :: rest =>
    if isWordChar c then
      (wordToken (String.ofList (c :: rest.takeWhile isWordChar)), rest.dropWhile isWordChar)
    else if c.isDigit then
      (digitsToken (String.ofList (c :: rest.takeWhile Char.isDigit)), rest.dropWhile Char.isDigit)
    else
      (symbolToken c, rest)

/-! ## Lemmas -/

theorem length_dropWhile_le {α : Type} (p : α → Bool) (l : List α) :
    (l.dropWhile p).length ≤ l.length :=
  (List.dropWhile_suffix p).length_le

theorem scan_nil : scan [] = (Token.eof, []) := rfl

/-- Leading blanks do not matter. -/
theorem scan_dropWhile (cs : List Char) : scan (cs.dropWhile isBlank) = scan cs := by
  have h : (cs.dropWhile isBlank).dropWhile isBlank = cs.dropWhile isBlank := by
    induction cs with
    | nil => rfl
    | cons c cs ih => by_cases hc : isBlank c <;> simp [hc, ih]
  unfold scan
  rw [h]

/-- The end token comes with nothing left to read. -/
theorem scan_eq_of_kind_eof {cs : List Char} (h : (scan cs).1.kind = .eof) :
    scan cs = (Token.eof, []) := by
  unfold scan at h ⊢
  split at h
  · rfl
  · split at h
    · exact absurd h (Kind.ofWord_ne_eof _)
    · split at h
      · exact absurd h (by simp [digitsToken])
      · exact absurd h (Kind.ofSymbol_ne_eof _)

/-- What is left after a token is an end part of the text. -/
theorem scan_suffix (cs : List Char) : (scan cs).2 <:+ cs := by
  have hd : cs.dropWhile isBlank <:+ cs := List.dropWhile_suffix _
  unfold scan
  split
  · exact List.nil_suffix
  · next c rest hc =>
    have hr : rest <:+ cs := (List.suffix_cons c rest).trans (hc ▸ hd)
    split
    · exact (List.dropWhile_suffix _).trans hr
    · split
      · exact (List.dropWhile_suffix _).trans hr
      · exact hr

/-- Every token other than the end takes at least one character. -/
theorem length_scan_lt {cs : List Char} (h : (scan cs).1.kind ≠ .eof) :
    (scan cs).2.length < cs.length := by
  have hd := length_dropWhile_le isBlank cs
  unfold scan at h ⊢
  split
  · next hn => simp [hn] at h
  · next c rest hc =>
    rw [hc, List.length_cons] at hd
    have hw := length_dropWhile_le isWordChar rest
    have hn := length_dropWhile_le Char.isDigit rest
    split
    · simp only; omega
    · split <;> (simp only; omega)

/-! ## Whole texts -/

/-- The tokens of a text, without the end token. -/
def scanAll (cs : List Char) : List Token :=
  match _h : scan cs with
  | (token, rest) =>
    if _ht : token.kind = .eof then [] else token :: scanAll rest
termination_by cs.length
decreasing_by
  have h : (scan cs).2.length < cs.length := length_scan_lt (by rw [_h]; exact _ht)
  rwa [_h] at h

/-- The tokens of a source; the last one, and only that, is the end token. -/
def tokenize (source : String) : List Token := scanAll source.toList ++ [Token.eof]

theorem scanAll_eq (cs : List Char) :
    scanAll cs = if (scan cs).1.kind = .eof then [] else (scan cs).1 :: scanAll (scan cs).2 := by
  rw [scanAll]
  split
  next t r h => simp [h]

theorem scanAll_nil : scanAll [] = [] := by
  rw [scanAll_eq, scan_nil]; rfl

theorem scanAll_of_eof {cs : List Char} (h : (scan cs).1.kind = .eof) : scanAll cs = [] := by
  rw [scanAll_eq, if_pos h]

theorem scanAll_of_ne_eof {cs : List Char} (h : (scan cs).1.kind ≠ .eof) :
    scanAll cs = (scan cs).1 :: scanAll (scan cs).2 := by
  rw [scanAll_eq, if_neg h]

/-- No token of a text is the end token. -/
theorem kind_ne_eof_of_mem_scanAll (cs : List Char) : ∀ t ∈ scanAll cs, t.kind ≠ .eof := by
  fun_induction scanAll cs with
  | case1 => simp
  | case2 cs t r _ ht ih => simpa [ht] using ih

/-- A text has no more tokens than characters. -/
theorem length_scanAll_le (cs : List Char) : (scanAll cs).length ≤ cs.length := by
  fun_induction scanAll cs with
  | case1 => simp
  | case2 cs t r h ht ih =>
    have hlt : (scan cs).2.length < cs.length := length_scan_lt (by rw [h]; exact ht)
    rw [h] at hlt
    simp only [List.length_cons] at hlt ⊢
    omega

end LetLang
