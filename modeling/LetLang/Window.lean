import LetLang.Cursor
import LetLang.Stream

/-!
# The window on a text

A window shows two tokens, the current one and the one after it, and holds the text that is still to
be scanned.  Moving it on scans one more token, so no more is read ahead than that.

    (Window.ofChars cs).toList = scanAll cs                       (Window.toList_ofChars)
    w.step.toList = w.toList.tail                                 (Window.toList_step)
-/

namespace LetLang

/-- Two tokens and the text after them.  The end token is followed by nothing but itself. -/
structure Window where
  current : Token
  next : Token
  rest : List Char
  current_eof : current.kind = .eof → current = Token.eof ∧ next = Token.eof
  next_eof : next.kind = .eof → next = Token.eof ∧ rest = []

namespace Window

/-! ## Algorithm -/

/-- The window on the start of a text. -/
def ofChars (cs : List Char) : Window where
  current := (scan cs).1
  next := (scan (scan cs).2).1
  rest := (scan (scan cs).2).2
  current_eof h := by rw [scan_eq_of_kind_eof h]; exact ⟨rfl, rfl⟩
  next_eof h := by rw [scan_eq_of_kind_eof h]; exact ⟨rfl, rfl⟩

/-- The window on the start of a source. -/
def ofString (source : String) : Window := ofChars source.toList

/-- The window on what a cursor has still to read; there is none inside a character. -/
def ofCursor? (c : Cursor) : Option Window := c.unread?.map ofChars

/-- The window one token further on. -/
def step (w : Window) : Window where
  current := w.next
  next := (scan w.rest).1
  rest := (scan w.rest).2
  current_eof h := by
    obtain ⟨hn, hr⟩ := w.next_eof h
    rw [hr]
    exact ⟨hn, rfl⟩
  next_eof h := by rw [scan_eq_of_kind_eof h]; exact ⟨rfl, rfl⟩

/-- The tokens that the window shows and has still to show, without the end. -/
def toList (w : Window) : List Token :=
  [w.current, w.next].filter (·.kind ≠ .eof) ++ scanAll w.rest

/-! ## Lemmas -/

theorem toList_of_current_eof {w : Window} (h : w.current.kind = .eof) : w.toList = [] := by
  obtain ⟨hc, hn⟩ := w.current_eof h
  obtain ⟨_, hr⟩ := w.next_eof (by rw [hn]; rfl)
  simp [toList, hc, hn, hr, scanAll_nil]

theorem toList_of_current_ne_eof {w : Window} (h : w.current.kind ≠ .eof) :
    w.toList = w.current :: w.step.toList := by
  by_cases hn : w.next.kind = .eof
  · rw [toList_of_current_eof (w := w.step) hn]
    obtain ⟨_, hr⟩ := w.next_eof hn
    simp [toList, h, hn, hr, scanAll_nil]
  · rw [toList, toList, scanAll_eq w.rest]
    by_cases hs : (scan w.rest).1.kind = .eof
    · simp [step, h, hn, scan_eq_of_kind_eof hs, scanAll_nil]
    · simp [step, h, hn, hs]

theorem current_eq_headD (w : Window) : w.current = w.toList.headD Token.eof := by
  by_cases h : w.current.kind = .eof
  · rw [toList_of_current_eof h, (w.current_eof h).1]; rfl
  · rw [toList_of_current_ne_eof h]; rfl

theorem toList_step (w : Window) : w.step.toList = w.toList.tail := by
  by_cases h : w.current.kind = .eof
  · have hn : w.step.current.kind = .eof := by
      have : w.step.current = Token.eof := (w.current_eof h).2
      rw [this]; rfl
    rw [toList_of_current_eof h, toList_of_current_eof hn]; rfl
  · rw [toList_of_current_ne_eof h]; rfl

theorem length_toList_le (w : Window) : w.toList.length ≤ w.rest.length + 2 := by
  have h := length_scanAll_le w.rest
  have hf := List.length_filter_le (fun t : Token => decide (t.kind ≠ .eof)) [w.current, w.next]
  simp only [toList, List.length_append]
  simp only [List.length_cons, List.length_nil] at hf
  omega

instance : TokenStream Window where
  current := Window.current
  advance := step
  left w := w.rest.length + 2
  tokens := toList
  current_eq := current_eq_headD
  tokens_advance := toList_step
  length_tokens_le := length_toList_le

/-- The window on a text has the tokens of the text. -/
theorem toList_ofChars (cs : List Char) : (ofChars cs).toList = scanAll cs := by
  by_cases h : (scan cs).1.kind = .eof
  · rw [toList_of_current_eof h, scanAll_of_eof h]
  · rw [toList, scanAll_of_ne_eof h, scanAll_eq (scan cs).2]
    by_cases hn : (scan (scan cs).2).1.kind = .eof
    · simp [ofChars, h, scan_eq_of_kind_eof hn, scanAll_nil]
    · simp [ofChars, h, hn]

end Window

end LetLang
