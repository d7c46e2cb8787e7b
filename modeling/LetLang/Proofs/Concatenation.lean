import Mathlib.Data.List.TakeWhile
import LetLang.Scan

/-!
# Texts one behind the other

Of two texts one behind the other, each is read as it would be alone, unless a word or a run of digits
goes on from the first into the second.

    Apart as bs → scanAll (as ++ bs) = scanAll as ++ scanAll bs                    (scanAll_append)
    scanAll (as ++ c :: bs) = scanAll as ++ scanAll (c :: bs) for a border c    (scanAll_append_cons)
-/

namespace LetLang

/-- Side by side, the two characters stand in one token. -/
def Clings (c d : Char) : Prop := (isWordChar c ∧ isWordChar d) ∨ (c.isDigit ∧ d.isDigit)

/-- No token goes on across the place where the texts meet. -/
def Apart (as bs : List Char) : Prop := ∀ c ∈ as.getLast?, ∀ d ∈ bs.head?, ¬Clings c d

theorem Apart.of_suffix {as cs bs : List Char} (h : Apart cs bs) (hs : as <:+ cs) : Apart as bs := by
  obtain ⟨pre, rfl⟩ := hs
  intro c hc d hd
  refine h c ?_ d hd
  rw [List.getLast?_append, hc]
  rfl

/-! ## Runs of one class -/

theorem run_append {p : Char → Bool} {as bs : List Char}
    (h : (∀ c ∈ as, p c) → ∀ d ∈ bs.head?, p d = false) :
    (as ++ bs).takeWhile p = as.takeWhile p ∧ (as ++ bs).dropWhile p = as.dropWhile p ++ bs := by
  induction as with
  | nil =>
    cases bs with
    | nil => exact ⟨rfl, rfl⟩
    | cons d bs =>
      have hd : p d = false := h (by simp) d rfl
      simp [hd]
  | cons a as ih =>
    by_cases ha : p a
    · have hrun := ih fun hall => h (List.forall_mem_cons.2 ⟨ha, hall⟩)
      simp [ha, hrun.1, hrun.2]
    · simp [ha]

/-- A class whose characters cling to each other ends where the texts meet. -/
theorem Apart.run {p : Char → Bool} {c : Char} {as bs : List Char} (h : Apart (c :: as) bs)
    (hp : ∀ c d, p c → p d → Clings c d) (hc : p c) :
    (as ++ bs).takeWhile p = as.takeWhile p ∧ (as ++ bs).dropWhile p = as.dropWhile p ++ bs := by
  apply run_append
  intro hall d hd
  apply Bool.eq_false_iff.2
  intro hpd
  have hcons : ∀ x ∈ c :: as, p x := List.forall_mem_cons.2 ⟨hc, hall⟩
  have hlast := List.getLast_mem (List.cons_ne_nil c as)
  exact h _ (List.getLast?_eq_some_getLast _) d hd (hp _ _ (hcons _ hlast) hpd)

/-! ## The first token -/

theorem kind_scan_eq_eof_iff {cs : List Char} :
    (scan cs).1.kind = .eof ↔ cs.dropWhile isBlank = [] := by
  constructor
  · intro h
    unfold scan at h
    split at h
    · assumption
    · exfalso
      split at h
      · exact Kind.ofWord_ne_eof _ h
      · split at h
        · cases h
        · exact Kind.ofSymbol_ne_eof _ h
  · intro h
    unfold scan
    rw [h]
    rfl

theorem scan_append_of_eof {as : List Char} (h : (scan as).1.kind = .eof) (bs : List Char) :
    scan (as ++ bs) = scan bs := by
  have hall : ∀ c ∈ as, isBlank c := List.dropWhile_eq_nil_iff.1 (kind_scan_eq_eof_iff.1 h)
  rw [← scan_dropWhile, List.dropWhile_append_of_pos hall, scan_dropWhile]

theorem scan_append {as bs : List Char} (h : Apart as bs) (hne : (scan as).1.kind ≠ .eof) :
    scan (as ++ bs) = ((scan as).1, (scan as).2 ++ bs) := by
  rw [ne_eq, kind_scan_eq_eof_iff] at hne
  obtain ⟨c, rest, hc⟩ := List.exists_cons_of_ne_nil hne
  have happend : (as ++ bs).dropWhile isBlank = c :: (rest ++ bs) := by
    rw [List.dropWhile_append, hc]
    rfl
  have hrest : Apart (c :: rest) bs := h.of_suffix (hc ▸ List.dropWhile_suffix _)
  unfold scan
  rw [hc, happend]
  by_cases hw : isWordChar c
  · obtain ⟨htake, hdrop⟩ := hrest.run (fun _ _ hc hd => .inl ⟨hc, hd⟩) hw
    simp only [hw, if_true, htake, hdrop]
  · by_cases hn : c.isDigit
    · obtain ⟨htake, hdrop⟩ := hrest.run (fun _ _ hc hd => .inr ⟨hc, hd⟩) hn
      simp [hw, hn, htake, hdrop]
    · simp [hw, hn]

/-! ## Whole texts -/

/-- Texts that meet between tokens are read one after the other. -/
theorem scanAll_append {as bs : List Char} (h : Apart as bs) :
    scanAll (as ++ bs) = scanAll as ++ scanAll bs := by
  fun_induction scanAll as with
  | case1 as t rest hscan ht =>
    have heof : (scan as).1.kind = .eof := by rw [hscan]; exact ht
    rw [scanAll_eq, scan_append_of_eof heof, ← scanAll_eq, List.nil_append]
  | case2 as t rest hscan ht ih =>
    have hne : (scan as).1.kind ≠ .eof := by rw [hscan]; exact ht
    have happend := scan_append h hne
    have hsuffix := scan_suffix as
    rw [hscan] at happend hsuffix
    rw [scanAll_of_ne_eof (by rw [happend]; exact ht), happend, ih (h.of_suffix hsuffix)]
    rfl

/-! ## Borders -/

/-- Characters that cling to none, blanks and symbols. -/
def isBorder (c : Char) : Bool := !isWordChar c && !c.isDigit

theorem not_clings_of_isBorder {d : Char} (h : isBorder d) (c : Char) : ¬Clings c d := by
  simp only [isBorder, Bool.and_eq_true, Bool.not_eq_true'] at h
  simp [Clings, h.1, h.2]

theorem scanAll_append_cons (as : List Char) {d : Char} (hd : isBorder d) (bs : List Char) :
    scanAll (as ++ d :: bs) = scanAll as ++ scanAll (d :: bs) := by
  apply scanAll_append
  intro c _ e he
  cases he
  exact not_clings_of_isBorder hd c

/-! ## Single tokens -/

theorem scanAll_blank {c : Char} (hc : isBlank c) (cs : List Char) :
    scanAll (c :: cs) = scanAll cs := by
  have h : (c :: cs).dropWhile isBlank = cs.dropWhile isBlank := List.dropWhile_cons_of_pos hc
  rw [scanAll_eq, ← scan_dropWhile, h, scan_dropWhile, ← scanAll_eq]

theorem scan_symbol {c : Char} (hb : isBorder c) (hc : isBlank c = false) (cs : List Char) :
    scan (c :: cs) = (symbolToken c, cs) := by
  simp only [isBorder, Bool.and_eq_true, Bool.not_eq_true'] at hb
  unfold scan
  rw [List.dropWhile_cons_of_neg (by simp [hc])]
  simp [hb.1, hb.2]

theorem scanAll_symbol {c : Char} (hb : isBorder c) (hc : isBlank c = false) (cs : List Char) :
    scanAll (c :: cs) = symbolToken c :: scanAll cs := by
  have hscan := scan_symbol hb hc cs
  rw [scanAll_of_ne_eof (by rw [hscan]; exact Kind.ofSymbol_ne_eof c), hscan]

theorem isBorder_of_isBlank {c : Char} (h : isBlank c) : isBorder c := by
  simp only [isBlank, Bool.or_eq_true, decide_eq_true_eq] at h
  rcases h with ((rfl | rfl) | rfl) | rfl <;> decide

theorem toNat_lt_of_isAlpha {c : Char} (h : c.isAlpha) : '9'.toNat < c.toNat := by
  rcases Bool.or_eq_true_iff.1 h with hupper | hlower
  · have hle : 'A'.val ≤ c.val := (of_decide_eq_true hupper).1
    exact Nat.lt_of_lt_of_le (by decide) (UInt32.le_iff_toNat_le.1 hle)
  · have hle : 'a'.val ≤ c.val := of_decide_eq_true (Bool.and_eq_true_iff.1 hlower).1
    exact Nat.lt_of_lt_of_le (by decide) (UInt32.le_iff_toNat_le.1 hle)

theorem isWordChar_eq_false_of_isDigit {c : Char} (h : c.isDigit) : isWordChar c = false := by
  apply Bool.eq_false_iff.2
  intro hw
  simp only [isWordChar, Bool.or_eq_true, decide_eq_true_eq] at hw
  rcases hw with hw | rfl
  · have hlt := toNat_lt_of_isAlpha hw
    have hle := (Char.isDigit_iff_toNat.1 h).2
    omega
  · revert h
    decide

theorem scan_word {word : String} (hne : word ≠ "") (h : word.toList.all isWordChar) :
    scan word.toList = (wordToken word, []) := by
  obtain ⟨c, cs, hcs⟩ := List.exists_cons_of_ne_nil (mt String.toList_eq_nil_iff.1 hne)
  rw [hcs, List.all_cons, Bool.and_eq_true, List.all_eq_true] at h
  have hblank : ¬isBlank c := by
    intro hb
    simpa [isBorder, h.1] using isBorder_of_isBlank hb
  unfold scan
  rw [hcs, List.dropWhile_cons_of_neg hblank]
  simp only [h.1, if_true, List.takeWhile_eq_self_iff.2 h.2, List.dropWhile_eq_nil_iff.2 h.2, ← hcs,
    String.ofList_toList]

theorem scanAll_word {word : String} (hne : word ≠ "") (h : word.toList.all isWordChar) :
    scanAll word.toList = [wordToken word] := by
  have hscan := scan_word hne h
  rw [scanAll_of_ne_eof (by rw [hscan]; exact Kind.ofWord_ne_eof word), hscan, scanAll_nil]

theorem scan_digits {digits : String} (hne : digits ≠ "") (h : digits.toList.all Char.isDigit) :
    scan digits.toList = (digitsToken digits, []) := by
  obtain ⟨c, cs, hcs⟩ := List.exists_cons_of_ne_nil (mt String.toList_eq_nil_iff.1 hne)
  rw [hcs, List.all_cons, Bool.and_eq_true, List.all_eq_true] at h
  have hblank : ¬isBlank c := by
    intro hb
    simpa [isBorder, h.1] using isBorder_of_isBlank hb
  unfold scan
  rw [hcs, List.dropWhile_cons_of_neg hblank]
  simp only [h.1, isWordChar_eq_false_of_isDigit h.1, if_true, List.takeWhile_eq_self_iff.2 h.2,
    List.dropWhile_eq_nil_iff.2 h.2, ← hcs, String.ofList_toList]
  rfl

theorem scanAll_digits {digits : String} (hne : digits ≠ "") (h : digits.toList.all Char.isDigit) :
    scanAll digits.toList = [digitsToken digits] := by
  have hscan := scan_digits hne h
  rw [scanAll_of_ne_eof (by rw [hscan]; exact nofun), hscan, scanAll_nil]

end LetLang
