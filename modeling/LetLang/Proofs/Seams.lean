import LetLang.Proofs.Lexemes

/-!
# Where two texts meet

Two texts one behind the other have the tokens of the first and then those of the second, or a token goes
on across the place where they meet.  The second is so just if the characters that come side by side there
are both of words or both of numbers.  For a token that ends the first text is read again in front of the
second only if it does not go on there.

    scanAll (as ++ bs) = scanAll as ++ scanAll bs ↔ Apart as bs                  (scanAll_append_iff)
    the same of sources, with the classes of the two characters               (tokenize_append_iff)
-/

namespace LetLang

theorem Clings.symm {c d : Char} (h : Clings c d) : Clings d c := h.imp And.symm And.symm

/-- Only the end of the first text counts. -/
theorem apart_append_iff {as bs cs : List Char} (h : bs ≠ []) : Apart (as ++ bs) cs ↔ Apart bs cs := by
  rw [Apart, Apart, List.getLast?_append_of_ne_nil as h]

theorem Lexeme.isBlank_eq_false {k : Kind} {x : String} {c : Char} (h : Lexeme k x)
    (hc : c ∈ x.toList) : isBlank c = false := by
  apply Bool.eq_false_iff.2
  intro hblank
  have hborder := isBorder_of_isBlank hblank
  simp only [isBorder, Bool.and_eq_true, Bool.not_eq_true'] at hborder
  cases h with
  | keyword h => simpa [hborder.1] using List.all_eq_true.1 (isWordChar_keyword _ h).2 c hc
  | identifier h => simpa [hborder.1] using List.all_eq_true.1 h.2.1 c hc
  | integer h => simpa [hborder.2] using List.all_eq_true.1 h.2 c hc
  | symbol h =>
    obtain rfl : c = _ := by simpa using hc
    simp [(isBorder_symbol _ h).2] at hblank
  | illegal h =>
    obtain rfl : c = _ := by simpa using hc
    simp [h.1] at hblank

/-- A lexeme starts where the blanks in front of it end. -/
theorem dropWhile_lexeme {lead rest : List Char} {t : Token} (hlead : ∀ c ∈ lead, isBlank c)
    (ht : Lexeme t.kind t.text) :
    (lead ++ (t.text.toList ++ rest)).dropWhile isBlank = t.text.toList ++ rest := by
  obtain ⟨c, cs, hcs⟩ := List.exists_cons_of_ne_nil ht.toList_ne_nil
  have hc : isBlank c = false := ht.isBlank_eq_false (by rw [hcs]; exact List.mem_cons_self)
  rw [List.dropWhile_append_of_pos hlead, hcs, List.cons_append,
    List.dropWhile_cons_of_neg (by simp [hc])]

/-- If a text that goes on has the same first token as before, then what is left of it is what was left before,
and goes on as well. -/
theorem scan_rest_append {as bs rest rest' : List Char} {t : Token} (ht : t.kind ≠ .eof)
    (h : scan as = (t, rest)) (h' : scan (as ++ bs) = (t, rest')) : rest' = rest ++ bs := by
  obtain ⟨hlexeme, -, lead, hlead, has⟩ := lexeme_of_scan h ht
  obtain ⟨-, -, lead', hlead', happend⟩ := lexeme_of_scan h' ht
  have hdrop : (lead ++ (t.text.toList ++ (rest ++ bs))).dropWhile isBlank = _ :=
    dropWhile_lexeme hlead hlexeme
  have htext : lead ++ (t.text.toList ++ (rest ++ bs)) = as ++ bs := by
    rw [has]
    simp only [List.append_assoc]
  rw [htext, happend, dropWhile_lexeme hlead' hlexeme] at hdrop
  exact List.append_cancel_left hdrop

theorem apart_of_scanAll_append {as bs : List Char}
    (h : scanAll (as ++ bs) = scanAll as ++ scanAll bs) : Apart as bs := by
  fun_induction scanAll as with
  | case1 as t rest hscan ht =>
    -- nothing but blanks, and these cling to nothing
    have hblank : ∀ c ∈ as, isBlank c :=
      List.dropWhile_eq_nil_iff.1 (kind_scan_eq_eof_iff.1 (by rw [hscan]; exact ht))
    intro c hc d _ hclings
    have hborder := isBorder_of_isBlank (hblank c (List.mem_of_getLast? hc))
    exact not_clings_of_isBorder hborder d hclings.symm
  | case2 as t rest hscan ht ih =>
    have hne : (scan (as ++ bs)).1.kind ≠ .eof := by
      intro heof
      rw [scanAll_of_eof heof] at h
      cases h
    rw [scanAll_of_ne_eof hne, List.cons_append] at h
    obtain ⟨hfirst, hrest⟩ := List.cons.inj h
    have hscan' : scan (as ++ bs) = (t, (scan (as ++ bs)).2) := Prod.ext hfirst rfl
    rw [scan_rest_append ht hscan hscan'] at hrest hscan'
    obtain ⟨hlexeme, -, lead, -, has⟩ := lexeme_of_scan hscan ht
    rw [has, ← List.append_assoc]
    by_cases hnil : rest = []
    · -- the token ends the first text, and does not go on in the second
      obtain ⟨-, hapart, -⟩ := lexeme_of_scan hscan' ht
      rw [hnil] at hapart ⊢
      rw [List.append_nil, apart_append_iff hlexeme.toList_ne_nil]
      exact hapart
    · rw [apart_append_iff hnil]
      exact ih hrest

theorem scanAll_append_iff {as bs : List Char} :
    scanAll (as ++ bs) = scanAll as ++ scanAll bs ↔ Apart as bs :=
  ⟨apart_of_scanAll_append, scanAll_append⟩

/-- Two sources one behind the other have the tokens of the one and then those of the other just if the last
character of the one and the first of the other are not both of words, nor both digits. -/
theorem tokenize_append_iff (a b : String) :
    tokenize (a ++ b) = (tokenize a).dropLast ++ tokenize b ↔
      ¬((∃ c ∈ a.toList.getLast?, isWordChar c) ∧ ∃ d ∈ b.toList.head?, isWordChar d) ∧
        ¬((∃ c ∈ a.toList.getLast?, c.isDigit) ∧ ∃ d ∈ b.toList.head?, d.isDigit) := by
  have htokens : tokenize (a ++ b) = (tokenize a).dropLast ++ tokenize b ↔
      scanAll (a.toList ++ b.toList) = scanAll a.toList ++ scanAll b.toList := by
    rw [tokenize, tokenize, tokenize, List.dropLast_concat, String.toList_append, ← List.append_assoc]
    exact List.append_left_inj _
  rw [htokens, scanAll_append_iff, Apart]
  cases a.toList.getLast? <;> cases b.toList.head? <;> simp [Clings]

end LetLang
