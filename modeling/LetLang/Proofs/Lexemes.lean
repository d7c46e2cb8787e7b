import Mathlib.Data.List.Chain
import LetLang.Cursor
import LetLang.Proofs.Rendering

/-!
# Lexemes

A text is a row of lexemes with blanks in front, between and behind, and without a blank neither two
words meet nor two numbers.  Every text can be read so, and in one way only; the lexemes are the tokens
that scanning finds.  From any place in a source the calls of a cursor yield the lexemes of what follows
there, and then the end token for ever.

    Lexeme k x                     the text x can be a token, and its kind is k
    Reading text lead pieces       the text is the blanks `lead`, then the pieces
    exists_reading, Reading.unique, Reading.tokens_eq
    calls_at                       what the calls of a cursor yield
-/

namespace LetLang

/-! ## Lexemes -/

/-- The words that are no names. -/
def keywords : List (String × Kind) :=
  [("let", .letWord), ("true", .trueWord), ("false", .falseWord)]

/-- The characters that are tokens. -/
def symbols : List (Char × Kind) :=
  [(';', .semicolon), ('=', .assignment), ('+', .plus), ('-', .dash), ('*', .star), ('/', .slash),
    ('(', .openParen), (')', .closeParen)]

/-- The character has no place in the language. -/
def IsForeign (c : Char) : Prop :=
  isBlank c = false ∧ isWordChar c = false ∧ c.isDigit = false ∧ c ∉ symbols.map Prod.fst

/-- What can be a token, and of which kind. -/
inductive Lexeme : Kind → String → Prop
  | keyword {word : String} {k : Kind} (h : (word, k) ∈ keywords) : Lexeme k word
  | identifier {name : String} (h : IsName name) : Lexeme .identifier name
  | integer {digits : String} (h : IsDigits digits) : Lexeme .integer digits
  | symbol {c : Char} {k : Kind} (h : (c, k) ∈ symbols) : Lexeme k (String.singleton c)
  | illegal {c : Char} (h : IsForeign c) : Lexeme .illegal (String.singleton c)

/-- Words are names and keywords. -/
def Kind.IsWord (k : Kind) : Prop := k = .identifier ∨ k ∈ keywords.map Prod.snd

instance (k : Kind) : Decidable k.IsWord := inferInstanceAs (Decidable (_ ∨ _))

/-- The tokens are not taken for one where they stand side by side. -/
def Token.MayMeet (t u : Token) : Prop :=
  ¬(t.kind.IsWord ∧ u.kind.IsWord) ∧ ¬(t.kind = .integer ∧ u.kind = .integer)

theorem ofWord_keyword : ∀ p ∈ keywords, Kind.ofWord p.1 = p.2 := by decide

theorem isWordChar_keyword : ∀ p ∈ keywords, p.1 ≠ "" ∧ p.1.toList.all isWordChar := by decide

theorem isWord_keyword : ∀ p ∈ keywords, p.2.IsWord := by decide

theorem ofSymbol_symbol : ∀ p ∈ symbols, Kind.ofSymbol p.1 = p.2 := by decide

theorem isBorder_symbol : ∀ p ∈ symbols, isBorder p.1 ∧ isBlank p.1 = false := by decide

theorem not_isWord_symbol : ∀ p ∈ symbols, ¬p.2.IsWord ∧ p.2 ≠ .integer := by decide

theorem ofSymbol_of_notMem {c : Char} (h : c ∉ symbols.map Prod.fst) : Kind.ofSymbol c = .illegal := by
  unfold Kind.ofSymbol
  split
  case h_9 => rfl
  all_goals exact absurd (by decide) h

theorem IsForeign.isBorder {c : Char} (h : IsForeign c) : isBorder c := by
  simp [LetLang.isBorder, h.2.1, h.2.2.1]

theorem lexeme_word {word : String} (hne : word ≠ "") (h : word.toList.all isWordChar) :
    Lexeme (Kind.ofWord word) word := by
  by_cases hkeyword : word ∈ keywords.map Prod.fst
  · obtain ⟨⟨word, k⟩, hmem, rfl⟩ := List.mem_map.1 hkeyword
    rw [ofWord_keyword _ hmem]
    exact .keyword hmem
  · have hname : word ≠ "let" ∧ word ≠ "true" ∧ word ≠ "false" := by simpa [keywords] using hkeyword
    rw [(Kind.ofWord_eq_identifier_iff word).2 hname]
    exact .identifier ⟨hne, h, hname⟩

theorem lexeme_symbol {c : Char} (hb : isBlank c = false) (hw : isWordChar c = false)
    (hd : c.isDigit = false) : Lexeme (Kind.ofSymbol c) (String.singleton c) := by
  by_cases h : c ∈ symbols.map Prod.fst
  · obtain ⟨⟨c, k⟩, hmem, rfl⟩ := List.mem_map.1 h
    rw [ofSymbol_symbol _ hmem]
    exact .symbol hmem
  · rw [ofSymbol_of_notMem h]
    exact .illegal ⟨hb, hw, hd, h⟩

namespace Lexeme

variable {k : Kind} {x : String} {c d : Char}

theorem toList_ne_nil (h : Lexeme k x) : x.toList ≠ [] := by
  cases h with
  | keyword h => exact mt String.toList_eq_nil_iff.1 (isWordChar_keyword _ h).1
  | identifier h => exact mt String.toList_eq_nil_iff.1 h.1
  | integer h => exact mt String.toList_eq_nil_iff.1 h.1
  | symbol h => simp
  | illegal h => simp

/-- Alone, a lexeme is scanned as a whole. -/
theorem scan_eq (h : Lexeme k x) : scan x.toList = (⟨k, x⟩, []) := by
  cases h with
  | keyword h =>
    obtain ⟨hne, hall⟩ := isWordChar_keyword _ h
    rw [scan_word hne hall, wordToken, ofWord_keyword _ h]
  | identifier h =>
    rw [scan_word h.1 h.2.1, wordToken, (Kind.ofWord_eq_identifier_iff x).2 h.2.2]
  | integer h => exact scan_digits h.1 h.2
  | symbol h =>
    obtain ⟨hborder, hblank⟩ := isBorder_symbol _ h
    rw [String.toList_singleton, scan_symbol hborder hblank, symbolToken, ofSymbol_symbol _ h]
  | illegal h =>
    rw [String.toList_singleton, scan_symbol h.isBorder h.1, symbolToken, ofSymbol_of_notMem h.2.2.2]

theorem kind_ne_eof (h : Lexeme k x) : k ≠ .eof := by
  rintro rfl
  cases h with
  | keyword h => simp [keywords] at h
  | symbol h => simp [symbols] at h

/-- All characters of a lexeme are of one class. -/
theorem chars (h : Lexeme k x) :
    (k.IsWord ∧ ∀ c ∈ x.toList, isWordChar c) ∨ (k = .integer ∧ ∀ c ∈ x.toList, c.isDigit) ∨
      (¬k.IsWord ∧ k ≠ .integer ∧ ∀ c ∈ x.toList, isBorder c) := by
  cases h with
  | keyword h => exact .inl ⟨isWord_keyword _ h, List.all_eq_true.1 (isWordChar_keyword _ h).2⟩
  | identifier h => exact .inl ⟨.inl rfl, List.all_eq_true.1 h.2.1⟩
  | integer h => exact .inr (.inl ⟨rfl, List.all_eq_true.1 h.2⟩)
  | symbol h =>
    obtain ⟨hword, hinteger⟩ := not_isWord_symbol _ h
    exact .inr (.inr ⟨hword, hinteger, by simpa using (isBorder_symbol _ h).1⟩)
  | illegal h => exact .inr (.inr ⟨by decide, by decide, by simpa using h.isBorder⟩)

theorem class_iff (h : Lexeme k x) (hc : c ∈ x.toList) :
    (isWordChar c ↔ k.IsWord) ∧ (c.isDigit ↔ k = .integer) := by
  rcases h.chars with ⟨hword, hall⟩ | ⟨rfl, hall⟩ | ⟨hword, hinteger, hall⟩
  · have hdigit : ¬c.isDigit := fun hd => by
      simpa [isWordChar_eq_false_of_isDigit hd] using hall c hc
    have hinteger : k ≠ .integer := by
      rintro rfl
      revert hword
      decide
    exact ⟨iff_of_true (hall c hc) hword, iff_of_false hdigit hinteger⟩
  · have hletter := isWordChar_eq_false_of_isDigit (hall c hc)
    exact ⟨iff_of_false (by simp [hletter]) (by decide), iff_of_true (hall c hc) rfl⟩
  · have hborder := hall c hc
    simp only [isBorder, Bool.and_eq_true, Bool.not_eq_true'] at hborder
    exact ⟨iff_of_false (by simp [hborder.1]) hword, iff_of_false (by simp [hborder.2]) hinteger⟩

/-- Two lexemes may meet if the characters that come side by side do not cling to each other. -/
theorem mayMeet_iff {t u : Token} (ht : Lexeme t.kind t.text) (hu : Lexeme u.kind u.text)
    (hc : c ∈ t.text.toList) (hd : d ∈ u.text.toList) : t.MayMeet u ↔ ¬Clings c d := by
  rw [Clings, (ht.class_iff hc).1, (ht.class_iff hc).2, (hu.class_iff hd).1, (hu.class_iff hd).2,
    not_or, Token.MayMeet]

end Lexeme

/-! ## Readings -/

/-- The text of pieces, each a token and the blanks behind it. -/
def spell (pieces : List (Token × List Char)) : List Char :=
  pieces.flatMap fun p => p.1.text.toList ++ p.2

@[simp] theorem spell_nil : spell [] = [] := rfl

@[simp] theorem spell_cons (t : Token) (blanks : List Char) (pieces : List (Token × List Char)) :
    spell ((t, blanks) :: pieces) = t.text.toList ++ (blanks ++ spell pieces) := by
  rw [spell, List.flatMap_cons, List.append_assoc]
  rfl

/-- The text is the blanks `lead`, and then lexemes, each with blanks behind it.  Two words, or two
numbers, have a blank between them. -/
structure Reading (text lead : List Char) (pieces : List (Token × List Char)) : Prop where
  text_eq : text = lead ++ spell pieces
  lead_blank : ∀ c ∈ lead, isBlank c
  blank : ∀ p ∈ pieces, ∀ c ∈ p.2, isBlank c
  lexeme : ∀ p ∈ pieces, Lexeme p.1.kind p.1.text
  apart : pieces.IsChain fun p q => p.2 = [] → p.1.MayMeet q.1

/-- A lexeme ends where blanks follow, or another lexeme that it may meet. -/
theorem apart_spell_iff {t : Token} {blanks : List Char} {pieces : List (Token × List Char)}
    (ht : Lexeme t.kind t.text) (hblanks : ∀ c ∈ blanks, isBlank c)
    (hpieces : ∀ p ∈ pieces, Lexeme p.1.kind p.1.text) :
    Apart t.text.toList (blanks ++ spell pieces) ↔
      ∀ q ∈ pieces.head?, blanks = [] → t.MayMeet q.1 := by
  obtain ⟨c, hc, hcmem⟩ : ∃ c, t.text.toList.getLast? = some c ∧ c ∈ t.text.toList :=
    ⟨_, List.getLast?_eq_some_getLast ht.toList_ne_nil, List.getLast_mem _⟩
  cases blanks with
  | cons b blanks =>
    -- a blank clings to nothing
    have hb := isBorder_of_isBlank (hblanks b List.mem_cons_self)
    refine iff_of_true ?_ (fun _ _ hnil => nomatch hnil)
    intro c' _ d hd
    cases hd
    exact not_clings_of_isBorder hb c'
  | nil =>
    cases pieces with
    | nil => exact iff_of_true (fun _ _ _ hd => nomatch hd) (fun _ hq => nomatch hq)
    | cons q pieces =>
      have hq := hpieces q List.mem_cons_self
      obtain ⟨d, ds, hds⟩ := List.exists_cons_of_ne_nil hq.toList_ne_nil
      have hdmem : d ∈ q.1.text.toList := by rw [hds]; exact List.mem_cons_self
      have hhead : ([] ++ spell (q :: pieces)).head? = some d := by
        rw [List.nil_append, spell_cons, hds]
        rfl
      simp only [Apart, hc, hhead, List.head?_cons, Option.mem_some_iff, forall_eq', true_implies,
        ht.mayMeet_iff hq hcmem hdmem]

namespace Reading

variable {text lead lead' blanks : List Char} {pieces pieces' : List (Token × List Char)} {t : Token}

/-- A reading reads one lexeme, and reads on behind it. -/
theorem cons_iff :
    Reading text lead ((t, blanks) :: pieces) ↔
      (∀ c ∈ lead, isBlank c) ∧ Lexeme t.kind t.text ∧
        ∃ rest, text = lead ++ (t.text.toList ++ rest) ∧ Apart t.text.toList rest ∧
          Reading rest blanks pieces := by
  constructor
  · intro h
    obtain ⟨hblanks, hblank⟩ := List.forall_mem_cons.1 h.blank
    obtain ⟨ht, hlexeme⟩ := List.forall_mem_cons.1 h.lexeme
    obtain ⟨hmeet, hapart⟩ := List.isChain_cons.1 h.apart
    exact ⟨h.lead_blank, ht, blanks ++ spell pieces, by rw [h.text_eq, spell_cons],
      (apart_spell_iff ht hblanks hlexeme).2 hmeet, rfl, hblanks, hblank, hlexeme, hapart⟩
  · rintro ⟨hlead, ht, rest, rfl, hmeet, h⟩
    rw [h.text_eq, apart_spell_iff ht h.lead_blank h.lexeme] at hmeet
    exact ⟨by rw [h.text_eq, spell_cons], hlead, List.forall_mem_cons.2 ⟨h.lead_blank, h.blank⟩,
      List.forall_mem_cons.2 ⟨ht, h.lexeme⟩, List.isChain_cons.2 ⟨hmeet, h.apart⟩⟩

theorem nil_iff : Reading text lead [] ↔ text = lead ∧ ∀ c ∈ lead, isBlank c := by
  constructor
  · intro h
    exact ⟨by rw [h.text_eq, spell_nil, List.append_nil], h.lead_blank⟩
  · rintro ⟨rfl, h⟩
    exact ⟨(List.append_nil _).symm, h, nofun, nofun, .nil⟩

end Reading

/-- The first token of a text that starts with a lexeme. -/
theorem scan_lexeme {lead rest : List Char} {t : Token} (hlead : ∀ c ∈ lead, isBlank c)
    (ht : Lexeme t.kind t.text) (h : Apart t.text.toList rest) :
    scan (lead ++ (t.text.toList ++ rest)) = (t, rest) := by
  have heof : (scan lead).1.kind = .eof := kind_scan_eq_eof_iff.2 (List.dropWhile_eq_nil_iff.2 hlead)
  rw [scan_append_of_eof heof, scan_append h (by rw [ht.scan_eq]; exact ht.kind_ne_eof), ht.scan_eq]
  rfl

theorem isWordChar_of_clings {c d : Char} (hc : isWordChar c) (h : Clings c d) : isWordChar d := by
  rcases h with h | h
  · exact h.2
  · simp [isWordChar_eq_false_of_isDigit h.1] at hc

theorem isDigit_of_clings {c d : Char} (hc : c.isDigit) (h : Clings c d) : d.isDigit := by
  rcases h with h | h
  · simp [isWordChar_eq_false_of_isDigit hc] at h
  · exact h.2

/-- The longest run of one class at the front of a text stands apart from what follows it. -/
theorem lexeme_run {p : Char → Bool} {kind : String → Kind} {c : Char} {tail : List Char}
    (hp : ∀ c d, p c → Clings c d → p d)
    (hlexeme : ∀ run, run ≠ "" → run.toList.all p → Lexeme (kind run) run) (hc : p c) :
    let run := String.ofList (c :: tail.takeWhile p)
    Lexeme (kind run) run ∧ Apart run.toList (tail.dropWhile p) ∧
      c :: tail = run.toList ++ tail.dropWhile p := by
  intro run
  have htext : run.toList = c :: tail.takeWhile p := String.toList_ofList
  have hall : ∀ d ∈ run.toList, p d := by
    rw [htext]
    exact List.forall_mem_cons.2 ⟨hc, fun d hd => List.mem_takeWhile_imp hd⟩
  refine ⟨hlexeme run (by simp [run]) (List.all_eq_true.2 hall), ?_, ?_⟩
  · intro d hd e he hclings
    have hnot := List.head?_dropWhile_not p tail
    rw [he] at hnot
    exact Bool.eq_false_iff.1 hnot (hp d e (hall d (List.mem_of_getLast? hd)) hclings)
  · rw [htext, List.cons_append, List.takeWhile_append_dropWhile]

/-- What scanning finds is a lexeme that does not go on. -/
theorem lexeme_of_scan {text rest : List Char} {t : Token} (h : scan text = (t, rest))
    (ht : t.kind ≠ .eof) :
    Lexeme t.kind t.text ∧ Apart t.text.toList rest ∧
      ∃ lead, (∀ c ∈ lead, isBlank c) ∧ text = lead ++ (t.text.toList ++ rest) := by
  have hne : text.dropWhile isBlank ≠ [] := by
    rw [ne_eq, ← kind_scan_eq_eof_iff, h]
    exact ht
  obtain ⟨c, tail, hc⟩ := List.exists_cons_of_ne_nil hne
  have hblank : isBlank c = false := by
    have hnot := List.head?_dropWhile_not isBlank text
    rw [hc] at hnot
    exact hnot
  have hlead : ∀ c ∈ text.takeWhile isBlank, isBlank c := fun c hc => List.mem_takeWhile_imp hc
  have htext : text = text.takeWhile isBlank ++ c :: tail := by
    rw [← hc, List.takeWhile_append_dropWhile]
  -- the class of the first character decides how far the token goes
  unfold scan at h
  rw [hc] at h
  by_cases hw : isWordChar c
  · simp only [hw, if_true] at h
    obtain ⟨rfl, rfl⟩ := Prod.mk.inj h
    obtain ⟨hlexeme, hapart, hsplit⟩ :=
      lexeme_run (fun _ _ => isWordChar_of_clings) (fun _ => lexeme_word) hw
    exact ⟨hlexeme, hapart, _, hlead, htext.trans (congrArg _ hsplit)⟩
  · by_cases hd : c.isDigit
    · simp only [hw, hd, if_true] at h
      obtain ⟨rfl, rfl⟩ := Prod.mk.inj h
      obtain ⟨hlexeme, hapart, hsplit⟩ :=
        lexeme_run (fun _ _ => isDigit_of_clings) (fun _ hne hall => .integer ⟨hne, hall⟩) hd
      exact ⟨hlexeme, hapart, _, hlead, htext.trans (congrArg _ hsplit)⟩
    · simp only [hw, hd] at h
      obtain ⟨rfl, rfl⟩ := Prod.mk.inj h
      have hsymbol : (symbolToken c).text.toList = [c] := String.toList_singleton c
      refine ⟨lexeme_symbol hblank (by simpa using hw) (by simpa using hd), ?_, _, hlead,
        by rwa [hsymbol]⟩
      rw [hsymbol]
      intro d hmem e _ hclings
      cases hmem
      rcases hclings with ⟨hword, -⟩ | ⟨hdigit, -⟩
      · exact hw hword
      · exact hd hdigit

theorem exists_reading (text : List Char) : ∃ lead pieces, Reading text lead pieces := by
  fun_induction scanAll text with
  | case1 text t rest hscan ht =>
    have hnil : text.dropWhile isBlank = [] := kind_scan_eq_eof_iff.1 (by rw [hscan]; exact ht)
    exact ⟨text, [], Reading.nil_iff.2 ⟨rfl, List.dropWhile_eq_nil_iff.1 hnil⟩⟩
  | case2 text t rest hscan ht ih =>
    obtain ⟨hlexeme, hapart, lead, hlead, htext⟩ := lexeme_of_scan hscan ht
    obtain ⟨blanks, pieces, hread⟩ := ih
    exact ⟨lead, (t, blanks) :: pieces,
      Reading.cons_iff.2 ⟨hlead, hlexeme, rest, htext, hapart, hread⟩⟩

namespace Reading

variable {text lead lead' : List Char} {pieces pieces' : List (Token × List Char)}

/-- The lexemes of a reading are the tokens. -/
theorem tokens_eq (h : Reading text lead pieces) : pieces.map Prod.fst = scanAll text := by
  induction pieces generalizing text lead with
  | nil =>
    obtain ⟨rfl, hblank⟩ := nil_iff.1 h
    rw [scanAll_of_eof (kind_scan_eq_eof_iff.2 (List.dropWhile_eq_nil_iff.2 hblank))]
    rfl
  | cons p pieces ih =>
    obtain ⟨hlead, hlexeme, rest, rfl, hapart, hrest⟩ := cons_iff.1 h
    have hscan := scan_lexeme hlead hlexeme hapart
    rw [scanAll_of_ne_eof (by rw [hscan]; exact hlexeme.kind_ne_eof), hscan, ← ih hrest]
    rfl

/-- A text is read in one way only. -/
theorem unique (h : Reading text lead pieces) (h' : Reading text lead' pieces') :
    lead' = lead ∧ pieces' = pieces := by
  have htokens : pieces.map Prod.fst = pieces'.map Prod.fst := by rw [h.tokens_eq, h'.tokens_eq]
  induction pieces generalizing text lead lead' pieces' with
  | nil =>
    obtain rfl := List.map_eq_nil_iff.1 htokens.symm
    exact ⟨(nil_iff.1 h').1.symm.trans (nil_iff.1 h).1, rfl⟩
  | cons p pieces ih =>
    cases pieces' with
    | nil => cases htokens
    | cons p' pieces' =>
      obtain ⟨t, blanks⟩ := p
      obtain ⟨t', blanks'⟩ := p'
      obtain ⟨rfl, htail⟩ := List.cons.inj htokens
      obtain ⟨hlead, hlexeme, rest, rfl, hapart, hrest⟩ := cons_iff.1 h
      obtain ⟨hlead', -, rest', htext, hapart', hrest'⟩ := cons_iff.1 h'
      -- scanning leaves the same text behind the first lexeme of both readings
      have hscan := scan_lexeme hlead hlexeme hapart
      rw [htext, scan_lexeme hlead' hlexeme hapart'] at hscan
      obtain ⟨-, rfl⟩ := Prod.mk.inj hscan
      obtain ⟨rfl, rfl⟩ := ih hrest hrest' htail
      exact ⟨(List.append_cancel_right htext).symm, rfl⟩

end Reading

/-! ## Calls of a cursor -/

namespace Cursor

/-- The next item of the tokens that a cursor lists: none once the end token shows. -/
def item? (c : Cursor) : Option (Option Token × Cursor) :=
  c.next?.map fun (t, c') => (if t.kind = .eof then none else some t, c')

/-- What so many calls give, one after the other. -/
def answers? {α : Type} (call : Cursor → Option (α × Cursor)) :
    Nat → Cursor → Option (List α × Cursor)
  | 0, c => some ([], c)
  | n + 1, c =>
    match call c with
    | none => none
    | some (a, c') => (answers? call n c').map fun (as, last) => (a :: as, last)

theorem next?_of_unread? {c : Cursor} {cs : List Char} (h : c.unread? = some cs) :
    c.next? = some ((scan cs).1, c.leaving (scan cs).2) := by
  rw [next?, h, Option.map_some]

theorem item?_of_unread? {c : Cursor} {cs : List Char} (h : c.unread? = some cs) :
    c.item? =
      some (if (scan cs).1.kind = .eof then none else some (scan cs).1, c.leaving (scan cs).2) := by
  rw [item?, next?_of_unread? h, Option.map_some]

section

variable {α : Type} {call : Cursor → Option (α × Cursor)} {f : Token → α}
  (hcall : ∀ {c : Cursor} {cs : List Char}, c.unread? = some cs →
    call c = some (f (scan cs).1, c.leaving (scan cs).2))

include hcall

theorem answers?_of_eof {c : Cursor} {cs : List Char} (h : c.unread? = some cs)
    (heof : (scan cs).1.kind = .eof) (n : Nat) :
    ∃ last, c.answers? call n = some (List.replicate n (f Token.eof), last) := by
  induction n generalizing c cs with
  | zero => exact ⟨c, rfl⟩
  | succ n ih =>
    obtain ⟨last, hlast⟩ := ih (unread?_leaving h List.nil_suffix) rfl
    refine ⟨last, ?_⟩
    rw [answers?, hcall h, scan_eq_of_kind_eof heof]
    simp only [hlast, Option.map_some, List.replicate_succ]

omit hcall in
theorem answers?_add {c c' last : Cursor} {m n : Nat} {as bs : List α}
    (hfirst : c.answers? call m = some (as, c')) (hthen : c'.answers? call n = some (bs, last)) :
    c.answers? call (m + n) = some (as ++ bs, last) := by
  induction m generalizing c as with
  | zero =>
    cases hfirst
    rw [Nat.zero_add]
    exact hthen
  | succ m ih =>
    rw [Nat.succ_add, answers?]
    rw [answers?] at hfirst
    cases hone : call c with
    | none =>
      rw [hone] at hfirst
      cases hfirst
    | some one =>
      rw [hone] at hfirst
      obtain ⟨⟨as, c''⟩, hrest, heq⟩ := Option.map_eq_some_iff.1 hfirst
      cases heq
      simp only [ih hrest, Option.map_some, List.cons_append]

/-- So many calls as there are tokens left give these, and leave the cursor with nothing but the end. -/
theorem answers?_scanAll {c : Cursor} {cs : List Char} (h : c.unread? = some cs) :
    ∃ c' rest, c.answers? call (scanAll cs).length = some ((scanAll cs).map f, c') ∧
      c'.unread? = some rest ∧ (scan rest).1.kind = .eof ∧ c'.leaving [] = c.leaving [] := by
  fun_induction scanAll cs generalizing c with
  | case1 cs t rest hscan ht => exact ⟨c, cs, rfl, h, by rw [hscan]; exact ht, rfl⟩
  | case2 cs t rest hscan ht ih =>
    have hrest : (c.leaving rest).unread? = some rest :=
      unread?_leaving h (by simpa [hscan] using scan_suffix cs)
    obtain ⟨c', last, hall, hlast, heof, hleaving⟩ := ih hrest
    refine ⟨c', last, ?_, hlast, heof, ?_⟩
    · rw [List.length_cons, answers?, hcall h, hscan]
      simp only [hall, Option.map_some, List.map_cons]
    · rw [hleaving, leaving_leaving c rest [] (Nat.zero_le _)]

/-- The calls run through the tokens that are left, and then stay at the end. -/
theorem answers?_eq {c : Cursor} {cs : List Char} (h : c.unread? = some cs) (n : Nat) :
    ∃ last, c.answers? call ((scanAll cs).length + n) =
      some ((scanAll cs).map f ++ List.replicate n (f Token.eof), last) := by
  obtain ⟨c', rest, hall, hrest, heof, -⟩ := answers?_scanAll hcall h
  obtain ⟨last, hlast⟩ := answers?_of_eof hcall hrest heof n
  exact ⟨last, answers?_add hall hlast⟩

end

/-- None of the items of a text is missing. -/
theorem map_item_scanAll (cs : List Char) :
    (scanAll cs).map (fun t => if t.kind = .eof then none else some t) = (scanAll cs).map some :=
  List.map_congr_left fun t ht => if_neg (kind_ne_eof_of_mem_scanAll cs t ht)

theorem unread?_of_ahead? {c : Cursor} {cs : List Char} (h : c.ahead? = some cs) :
    c.unread? = some cs := by
  by_cases hend : c.size ≤ c.pos
  · have hlength : c.pos + byteLength cs = c.size := add_byteLength_of_dropBytes h
    have hnil : cs = [] := by
      by_contra hne
      have hpos := byteLength_pos hne
      omega
    rw [unread?_of_size_le hend, hnil]
  · rw [unread?, if_neg (by simpa [atEnd] using hend), h]

end Cursor

/-- What follows a place in a source is read in one way.  Calls from there yield the tokens of that
reading, and the end token for ever after; listing the tokens yields them and nothing more. -/
theorem calls_at {source text : String} {offset : Nat}
    (h : (Cursor.mk source.toList offset).remainder? = some text) :
    ∃ lead pieces,
      (∀ lead' pieces', Reading text.toList lead' pieces' ↔ lead' = lead ∧ pieces' = pieces) ∧
        let c := Cursor.mk source.toList offset
        let tokens := pieces.map Prod.fst
        (∀ n, ∃ last, c.answers? Cursor.next? (tokens.length + n) =
          some (tokens ++ List.replicate n Token.eof, last)) ∧
        (∀ n, ∃ last, c.answers? Cursor.item? (tokens.length + n) =
          some (tokens.map some ++ List.replicate n none, last)) ∧
        (∃ last, c.drain? = some (tokens, last)) ∧
        tokenize text = tokens ++ [Token.eof] := by
  obtain ⟨cs, hahead, rfl⟩ := Option.map_eq_some_iff.1 h
  have hunread := Cursor.unread?_of_ahead? hahead
  obtain ⟨lead, pieces, hread⟩ := exists_reading cs
  refine ⟨lead, pieces, fun lead' pieces' => ?_, ?_⟩
  · rw [String.toList_ofList]
    constructor
    · exact hread.unique
    · rintro ⟨rfl, rfl⟩
      exact hread
  · intro c tokens
    have htokens : tokens = scanAll cs := hread.tokens_eq
    rw [htokens]
    refine ⟨fun n => ?_, fun n => ?_, ⟨_, by rw [Cursor.drain?, hunread]; rfl⟩, ?_⟩
    · obtain ⟨last, hlast⟩ := Cursor.answers?_eq (f := id) Cursor.next?_of_unread? hunread n
      exact ⟨last, by rwa [List.map_id] at hlast⟩
    · obtain ⟨last, hlast⟩ := Cursor.answers?_eq
        (f := fun t => if t.kind = .eof then none else some t) Cursor.item?_of_unread? hunread n
      exact ⟨last, by rwa [Cursor.map_item_scanAll] at hlast⟩
    · rw [tokenize, String.toList_ofList]

/-- A cursor behind the two bytes of a foreign character. -/
theorem calls_at_behind_foreign :
    let one : Token := ⟨.integer, "1"⟩
    let foreign : Token := ⟨.illegal, "é"⟩
    (Cursor.mk "né 1é".toList 3).remainder? = some " 1é" ∧
      Reading " 1é".toList [' '] [(one, []), (foreign, [])] ∧
      ∃ last, (Cursor.mk "né 1é".toList 3).answers? Cursor.next? 4 =
        some ([one, foreign, Token.eof, Token.eof], last) := by
  intro one foreign
  have h : (Cursor.mk "né 1é".toList 3).remainder? = some " 1é" := by decide
  have hreading : Reading " 1é".toList [' '] [(one, []), (foreign, [])] :=
    ⟨by decide, List.forall_mem_singleton.2 (by decide), by simp,
      List.forall_mem_cons.2 ⟨.integer (by decide), by
        simpa using Lexeme.illegal (c := 'é') ⟨by decide, by decide, by decide, by decide⟩⟩,
      .cons_cons (fun _ => ⟨by decide, by decide⟩) (.singleton _)⟩
  obtain ⟨lead, pieces, hread, hcalls, -⟩ := calls_at h
  obtain ⟨rfl, rfl⟩ := (hread _ _).1 hreading
  exact ⟨h, hreading, hcalls 2⟩

end LetLang
