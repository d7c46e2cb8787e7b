import LetLang.Proofs.EarliestError

/-!
# Blocks of diagnostics

The diagnostics of a source fall into blocks, one for each statement that was dropped.  A binding gives
one diagnostic.  Any other statement gives two: what was wrong inside, and that no statement starts with
the token that was skipped.  Since that second diagnostic is never the first of a block, the blocks can be
told from the bare list.

    IsBlock ds                     ds has the shape of a block
    t.Reported                     what the diagnostics of a dropped turn say
    blocks_unique                  a list is cut into blocks in one way at most
    diagnostics_blocks             the diagnostics of a source
-/

namespace LetLang

open TokenStream

/-! ## Lists of blocks -/

/-- A diagnostic of something inside a statement, alone or followed by the one on the whole statement. -/
inductive IsBlock : List Diagnostic → Prop
  | single {d : Diagnostic} (h : ∀ k, d ≠ .invalidStatement k) : IsBlock [d]
  | pair {d : Diagnostic} {k : Kind} (h : ∀ k, d ≠ .invalidStatement k) :
      IsBlock [d, .invalidStatement k]

/-- The diagnostic on the whole statement starts no list of blocks. -/
theorem flatten_blocks_ne {bs : List (List Diagnostic)} (h : ∀ b ∈ bs, IsBlock b) (k : Kind)
    (ds : List Diagnostic) : bs.flatten ≠ .invalidStatement k :: ds := by
  cases bs with
  | nil => exact nofun
  | cons b bs =>
    intro heq
    rw [List.flatten_cons] at heq
    cases h b List.mem_cons_self with
    | single hd => exact hd k (List.cons.inj heq).1
    | pair hd => exact hd k (List.cons.inj heq).1

/-- A list is cut into blocks in one way at most. -/
theorem blocks_unique {bs cs : List (List Diagnostic)} (hb : ∀ b ∈ bs, IsBlock b)
    (hc : ∀ c ∈ cs, IsBlock c) (h : bs.flatten = cs.flatten) : bs = cs := by
  induction bs generalizing cs with
  | nil =>
    cases cs with
    | nil => rfl
    | cons c cs => cases hc c List.mem_cons_self <;> cases h
  | cons b bs ih =>
    cases cs with
    | nil => cases hb b List.mem_cons_self <;> cases h
    | cons c cs =>
      rw [List.forall_mem_cons] at hb hc
      rw [List.flatten_cons, List.flatten_cons] at h
      cases hb.1 with
      | single hd =>
        cases hc.1 with
        | single hd' =>
          obtain ⟨hhead, htail⟩ := List.cons.inj h
          rw [hhead, ih hb.2 hc.2 htail]
        | pair hd' =>
          -- the second diagnostic of the pair would start the next block
          exact absurd (List.cons.inj h).2 (flatten_blocks_ne hb.2 _ _)
      | pair hd =>
        cases hc.1 with
        | single hd' => exact absurd (List.cons.inj h).2.symm (flatten_blocks_ne hc.2 _ _)
        | pair hd' =>
          obtain ⟨hhead, htail⟩ := List.cons.inj h
          obtain ⟨hsecond, htail⟩ := List.cons.inj htail
          rw [hhead, hsecond, ih hb.2 hc.2 htail]

/-! ## Dropped statements -/

/-- The diagnostic names the kind. -/
def Diagnostic.Names (k : Kind) : Diagnostic → Prop
  | unexpectedToken expected found _ => expected = k ∨ found = k
  | noOperand kind _ => kind = k
  | invalidStatement kind => kind = k
  | nestingTooDeep _ => False

namespace Turn

def isDropped (t : Turn) : Bool := t.skipped?.isSome

/-- The diagnostics are those of a statement that was dropped at the token `c` behind `ts`.  A binding has
one, which asks for the token that has to follow at that place, and any other statement has two. -/
def Reported (t : Turn) : Prop :=
  ∃ ts c d, t.taken = ts ++ [c] ∧ t.skipped? = some c ∧ d.Blames c ∧
    (t.opening.kind = .letWord ∧ d.Lacks (bindingLacks ts.length) ∧ t.diagnostics = [d] ∨
      t.opening.kind ≠ .letWord ∧ d.Lacks [.semicolon, .closeParen] ∧
        t.diagnostics = [d, .invalidStatement c.kind])

end Turn

theorem reported_of_turn {room : Nat} {s rest : List Token} {t : Turn}
    (h : turn .standard room s = some (t, rest)) (ht : t.isDropped) : t.Reported := by
  have hopening := (turn_cases h).1
  cases hv : t.verdict with
  | kept stmt => simp [Turn.isDropped, Turn.skipped?, hv] at ht
  | dropped ds c =>
    have hds : t.diagnostics = ds := by simp [Turn.diagnostics, hv]
    have hskipped : t.skipped? = some c := by simp [Turn.skipped?, hv]
    obtain ⟨ts, d, last, hreject, rfl, htaken, -, -⟩ := turn_dropped h hv
    refine ⟨ts, _, d, htaken, hskipped, ?_⟩
    rw [hopening, hds]
    cases hreject with
    | letBinding hlet hstuck => exact ⟨hstuck.blames, .inl ⟨hlet, hstuck.lacks, rfl⟩⟩
    | expression hlet hstuck => exact ⟨hstuck.blames, .inr ⟨hlet, hstuck.lacks, rfl⟩⟩

theorem Diagnostic.Lacks.ne_invalidStatement {ks : List Kind} {d : Diagnostic} (h : d.Lacks ks)
    (k : Kind) : d ≠ .invalidStatement k := by
  rintro rfl
  exact h

theorem Turn.Reported.isBlock {t : Turn} (h : t.Reported) : IsBlock t.diagnostics := by
  obtain ⟨ts, c, d, -, -, -, ⟨-, hlack, hds⟩ | ⟨-, hlack, hds⟩⟩ := h
  · rw [hds]
    exact .single hlack.ne_invalidStatement
  · rw [hds]
    exact .pair hlack.ne_invalidStatement

/-! ## The end of the source -/

theorem eof_notMem_bindingLacks (n : Nat) : .eof ∉ bindingLacks n := by
  unfold bindingLacks
  split <;> decide

theorem kind_eq_eof_of_names {ks : List Kind} {c : Token} {d : Diagnostic} (hks : .eof ∉ ks)
    (hlack : d.Lacks ks) (hblame : d.Blames c) (h : d.Names .eof) : c.kind = .eof := by
  cases d with
  | unexpectedToken expected found text =>
    rcases h with rfl | rfl
    · exact absurd hlack.1 hks
    · exact hblame.1.symm
  | noOperand kind text => exact hblame.1.symm.trans h
  | invalidStatement kind => exact hlack.elim
  | nestingTooDeep limit => exact h.elim

/-- A dropped statement that names the end of the source was dropped there. -/
theorem Turn.Reported.skipped_eof {t : Turn} (h : t.Reported)
    (heof : ∃ d ∈ t.diagnostics, d.Names .eof) :
    ∃ c, t.skipped? = some c ∧ c.kind = .eof := by
  obtain ⟨d', hd', hnames⟩ := heof
  obtain ⟨ts, c, d, -, hskipped, hblame, ⟨-, hlack, hds⟩ | ⟨-, hlack, hds⟩⟩ := h
  · rw [hds, List.mem_singleton] at hd'
    subst hd'
    exact ⟨c, hskipped, kind_eq_eof_of_names (eof_notMem_bindingLacks _) hlack hblame hnames⟩
  · rw [hds, List.mem_pair] at hd'
    rcases hd' with rfl | rfl
    · exact ⟨c, hskipped, kind_eq_eof_of_names (by decide) hlack hblame hnames⟩
    · exact ⟨c, hskipped, hnames⟩

/-- No turn follows one that has skipped the end token. -/
theorem eq_nil_of_skipped_eof {room : Nat} {s rest last : List Token} {t : Turn} {after : List Turn}
    {c : Token} (hs : ∀ u ∈ s, u.kind ≠ .eof) (ht : turn .standard room s = some (t, rest))
    (hc : t.skipped? = some c) (heof : c.kind = .eof) (h : Run .standard room rest after last) :
    after = [] := by
  obtain ⟨-, ⟨n, stmt, -, -, -, hv⟩ | ⟨n, r, -, hrest, -, hv⟩⟩ := turn_cases ht
  · simp [Turn.skipped?, hv] at hc
  · obtain rfl : current (skip n s) = c := by simpa [Turn.skipped?, hv] using hc
    have hnil : s.drop n = [] := by
      by_contra hne
      have hcurrent := kind_current_ne_eof hne (fun u hu => hs u (List.mem_of_mem_drop hu)) []
      rw [List.append_nil, ← skip_list] at hcurrent
      exact hcurrent heof
    have hrest' : rest = [] := by
      rw [hrest, skip_list, ← List.drop_drop, hnil, List.drop_nil]
    subst hrest'
    cases h with
    | stop => rfl
    | turn hcurrent => exact absurd rfl hcurrent

/-! ## Whole sources -/

theorem diagnosticsOf_eq_flatten (ts : List Turn) :
    diagnosticsOf ts = ((ts.filter Turn.isDropped).map Turn.diagnostics).flatten := by
  induction ts with
  | nil => rfl
  | cons t ts ih =>
    rw [diagnosticsOf, List.flatMap_cons]
    show t.diagnostics ++ diagnosticsOf ts = _
    cases hv : t.verdict with
    | kept stmt => simp [Turn.isDropped, Turn.skipped?, Turn.diagnostics, hv, ih]
    | dropped ds c => simp [Turn.isDropped, Turn.skipped?, hv, ih]

/-- The diagnostics of a source are cut into blocks in one way, and the blocks are the reports of the
statements that were dropped.  The end of the source is named by the last of these at most, for then no
turn follows. -/
theorem diagnostics_blocks (source : String) :
    (∀ blocks, (∀ b ∈ blocks, IsBlock b) ∧ blocks.flatten = (parse source).2.toList ↔
        blocks = ((turnsOf source).filter Turn.isDropped).map Turn.diagnostics) ∧
      (∀ t ∈ turnsOf source, t.isDropped → t.Reported) ∧
      ∀ before t after, turnsOf source = before ++ t :: after →
        (∃ d ∈ t.diagnostics, d.Names .eof) → after = [] := by
  have hreported : ∀ t ∈ turnsOf source, t.isDropped → t.Reported := by
    intro t ht hdropped
    obtain ⟨before, after, h⟩ := List.append_of_mem ht
    obtain ⟨n, rest, last, -, -, hturn, -⟩ := exists_turn_of_turnsOf h
    exact reported_of_turn hturn hdropped
  have hblocks : ∀ b ∈ ((turnsOf source).filter Turn.isDropped).map Turn.diagnostics, IsBlock b := by
    intro b hb
    obtain ⟨t, ht, rfl⟩ := List.mem_map.1 hb
    obtain ⟨hmem, hdropped⟩ := List.mem_filter.1 ht
    exact (hreported t hmem hdropped).isBlock
  refine ⟨fun blocks => ⟨?_, ?_⟩, hreported, ?_⟩
  · rintro ⟨h, hflatten⟩
    rw [toList_parse_snd, diagnosticsOf_eq_flatten] at hflatten
    exact blocks_unique h hblocks hflatten
  · rintro rfl
    exact ⟨hblocks, by rw [toList_parse_snd, diagnosticsOf_eq_flatten]⟩
  · intro before t after h heof
    obtain ⟨n, rest, last, -, -, hturn, hafter⟩ := exists_turn_of_turnsOf h
    have hmem : t ∈ turnsOf source := by rw [h]; simp
    have hdropped : t.isDropped := by
      obtain ⟨d, hd, -⟩ := heof
      cases hv : t.verdict with
      | kept stmt => simp [Turn.diagnostics, hv] at hd
      | dropped ds c => simp [Turn.isDropped, Turn.skipped?, hv]
    obtain ⟨c, hskipped, hc⟩ := (hreported t hmem hdropped).skipped_eof heof
    have hmid : ∀ u ∈ skip n (scanAll source.toList), u.kind ≠ .eof := by
      intro u hu
      rw [skip_list] at hu
      exact kind_ne_eof_of_mem_scanAll _ u (List.mem_of_mem_drop hu)
    exact eq_nil_of_skipped_eof hmid hturn hskipped hc hafter

end LetLang
