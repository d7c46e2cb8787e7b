import Mathlib.Data.List.Forall2
import LetLang.Proofs.Overflow
import LetLang.Proofs.Runs
import LetLang.Proofs.Statements

/-!
# Segments of a source

Every semicolon ends a segment.  The turns of a source fall apart into those of its segments, and what
the turns on one segment come to depends on that segment alone: the first turn keeps it if it is a
statement, or else drops some tokens of it, none past its semicolon, and the turns that follow are
those of what is left of it.

    segments ts                 ts cut behind every semicolon
    Settled seg us              what the turns us on the segment seg come to
    exists_segment_run          the turns on a closed segment, whatever follows it
    parse_segments              what a whole parse keeps and drops
-/

namespace LetLang

open TokenStream

/-- The tokens cut behind every semicolon.  The last segment may lack one. -/
def segments : List Token → List (List Token)
  | [] => []
  | t :: ts =>
    if t.kind = .semicolon then [t] :: segments ts
    else
      match segments ts with
      | [] => [[t]]
      | seg :: segs => (t :: seg) :: segs

theorem segments_of_open {ts : List Token} (h : ∀ t ∈ ts, t.kind ≠ .semicolon) (hne : ts ≠ []) :
    segments ts = [ts] := by
  induction ts with
  | nil => exact absurd rfl hne
  | cons t ts ih =>
    rw [segments, if_neg (h t List.mem_cons_self)]
    cases ts with
    | nil => rfl
    | cons u us => rw [ih (fun v hv => h v (List.mem_cons_of_mem t hv)) (by simp)]

theorem segments_append {ts rest : List Token} {semi : Token} (h : ∀ t ∈ ts, t.kind ≠ .semicolon)
    (hsemi : semi.kind = .semicolon) :
    segments (ts ++ semi :: rest) = (ts ++ [semi]) :: segments rest := by
  induction ts with
  | nil => rw [List.nil_append, segments, if_pos hsemi]; rfl
  | cons t ts ih =>
    rw [List.cons_append, segments, if_neg (h t List.mem_cons_self),
      ih fun v hv => h v (List.mem_cons_of_mem t hv)]
    rfl

theorem exists_first_semicolon (ts : List Token) :
    (∀ t ∈ ts, t.kind ≠ .semicolon) ∨
      ∃ seg semi rest, ts = seg ++ semi :: rest ∧ (∀ t ∈ seg, t.kind ≠ .semicolon) ∧
        semi.kind = .semicolon := by
  induction ts with
  | nil => exact .inl (by simp)
  | cons t ts ih =>
    by_cases ht : t.kind = .semicolon
    · exact .inr ⟨[], t, ts, rfl, by simp, ht⟩
    · rcases ih with h | ⟨seg, semi, rest, rfl, hseg, hsemi⟩
      · exact .inl (List.forall_mem_cons.2 ⟨ht, h⟩)
      · exact .inr ⟨t :: seg, semi, rest, rfl, List.forall_mem_cons.2 ⟨ht, hseg⟩, hsemi⟩

theorem skip_list (n : Nat) (ts : List Token) : skip n ts = ts.drop n := tokens_skip n ts

theorem front_list {n : Nat} {ts : List Token} (h : n ≤ ts.length) : front n ts = ts.take n := by
  have hs : tokens ts = ts.take n ++ ts.drop n := (List.take_append_drop n ts).symm
  have hf := front_of_tokens hs
  rwa [List.length_take, Nat.min_eq_left h] at hf

theorem filter_front {n : Nat} {ts : List Token} (h : ∀ t ∈ ts, t.kind ≠ .eof) :
    (front n ts).filter (·.kind ≠ .eof) = ts.take n := by
  induction n generalizing ts with
  | zero => simp [front]
  | succ n ih =>
    cases ts with
    | nil =>
      have hnil : front (n + 1) ([] : List Token) = Token.eof :: front n [] := rfl
      rw [hnil, List.filter_cons_of_neg (by simp), ih (by simp), List.take_nil, List.take_nil]
    | cons t ts =>
      have hcons : front (n + 1) (t :: ts) = t :: front n ts := rfl
      rw [hcons, List.filter_cons_of_pos (by simpa using h t List.mem_cons_self),
        ih fun u hu => h u (List.mem_cons_of_mem t hu), List.take_succ_cons]

theorem filter_ne_eof {ts : List Token} (h : ∀ t ∈ ts, t.kind ≠ .eof) :
    ts.filter (·.kind ≠ .eof) = ts :=
  List.filter_eq_self.2 (by simpa using h)

theorem kind_current_ne_eof {ts : List Token} (hne : ts ≠ []) (h : ∀ t ∈ ts, t.kind ≠ .eof)
    (rest : List Token) : (current (ts ++ rest)).kind ≠ .eof := by
  cases ts with
  | nil => exact absurd rfl hne
  | cons t ts => exact h t List.mem_cons_self

/-! ## The first turn on a segment -/

theorem turn_of_fits {n room : Nat} {ts : List Token} {stmt : Stmt}
    (h : DerivesStatement n ts stmt) (hn : n ≤ room) (rest : List Token) :
    ∃ t, turn .standard room (ts ++ rest) = some (t, rest) ∧ t.taken = ts ∧
      t.verdict = .kept stmt := by
  have hs : Spans (Logged.mk (ts ++ rest) []) ts (skip ts.length ⟨ts ++ rest, []⟩) := .of_append rfl
  obtain ⟨t, ht, htaken, hv⟩ := turn_of_done (statement_eq_done_iff.2 ⟨ts, n, hs, hn, h⟩)
  refine ⟨t, ?_, ?_, hv⟩
  · rw [ht, skip_list, List.drop_left]
  · rw [htaken, front_list (by simp), List.take_left]

theorem front_segment {m : Nat} {seg : List Token} (semi : Token) (rest : List Token)
    (hm : m ≤ seg.length + 1) :
    front m (Logged.mk (seg ++ semi :: rest) []) = (seg ++ [semi]).take m := by
  rw [front_logged, front_list (by simp; omega), List.append_cons,
    List.take_append_of_le_length (by simpa using hm)]

/-- A segment that is no statement has its first turn dropped, whatever comes behind it. -/
theorem turn_of_not_fits {room : Nat} {seg : List Token} {semi : Token}
    (hseg : ∀ t ∈ seg, t.kind ≠ .semicolon) (hsemi : semi.kind = .semicolon)
    (hno : ¬∃ n stmt, n ≤ room ∧ DerivesStatement n (seg ++ [semi]) stmt) :
    ∃ n ds skipped, n ≤ seg.length ∧ ds ≠ [] ∧ ∀ rest, ∃ t,
      turn .standard room (seg ++ semi :: rest) = some (t, (seg ++ semi :: rest).drop (n + 1)) ∧
        t.taken = (seg ++ [semi]).take (n + 1) ∧ t.verdict = .dropped ds skipped := by
  have hclose : (statement .standard room).Closes .semicolon (Logged.mk (seg ++ [semi]) []) :=
    closes_statement rfl rfl room _
  rcases hclose with h | ⟨n, hn, ⟨stmt, hk, h⟩ | ⟨r, h⟩⟩
  · exact absurd h (ends_statement rfl room _)
  · exfalso
    -- a statement ends at the first semicolon, so this one would be the whole segment
    have hge : ¬n < seg.length := by
      intro hlt
      have hmem := current_skip_mem_front n (Logged.mk (seg ++ [semi]) [])
      rw [front_segment semi [] (by omega), List.take_append_of_le_length hlt] at hmem
      exact hseg _ (List.mem_of_mem_take hmem) (hk Nat.one_pos)
    obtain ⟨ts, m, hs, hm, hd⟩ := statement_eq_done_iff.1 (h _ rfl)
    have hlast : tokens (skip (n + 1) (Logged.mk (seg ++ [semi]) [])) = [] := by
      rw [tokens_skip]
      show (seg ++ [semi]).drop (n + 1) = []
      exact List.drop_eq_nil_of_le (by simp; omega)
    have hts : seg ++ [semi] = ts := by
      have htokens := hs.tokens_eq
      rwa [hlast, List.append_nil] at htokens
    exact hno ⟨m, stmt, hm, hts ▸ hd⟩
  · have hle : n ≤ seg.length := by
      apply Nat.not_lt.1
      intro hlt
      obtain ⟨k, rfl⟩ : ∃ k, n = seg.length + 1 + k := ⟨n - (seg.length + 1), by omega⟩
      rw [front_add, front_segment semi [] (Nat.le_refl _), List.take_of_length_le (by simp)] at hn
      exact hn semi (by simp) hsemi
    refine ⟨n, r.diagnostics, current (skip n (seg ++ [semi])), hle,
      by simp [Rejection.diagnostics], fun rest => ?_⟩
    have heq : front (n + 1) (Logged.mk (seg ++ [semi]) []) =
        front (n + 1) (Logged.mk (seg ++ semi :: rest) []) := by
      rw [front_segment semi [] (by omega), front_segment semi rest (by omega)]
    obtain ⟨t, ht, htaken, hv⟩ := turn_of_failed (h _ heq)
    refine ⟨t, ?_, ?_, ?_⟩
    · rw [ht, skip_list]
    · rw [htaken, ← front_logged (n + 1) _ [], front_segment semi rest (by omega)]
    · have hc := current_skip_of_front heq
      rw [current_eq, current_eq, tokens_skip, tokens_skip] at hc
      rw [hv, current_eq, current_eq, tokens_skip, tokens_skip]
      exact congrArg _ hc.symm

/-! ## What a segment comes to -/

/-- The tokens that a turn took and what it came to, without the token that it looked ahead to. -/
def Turn.outline (t : Turn) : List Token × Verdict := (t.taken, t.verdict)

/-- What the turns on a segment come to.  The end token, which the last turn of a source may take, is
part of no segment. -/
structure Settled (seg : List Token) (us : List Turn) : Prop where
  taken : (us.flatMap Turn.taken).filter (·.kind ≠ .eof) = seg
  clean_iff : diagnosticsOf us = [] ↔ ∃ stmt, Fitting seg stmt
  kept : ∀ stmt, Fitting seg stmt → statementsOf us = [stmt]
  /-- Of a segment that is no statement, at most a proper end is kept, if that is one. -/
  broken : (¬∃ stmt, Fitting seg stmt) → statementsOf us = [] ∨
    ∃ before after stmt, seg = before ++ after ∧ before ≠ [] ∧ Fitting after stmt ∧
      statementsOf us = [stmt]
  unclosed : (∀ t ∈ seg, t.kind ≠ .semicolon) → statementsOf us = [] ∧ diagnosticsOf us ≠ []

theorem Fitting.exists_semicolon {seg : List Token} {stmt : Stmt} (h : Fitting seg stmt) :
    ∃ t ∈ seg, t.kind = .semicolon := by
  obtain ⟨n, -, hd⟩ := h
  obtain ⟨us, semi, rfl, hsemi, -⟩ := hd.exists_semicolon
  exact ⟨semi, by simp, hsemi⟩

/-- Whatever a segment is, at most an end of it is kept. -/
theorem Settled.kept_end {seg : List Token} {us : List Turn} (h : Settled seg us) :
    statementsOf us = [] ∨
      ∃ mid last stmt, seg = mid ++ last ∧ Fitting last stmt ∧ statementsOf us = [stmt] := by
  by_cases hfit : ∃ stmt, Fitting seg stmt
  · obtain ⟨stmt, hstmt⟩ := hfit
    exact .inr ⟨[], seg, stmt, rfl, hstmt, h.kept stmt hstmt⟩
  · rcases h.broken hfit with hnil | ⟨mid, last, stmt, hseg, -, hlast, hkept⟩
    · exact .inl hnil
    · exact .inr ⟨mid, last, stmt, hseg, hlast, hkept⟩

theorem settled_of_fits {seg : List Token} {stmt : Stmt} {t : Turn} (h : Fitting seg stmt)
    (htaken : t.taken.filter (·.kind ≠ .eof) = seg) (hv : t.verdict = .kept stmt) :
    Settled seg [t] where
  taken := by
    rw [List.flatMap_singleton]
    exact htaken
  clean_iff := by
    constructor
    · intro _
      exact ⟨stmt, h⟩
    · intro _
      simp [diagnosticsOf, Turn.diagnostics, hv]
  kept := by
    intro other h'
    rw [h'.unique h]
    simp [statementsOf, Turn.statement?, hv]
  broken := by
    intro hno
    exact absurd ⟨stmt, h⟩ hno
  unclosed := by
    intro hopen
    obtain ⟨t, ht, hsemi⟩ := h.exists_semicolon
    exact absurd hsemi (hopen t ht)

theorem settled_of_dropped {before after : List Token} {t : Turn} {us : List Turn}
    {ds : List Diagnostic} {skipped : Token} (hne : before ≠ [])
    (hno : ¬∃ stmt, Fitting (before ++ after) stmt)
    (htaken : t.taken.filter (·.kind ≠ .eof) = before) (hv : t.verdict = .dropped ds skipped)
    (hds : ds ≠ []) (hus : (us.flatMap Turn.taken).filter (·.kind ≠ .eof) = after)
    (hkept : statementsOf us = [] ∨
      ∃ mid last stmt, after = mid ++ last ∧ Fitting last stmt ∧ statementsOf us = [stmt]) :
    Settled (before ++ after) (t :: us) := by
  have hstatements : statementsOf (t :: us) = statementsOf us := by
    simp [statementsOf, Turn.statement?, hv]
  have hdiagnostics : diagnosticsOf (t :: us) ≠ [] := by
    simp [diagnosticsOf, Turn.diagnostics, hv, hds]
  constructor
  case taken => rw [List.flatMap_cons, List.filter_append, htaken, hus]
  case clean_iff =>
    constructor
    · intro h
      exact absurd h hdiagnostics
    · intro h
      exact absurd h hno
  case kept =>
    intro stmt h
    exact absurd ⟨stmt, h⟩ hno
  case broken =>
    intro _
    rw [hstatements]
    rcases hkept with h | ⟨mid, last, stmt, rfl, hfit, h⟩
    · exact .inl h
    · exact .inr ⟨before ++ mid, last, stmt, (List.append_assoc _ _ _).symm, by simp [hne], hfit, h⟩
  case unclosed =>
    intro hopen
    rw [hstatements]
    refine ⟨?_, hdiagnostics⟩
    rcases hkept with h | ⟨mid, last, stmt, rfl, hfit, -⟩
    · exact h
    · obtain ⟨u, hu, hsemi⟩ := hfit.exists_semicolon
      exact absurd hsemi (hopen u (by simp [hu]))

/-! ## Whole segments -/

/-- A segment is read to its semicolon and no further, and what follows it makes no difference. -/
theorem exists_segment_run (k : Nat) (seg : List Token) {semi : Token} (hk : seg.length ≤ k)
    (hseg : ∀ t ∈ seg, t.kind ≠ .semicolon) (heof : ∀ t ∈ seg, t.kind ≠ .eof)
    (hsemi : semi.kind = .semicolon) :
    ∃ outline, ∀ rest, ∃ us, Run .standard nestingLimit (seg ++ semi :: rest) us rest ∧
      us.map Turn.outline = outline ∧ Settled (seg ++ [semi]) us := by
  have hall : ∀ t ∈ seg ++ [semi], t.kind ≠ .eof := by
    intro t ht
    rcases List.mem_append.1 ht with ht | ht
    · exact heof t ht
    · rw [List.mem_singleton.1 ht, hsemi]
      decide
  have hcurrent : ∀ rest : List Token, (current (seg ++ semi :: rest)).kind ≠ .eof := by
    intro rest
    rw [List.append_cons]
    exact kind_current_ne_eof (by simp) hall rest
  by_cases hfit : ∃ stmt, Fitting (seg ++ [semi]) stmt
  · obtain ⟨stmt, n, hn, hd⟩ := hfit
    refine ⟨[(seg ++ [semi], .kept stmt)], fun rest => ?_⟩
    obtain ⟨t, ht, htaken, hv⟩ := turn_of_fits hd hn rest
    rw [← List.append_cons] at ht
    refine ⟨[t], .turn (hcurrent rest) ht (.stop rest), ?_, settled_of_fits ⟨n, hn, hd⟩ ?_ hv⟩
    · simp [Turn.outline, htaken, hv]
    · rw [htaken]
      exact filter_ne_eof hall
  · obtain ⟨n, ds, skipped, hle, hds, hturn⟩ := turn_of_not_fits hseg hsemi
      (fun ⟨n, stmt, hn, hd⟩ => hfit ⟨stmt, n, hn, hd⟩)
    have hne : (seg ++ [semi]).take (n + 1) ≠ [] := by simp
    have hsplit := (List.take_append_drop (n + 1) (seg ++ [semi])).symm
    have htake := filter_ne_eof fun t ht => hall t (List.mem_of_mem_take (i := n + 1) ht)
    by_cases hlt : n < seg.length
    -- what is left of the segment is a segment again, up to the same semicolon
    · cases k with
      | zero => omega
      | succ k =>
        have hdrop : ∀ rest, (seg ++ semi :: rest).drop (n + 1) = seg.drop (n + 1) ++ semi :: rest :=
          fun rest => List.drop_append_of_le_length hlt
        obtain ⟨outline, hrun⟩ := exists_segment_run k (seg.drop (n + 1))
          (by rw [List.length_drop]; omega)
          (fun t ht => hseg t (List.mem_of_mem_drop ht))
          (fun t ht => heof t (List.mem_of_mem_drop ht)) hsemi
        refine ⟨((seg ++ [semi]).take (n + 1), .dropped ds skipped) :: outline, fun rest => ?_⟩
        obtain ⟨t, ht, htaken, hv⟩ := hturn rest
        obtain ⟨us, hus, hout, hset⟩ := hrun rest
        rw [hdrop] at ht
        refine ⟨t :: us, .turn (hcurrent rest) ht hus, ?_, ?_⟩
        · simp [Turn.outline, htaken, hv, hout]
        · rw [hsplit, hdrop]
          rw [hsplit, hdrop] at hfit
          exact settled_of_dropped hne hfit (htaken ▸ htake) hv hds hset.taken hset.kept_end
    · have hdrop : ∀ rest, (seg ++ semi :: rest).drop (n + 1) = rest := by
        intro rest
        rw [List.append_cons]
        exact List.drop_left' (by simp; omega)
      refine ⟨[((seg ++ [semi]).take (n + 1), .dropped ds skipped)], fun rest => ?_⟩
      obtain ⟨t, ht, htaken, hv⟩ := hturn rest
      rw [hdrop] at ht
      refine ⟨[t], .turn (hcurrent rest) ht (.stop rest), ?_, ?_⟩
      · simp [Turn.outline, htaken, hv]
      · rw [hsplit, hdrop]
        rw [hsplit, hdrop] at hfit
        exact settled_of_dropped hne hfit (htaken ▸ htake) hv hds rfl (.inl rfl)

/-- Tokens without a semicolon are all dropped. -/
theorem exists_open_run (k : Nat) (ts : List Token) (hk : ts.length ≤ k)
    (hopen : ∀ t ∈ ts, t.kind ≠ .semicolon) (heof : ∀ t ∈ ts, t.kind ≠ .eof) :
    ∃ us, Run .standard nestingLimit ts us [] ∧
      (us.flatMap Turn.taken).filter (·.kind ≠ .eof) = ts ∧ statementsOf us = [] ∧
      (ts ≠ [] → Settled ts us) := by
  by_cases hnil : ts = []
  · subst hnil
    exact ⟨[], .stop [], rfl, rfl, fun h => absurd rfl h⟩
  have hno : ¬∃ stmt, Fitting ts stmt := by
    rintro ⟨stmt, h⟩
    obtain ⟨t, ht, hsemi⟩ := h.exists_semicolon
    exact hopen t ht hsemi
  have hcurrent := kind_current_ne_eof hnil heof []
  rw [List.append_nil] at hcurrent
  cases hst : statement .standard nestingLimit (Logged.mk ts []) with
  | endless => exact absurd hst (ends_statement rfl _ _)
  | done stmt rest =>
    obtain ⟨us, n, hs, -, hd⟩ := statement_eq_done_iff.1 hst
    obtain ⟨vs, semi, rfl, hsemi, -⟩ := hd.exists_semicolon
    have htokens : ts = vs ++ [semi] ++ tokens rest := hs.tokens_eq
    exact absurd hsemi (hopen semi (by simp [htokens]))
  | failed r rest =>
    obtain ⟨n, rfl⟩ : ∃ n, rest = skip n (Logged.mk ts []) := by
      have hmoves := moves_statement .standard nestingLimit (Logged.mk ts [])
      rwa [hst] at hmoves
    obtain ⟨t, ht, htaken, hv⟩ := turn_of_failed hst
    have hlength := List.length_pos_iff.2 hnil
    cases k with
    | zero => omega
    | succ k =>
      obtain ⟨us, hus, hall, hkept, -⟩ := exists_open_run k (ts.drop (n + 1))
        (by rw [List.length_drop]; omega) (fun t ht => hopen t (List.mem_of_mem_drop ht))
        (fun t ht => heof t (List.mem_of_mem_drop ht))
      have htake : t.taken.filter (·.kind ≠ .eof) = ts.take (n + 1) := by
        rw [htaken]
        exact filter_front heof
      have hset : Settled (ts.take (n + 1) ++ ts.drop (n + 1)) (t :: us) :=
        settled_of_dropped (by simp [hnil]) (by rwa [List.take_append_drop]) htake hv
          (by simp [Rejection.diagnostics]) hall (.inl hkept)
      rw [List.take_append_drop] at hset
      rw [skip_list] at ht
      exact ⟨t :: us, .turn hcurrent ht hus, hset.taken, (hset.unclosed hopen).1, fun _ => hset⟩

/-- The turns on a list of tokens are those on its segments. -/
theorem exists_settled_parts (k : Nat) (ts : List Token) (hk : ts.length ≤ k)
    (heof : ∀ t ∈ ts, t.kind ≠ .eof) :
    ∃ parts : List (List Turn), readAll ts = parts.flatten ∧
      List.Forall₂ Settled (segments ts) parts := by
  rcases exists_first_semicolon ts with hopen | ⟨seg, semi, rest, rfl, hseg, hsemi⟩
  · by_cases hnil : ts = []
    · subst hnil
      exact ⟨[], rfl, .nil⟩
    · obtain ⟨us, hus, -, -, hset⟩ := exists_open_run k ts hk hopen heof
      refine ⟨[us], ?_, ?_⟩
      · rw [readAll_of_run hus, readAll_nil]
        rfl
      · rw [segments_of_open hopen hnil]
        exact .cons (hset hnil) .nil
  · rw [List.length_append, List.length_cons] at hk
    cases k with
    | zero => omega
    | succ k =>
      obtain ⟨outline, hrun⟩ := exists_segment_run (k + 1) seg (by omega) hseg
        (fun t ht => heof t (List.mem_append_left _ ht)) hsemi
      obtain ⟨us, hus, -, hset⟩ := hrun rest
      obtain ⟨parts, hparts, hall⟩ := exists_settled_parts k rest (by omega)
        (fun t ht => heof t (List.mem_append_right _ (List.mem_cons_of_mem semi ht)))
      refine ⟨us :: parts, ?_, ?_⟩
      · rw [readAll_of_run hus, hparts]
        rfl
      · rw [segments_append hseg hsemi]
        exact .cons hset hall

theorem statementsOf_flatten (parts : List (List Turn)) :
    statementsOf parts.flatten = parts.flatMap statementsOf := by
  induction parts with
  | nil => rfl
  | cons part parts ih => rw [List.flatten_cons, statementsOf_append, ih, List.flatMap_cons]

theorem diagnosticsOf_flatten (parts : List (List Turn)) :
    diagnosticsOf parts.flatten = parts.flatMap diagnosticsOf := by
  induction parts with
  | nil => rfl
  | cons part parts ih => rw [List.flatten_cons, diagnosticsOf_append, ih, List.flatMap_cons]

theorem exists_parts (source : String) :
    ∃ parts : List (List Turn), turnsOf source = parts.flatten ∧
      List.Forall₂ Settled (segments (scanAll source.toList)) parts := by
  rw [turnsOf_eq_readAll]
  exact exists_settled_parts _ _ (Nat.le_refl _) (kind_ne_eof_of_mem_scanAll _)

theorem filter_tokenize (source : String) :
    (tokenize source).filter (·.kind ≠ .eof) = scanAll source.toList := by
  rw [tokenize, List.filter_append, filter_ne_eof (kind_ne_eof_of_mem_scanAll _)]
  simp

/-- A source is kept and dropped segment by segment.  A segment that is a statement within the nesting
limit gives that statement and no diagnostic; any other has a diagnostic and gives no statement but one
that is a proper end of it, and none at all if no semicolon ends it. -/
theorem parse_segments (source : String) :
    ∃ parts : List (List Turn), turnsOf source = parts.flatten ∧
      (parse source).1.statements = parts.flatMap statementsOf ∧
      (parse source).2.toList = parts.flatMap diagnosticsOf ∧
      List.Forall₂ Settled (segments ((tokenize source).filter (·.kind ≠ .eof))) parts := by
  obtain ⟨parts, hparts, hall⟩ := exists_parts source
  refine ⟨parts, hparts, ?_, ?_, by rwa [filter_tokenize]⟩
  · show statementsOf (turnsOf source) = _
    rw [hparts, statementsOf_flatten]
  · rw [toList_parse_snd, hparts, diagnosticsOf_flatten]

end LetLang
