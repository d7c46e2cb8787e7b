import LetLang.Proofs.MainLoop

/-!
# Sessions

Sources read one after the other share one record of diagnostics, and none of them sees what the others
have left there.  Nothing that a parser does depends on its record, and nothing that it does takes anything
away: from one state to the next, diagnostics are put at the end of the record and their reports are shown.

    p.Reaches q → q has the record and the lines of p, and more behind      (Parser.Reaches.exists_prefix)
    each source of a session gives what it gives alone, behind what was on record     (session_independent)
-/

namespace LetLang

open TokenStream

namespace Parser

variable {σ : Type} [TokenStream σ]

/-! ## The course of a parse -/

/-- The states of a parser in the course of a whole parse. -/
inductive Reaches (p : Parser σ) : Parser σ → Prop
  /-- Some tokens into the statement that comes after some rounds. -/
  | reading {kept : List (Option Stmt)} {q : Parser σ} (h : p.Rounds kept q) (n : Nat) :
      p.Reaches (q.resume (skip n ⟨q.stream, []⟩))
  /-- A statement has been rejected, and its last diagnostic has still to be reported. -/
  | rejected {kept : List (Option Stmt)} {q r : Parser σ} {d : Diagnostic} (h : p.Rounds kept q)
      (hq : q.currentKind ≠ .eof) (hr : q.parseStatement = some (.error d, r)) : p.Reaches r
  /-- The last diagnostic has been reported, and a token has still to be skipped. -/
  | reported {kept : List (Option Stmt)} {q r : Parser σ} {d : Diagnostic} (h : p.Rounds kept q)
      (hq : q.currentKind ≠ .eof) (hr : q.parseStatement = some (.error d, r)) :
      p.Reaches (r.report d)

/-- A rejected statement has reported the diagnostics of its turn, all but the last. -/
theorem exists_turn_of_parseStatement {q r : Parser σ} {d : Diagnostic}
    (h : q.parseStatement = some (.error d, r)) :
    ∃ t rest noted, turn q.grammar q.room q.stream = some (t, rest) ∧ t.diagnostics = noted ++ [d] ∧
      r.diagnostics.toList = q.diagnostics.toList ++ noted ∧
      r.lines.toList = q.lines.toList ++ noted.map Diagnostic.report := by
  unfold parseStatement run at h
  unfold turn
  cases hs : statement q.grammar q.room (Logged.mk q.stream []) with
  | done stmt last =>
    rw [hs] at h
    cases h
  | endless =>
    rw [hs] at h
    cases h
  | failed rejection last =>
    rw [hs] at h
    cases h
    exact ⟨_, _, rejection.noted, rfl, rfl, by simp [resume, tell], by simp [resume, tell]⟩

/-- Rounds take the first of the turns, and leave the others to be taken. -/
theorem Rounds.exists_append {p q : Parser σ} {kept : List (Option Stmt)} {ts : List Turn} {last : σ}
    (h : p.Rounds kept q) (hts : turns p.grammar p.room p.stream = some (ts, last)) :
    ∃ us vs, ts = us ++ vs ∧ q = p.having us q.stream ∧
      turns q.grammar q.room q.stream = some (vs, last) := by
  obtain ⟨us, rest, hrun, -, rfl⟩ := rounds_iff_run.1 h
  obtain ⟨⟨vs, last'⟩, hvs, hsplit⟩ := Option.map_eq_some_iff.1 (hrun.turns_eq.symm.trans hts)
  cases hsplit
  exact ⟨us, vs, rfl, by rw [stream_having], by
    rw [grammar_having, room_having, stream_having, hvs]⟩

/-- A statement rejected after some rounds has its diagnostics among those of the turns. -/
theorem Rounds.exists_rejected {p q r : Parser σ} {kept : List (Option Stmt)} {d : Diagnostic}
    {ts : List Turn} {last : σ} (h : p.Rounds kept q) (hq : q.currentKind ≠ .eof)
    (hr : q.parseStatement = some (.error d, r))
    (hts : turns p.grammar p.room p.stream = some (ts, last)) :
    ∃ ds, ds ++ [d] <+: diagnosticsOf ts ∧ r.diagnostics.toList = p.diagnostics.toList ++ ds ∧
      r.lines.toList = p.lines.toList ++ ds.map Diagnostic.report := by
  obtain ⟨us, vs, rfl, hhaving, hvs⟩ := h.exists_append hts
  obtain ⟨t, rest, noted, ht, hnoted, hrecord, hlines⟩ := exists_turn_of_parseStatement hr
  obtain ⟨⟨ws, last'⟩, -, hsplit⟩ :=
    Option.map_eq_some_iff.1 ((turns_of_turn hq ht).symm.trans hvs)
  cases hsplit
  refine ⟨diagnosticsOf us ++ noted, ⟨diagnosticsOf ws, ?_⟩, ?_, ?_⟩
  · simp [diagnosticsOf_cons, hnoted]
  · rw [hrecord, hhaving, toList_diagnostics_having, List.append_assoc]
  · rw [hlines, hhaving, toList_lines_having, linesOf, List.map_append, List.append_assoc]

/-- In the course of a parse the record and the lines grow together, by the first of the diagnostics that
the whole parse reports. -/
theorem Reaches.exists_prefix {p q : Parser σ} {ts : List Turn} {last : σ} (h : p.Reaches q)
    (hts : turns p.grammar p.room p.stream = some (ts, last)) :
    ∃ ds, ds <+: diagnosticsOf ts ∧ q.diagnostics.toList = p.diagnostics.toList ++ ds ∧
      q.lines.toList = p.lines.toList ++ ds.map Diagnostic.report := by
  cases h with
  | @reading kept q h n =>
    obtain ⟨us, vs, rfl, hhaving, -⟩ := h.exists_append hts
    refine ⟨diagnosticsOf us, ⟨diagnosticsOf vs, (diagnosticsOf_append us vs).symm⟩, ?_, ?_⟩
    · rw [← toList_diagnostics_having p us q.stream, ← hhaving]
      rfl
    · rw [← linesOf, ← toList_lines_having p us q.stream, ← hhaving]
      rfl
  | rejected h hq hr =>
    obtain ⟨ds, hds, hrecord, hlines⟩ := h.exists_rejected hq hr hts
    exact ⟨ds, (List.prefix_append ds _).trans hds, hrecord, hlines⟩
  | @reported kept q r d h hq hr =>
    obtain ⟨ds, hds, hrecord, hlines⟩ := h.exists_rejected hq hr hts
    exact ⟨ds ++ [d], hds, by simp [report, hrecord], by simp [report, hlines]⟩

end Parser

/-! ## The course of a session -/

/-- A source gives a parser with nothing but its record the program and the diagnostics that it gives
alone. -/
theorem exists_parse_ofString (source : String) (record : Diagnostics) :
    ∃ p, (Parser.ofString source record).parse = some ((parse source).1, p) ∧
      p.diagnostics.toList = record.toList ++ (parse source).2.toList ∧
      p.lines.toList = (parse source).2.toList.map Diagnostic.report := by
  obtain ⟨last, hturns⟩ := exists_turns_eq source
  obtain ⟨p, hp, -, -, -, hrecord, hlines, -⟩ :=
    Parser.parse_eq_of_turns (p := Parser.ofString source record) hturns
  exact ⟨p, hp, hrecord, hlines⟩

/-- The states of the parsers in the course of a session. -/
inductive SessionReaches : Diagnostics → List String → Parser Window → Prop
  /-- In the course of the parse of the source at hand. -/
  | here {record : Diagnostics} {source : String} {sources : List String} {q : Parser Window}
      (h : (Parser.ofString source record).Reaches q) : SessionReaches record (source :: sources) q
  /-- In the course of a later parse. -/
  | later {record : Diagnostics} {source : String} {sources : List String} {program : Program}
      {p q : Parser Window} (hp : (Parser.ofString source record).parse = some (program, p))
      (h : SessionReaches p.diagnostics sources q) : SessionReaches record (source :: sources) q

/-- The diagnostics of each source alone, in the order of the sources. -/
def diagnosticsOfEach (sources : List String) : List Diagnostic :=
  sources.flatMap fun source => (parse source).2.toList

theorem diagnosticsOfEach_cons (source : String) (sources : List String) :
    diagnosticsOfEach (source :: sources) = (parse source).2.toList ++ diagnosticsOfEach sources :=
  List.flatMap_cons

/-- In the course of a session the record is what was on it before, then the diagnostics of the sources
already read, then the first of those of the source at hand; and of these alone lines are shown. -/
theorem SessionReaches.exists_prefix {record : Diagnostics} {sources : List String} {q : Parser Window}
    (h : SessionReaches record sources q) :
    ∃ before source after ds, sources = before ++ source :: after ∧ ds <+: (parse source).2.toList ∧
      q.diagnostics.toList = record.toList ++ diagnosticsOfEach before ++ ds ∧
      q.lines.toList = ds.map Diagnostic.report := by
  induction h with
  | @here record source sources q h =>
    obtain ⟨last, hturns⟩ := exists_turns_eq source
    obtain ⟨ds, hds, hrecord, hlines⟩ := h.exists_prefix hturns
    refine ⟨[], source, sources, ds, rfl, hds, ?_, hlines⟩
    rw [hrecord]
    simp [diagnosticsOfEach, Parser.ofString]
  | @later record source sources program p q hp h ih =>
    obtain ⟨before, next, after, ds, rfl, hds, hrecord, hlines⟩ := ih
    obtain ⟨p', hp', hp'record, -⟩ := exists_parse_ofString source record
    rw [hp] at hp'
    cases hp'
    refine ⟨source :: before, next, after, ds, rfl, hds, ?_, hlines⟩
    rw [hrecord, hp'record, diagnosticsOfEach_cons]
    simp only [List.append_assoc]

/-- The record as the last step of a session has left it. -/
def recordAfter (record : Diagnostics) (steps : List (Program × Parser Window)) : Diagnostics :=
  steps.foldl (fun _ step => step.2.diagnostics) record

theorem exists_session_eq (record : Diagnostics) (sources : List String) :
    ∃ steps, session record sources = some steps ∧
      steps.map Prod.fst = sources.map (fun source => (parse source).1) ∧
      steps.map (fun step => step.2.lines.toList) =
        sources.map (fun source => (parse source).2.toList.map Diagnostic.report) ∧
      (recordAfter record steps).toList = record.toList ++ diagnosticsOfEach sources ∧
      ∀ k (hk : k < steps.length), steps[k].2.diagnostics.toList =
        record.toList ++ diagnosticsOfEach (sources.take (k + 1)) := by
  induction sources generalizing record with
  | nil =>
    exact ⟨[], rfl, rfl, rfl, by simp [recordAfter, diagnosticsOfEach],
      fun k hk => absurd hk (Nat.not_lt_zero k)⟩
  | cons source sources ih =>
    obtain ⟨p, hp, hrecord, hlines⟩ := exists_parse_ofString source record
    obtain ⟨steps, hsteps, hprograms, hshown, hafter, hrecords⟩ := ih p.diagnostics
    have hsession : session record (source :: sources) = some (((parse source).1, p) :: steps) := by
      rw [session, hp]
      simp only [hsteps, Option.map_some]
    have hfold : recordAfter record (((parse source).1, p) :: steps) =
        recordAfter p.diagnostics steps := rfl
    refine ⟨_, hsession, ?_, ?_, ?_, ?_⟩
    · rw [List.map_cons, List.map_cons, hprograms]
    · rw [List.map_cons, List.map_cons, hshown, hlines]
    · rw [hfold, hafter, hrecord, diagnosticsOfEach_cons, List.append_assoc]
    · intro k hk
      cases k with
      | zero => simp [diagnosticsOfEach, hrecord]
      | succ k =>
        rw [List.length_cons] at hk
        rw [List.getElem_cons_succ, hrecords k (by omega), hrecord, List.take_succ_cons,
          diagnosticsOfEach_cons, List.append_assoc]

/-- The sources of a session do not interfere.  Each gives the program and shows the lines that it gives
and shows alone, the record ends with the diagnostics of each behind what was on it before, and at no
moment is there anything else on it. -/
theorem session_independent (record : Diagnostics) (sources : List String) :
    (∃ steps, session record sources = some steps ∧
      steps.map Prod.fst = sources.map (fun source => (parse source).1) ∧
      steps.map (fun step => step.2.lines.toList) =
        sources.map (fun source => (parse source).2.toList.map Diagnostic.report) ∧
      (recordAfter record steps).toList = record.toList ++ diagnosticsOfEach sources ∧
      ∀ k (hk : k < steps.length), steps[k].2.diagnostics.toList =
        record.toList ++ diagnosticsOfEach (sources.take (k + 1))) ∧
    ∀ q, SessionReaches record sources q → record.toList <+: q.diagnostics.toList ∧
      ∃ before source after ds, sources = before ++ source :: after ∧
        ds <+: (parse source).2.toList ∧
        q.diagnostics.toList = record.toList ++ diagnosticsOfEach before ++ ds ∧
        q.lines.toList = ds.map Diagnostic.report := by
  refine ⟨exists_session_eq record sources, fun q hq => ?_⟩
  obtain ⟨before, source, after, ds, hsources, hds, hrecord, hlines⟩ := hq.exists_prefix
  refine ⟨?_, before, source, after, ds, hsources, hds, hrecord, hlines⟩
  rw [hrecord, List.append_assoc]
  exact List.prefix_append _ _

end LetLang
