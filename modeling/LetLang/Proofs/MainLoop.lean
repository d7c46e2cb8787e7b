import LetLang.Proofs.Runs

/-!
# The main loop

A whole parse goes round and round.  Each round attempts a statement; if that is rejected, the last of its
diagnostics is reported and the token at which reading stopped is skipped.  The turns of the stream hold
what the rounds have done, all that they reported and told of included.

    p.round = some (t.statement?, p.having [t] rest)     for the turn t of its stream     (round_of_turn)
    the rounds of a parser are a run of turns on its stream                               (rounds_iff_run)
    p.parse is the rounds up to the end token, and the closing event             (parse_eq_some_iff)
-/

namespace LetLang

open TokenStream

theorem turns_of_eof {σ : Type} [TokenStream σ] {g : Grammar} {room : Nat} {s : σ}
    (h : (current s).kind = .eof) : turns g room s = some ([], s) := by
  unfold turns
  cases left s with
  | zero => rfl
  | succ n => rw [turnsUpTo, if_pos h]

namespace Parser

variable {σ : Type}

/-- The parser once it has taken turns that leave its stream at `rest`. -/
def having (p : Parser σ) (ts : List Turn) (rest : σ) : Parser σ :=
  ({ p with stream := rest }.reportAll (diagnosticsOf ts)).tell (eventsOf ts)

@[simp] theorem stream_having (p : Parser σ) (ts : List Turn) (rest : σ) :
    (p.having ts rest).stream = rest := by simp [having, tell]

@[simp] theorem grammar_having (p : Parser σ) (ts : List Turn) (rest : σ) :
    (p.having ts rest).grammar = p.grammar := by simp [having, tell]

@[simp] theorem depth_having (p : Parser σ) (ts : List Turn) (rest : σ) :
    (p.having ts rest).depth = p.depth := by simp [having, tell]

@[simp] theorem room_having (p : Parser σ) (ts : List Turn) (rest : σ) :
    (p.having ts rest).room = p.room := by rw [room, depth_having, room]

@[simp] theorem toList_diagnostics_having (p : Parser σ) (ts : List Turn) (rest : σ) :
    (p.having ts rest).diagnostics.toList = p.diagnostics.toList ++ diagnosticsOf ts := by
  simp [having, tell]

@[simp] theorem toList_lines_having (p : Parser σ) (ts : List Turn) (rest : σ) :
    (p.having ts rest).lines.toList = p.lines.toList ++ linesOf ts := by
  simp [having, tell, linesOf]

theorem tell_append (p : Parser σ) (es fs : List Event) : p.tell (es ++ fs) = (p.tell es).tell fs := by
  simp [tell, Array.toList_inj.symm]

theorem reportAll_append (p : Parser σ) (ds es : List Diagnostic) :
    p.reportAll (ds ++ es) = (p.reportAll ds).reportAll es := List.foldl_append

theorem reportAll_tell (p : Parser σ) (es : List Event) (ds : List Diagnostic) :
    (p.tell es).reportAll ds = (p.reportAll ds).tell es := by
  rw [reportAll_eq, reportAll_eq]
  rfl

theorem having_nil (p : Parser σ) : p.having [] p.stream = p := by
  simp [having, reportAll, tell]

theorem having_append (p : Parser σ) (ts us : List Turn) (mid rest : σ) :
    p.having (ts ++ us) rest = (p.having ts mid).having us rest := by
  have hmove : { (p.having ts mid) with stream := rest } = p.having ts rest := by
    simp [having, tell, reportAll_eq]
  rw [having, having, hmove, having, eventsOf_append, tell_append, diagnosticsOf_append, reportAll_append,
    reportAll_tell]

variable [TokenStream σ]

/-! ## Rounds -/

/-- Goes once round the main loop.  The statement is kept, or it is dropped and the token at which reading
stopped is skipped. -/
def round (p : Parser σ) : Option (Option Stmt × Parser σ) :=
  match p.parseStatement with
  | none => none
  | some (.ok stmt, q) => some (some stmt, q)
  | some (.error d, q) =>
    let (skipped, rest) := (q.report d).advance
    some (none, rest.tell [.dropped skipped])

theorem round_of_turn {p : Parser σ} {t : Turn} {rest : σ}
    (h : turn p.grammar p.room p.stream = some (t, rest)) :
    p.round = some (t.statement?, p.having [t] rest) := by
  unfold turn at h
  unfold round parseStatement run
  split at h
  · next stmt last hs =>
    cases h
    rw [hs]
    simp [having, resume, reportAll, Turn.statement?, diagnosticsOf, Turn.diagnostics, eventsOf,
      Turn.events, Turn.skipped?]
  · next r last hs =>
    cases h
    rw [hs]
    have hdiagnostics : p.diagnostics.addAll (r.noted ++ [r.error]) =
        (p.diagnostics.addAll r.noted).add r.error := List.foldl_append
    simp [having, resume, tell, reportAll_eq, report, advance, currentToken, Turn.statement?,
      diagnosticsOf, Turn.diagnostics, eventsOf, Turn.events, Turn.skipped?, Rejection.diagnostics,
      hdiagnostics, Array.toList_inj.symm]
    exact ⟨rfl, rfl, rfl⟩
  · cases h

theorem turn_of_round {p q : Parser σ} {kept : Option Stmt} (h : p.round = some (kept, q)) :
    ∃ t rest, turn p.grammar p.room p.stream = some (t, rest) ∧ kept = t.statement? ∧
      q = p.having [t] rest := by
  cases ht : turn p.grammar p.room p.stream with
  | some r =>
    obtain ⟨t, rest⟩ := r
    rw [round_of_turn ht] at h
    cases h
    exact ⟨t, rest, rfl, rfl, rfl⟩
  | none =>
    -- a turn that never ends is a round that never ends
    unfold turn at ht
    split at ht
    · cases ht
    · cases ht
    · next hs =>
      unfold round parseStatement run at h
      rw [hs] at h
      cases h

/-- Rounds one after the other, none of them at the end token; each keeps a statement or none. -/
inductive Rounds : Parser σ → List (Option Stmt) → Parser σ → Prop
  | stop (p : Parser σ) : Rounds p [] p
  | round {p q r : Parser σ} {kept : Option Stmt} {rest : List (Option Stmt)}
      (hp : p.currentKind ≠ .eof) (h : p.round = some (kept, q)) (hrest : Rounds q rest r) :
      Rounds p (kept :: rest) r

theorem rounds_of_run {p : Parser σ} {g : Grammar} {room : Nat} {s rest : σ} {ts : List Turn}
    (h : Run g room s ts rest) (hg : p.grammar = g) (hroom : p.room = room) (hs : p.stream = s) :
    p.Rounds (ts.map Turn.statement?) (p.having ts rest) := by
  induction h generalizing p with
  | stop s =>
    subst hs
    rw [having_nil]
    exact .stop p
  | @turn s mid rest t ts hcurrent ht _ ih =>
    subst hg hroom hs
    have hrest := ih (p := p.having [t] mid) (by simp) (by simp) (by simp)
    rw [← having_append] at hrest
    exact .round hcurrent (round_of_turn ht) hrest

/-- Rounds are turns. -/
theorem rounds_iff_run {p q : Parser σ} {kept : List (Option Stmt)} :
    p.Rounds kept q ↔ ∃ ts rest, Run p.grammar p.room p.stream ts rest ∧
      kept = ts.map Turn.statement? ∧ q = p.having ts rest := by
  constructor
  · intro h
    induction h with
    | stop p => exact ⟨[], p.stream, .stop _, rfl, p.having_nil.symm⟩
    | round hp h _ ih =>
      obtain ⟨t, mid, ht, rfl, rfl⟩ := turn_of_round h
      obtain ⟨ts, rest, hrun, rfl, rfl⟩ := ih
      rw [grammar_having, room_having, stream_having] at hrun
      exact ⟨t :: ts, rest, .turn hp ht hrun, rfl, (having_append _ [t] ts mid rest).symm⟩
  · rintro ⟨ts, rest, hrun, rfl, rfl⟩
    exact rounds_of_run hrun rfl rfl rfl

/-- A whole parse is as many rounds as it takes to come to the end token. -/
theorem parse_eq_some_iff {p q : Parser σ} {program : Program} :
    p.parse = some (program, q) ↔ ∃ kept r, p.Rounds kept r ∧ r.currentKind = .eof ∧
      program = ⟨kept.filterMap id⟩ ∧ q = r.tell [.finished program.size r.diagnostics.size] := by
  have hkept : ∀ ts : List Turn, (ts.map Turn.statement?).filterMap id = statementsOf ts := by
    intro ts
    rw [List.filterMap_map]
    rfl
  constructor
  · intro h
    unfold parse at h
    split at h
    · cases h
    · next ts last hturns =>
      cases h
      refine ⟨_, _, rounds_of_run (run_of_turnsUpTo hturns) rfl rfl rfl, ?_, ?_, rfl⟩
      · rw [currentKind, currentToken, stream_having]
        exact current_of_turns hturns
      · rw [hkept]
        rfl
  · rintro ⟨kept, r, hrounds, heof, rfl, rfl⟩
    obtain ⟨ts, last, hrun, rfl, rfl⟩ := rounds_iff_run.1 hrounds
    rw [currentKind, currentToken, stream_having] at heof
    have hturns := hrun.turns_eq
    simp only [turns_of_eof heof, Option.map_some, List.append_nil] at hturns
    rw [parse, hturns, hkept]
    rfl

end Parser

end LetLang
