import LetLang.Source
import LetLang.Proofs.Lookahead

/-!
# Turns one after the other

`Run` takes turns for as long as wanted, with no count of them: each starts at a token other than the
end, where the one before has stopped.  The turns of a stream are those of any run on it, followed by
the turns of the stream that the run leaves, so a source can be read in pieces.

    a turn moves past the tokens that it has taken                        (turn_cases, Run.exists_skip)
    Run ts us rest → readAll ts = us ++ readAll rest                      (readAll_of_run)
    turnsOf source = readAll (scanAll source.toList)                      (turnsOf_eq_readAll)
-/

namespace LetLang

open TokenStream

variable {σ : Type} [TokenStream σ] {g : Grammar} {room : Nat}

/-! ## Single turns -/

theorem seen_skip (n : Nat) (s : σ) (log : List Token) :
    (skip n (Logged.mk s log)).seen = log.reverse ++ (front (n + 1) s).tail := by
  induction n generalizing s log with
  | zero => simp [Logged.seen, front]
  | succ n ih =>
    show (skip n (Logged.mk (advance s) (current (advance s) :: log))).seen = _
    rw [ih]
    simp [front]

theorem taken_skip (n : Nat) (s : σ) (v : Verdict) :
    (Turn.mk (current s) (skip n (Logged.mk s [])).seen v).taken = front n s := by
  have h : current s :: (front (n + 1) s).tail = front (n + 1) s := rfl
  have hlen := length_front n s
  rw [Turn.taken, seen_skip, List.reverse_nil, List.nil_append, h, front_add, ← hlen]
  simp [front]

theorem turn_of_done {s : σ} {stmt : Stmt} {n : Nat}
    (h : statement g room (Logged.mk s []) = .done stmt (skip n ⟨s, []⟩)) :
    ∃ t, turn g room s = some (t, skip n s) ∧ t.taken = front n s ∧ t.verdict = .kept stmt := by
  refine ⟨⟨current s, (skip n (Logged.mk s [])).seen, .kept stmt⟩, ?_, taken_skip n s _, rfl⟩
  unfold turn
  rw [h]
  simp only [Logged.stream_skip]

/-- A dropped statement takes the token at which it failed. -/
theorem turn_of_failed {s : σ} {r : Rejection} {n : Nat}
    (h : statement g room (Logged.mk s []) = .failed r (skip n ⟨s, []⟩)) :
    ∃ t, turn g room s = some (t, skip (n + 1) s) ∧ t.taken = front (n + 1) s ∧
      t.verdict = .dropped r.diagnostics (current (skip n s)) := by
  have hskip : advance (skip n (Logged.mk s [])) = skip (n + 1) ⟨s, []⟩ := skip_skip n 1 _
  refine ⟨⟨current s, (skip (n + 1) (Logged.mk s [])).seen,
    .dropped r.diagnostics (current (skip n s))⟩, ?_, taken_skip (n + 1) s _, rfl⟩
  unfold turn
  rw [h]
  have hc : current (skip n (Logged.mk s [])) = current (skip n s) := by
    rw [← Logged.stream_skip n (Logged.mk s [])]
    rfl
  simp only [hskip, Logged.stream_skip, hc]

/-- A turn keeps the statement that was read, or it drops one and skips the token at which it failed. -/
theorem turn_cases {s rest : σ} {t : Turn} (h : turn g room s = some (t, rest)) :
    t.opening = current s ∧
      ((∃ n stmt, statement g room (Logged.mk s []) = .done stmt (skip n ⟨s, []⟩) ∧
          rest = skip n s ∧ t.taken = front n s ∧ t.verdict = .kept stmt) ∨
        ∃ n r, statement g room (Logged.mk s []) = .failed r (skip n ⟨s, []⟩) ∧
          rest = skip (n + 1) s ∧ t.taken = front (n + 1) s ∧
          t.verdict = .dropped r.diagnostics (current (skip n s))) := by
  have hopening : t.opening = current s := by
    unfold turn at h
    split at h <;> cases h <;> rfl
  refine ⟨hopening, ?_⟩
  have hm := moves_statement g room (Logged.mk s [])
  cases hs : statement g room (Logged.mk s []) with
  | endless =>
    unfold turn at h
    rw [hs] at h
    cases h
  | done stmt last =>
    rw [hs] at hm
    obtain ⟨n, rfl⟩ := hm
    obtain ⟨t', ht, htaken, hv⟩ := turn_of_done hs
    rw [h] at ht
    cases ht
    exact .inl ⟨n, stmt, rfl, rfl, htaken, hv⟩
  | failed r last =>
    rw [hs] at hm
    obtain ⟨n, rfl⟩ := hm
    obtain ⟨t', ht, htaken, hv⟩ := turn_of_failed hs
    rw [h] at ht
    cases ht
    exact .inr ⟨n, r, rfl, rfl, htaken, hv⟩

/-- A turn takes the tokens that it moves past, and sees those and the one that it comes to. -/
theorem exists_skip_of_turn {s rest : σ} {t : Turn} (h : turn g room s = some (t, rest)) :
    ∃ n, rest = skip n s ∧ t.taken = front n s ∧ current s :: t.seen = front (n + 1) s := by
  obtain ⟨n, rfl, hopening, hseen⟩ : ∃ n, rest = skip n s ∧ t.opening = current s ∧
      t.seen = (skip n (Logged.mk s [])).seen := by
    have hm := moves_statement g room (Logged.mk s [])
    unfold turn at h
    split at h
    · next stmt last hs =>
      rw [hs] at hm
      obtain ⟨n, rfl⟩ := hm
      cases h
      exact ⟨n, Logged.stream_skip n _, rfl, rfl⟩
    · next r last hs =>
      rw [hs] at hm
      obtain ⟨n, rfl⟩ := hm
      cases h
      have hskip : advance (skip n (Logged.mk s [])) = skip (n + 1) ⟨s, []⟩ := skip_skip n 1 _
      exact ⟨n + 1, by rw [hskip, Logged.stream_skip], rfl, by rw [hskip]⟩
    · cases h
  refine ⟨n, rfl, ?_, ?_⟩
  · rw [← taken_skip n s t.verdict, ← hopening, ← hseen]
  · rw [hseen, seen_skip]
    rfl

theorem statementsOf_cons (t : Turn) (ts : List Turn) :
    statementsOf (t :: ts) = t.statement?.toList ++ statementsOf ts := by
  rw [statementsOf, List.filterMap_cons]
  cases t.statement? <;> rfl

theorem diagnosticsOf_cons (t : Turn) (ts : List Turn) :
    diagnosticsOf (t :: ts) = t.diagnostics ++ diagnosticsOf ts := List.flatMap_cons

/-! ## Runs -/

/-- Turns taken one after the other, none of them at the end token. -/
inductive Run (g : Grammar) (room : Nat) : σ → List Turn → σ → Prop
  | stop (s : σ) : Run g room s [] s
  | turn {s mid rest : σ} {t : Turn} {ts : List Turn} (hs : (current s).kind ≠ .eof)
      (ht : turn g room s = some (t, mid)) (h : Run g room mid ts rest) : Run g room s (t :: ts) rest

theorem turns_of_turn {s rest : σ} {t : Turn} (hs : (current s).kind ≠ .eof)
    (ht : turn g room s = some (t, rest)) :
    turns g room s = (turns g room rest).map fun (ts, last) => (t :: ts, last) := by
  have hlt := length_turn_lt hs ht
  have hs' := length_tokens_le s
  have hr := length_tokens_le rest
  obtain ⟨n, hn⟩ : ∃ n, left s = n + 1 := ⟨left s - 1, by omega⟩
  unfold turns
  rw [hn, turnsUpTo, if_neg hs, ht]
  show Option.map _ (turnsUpTo g room n rest) = _
  rw [turnsUpTo_rounds g room n (left rest) rest (by omega) hr]

theorem Run.turns_eq {s rest : σ} {ts : List Turn} (h : Run g room s ts rest) :
    turns g room s = (turns g room rest).map fun (us, last) => (ts ++ us, last) := by
  induction h with
  | stop s => simp
  | turn hs ht _ ih =>
    rw [turns_of_turn hs ht, ih, Option.map_map]
    rfl

theorem run_of_turnsUpTo {n : Nat} {s rest : σ} {ts : List Turn}
    (h : turnsUpTo g room n s = some (ts, rest)) : Run g room s ts rest := by
  induction n generalizing s ts with
  | zero =>
    cases h
    exact .stop _
  | succ n ih =>
    unfold turnsUpTo at h
    split at h
    · cases h
      exact .stop _
    · next hs =>
      split at h
      · cases h
      · next t mid ht =>
        obtain ⟨⟨us, last⟩, hus, hts⟩ := Option.map_eq_some_iff.1 h
        cases hts
        exact .turn hs ht (ih hus)

theorem Run.exists_mid {s rest : σ} {ts us : List Turn} (h : Run g room s (ts ++ us) rest) :
    ∃ mid, Run g room s ts mid ∧ Run g room mid us rest := by
  induction ts generalizing s with
  | nil => exact ⟨s, .stop s, h⟩
  | cons t ts ih =>
    cases h with
    | turn hs ht h =>
      obtain ⟨mid, hts, hus⟩ := ih h
      exact ⟨mid, .turn hs ht hts, hus⟩

/-- A run moves past the tokens that its turns have taken. -/
theorem Run.exists_skip {s rest : σ} {ts : List Turn} (h : Run g room s ts rest) :
    ∃ n, rest = skip n s ∧ ts.flatMap Turn.taken = front n s := by
  induction h with
  | stop s => exact ⟨0, rfl, rfl⟩
  | @turn s mid rest t ts hs ht _ ih =>
    obtain ⟨n, rfl, hts⟩ := ih
    obtain ⟨m, rfl, htaken, -⟩ := exists_skip_of_turn ht
    exact ⟨m + n, skip_skip m n s, by rw [List.flatMap_cons, hts, htaken, front_add]⟩

/-! ## Lists of tokens -/

/-- The turns in which a list of tokens is read by the standard grammar. -/
def readAll (ts : List Token) : List Turn :=
  ((turns .standard nestingLimit ts).get (turns_isSome rfl _ _)).1

theorem readAll_eq_of_turns {ts : List Token} {us : List Turn} {last : List Token}
    (h : turns .standard nestingLimit ts = some (us, last)) : readAll ts = us := by
  simp [readAll, h]

theorem turnsOf_eq_readAll (source : String) : turnsOf source = readAll (scanAll source.toList) := by
  obtain ⟨last, h⟩ := exists_turns_scanAll_eq source
  exact (readAll_eq_of_turns h).symm

@[simp] theorem readAll_nil : readAll [] = [] := rfl

theorem readAll_of_run {ts rest : List Token} {us : List Turn}
    (h : Run .standard nestingLimit ts us rest) : readAll ts = us ++ readAll rest := by
  obtain ⟨⟨vs, last⟩, hv⟩ := Option.isSome_iff_exists.1
    (turns_isSome (g := .standard) rfl nestingLimit rest)
  have hts := h.turns_eq
  rw [hv] at hts
  rw [readAll_eq_of_turns hts, readAll_eq_of_turns hv]

/-- The turns of a source are a run on its tokens. -/
theorem exists_run_turnsOf (source : String) :
    ∃ last, Run .standard nestingLimit (scanAll source.toList) (turnsOf source) last := by
  obtain ⟨last, h⟩ := exists_turns_scanAll_eq source
  exact ⟨last, run_of_turnsUpTo h⟩

/-- Each turn of a source starts behind the tokens that the turns before it have taken. -/
theorem exists_turn_of_turnsOf {source : String} {before after : List Turn} {t : Turn}
    (h : turnsOf source = before ++ t :: after) :
    ∃ n rest last, before.flatMap Turn.taken = front n (scanAll source.toList) ∧
      (current (skip n (scanAll source.toList))).kind ≠ .eof ∧
        turn .standard nestingLimit (skip n (scanAll source.toList)) = some (t, rest) ∧
          Run .standard nestingLimit rest after last := by
  obtain ⟨last, hrun⟩ := exists_run_turnsOf source
  rw [h] at hrun
  obtain ⟨mid, hbefore, hmid⟩ := hrun.exists_mid
  obtain ⟨n, rfl, htaken⟩ := hbefore.exists_skip
  cases hmid with
  | turn hcurrent ht hafter => exact ⟨n, _, last, htaken, hcurrent, ht, hafter⟩

end LetLang
