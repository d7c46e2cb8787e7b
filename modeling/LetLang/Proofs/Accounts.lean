import LetLang.Proofs.Blocks

/-!
# What becomes of every token

The events of a source account for all that is in it.  Every token is moved past once and told of once; a
statement that is dropped costs the token at which it failed, and only at the end of the source can that be
the end token.  Every semicolon closes a statement that was kept, or it is what a dropped one was dropped
at.

    t.taken ++ rest = s ++ t.overrun            for a turn t from s to rest                    (turn_taken)
    current s :: seen = taken ++ [current rest] for turns from s to rest              (Run.seen_eq)
    what the events of a source account for                                                (trace_accounts)
-/

namespace LetLang

open TokenStream

variable {σ : Type} [TokenStream σ] {g : Grammar} {room : Nat}

/-! ## What events tell -/

namespace Event

/-- The token that was moved on to. -/
def token? : Event → Option Token
  | token t => some t
  | _ => none

/-- The token that a statement was dropped at. -/
def skipped? : Event → Option Token
  | dropped skipped => some skipped
  | _ => none

end Event

/-- The tokens that were moved on to. -/
def tokensTold (es : List Event) : List Token := es.filterMap Event.token?

/-- The tokens that statements were dropped at. -/
def dropsTold (es : List Event) : List Token := es.filterMap Event.skipped?

theorem Turn.tokensTold_events (t : Turn) : tokensTold t.events = t.seen := by
  have hseen : (t.seen.map Event.token).filterMap Event.token? = t.seen := by
    rw [List.filterMap_map]
    exact List.filterMap_some
  rw [tokensTold, Turn.events, List.filterMap_append, hseen]
  cases t.skipped? <;> simp [Event.token?]

theorem Turn.dropsTold_events (t : Turn) : dropsTold t.events = t.skipped?.toList := by
  have hseen : (t.seen.map Event.token).filterMap Event.skipped? = [] := by
    simp [List.filterMap_map, Event.skipped?]
  rw [dropsTold, Turn.events, List.filterMap_append, hseen]
  cases t.skipped? <;> rfl

theorem tokensTold_eventsOf (ts : List Turn) : tokensTold (eventsOf ts) = ts.flatMap Turn.seen := by
  rw [tokensTold, eventsOf, List.filterMap_flatMap]
  exact congrArg (ts.flatMap ·) (funext Turn.tokensTold_events)

theorem dropsTold_eventsOf (ts : List Turn) :
    dropsTold (eventsOf ts) = ts.filterMap Turn.skipped? := by
  rw [dropsTold, eventsOf, List.filterMap_flatMap, List.filterMap_eq_flatMap_toList]
  exact congrArg (ts.flatMap ·) (funext Turn.dropsTold_events)

/-! ## Tokens seen and tokens taken -/

theorem Turn.seen_eq {s rest : σ} {t : Turn} (h : turn g room s = some (t, rest)) :
    current s :: t.seen = t.taken ++ [current rest] := by
  obtain ⟨n, rfl, htaken, hseen⟩ := exists_skip_of_turn h
  rw [htaken, hseen, front_add]
  rfl

theorem Run.seen_eq {s rest : σ} {ts : List Turn} (h : Run g room s ts rest) :
    current s :: ts.flatMap Turn.seen = ts.flatMap Turn.taken ++ [current rest] := by
  induction h with
  | stop s => rfl
  | @turn s mid rest t ts _ ht _ ih =>
    calc current s :: (t :: ts).flatMap Turn.seen
        = (current s :: t.seen) ++ ts.flatMap Turn.seen := by rw [List.flatMap_cons, List.cons_append]
      _ = t.taken ++ current mid :: ts.flatMap Turn.seen := by
          rw [Turn.seen_eq ht, List.append_assoc, List.singleton_append]
      _ = (t :: ts).flatMap Turn.taken ++ [current rest] := by
          rw [ih, List.flatMap_cons, List.append_assoc]

/-- The end token, if the turn has skipped it. -/
def Turn.overrun (t : Turn) : List Token :=
  if t.skipped?.any (·.kind = .eof) then [Token.eof] else []

/-- A turn takes the tokens up to where it leaves its stream, and the end token besides if that was what
it skipped. -/
theorem turn_taken {s rest : List Token} {t : Turn} (hs : ∀ u ∈ s, u.kind ≠ .eof)
    (h : turn .standard room s = some (t, rest)) : t.taken ++ rest = s ++ t.overrun := by
  cases hv : t.verdict with
  | kept stmt =>
    have hoverrun : t.overrun = [] := by simp [Turn.overrun, Turn.skipped?, hv]
    obtain ⟨-, ⟨n, stmt', hdone, rfl, htaken, -⟩ | ⟨n, r, -, -, -, hdropped⟩⟩ := turn_cases h
    · obtain ⟨ts, m, hspan, -, -⟩ := statement_eq_done_iff.1 hdone
      obtain rfl : n = ts.length := Logged.skip_injective hspan.rest_eq
      have htokens : s = ts ++ tokens (skip ts.length (Logged.mk s [])) := hspan.tokens_eq
      have hts : front ts.length s = ts := front_of_tokens htokens
      rw [htaken, hts, hoverrun, List.append_nil, skip_list]
      nth_rewrite 2 [htokens]
      nth_rewrite 1 [htokens]
      rw [List.drop_left]
    · rw [hv] at hdropped
      cases hdropped
  | dropped ds c =>
    obtain ⟨ts, d, last, hreject, rfl, htaken, rfl, -⟩ := turn_dropped h hv
    obtain ⟨ks, hstuck⟩ := hreject.stuck
    have htokens : s = ts ++ tokens last := hstuck.spans.tokens_eq
    have hskipped : t.skipped? = some (current last) := by simp [Turn.skipped?, hv]
    have hrest : skip (ts.length + 1) s = (tokens last).tail := by
      rw [skip_list, htokens, ← List.drop_drop, List.drop_left, List.drop_one]
    rw [htaken, hrest, Turn.overrun, hskipped, List.append_assoc]
    cases hlast : tokens last with
    | nil =>
      rw [current_of_tokens_nil hlast, htokens, hlast]
      simp
    | cons u us =>
      have hu : u.kind ≠ .eof := hs u (by rw [htokens, hlast]; simp)
      rw [current_of_tokens_cons hlast, htokens, hlast]
      simp [hu]

theorem kind_ne_eof_of_skip {s : List Token} (hs : ∀ u ∈ s, u.kind ≠ .eof) (n : Nat) :
    ∀ u ∈ skip n s, u.kind ≠ .eof := by
  intro u hu
  rw [skip_list] at hu
  exact hs u (List.mem_of_mem_drop hu)

theorem kind_ne_eof_of_turn {s rest : List Token} {t : Turn} (hs : ∀ u ∈ s, u.kind ≠ .eof)
    (h : turn g room s = some (t, rest)) : ∀ u ∈ rest, u.kind ≠ .eof := by
  obtain ⟨n, rfl, -, -⟩ := exists_skip_of_turn h
  exact kind_ne_eof_of_skip hs n

theorem Run.taken_eq {s rest : List Token} {ts : List Turn} (hs : ∀ u ∈ s, u.kind ≠ .eof)
    (h : Run .standard room s ts rest) :
    ts.flatMap Turn.taken ++ rest = s ++ ts.flatMap Turn.overrun := by
  induction h with
  | stop s => simp
  | @turn s mid rest t ts _ ht _ ih =>
    calc (t :: ts).flatMap Turn.taken ++ rest
        = t.taken ++ (ts.flatMap Turn.taken ++ rest) := by rw [List.flatMap_cons, List.append_assoc]
      _ = (t.taken ++ mid) ++ ts.flatMap Turn.overrun := by
          rw [ih (kind_ne_eof_of_turn hs ht), List.append_assoc]
      _ = s ++ (t :: ts).flatMap Turn.overrun := by
          rw [turn_taken hs ht, List.flatMap_cons, List.append_assoc]

/-- The end token is skipped by the last turn that skips any, or not at all. -/
theorem Run.overrun_eq {s rest : List Token} {ts : List Turn} (hs : ∀ u ∈ s, u.kind ≠ .eof)
    (h : Run .standard room s ts rest) :
    ts.flatMap Turn.overrun =
      if (ts.filterMap Turn.skipped?).getLast?.any (·.kind = .eof) then [Token.eof] else [] := by
  induction h with
  | stop s => rfl
  | @turn s mid rest t ts _ ht hrun ih =>
    have ih := ih (kind_ne_eof_of_turn hs ht)
    rw [List.flatMap_cons, ih]
    cases hskip : t.skipped? with
    | none => simp [Turn.overrun, hskip]
    | some c =>
      rw [List.filterMap_cons_some hskip]
      by_cases hc : c.kind = .eof
      · obtain rfl := eq_nil_of_skipped_eof hs ht hskip hc hrun
        simp [Turn.overrun, hskip, hc]
      · cases ts.filterMap Turn.skipped? <;> simp [Turn.overrun, hskip, hc]

/-! ## Semicolons -/

/-- The token closes a statement. -/
def Token.isSemicolon (t : Token) : Bool := t.kind = .semicolon

theorem countP_isSemicolon_eq_zero {ts : List Token} (h : ∀ t ∈ ts, t.kind ≠ .semicolon) :
    ts.countP Token.isSemicolon = 0 := by
  rw [List.countP_eq_zero]
  intro t ht
  simpa [Token.isSemicolon] using h t ht

theorem kind_ne_semicolon_of_failed {n : Nat} {s : Logged σ} {r : Rejection}
    (h : statement .standard room s = .failed r (skip n s)) :
    ∀ t ∈ front n s, t.kind ≠ .semicolon := by
  have hcloses : (statement .standard room).Closes .semicolon s := closes_statement rfl rfl room s
  rcases hcloses with hs | ⟨m, hm, ⟨stmt, -, hs⟩ | ⟨r', hs⟩⟩
  · rw [h] at hs
    cases hs
  · have hdone := hs s rfl
    rw [h] at hdone
    cases hdone
  · have hfailed := hs s rfl
    rw [h] at hfailed
    obtain rfl : n = m := Logged.skip_injective (Outcome.failed.inj hfailed).2
    exact hm

/-- A turn takes one semicolon for the statement that it keeps, or the one that it skips, and no other. -/
theorem turn_semicolons {s rest : σ} {t : Turn} (h : turn .standard room s = some (t, rest)) :
    t.taken.countP Token.isSemicolon =
      t.statement?.toList.length + t.skipped?.toList.countP Token.isSemicolon := by
  obtain ⟨-, ⟨n, stmt, hdone, -, htaken, hv⟩ | ⟨n, r, hfailed, -, htaken, hv⟩⟩ := turn_cases h
  · obtain ⟨ts, m, hspan, -, hd⟩ := statement_eq_done_iff.1 hdone
    obtain rfl : n = ts.length := Logged.skip_injective hspan.rest_eq
    obtain ⟨us, semi, rfl, hsemi, hus⟩ := hd.exists_semicolon
    have hstatement : t.statement? = some stmt := by simp [Turn.statement?, hv]
    have hskipped : t.skipped? = none := by simp [Turn.skipped?, hv]
    rw [htaken, ← front_logged _ s [], front_of_tokens hspan.tokens_eq, List.countP_append,
      countP_isSemicolon_eq_zero hus, hstatement, hskipped]
    simp [Token.isSemicolon, hsemi]
  · have hstatement : t.statement? = none := by simp [Turn.statement?, hv]
    have hskipped : t.skipped? = some (current (skip n s)) := by simp [Turn.skipped?, hv]
    have hnone := kind_ne_semicolon_of_failed hfailed
    rw [front_logged] at hnone
    rw [htaken, front_add, List.countP_append, countP_isSemicolon_eq_zero hnone, hstatement, hskipped]
    rfl

theorem Run.semicolons {s rest : σ} {ts : List Turn} (h : Run .standard room s ts rest) :
    (ts.flatMap Turn.taken).countP Token.isSemicolon =
      (statementsOf ts).length + (ts.filterMap Turn.skipped?).countP Token.isSemicolon := by
  induction h with
  | stop s => rfl
  | @turn s mid rest t ts _ ht _ ih =>
    have hskips : ((t :: ts).filterMap Turn.skipped?).countP Token.isSemicolon =
        t.skipped?.toList.countP Token.isSemicolon +
          (ts.filterMap Turn.skipped?).countP Token.isSemicolon := by
      rw [List.filterMap_cons]
      cases t.skipped? <;> simp [List.countP_cons, Nat.add_comm]
    rw [List.flatMap_cons, List.countP_append, turn_semicolons ht, ih, statementsOf_cons,
      List.length_append, hskips]
    omega

/-! ## Reports -/

/-- The turn has dropped a binding. -/
def Turn.dropsLet (t : Turn) : Bool := t.isDropped && t.opening.kind = .letWord

/-- The turn has dropped a statement that is no binding. -/
def Turn.dropsOther (t : Turn) : Bool := t.isDropped && t.opening.kind ≠ .letWord

theorem Turn.length_diagnostics {t : Turn} (h : t.isDropped → t.Reported) :
    t.diagnostics.length = t.dropsLet.toNat + 2 * t.dropsOther.toNat := by
  by_cases hdropped : t.isDropped
  · obtain ⟨ts, c, d, -, -, -, ⟨hlet, -, hds⟩ | ⟨hlet, -, hds⟩⟩ := h hdropped
    · simp [hds, dropsLet, dropsOther, hdropped, hlet]
    · simp [hds, dropsLet, dropsOther, hdropped, hlet]
  · have hds : t.diagnostics = [] := by
      cases hv : t.verdict with
      | kept stmt => simp [diagnostics, hv]
      | dropped ds c => simp [isDropped, skipped?, hv] at hdropped
    simp [hds, dropsLet, dropsOther, hdropped]

theorem length_diagnosticsOf {ts : List Turn} (h : ∀ t ∈ ts, t.isDropped → t.Reported) :
    (diagnosticsOf ts).length = ts.countP Turn.dropsLet + 2 * ts.countP Turn.dropsOther := by
  induction ts with
  | nil => rfl
  | cons t ts ih =>
    rw [List.forall_mem_cons] at h
    rw [diagnosticsOf_cons, List.length_append, Turn.length_diagnostics h.1, ih h.2, List.countP_cons,
      List.countP_cons]
    cases t.dropsLet <;> cases t.dropsOther <;> simp <;> omega

theorem Run.reported {s rest : List Token} {ts : List Turn} (h : Run .standard room s ts rest) :
    ∀ t ∈ ts, t.isDropped → t.Reported := by
  induction h with
  | stop s => simp
  | turn _ ht _ ih => exact List.forall_mem_cons.2 ⟨reported_of_turn ht, ih⟩

/-! ## Whole sources -/

theorem run_to_end (source : String) :
    Run .standard nestingLimit (scanAll source.toList) (turnsOf source) [] := by
  obtain ⟨last, h⟩ := exists_turns_scanAll_eq source
  have hrun := run_of_turnsUpTo h
  have hlast : last = [] := by
    by_contra hne
    obtain ⟨n, rfl, -⟩ := hrun.exists_skip
    have heof := kind_ne_eof_of_skip (kind_ne_eof_of_mem_scanAll source.toList) n
    have hcurrent := kind_current_ne_eof hne heof []
    rw [List.append_nil] at hcurrent
    exact hcurrent (current_of_turns h)
  rw [hlast] at hrun
  exact hrun

/-- A dropped statement was attempted behind the tokens that the turns before it have taken.  It failed at
the token that was skipped, and the first of its diagnostics is about that token. -/
theorem exists_attempt {source : String} {before after : List Turn} {t : Turn} {c : Token}
    (h : turnsOf source = before ++ t :: after) (hc : t.skipped? = some c) :
    ∃ r last d, statement .standard nestingLimit
        (Logged.mk (skip (before.flatMap Turn.taken).length (Window.ofString source)) []) =
          .failed r last ∧
      current last = c ∧ t.diagnostics = r.diagnostics ∧ r.diagnostics.head? = some d ∧ d.Blames c := by
  obtain ⟨last, hturns⟩ := exists_turns_eq source
  rw [h] at hturns
  obtain ⟨mid, hbefore, hmid⟩ := (run_of_turnsUpTo hturns).exists_mid
  obtain ⟨n, rfl, htaken⟩ := hbefore.exists_skip
  rw [htaken, length_front]
  cases hmid with
  | turn _ ht _ =>
    obtain ⟨-, ⟨m, stmt, -, -, -, hv⟩ | ⟨m, r, hfailed, -, -, hv⟩⟩ := turn_cases ht
    · simp [Turn.skipped?, hv] at hc
    · obtain ⟨ts, d, hreject⟩ := rejected_of_statement hfailed
      obtain ⟨ks, hstuck⟩ := hreject.stuck
      have hcurrent : current (skip m (Logged.mk (skip n (Window.ofString source)) [])) = c := by
        have hskipped : current (skip m (skip n (Window.ofString source))) = c := by
          simpa [Turn.skipped?, hv] using hc
        rw [← hskipped, ← Logged.stream_skip m (Logged.mk (skip n (Window.ofString source)) [])]
        rfl
      exact ⟨r, _, d, hfailed, hcurrent, by simp [Turn.diagnostics, hv], hreject.head?,
        hcurrent ▸ hstuck.blames⟩

/-- The end token once more, if the last of the statements that were dropped was dropped there. -/
def endAgain (es : List Event) : List Token :=
  if (dropsTold es).getLast?.any (·.kind = .eof) then [Token.eof] else []

theorem trace_eq (source : String) : trace source = eventsOf (turnsOf source) ++
    [.finished (parse source).1.size (parse source).2.size] := by
  have hsize : (parse source).2.size = (diagnosticsOf (turnsOf source)).length := by
    rw [← Diagnostics.length_toList, toList_parse_snd]
  rw [trace, hsize]
  rfl

theorem tokensTold_trace (source : String) :
    tokensTold (trace source) = (turnsOf source).flatMap Turn.seen := by
  rw [trace_eq, tokensTold, List.filterMap_append, ← tokensTold, tokensTold_eventsOf]
  exact List.append_nil _

theorem dropsTold_trace (source : String) :
    dropsTold (trace source) = (turnsOf source).filterMap Turn.skipped? := by
  rw [trace_eq, dropsTold, List.filterMap_append, ← dropsTold, dropsTold_eventsOf]
  exact List.append_nil _

theorem flatMap_taken (source : String) :
    (turnsOf source).flatMap Turn.taken = (tokenize source).dropLast ++ endAgain (trace source) := by
  have heof := kind_ne_eof_of_mem_scanAll source.toList
  have htaken := (run_to_end source).taken_eq heof
  rw [(run_to_end source).overrun_eq heof, ← dropsTold_trace, List.append_nil] at htaken
  rw [htaken, tokenize, List.dropLast_concat]
  rfl

theorem endAgain_comm (es : List Event) : endAgain es ++ [Token.eof] = [Token.eof] ++ endAgain es := by
  unfold endAgain
  split <;> rfl

theorem flatMap_seen (source : String) :
    (turnsOf source).flatMap Turn.seen = (tokenize source).tail ++ endAgain (trace source) := by
  have hseen : current (scanAll source.toList) :: (turnsOf source).flatMap Turn.seen =
      tokenize source ++ endAgain (trace source) := by
    rw [(run_to_end source).seen_eq, flatMap_taken, List.append_assoc]
    show _ ++ (endAgain (trace source) ++ [Token.eof]) = _
    rw [endAgain_comm, tokenize, List.dropLast_concat, List.append_assoc]
  have htail := congrArg List.tail hseen
  rwa [List.tail_cons, List.tail_append_of_ne_nil (by simp [tokenize])] at htail

theorem eq_nil_of_dropped_eof {source : String} {before after : List Token} {c : Token}
    (h : (turnsOf source).filterMap Turn.skipped? = before ++ c :: after) (hc : c.kind = .eof) :
    after = [] := by
  obtain ⟨ts, us, hsplit, -, hus⟩ := List.filterMap_eq_append_iff.1 h
  obtain ⟨vs, t, ws, rfl, -, hskipped, rfl⟩ := List.filterMap_eq_cons_iff.1 hus
  rw [← List.append_assoc] at hsplit
  obtain ⟨n, rest, last, -, -, hturn, hrun⟩ := exists_turn_of_turnsOf hsplit
  have heof := kind_ne_eof_of_skip (kind_ne_eof_of_mem_scanAll source.toList) n
  rw [eq_nil_of_skipped_eof heof hturn hskipped hc hrun]
  rfl

theorem countP_semicolons (source : String) : (tokenize source).countP Token.isSemicolon =
    (parse source).1.size + (dropsTold (trace source)).countP Token.isSemicolon := by
  have htokens : (tokenize source).countP Token.isSemicolon =
      ((turnsOf source).flatMap Turn.taken).countP Token.isSemicolon := by
    have hagain : (endAgain (trace source)).countP Token.isSemicolon = 0 := by
      unfold endAgain
      split <;> rfl
    rw [flatMap_taken, List.countP_append, hagain, tokenize, List.dropLast_concat, List.countP_append]
    rfl
  rw [htokens, (run_to_end source).semicolons, dropsTold_trace]
  rfl

theorem size_reports (source : String) : (parse source).2.size =
    (turnsOf source).countP Turn.dropsLet + 2 * (turnsOf source).countP Turn.dropsOther := by
  rw [← Diagnostics.length_toList, toList_parse_snd,
    length_diagnosticsOf (run_to_end source).reported]

theorem finished_notMem_eventsOf (ts : List Turn) (m n : Nat) : .finished m n ∉ eventsOf ts := by
  intro h
  obtain ⟨t, -, ht⟩ := List.mem_flatMap.1 h
  simp [Turn.events] at ht

/-- What the events of a source account for. -/
structure Accounts (source : String) (es : List Event) : Prop where
  /-- Each token but the first is told of as it is moved on to. -/
  tokens : tokensTold es = (tokenize source).tail ++ endAgain es
  /-- Each token is taken once. -/
  taken : (turnsOf source).flatMap Turn.taken = (tokenize source).dropLast ++ endAgain es
  /-- Each turn that drops a statement tells of the token that it skips. -/
  drops : dropsTold es = (turnsOf source).filterMap Turn.skipped?
  /-- That is the token at which the attempt failed, and which its first diagnostic is about. -/
  attempts : ∀ before t after c, turnsOf source = before ++ t :: after → t.skipped? = some c →
    ∃ r last d, statement .standard nestingLimit
        (Logged.mk (skip (before.flatMap Turn.taken).length (Window.ofString source)) []) =
          .failed r last ∧
      current last = c ∧ t.diagnostics = r.diagnostics ∧ r.diagnostics.head? = some d ∧ d.Blames c
  /-- The end token is skipped once at most, and then nothing is dropped any more. -/
  last : ∀ before c after, dropsTold es = before ++ c :: after → c.kind = .eof → after = []
  /-- Each semicolon closes a statement that is kept, or it is skipped. -/
  semicolons : (tokenize source).countP Token.isSemicolon =
    (parse source).1.size + (dropsTold es).countP Token.isSemicolon
  /-- The closing event, and only that, sums up the statements kept and the diagnostics. -/
  summary : ∃ told, es = told ++ [.finished (parse source).1.size (parse source).2.size] ∧
    ∀ m n, .finished m n ∉ told
  /-- A binding that is dropped gives one diagnostic, and any other statement two. -/
  reports : (parse source).2.size =
    (turnsOf source).countP Turn.dropsLet + 2 * (turnsOf source).countP Turn.dropsOther

/-- Whoever parses a source tells of the events of its trace, and these account for every token and for
every statement that was dropped. -/
theorem trace_accounts (source : String) :
    (∃ q, (Parser.ofString source .empty).parse = some ((parse source).1, q) ∧
      q.events.toList = trace source) ∧ Accounts source (trace source) := by
  constructor
  · obtain ⟨last, hturns⟩ := exists_turns_eq source
    obtain ⟨q, hq, -, -, -, hdiagnostics, -, hevents⟩ :=
      Parser.parse_eq_of_turns (p := Parser.ofString source .empty) hturns
    have hsize : q.diagnostics.size = (parse source).2.size := by
      rw [← Diagnostics.length_toList, ← Diagnostics.length_toList, hdiagnostics, toList_parse_snd]
      rfl
    refine ⟨q, hq, ?_⟩
    rw [hevents, hsize, trace_eq]
    rfl
  · constructor
    case tokens => rw [tokensTold_trace, flatMap_seen]
    case taken => exact flatMap_taken source
    case drops => exact dropsTold_trace source
    case attempts =>
      intro before t after c h hc
      exact exists_attempt h hc
    case last =>
      intro before c after h hc
      rw [dropsTold_trace] at h
      exact eq_nil_of_dropped_eof h hc
    case semicolons => exact countP_semicolons source
    case summary => exact ⟨_, trace_eq source, finished_notMem_eventsOf (turnsOf source)⟩
    case reports => exact size_reports source

end LetLang
