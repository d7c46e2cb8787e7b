import LetLang.Proofs.Failures
import LetLang.Proofs.Overflow
import LetLang.Proofs.Segments

/-!
# The earliest token that cannot come next

The diagnostic of a statement that was dropped points at the token at which it could be known that no
statement would come of it: the tokens before are the opening of one, and with that token behind them they
are not.  A statement nested too deep is the exception, for the limit is no part of the grammar.

That the token cannot come next is seen from the sentence that would go on with it.  Reading looks no
further than that token, so it would fail on the sentence as it did; but a sentence is read, unless it is
nested too deep, and then it fails with the diagnostic that says so.

    no sentence goes on with the token that a statement fails at            (not_opens_of_failed)
    dropped statements are pinned to that token                             (dropped_pinpoints)
-/

namespace LetLang

open TokenStream Parse

variable {ε σ α : Type} [TokenStream σ]

/-! ## What cannot come next -/

theorem Spans.front_succ {s rest : σ} {ts : List Token} (h : Spans s ts rest) :
    front (ts.length + 1) s = ts ++ [current rest] := by
  rw [front_add, front_of_tokens h.tokens_eq, ← h.rest_eq]
  rfl

/-- A statement that needs more levels than there are fails for want of them. -/
theorem statement_overflows {n room : Nat} {ts : List Token} {stmt : Stmt} {s rest : σ}
    (h : DerivesStatement n ts stmt) (hn : room < n) (hs : Spans s ts rest) :
    ∃ r last, statement .standard room s = .failed r last ∧
      r.diagnostics.head? = some (.nestingTooDeep nestingLimit) := by
  cases h with
  | @letBinding word name sign ts e semi hword hname hsign h hsemi =>
    have h1 := hs.tail
    have h2 := h1.tail
    have hlet : (current s).kind = .letWord := by rw [hs.current_cons, hword]
    obtain ⟨mid, hts, hclose⟩ := h2.tail.exists_mid
    have hk : (current mid).kind = .semicolon := by rw [hclose.current_cons, hsemi]
    obtain ⟨last, hx⟩ := h.overflows room .lowest _ mid hn (by decide) hts
      (by rw [hk]; exact Nat.zero_le _)
    refine ⟨⟨[], .nestingTooDeep nestingLimit⟩, last, ?_, rfl⟩
    rw [statement_of_some room (rule_of_let hlet), restate_eq_failed_iff]
    refine ⟨_, ?_, rfl⟩
    show letStatement .standard room s = _
    unfold letStatement
    rw [bind_apply, expect_of_kind_eq hlet, Outcome.andThen_done, bind_apply,
      expect_of_kind_eq (by rw [h1.current_cons, hname]), Outcome.andThen_done, bind_apply,
      expect_of_kind_eq (by rw [h2.current_cons, hsign]), Outcome.andThen_done, bind_apply, hx]
    rfl
  | expression h hsemi =>
    obtain ⟨mid, hts, hclose⟩ := hs.exists_mid
    have hk : (current mid).kind = .semicolon := by rw [hclose.current_cons, hsemi]
    obtain ⟨last, hx⟩ := h.overflows room .lowest _ mid hn (by decide) hts
      (by rw [hk]; exact Nat.zero_le _)
    have hlet : (current s).kind ≠ .letWord := by
      obtain ⟨t, us, rfl, ht⟩ := h.head
      rwa [hts.current_cons]
    refine ⟨⟨[.nestingTooDeep nestingLimit], .invalidStatement (current last).kind⟩, last, ?_, rfl⟩
    rw [statement_of_none room (rule_of_ne_let hlet), restate_eq_failed_iff]
    refine ⟨_, ?_, rfl⟩
    unfold expressionStatement
    rw [bind_apply, hx]
    rfl

/-- A parse that closes fails alike wherever the tokens are the same up to the one that it fails at. -/
theorem Parse.Closes.failed {k : Kind} {f : Parse ε (Logged σ) α} {e : ε} {n : Nat} {s t : Logged σ}
    (hf : f.Closes k s) (h : f s = .failed e (skip n s)) (ht : front (n + 1) s = front (n + 1) t) :
    f t = .failed e (skip n t) := by
  rcases hf with hf | ⟨m, -, ⟨a, -, hf⟩ | ⟨e', hf⟩⟩
  · rw [h] at hf
    cases hf
  · have hs := hf s rfl
    rw [h] at hs
    cases hs
  · have hs := hf s rfl
    rw [h] at hs
    obtain ⟨rfl, hskip⟩ := Outcome.failed.inj hs
    obtain rfl := Logged.skip_injective hskip
    exact hf t ht

/-- Unless a statement is nested too deep, no sentence goes on as it does behind the tokens that could be
read. -/
theorem not_opens_of_failed {room : Nat} {s ts : List Token} {rest : Logged (List Token)}
    {r : Rejection} {d : Diagnostic}
    (h : statement .standard room (Logged.mk s []) = .failed r rest)
    (hs : Spans (Logged.mk s []) ts rest) (hd : r.diagnostics.head? = some d)
    (hdeep : d ≠ .nestingTooDeep nestingLimit) : ¬Opens Sentence (ts ++ [current rest]) := by
  rintro ⟨us, n, stmt, hsentence⟩
  let whole := Logged.mk (ts ++ [current rest] ++ us) []
  have hspan : Spans whole (ts ++ [current rest] ++ us) _ := .of_append (List.append_nil _).symm
  have hfront : front (ts.length + 1) (Logged.mk s []) = front (ts.length + 1) whole := by
    have htokens : tokens whole = ts ++ [current rest] ++ us := rfl
    have hwhole := front_of_tokens htokens
    rw [List.length_append] at hwhole
    rw [hs.front_succ]
    exact hwhole.symm
  -- reading sees no more of the sentence than that token, so it fails there too
  have hfail := (closes_statement rfl rfl room (Logged.mk s [])).failed (hs.rest_eq ▸ h) hfront
  -- but a sentence is read, unless its nesting overflows, and then another diagnostic comes first
  by_cases hn : n ≤ room
  · have hdone := statement_eq_done_iff.2 ⟨_, n, hspan, hn, hsentence⟩
    rw [hfail] at hdone
    cases hdone
  · obtain ⟨r', last, hover, hhead⟩ := statement_overflows hsentence (Nat.lt_of_not_le hn) hspan
    rw [hfail] at hover
    cases hover
    rw [hd] at hhead
    exact hdeep (Option.some.inj hhead)

/-! ## Dropped statements -/

/-- A turn that drops a statement: `ts` could be read, and `d` bears on the token `c` behind them. -/
theorem turn_dropped {room : Nat} {s rest : List Token} {t : Turn} {ds : List Diagnostic} {c : Token}
    (h : turn .standard room s = some (t, rest)) (hv : t.verdict = .dropped ds c) :
    ∃ ts d last, Rejected (Logged.mk s []) ts d last ds ∧ c = current last ∧ t.taken = ts ++ [c] ∧
      rest = skip (ts.length + 1) s ∧
      (d ≠ .nestingTooDeep nestingLimit → ¬Opens Sentence (ts ++ [c])) := by
  obtain ⟨-, ⟨n, stmt, -, -, -, hkept⟩ | ⟨n, r, hfail, hrest, htaken, hdropped⟩⟩ := turn_cases h
  · rw [hv] at hkept
    cases hkept
  · rw [hv] at hdropped
    cases hdropped
    obtain ⟨ts, d, hreject⟩ := rejected_of_statement hfail
    obtain ⟨ks, hstuck⟩ := hreject.stuck
    obtain rfl : n = ts.length := Logged.skip_injective hstuck.spans.rest_eq
    have hc : current (skip ts.length s) = current (skip ts.length (Logged.mk s [])) := by
      rw [← Logged.stream_skip ts.length (Logged.mk s [])]
      rfl
    refine ⟨ts, d, _, hreject, hc, ?_, hrest, ?_⟩
    · rw [htaken, ← front_logged _ s [], hstuck.spans.front_succ, hc]
    · rw [hc]
      exact not_opens_of_failed hfail hstuck.spans hreject.head?

/-- The diagnostic `d` points at the token `c` behind `ts` as the first that no statement goes on with. -/
def Pinpoints (ts : List Token) (c : Token) : Diagnostic → Prop
  | .unexpectedToken k found text =>
    found = c.kind ∧ text = c.text ∧ Opens Sentence ts ∧ ¬Opens Sentence (ts ++ [c]) ∧
      ∀ t : Token, t.kind = k → Opens Sentence (ts ++ [t])
  | .noOperand kind text =>
    kind = c.kind ∧ text = c.text ∧ Opens Sentence ts ∧ ¬Opens Sentence (ts ++ [c])
  | .nestingTooDeep _ => Opens Sentence ts
  | .invalidStatement _ => False

theorem Stuck.pinpoints {ks : List Kind} {s rest : σ} {ts : List Token} {d : Diagnostic}
    (h : Stuck Sentence ks s ts d rest)
    (hno : d ≠ .nestingTooDeep nestingLimit → ¬Opens Sentence (ts ++ [current rest])) :
    Pinpoints ts (current rest) d := by
  cases d with
  | unexpectedToken k found text =>
    exact ⟨h.blames.1, h.blames.2, h.opens, hno nofun, h.expected k found text rfl⟩
  | noOperand kind text => exact ⟨h.blames.1, h.blames.2, h.opens, hno nofun⟩
  | nestingTooDeep limit => exact h.opens
  | invalidStatement kind => exact h.lacks.elim

theorem front_isPrefix {n : Nat} {ts : List Token} (h : n ≤ ts.length + 1) :
    front n ts <+: ts ++ [Token.eof] := by
  by_cases hn : n ≤ ts.length
  · rw [front_list hn]
    exact (List.take_prefix n ts).trans (List.prefix_append ts _)
  · obtain rfl : n = ts.length + 1 := by omega
    rw [(spans_all ts).front_succ]
    exact List.prefix_rfl

/-- Of every statement that a source has dropped, the first diagnostic points at the token that was
skipped, and it does so as soon as that token shows that no statement comes of what was read.  A token of
the kind that is asked for instead could be the next token of a statement. -/
theorem dropped_pinpoints {source : String} {before after : List Turn} {t : Turn}
    {ds : List Diagnostic} {c : Token} (h : turnsOf source = before ++ t :: after)
    (hv : t.verdict = .dropped ds c) :
    (parse source).2.toList = diagnosticsOf before ++ ds ++ diagnosticsOf after ∧
      ∃ ts d, before.flatMap Turn.taken ++ ts ++ [c] <+: tokenize source ∧ t.taken = ts ++ [c] ∧
        ds.head? = some d ∧ Pinpoints ts c d := by
  have hds : t.diagnostics = ds := by simp [Turn.diagnostics, hv]
  refine ⟨?_, ?_⟩
  · rw [toList_parse_snd, h, diagnosticsOf_append, List.append_assoc, ← hds]
    rfl
  obtain ⟨k, rest, last, hseen, hmid, hturn, -⟩ := exists_turn_of_turnsOf h
  obtain ⟨ts, d, stop, hreject, rfl, htaken, -, hno⟩ := turn_dropped hturn hv
  obtain ⟨ks, hstuck⟩ := hreject.stuck
  refine ⟨ts, d, ?_, htaken, hreject.head?, hstuck.pinpoints hno⟩
  have hfront : before.flatMap Turn.taken ++ ts ++ [current stop] =
      front (k + (ts.length + 1)) (scanAll source.toList) := by
    rw [front_add, hseen, ← front_logged _ (skip k _) [], hstuck.spans.front_succ, List.append_assoc]
  -- the token that was skipped may be the end token, but no token before it is
  have hlength : k + ts.length ≤ (scanAll source.toList).length := by
    have hlist : tokens (scanAll source.toList) = scanAll source.toList := rfl
    have hpos := List.length_pos_iff.2 (tokens_ne_nil hmid)
    have htokens := congrArg List.length hstuck.spans.tokens_eq
    rw [Logged.tokens_mk, tokens_skip, hlist, List.length_append, List.length_drop] at htokens
    rw [tokens_skip, hlist, List.length_drop] at hpos
    omega
  rw [hfront]
  exact front_isPrefix (by omega)

/-- In `(2 3;` the group lacks its closing parenthesis, and `3` cannot come next. -/
theorem dropped_pinpoints_unclosed_group :
    let three : Token := ⟨.integer, "3"⟩
    let reports := [.unexpectedToken .closeParen .integer "3", .invalidStatement .integer]
    let first : Turn := ⟨⟨.integer, "1"⟩, [⟨.semicolon, ";"⟩, ⟨.openParen, "("⟩],
      .kept (.expression (.integer "1"))⟩
    let second : Turn := ⟨⟨.openParen, "("⟩, [⟨.integer, "2"⟩, three, ⟨.semicolon, ";"⟩],
      .dropped reports three⟩
    let third : Turn := ⟨⟨.semicolon, ";"⟩, [.eof],
      .dropped [.noOperand .semicolon ";", .invalidStatement .semicolon] ⟨.semicolon, ";"⟩⟩
    turnsOf "1; (2 3;" = [first] ++ second :: [third] ∧ second.verdict = .dropped reports three ∧
      Pinpoints [⟨.openParen, "("⟩, ⟨.integer, "2"⟩] three
        (.unexpectedToken .closeParen .integer "3") := by
  intro three reports first second third
  have hturns : turnsOf "1; (2 3;" = [first] ++ second :: [third] := by decide +kernel
  have hv : second.verdict = .dropped reports three := rfl
  obtain ⟨-, ts, d, -, htaken, hhead, hpinpoints⟩ := dropped_pinpoints hturns hv
  have hts : [⟨.openParen, "("⟩, ⟨.integer, "2"⟩] ++ [three] = ts ++ [three] := htaken
  rw [← List.append_cancel_right hts, ← Option.some.inj hhead] at hpinpoints
  exact ⟨hturns, hv, hpinpoints⟩

end LetLang
