import LetLang.Proofs.Commands
import LetLang.Proofs.Lookahead

/-!
# One token ahead

A parser keeps two tokens at hand and has scanned past both, but what it reads is decided by the tokens that
it moves past and by the one that it stops at.  Two parsers that have so many tokens in common read the same,
whatever comes after.  A statement that is kept is decided by its own tokens, for it ends in a semicolon.

    a parse that settles is decided where it stops, or before                    (Parser.run_decided)
    parsers with the tokens of a reading in common give the same answer, move past
    the same tokens and report the same diagnostics                              (perform_decided)
-/

namespace LetLang

open TokenStream

variable {ε σ α : Type} [TokenStream σ]

/-- The commands that read an expression or a statement. -/
inductive Command.Reads : Command → Prop
  | expression (bound : Power) : Reads (.parseExpression bound)
  | letStatement : Reads .parseLetStatement
  | expressionStatement : Reads .parseExpressionStatement
  | statement : Reads .parseStatement

/-! ## What has been moved past -/

/-- The tokens between two places tell how far apart they are, unless the end has been moved past. -/
theorem length_of_tokens_skip {s : σ} {n : Nat} {ts : List Token} (hn : n ≤ (tokens s).length)
    (h : tokens s = ts ++ tokens (skip n s)) : ts.length = n := by
  have hlength := congrArg List.length h
  rw [tokens_skip, List.length_append, List.length_drop] at hlength
  omega

/-- A stream that shows some token has not come to its end. -/
theorem lt_length_of_kind_ne {s : σ} {n : Nat} (h : (current (skip n s)).kind ≠ .eof) :
    n < (tokens s).length := by
  have hne := tokens_ne_nil h
  rw [tokens_skip] at hne
  have hlt := List.length_pos_iff.2 hne
  rw [List.length_drop] at hlt
  omega

theorem front_eq_of_tokens {s t : σ} {ts rest rest' : List Token} (hs : tokens s = ts ++ rest)
    (ht : tokens t = ts ++ rest') : front ts.length s = front ts.length t := by
  rw [front_of_tokens hs, front_of_tokens ht]

/-! ## Running a parse -/

namespace Parser

/-- The parse comes to `r` past `n` tokens, on whatever parser has the first `seen` tokens of `p`. -/
def DecidesRun (p : Parser σ) (f : Parse ε (Logged σ) α) (seen n : Nat) (r : Except ε α) : Prop :=
  ∀ p' : Parser σ, front seen p.stream = front seen p'.stream → p'.run f = some (r, p'.advanceBy n)

/-- A parse that settles is decided by the tokens up to the one where it does.  In success it may move past
that one too. -/
theorem run_decided {p q : Parser σ} {f : Parse ε (Logged σ) α} {k : Kind} {last : Nat}
    {r : Except ε α} (hf : f.Settles k last ⟨p.stream, []⟩) (h : p.run f = some (r, q)) :
    ∃ n, (∃ a, r = .ok a ∧ (0 < last → (current (skip n p.stream)).kind = k) ∧
        p.DecidesRun f (n + 1) (n + last) r) ∨
      ∃ e, r = .error e ∧ p.DecidesRun f (n + 1) n r := by
  have hfront : ∀ {n : Nat} {p' : Parser σ}, front (n + 1) p.stream = front (n + 1) p'.stream →
      front (n + 1) (Logged.mk p.stream []) = front (n + 1) (Logged.mk p'.stream []) := by
    intro n p' hp'
    rwa [front_logged, front_logged]
  rcases hf with hf | ⟨n, -, ⟨a, hk, hf⟩ | ⟨e, hf⟩⟩
  · rw [run, hf] at h
    cases h
  · have hdecides : p.DecidesRun f (n + 1) (n + last) (.ok a) := by
      intro p' hp'
      rw [run, hf _ (hfront hp'), ← resume_skip]
    have hr := hdecides p rfl
    rw [h] at hr
    cases hr
    refine ⟨n, .inl ⟨a, rfl, fun hlast => ?_, hdecides⟩⟩
    have hkind := hk hlast
    rwa [Logged.skip_mk] at hkind
  · have hdecides : p.DecidesRun f (n + 1) n (.error e) := by
      intro p' hp'
      rw [run, hf _ (hfront hp'), ← resume_skip]
    have hr := hdecides p rfl
    rw [h] at hr
    cases hr
    exact ⟨n, .inr ⟨e, rfl, hdecides⟩⟩

/-- A parse that closes at a token is decided before what comes after it, if it succeeds. -/
theorem run_closed {p q : Parser σ} {f : Parse ε (Logged σ) α} {k : Kind} {r : Except ε α}
    (hf : f.Closes k ⟨p.stream, []⟩) (hk : k ≠ .eof) (h : p.run f = some (r, q)) :
    ∃ seen n, p.DecidesRun f seen n r ∧ seen ≤ n + 1 ∧
      ∀ a, r = .ok a → seen ≤ n ∧ n ≤ (tokens p.stream).length := by
  obtain ⟨n, ⟨a, -, hkind, hdecides⟩ | ⟨e, rfl, hdecides⟩⟩ := run_decided hf h
  · have hlt : n < (tokens p.stream).length := by
      apply lt_length_of_kind_ne
      rw [hkind Nat.one_pos]
      exact hk
    exact ⟨n + 1, n + 1, hdecides, by omega, fun _ _ => ⟨Nat.le_refl _, hlt⟩⟩
  · exact ⟨n + 1, n, hdecides, Nat.le_refl _, fun a ha => nomatch ha⟩

/-! ## Reading -/

/-- The command is answered past `n` tokens and with the diagnostics `ds` reported, by whatever parser has
the tables and the depth of `p` and the first `seen` of its tokens. -/
def Decides (p : Parser σ) (command : Command) (seen n : Nat) (answer : Answer)
    (ds : List Diagnostic) : Prop :=
  ∀ p' : Parser σ, p'.grammar = p.grammar → p'.depth = p.depth →
    front seen p.stream = front seen p'.stream →
      p'.perform command = some (answer, (p'.advanceBy n).reportAll ds)

omit [TokenStream σ] in
theorem room_eq_of_depth_eq {p p' : Parser σ} (h : p'.depth = p.depth) : p'.room = p.room := by
  rw [room, room, h]

/-- A command that runs a parse is decided when the parse is. -/
theorem DecidesRun.decides {p : Parser σ} {command : Command} {f : Grammar → Nat → Parse ε (Logged σ) α}
    {answer : Except ε α → Answer} {seen n : Nat} {r : Except ε α}
    (h : p.DecidesRun (f p.grammar p.room) seen n r)
    (hcommand : ∀ p' : Parser σ, p'.perform command =
      (p'.run (f p'.grammar p'.room)).map (Prod.map answer id)) :
    p.Decides command seen n (answer r) [] := by
  intro p' hg hdepth hp'
  rw [hcommand, hg, room_eq_of_depth_eq hdepth, h p' hp']
  rfl

/-- The answer to the command is decided one token ahead at the most, and by the tokens moved past where it is
a statement that is kept. -/
def DecidedAhead (p : Parser σ) (command : Command) (answer : Answer) : Prop :=
  ∃ seen n ds, p.Decides command seen n answer ds ∧ seen ≤ n + 1 ∧
    ∀ stmt, answer = .statement (.ok stmt) → seen ≤ n ∧ n ≤ (tokens p.stream).length

/-- A command that runs a parse of a statement which closes at a token is decided ahead. -/
theorem decidedAhead_of_closes {p q : Parser σ} {command : Command} {answer : Answer} {k : Kind}
    {f : Grammar → Nat → Parse Diagnostic (Logged σ) Stmt}
    (hcommand : ∀ p' : Parser σ, p'.perform command =
      (p'.run (f p'.grammar p'.room)).map (Prod.map Answer.statement id))
    (hf : (f p.grammar p.room).Closes k ⟨p.stream, []⟩) (hk : k ≠ .eof)
    (h : p.perform command = some (answer, q)) : p.DecidedAhead command answer := by
  rw [hcommand] at h
  obtain ⟨⟨r, q'⟩, hrun, heq⟩ := Option.map_eq_some_iff.1 h
  cases heq
  obtain ⟨seen, n, hn, hle, hok⟩ := run_closed hf hk hrun
  exact ⟨seen, n, [], hn.decides hcommand, hle,
    fun stmt hstmt => hok stmt (Answer.statement.inj hstmt)⟩

theorem decidedAhead_statement {p q : Parser σ} {r : Except Diagnostic Stmt}
    (hk : p.grammar.operand .semicolon = none) (ho : p.grammar.operator .semicolon = none)
    (h : p.parseStatement = some (r, q)) : p.DecidedAhead .parseStatement (.statement r) := by
  have hcloses := closes_statement hk ho p.room (Logged.mk p.stream [])
  unfold parseStatement at h
  split at h
  · cases h
  · next stmt last hrun =>
    cases h
    obtain ⟨seen, n, hn, hle, hok⟩ := run_closed hcloses (by decide) hrun
    refine ⟨seen, n, [], fun p' hg hdepth hp' => ?_, hle, fun _ _ => hok stmt rfl⟩
    rw [perform, parseStatement, hg, room_eq_of_depth_eq hdepth, hn p' hp']
    rfl
  · next rejection last hrun =>
    cases h
    obtain ⟨seen, n, hn, hle, -⟩ := run_closed hcloses (by decide) hrun
    -- what is noted on the way belongs to the rejection, and so it is decided with it
    refine ⟨seen, n, rejection.noted, fun p' hg hdepth hp' => ?_, hle, fun stmt hstmt => ?_⟩
    · rw [perform, parseStatement, hg, room_eq_of_depth_eq hdepth, hn p' hp']
      rfl
    · cases hstmt

/-- Whatever is read is decided ahead. -/
theorem decidedAhead {p q : Parser σ} {command : Command} {answer : Answer}
    (hg : p.grammar = .standard) (hcommand : command.Reads)
    (h : p.perform command = some (answer, q)) : p.DecidedAhead command answer := by
  have hk : p.grammar.operand .semicolon = none := by rw [hg]; rfl
  have ho : p.grammar.operator .semicolon = none := by rw [hg]; rfl
  cases hcommand with
  | expression bound =>
    obtain ⟨⟨r, q'⟩, hrun, heq⟩ := Option.map_eq_some_iff.1 h
    cases heq
    obtain ⟨n, hn⟩ : ∃ n, p.DecidesRun (expression p.grammar p.room bound) (n + 1) n r := by
      obtain ⟨n, ⟨a, -, -, hn⟩ | ⟨e, -, hn⟩⟩ := run_decided
        (looks_expression (by decide) hk ho p.room bound (Logged.mk p.stream [])) hrun
      · exact ⟨n, hn⟩
      · exact ⟨n, hn⟩
    exact ⟨n + 1, n, [], hn.decides (f := fun g room => expression g room bound) fun _ => rfl,
      Nat.le_refl _, fun _ hstmt => nomatch hstmt⟩
  | letStatement =>
    exact decidedAhead_of_closes (f := letStatement) (fun _ => rfl) (closes_letStatement hk ho p.room _)
      (by decide) h
  | expressionStatement =>
    exact decidedAhead_of_closes (f := expressionStatement) (fun _ => rfl)
      (closes_expressionStatement hk ho p.room _) (by decide) h
  | statement =>
    obtain ⟨⟨r, q'⟩, hstatement, heq⟩ := Option.map_eq_some_iff.1 h
    cases heq
    exact decidedAhead_statement hk ho hstatement

/-- From `p` to `q` the tokens `ts` have been moved past and the diagnostics `ds` reported, and nothing else
has been done. -/
structure ReadPast (p : Parser σ) (ts : List Token) (ds : List Diagnostic) (q : Parser σ) : Prop where
  tokens_eq : tokens p.stream = ts ++ tokens q.stream
  parser_eq : q = (p.advanceBy ts.length).reportAll ds

theorem tokens_advanceBy (p : Parser σ) (ts rest : List Token) (ds : List Diagnostic)
    (h : tokens p.stream = ts ++ rest) :
    tokens ((p.advanceBy ts.length).reportAll ds).stream = rest := by
  rw [stream_reportAll, stream_advanceBy, tokens_skip, h, List.drop_left]

/-- Parsers that have in common what is read and one token behind it read alike.  The token behind may be
missing where a statement is kept. -/
theorem reads_alike {p q : Parser σ} {command : Command} {answer : Answer} {ts rest : List Token}
    (ahead : List Token) (hg : p.grammar = .standard) (hcommand : command.Reads)
    (h : p.perform command = some (answer, q)) (hp : tokens p.stream = ts ++ (ahead ++ rest))
    (hq : tokens q.stream = ahead ++ rest)
    (hahead : ahead ≠ [] ∨ ∃ stmt, answer = .statement (.ok stmt)) :
    ∃ ds, p.ReadPast ts ds q ∧ ∀ (p' : Parser σ) (rest' : List Token), p'.grammar = .standard →
      p'.depth = p.depth → tokens p'.stream = ts ++ (ahead ++ rest') →
        ∃ q', p'.perform command = some (answer, q') ∧ p'.ReadPast ts ds q' := by
  obtain ⟨seen, n, ds, hdecides, hseen, hkept⟩ := decidedAhead hg hcommand h
  have hself := hdecides p rfl rfl rfl
  rw [h] at hself
  obtain rfl : q = (p.advanceBy n).reportAll ds := (Prod.mk.inj (Option.some.inj hself)).2
  rw [stream_reportAll, stream_advanceBy] at hq
  have hle : n ≤ (tokens p.stream).length := by
    rcases hahead with hne | ⟨stmt, hstmt⟩
    · have hpos := List.length_pos_iff.2 hne
      have hlength := congrArg List.length hq
      rw [tokens_skip, List.length_drop, List.length_append] at hlength
      omega
    · exact (hkept stmt hstmt).2
  obtain rfl : ts.length = n := length_of_tokens_skip hle (by rw [hq]; exact hp)
  have hcommon : seen ≤ (ts ++ ahead).length := by
    rw [List.length_append]
    rcases hahead with hne | ⟨stmt, hstmt⟩
    · have hpos := List.length_pos_iff.2 hne
      omega
    · have hle := (hkept stmt hstmt).1
      omega
  refine ⟨ds, ⟨by rw [tokens_advanceBy p ts _ ds hp, hp], rfl⟩, fun p' rest' hg' hdepth hp' => ?_⟩
  refine ⟨(p'.advanceBy ts.length).reportAll ds, hdecides p' (hg'.trans hg.symm) hdepth ?_,
    by rw [tokens_advanceBy p' ts _ ds hp', hp'], rfl⟩
  obtain ⟨k, hk⟩ := Nat.exists_eq_add_of_le hcommon
  have hfront := front_eq_of_tokens (hp.trans (List.append_assoc ts ahead rest).symm)
    (hp'.trans (List.append_assoc ts ahead rest').symm)
  rw [hk] at hfront
  exact front_left hfront

end Parser

/-- One token of lookahead decides.  Whatever token a reading stops at, every parser with the same tokens up
to it gives the same answer, moves past the same tokens and reports the same diagnostics, whatever it has to
read after that.  Where a statement is kept, so does every parser that starts with the tokens of it, though
nothing come after them. -/
theorem perform_decided {p q : Parser σ} {command : Command} {answer : Answer}
    (hg : p.grammar = .standard) (hcommand : command.Reads)
    (h : p.perform command = some (answer, q)) :
    (∀ (ts : List Token) (c : Token) (rest : List Token), tokens p.stream = ts ++ c :: rest →
      tokens q.stream = c :: rest →
        ∃ ds, p.ReadPast ts ds q ∧ ∀ (p' : Parser σ) (rest' : List Token), p'.grammar = .standard →
          p'.depth = p.depth → tokens p'.stream = ts ++ c :: rest' →
            ∃ q', p'.perform command = some (answer, q') ∧ p'.ReadPast ts ds q') ∧
    (∀ (ts rest : List Token) (stmt : Stmt), answer = .statement (.ok stmt) →
      tokens p.stream = ts ++ rest → tokens q.stream = rest →
        ∃ ds, p.ReadPast ts ds q ∧ ∀ (p' : Parser σ) (rest' : List Token), p'.grammar = .standard →
          p'.depth = p.depth → tokens p'.stream = ts ++ rest' →
            ∃ q', p'.perform command = some (answer, q') ∧ p'.ReadPast ts ds q') := by
  constructor
  · intro ts c rest hp hq
    exact Parser.reads_alike [c] hg hcommand h hp hq (.inl (List.cons_ne_nil c []))
  · intro ts rest stmt hstmt hp hq
    exact Parser.reads_alike [] hg hcommand h hp hq (.inr ⟨stmt, hstmt⟩)

/-- In `(a b);` reading stops at `b`, and there it stops in `(a b = 1` as well.  The statement `x;` is kept
whether `y` follows or nothing. -/
theorem perform_decided_in_group :
    let start := [⟨.openParen, "("⟩, ⟨.identifier, "a"⟩]
    let p := Parser.ofString "(a b);" .empty
    let p' := Parser.ofString "(a b = 1" (.ofList [.invalidStatement .plus])
    let answer := Answer.statement (.error (.invalidStatement .identifier))
    let kept := [⟨.identifier, "x"⟩, ⟨.semicolon, ";"⟩]
    let r := Parser.ofString "x; y" .empty
    let r' := Parser.ofString "x;" .empty
    let stmt := Stmt.expression (.identifier "x")
    p.grammar = .standard ∧ Command.parseStatement.Reads ∧
      (∃ q ds q', p.perform .parseStatement = some (answer, q) ∧ p.ReadPast start ds q ∧
        p'.perform .parseStatement = some (answer, q') ∧ p'.ReadPast start ds q') ∧
      ∃ q ds q', r.perform .parseStatement = some (.statement (.ok stmt), q) ∧ r.ReadPast kept ds q ∧
        r'.perform .parseStatement = some (.statement (.ok stmt), q') ∧ r'.ReadPast kept ds q' := by
  intro start p p' answer kept r r' stmt
  have hp : (p.perform .parseStatement).map (Prod.map id fun q => tokens q.stream) =
      some (answer, [⟨.identifier, "b"⟩, ⟨.closeParen, ")"⟩, ⟨.semicolon, ";"⟩]) := by
    decide +kernel
  have hr : (r.perform .parseStatement).map (Prod.map id fun q => tokens q.stream) =
      some (.statement (.ok stmt), [⟨.identifier, "y"⟩]) := by
    decide +kernel
  obtain ⟨⟨answer', q⟩, hq, heq⟩ := Option.map_eq_some_iff.1 hp
  obtain ⟨rfl, hrest⟩ := Prod.mk.inj heq
  obtain ⟨⟨answer', q₂⟩, hq₂, heq₂⟩ := Option.map_eq_some_iff.1 hr
  obtain ⟨rfl, hrest₂⟩ := Prod.mk.inj heq₂
  obtain ⟨ds, hpast, halike⟩ :=
    (perform_decided rfl .statement hq).1 start _ _ (by decide +kernel) hrest
  obtain ⟨ds₂, hpast₂, halike₂⟩ :=
    (perform_decided rfl .statement hq₂).2 kept _ stmt rfl (by decide +kernel) hrest₂
  obtain ⟨q', hq', hpast'⟩ := halike p' [⟨.assignment, "="⟩, ⟨.integer, "1"⟩] rfl rfl (by decide +kernel)
  obtain ⟨q₂', hq₂', hpast₂'⟩ := halike₂ r' [] rfl rfl (by decide +kernel)
  exact ⟨rfl, .statement, ⟨q, ds, q', hq, hpast, hq', hpast'⟩, q₂, ds₂, q₂', hq₂, hpast₂, hq₂', hpast₂'⟩

end LetLang
