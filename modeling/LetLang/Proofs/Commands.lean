import Mathlib.Data.List.GetD
import LetLang.Proofs.Lexemes
import LetLang.Proofs.Movement
import LetLang.Proofs.Runs

/-!
# Commands to a parser

A parser can be driven by hand, command after command.  Whatever the commands are, it has moved on by as
many tokens as it has told of.  Two parsers that agree but for their streams, and whose streams are alike,
answer alike and go on to agree.  So a parser on a window, which scans its text bit by bit, is at every
moment where a parser on the whole list of tokens is.

    p.perform command = some (answer, q) → p.Onward q                   (Parser.onward_perform)
    Agrees R p q → the answers of p and q are the same                  (Parser.Agrees.perform)
    the window shows the tokens from the one it has come to             (commands_follow_tokens)
-/

namespace LetLang

open TokenStream

/-! ## Commands -/

/-- What a parser can be told to do. -/
inductive Command where
  | advance
  | expect (kind : Kind)
  | report (d : Diagnostic)
  | enterNesting
  | exitNesting
  | withStatement (kind : Kind) (rule : StatementRule)
  | withOperand (kind : Kind) (rule : OperandRule)
  | withOperator (kind : Kind) (power : Power)
  | parseOperand (rule : OperandRule)
  | parseOperation (left : Expr) (power : Power)
  | parseExpression (bound : Power)
  | parseLetStatement
  | parseExpressionStatement
  | parseStatement
  | parse

/-- What a parser gives back. -/
inductive Answer where
  | nothing
  | token (r : Except Diagnostic Token)
  | entered (refusal : Option Diagnostic)
  | expression (r : Except Diagnostic Expr)
  | statement (r : Except Diagnostic Stmt)
  | program (p : Program)
  deriving DecidableEq

namespace Parser

variable {ε σ τ α : Type} [TokenStream σ] [TokenStream τ]

/-- Does what it is told; `none` if that never ends, or if there is no nesting to exit. -/
def perform (p : Parser σ) : Command → Option (Answer × Parser σ)
  | .advance => some (.token (.ok p.advance.1), p.advance.2)
  | .expect kind => some (.token (p.expect kind).1, (p.expect kind).2)
  | .report d => some (.nothing, p.report d)
  | .enterNesting =>
    match p.enterNesting with
    | .ok q => some (.entered none, q)
    | .error d => some (.entered (some d), p)
  | .exitNesting => if p.depth = 0 then none else some (.nothing, p.exitNesting)
  | .withStatement kind rule => some (.nothing, p.withStatement kind rule)
  | .withOperand kind rule => some (.nothing, p.withOperand kind rule)
  | .withOperator kind power => some (.nothing, p.withOperator kind power)
  | .parseOperand rule => (p.parseOperand rule).map (Prod.map .expression id)
  | .parseOperation left power => (p.parseOperation left power).map (Prod.map .expression id)
  | .parseExpression bound => (p.parseExpression bound).map (Prod.map .expression id)
  | .parseLetStatement => p.parseLetStatement.map (Prod.map .statement id)
  | .parseExpressionStatement => p.parseExpressionStatement.map (Prod.map .statement id)
  | .parseStatement => p.parseStatement.map (Prod.map .statement id)
  | .parse => p.parse.map (Prod.map .program id)

/-- Does one thing after the other. -/
def performAll (p : Parser σ) : List Command → Option (List Answer × Parser σ)
  | [] => some ([], p)
  | command :: commands =>
    match p.perform command with
    | none => none
    | some (answer, q) => (q.performAll commands).map (Prod.map (answer :: ·) id)

end Parser

/-! ## Moving on -/

/-- The event of a token that was moved on to. -/
def Event.isToken : Event → Bool
  | token _ => true
  | _ => false

theorem Turn.countP_events (t : Turn) : t.events.countP Event.isToken = t.taken.length := by
  have hseen : (t.seen.map Event.token).countP Event.isToken = t.seen.length := by
    rw [List.countP_map]
    simp [Event.isToken, Function.comp_def]
  have hskipped : (t.skipped?.map Event.dropped).toList.countP Event.isToken = 0 := by
    cases t.skipped? <;> rfl
  rw [Turn.events, List.countP_append, hseen, hskipped, Turn.taken, List.length_dropLast]
  rfl

theorem countP_eventsOf (ts : List Turn) :
    (eventsOf ts).countP Event.isToken = (ts.flatMap Turn.taken).length := by
  induction ts with
  | nil => rfl
  | cons t ts ih =>
    rw [List.flatMap_cons, List.length_append, ← ih, ← Turn.countP_events, eventsOf, List.flatMap_cons,
      List.countP_append]
    rfl

namespace Parser

variable {ε σ τ α : Type} [TokenStream σ] [TokenStream τ]

/-- How often the parser has moved on. -/
def advances (p : Parser σ) : Nat := p.events.toList.countP Event.isToken

/-- The parser `q` has moved on from `p`, and told of each token that it came to. -/
def Onward (p q : Parser σ) : Prop :=
  ∃ n, q.stream = skip n p.stream ∧ q.advances = p.advances + n

variable {p q r : Parser σ}

theorem Onward.of_eq (hs : q.stream = p.stream) (he : q.events = p.events) : p.Onward q :=
  ⟨0, hs, by rw [advances, he]; rfl⟩

theorem Onward.trans (h : p.Onward q) (h' : q.Onward r) : p.Onward r := by
  obtain ⟨m, hs, hm⟩ := h
  obtain ⟨n, hs', hn⟩ := h'
  exact ⟨m + n, by rw [hs', hs, skip_skip], by rw [hn, hm, Nat.add_assoc]⟩

theorem onward_resume (p : Parser σ) (n : Nat) : p.Onward (p.resume (skip n ⟨p.stream, []⟩)) := by
  refine ⟨n, Logged.stream_skip n _, ?_⟩
  have hlog : (skip n (Logged.mk p.stream [])).log.length = n := Logged.length_log_skip n _ []
  rw [advances, resume, toList_events_tell, List.countP_append, List.countP_map]
  rw [advances, Logged.seen]
  congr 1
  simp [hlog, Event.isToken, Function.comp_def]

theorem onward_run {f : Parse ε (Logged σ) α} (hf : f.Moves) {a : Except ε α}
    (h : p.run f = some (a, q)) : p.Onward q := by
  obtain ⟨n, rfl⟩ := eq_advanceBy_of_run (m := 0) (hf ⟨p.stream, []⟩) h
  rw [Nat.zero_add, ← resume_skip]
  exact onward_resume p n

theorem onward_parseStatement {a : Except Diagnostic Stmt} (h : p.parseStatement = some (a, q)) :
    p.Onward q := by
  unfold parseStatement at h
  split at h
  · cases h
  · next stmt q hrun =>
    cases h
    exact onward_run (moves_statement _ _) hrun
  · next rejection q hrun =>
    cases h
    exact (onward_run (moves_statement _ _) hrun).trans (.of_eq (by simp) (by simp))

theorem onward_parse {program : Program} (h : p.parse = some (program, q)) : p.Onward q := by
  cases hturns : turns p.grammar p.room p.stream with
  | none =>
    rw [parse, hturns] at h
    cases h
  | some r =>
    obtain ⟨ts, last⟩ := r
    obtain ⟨q', hparse, hstream, -, -, -, -, hevents⟩ := parse_eq_of_turns hturns
    rw [h] at hparse
    cases hparse
    obtain ⟨n, hlast, htaken⟩ := (run_of_turnsUpTo hturns).exists_skip
    refine ⟨n, hstream.trans hlast, ?_⟩
    rw [advances, hevents, List.countP_append, List.countP_append, countP_eventsOf, htaken, length_front]
    rfl

theorem onward_perform {command : Command} {answer : Answer}
    (h : p.perform command = some (answer, q)) : p.Onward q := by
  -- naming the kind of an answer leaves the parser as it is
  have hmap : ∀ {α : Type} {f : α → Answer} {o : Option (α × Parser σ)},
      (∀ a q', o = some (a, q') → p.Onward q') → o.map (Prod.map f id) = some (answer, q) →
        p.Onward q := by
    intro α f o ho hq
    obtain ⟨⟨a, q'⟩, hsome, heq⟩ := Option.map_eq_some_iff.1 hq
    cases heq
    exact ho a q' hsome
  cases command with
  | advance =>
    cases h
    exact onward_run Parse.moves_next (run_next (ε := Diagnostic) p)
  | expect kind =>
    cases h
    exact onward_run (Parse.moves_expect kind) (run_expect p kind)
  | report d =>
    cases h
    exact .of_eq rfl rfl
  | enterNesting =>
    unfold perform at h
    dsimp only at h
    split at h
    · next q' hq =>
      cases h
      obtain ⟨-, rfl⟩ := (enterNesting_eq_ok_iff p q).1 hq
      exact .of_eq rfl rfl
    · cases h
      exact .of_eq rfl rfl
  | exitNesting =>
    unfold perform at h
    dsimp only at h
    split at h
    · cases h
    · cases h
      exact .of_eq rfl rfl
  | withStatement kind rule =>
    cases h
    exact .of_eq rfl rfl
  | withOperand kind rule =>
    cases h
    exact .of_eq rfl rfl
  | withOperator kind power =>
    cases h
    exact .of_eq rfl rfl
  | parseOperand rule => exact hmap (fun _ _ => onward_run (moves_read (moves_expression _ _) rule)) h
  | parseOperation left power =>
    exact hmap (fun _ _ => onward_run (moves_operation (moves_expression _ _) power left)) h
  | parseExpression bound => exact hmap (fun _ _ => onward_run (moves_expression _ _ bound)) h
  | parseLetStatement => exact hmap (fun _ _ => onward_run (moves_letStatement _ _)) h
  | parseExpressionStatement => exact hmap (fun _ _ => onward_run (moves_expressionStatement _ _)) h
  | parseStatement => exact hmap (fun _ _ => onward_parseStatement) h
  | parse => exact hmap (fun _ _ => onward_parse) h

theorem onward_performAll {commands : List Command} {answers : List Answer}
    (h : p.performAll commands = some (answers, q)) : p.Onward q := by
  induction commands generalizing p answers with
  | nil =>
    cases h
    exact .of_eq rfl rfl
  | cons command commands ih =>
    unfold performAll at h
    split at h
    · cases h
    · next answer mid hmid =>
      obtain ⟨⟨rest, last⟩, hrest, heq⟩ := Option.map_eq_some_iff.1 h
      cases heq
      exact (onward_perform hmid).trans (ih hrest)

end Parser

/-! ## Parsers that agree -/

theorem SameAnswer.map {σ τ α β : Type} {R : σ → τ → Prop} {o : Option (α × σ)}
    {o' : Option (α × τ)} (h : SameAnswer R o o') (f : α → β) :
    SameAnswer R (o.map (Prod.map f id)) (o'.map (Prod.map f id)) := by
  cases h with
  | none => exact .none
  | some a h => exact .some (f a) h

namespace Parser

variable {ε σ τ α : Type}

/-- Two parsers that differ in nothing but their streams, and these are related. -/
structure Agrees (R : σ → τ → Prop) (p : Parser σ) (q : Parser τ) : Prop where
  stream : R p.stream q.stream
  grammar : p.grammar = q.grammar
  depth : p.depth = q.depth
  diagnostics : p.diagnostics = q.diagnostics
  lines : p.lines = q.lines
  events : p.events = q.events

namespace Agrees

variable {R : σ → τ → Prop} {p : Parser σ} {q : Parser τ}

theorem room_eq (h : Agrees R p q) : p.room = q.room := by rw [room, room, h.depth]

theorem moveTo (h : Agrees R p q) {s : σ} {t : τ} (hst : R s t) :
    Agrees R { p with stream := s } { q with stream := t } :=
  ⟨hst, h.grammar, h.depth, h.diagnostics, h.lines, h.events⟩

theorem tell (h : Agrees R p q) (es : List Event) : Agrees R (p.tell es) (q.tell es) :=
  ⟨h.stream, h.grammar, h.depth, h.diagnostics, h.lines,
    congrArg (fun told : Array Event => told ++ es) h.events⟩

theorem reportAll (h : Agrees R p q) (ds : List Diagnostic) :
    Agrees R (p.reportAll ds) (q.reportAll ds) := by
  rw [reportAll_eq, reportAll_eq]
  exact ⟨h.stream, h.grammar, h.depth, congrArg (·.addAll ds) h.diagnostics,
    congrArg (fun lines : Array String => lines ++ ds.map Diagnostic.report) h.lines, h.events⟩

theorem resume (h : Agrees R p q) {s : Logged σ} {t : Logged τ} (hst : Logged.Lift R s t) :
    Agrees R (p.resume s) (q.resume t) := by
  have hseen : s.seen = t.seen := congrArg List.reverse hst.2
  rw [Parser.resume, Parser.resume, hseen]
  exact (h.moveTo hst.1).tell _

theorem run (h : Agrees R p q) {f : Parse ε (Logged σ) α} {f' : Parse ε (Logged τ) α}
    (hf : Parse.Respects (Logged.Lift R) f f') : SameAnswer (Agrees R) (p.run f) (q.run f') := by
  have hrel := hf ⟨p.stream, []⟩ ⟨q.stream, []⟩ ⟨h.stream, rfl⟩
  unfold Parser.run
  generalize f ⟨p.stream, []⟩ = o at hrel ⊢
  generalize f' ⟨q.stream, []⟩ = o' at hrel ⊢
  cases hrel with
  | done a hst => exact .some _ (h.resume hst)
  | failed e hst => exact .some _ (h.resume hst)
  | endless => exact .none

variable [TokenStream σ] [TokenStream τ] (hR : Alike R)

include hR

theorem parseStatement (h : Agrees R p q) :
    SameAnswer (Agrees R) p.parseStatement q.parseStatement := by
  have hrel : SameAnswer (Agrees R) (p.run (LetLang.statement p.grammar p.room))
      (q.run (LetLang.statement q.grammar q.room)) := by
    rw [← h.grammar, ← h.room_eq]
    exact h.run (respects_statement hR.logged _ _)
  unfold Parser.parseStatement
  generalize p.run (LetLang.statement p.grammar p.room) = o at hrel ⊢
  generalize q.run (LetLang.statement q.grammar q.room) = o' at hrel ⊢
  cases hrel with
  | none => exact .none
  | some a hpq =>
    cases a with
    | ok stmt => exact .some _ hpq
    | error rejection => exact .some _ (hpq.reportAll _)

theorem parse (h : Agrees R p q) : SameAnswer (Agrees R) p.parse q.parse := by
  have hrel : SameAnswer R (turns p.grammar p.room p.stream) (turns q.grammar q.room q.stream) := by
    rw [← h.grammar, ← h.room_eq]
    exact turns_related hR _ _ h.stream
  unfold Parser.parse
  generalize turns p.grammar p.room p.stream = o at hrel ⊢
  generalize turns q.grammar q.room q.stream = o' at hrel ⊢
  cases hrel with
  | none => exact .none
  | some ts hlast =>
    have hq := ((h.moveTo hlast).reportAll (diagnosticsOf ts)).tell (eventsOf ts)
    -- the closing event counts the diagnostics on record, which are the same on both sides
    dsimp only
    rw [← hq.diagnostics]
    exact .some _ (hq.tell _)

/-- Parsers that agree answer alike, and still agree. -/
theorem perform (h : Agrees R p q) (command : Command) :
    SameAnswer (Agrees R) (p.perform command) (q.perform command) := by
  have hlogged := hR.logged
  have hnested := fun bound => respects_expression p.grammar p.room bound hlogged
  cases command with
  | advance => exact (h.run (ε := Diagnostic) (Parse.respects_next hlogged)).map Answer.token
  | expect kind =>
    have hrel := h.run (Parse.respects_expect hlogged kind)
    rw [run_expect, run_expect] at hrel
    exact hrel.map Answer.token
  | report d => exact .some _ (h.reportAll [d])
  | enterNesting =>
    unfold Parser.perform Parser.enterNesting
    rw [← h.depth]
    by_cases hd : p.depth < nestingLimit
    · simp only [hd, if_true]
      exact .some _ ⟨h.stream, h.grammar, rfl, h.diagnostics, h.lines, h.events⟩
    · simp only [hd, if_false]
      exact .some _ h
  | exitNesting =>
    unfold Parser.perform
    dsimp only
    rw [← h.depth]
    split
    · exact .none
    · exact .some _ ⟨h.stream, h.grammar, congrArg (· - 1) h.depth, h.diagnostics, h.lines, h.events⟩
  | withStatement kind rule =>
    exact .some _ ⟨h.stream, congrArg (·.withStatement kind rule) h.grammar, h.depth, h.diagnostics,
      h.lines, h.events⟩
  | withOperand kind rule =>
    exact .some _ ⟨h.stream, congrArg (·.withOperand kind rule) h.grammar, h.depth, h.diagnostics,
      h.lines, h.events⟩
  | withOperator kind power =>
    exact .some _ ⟨h.stream, congrArg (·.withOperator kind power) h.grammar, h.depth, h.diagnostics,
      h.lines, h.events⟩
  | parseOperand rule =>
    refine SameAnswer.map ?_ _
    rw [Parser.parseOperand, Parser.parseOperand, ← h.grammar, ← h.room_eq]
    exact h.run (respects_read hlogged hnested rule)
  | parseOperation left power =>
    refine SameAnswer.map ?_ _
    rw [Parser.parseOperation, Parser.parseOperation, ← h.grammar, ← h.room_eq]
    exact h.run (respects_operation hlogged hnested power left)
  | parseExpression bound =>
    refine SameAnswer.map ?_ _
    rw [Parser.parseExpression, Parser.parseExpression, ← h.grammar, ← h.room_eq]
    exact h.run (hnested bound)
  | parseLetStatement =>
    refine SameAnswer.map ?_ _
    rw [Parser.parseLetStatement, Parser.parseLetStatement, ← h.grammar, ← h.room_eq]
    exact h.run (respects_letStatement hlogged _ _)
  | parseExpressionStatement =>
    refine SameAnswer.map ?_ _
    rw [Parser.parseExpressionStatement, Parser.parseExpressionStatement, ← h.grammar, ← h.room_eq]
    exact h.run (respects_expressionStatement hlogged _ _)
  | parseStatement => exact (h.parseStatement hR).map Answer.statement
  | parse => exact (h.parse hR).map Answer.program

theorem performAll (h : Agrees R p q) (commands : List Command) :
    SameAnswer (Agrees R) (p.performAll commands) (q.performAll commands) := by
  induction commands generalizing p q with
  | nil => exact .some _ h
  | cons command commands ih =>
    have hrel := h.perform hR command
    unfold Parser.performAll
    generalize p.perform command = o at hrel ⊢
    generalize q.perform command = o' at hrel ⊢
    cases hrel with
    | none => exact .none
    | some answer hmid => exact (ih hmid).map (answer :: ·)

end Agrees

end Parser

/-! ## Windows -/

/-- The token that scanning on and on comes to after so many others. -/
def upcoming : Nat → List Char → Token
  | 0, cs => (scan cs).1
  | i + 1, cs => upcoming i (scan cs).2

/-- The tokens that the window shows, and behind them those that it has still to scan. -/
def Window.shown (w : Window) : Nat → Token
  | 0 => w.current
  | 1 => w.next
  | i + 2 => upcoming i w.rest

/-- The window shows the tokens from number `n` on, and then the end token for ever. -/
def Window.ShowsFrom (w : Window) (ts : List Token) (n : Nat) : Prop :=
  ∀ i, w.shown i = ts.getD (n + i) Token.eof

theorem upcoming_eq (i : Nat) (cs : List Char) : upcoming i cs = (scanAll cs).getD i Token.eof := by
  induction i generalizing cs with
  | zero =>
    by_cases h : (scan cs).1.kind = .eof
    · rw [upcoming, scanAll_of_eof h, scan_eq_of_kind_eof h]
      rfl
    · rw [upcoming, scanAll_of_ne_eof h]
      rfl
  | succ i ih =>
    rw [upcoming, ih]
    by_cases h : (scan cs).1.kind = .eof
    · rw [scanAll_of_eof h, scan_eq_of_kind_eof h, scanAll_nil]
      rfl
    · rw [scanAll_of_ne_eof h]
      rfl

namespace Window

theorem shown_ofChars (cs : List Char) (i : Nat) : (ofChars cs).shown i = upcoming i cs := by
  match i with
  | 0 => rfl
  | 1 => rfl
  | i + 2 => rfl

theorem shown_step (w : Window) (i : Nat) : w.step.shown i = w.shown (i + 1) := by
  match i with
  | 0 => rfl
  | 1 => rfl
  | i + 2 => rfl

theorem shown_skip (n : Nat) (w : Window) (i : Nat) : (skip n w).shown i = w.shown (n + i) := by
  induction n generalizing w with
  | zero => rw [Nat.zero_add]; rfl
  | succ n ih =>
    show (skip n w.step).shown i = _
    rw [ih, shown_step, Nat.add_right_comm]

end Window

theorem getD_tokenize (text : String) (i : Nat) :
    (tokenize text).getD i Token.eof = (scanAll text.toList).getD i Token.eof := by
  rw [tokenize]
  by_cases h : i < (scanAll text.toList).length
  · rw [List.getD_append _ _ _ _ h]
  · have hle := Nat.le_of_not_lt h
    rw [List.getD_append_right _ _ _ _ hle, List.getD_eq_default _ _ hle]
    cases i - (scanAll text.toList).length <;> rfl

/-- A parser of the standard grammar on a list of tokens. -/
def Parser.ofTokens (ts : List Token) (diagnostics : Diagnostics) : Parser (List Token) :=
  { stream := ts, diagnostics }

/-- The parser on a text is where the one on the list of its tokens is, and the two agree in all else.  The
end token, which closes the list `ts`, is not in the stream: a stream shows it by itself. -/
def Parser.InStep (ts : List Token) (p : Parser Window) (q : Parser (List Token)) : Prop :=
  p.Agrees (fun w rest => w.ShowsFrom ts p.advances ∧ rest = ts.dropLast.drop p.advances) q

theorem parse_of_tokenize {s t : String} (h : tokenize s = tokenize t) : parse s = parse t := by
  have htokens : scanAll s.toList = scanAll t.toList := List.append_cancel_right h
  rw [parse, parse, turnsOf_eq_readAll, turnsOf_eq_readAll, htokens]

/-- A parser on a source, from any place on, and a parser on the list of the tokens from there do alike
whatever they are told.  Moved on so many times, the window shows the tokens but for so many.  And sources
with the same tokens are parsed alike. -/
theorem commands_follow_tokens {source text : String} {start : Nat}
    (h : (Cursor.mk source.toList start).remainder? = some text) (record : Diagnostics) :
    (∃ onText, Parser.ofCursor? ⟨source.toList, start⟩ record = some onText ∧
      ∀ commands : List Command,
        SameAnswer (Parser.InStep (tokenize text)) (onText.performAll commands)
          ((Parser.ofTokens (tokenize text).dropLast record).performAll commands)) ∧
      ∀ source', tokenize source' = tokenize source → parse source' = parse source := by
  obtain ⟨cs, hahead, rfl⟩ := Option.map_eq_some_iff.1 h
  refine ⟨⟨{ stream := .ofChars cs, diagnostics := record }, ?_, fun commands => ?_⟩,
    fun source' => parse_of_tokenize⟩
  · rw [Parser.ofCursor?, Window.ofCursor?, Cursor.unread?_of_ahead? hahead]
    rfl
  · let onText : Parser Window := { stream := .ofChars cs, diagnostics := record }
    have hlist : (tokenize (String.ofList cs)).dropLast = scanAll cs := by
      rw [tokenize, String.toList_ofList, List.dropLast_concat]
    have hagree : Parser.Agrees (fun (w : Window) (ts : List Token) => tokens w = ts) onText
        (.ofTokens (tokenize (String.ofList cs)).dropLast record) :=
      ⟨(Window.toList_ofChars cs).trans hlist.symm, rfl, rfl, rfl, rfl, rfl⟩
    have hsame := hagree.performAll
      ⟨fun h => h, fun {w ts} h => by rw [tokens_advance, h]; rfl⟩ commands
    show SameAnswer _ (onText.performAll commands) _
    generalize htext : onText.performAll commands = o at hsame ⊢
    generalize hlisted : (Parser.ofTokens _ record).performAll commands = o' at hsame ⊢
    cases hsame with
    | none => exact .none
    | @some p q answers hpq =>
      obtain ⟨m, hstream, hm⟩ := Parser.onward_performAll htext
      obtain ⟨n, hrest, hn⟩ := Parser.onward_performAll hlisted
      have hpm : p.advances = m := hm.trans (Nat.zero_add m)
      have hqn : q.advances = n := hn.trans (Nat.zero_add n)
      have hmn : q.advances = p.advances := congrArg (·.toList.countP Event.isToken) hpq.events.symm
      refine .some answers ⟨⟨fun i => ?_, ?_⟩, hpq.grammar, hpq.depth, hpq.diagnostics, hpq.lines,
        hpq.events⟩
      · rw [hstream, Window.shown_skip, Window.shown_ofChars, upcoming_eq, getD_tokenize,
          String.toList_ofList, hpm]
      · rw [hrest, ← hmn, hqn]
        exact tokens_skip n (tokenize (String.ofList cs)).dropLast

theorem commands_follow_tokens_of_sum :
    let commands := [.parseExpression .sum, .advance, .parse]
    let answers := [.expression (.ok (.identifier "x")), .token (.ok ⟨.plus, "+"⟩),
      .program ⟨[.expression (.integer "1")]⟩]
    (Cursor.mk "né x + 1;".toList 4).remainder? = some "x + 1;" ∧
      ∃ onText p, Parser.ofCursor? ⟨"né x + 1;".toList, 4⟩ .empty = some onText ∧
        onText.performAll commands = some (answers, p) ∧ p.stream.ShowsFrom (tokenize "x + 1;") 4 := by
  intro commands answers
  have h : (Cursor.mk "né x + 1;".toList 4).remainder? = some "x + 1;" := by decide
  obtain ⟨⟨onText, hsome, hsame⟩, -⟩ := commands_follow_tokens h .empty
  have hlist : ((Parser.ofTokens (tokenize "x + 1;").dropLast .empty).performAll commands).map
      (Prod.map id Parser.advances) = some (answers, 4) := by
    decide +kernel
  obtain ⟨⟨answers', q⟩, hq, heq⟩ := Option.map_eq_some_iff.1 hlist
  obtain ⟨rfl, hadvances⟩ := Prod.mk.inj heq
  have hrel := hsame commands
  rw [hq] at hrel
  generalize htext : onText.performAll commands = o at hrel
  cases hrel with
  | @some p _ _ hpq =>
    have hmoves : p.advances = 4 :=
      (congrArg (fun es : Array Event => es.toList.countP Event.isToken) hpq.events).trans hadvances
    exact ⟨h, onText, p, hsome, htext, hmoves ▸ hpq.stream.1⟩

end LetLang
