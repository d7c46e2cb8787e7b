import LetLang.Proofs.Commands
import LetLang.Proofs.MainLoop

/-!
# Courses

Here reading is written out in single steps.  A course is a parser with the states that it has come through;
a step looks something up in the state at hand, or goes on to another one: it moves on, enters a level of
nesting or leaves one, reports, or tells of what has happened.  An expression enters a level before it looks
at anything, and it leaves that level however its reading ends.

Step by step an expression comes to what it comes to at once, with the room for nesting as a bound; and each
step keeps a course sound.

    a sound course has no state that is nested too deep or has other tables,
    and its record and its lines grow together                                   (Course.Sound)
    an expression read step by step is the expression                            (Course.respects_expression)
-/

namespace LetLang

open TokenStream Parse

variable {ε ε' σ α : Type}

/-! ## Attempts -/

/-- What a parse that cannot fail comes to. -/
def Outcome.value? : Outcome Empty σ α → Option (α × σ)
  | .done a rest => some (a, rest)
  | .endless => none

namespace Parse

/-- What the parse comes to, a value or an error, which is no failure any more. -/
def attempt (f : Parse ε σ α) : Parse ε' σ (Except ε α) := fun s =>
  match f s with
  | .done a rest => .done (.ok a) rest
  | .failed e rest => .done (.error e) rest
  | .endless => .endless

/-- Comes to what has been come to before. -/
def conclude : Except ε α → Parse ε σ α
  | .ok a => pure a
  | .error e => fail e

end Parse

/-- A parser and the states that it has come through, the latest first. -/
structure Course (σ : Type) where
  parser : Parser σ
  past : List (Parser σ) := []

namespace Course

/-- Goes on to the state `p`. -/
def goTo (c : Course σ) (p : Parser σ) : Course σ := ⟨p, c.parser :: c.past⟩

@[simp] theorem parser_goTo (c : Course σ) (p : Parser σ) : (c.goTo p).parser = p := rfl

/-! ## Steps -/

/-- The tables that the parser has at the moment. -/
def tables : Parse ε (Course σ) Grammar := fun c => .done c.parser.grammar c

/-- The diagnostics on record at the moment. -/
def record : Parse ε (Course σ) Diagnostics := fun c => .done c.parser.diagnostics c

def enter : Parse Diagnostic (Course σ) Unit := fun c =>
  match c.parser.enterNesting with
  | .ok p => .done () (c.goTo p)
  | .error d => .failed d c

def leave : Parse ε (Course σ) Unit := fun c => .done () (c.goTo c.parser.exitNesting)

def report (d : Diagnostic) : Parse ε (Course σ) Unit := fun c =>
  .done () (c.goTo (c.parser.report d))

def tell (e : Event) : Parse ε (Course σ) Unit := fun c => .done () (c.goTo (c.parser.tell [e]))

/-- Reads one level down.  The level is left before the value or the error that was come to is passed on. -/
def oneDown (f : Parse Diagnostic (Course σ) α) : Parse Diagnostic (Course σ) α := do
  enter
  let result ← attempt f
  leave
  conclude result

variable [TokenStream σ]

/-- Moving on is a step to the state of the parser moved on. -/
instance : TokenStream (Course σ) where
  current c := current c.parser.stream
  advance c := c.goTo c.parser.advance.2
  left c := left c.parser.stream
  tokens c := tokens c.parser.stream
  current_eq c := current_eq c.parser.stream
  tokens_advance c := tokens_advance c.parser.stream
  length_tokens_le c := length_tokens_le c.parser.stream

/-! ## Routines -/

/-- Reads the operand that the current token opens. -/
def operand (nested : Power → Parse Diagnostic (Course σ) Expr) :
    Parse Diagnostic (Course σ) Expr := do
  let g ← tables
  LetLang.operand g nested

/-- Takes in operators above `bound`, in at most so many rounds. -/
def operations (nested : Power → Parse Diagnostic (Course σ) Expr) (bound : Power) :
    Nat → Expr → Parse Diagnostic (Course σ) Expr
  | 0, left => do
    let t ← peek
    let g ← tables
    match g.operatorAbove? bound t.kind with
    | none => pure left
    | some _ => endless
  | rounds + 1, left => do
    let t ← peek
    let g ← tables
    match g.operatorAbove? bound t.kind with
    | none => pure left
    | some power => do
      let longer ← operation nested power left
      operations nested bound rounds longer

/-- Reads an expression of operators above `bound`, with at most so many calls open at a time. -/
def expression : (calls : Nat) → (bound : Power) → Parse Diagnostic (Course σ) Expr
  | 0, _ => endless
  | calls + 1, bound => oneDown do
    let first ← operand (expression calls)
    let rounds ← countLeft
    operations (expression calls) bound (rounds + 1) first

/-- The calls that can be open at a time: one for each level, and one that enters none. -/
def mostCalls : Nat := nestingLimit + 1

/-- Reads `let name = value;`. -/
def letStatement : Parse Diagnostic (Course σ) Stmt := do
  let _ ← expect .letWord
  let name ← expect .identifier
  let _ ← expect .assignment
  let value ← expression mostCalls .lowest
  let _ ← expect .semicolon
  pure (.letBinding name.text value)

/-- Reads `value;`. -/
def expressionStatement : Parse Diagnostic (Course σ) Stmt := do
  let value ← expression mostCalls .lowest
  let _ ← expect .semicolon
  pure (.expression value)

/-- Reads a statement by its rule. -/
def ruled : StatementRule → Parse Diagnostic (Course σ) Stmt
  | .letBinding => letStatement
  | .expression => expressionStatement

/-- Reads the statement that the current token opens.  When an expression statement tried for want of a rule
fails, its diagnostic is reported. -/
def statement : Parse Diagnostic (Course σ) Stmt := do
  let t ← peek
  let g ← tables
  match g.statement t.kind with
  | some rule => ruled rule
  | none => do
    match ← attempt expressionStatement with
    | .ok stmt => pure stmt
    | .error d => do
      report d
      let stop ← peek
      fail (.invalidStatement stop.kind)

/-- Goes once round the main loop.  A statement that fails is reported, and a token skipped. -/
def round : Parse Empty (Course σ) (Option Stmt) := do
  match ← attempt statement with
  | .ok stmt => pure (some stmt)
  | .error d => do
    report d
    let skipped ← next
    tell (.dropped skipped)
    pure none

/-- Goes round the main loop until the end token shows, in at most so many rounds. -/
def program : Nat → List Stmt → Parse Empty (Course σ) Program
  | 0, _ => endless
  | rounds + 1, body => do
    let t ← peek
    if t.kind = .eof then do
      let recorded ← record
      tell (.finished body.length recorded.size)
      pure ⟨body⟩
    else do
      let kept ← round
      program rounds (body ++ kept.toList)

end Course

/-! ## What steps keep -/

namespace Parser

/-- The record of `q` is that of `p` with some more behind, and of these, each once, `q` has shown the
reports. -/
def Grows (p q : Parser σ) : Prop :=
  ∃ ds, q.diagnostics.toList = p.diagnostics.toList ++ ds ∧
    q.lines.toList = p.lines.toList ++ ds.map Diagnostic.report

theorem Grows.of_eq {p q : Parser σ} (hd : q.diagnostics = p.diagnostics) (hl : q.lines = p.lines) :
    p.Grows q :=
  ⟨[], by rw [hd, List.append_nil], by rw [hl, List.map_nil, List.append_nil]⟩

theorem Grows.trans {p q r : Parser σ} (h : p.Grows q) (h' : q.Grows r) : p.Grows r := by
  obtain ⟨ds, hd, hl⟩ := h
  obtain ⟨es, hd', hl'⟩ := h'
  exact ⟨ds ++ es, by rw [hd', hd, List.append_assoc],
    by rw [hl', hl, List.map_append, List.append_assoc]⟩

/-- The parser one level of nesting further down. -/
def below (p : Parser σ) : Parser σ := { p with depth := p.depth + 1 }

/-- The parser `q` is no deeper than the limit and has the tables of `p`, and its record has grown. -/
structure Frames (p q : Parser σ) : Prop where
  depth_le : q.depth ≤ nestingLimit
  grammar_eq : q.grammar = p.grammar
  grows : p.Grows q

end Parser

namespace Course

/-- All states of the course are framed by `p`, and from each of them on the record has grown. -/
structure Sound (p : Parser σ) (c : Course σ) : Prop where
  parser : p.Frames c.parser
  past : ∀ q ∈ c.past, p.Frames q ∧ q.Grows c.parser

theorem sound_start {p : Parser σ} (h : p.depth ≤ nestingLimit) : (Course.mk p []).Sound p :=
  ⟨⟨h, rfl, .of_eq rfl rfl⟩, fun _ hq => nomatch hq⟩

/-- A step keeps a course sound that goes down no further than allowed, changes no tables, and shows what it
puts on record. -/
theorem Sound.goTo {p q : Parser σ} {c : Course σ} (h : c.Sound p) (hdepth : q.depth ≤ nestingLimit)
    (hgrammar : q.grammar = c.parser.grammar) (hgrows : c.parser.Grows q) : (c.goTo q).Sound p := by
  refine ⟨⟨hdepth, hgrammar.trans h.parser.grammar_eq, h.parser.grows.trans hgrows⟩, ?_⟩
  intro r hr
  rcases List.mem_cons.1 hr with rfl | hr
  · exact ⟨h.parser, hgrows⟩
  · obtain ⟨hframes, hgrown⟩ := h.past r hr
    exact ⟨hframes, hgrown.trans hgrows⟩

theorem Sound.report {p : Parser σ} {c : Course σ} (h : c.Sound p) (d : Diagnostic) :
    (c.goTo (c.parser.report d)).Sound p :=
  h.goTo h.parser.depth_le rfl ⟨[d], by simp [Parser.report], by simp [Parser.report]⟩

theorem Sound.tell {p : Parser σ} {c : Course σ} (h : c.Sound p) (es : List Event) :
    (c.goTo (c.parser.tell es)).Sound p :=
  h.goTo h.parser.depth_le rfl (.of_eq rfl rfl)

theorem Sound.leave {p : Parser σ} {c : Course σ} (h : c.Sound p) :
    (c.goTo c.parser.exitNesting).Sound p :=
  h.goTo (Nat.le_trans (Nat.sub_le _ _) h.parser.depth_le) rfl (.of_eq rfl rfl)

variable [TokenStream σ]

theorem Sound.advance {p : Parser σ} {c : Course σ} (h : c.Sound p) :
    (TokenStream.advance c).Sound p :=
  h.goTo h.parser.depth_le rfl (.of_eq rfl rfl)

/-! ## Step by step and at once -/

/-- The course has come to the parser that `p` is once its stream has been moved on to `s`, and it is sound
from `start` on. -/
def Follows (start p : Parser σ) (s : Logged σ) (c : Course σ) : Prop :=
  c.parser = p.resume s ∧ c.Sound start

variable {start p : Parser σ}

theorem resume_advance (p : Parser σ) (s : Logged σ) :
    (p.resume s).advance.2 = p.resume (TokenStream.advance s) := by
  simp [Parser.resume, Parser.advance, Parser.tell, Logged.seen, TokenStream.advance,
    Array.toList_inj.symm]

theorem alike_follows : Alike (Follows start p) where
  tokens_eq := by
    rintro s c ⟨hc, -⟩
    show tokens s.stream = tokens c.parser.stream
    rw [hc]
    rfl
  advance := by
    rintro s c ⟨hc, hsound⟩
    refine ⟨?_, hsound.advance⟩
    show c.parser.advance.2 = _
    rw [hc, resume_advance]

omit [TokenStream σ] in
/-- The tables that are looked up are those of the parser. -/
theorem respects_tables {f : Parse ε (Logged σ) α} {f' : Grammar → Parse ε (Course σ) α}
    (h : Respects (Follows start p) f (f' p.grammar)) :
    Respects (Follows start p) f (tables >>= f') := by
  intro s c hsc
  have hg : c.parser.grammar = p.grammar := by rw [hsc.1]; rfl
  show Outcome.Related _ (f s) (f' c.parser.grammar c)
  rw [hg]
  exact h s c hsc

theorem respects_countLeft :
    Respects (Follows start p) (countLeft : Parse ε (Logged σ) Nat) countLeft := by
  rintro s c ⟨hc, hsound⟩
  have hleft : left c = left s := by
    show left c.parser.stream = left s.stream
    rw [hc]
    rfl
  rw [countLeft_apply, countLeft_apply, hleft]
  exact .done _ ⟨hc, hsound⟩

section

variable {nested : Power → Parse Diagnostic (Logged σ) Expr}
  {nested' : Power → Parse Diagnostic (Course σ) Expr}
  (hn : ∀ bound, Respects (Follows start p) (nested bound) (nested' bound))

include hn

theorem respects_operand :
    Respects (Follows start p) (LetLang.operand p.grammar nested) (operand nested') :=
  respects_tables (LetLang.respects_operand alike_follows hn p.grammar)

theorem respects_operations (bound : Power) (rounds : Nat) (l : Expr) :
    Respects (Follows start p) (LetLang.operations p.grammar nested bound rounds l)
      (operations nested' bound rounds l) := by
  induction rounds generalizing l with
  | zero =>
    refine (respects_peek alike_follows).bind fun t => respects_tables ?_
    cases p.grammar.operatorAbove? bound t.kind with
    | none => exact respects_pure _
    | some power => exact respects_endless
  | succ rounds ih =>
    refine (respects_peek alike_follows).bind fun t => respects_tables ?_
    cases p.grammar.operatorAbove? bound t.kind with
    | none => exact respects_pure _
    | some power => exact (respects_operation alike_follows hn _ _).bind fun _ => ih _

end

omit [TokenStream σ] in
/-- A level is entered, and it is left in success and in failure. -/
theorem respects_oneDown {f : Parse Diagnostic (Logged σ) α} {f' : Parse Diagnostic (Course σ) α}
    (hdepth : p.depth < nestingLimit) (h : Respects (Follows start p.below) f f') :
    Respects (Follows start p) f (oneDown f') := by
  rintro s c ⟨hc, hsound⟩
  have henter : enter c = .done () (c.goTo (p.below.resume s)) := by
    have hlt : c.parser.depth < nestingLimit := by rw [hc]; exact hdepth
    rw [enter, Parser.enterNesting, if_pos hlt, hc]
    rfl
  have hbelow : Follows start p.below s (c.goTo (p.below.resume s)) :=
    ⟨rfl, hsound.goTo hdepth (by rw [hc]; rfl) (.of_eq (by rw [hc]; rfl) (by rw [hc]; rfl))⟩
  have hleave : ∀ {rest : Logged σ} {c' : Course σ}, Follows start p.below rest c' →
      Follows start p rest (c'.goTo c'.parser.exitNesting) := by
    rintro rest c' ⟨hc', hsound'⟩
    refine ⟨?_, hsound'.leave⟩
    rw [parser_goTo, hc']
    rfl
  have hrel := h s _ hbelow
  unfold oneDown
  rw [bind_apply, henter, Outcome.andThen_done, bind_apply, attempt]
  generalize f s = o at hrel ⊢
  generalize f' (c.goTo (p.below.resume s)) = o' at hrel ⊢
  cases hrel with
  | done a hrest => exact .done a (hleave hrest)
  | failed e hrest => exact .failed e (hleave hrest)
  | endless => exact .endless

omit [TokenStream σ] in
/-- At the limit no level is entered. -/
theorem respects_oneDown_at_limit {f' : Parse Diagnostic (Course σ) α}
    (hdepth : ¬p.depth < nestingLimit) :
    Respects (Follows start p) (fail (.nestingTooDeep nestingLimit)) (oneDown f') := by
  rintro s c ⟨hc, hsound⟩
  have henter : enter c = .failed (.nestingTooDeep nestingLimit) c := by
    have hlt : ¬c.parser.depth < nestingLimit := by rw [hc]; exact hdepth
    rw [enter, Parser.enterNesting, if_neg hlt]
  unfold oneDown
  rw [bind_apply, henter]
  exact .failed _ ⟨hc, hsound⟩

/-- An expression read step by step is the expression, if calls enough are allowed. -/
theorem respects_expression (calls : Nat) (bound : Power) (h : p.room < calls) :
    Respects (Follows start p) (LetLang.expression p.grammar p.room bound)
      (expression calls bound) := by
  induction calls generalizing p bound with
  | zero => exact absurd h (Nat.not_lt_zero _)
  | succ calls ih =>
    by_cases hdepth : p.depth < nestingLimit
    · have hroom : p.room = p.below.room + 1 := by
        show nestingLimit - p.depth = nestingLimit - (p.depth + 1) + 1
        omega
      have hnested := fun bound => ih (p := p.below) bound (by omega)
      rw [hroom]
      refine respects_oneDown hdepth ?_
      exact (respects_operand hnested).bind fun first => respects_countLeft.bind fun rounds =>
        respects_operations hnested bound (rounds + 1) first
    · have hroom : p.room = 0 := by
        show nestingLimit - p.depth = 0
        omega
      rw [hroom]
      exact respects_oneDown_at_limit hdepth

/-! ## Statements -/

omit [TokenStream σ] in
theorem room_lt_mostCalls (p : Parser σ) : p.room < mostCalls :=
  Nat.lt_succ_of_le (Nat.sub_le nestingLimit p.depth)

theorem respects_letStatement :
    Respects (Follows start p) (LetLang.letStatement p.grammar p.room) letStatement :=
  (respects_expect alike_follows _).bind fun _ => (respects_expect alike_follows _).bind fun _ =>
    (respects_expect alike_follows _).bind fun _ =>
      (respects_expression mostCalls _ (room_lt_mostCalls p)).bind fun _ =>
        (respects_expect alike_follows _).bind fun _ => respects_pure _

theorem respects_expressionStatement :
    Respects (Follows start p) (LetLang.expressionStatement p.grammar p.room) expressionStatement :=
  (respects_expression mostCalls _ (room_lt_mostCalls p)).bind fun _ =>
    (respects_expect alike_follows _).bind fun _ => respects_pure _

theorem respects_ruled (rule : StatementRule) :
    Respects (Follows start p) (rule.read p.grammar p.room) (ruled rule) := by
  cases rule with
  | letBinding => exact respects_letStatement
  | expression => exact respects_expressionStatement

end Course

end LetLang
