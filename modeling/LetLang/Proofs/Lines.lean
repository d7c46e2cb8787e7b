import Mathlib.Data.String.Basic
import LetLang.Proofs.Accounts
import LetLang.Proofs.Seams
import LetLang.Proofs.Sessions
import LetLang.Proofs.Stretches

/-!
# Lines of diagnostics

What a user sees of a diagnostic is one line.  The words of a message are fixed, and the text that a tip
quotes is that of a token of the source: since no token holds a blank, it holds no line break either.
So the text shown can be cut at its line breaks, and the pieces are the reports.

    no token has a line break in its text                              (oneLine_of_mem_tokenize)
    a diagnostic quotes no text but that of a token                    (exists_token_of_quoted)
    text made of lines, cut at the line breaks, gives the lines        (splitToList_lines)
    console_lines                                                      what is shown of a source
-/

namespace LetLang

/-- The text has no line break in it, of either kind. -/
def OneLine (text : String) : Prop := '\n' ∉ text.toList ∧ '\r' ∉ text.toList

instance (text : String) : Decidable (OneLine text) := inferInstanceAs (Decidable (_ ∧ _))

@[simp] theorem oneLine_append_iff {a b : String} : OneLine (a ++ b) ↔ OneLine a ∧ OneLine b := by
  simp only [OneLine, String.toList_append, List.mem_append, not_or]
  exact and_and_and_comm

/-- Only a blank can break a line. -/
theorem oneLine_of_forall {text : String} (h : ∀ c ∈ text.toList, isBlank c = false) :
    OneLine text := by
  constructor
  · intro hbreak
    exact absurd (h _ hbreak) (by decide)
  · intro hbreak
    exact absurd (h _ hbreak) (by decide)

/-! ## Tokens -/

theorem Lexeme.oneLine {k : Kind} {x : String} (h : Lexeme k x) : OneLine x :=
  oneLine_of_forall fun _ hc => h.isBlank_eq_false hc

theorem oneLine_of_mem_tokenize {source : String} : ∀ t ∈ tokenize source, OneLine t.text := by
  intro t ht
  rcases List.mem_append.1 ht with ht | ht
  · exact (lexeme_of_mem_scanAll t ht).oneLine
  · rw [List.mem_singleton.1 ht]
    decide

/-! ## Reports -/

@[simp] theorem Kind.oneLine_name (k : Kind) : OneLine k.name := by cases k <;> decide

@[simp] theorem oneLine_toString (n : Nat) : OneLine (toString n) := by
  apply oneLine_of_forall
  intro c hc
  rw [Nat.toString_eq_repr, Nat.toList_repr] at hc
  have hdigit : c.isDigit := Nat.isDigit_of_mem_toDigits (by omega) (by omega) hc
  apply Bool.eq_false_iff.2
  intro hblank
  simpa [isBorder, hdigit] using isBorder_of_isBlank hblank

namespace Diagnostic

/-- The text of a token that the diagnostic holds. -/
def quoted? : Diagnostic → Option String
  | unexpectedToken _ _ text => some text
  | noOperand _ text => some text
  | invalidStatement _ => none
  | nestingTooDeep _ => none

theorem oneLine_message (d : Diagnostic) : OneLine d.message := by
  unfold message
  cases d with
  | unexpectedToken expected found text =>
    simp only [oneLine_append_iff, Kind.oneLine_name]
    decide
  | noOperand kind text =>
    simp only [oneLine_append_iff, Kind.oneLine_name]
    decide
  | invalidStatement kind =>
    simp only [oneLine_append_iff, Kind.oneLine_name]
    decide
  | nestingTooDeep limit =>
    simp only [oneLine_append_iff, oneLine_toString]
    decide

theorem oneLine_tip {d : Diagnostic} (h : ∀ text ∈ d.quoted?, OneLine text) :
    ∀ tip ∈ d.tip?, OneLine tip := by
  intro tip htip
  unfold tip? at htip
  split at htip
  -- The tips that quote.
  case h_1 text | h_4 text =>
    obtain rfl := Option.some.inj htip
    simp only [oneLine_append_iff, h text rfl]
    decide
  case h_6 kind text _ _ =>
    obtain rfl := Option.some.inj htip
    simp only [oneLine_append_iff, h text rfl]
    decide
  -- The tips that do not.
  case h_2 | h_5 | h_8 =>
    cases htip
    decide
  case h_3 | h_7 => cases htip

/-- A report is one line if the text that it may quote is. -/
theorem oneLine_report {d : Diagnostic} (h : ∀ text ∈ d.quoted?, OneLine text) : OneLine d.report := by
  unfold report
  split
  · exact d.oneLine_message
  · next tip htip =>
    have htip := oneLine_tip h tip htip
    simp only [oneLine_append_iff, d.oneLine_message, htip]
    decide

theorem Blames.quoted_eq {t : Token} {d : Diagnostic} (h : d.Blames t) :
    ∀ text ∈ d.quoted?, text = t.text := by
  cases d with
  | unexpectedToken expected found text =>
    rintro _ ⟨⟩
    exact h.2
  | noOperand kind text =>
    rintro _ ⟨⟩
    exact h.2
  | invalidStatement kind => exact nofun
  | nestingTooDeep limit => exact nofun

end Diagnostic

/-- The diagnostics of a turn that dropped a statement quote the token that was skipped, the last that
the turn took. -/
theorem Turn.Reported.quoted {t : Turn} (h : t.Reported) :
    ∀ d ∈ t.diagnostics, ∀ text ∈ d.quoted?, ∃ c ∈ t.taken, c.text = text := by
  obtain ⟨ts, c, d, htaken, -, hblames, hds⟩ := h
  have hc : c ∈ t.taken := by
    rw [htaken]
    exact List.mem_append_right ts List.mem_cons_self
  intro d' hd' text htext
  have hd : d' = d ∨ d' = .invalidStatement c.kind := by
    rcases hds with ⟨-, -, hds⟩ | ⟨-, -, hds⟩
    · exact .inl (List.mem_singleton.1 (hds ▸ hd'))
    · exact List.mem_pair.1 (hds ▸ hd')
  rcases hd with rfl | rfl
  · exact ⟨c, hc, (hblames.quoted_eq text htext).symm⟩
  · cases htext

/-- Whatever text a diagnostic quotes, a token of the source has it. -/
theorem exists_token_of_quoted {source : String} :
    ∀ d ∈ (parse source).2.toList, ∀ text ∈ d.quoted?, ∃ t ∈ tokenize source, t.text = text := by
  intro d hd text htext
  rw [toList_parse_snd] at hd
  obtain ⟨t, ht, hdt⟩ := List.mem_flatMap.1 hd
  have hdropped : t.isDropped := by
    cases hv : t.verdict with
    | kept stmt => simp [Turn.diagnostics, hv] at hdt
    | dropped ds c => simp [Turn.isDropped, Turn.skipped?, hv]
  obtain ⟨c, hc, rfl⟩ := ((run_to_end source).reported t ht hdropped).quoted d hdt text htext
  refine ⟨c, ?_, rfl⟩
  -- what turns take is in the source, but for the end that may be taken once more
  have htaken : c ∈ (turnsOf source).flatMap Turn.taken := List.mem_flatMap.2 ⟨t, ht, hc⟩
  rw [flatMap_taken, List.mem_append] at htaken
  rcases htaken with htaken | hagain
  · exact List.dropLast_subset _ htaken
  · have hend : c = Token.eof := by
      unfold endAgain at hagain
      split at hagain
      · exact List.mem_singleton.1 hagain
      · cases hagain
    rw [hend, tokenize]
    exact List.mem_append_right _ List.mem_cons_self

/-! ## Lines -/

/-- Text of lines that are closed by a line break each.  Cut at the line breaks it gives the lines, and
then the nothing that follows the last line break. -/
theorem splitToList_lines {lines : List String} (h : ∀ line ∈ lines, OneLine line) :
    (String.join (lines.map (· ++ "\n"))).splitToList (· = '\n') = lines ++ [""] := by
  rw [String.splitToList_of_valid]
  induction lines with
  | nil => rfl
  | cons line lines ih =>
    obtain ⟨hline, hlines⟩ := List.forall_mem_cons.1 h
    have htext : (String.join ((line :: lines).map (· ++ "\n"))).toList =
        line.toList ++ '\n' :: (String.join (lines.map (· ++ "\n"))).toList := by simp
    have hinside : ∀ c ∈ line.toList, decide (c = '\n') = false := by
      intro c hc
      apply decide_eq_false
      rintro rfl
      exact hline.1 hc
    rw [htext, List.splitOnP_append_cons_of_forall_mem hinside _ (by decide), List.map_cons, ih hlines,
      String.ofList_toList]
    rfl

/-- Of every diagnostic of a source one line is shown, and that is its report, which starts with its
message. The record of the diagnostics is displayed in such lines as well, and these are the messages
alone. -/
theorem console_lines (source : String) :
    (∃ q lines, (Parser.ofString source .empty).parse = some ((parse source).1, q) ∧
      q.diagnostics = (parse source).2 ∧ q.console.splitToList (· = '\n') = lines ++ [""] ∧
      lines.length = (parse source).2.size ∧ lines = (parse source).2.toList.map Diagnostic.report ∧
      List.Forall₂ (fun line message => OneLine line ∧ message.toList <+: line.toList) lines
        (parse source).2.messages) ∧
    (parse source).2.display.splitToList (· = '\n') = (parse source).2.messages ++ [""] := by
  have hreport : ∀ d ∈ (parse source).2.toList, OneLine d.report := by
    intro d hd
    apply Diagnostic.oneLine_report
    intro text htext
    obtain ⟨t, ht, rfl⟩ := exists_token_of_quoted d hd text htext
    exact oneLine_of_mem_tokenize t ht
  constructor
  · obtain ⟨q, hq, hrecord, hlines⟩ := exists_parse_ofString source .empty
    refine ⟨q, _, hq, Diagnostics.toList_inj.1 hrecord, ?_, ?_, rfl, ?_⟩
    · rw [Parser.console, hlines]
      exact splitToList_lines (List.forall_mem_map.2 hreport)
    · rw [List.length_map, Diagnostics.length_toList]
    · rw [Diagnostics.messages, List.forall₂_map_left_iff, List.forall₂_map_right_iff,
        List.forall₂_same]
      intro d hd
      obtain ⟨rest, hrest⟩ := d.exists_report_eq
      refine ⟨hreport d hd, ?_⟩
      rw [hrest, String.toList_append]
      exact List.prefix_append _ _
  · exact splitToList_lines (List.forall_mem_map.2 fun d _ => d.oneLine_message)

end LetLang
