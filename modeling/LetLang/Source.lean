import LetLang.Agreement
import LetLang.Parser

/-!
# Sources

The whole way from a source text to what is made of it by the standard grammar.  `turnsOf` reads the
source turn by turn; the program, the diagnostics and the events are views of the turns.

    (parse source).1 = programOf (turnsOf source)
    (parse source).2.toList = diagnosticsOf (turnsOf source)              (toList_parse_snd)
    turnsOf source are the turns of the list scanAll source.toList        (exists_turns_scanAll_eq)
-/

namespace LetLang

/-- The turns in which a source is read. -/
def turnsOf (source : String) : List Turn :=
  ((turns .standard nestingLimit (Window.ofString source)).get (turns_isSome rfl _ _)).1

/-- Reads a source: its program, and the diagnostics of all that was dropped. -/
def parse (source : String) : Program × Diagnostics :=
  (programOf (turnsOf source), .ofList (diagnosticsOf (turnsOf source)))

/-- The events told in the course of reading a source. -/
def trace (source : String) : List Event :=
  eventsOf (turnsOf source) ++
    [.finished (programOf (turnsOf source)).size (diagnosticsOf (turnsOf source)).length]

/-- Reads sources one after the other, all into one record of diagnostics.  Each source gives its
program and the parser that has read it. -/
def session (record : Diagnostics) : List String → Option (List (Program × Parser Window))
  | [] => some []
  | source :: sources =>
    match (Parser.ofString source record).parse with
    | none => none
    | some (program, p) => (session p.diagnostics sources).map ((program, p) :: ·)

/-! ## Lemmas -/

theorem exists_turns_eq (source : String) :
    ∃ last, turns .standard nestingLimit (Window.ofString source) =
      some (turnsOf source, last) :=
  ⟨((turns .standard nestingLimit (Window.ofString source)).get (turns_isSome rfl _ _)).2,
    (Option.some_get _).symm⟩

/-- The turns of a source are the turns of the list of its tokens. -/
theorem exists_turns_scanAll_eq (source : String) :
    ∃ last : List Token, turns .standard nestingLimit (scanAll source.toList) =
      some (turnsOf source, last) := by
  obtain ⟨last, h⟩ := exists_turns_eq source
  have hrel := turns_tokens .standard nestingLimit (Window.ofString source)
  have htok : TokenStream.tokens (Window.ofString source) = scanAll source.toList :=
    Window.toList_ofChars _
  rw [h, htok] at hrel
  generalize turns .standard nestingLimit (scanAll source.toList) = o at hrel ⊢
  cases hrel with
  | some _ _ => exact ⟨_, rfl⟩

@[simp] theorem toList_parse_snd (source : String) :
    (parse source).2.toList = diagnosticsOf (turnsOf source) := rfl

end LetLang
