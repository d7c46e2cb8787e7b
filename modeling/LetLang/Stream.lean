import LetLang.Token

/-!
# Token streams

A stream shows one token at a time and can be moved on to the next one.  Past its last token it shows
the end token for ever.  What a stream still holds is the list `tokens`, and every operation is
pinned down by what it does to that list; `left` is a bound on its length that costs little to
compute.

A list of tokens is a stream.  `Logged` is a stream that also writes down each token that it comes
to show.

    current s = (tokens s).headD Token.eof                        (TokenStream.current_eq)
    tokens (advance s) = (tokens s).tail                          (TokenStream.tokens_advance)
-/

namespace LetLang

/-- A source of tokens, one at a time. -/
class TokenStream (σ : Type) where
  /-- The token shown. -/
  current : σ → Token
  /-- The stream moved on by one token. -/
  advance : σ → σ
  /-- At least as many as there are tokens left. -/
  left : σ → Nat
  /-- The tokens left, the one shown first. -/
  tokens : σ → List Token
  current_eq : ∀ s, current s = (tokens s).headD Token.eof
  tokens_advance : ∀ s, tokens (advance s) = (tokens s).tail
  length_tokens_le : ∀ s, (tokens s).length ≤ left s

namespace TokenStream

variable {σ : Type} [TokenStream σ]

theorem current_of_tokens_nil {s : σ} (h : tokens s = []) : current s = Token.eof := by
  rw [current_eq, h]; rfl

theorem current_of_tokens_cons {s : σ} {t : Token} {ts : List Token} (h : tokens s = t :: ts) :
    current s = t := by
  rw [current_eq, h]; rfl

theorem tokens_advance_of_cons {s : σ} {t : Token} {ts : List Token} (h : tokens s = t :: ts) :
    tokens (advance s) = ts := by
  rw [tokens_advance, h]; rfl

theorem tokens_ne_nil {s : σ} (h : (current s).kind ≠ .eof) : tokens s ≠ [] := by
  intro hn
  rw [current_of_tokens_nil hn] at h
  exact h rfl

/-- Moving on where there is a token leaves fewer. -/
theorem length_advance_lt {s : σ} (h : tokens s ≠ []) :
    (tokens (advance s)).length < (tokens s).length := by
  cases hs : tokens s with
  | nil => exact absurd hs h
  | cons t ts => rw [tokens_advance_of_cons hs]; simp

end TokenStream

open TokenStream

/-! ## Lists -/

instance : TokenStream (List Token) where
  current ts := ts.headD Token.eof
  advance ts := ts.tail
  left ts := ts.length
  tokens ts := ts
  current_eq _ := rfl
  tokens_advance _ := rfl
  length_tokens_le _ := Nat.le_refl _

/-! ## Logged streams -/

/-- A stream with the tokens that it came to show since the log was opened, newest first. -/
structure Logged (σ : Type) where
  stream : σ
  log : List Token := []

namespace Logged

variable {σ : Type}

/-- The tokens that the stream came to show, oldest first. -/
def seen (s : Logged σ) : List Token := s.log.reverse

@[simp] theorem seen_mk_nil (s : σ) : (Logged.mk s []).seen = [] := rfl

variable [TokenStream σ]

instance : TokenStream (Logged σ) where
  current s := current s.stream
  advance s := ⟨advance s.stream, current (advance s.stream) :: s.log⟩
  left s := left s.stream
  tokens s := tokens s.stream
  current_eq s := current_eq s.stream
  tokens_advance s := tokens_advance s.stream
  length_tokens_le s := length_tokens_le s.stream

@[simp] theorem current_mk (s : σ) (log : List Token) :
    current (Logged.mk s log) = current s := rfl

@[simp] theorem tokens_mk (s : σ) (log : List Token) : tokens (Logged.mk s log) = tokens s := rfl

@[simp] theorem seen_advance (s : Logged σ) :
    (advance s).seen = s.seen ++ [current (advance s)] := by
  simp [seen, advance, current]

end Logged

end LetLang
