import LetLang.Parser
import LetLang.Proofs.Steps

/-!
# Parsers on the move

A parse leaves the parser moved on by some tokens and touches nothing else.  `advanceBy n` is moving
on `n` times, token after token, and `MovedPast` names the tokens that were moved past.

    p.resume (skip n ⟨p.stream, []⟩) = p.advanceBy n                      (Parser.resume_skip)
    Spans ⟨p.stream, []⟩ ts rest → p.MovedPast ts (p.resume rest)         (Parser.movedPast_resume)
-/

namespace LetLang

open TokenStream

variable {ε σ α : Type}

theorem Parser.run_eq_ok_iff {p q : Parser σ} {f : Parse ε (Logged σ) α} {a : α} :
    p.run f = some (.ok a, q) ↔ ∃ rest, f ⟨p.stream, []⟩ = .done a rest ∧ q = p.resume rest := by
  unfold run
  constructor
  · intro h
    split at h
    · next b rest hf =>
      cases h
      exact ⟨rest, hf, rfl⟩
    · cases h
    · cases h
  · rintro ⟨rest, hf, rfl⟩
    rw [hf]

theorem Parser.isSome_run {p : Parser σ} {f : Parse ε (Logged σ) α} (hf : f.Ends) :
    (p.run f).isSome := by
  unfold run
  split
  · rfl
  · rfl
  · next h => exact absurd h (hf _)

variable [TokenStream σ]

namespace Logged

theorem skip_mk (n : Nat) (s : σ) (log : List Token) :
    skip n (Logged.mk s log) = ⟨skip n s, (skip n (Logged.mk s [])).log ++ log⟩ := by
  induction n generalizing s log with
  | zero => rfl
  | succ n ih =>
    show skip n (Logged.mk (advance s) (current (advance s) :: log)) =
      ⟨skip n (advance s), (skip n (Logged.mk (advance s) [current (advance s)])).log ++ log⟩
    rw [ih (advance s) (current (advance s) :: log), ih (advance s) [current (advance s)]]
    simp

theorem length_log_skip (n : Nat) (s : σ) (log : List Token) :
    (skip n (Logged.mk s log)).log.length = n + log.length := by
  induction n generalizing s log with
  | zero => rw [Nat.zero_add]; rfl
  | succ n ih =>
    show (skip n (Logged.mk (advance s) (current (advance s) :: log))).log.length = _
    rw [ih, List.length_cons]
    omega

theorem skip_injective {m n : Nat} {s : Logged σ} (h : skip m s = skip n s) : m = n := by
  have hlog := congrArg (fun s => s.log.length) h
  simp only [length_log_skip m s.stream s.log, length_log_skip n s.stream s.log] at hlog
  omega

end Logged

namespace Parser

/-- The parser moved on by `n` tokens. -/
def advanceBy (p : Parser σ) : Nat → Parser σ
  | 0 => p
  | n + 1 => p.advance.2.advanceBy n

theorem advanceBy_add (p : Parser σ) (m n : Nat) :
    p.advanceBy (m + n) = (p.advanceBy m).advanceBy n := by
  induction m generalizing p with
  | zero => rw [Nat.zero_add]; rfl
  | succ m ih => rw [Nat.succ_add]; exact ih p.advance.2

theorem stream_advanceBy (p : Parser σ) (n : Nat) : (p.advanceBy n).stream = skip n p.stream := by
  induction n generalizing p with
  | zero => rfl
  | succ n ih => exact ih p.advance.2

/-- The parser `q` is `p` moved on, and `ts` are the tokens that it has moved past. -/
def MovedPast (p : Parser σ) (ts : List Token) (q : Parser σ) : Prop :=
  tokens p.stream = ts ++ tokens q.stream ∧ q = p.advanceBy ts.length

theorem resume_skip (p : Parser σ) (n : Nat) :
    p.resume (skip n ⟨p.stream, []⟩) = p.advanceBy n := by
  induction n generalizing p with
  | zero => simp [resume, tell, advanceBy, Logged.seen]
  | succ n ih =>
    let s := TokenStream.advance p.stream
    have hlog : skip n (Logged.mk s [current s]) =
        ⟨skip n s, (skip n (Logged.mk s [])).log ++ [current s]⟩ := Logged.skip_mk n s _
    show p.resume (skip n (Logged.mk s [current s])) = p.advance.2.advanceBy n
    rw [← ih p.advance.2, hlog]
    show p.resume _ = p.advance.2.resume (skip n (Logged.mk s []))
    simp [resume, tell, Parser.advance, Logged.seen, TokenStream.advance, Logged.stream_skip, s]

/-- However a parse ends that moves on, it leaves the parser moved on. -/
theorem eq_advanceBy_of_run {p q : Parser σ} {f : Parse ε (Logged σ) α} {a : Except ε α} {m : Nat}
    (hfrom : (f ⟨p.stream, []⟩).From (skip m ⟨p.stream, []⟩)) (h : p.run f = some (a, q)) :
    ∃ n, q = p.advanceBy (m + n) := by
  unfold run at h
  split at h
  · next b rest hb =>
    cases h
    rw [hb] at hfrom
    obtain ⟨n, rfl⟩ := hfrom
    exact ⟨n, by rw [skip_skip, ← resume_skip]⟩
  · next e rest he =>
    cases h
    rw [he] at hfrom
    obtain ⟨n, rfl⟩ := hfrom
    exact ⟨n, by rw [skip_skip, ← resume_skip]⟩
  · cases h

theorem movedPast_resume {p : Parser σ} {ts : List Token} {rest : Logged σ}
    (h : Spans (Logged.mk p.stream []) ts rest) : p.MovedPast ts (p.resume rest) :=
  ⟨h.tokens_eq, by rw [h.rest_eq, resume_skip]⟩

end Parser

end LetLang
