import LetLang.Proofs.Concatenation
import LetLang.Proofs.Segments

/-!
# Semicolons

Tokens up to a semicolon are read in turns that come to the same whatever follows.  A source cut behind
a semicolon is thus read in two parts, neither of which knows of the other, however broken they are.

    a closed stretch of tokens has a run of its own                                  (exists_closed_run)
    parse (s ++ ";" ++ t) keeps and reports what parse (s ++ ";") and parse t do    (parse_semicolon_append)
-/

namespace LetLang

open TokenStream

theorem statementsOf_eq_outline (us : List Turn) :
    statementsOf us =
      (us.map Turn.outline).filterMap fun o => (Turn.mk .eof [] o.2).statement? := by
  rw [List.filterMap_map]
  rfl

theorem diagnosticsOf_eq_outline (us : List Turn) :
    diagnosticsOf us = (us.map Turn.outline).flatMap fun o => (Turn.mk .eof [] o.2).diagnostics := by
  rw [List.flatMap_map]
  rfl

theorem Run.trans {σ : Type} [TokenStream σ] {g : Grammar} {room : Nat} {s mid rest : σ}
    {us vs : List Turn} (h : Run g room s us mid) (h' : Run g room mid vs rest) :
    Run g room s (us ++ vs) rest := by
  induction h with
  | stop s => exact h'
  | turn hs ht _ ih => exact .turn hs ht (ih h')

/-- Tokens up to a semicolon are read by themselves. -/
theorem exists_closed_run (k : Nat) (ts : List Token) (semi : Token) (hk : ts.length ≤ k)
    (heof : ∀ t ∈ ts, t.kind ≠ .eof) (hsemi : semi.kind = .semicolon) :
    ∃ outline, ∀ rest, ∃ us, Run .standard nestingLimit (ts ++ semi :: rest) us rest ∧
      us.map Turn.outline = outline := by
  rcases exists_first_semicolon ts with hopen | ⟨seg, mid, after, rfl, hseg, hmid⟩
  · obtain ⟨outline, hrun⟩ := exists_segment_run k ts hk hopen heof hsemi
    refine ⟨outline, fun rest => ?_⟩
    obtain ⟨us, hus, hout, -⟩ := hrun rest
    exact ⟨us, hus, hout⟩
  · rw [List.length_append, List.length_cons] at hk
    cases k with
    | zero => omega
    | succ k =>
      obtain ⟨first, hfirst⟩ := exists_segment_run (k + 1) seg (by omega) hseg
        (fun t ht => heof t (List.mem_append_left _ ht)) hmid
      obtain ⟨second, hsecond⟩ := exists_closed_run k after semi (by omega)
        (fun t ht => heof t (List.mem_append_right _ (List.mem_cons_of_mem mid ht))) hsemi
      refine ⟨first ++ second, fun rest => ?_⟩
      obtain ⟨us, hus, houts, -⟩ := hfirst (after ++ semi :: rest)
      obtain ⟨vs, hvs, houtv⟩ := hsecond rest
      refine ⟨us ++ vs, ?_, by rw [List.map_append, houts, houtv]⟩
      rw [List.append_assoc, List.cons_append]
      exact hus.trans hvs

theorem toList_semicolon_append (s t : String) :
    scanAll (s ++ ";" ++ t).toList = scanAll s.toList ++ symbolToken ';' :: scanAll t.toList := by
  have hlist : (s ++ ";" ++ t).toList = s.toList ++ ';' :: t.toList := by simp
  rw [hlist, scanAll_append_cons _ (by decide), scanAll_symbol (by decide) (by decide)]

/-- A semicolon is a point of synchronisation: what stands before it and what stands behind it are read
apart from each other. -/
theorem parse_semicolon_append (s t : String) :
    (parse (s ++ ";" ++ t)).1.statements =
        (parse (s ++ ";")).1.statements ++ (parse t).1.statements ∧
      (parse (s ++ ";" ++ t)).2.toList = (parse (s ++ ";")).2.toList ++ (parse t).2.toList := by
  obtain ⟨outline, hrun⟩ := exists_closed_run _ (scanAll s.toList) (symbolToken ';')
    (Nat.le_refl _) (kind_ne_eof_of_mem_scanAll _) rfl
  obtain ⟨us, hus, houts⟩ := hrun (scanAll t.toList)
  obtain ⟨vs, hvs, houtv⟩ := hrun []
  have happend : turnsOf (s ++ ";" ++ t) = us ++ turnsOf t := by
    rw [turnsOf_eq_readAll, toList_semicolon_append, readAll_of_run hus, ← turnsOf_eq_readAll]
  have hclosed : turnsOf (s ++ ";") = vs := by
    have hscan := toList_semicolon_append s ""
    rw [String.append_empty] at hscan
    rw [turnsOf_eq_readAll, hscan, String.toList_empty, scanAll_nil, readAll_of_run hvs, readAll_nil,
      List.append_nil]
  constructor
  · show statementsOf _ = statementsOf _ ++ statementsOf _
    rw [happend, hclosed, statementsOf_append, statementsOf_eq_outline us,
      statementsOf_eq_outline vs, houts, houtv]
  · rw [toList_parse_snd, toList_parse_snd, toList_parse_snd, happend, hclosed,
      diagnosticsOf_append, diagnosticsOf_eq_outline us, diagnosticsOf_eq_outline vs, houts, houtv]

end LetLang
