import LetLang.Proofs.Precedence

/-!
# Phrases nested too deep

A phrase that needs more levels than there is room for is not read: reading fails on the level where
the room ends.  So the depth of nesting is a matter of the tokens alone, and a phrase has one tree and
one depth.

    Derives c n ts e → room < n → reading a phrase with that room fails             (Derives.overflows)
    Derives c m ts d → Derives c n ts e → m = n ∧ d = e                            (Derives.unique)
-/

namespace LetLang

open TokenStream Parse

variable {σ : Type} [TokenStream σ]

/-- With too few levels, reading above a bound that the category allows fails inside `ts`. -/
def Overflows (σ : Type) [TokenStream σ] (c : Category) (n : Nat) (ts : List Token) : Prop :=
  ∀ (room : Nat) (bound : Power) (s rest : σ), room < n → bound ≤ c.bound → Spans s ts rest →
    Grammar.standard.power (current rest).kind ≤ c.last →
    ∃ last, expression .standard room bound s = .failed (.nestingTooDeep nestingLimit) last

theorem Overflows.widen {c d : Category} {n : Nat} {ts : List Token} (h : Overflows σ c n ts)
    (hb : d.bound ≤ c.bound) (hlast : d.last ≤ c.last) : Overflows σ d n ts := by
  intro room bound s rest hn hbound hs hstop
  exact h room bound s rest hn (Nat.le_trans hbound hb) hs (Nat.le_trans hstop hlast)

/-- Either the left operand overflows, or it is read and the right one does. -/
theorem Overflows.binary {c d : Category} {m n : Nat} {ls rs : List Token} {l : Expr} {op : Token}
    (ho : Grammar.standard.operator op.kind = some c.last) (hc : c.bound < c.last)
    (hd : c.last ≤ d.bound) (hd' : c.last ≤ d.last) (hm : 0 < m) (hl : Overflows σ c m ls)
    (hr : Overflows σ d n rs) (hread : Reads σ c m ls l) :
    Overflows σ c (max m (n + 1)) (ls ++ op :: rs) := by
  intro room bound s rest hroom hbound hs hstop
  obtain ⟨mid, hsl, hsr⟩ := hs.exists_mid
  have hcur := hsr.current_cons
  have hmid : Grammar.standard.power (current mid).kind ≤ c.last := by
    rw [hcur, power_of_operator ho]
    exact Nat.le_refl _
  by_cases hlt : room < m
  · exact hl room bound s mid hlt hbound hsl hmid
  · obtain ⟨room, rfl⟩ : ∃ k, room = k + 1 := ⟨room - 1, by omega⟩
    obtain ⟨last, hright⟩ := hr room c.last (advance mid) rest (by omega) hd hsr.tail
      (Nat.le_trans hstop hd')
    refine ⟨last, ?_⟩
    rw [hread room bound s mid (by omega) hbound hsl hmid,
      extend_operator (hcur ▸ ho) (Nat.lt_of_le_of_lt hbound hc), hright]
    rfl

theorem Overflows.negation {n : Nat} {op : Token} {ts : List Token} (hop : op.kind = .dash)
    (h : Overflows σ .signed n ts) : Overflows σ .signed (n + 1) (op :: ts) := by
  intro room bound s rest hroom hbound hs hstop
  cases room with
  | zero => exact ⟨s, rfl⟩
  | succ room =>
    have ho : Grammar.standard.operand (current s).kind = some .unary := by
      rw [hs.current_cons, hop]
      rfl
    obtain ⟨last, hin⟩ := h room .unary (advance s) rest (by omega) (by decide) hs.tail hstop
    refine ⟨last, ?_⟩
    rw [expression_eq_extend, operand_of_some _ ho, read_unary, hin]
    rfl

theorem Overflows.group {n : Nat} {o c : Token} {ts : List Token} (ho : o.kind = .openParen)
    (hc : c.kind = .closeParen) (h : Overflows σ .sum n ts) :
    Overflows σ .atom (n + 1) (o :: (ts ++ [c])) := by
  intro room bound s rest hroom hbound hs hstop
  cases room with
  | zero => exact ⟨s, rfl⟩
  | succ room =>
    obtain ⟨mid, hin, hclose⟩ := hs.tail.exists_mid
    have hk : (current s).kind = .openParen := by rw [hs.current_cons, ho]
    have hkc : (current mid).kind = .closeParen := by rw [hclose.current_cons, hc]
    have hopen : Grammar.standard.operand (current s).kind = some .group := by
      rw [hk]
      rfl
    obtain ⟨last, hinside⟩ := h room .lowest (advance s) mid (by omega) (by decide) hin
      (by rw [hkc]; exact Nat.zero_le _)
    refine ⟨last, ?_⟩
    rw [expression_eq_extend, operand_of_some _ hopen, read_group _ hk, hinside]
    rfl

theorem Overflows.single {c : Category} {t : Token} : Overflows σ c 1 [t] := by
  intro room bound s rest hroom hbound hs hstop
  obtain rfl : room = 0 := by omega
  exact ⟨s, rfl⟩

theorem Derives.overflows {c : Category} {n : Nat} {ts : List Token} {e : Expr}
    (h : Derives c n ts e) : Overflows σ c n ts := by
  induction h with
  | sumOfProduct _ ih => exact ih.widen (by decide) (by decide)
  | addition hop hl _ ihl ihr =>
    exact ihl.binary (operator_sum hop) (by decide) (by decide) (by decide) hl.pos ihr hl.reads
  | productOfSigned _ ih => exact ih.widen (by decide) (by decide)
  | multiplication hop hl _ ihl ihr =>
    exact ihl.binary (operator_product hop) (by decide) (by decide) (by decide) hl.pos ihr hl.reads
  | signedOfAtom _ ih => exact ih.widen (by decide) (by decide)
  | negation hop _ ih => exact ih.negation hop
  | group ho hc _ ih => exact ih.group ho hc
  | _ => exact Overflows.single

/-! ## One tree and one depth -/

theorem spans_all (ts : List Token) : Spans ts ts [] := by
  refine ⟨(List.append_nil ts).symm, ?_⟩
  have h : tokens (skip ts.length ts) = [] := by
    rw [tokens_skip]
    exact List.drop_length
  exact h.symm

theorem Derives.expression_list {n : Nat} {ts : List Token} {e : Expr} (h : Derives .sum n ts e) :
    expression .standard n .lowest ts = .done e [] := by
  have hsum : Derives (.above .lowest) n ts e := h
  exact hsum.expression_eq_done (Nat.le_refl n) (spans_all ts) (Nat.le_refl _)

theorem Derives.not_lt {m n : Nat} {ts : List Token} {d e : Expr} (h : Derives .sum m ts d)
    (h' : Derives .sum n ts e) : ¬m < n := by
  intro hlt
  obtain ⟨last, hfail⟩ := h'.overflows m .lowest ts [] hlt (by decide) (spans_all ts)
    (Nat.zero_le _)
  rw [h.expression_list] at hfail
  cases hfail

/-- A phrase has one tree and one depth of nesting. -/
theorem Derives.unique {c : Category} {m n : Nat} {ts : List Token} {d e : Expr}
    (h : Derives c m ts d) (h' : Derives c n ts e) : m = n ∧ d = e := by
  have hd : Derives .sum m ts d := h.widen (Nat.zero_le _)
  have he : Derives .sum n ts e := h'.widen (Nat.zero_le _)
  obtain rfl : m = n := by
    have := hd.not_lt he
    have := he.not_lt hd
    omega
  refine ⟨rfl, ?_⟩
  have heq := hd.expression_list.symm.trans he.expression_list
  cases heq
  rfl

/-- A statement has one tree, and its expression one depth of nesting. -/
theorem DerivesStatement.unique {m n : Nat} {ts : List Token} {d e : Stmt}
    (h : DerivesStatement m ts d) (h' : DerivesStatement n ts e) : m = n ∧ d = e := by
  generalize hus : ts = us at h'
  cases h with
  | @letBinding word name sign ts _ semi hword hname hsign h hsemi =>
    cases h' with
    | @letBinding word' name' sign' ts' _ semi' _ _ _ h' _ =>
      simp only [List.cons.injEq] at hus
      obtain ⟨rfl, rfl, rfl, hus⟩ := hus
      obtain ⟨rfl, -⟩ := List.append_inj' hus rfl
      obtain ⟨rfl, rfl⟩ := h.unique h'
      exact ⟨rfl, rfl⟩
    | expression h' =>
      obtain ⟨t, us, rfl, ht⟩ := h'.head
      obtain ⟨rfl, -⟩ := List.cons.inj hus
      exact absurd hword ht
  | expression h hsemi =>
    cases h' with
    | letBinding hword =>
      obtain ⟨t, us, rfl, ht⟩ := h.head
      obtain ⟨rfl, -⟩ := List.cons.inj hus
      exact absurd hword ht
    | expression h' =>
      obtain ⟨rfl, -⟩ := List.append_inj' hus rfl
      obtain ⟨rfl, rfl⟩ := h.unique h'
      exact ⟨rfl, rfl⟩

theorem Fitting.unique {ts : List Token} {d e : Stmt} (h : Fitting ts d) (h' : Fitting ts e) :
    d = e := by
  obtain ⟨_, -, hd⟩ := h
  obtain ⟨_, -, he⟩ := h'
  exact (hd.unique he).2

end LetLang
