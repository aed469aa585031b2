import Mathlib.Data.Finset.Card
import VectorSearch.Lib.PriorityQueue

/-! # Loops that stop when nothing improves

`step a` is the state after another round of a `while` loop, and `none` when the loop stops at `a`.
`Ends step k a b` says that the loop started at `a` stops at `b` after `k` rounds; running it with
that much fuel gives `b` (`Ends.iterate_eq`).

A loop whose rounds keep an invariant and decrease a measure stops (`exists_ends`).  Where each
round moves to a better point of a finite set, `Better` is such a measure (`card_better_lt`). -/

namespace Descent

variable {α : Type} {step : α → Option α}

/-- The loop from the first state stops at the second after so many rounds. -/
inductive Ends (step : α → Option α) : ℕ → α → α → Prop
  | stop {a : α} : step a = none → Ends step 0 a a
  | round {k : ℕ} {a b c : α} : step a = some b → Ends step k b c → Ends step (k + 1) a c

/-- The loop with fuel for so many rounds. -/
def iterate (step : α → Option α) : ℕ → α → α
  | 0, a => a
  | fuel + 1, a => match step a with
    | none => a
    | some b => iterate step fuel b

theorem Ends.stopped {k : ℕ} {a b : α} (h : Ends step k a b) : step b = none := by
  induction h with
  | stop h => exact h
  | round _ _ ih => exact ih

theorem Ends.iterate_eq {k : ℕ} {a b : α} (h : Ends step k a b) :
    ∀ {fuel : ℕ}, k ≤ fuel → iterate step fuel a = b := by
  induction h with
  | stop h =>
      intro fuel _
      cases fuel with
      | zero => rfl
      | succ fuel => simp only [iterate, h]
  | round h _ ih =>
      intro fuel hk
      obtain ⟨fuel, rfl⟩ : ∃ f, fuel = f + 1 := ⟨fuel - 1, by omega⟩
      simp only [iterate, h]
      exact ih (by omega)

/-- What every round keeps holds where the loop stops. -/
theorem Ends.invariant {Inv : α → Prop} (hstep : ∀ a b, Inv a → step a = some b → Inv b) {k : ℕ}
    {a b : α} (h : Ends step k a b) (ha : Inv a) : Inv b := by
  induction h with
  | stop _ => exact ha
  | round hs _ ih => exact ih (hstep _ _ ha hs)

/-- **A loop that decreases a measure stops**, after at most as many rounds as it measures. -/
theorem exists_ends {Inv : α → Prop} (μ : α → ℕ)
    (hstep : ∀ a b, Inv a → step a = some b → Inv b ∧ μ b < μ a) {a : α} (ha : Inv a) :
    ∃ k b, k ≤ μ a ∧ Ends step k a b := by
  induction hm : μ a using Nat.strong_induction_on generalizing a with
  | h m ih =>
    cases hs : step a with
    | none => exact ⟨0, a, Nat.zero_le m, .stop hs⟩
    | some b =>
        obtain ⟨hb, hlt⟩ := hstep a b ha hs
        obtain ⟨k, c, hk, hend⟩ := ih (μ b) (hm ▸ hlt) hb rfl
        exact ⟨k + 1, c, by omega, .round hs hend⟩

/-! ### Moving to better points -/

section
variable {P K : Type} {lt : K → K → Bool}

/-- The points of `S` whose key is below `d`. -/
def Better (lt : K → K → Bool) (key : P → K) (S : Finset P) (d : K) : Finset P :=
  S.filter fun x => lt (key x) d

theorem better_mono (hlt : StrictPartial lt) (key : P → K) (S : Finset P) {d d' : K}
    (h : lt d d' = true) : Better lt key S d ⊆ Better lt key S d' := by
  intro x hx
  rw [Better, Finset.mem_filter] at hx ⊢
  exact ⟨hx.1, hlt.trans hx.2 h⟩

/-- A better point has fewer better ones. -/
theorem card_better_lt (hlt : StrictPartial lt) (key : P → K) {S : Finset P} {x : P} (hx : x ∈ S)
    {d : K} (h : lt (key x) d = true) :
    (Better lt key S (key x)).card < (Better lt key S d).card := by
  have hnot : x ∉ Better lt key S (key x) := by simp [Better, hlt.irrefl]
  have hmem : x ∈ Better lt key S d := by simp [Better, hx, h]
  exact Finset.card_lt_card ⟨better_mono hlt key S h, fun hsub => hnot (hsub hmem)⟩

/-- Fewer points are better than a point than there are points. -/
theorem card_better_self_lt (hlt : StrictPartial lt) (key : P → K) {S : Finset P} {x : P}
    (hx : x ∈ S) : (Better lt key S (key x)).card < S.card := by
  have hnot : x ∉ Better lt key S (key x) := by simp [Better, hlt.irrefl]
  exact Finset.card_lt_card ⟨Finset.filter_subset _ S, fun hsub => hnot (hsub hx)⟩

end

end Descent
