import Mathlib.Data.List.Forall2
import Mathlib.Data.Nat.Dist
import Mathlib.Data.Nat.ModEq
import Mathlib.Tactic.NormNum

/-! # Hashes that xor and multiply

A hash of this kind absorbs its input word by word: xor the word in, multiply by a constant, reduce
to `w` bits.  Carries go up only, so the low `k` bits of the hash depend on nothing but the low `k`
bits of the words (`digest_modEq`).

For the reduction of a hash modulo `N`, `dvd_gap` bounds what `N` can hide: if the members of some
pairs agree modulo `N`, then `N` divides the greatest common divisor of their distances. -/

namespace XorMultiply

/-- Absorb one word. -/
def absorb (w p h b : ℕ) : ℕ := (h ^^^ b) * p % 2 ^ w

/-- Absorb the words in order. -/
def digest (w p : ℕ) (h : ℕ) (bs : List ℕ) : ℕ := bs.foldl (absorb w p) h

theorem xor_modEq {k a a' b b' : ℕ} (ha : a ≡ a' [MOD 2 ^ k]) (hb : b ≡ b' [MOD 2 ^ k]) :
    a ^^^ b ≡ a' ^^^ b' [MOD 2 ^ k] := by
  unfold Nat.ModEq at ha hb ⊢
  rw [Nat.xor_mod_two_pow, Nat.xor_mod_two_pow, ha, hb]

theorem absorb_modEq {k w : ℕ} (hk : k ≤ w) (p : ℕ) {h h' b b' : ℕ} (hh : h ≡ h' [MOD 2 ^ k])
    (hb : b ≡ b' [MOD 2 ^ k]) : absorb w p h b ≡ absorb w p h' b' [MOD 2 ^ k] := by
  have hprod : (h ^^^ b) * p ≡ (h' ^^^ b') * p [MOD 2 ^ k] := (xor_modEq hh hb).mul_right p
  have hdvd : 2 ^ k ∣ 2 ^ w := pow_dvd_pow 2 hk
  unfold Nat.ModEq absorb
  rw [Nat.mod_mod_of_dvd _ hdvd, Nat.mod_mod_of_dvd _ hdvd]
  exact hprod

/-- **The low bits of the hash depend on the low bits of the words.** -/
theorem digest_modEq {k w : ℕ} (hk : k ≤ w) (p : ℕ) {bs cs : List ℕ}
    (hwords : List.Forall₂ (fun b c => b ≡ c [MOD 2 ^ k]) bs cs) :
    ∀ {h h' : ℕ}, h ≡ h' [MOD 2 ^ k] → digest w p h bs ≡ digest w p h' cs [MOD 2 ^ k] := by
  induction hwords with
  | nil => exact fun hh => hh
  | cons hb _ ih => exact fun hh => ih (absorb_modEq hk p hh hb)

/-! ### What a modulus hides -/

/-- The greatest common divisor of the distances in some pairs. -/
def gap (pairs : List (ℕ × ℕ)) : ℕ := pairs.foldr (fun p d => Nat.gcd (Nat.dist p.1 p.2) d) 0

theorem dvd_dist {N a b : ℕ} (h : a ≡ b [MOD N]) : N ∣ Nat.dist a b :=
  Nat.dvd_add h.symm.dvd' h.dvd'

theorem dvd_gap {N : ℕ} : ∀ {pairs : List (ℕ × ℕ)}, (∀ p ∈ pairs, p.1 ≡ p.2 [MOD N]) →
    N ∣ gap pairs
  | [], _ => dvd_zero N
  | p :: _, h => Nat.dvd_gcd (dvd_dist (h p List.mem_cons_self))
      (dvd_gap fun q hq => h q (List.mem_cons_of_mem p hq))

end XorMultiply
