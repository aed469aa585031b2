import VectorSearch.Coordinator.Router
import VectorSearch.Lib.XorMultiply

/-! # Which bits of a key routing looks at

`ShardFor` reduces the hash modulo the number of shards.  For `2 ^ k` shards that leaves the low `k`
bits of the hash, and these depend on the low `k` bits of each byte of the key only: the other bits
of the key never change the shard.  For every other number of shards each bit of the key counts.

`flipBit key bit` is the key with one of its 128 bits changed.  `shardFor_bits` says which bits
decide about the shard and which keys are forced onto one. -/

namespace VectorSearch.Coordinator

open ByteCodec XorMultiply
open Hnsw (Label)

/-- The key with bit `bit` of (clientId, label) changed. -/
def flipBit (key : Label) (bit : ℕ) : Label :=
  if bit < 64 then { key with clientId := key.clientId ^^^ UInt64.ofNat (2 ^ bit) }
  else { key with label := key.label ^^^ UInt64.ofNat (2 ^ (bit - 64)) }

/-- The low `k` bits of each of the eight bytes of two numbers agree. -/
def AgreeLow (k m n : ℕ) : Prop := ∀ i < 8, m / 256 ^ i ≡ n / 256 ^ i [MOD 2 ^ k]

/-! ### The hash on numbers -/

theorem toNat_fnv (bytes : Bytes) (h : UInt64) :
    (bytes.foldl (fun h b => (h ^^^ b.toUInt64) * 1099511628211) h).toNat =
      digest 64 1099511628211 h.toNat (bytes.map UInt8.toNat) := by
  induction bytes generalizing h with
  | nil => rfl
  | cons b bytes ih =>
      rw [List.foldl_cons, ih, List.map_cons]
      simp [digest, absorb]

theorem toNat_hashKey (key : Label) :
    (hashKey key).toNat = digest 64 1099511628211 14695981039346656037
      ((putLE 8 key.clientId.toNat ++ putLE 8 key.label.toNat).map UInt8.toNat) := by
  rw [hashKey, fnv1a64, toNat_fnv]
  rfl

/-! ### Bits that do not count -/

theorem forall₂_putLE {k : ℕ} (hk : k ≤ 8) : ∀ {w m n : ℕ},
    (∀ i < w, m / 256 ^ i ≡ n / 256 ^ i [MOD 2 ^ k]) →
    List.Forall₂ (fun b c => b ≡ c [MOD 2 ^ k]) ((putLE w m).map UInt8.toNat)
      ((putLE w n).map UInt8.toNat)
  | 0, _, _, _ => .nil
  | w + 1, m, n, h => by
      have hdvd : 2 ^ k ∣ 256 := pow_dvd_pow 2 hk
      have hbyte : ∀ m, (UInt8.ofNat (m % 256)).toNat ≡ m [MOD 2 ^ k] := fun m => by
        simp [Nat.ModEq, Nat.mod_mod_of_dvd _ hdvd]
      refine .cons ?_ (forall₂_putLE hk fun i hi => ?_)
      · have hlow := h 0 (Nat.succ_pos w)
        simp only [pow_zero, Nat.div_one] at hlow
        exact (hbyte m).trans (hlow.trans (hbyte n).symm)
      · have hnext := h (i + 1) (Nat.succ_lt_succ hi)
        rwa [pow_succ', ← Nat.div_div_eq_div_mul, ← Nat.div_div_eq_div_mul] at hnext

/-- Keys whose bytes agree in the low bits have hashes that do. -/
theorem hashKey_modEq {k : ℕ} (hk : k ≤ 8) {key key' : Label}
    (hclient : AgreeLow k key.clientId.toNat key'.clientId.toNat)
    (hlabel : AgreeLow k key.label.toNat key'.label.toNat) :
    (hashKey key).toNat ≡ (hashKey key').toNat [MOD 2 ^ k] := by
  rw [toNat_hashKey, toNat_hashKey, List.map_append, List.map_append]
  exact digest_modEq (by omega) _
    (List.rel_append (forall₂_putLE hk hclient) (forall₂_putLE hk hlabel)) rfl

/-- A changed bit is above the low bits of its byte. -/
theorem agreeLow_xor (n : ℕ) {bit : ℕ} : AgreeLow (bit % 8) (n ^^^ 2 ^ bit) n := by
  intro i _
  have h256 : (256 : ℕ) ^ i = 2 ^ (8 * i) := by rw [pow_mul]; norm_num
  apply Nat.eq_of_testBit_eq
  intro t
  rw [h256, Nat.testBit_mod_two_pow, Nat.testBit_mod_two_pow, Nat.testBit_div_two_pow,
    Nat.testBit_div_two_pow, Nat.testBit_xor, Nat.testBit_two_pow]
  by_cases ht : t < bit % 8
  · have hne : bit ≠ t + 8 * i := by omega
    simp [ht, hne]
  · simp [ht]

theorem AgreeLow.refl (k n : ℕ) : AgreeLow k n n := fun _ _ => rfl

/-- Changing a bit leaves the bits below its place in each byte. -/
theorem agreeLow_flipBit (key : Label) {bit : ℕ} (hbit : bit < 128) :
    AgreeLow (bit % 8) (flipBit key bit).clientId.toNat key.clientId.toNat ∧
      AgreeLow (bit % 8) (flipBit key bit).label.toNat key.label.toNat := by
  unfold flipBit
  split_ifs with h64
  · refine ⟨?_, .refl _ _⟩
    have hpow : 2 ^ bit < 2 ^ 64 := Nat.pow_lt_pow_right (by decide) h64
    rw [UInt64.toNat_xor, UInt64.toNat_ofNat', Nat.mod_eq_of_lt hpow]
    exact agreeLow_xor _
  · refine ⟨.refl _ _, ?_⟩
    have hpow : 2 ^ (bit - 64) < 2 ^ 64 := Nat.pow_lt_pow_right (by decide) (by omega)
    have hmod : (bit - 64) % 8 = bit % 8 := by omega
    rw [UInt64.toNat_xor, UInt64.toNat_ofNat', Nat.mod_eq_of_lt hpow, ← hmod]
    exact agreeLow_xor _

/-! ### Bits that count -/

/-- Keys that tell apart what each bit does. -/
def probes : List Label :=
  [⟨0, 3990357628⟩, ⟨651650559245190228, 17706906376326191593⟩,
    ⟨8221133030950218988, 9339758261963917516⟩]

/-- The hashes of the probes with and without the bit changed. -/
def probePairs (bit : ℕ) : List (ℕ × ℕ) :=
  probes.map fun key => ((hashKey key).toNat, (hashKey (flipBit key bit)).toNat)

theorem gap_probes : ∀ bit < 128, gap (probePairs bit) = 2 ^ (bit % 8) := by
  decide +kernel

/-- A modulus that hides a bit from all keys divides the bit's value in its byte. -/
theorem dvd_of_hidden {N bit : ℕ} (hbit : bit < 128)
    (h : ∀ key, (hashKey key).toNat ≡ (hashKey (flipBit key bit)).toNat [MOD N]) :
    N ∣ 2 ^ (bit % 8) := by
  rw [← gap_probes bit hbit]
  apply dvd_gap
  intro pair hpair
  obtain ⟨key, -, rfl⟩ := List.mem_map.mp hpair
  exact h key

/-! ### Routing -/

variable (r : Router)

theorem Router.shardFor_eq_iff {key key' : Label} :
    r.shardFor key = r.shardFor key' ↔ (hashKey key).toNat ≡ (hashKey key').toNat [MOD r.numShards] := by
  rw [shardFor_eq, shardFor_eq]
  rfl

/-- Keys whose bytes agree in the low bits are on one shard if these bits hold the number of
shards. -/
theorem Router.shardFor_eq_of_agreeLow {k : ℕ} (hk : k ≤ 8) (hdvd : r.numShards ∣ 2 ^ k)
    {key key' : Label} (hclient : AgreeLow k key.clientId.toNat key'.clientId.toNat)
    (hlabel : AgreeLow k key.label.toNat key'.label.toNat) : r.shardFor key = r.shardFor key' := by
  rw [r.shardFor_eq_iff]
  exact (hashKey_modEq hk hclient hlabel).of_dvd hdvd

/-- A bit decides about the shard of some key unless the number of shards divides its value. -/
theorem Router.exists_shardFor_ne_iff {bit : ℕ} (hbit : bit < 128) :
    (∃ key, r.shardFor key ≠ r.shardFor (flipBit key bit)) ↔ ¬ r.numShards ∣ 2 ^ (bit % 8) := by
  constructor
  · rintro ⟨key, hne⟩ hdvd
    obtain ⟨hclient, hlabel⟩ := agreeLow_flipBit key hbit
    have hk : bit % 8 ≤ 8 := (Nat.mod_lt bit (by decide)).le
    exact hne (r.shardFor_eq_of_agreeLow hk hdvd hclient hlabel).symm
  · intro hdvd
    by_contra hall
    simp only [not_exists, not_not] at hall
    exact hdvd (dvd_of_hidden hbit fun key => r.shardFor_eq_iff.mp (hall key))

/-- **Which bits of a key routing looks at**, and which keys are forced onto one shard. -/
theorem Router.shardFor_bits :
    (∀ bit < 128, (∃ key, r.shardFor key ≠ r.shardFor (flipBit key bit)) ↔
      ¬ r.numShards ∣ 2 ^ (bit % 8)) ∧
    ∀ k < 8, (∀ key key' : Label, AgreeLow k key.clientId.toNat key'.clientId.toNat →
      AgreeLow k key.label.toNat key'.label.toNat → r.shardFor key = r.shardFor key') ↔
        r.numShards ∣ 2 ^ k := by
  refine ⟨fun bit hbit => r.exists_shardFor_ne_iff hbit, fun k hk => ⟨fun hall => ?_, ?_⟩⟩
  · -- bit `k` of the client id would decide about a key of such a family
    have hmod : k % 8 = k := Nat.mod_eq_of_lt hk
    have hbit : k < 128 := by omega
    by_contra hdvd
    obtain ⟨key, hne⟩ := (r.exists_shardFor_ne_iff hbit).mpr (hmod.symm ▸ hdvd)
    obtain ⟨hclient, hlabel⟩ := agreeLow_flipBit key hbit
    rw [hmod] at hclient hlabel
    exact hne (hall _ _ hclient hlabel).symm
  · exact fun hdvd _ _ => r.shardFor_eq_of_agreeLow hk.le hdvd

theorem two_lt_int : 2 < 2 ^ 63 := by decide

/-- A router of two shards. -/
def twoShards : Router := ⟨2, Nat.two_pos, two_lt_int⟩

/-- With two shards, bit 1 of the client id never decides about the shard. -/
theorem bit_one_hidden :
    ¬ ∃ key, twoShards.shardFor key ≠ twoShards.shardFor (flipBit key 1) := by
  rw [twoShards.exists_shardFor_ne_iff (by decide)]
  decide

end VectorSearch.Coordinator
