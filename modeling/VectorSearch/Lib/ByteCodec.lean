import Mathlib.Tactic
import Mathlib.Data.List.Basic

/-! # Little-endian words in byte strings

A byte string is a list of `UInt8`.  `putLE w n` writes the low `w` bytes of `n`, least
significant byte first, and `getLE` reads a byte string back as a natural number; they are
mutually inverse up to truncation (`getLE_putLE`, `putLE_getLE`).  `slice p a b` is the half-open
window `p[a:b]`.  Arrays of equally wide items are laid out by `List.flatMap` over
`List.range` (`flatMap_slice`). -/

namespace ByteCodec

/-- A byte string. -/
abbrev Bytes := List UInt8

/-- The low `w` bytes of `n`, least significant first. -/
def putLE : ℕ → ℕ → Bytes
  | 0, _ => []
  | w + 1, n => UInt8.ofNat (n % 256) :: putLE w (n / 256)

/-- The number a byte string spells, least significant byte first. -/
def getLE : Bytes → ℕ
  | [] => 0
  | b :: bs => b.toNat + 256 * getLE bs

/-- The window `p[a:b]`. -/
def slice (p : Bytes) (a b : ℕ) : Bytes := (p.drop a).take (b - a)

@[simp] theorem length_putLE : ∀ (w n : ℕ), (putLE w n).length = w
  | 0, _ => rfl
  | w + 1, n => by rw [putLE, List.length_cons, length_putLE w]

theorem getLE_lt : ∀ bs : Bytes, getLE bs < 256 ^ bs.length
  | [] => by simp [getLE]
  | b :: bs => by
      have hb : b.toNat < 256 := b.toNat_lt
      have ih := getLE_lt bs
      rw [getLE, List.length_cons, pow_succ]
      omega

/-- Reading back `w` written bytes gives the number modulo `256 ^ w`. -/
theorem getLE_putLE : ∀ (w n : ℕ), getLE (putLE w n) = n % 256 ^ w
  | 0, n => by simp [putLE, getLE, Nat.mod_one]
  | w + 1, n => by
      have hbyte : (UInt8.ofNat (n % 256)).toNat = n % 256 := by
        rw [UInt8.toNat_ofNat']
        omega
      rw [putLE, getLE, hbyte, getLE_putLE w, pow_succ', Nat.mod_mul]

theorem getLE_putLE_of_lt {w n : ℕ} (h : n < 256 ^ w) : getLE (putLE w n) = n := by
  rw [getLE_putLE, Nat.mod_eq_of_lt h]

/-- A byte string is the writing of the number it spells. -/
theorem putLE_getLE : ∀ bs : Bytes, putLE bs.length (getLE bs) = bs
  | [] => rfl
  | b :: bs => by
      have hb : b.toNat < 256 := b.toNat_lt
      have hlow : (b.toNat + 256 * getLE bs) % 256 = b.toNat := by omega
      have hhigh : (b.toNat + 256 * getLE bs) / 256 = getLE bs := by omega
      rw [getLE, List.length_cons, putLE, hlow, hhigh, putLE_getLE bs, UInt8.ofNat_toNat]

/-! ### Windows -/

theorem length_slice {p : Bytes} {a b : ℕ} (h : b ≤ p.length) : (slice p a b).length = b - a := by
  rw [slice, List.length_take, List.length_drop]
  omega

/-- A window that starts where the first part ends. -/
theorem slice_append_right (p q : Bytes) {a b : ℕ} (ha : a = p.length) :
    slice (p ++ q) a b = q.take (b - a) := by
  rw [slice, ha, List.drop_left]

/-- The window that is exactly the middle part. -/
theorem slice_middle (p q r : Bytes) {a b : ℕ} (ha : a = p.length) (hb : b = a + q.length) :
    slice (p ++ (q ++ r)) a b = q := by
  rw [slice_append_right _ _ ha, hb, Nat.add_sub_cancel_left, List.take_left]

/-- A window inside the second part. -/
theorem slice_append_add (p q : Bytes) (a b : ℕ) :
    slice (p ++ q) (p.length + a) (p.length + b) = slice q a b := by
  rw [slice, slice, List.drop_append, Nat.add_sub_add_left, Nat.add_sub_cancel_left,
    List.drop_of_length_le (Nat.le_add_right _ _), List.nil_append]

/-- Adjacent windows join. -/
theorem slice_append_slice (p : Bytes) {a b c : ℕ} (hab : a ≤ b) (hbc : b ≤ c) :
    slice p a b ++ slice p b c = slice p a c := by
  obtain ⟨i, rfl⟩ := Nat.exists_eq_add_of_le hab
  obtain ⟨j, rfl⟩ := Nat.exists_eq_add_of_le hbc
  rw [slice, slice, slice, Nat.add_sub_cancel_left, Nat.add_sub_cancel_left, Nat.add_assoc,
    Nat.add_sub_cancel_left, List.take_add, List.drop_drop]

theorem putLE_getLE_slice {p : Bytes} {a b : ℕ} (h : b ≤ p.length) :
    putLE (b - a) (getLE (slice p a b)) = slice p a b := by
  have := putLE_getLE (slice p a b)
  rwa [length_slice h] at this

theorem slice_drop (p : Bytes) (k a b : ℕ) : slice (p.drop k) a b = slice p (k + a) (k + b) := by
  rw [slice, slice, List.drop_drop, Nat.add_sub_add_left]

/-! ### Arrays of equally wide items -/

section arrays
variable {w : ℕ} {f : ℕ → Bytes}

theorem length_flatMap_range (hf : ∀ i, (f i).length = w) :
    ∀ n, ((List.range n).flatMap f).length = n * w
  | 0 => by simp
  | n + 1 => by
      rw [List.range_succ, List.flatMap_append, List.length_append, length_flatMap_range hf n,
        List.flatMap_singleton, hf n, Nat.succ_mul]

/-- The first `n` items of an array of items of width `w`. -/
theorem flatMap_slice (w : ℕ) (bs : Bytes) :
    ∀ n, ((List.range n).flatMap fun i => slice bs (i * w) (i * w + w)) = slice bs 0 (n * w)
  | 0 => by
      rw [Nat.zero_mul]
      rfl
  | n + 1 => by
      rw [List.range_succ, List.flatMap_append, List.flatMap_singleton, flatMap_slice w bs n,
        slice_append_slice _ (Nat.zero_le _) (Nat.le_add_right _ _), ← Nat.succ_mul]

end arrays

/-! ### Arrays of words -/

/-- The words of a list, one after another, `w` bytes each. -/
def putWords (w : ℕ) (ns : List ℕ) : Bytes := ns.flatMap (putLE w)

/-- The first `n` words of width `w`. -/
def getWords (w n : ℕ) (bs : Bytes) : List ℕ :=
  (List.range n).map fun i => getLE (slice bs (i * w) (i * w + w))

theorem length_putWords (w : ℕ) : ∀ ns : List ℕ, (putWords w ns).length = ns.length * w
  | [] => by simp [putWords]
  | n :: ns => by
      have ih := length_putWords w ns
      rw [putWords] at ih ⊢
      rw [List.flatMap_cons, List.length_append, length_putLE, ih, List.length_cons, Nat.succ_mul]
      omega

theorem getWords_succ {w : ℕ} (n : ℕ) {a : Bytes} (ha : a.length = w) (bs : Bytes) :
    getWords w (n + 1) (a ++ bs) = getLE a :: getWords w n bs := by
  have hhead : slice (a ++ bs) (0 * w) (0 * w + w) = a := by
    rw [Nat.zero_mul, Nat.zero_add, slice, List.drop_zero, Nat.sub_zero, ← ha, List.take_left]
  rw [getWords, List.range_succ_eq_map, List.map_cons, List.map_map, hhead, getWords]
  congr 1
  apply List.map_congr_left
  intro i _
  have hshift : (i + 1) * w = a.length + i * w := by rw [ha, Nat.succ_mul]; omega
  have hend : a.length + i * w + w = a.length + (i * w + w) := Nat.add_assoc _ _ _
  simp only [Function.comp]
  rw [Nat.succ_eq_add_one, hshift, hend, slice_append_add]

theorem getWords_putWords {w : ℕ} : ∀ {ns : List ℕ}, (∀ n ∈ ns, n < 256 ^ w) →
    getWords w ns.length (putWords w ns) = ns
  | [], _ => rfl
  | n :: ns, h => by
      have hn := h n List.mem_cons_self
      have ih : getWords w ns.length (putWords w ns) = ns :=
        getWords_putWords fun m hm => h m (List.mem_cons_of_mem _ hm)
      rw [putWords, List.flatMap_cons, List.length_cons, getWords_succ _ (length_putLE w n),
        getLE_putLE_of_lt hn, ← putWords, ih]

theorem putWords_getWords {w : ℕ} : ∀ {n : ℕ} {bs : Bytes}, bs.length = n * w →
    putWords w (getWords w n bs) = bs
  | 0, bs, h => by
      rw [Nat.zero_mul] at h
      rw [List.length_eq_zero_iff.mp h]; rfl
  | n + 1, bs, h => by
      rw [Nat.succ_mul] at h
      have hlen : (bs.take w).length = w := by rw [List.length_take]; omega
      have hrest : (bs.drop w).length = n * w := by rw [List.length_drop]; omega
      have ih := putWords_getWords hrest
      have hword : putLE w (getLE (bs.take w)) = bs.take w := by
        have := putLE_getLE (bs.take w)
        rwa [hlen] at this
      rw [putWords] at ih ⊢
      conv_lhs => rw [← List.take_append_drop w bs]
      rw [getWords_succ n hlen, List.flatMap_cons, hword, ih, List.take_append_drop]

end ByteCodec
