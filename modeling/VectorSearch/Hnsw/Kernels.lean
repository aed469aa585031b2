import Mathlib.Algebra.BigOperators.Fin
import Mathlib.Algebra.BigOperators.Intervals
import Mathlib.Data.List.GetD
import VectorSearch.Hnsw.Platform

/-! # The distance kernels, eight lanes at a time

Where the compiler has AVX, `dotProduct` and `l2SquaredDistance` add up blocks of eight elements lane
by lane, fold the lanes with two horizontal adds and finish with a scalar loop.  Both branches are
embedded here with the elements that they read, over arrays given as functions of the index.  An
array of floats has fewer than `2 ^ 62` elements, so `i + 8` does not wrap round.

Over a ring, where nothing is rounded, both branches compute the sum over the array and read each of
its elements once (`kernels_exact`); on lists the scalar ones are those of `Hnsw/Platform.lean`
(`scalar_eq_dotProduct`, `scalar_eq_l2SquaredDistance`). -/

namespace VectorSearch.Hnsw

/-! ### Reading arrays -/

/-- The two array arguments of a kernel. -/
inductive Operand where
  | a
  | b
deriving DecidableEq

abbrev Arrays (F : Type) := Operand → ℕ → F

/-- Two lists as arrays. -/
def Arrays.ofLists {F : Type} [FloatOps F] (a b : List F) : Arrays F
  | .a, i => a.getD i FloatOps.zero
  | .b, i => b.getD i FloatOps.zero

/-- A value and the elements that were read on the way to it. -/
structure Reading (α : Type) where
  val : α
  reads : List (Operand × ℕ)

namespace Reading

instance : Monad Reading where
  pure x := ⟨x, []⟩
  bind x f := ⟨(f x.val).val, x.reads ++ (f x.val).reads⟩

variable {α β : Type}

@[simp] theorem pure_val (x : α) : (pure x : Reading α).val = x := rfl
@[simp] theorem pure_reads (x : α) : (pure x : Reading α).reads = [] := rfl
@[simp] theorem bind_val (x : Reading α) (f : α → Reading β) : (x >>= f).val = (f x.val).val := rfl
@[simp] theorem bind_reads (x : Reading α) (f : α → Reading β) :
    (x >>= f).reads = x.reads ++ (f x.val).reads := rfl

/-- `x[i]` -/
def load {F : Type} (m : Arrays F) (x : Operand) (i : ℕ) : Reading F := ⟨m x i, [(x, i)]⟩

end Reading

/-! ### Lanes -/

/-- `__m256` -/
abbrev M256 (F : Type) := Fin 8 → F
/-- `__m128` -/
abbrev M128 (F : Type) := Fin 4 → F

namespace Lanes
variable {F : Type}

/-- `_mm256_loadu_ps(x + i)` -/
def loadu (m : Arrays F) (x : Operand) (i : ℕ) : Reading (M256 F) :=
  ⟨fun j => m x (i + j), (List.range 8).map fun j => (x, i + j)⟩

/-- `_mm256_castps256_ps128`: the lower four lanes. -/
def castps128 (v : M256 F) : M128 F := fun j => v (j.castAdd 4)

/-- `_mm256_extractf128_ps(v, 1)`: the upper four lanes. -/
def extractf128 (v : M256 F) : M128 F := fun j => v (j.natAdd 4)

/-- `_mm_cvtss_f32` -/
def cvtss (v : M128 F) : F := v 0

variable [FloatOps F]

/-- `_mm256_setzero_ps` -/
def setzero : M256 F := fun _ => FloatOps.zero

/-- `_mm256_add_ps` and `_mm_add_ps` -/
def add {k : ℕ} (v w : Fin k → F) : Fin k → F := fun j => FloatOps.add (v j) (w j)

/-- `_mm256_sub_ps` -/
def sub (v w : M256 F) : M256 F := fun j => FloatOps.sub (v j) (w j)

/-- `_mm256_mul_ps` -/
def mul (v w : M256 F) : M256 F := fun j => FloatOps.mul (v j) (w j)

theorem mul_apply (v w : M256 F) (j : Fin 8) : mul v w j = FloatOps.mul (v j) (w j) := rfl

/-- `_mm_hadd_ps` -/
def hadd (v w : M128 F) : M128 F :=
  ![FloatOps.add (v 0) (v 1), FloatOps.add (v 2) (v 3), FloatOps.add (w 0) (w 1),
    FloatOps.add (w 2) (w 3)]

end Lanes

/-! ### Kernels -/

section
variable {F : Type} [FloatOps F]

/-- The scalar loop: add `term a[i] b[i]` for the indices from `i` on. -/
def scalarLoop (term : F → F → F) (m : Arrays F) (n i : ℕ) (res : F) : Reading F :=
  if i < n then do
    let x ← Reading.load m .a i
    let y ← Reading.load m .b i
    scalarLoop term m n (i + 1) (FloatOps.add res (term x y))
  else pure res
termination_by n - i

/-- The loop over blocks: where it stops and the eight sums. -/
def blockLoop (terms : M256 F → M256 F → M256 F) (m : Arrays F) (n i : ℕ) (acc : M256 F) :
    Reading (ℕ × M256 F) :=
  if i + 8 ≤ n then do
    let x ← Lanes.loadu m .a i
    let y ← Lanes.loadu m .b i
    blockLoop terms m n (i + 8) (Lanes.add acc (terms x y))
  else pure (i, acc)
termination_by n - i

/-- The branch with AVX. -/
def avxKernel (terms : M256 F → M256 F → M256 F) (term : F → F → F) (m : Arrays F) (n : ℕ) :
    Reading F := do
  let (i, acc) ← blockLoop terms m n 0 Lanes.setzero
  let lo := Lanes.add (Lanes.castps128 acc) (Lanes.extractf128 acc)
  let lo := Lanes.hadd lo lo
  let lo := Lanes.hadd lo lo
  scalarLoop term m n i (Lanes.cvtss lo)

/-- The branch without. -/
def scalarKernel (term : F → F → F) (m : Arrays F) (n : ℕ) : Reading F :=
  scalarLoop term m n 0 FloatOps.zero

/-- `d * d` for `d = a[i] - b[i]` -/
def squaredDiff (x y : F) : F :=
  let d := FloatOps.sub x y
  FloatOps.mul d d

def squaredDiffs (x y : M256 F) : M256 F :=
  let d := Lanes.sub x y
  Lanes.mul d d

theorem squaredDiffs_apply (x y : M256 F) (j : Fin 8) :
    squaredDiffs x y j = squaredDiff (x j) (y j) := rfl

/-- `dotProduct` with AVX -/
def dotProductAvx (m : Arrays F) (n : ℕ) : Reading F := avxKernel Lanes.mul FloatOps.mul m n
/-- `dotProduct` without -/
def dotProductScalar (m : Arrays F) (n : ℕ) : Reading F := scalarKernel FloatOps.mul m n
/-- `l2SquaredDistance` with AVX -/
def l2SquaredDistanceAvx (m : Arrays F) (n : ℕ) : Reading F := avxKernel squaredDiffs squaredDiff m n
/-- `l2SquaredDistance` without -/
def l2SquaredDistanceScalar (m : Arrays F) (n : ℕ) : Reading F := scalarKernel squaredDiff m n

end

/-! ### What is read -/

/-- A block is read once. -/
theorem count_loadu {F : Type} (m : Arrays F) (x y : Operand) (i k : ℕ) :
    (Lanes.loadu m x i).reads.count (y, k) = if x = y ∧ i ≤ k ∧ k < i + 8 then 1 else 0 := by
  have hinj : Function.Injective fun j => (x, i + j) := fun j j' h => by simpa using h
  have hmem : (y, k) ∈ (Lanes.loadu m x i).reads ↔ x = y ∧ i ≤ k ∧ k < i + 8 := by
    simp only [Lanes.loadu, List.mem_map, List.mem_range, Prod.mk.injEq]
    constructor
    · rintro ⟨j, hj, hxy, rfl⟩
      exact ⟨hxy, by omega, by omega⟩
    · rintro ⟨hxy, hle, hlt⟩
      exact ⟨k - i, by omega, hxy, by omega⟩
  have hnodup : (Lanes.loadu m x i).reads.Nodup := List.nodup_range.map hinj
  rw [hnodup.count]
  exact if_congr hmem rfl rfl

section
variable {F : Type} [FloatOps F]

/-- The scalar loop reads the elements from `i` on. -/
theorem count_scalarLoop (term : F → F → F) (m : Arrays F) (n i : ℕ) (res : F) (x : Operand)
    (k : ℕ) : (scalarLoop term m n i res).reads.count (x, k) = if i ≤ k ∧ k < n then 1 else 0 := by
  fun_induction scalarLoop term m n i res with
  | case1 i res hi ih =>
      simp only [Reading.bind_reads, Reading.load, List.count_append, ih]
      cases x <;> simp [List.count_singleton] <;> split_ifs <;> omega
  | case2 i res hi =>
      rw [if_neg (by omega)]
      rfl

/-- The loop over blocks reads the elements up to where it stops, which is not beyond the end. -/
theorem count_blockLoop (terms : M256 F → M256 F → M256 F) (m : Arrays F) (n i : ℕ) (acc : M256 F)
    (x : Operand) (k : ℕ) (hi : i ≤ n) :
    i ≤ (blockLoop terms m n i acc).val.1 ∧ (blockLoop terms m n i acc).val.1 ≤ n ∧
      (blockLoop terms m n i acc).reads.count (x, k) =
        if i ≤ k ∧ k < (blockLoop terms m n i acc).val.1 then 1 else 0 := by
  fun_induction blockLoop terms m n i acc with
  | case1 i acc hblock ih =>
      obtain ⟨hle, hn, hcount⟩ := ih (Lanes.loadu m .a i).val (Lanes.loadu m .b i).val hblock
      simp only [Reading.bind_val, Reading.bind_reads, List.count_append, count_loadu, hcount]
      refine ⟨by omega, hn, ?_⟩
      cases x <;> simp <;> split_ifs <;> omega
  | case2 i acc hblock =>
      refine ⟨le_rfl, hi, ?_⟩
      rw [if_neg (by simp)]
      rfl

end

/-! ### What is computed -/

/-- The float operations are those of a ring: nothing is rounded. -/
structure ExactOps (R : Type) [CommRing R] [FloatOps R] : Prop where
  zero : (FloatOps.zero : R) = 0
  add : ∀ x y : R, FloatOps.add x y = x + y
  sub : ∀ x y : R, FloatOps.sub x y = x - y
  mul : ∀ x y : R, FloatOps.mul x y = x * y

section
variable {R : Type} [CommRing R] [FloatOps R]

open Finset

theorem scalarLoop_val (h : ExactOps R) (term : R → R → R) (m : Arrays R) (n i : ℕ) (res : R) :
    (scalarLoop term m n i res).val = res + ∑ k ∈ Ico i n, term (m .a k) (m .b k) := by
  fun_induction scalarLoop term m n i res with
  | case1 i res hi ih =>
      simp only [Reading.bind_val, Reading.load, ih]
      rw [h.add, sum_eq_sum_Ico_succ_bot hi, add_assoc]
  | case2 i res hi =>
      rw [Ico_eq_empty_of_le (by omega), sum_empty, add_zero]
      rfl

/-- The eight sums of the loop over blocks add up to the sum over the blocks. -/
theorem blockLoop_val (h : ExactOps R) {terms : M256 R → M256 R → M256 R} {term : R → R → R}
    (hterms : ∀ x y j, terms x y j = term (x j) (y j)) (m : Arrays R) (n i : ℕ) (acc : M256 R) :
    ∑ j, (blockLoop terms m n i acc).val.2 j =
      ∑ j, acc j + ∑ k ∈ Ico i (blockLoop terms m n i acc).val.1, term (m .a k) (m .b k) := by
  fun_induction blockLoop terms m n i acc with
  | case1 i acc hblock ih =>
      have hstop := (count_blockLoop terms m n (i + 8)
        (Lanes.add acc (terms (Lanes.loadu m .a i).val (Lanes.loadu m .b i).val)) .a 0 hblock).1
      have hlanes : ∑ j, Lanes.add acc (terms (Lanes.loadu m .a i).val (Lanes.loadu m .b i).val) j =
          ∑ j, acc j + ∑ k ∈ Ico i (i + 8), term (m .a k) (m .b k) := by
        simp only [Lanes.add, h.add, sum_add_distrib, hterms]
        rw [sum_Ico_eq_sum_range, Nat.add_sub_cancel_left, ← Fin.sum_univ_eq_sum_range]
        rfl
      simp only [Reading.bind_val, ih, hlanes, add_assoc]
      rw [sum_Ico_consecutive _ (by omega) hstop]
  | case2 i acc hblock => simp

omit [CommRing R] in
theorem cvtss_hadd_hadd (w : M128 R) :
    Lanes.cvtss (Lanes.hadd (Lanes.hadd w w) (Lanes.hadd w w)) =
      FloatOps.add (FloatOps.add (w 0) (w 1)) (FloatOps.add (w 2) (w 3)) := rfl

/-- The horizontal adds sum up the eight lanes. -/
theorem fold_lanes (h : ExactOps R) (acc : M256 R) :
    let lo := Lanes.add (Lanes.castps128 acc) (Lanes.extractf128 acc)
    Lanes.cvtss (Lanes.hadd (Lanes.hadd lo lo) (Lanes.hadd lo lo)) = ∑ j, acc j := by
  intro lo
  have hlo : lo 0 = acc 0 + acc 4 ∧ lo 1 = acc 1 + acc 5 ∧ lo 2 = acc 2 + acc 6 ∧
      lo 3 = acc 3 + acc 7 := ⟨h.add _ _, h.add _ _, h.add _ _, h.add _ _⟩
  rw [cvtss_hadd_hadd, h.add, h.add, h.add, hlo.1, hlo.2.1, hlo.2.2.1, hlo.2.2.2, Fin.sum_univ_eight]
  ring

/-- The reading computes `value` and reads the elements below `n` of both arrays, each once. -/
structure Computes (r : Reading R) (value : R) (n : ℕ) : Prop where
  val_eq : r.val = value
  count_eq : ∀ x k, r.reads.count (x, k) = if k < n then 1 else 0

theorem scalarKernel_computes (h : ExactOps R) (term : R → R → R) (m : Arrays R) (n : ℕ) :
    Computes (scalarKernel term m n) (∑ k ∈ range n, term (m .a k) (m .b k)) n where
  val_eq := by rw [scalarKernel, scalarLoop_val h, h.zero, zero_add, range_eq_Ico]
  count_eq x k := by simp [scalarKernel, count_scalarLoop]

theorem avxKernel_computes (h : ExactOps R) {terms : M256 R → M256 R → M256 R} {term : R → R → R}
    (hterms : ∀ x y j, terms x y j = term (x j) (y j)) (m : Arrays R) (n : ℕ) :
    Computes (avxKernel terms term m n) (∑ k ∈ range n, term (m .a k) (m .b k)) n := by
  have hval := blockLoop_val h hterms m n 0 Lanes.setzero
  have hcount := count_blockLoop terms m n 0 Lanes.setzero
  set blocks := blockLoop terms m n 0 Lanes.setzero with hblocks
  have hstop : blocks.val.1 ≤ n := (hcount .a 0 (Nat.zero_le n)).2.1
  have hsum : ∑ j, (Lanes.setzero : M256 R) j = 0 := by simp [Lanes.setzero, h.zero]
  have hkernel : avxKernel terms term m n =
      blocks >>= fun r => scalarLoop term m n r.1 (
        let lo := Lanes.add (Lanes.castps128 r.2) (Lanes.extractf128 r.2)
        Lanes.cvtss (Lanes.hadd (Lanes.hadd lo lo) (Lanes.hadd lo lo))) := rfl
  rw [hkernel]
  refine ⟨?_, fun x k => ?_⟩
  · rw [Reading.bind_val, scalarLoop_val h, fold_lanes h, hval, hsum, zero_add,
      sum_Ico_consecutive _ (Nat.zero_le _) hstop, range_eq_Ico]
  · rw [Reading.bind_reads, List.count_append, (hcount x k (Nat.zero_le n)).2.2, count_scalarLoop]
    split_ifs <;> omega

theorem avxKernel_eq_scalarKernel (h : ExactOps R) {terms : M256 R → M256 R → M256 R}
    {term : R → R → R} (hterms : ∀ x y j, terms x y j = term (x j) (y j)) (m : Arrays R) (n : ℕ) :
    (avxKernel terms term m n).val = (scalarKernel term m n).val :=
  (avxKernel_computes h hterms m n).val_eq.trans (scalarKernel_computes h term m n).val_eq.symm

/-- **Without rounding the kernels of both branches compute the sums**, from exactly the elements of
the arrays. -/
theorem kernels_exact (h : ExactOps R) (m : Arrays R) (n : ℕ) :
    Computes (dotProductAvx m n) (∑ k ∈ range n, m .a k * m .b k) n ∧
    Computes (dotProductScalar m n) (∑ k ∈ range n, m .a k * m .b k) n ∧
    Computes (l2SquaredDistanceAvx m n) (∑ k ∈ range n, (m .a k - m .b k) ^ 2) n ∧
    Computes (l2SquaredDistanceScalar m n) (∑ k ∈ range n, (m .a k - m .b k) ^ 2) n := by
  have hdot : ∀ k, FloatOps.mul (m .a k) (m .b k) = m .a k * m .b k := fun k => h.mul _ _
  have hdiff : ∀ k, squaredDiff (m .a k) (m .b k) = (m .a k - m .b k) ^ 2 := fun k => by
    rw [squaredDiff, h.mul, h.sub, sq]
  simp only [← hdot, ← hdiff]
  exact ⟨avxKernel_computes h Lanes.mul_apply m n, scalarKernel_computes h _ m n,
    avxKernel_computes h squaredDiffs_apply m n, scalarKernel_computes h _ m n⟩

end

section
open StandIn

/-- A block and a tail of one element. -/
theorem kernels_exact_nine :
    Computes (dotProductAvx (.ofLists [1, 2, 3, 4, 5, 6, 7, 8, 9] [2, 0, 2, 0, 2, 0, 2, 0, 2]) 9)
      (∑ k ∈ Finset.range 9, Arrays.ofLists [1, 2, 3, 4, 5, 6, 7, 8, 9] [2, 0, 2, 0, 2, 0, 2, 0, 2] .a k *
        Arrays.ofLists [1, 2, 3, 4, 5, 6, 7, 8, 9] [2, 0, 2, 0, 2, 0, 2, 0, 2] .b k : ℤ) 9 :=
  (kernels_exact ⟨rfl, fun _ _ => rfl, fun _ _ => rfl, fun _ _ => rfl⟩ _ 9).1

end

/-! ### On lists -/

section
variable {F : Type} [FloatOps F]

theorem scalarLoop_ofLists (term : F → F → F) {a b : List F} (hlen : b.length = a.length) (i : ℕ)
    (res : F) : (scalarLoop term (.ofLists a b) a.length i res).val =
      ((a.zip b).drop i).foldl (fun res x => FloatOps.add res (term x.1 x.2)) res := by
  fun_induction scalarLoop term (.ofLists a b) a.length i res with
  | case1 i res hi ih =>
      have hzip : i < (a.zip b).length := by
        rw [List.length_zip]
        omega
      rw [List.drop_eq_getElem_cons hzip, List.foldl_cons, ← ih, List.getElem_zip]
      simp only [Reading.bind_val, Reading.load, Arrays.ofLists]
      rw [List.getD_eq_getElem a _ hi, List.getD_eq_getElem b _ (hlen ▸ hi)]
  | case2 i res hi =>
      rw [List.drop_eq_nil_of_le (by rw [List.length_zip]; omega)]
      rfl

theorem scalar_eq_dotProduct {a b : List F} (hlen : b.length = a.length) :
    (dotProductScalar (.ofLists a b) a.length).val = dotProduct a b :=
  scalarLoop_ofLists FloatOps.mul hlen 0 FloatOps.zero

theorem scalar_eq_l2SquaredDistance {a b : List F} (hlen : b.length = a.length) :
    (l2SquaredDistanceScalar (.ofLists a b) a.length).val = l2SquaredDistance a b :=
  scalarLoop_ofLists squaredDiff hlen 0 FloatOps.zero

end

section
variable {R : Type} [CommRing R] [FloatOps R] {a b : List R}

/-- Without rounding, the branches with AVX compute the distances of the model. -/
theorem avx_eq_dotProduct (h : ExactOps R) (hlen : b.length = a.length) :
    (dotProductAvx (.ofLists a b) a.length).val = dotProduct a b := by
  rw [dotProductAvx, avxKernel_eq_scalarKernel h Lanes.mul_apply]
  exact scalar_eq_dotProduct hlen

theorem avx_eq_l2SquaredDistance (h : ExactOps R) (hlen : b.length = a.length) :
    (l2SquaredDistanceAvx (.ofLists a b) a.length).val = l2SquaredDistance a b := by
  rw [l2SquaredDistanceAvx, avxKernel_eq_scalarKernel h squaredDiffs_apply]
  exact scalar_eq_l2SquaredDistance hlen

end

end VectorSearch.Hnsw
