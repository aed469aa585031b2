import VectorSearch.Lib.PriorityQueue

/-! # Floats, distances and what else the platform provides

The index is generic in its component type `F`.  `FloatOps F` names the `float` operations that the
code uses and says nothing about rounding; the distance kernels and `normalizeInPlace` are written
over it (the scalar branches; the compiler may take the eight-lane ones).

`Platform F` adds the two pieces of the standard library whose results the standard leaves partly
open: `std::priority_queue`, which may put any of several equal elements on top, and the level
draws of `std::mt19937`. -/

namespace VectorSearch.Hnsw

/-- The `float` operations of the index. -/
class FloatOps (F : Type) where
  zero : F
  one : F
  /-- `1e-30f` -/
  tiny : F
  /-- `std::numeric_limits<dist_t>::max()` -/
  maxFinite : F
  add : F → F → F
  sub : F → F → F
  mul : F → F → F
  div : F → F → F
  sqrt : F → F
  lt : F → F → Bool
  le : F → F → Bool

/-- `std::pair<dist_t, idx_t>` -/
abbrev Cand (F : Type) := F × ℕ

section
variable {F : Type} [FloatOps F]

/-- `dotProduct` -/
def dotProduct (a b : List F) : F :=
  (a.zip b).foldl (fun res x => FloatOps.add res (FloatOps.mul x.1 x.2)) FloatOps.zero

/-- `l2SquaredDistance` -/
def l2SquaredDistance (a b : List F) : F :=
  (a.zip b).foldl (fun res x =>
    let d := FloatOps.sub x.1 x.2
    FloatOps.add res (FloatOps.mul d d)) FloatOps.zero

/-- `cosineDistance` -/
def cosineDistance (a b : List F) : F := FloatOps.sub FloatOps.one (dotProduct a b)

/-- `normalizeInPlace`; a vector of almost no length stays as it is. -/
def normalizeInPlace (v : List F) : List F :=
  let norm := FloatOps.sqrt (dotProduct v v)
  if FloatOps.le norm FloatOps.tiny then v
  else
    let inv := FloatOps.div FloatOps.one norm
    v.map fun x => FloatOps.mul x inv

@[simp] theorem length_normalizeInPlace (v : List F) : (normalizeInPlace v).length = v.length := by
  simp only [normalizeInPlace]
  split_ifs
  · rfl
  · exact List.length_map _

/-- The comparator `FartherFirst` of `MaxHeap`. -/
def fartherFirst (a b : Cand F) : Bool := FloatOps.lt a.1 b.1

/-- The comparator `CloserFirst` of `MinHeap`. -/
def closerFirst (a b : Cand F) : Bool := FloatOps.lt b.1 a.1

/-- `operator<` of `std::pair<dist_t, idx_t>` -/
def candLt (a b : Cand F) : Bool :=
  FloatOps.lt a.1 b.1 || (!FloatOps.lt b.1 a.1 && decide (a.2 < b.2))

end

/-- The library code under the index. -/
class Platform (F : Type) extends FloatOps F where
  /-- `std::priority_queue<Cand>` with a comparator -/
  heap : (comp : Cand F → Cand F → Bool) → PriorityQueue (Cand F) comp
  /-- the level that `randomLevel` makes of the `n`-th draw of `rng_`, for a seed and an `M` -/
  levelDraw : (seed : UInt64) → (M : ℕ) → (n : ℕ) → ℤ
  /-- a level is an `int`, and at most `-ln(DBL_MIN) / ln 2` -/
  levelDraw_bounds : ∀ seed M n, -2 ^ 31 ≤ levelDraw seed M n ∧ levelDraw seed M n ≤ 1022

section
variable (F : Type) [Platform F]

/-- `MaxHeap` -/
abbrev maxHeap : PriorityQueue (Cand F) fartherFirst := Platform.heap fartherFirst

/-- `MinHeap` -/
abbrev minHeap : PriorityQueue (Cand F) closerFirst := Platform.heap closerFirst

end

/-! ### Stand-ins for concrete runs -/

namespace StandIn

/-- Exact integers, for runs whose distances are computed. -/
scoped instance ints : Platform ℤ where
  zero := 0
  one := 1
  tiny := 0
  maxFinite := 2 ^ 128
  add := (· + ·)
  sub := (· - ·)
  mul := (· * ·)
  div := (· / ·)
  sqrt x := Nat.sqrt x.toNat
  lt a b := decide (a < b)
  le a b := decide (a ≤ b)
  heap comp := listQueue (Cand ℤ) comp
  levelDraw _ _ _ := 0
  levelDraw_bounds _ _ _ := by decide

/-- The order of the integers is one. -/
theorem strictWeak_ints : StrictWeak (FloatOps.lt (F := ℤ)) where
  asymm {a b} h := by
    have hab : a < b := of_decide_eq_true h
    exact decide_eq_false (not_lt.mpr hab.le)
  negTrans {a b c} hab hbc := by
    have hab : ¬ a < b := of_decide_eq_false hab
    have hbc : ¬ b < c := of_decide_eq_false hbc
    exact decide_eq_false (not_lt.mpr ((not_lt.mp hbc).trans (not_lt.mp hab)))

/-- Bit patterns taken as integers, for runs in which no distance is computed but that of zeros. -/
scoped instance bits : Platform UInt32 where
  zero := 0
  one := 1
  tiny := 0
  maxFinite := 0x7F7FFFFF
  add := (· + ·)
  sub := (· - ·)
  mul := (· * ·)
  div := (· / ·)
  sqrt := id
  lt a b := decide (a < b)
  le a b := decide (a ≤ b)
  heap comp := listQueue (Cand UInt32) comp
  levelDraw _ _ _ := 0
  levelDraw_bounds _ _ _ := by decide

end StandIn

end VectorSearch.Hnsw
