import VectorSearch.Hnsw.Platform
import VectorSearch.Hnsw.KeyMap

/-! # The index: its fields and the key store

`Index` holds the fields of the C++ class in three groups.  `Params` are the constructor's
arguments with the checks it makes.  `Store` is the key store: the vector arena, the labels, the
tombstones, the counters and the label map.  `Graph` is everything that links nodes; its operations
are in `Hnsw/Graph.lean`.  Arrays are functions of the position, so that an element that was never
written has its initial value.

`Store.keyMap` is what a store means: the vector and the tombstone of each key. -/

namespace VectorSearch.Hnsw

inductive Space where
  | cosine
  | l2
deriving DecidableEq, Repr

def kMaxDegree : ℕ := 256
/-- `std::numeric_limits<idx_t>::max()` -/
def kNone : ℕ := 2 ^ 32 - 1

/-! ### Parameters -/

/-- Parameters that the constructor accepts and whose `M * 2` does not wrap round. -/
structure Params where
  space : Space
  dim : ℕ
  maxElements : ℕ
  M : ℕ
  efConstruction : ℕ
  dim_pos : 0 < dim
  maxElements_pos : 0 < maxElements
  M_pos : 0 < M
  M_le : M * 2 ≤ kMaxDegree
  M_le_ef : M ≤ efConstruction
  /-- the sizes are `size_t` -/
  dim_lt : dim < 2 ^ 64
  maxElements_lt : maxElements < 2 ^ 64
  ef_lt : efConstruction < 2 ^ 64
deriving DecidableEq

namespace Params

theorem M_le_128 (p : Params) : p.M ≤ 128 := by
  have hM := p.M_le
  rw [kMaxDegree] at hM
  omega

def maxM (p : Params) : ℕ := p.M
def maxM0 (p : Params) : ℕ := p.M * 2
def strideL0 (p : Params) : ℕ := p.maxM0 + 1
def strideUpper (p : Params) : ℕ := p.maxM + 1

/-- The most links a node may have on a level. -/
def maxDegree (p : Params) (level : ℤ) : ℕ := if level = 0 then p.maxM0 else p.maxM

end Params

/-- The parameters of an index for one vector of one coordinate. -/
def Params.smallest : Params where
  space := .l2
  dim := 1
  maxElements := 1
  M := 2
  efConstruction := 2
  dim_pos := by decide
  maxElements_pos := by decide
  M_pos := by decide
  M_le := by decide
  M_le_ef := by decide
  dim_lt := by decide
  maxElements_lt := by decide
  ef_lt := by decide

inductive InvalidArgument where
  /-- "dim must be > 0" -/
  | dim
  /-- "maxElements must be > 0" -/
  | maxElements
  /-- "M must be in 1..kMaxDegree/2" -/
  | M
  /-- a size that is no `size_t` -/
  | size
  /-- no error of the constructor: it accepts an `M` of `2 ^ 63` or more whose `M * 2` wraps round to
  a small degree, and such an index is not modelled -/
  | wraps
deriving DecidableEq, Repr

/-- The checks of the constructor, with `M * 2` as a `size_t`. -/
def mkParams (space : Space) (dim maxElements M efConstruction : ℕ) :
    Except InvalidArgument Params :=
  if hd : dim = 0 then .error .dim
  else if hm : maxElements = 0 then .error .maxElements
  else if hM : M = 0 ∨ kMaxDegree < M * 2 % 2 ^ 64 then .error .M
  else if hs : dim < 2 ^ 64 ∧ maxElements < 2 ^ 64 ∧ M < 2 ^ 64 ∧ efConstruction < 2 ^ 64 then
    if hw : M < 2 ^ 63 then
      .ok {
        space, dim, maxElements, M
        efConstruction := max efConstruction M
        dim_pos := Nat.pos_of_ne_zero hd
        maxElements_pos := Nat.pos_of_ne_zero hm
        M_pos := by omega
        M_le := by omega
        M_le_ef := le_max_right _ _
        dim_lt := hs.1
        maxElements_lt := hs.2.1
        ef_lt := max_lt hs.2.2.2 hs.2.2.1 }
    else .error .wraps
  else .error .size

theorem mkParams_ok {space : Space} {dim maxElements M efConstruction : ℕ} {p : Params}
    (h : mkParams space dim maxElements M efConstruction = .ok p) :
    p.space = space ∧ p.dim = dim ∧ p.maxElements = maxElements ∧ p.M = M := by
  unfold mkParams at h
  split_ifs at h
  cases h
  exact ⟨rfl, rfl, rfl, rfl⟩

/-! ### The fields -/

/-- One link block: the number of links, then the links. -/
abbrev Block := ℕ → ℕ

structure Store (F : Type) where
  data : ℕ → List F
  labels : ℕ → Label
  deleted : ℕ → Bool
  count : ℕ
  numDeleted : ℕ
  labelToId : Label → Option ℕ

structure Graph where
  levels : ℕ → ℤ
  linksL0 : ℕ → Block
  /-- the blocks of `linksUpper_[id]`, counted from level 1 -/
  linksUpper : ℕ → ℕ → Block
  /-- `linksUpper_[id].size()` -/
  upperSize : ℕ → ℕ
  entryPoint : ℕ
  maxLevel : ℤ

/-- The state of `rng_`: its seed and the number of draws so far. -/
structure Rng where
  seed : UInt64
  drawn : ℕ
deriving DecidableEq, Repr

structure Index (F : Type) where
  params : Params
  store : Store F
  graph : Graph
  rng : Rng

def Store.empty (F : Type) : Store F where
  data _ := []
  labels _ := ⟨0, 0⟩
  deleted _ := false
  count := 0
  numDeleted := 0
  labelToId _ := none

def Graph.empty : Graph where
  levels _ := 0
  linksL0 _ _ := 0
  linksUpper _ _ _ := 0
  upperSize _ := 0
  entryPoint := kNone
  maxLevel := 0

/-- The constructor `Index(space, dim, maxElements, M, efConstruction, seed)` after its checks. -/
def Index.new {F : Type} (params : Params) (seed : UInt64) : Index F :=
  ⟨params, Store.empty F, Graph.empty, ⟨seed, 0⟩⟩

/-! ### The key store -/

namespace Store
variable {F : Type}

/-- `labelToId_.count(label)` -/
def hasLabel (s : Store F) (label : Label) : Bool := (s.labelToId label).isSome

/-- `static_cast<idx_t>(count_.fetch_add(1))`: the id and the store with the new count. -/
def fetchAdd (s : Store F) : ℕ × Store F := (s.count % 2 ^ 32, { s with count := s.count + 1 })

/-- `count_.fetch_sub(1)` -/
def fetchSub (s : Store F) : Store F := { s with count := s.count - 1 }

/-- Copy the vector in, set the label and clear the tombstone of a node. -/
def writeSlot (s : Store F) (id : ℕ) (vec : List F) (label : Label) : Store F :=
  { s with
    data := Function.update s.data id vec
    labels := Function.update s.labels id label
    deleted := Function.update s.deleted id false }

/-- `labelToId_[label] = id` -/
def registerLabel (s : Store F) (label : Label) (id : ℕ) : Store F :=
  { s with labelToId := Function.update s.labelToId label (some id) }

theorem hasLabel_registerLabel (s : Store F) {label k : Label} (id : ℕ) :
    (s.registerLabel label id).hasLabel k = true ↔ k = label ∨ s.hasLabel k = true := by
  simp only [hasLabel, registerLabel]
  by_cases hk : k = label
  · rw [hk, Function.update_self]
    exact iff_of_true rfl (Or.inl rfl)
  · rw [Function.update_of_ne hk, or_iff_right hk]

/-- `markDeleted` -/
def markDeleted (s : Store F) (label : Label) : Store F × Bool :=
  match s.labelToId label with
  | none => (s, false)
  | some id =>
      if s.deleted id then (s, false)
      else ({ s with
        deleted := Function.update s.deleted id true
        numDeleted := (s.numDeleted + 1) % 2 ^ 64 }, true)

/-- `unmarkDeleted` -/
def unmarkDeleted (s : Store F) (label : Label) : Store F × Bool :=
  match s.labelToId label with
  | none => (s, false)
  | some id =>
      if ! s.deleted id then (s, false)
      else ({ s with
        deleted := Function.update s.deleted id false
        numDeleted := (s.numDeleted + (2 ^ 64 - 1)) % 2 ^ 64 }, true)

end Store

/-! ### What a store means -/

/-- The map from key to stored vector and tombstone. -/
def Store.keyMap {F : Type} (s : Store F) : KeyMap F :=
  fun k => (s.labelToId k).map fun id => (s.data id, s.deleted id)

end VectorSearch.Hnsw
