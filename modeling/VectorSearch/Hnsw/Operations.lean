import VectorSearch.Hnsw.Graph

/-! # addPoint, markDeleted, unmarkDeleted and search

`addPointAt` is `addPoint` with the level that it draws as an argument; `addPoint` draws it from
the generator of the index.  Both are put together from the pieces that the source protects one by
one, in the source's order.

On the key store an insertion is the same whatever its level and whatever the graph
(`store_addPointAt`), so what the calls do to a store is a function of the store alone
(`Store.add`). -/

namespace VectorSearch.Hnsw

section
variable {F : Type} [Platform F]

/-- `rawDistance` -/
def rawDistance (space : Space) (a b : List F) : F :=
  match space with
  | .cosine => cosineDistance a b
  | .l2 => l2SquaredDistance a b

/-- The vector that `addPoint` stores and `search` compares with. -/
def Params.prepare (p : Params) (vec : List F) : List F :=
  match p.space with
  | .cosine => normalizeInPlace vec
  | .l2 => vec

@[simp] theorem Params.length_prepare (p : Params) (vec : List F) :
    (p.prepare vec).length = vec.length := by
  unfold Params.prepare
  cases p.space with
  | cosine => exact length_normalizeInPlace vec
  | l2 => rfl

/-- What `addPoint` throws. -/
inductive AddError where
  | duplicate
  | full
deriving DecidableEq, Repr

def AddError.what : AddError → String
  | .duplicate => "duplicate label; use updatePoint or a new label"
  | .full => "index is full: raise maxElements"

namespace Store

/-- What `addPoint` does to the key store. -/
def add (p : Params) (s : Store F) (vec : List F) (label : Label) : Store F × Except AddError ℕ :=
  if s.hasLabel label then (s, .error .duplicate)
  else
    let (id, s) := s.fetchAdd
    if p.maxElements ≤ id then (s.fetchSub, .error .full)
    else ((s.writeSlot id (p.prepare vec) label).registerLabel label id, .ok id)

end Store

namespace Index

/-- The distance between the vectors of two nodes. -/
def pair (idx : Index F) (a b : ℕ) : F :=
  rawDistance idx.params.space (idx.store.data a) (idx.store.data b)

/-- `addPoint` on an index whose next level draw gives `level`. -/
def addPointAt (idx : Index F) (vec : List F) (label : Label) (level : ℤ) :
    Index F × Except AddError ℕ :=
  if idx.store.hasLabel label then (idx, .error .duplicate)
  else
    let (id, store) := idx.store.fetchAdd
    if idx.params.maxElements ≤ id then ({ idx with store := store.fetchSub }, .error .full)
    else
      let idx := { idx with
        store := (store.writeSlot id (idx.params.prepare vec) label).registerLabel label id }
      ({ idx with graph := idx.graph.link idx.params idx.pair id level }, .ok id)

/-- `randomLevel` -/
def randomLevel (idx : Index F) : ℤ :=
  Platform.levelDraw F idx.rng.seed idx.params.M idx.rng.drawn

/-- `addPoint`; an insertion that fails does not draw. -/
def addPoint (idx : Index F) (vec : List F) (label : Label) : Index F × Except AddError ℕ :=
  match idx.addPointAt vec label idx.randomLevel with
  | (idx', .ok id) => ({ idx' with rng := { idx'.rng with drawn := idx'.rng.drawn + 1 } }, .ok id)
  | (idx', .error e) => (idx', .error e)

def markDeleted (idx : Index F) (label : Label) : Index F × Bool :=
  ({ idx with store := (idx.store.markDeleted label).1 }, (idx.store.markDeleted label).2)

def unmarkDeleted (idx : Index F) (label : Label) : Index F × Bool :=
  ({ idx with store := (idx.store.unmarkDeleted label).1 }, (idx.store.unmarkDeleted label).2)

/-! ### Search -/

/-- The node at which the descent over the upper layers ends. -/
def landing (idx : Index F) (q : List F) : ℕ :=
  idx.graph.descend idx.params (fun id => rawDistance idx.params.space q (idx.store.data id))
    idx.graph.entryPoint idx.graph.maxLevel 0

/-- The heap that the search of layer 0 returns, for a query as it is compared. -/
def searchBase (idx : Index F) (q : List F) (ef : ℕ) : (maxHeap F).Q :=
  Graph.searchLayer idx.params (fun id => rawDistance idx.params.space q (idx.store.data id))
    (fun id => ! idx.store.deleted id) idx.graph (idx.landing q) ef 0

/-- `search` -/
def search (idx : Index F) (query : List F) (k ef : ℕ) : List (Label × F) :=
  if idx.store.count = 0 then []
  else if idx.graph.entryPoint = kNone then []
  else
    let top := idx.searchBase (idx.params.prepare query) (max ef k)
    let top := (maxHeap F).tail^[(maxHeap F).size top - k] top
    ((maxHeap F).drain top).reverse.map fun c => (idx.store.labels c.2, c.1)

def size (idx : Index F) : ℕ := idx.store.count

/-! ### The calls on the key store -/

theorem store_addPointAt (idx : Index F) (vec : List F) (label : Label) (level : ℤ) :
    (idx.addPointAt vec label level).1.store = (idx.store.add idx.params vec label).1 ∧
      (idx.addPointAt vec label level).2 = (idx.store.add idx.params vec label).2 := by
  unfold addPointAt Store.add
  by_cases hlabel : idx.store.hasLabel label = true
  · rw [if_pos hlabel, if_pos hlabel]
    exact ⟨rfl, rfl⟩
  · rw [if_neg hlabel, if_neg hlabel]
    by_cases hfull : idx.params.maxElements ≤ idx.store.fetchAdd.1
    · simp only [if_pos hfull, and_self]
    · simp only [if_neg hfull, and_self]

theorem store_addPoint (idx : Index F) (vec : List F) (label : Label) :
    (idx.addPoint vec label).1.store = (idx.store.add idx.params vec label).1 ∧
      (idx.addPoint vec label).2 = (idx.store.add idx.params vec label).2 := by
  obtain ⟨hs, hr⟩ := idx.store_addPointAt vec label idx.randomLevel
  unfold addPoint
  split
  · rename_i heq
    rw [heq] at hs hr
    exact ⟨hs, hr⟩
  · rename_i heq
    rw [heq] at hs hr
    exact ⟨hs, hr⟩

@[simp] theorem params_addPointAt (idx : Index F) (vec : List F) (label : Label) (level : ℤ) :
    (idx.addPointAt vec label level).1.params = idx.params := by
  simp only [addPointAt]
  split_ifs <;> rfl

@[simp] theorem params_addPoint (idx : Index F) (vec : List F) (label : Label) :
    (idx.addPoint vec label).1.params = idx.params := by
  have h := idx.params_addPointAt vec label idx.randomLevel
  unfold addPoint
  split
  · rename_i heq
    rw [heq] at h
    exact h
  · rename_i heq
    rw [heq] at h
    exact h

end Index

end

end VectorSearch.Hnsw
