import Mathlib.Data.List.GetD
import Mathlib.Data.List.Sort
import VectorSearch.Hnsw.Index

/-! # Link lists, descent, beam search and linking

The operations on `Graph`.  They read the vectors only through distances, so each takes the
distance to the query (`dist`) or between two nodes (`pair`) as a function of ids.

The two `while` loops carry fuel: a descent moves to a strictly nearer node in every round
and a beam search takes a node off its frontier that was never there before, so one round more
than there are nodes is enough. -/

namespace VectorSearch.Hnsw

/-! ### Link blocks -/

namespace Block

def empty : Block := fun _ => 0

/-- The links of a block. -/
def neighbors (b : Block) : List ℕ := (List.range (b 0)).map fun i => b (i + 1)

/-- Append a link: `blk[deg + 1] = id; blk[0] = deg + 1`. -/
def push (b : Block) (id : ℕ) : Block :=
  Function.update (Function.update b (b 0 + 1) id) 0 (b 0 + 1)

/-- Write the first `cap` of the links `ns`; the words behind them stay. -/
def write (b : Block) (cap : ℕ) (ns : List ℕ) : Block := fun w =>
  let n := min ns.length cap
  if w = 0 then n else if w ≤ n then ns.getD (w - 1) 0 else b w

@[simp] theorem neighbors_empty : empty.neighbors = [] := rfl

theorem length_neighbors (b : Block) : b.neighbors.length = b 0 := by
  rw [neighbors, List.length_map, List.length_range]

theorem neighbors_push (b : Block) (id : ℕ) : (b.push id).neighbors = b.neighbors ++ [id] := by
  have hdeg : b.push id 0 = b 0 + 1 := Function.update_self _ _ _
  have hlast : b.push id (b 0 + 1) = id := by
    rw [push, Function.update_of_ne (by omega), Function.update_self]
  have hold : ∀ i ∈ List.range (b 0), b.push id (i + 1) = b (i + 1) := by
    intro i hi
    rw [List.mem_range] at hi
    rw [push, Function.update_of_ne (by omega), Function.update_of_ne (by omega)]
  rw [neighbors, hdeg, List.range_succ, List.map_append, List.map_congr_left hold]
  simp only [List.map_cons, List.map_nil, hlast, neighbors]

theorem neighbors_write (b : Block) (cap : ℕ) (ns : List ℕ) :
    (b.write cap ns).neighbors = ns.take cap := by
  apply List.ext_getElem
  · rw [length_neighbors, List.length_take]
    simp only [write, if_true]
    omega
  · intro i h₁ h₂
    rw [List.length_take] at h₂
    simp only [neighbors, List.getElem_map, List.getElem_range, write, List.getElem_take]
    rw [if_neg (by omega), if_pos (by omega), Nat.add_sub_cancel,
      List.getD_eq_getElem _ _ (by omega)]

end Block

namespace Graph

/-- `linkBlock(id, level)` -/
def linkBlock (g : Graph) (id : ℕ) (level : ℤ) : Block :=
  if level = 0 then g.linksL0 id else g.linksUpper id (level - 1).toNat

/-- Replace the link block of a node on a level. -/
def setBlock (g : Graph) (id : ℕ) (level : ℤ) (b : Block) : Graph :=
  if level = 0 then { g with linksL0 := Function.update g.linksL0 id b }
  else { g with
    linksUpper := Function.update g.linksUpper id
      (Function.update (g.linksUpper id) (level - 1).toNat b) }

/-- The links of a node on a level. -/
def neighbors (g : Graph) (id : ℕ) (level : ℤ) : List ℕ := (g.linkBlock id level).neighbors

/-- `setLinks` -/
def setLinks (p : Params) (g : Graph) (id : ℕ) (level : ℤ) (ns : List ℕ) : Graph :=
  g.setBlock id level ((g.linkBlock id level).write (p.maxDegree level) ns)

section
variable {F : Type} [Platform F]

/-! ### Greedy descent -/

/-- The inner loop of `greedyDescend` over the links of the node it is at. -/
def greedyScan (dist : ℕ → F) : List ℕ → ℕ × F × Bool → ℕ × F × Bool
  | [], st => st
  | cand :: cands, (cur, curDist, changed) =>
      if FloatOps.lt (dist cand) curDist then greedyScan dist cands (cand, dist cand, true)
      else greedyScan dist cands (cur, curDist, changed)

def greedyLoop (dist : ℕ → F) (g : Graph) (level : ℤ) : ℕ → ℕ × F → ℕ × F
  | 0, st => st
  | fuel + 1, (cur, curDist) =>
      match greedyScan dist (g.neighbors cur level) (cur, curDist, false) with
      | (cur, curDist, true) => greedyLoop dist g level fuel (cur, curDist)
      | (cur, curDist, false) => (cur, curDist)

/-- `greedyDescend` -/
def greedyDescend (p : Params) (dist : ℕ → F) (g : Graph) (entry : ℕ) (level : ℤ) : ℕ :=
  (greedyLoop dist g level (p.maxElements + 1) (entry, dist entry)).1

/-- The descent over the levels from `top` down to `bottom + 1`. -/
def descend (p : Params) (dist : ℕ → F) (g : Graph) (entry : ℕ) (top bottom : ℤ) : ℕ :=
  (List.range (top - bottom).toNat).foldl
    (fun cur (i : ℕ) => greedyDescend p dist g cur (top - (i : ℤ))) entry

/-! ### Beam search -/

/-- The local state of `searchLayer`. -/
structure Beam (F : Type) [Platform F] where
  visited : List ℕ
  results : (maxHeap F).Q
  frontier : (minHeap F).Q
  worst : F

/-- The body of the inner loop: look at one neighbour. -/
def Beam.look (dist : ℕ → F) (admits : ℕ → Bool) (ef : ℕ) (b : Beam F) (cand : ℕ) : Beam F :=
  if cand ∈ b.visited then b
  else
    let b := { b with visited := cand :: b.visited }
    let d := dist cand
    if (maxHeap F).size b.results < ef ∨ FloatOps.lt d b.worst then
      let results :=
        if admits cand then
          let results := (maxHeap F).push b.results (d, cand)
          if ef < (maxHeap F).size results then (maxHeap F).tail results else results
        else b.results
      { b with
        frontier := (minHeap F).push b.frontier (d, cand)
        results
        worst := match (maxHeap F).top results with
          | none => b.worst
          | some c => c.1 }
    else b

/-- The outer loop of `searchLayer`. -/
def searchLoop (dist : ℕ → F) (admits : ℕ → Bool) (g : Graph) (ef : ℕ) (level : ℤ) :
    ℕ → Beam F → Beam F
  | 0, b => b
  | fuel + 1, b =>
      match (minHeap F).pop b.frontier with
      | none => b
      | some (best, frontier) =>
          if FloatOps.lt b.worst best.1 ∧ ef ≤ (maxHeap F).size b.results then b
          else
            searchLoop dist admits g ef level fuel
              (((g.neighbors best.2 level).take kMaxDegree).foldl (Beam.look dist admits ef)
                { b with frontier })

/-- The state of `searchLayer` before its loop. -/
def Beam.start (dist : ℕ → F) (admits : ℕ → Bool) (entry : ℕ) : Beam F where
  visited := [entry]
  results := if admits entry then (maxHeap F).push (maxHeap F).empty (dist entry, entry)
    else (maxHeap F).empty
  frontier := (minHeap F).push (minHeap F).empty (dist entry, entry)
  worst := if admits entry then dist entry else FloatOps.maxFinite

/-- `searchLayer`; `admits` says which nodes may be among the results. -/
def searchLayer (p : Params) (dist : ℕ → F) (admits : ℕ → Bool) (g : Graph) (entry ef : ℕ)
    (level : ℤ) : (maxHeap F).Q :=
  (searchLoop dist admits g ef level (p.maxElements + 1) (Beam.start dist admits entry)).results

/-! ### Choosing neighbours -/

/-- The loop of the heuristic over the sorted candidates: the kept ids and the discarded
candidates, in order. -/
def diverse (pair : ℕ → ℕ → F) (M : ℕ) : List (Cand F) → List ℕ → List ℕ → List ℕ × List ℕ
  | [], kept, discarded => (kept, discarded)
  | c :: cs, kept, discarded =>
      if M ≤ kept.length then (kept, discarded)
      else if kept.any fun r => FloatOps.lt (pair c.2 r) c.1 then
        diverse pair M cs kept (discarded ++ [c.2])
      else diverse pair M cs (kept ++ [c.2]) discarded

/-- `selectNeighborsHeuristic` -/
def selectNeighborsHeuristic (pair : ℕ → ℕ → F) (top : (maxHeap F).Q) (M : ℕ) : List ℕ :=
  let cands := ((maxHeap F).drain top).insertionSort fun a b => ¬ candLt b a
  if cands.length ≤ M then cands.map Prod.snd
  else
    let (kept, discarded) := diverse pair M cands [] []
    kept ++ discarded.take (M - kept.length)

/-! ### Linking -/

/-- Link node `id` back from its neighbour `n`. -/
def linkBack (p : Params) (pair : ℕ → ℕ → F) (id : ℕ) (level : ℤ) (g : Graph) (n : ℕ) : Graph :=
  let blk := g.linkBlock n level
  if blk 0 < p.maxDegree level then g.setBlock n level (blk.push id)
  else
    let pool := blk.neighbors.foldl (fun pool e => (maxHeap F).push pool (pair n e, e))
      ((maxHeap F).push (maxHeap F).empty (pair n id, id))
    g.setLinks p n level (selectNeighborsHeuristic pair pool (p.maxDegree level))

/-- `connectNewElement`: the new graph and the entry for the next level. -/
def connectNewElement (p : Params) (pair : ℕ → ℕ → F) (g : Graph) (id : ℕ) (top : (maxHeap F).Q)
    (level : ℤ) : Graph × ℕ :=
  match selectNeighborsHeuristic pair top p.M with
  | [] => (g, id)
  | next :: rest =>
      ((next :: rest).foldl (linkBack p pair id level) (g.setLinks p id level (next :: rest)), next)

/-- Search one level and connect the new node there. -/
def linkLevel (p : Params) (pair : ℕ → ℕ → F) (id : ℕ) (st : Graph × ℕ) (level : ℤ) : Graph × ℕ :=
  connectNewElement p pair st.1 id
    (searchLayer p (pair id) (fun _ => true) st.1 st.2 p.efConstruction level) level

/-- The levels from `top` down to 0. -/
def levelsDown (top : ℤ) : List ℤ := (List.range (top + 1).toNat).map fun (i : ℕ) => top - (i : ℤ)

/-- Give a new node its level and its empty upper blocks. -/
def setLevel (p : Params) (g : Graph) (id : ℕ) (level : ℤ) : Graph :=
  { g with
    levels := Function.update g.levels id level
    linksUpper := if 0 < level then Function.update g.linksUpper id (fun _ => Block.empty)
      else g.linksUpper
    upperSize := if 0 < level then Function.update g.upperSize id (level.toNat * p.strideUpper)
      else g.upperSize }

/-- What `addPoint` does to the graph, for a node whose vector is in place. -/
def link (p : Params) (pair : ℕ → ℕ → F) (g : Graph) (id : ℕ) (level : ℤ) : Graph :=
  let g := g.setLevel p id level
  if g.entryPoint = kNone then { g with entryPoint := id, maxLevel := level }
  else
    let cur := if level < g.maxLevel
      then descend p (pair id) g g.entryPoint g.maxLevel level else g.entryPoint
    let g' := ((levelsDown (min level g.maxLevel)).foldl (linkLevel p pair id) (g, cur)).1
    if g.maxLevel < level then { g' with entryPoint := id, maxLevel := level } else g'

end

end Graph

end VectorSearch.Hnsw
