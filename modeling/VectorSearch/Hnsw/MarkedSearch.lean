import VectorSearch.Hnsw.Bounds
import VectorSearch.Hnsw.VisitedList

/-! # Beam search with the marks of a visited list

`searchLayer` of `Hnsw/Graph.lean` keeps the visited nodes in a list of its own.  The program takes
a `VisitedList` from the pool and asks its marks.  `searchMarked` is that program; it returns `none`
as soon as a mark outside the array is asked for.

`MarkedBeam.Agrees` relates the two states of the loop: the marks stand for the visited nodes and
the rest is equal.  Each step keeps it (`Agrees.look`, `Agrees.looks`, `Agrees.loop`), so on a graph
whose nodes are ready `searchMarked` finds what `searchLayer` finds, whatever earlier searches left
in the list (`searchMarked_eq`).  In particular with any list of a pool, after any run of the pool
(`searchMarked_of_run`). -/

namespace VectorSearch.Hnsw

open VisitedList (Ok Stands testAndSet_spec)

theorem VisitedList.testAndSet_isSome {n : ℕ} {v : VisitedList} (h : Ok n v) {i : ℕ} (hi : i < n) :
    ∃ r v', v.testAndSet i = some (r, v') := by
  unfold testAndSet
  rw [if_pos (h.length_eq.symm ▸ hi)]
  split_ifs
  · exact ⟨_, _, rfl⟩
  · exact ⟨_, _, rfl⟩

/-- A mark set again changes nothing. -/
theorem VisitedList.Stands.of_cons {n : ℕ} {v : VisitedList} {S : List ℕ} {i : ℕ}
    (h : Stands n v (i :: S)) (hi : i ∈ S) : Stands n v S := by
  intro j hj
  rw [h j hj, List.mem_cons]
  constructor
  · rintro (rfl | hmem)
    · exact hi
    · exact hmem
  · exact Or.inr

namespace Graph
variable {F : Type} [Platform F]

/-! ### The program -/

/-- The local state of `searchLayer`, with its visited list. -/
structure MarkedBeam (F : Type) [Platform F] where
  visited : VisitedList
  results : (maxHeap F).Q
  frontier : (minHeap F).Q
  worst : F

/-- The body of the inner loop. -/
def MarkedBeam.look (dist : ℕ → F) (admits : ℕ → Bool) (ef : ℕ) (b : MarkedBeam F) (cand : ℕ) :
    Option (MarkedBeam F) := do
  let (seen, visited) ← b.visited.testAndSet cand
  let b := { b with visited }
  if seen then some b
  else
    let d := dist cand
    if (maxHeap F).size b.results < ef ∨ FloatOps.lt d b.worst then
      let results :=
        if admits cand then
          let results := (maxHeap F).push b.results (d, cand)
          if ef < (maxHeap F).size results then (maxHeap F).tail results else results
        else b.results
      some { b with
        frontier := (minHeap F).push b.frontier (d, cand)
        results
        worst := match (maxHeap F).top results with
          | none => b.worst
          | some c => c.1 }
    else some b

/-- The outer loop. -/
def markedLoop (dist : ℕ → F) (admits : ℕ → Bool) (g : Graph) (ef : ℕ) (level : ℤ) :
    ℕ → MarkedBeam F → Option (MarkedBeam F)
  | 0, b => some b
  | fuel + 1, b =>
      match (minHeap F).pop b.frontier with
      | none => some b
      | some (best, frontier) =>
          if FloatOps.lt b.worst best.1 ∧ ef ≤ (maxHeap F).size b.results then some b
          else do
            let b ← ((g.neighbors best.2 level).take kMaxDegree).foldlM
              (MarkedBeam.look dist admits ef) { b with frontier }
            markedLoop dist admits g ef level fuel b

/-- `searchLayer` with the visited list `v`: the results, and the list as it is given back. -/
def searchMarked (p : Params) (dist : ℕ → F) (admits : ℕ → Bool) (g : Graph) (v : VisitedList)
    (entry ef : ℕ) (level : ℤ) : Option ((maxHeap F).Q × VisitedList) := do
  let (_, visited) ← v.reset.testAndSet entry
  let start := Beam.start dist admits entry
  let b ← markedLoop dist admits g ef level (p.maxElements + 1)
    { visited, results := start.results, frontier := start.frontier, worst := start.worst }
  some (b.results, b.visited)

/-! ### One step -/

/-- The marks of `m` stand for the visited nodes of `b`; the rest is equal. -/
structure MarkedBeam.Agrees (n : ℕ) (m : MarkedBeam F) (b : Beam F) : Prop where
  ok : Ok n m.visited
  stands : Stands n m.visited b.visited
  results : m.results = b.results
  frontier : m.frontier = b.frontier
  worst : m.worst = b.worst

variable {n : ℕ} {m : MarkedBeam F} {b : Beam F} {p : Params} {g : Graph} {level : ℤ}
  {S : ℕ → Prop} {entry : ℕ}

theorem MarkedBeam.Agrees.look (h : m.Agrees n b) (dist : ℕ → F) (admits : ℕ → Bool) (ef : ℕ)
    {cand : ℕ} (hcand : cand < n) :
    ∃ m', m.look dist admits ef cand = some m' ∧ m'.Agrees n (b.look dist admits ef cand) := by
  obtain ⟨seen, v, htest⟩ := VisitedList.testAndSet_isSome h.ok hcand
  obtain ⟨-, hok, hspec⟩ := testAndSet_spec h.ok htest
  obtain ⟨hseen, hstands⟩ := hspec b.visited h.stands
  obtain ⟨-, -, hresults, hfrontier, hworst⟩ := h
  unfold MarkedBeam.look Beam.look
  rw [htest, Option.bind_eq_bind, Option.bind_some]
  by_cases hmem : cand ∈ b.visited
  · simp only [if_pos hmem, if_pos (hseen.mpr hmem)]
    exact ⟨_, rfl, hok, hstands.of_cons hmem, hresults, hfrontier, hworst⟩
  simp only [if_neg hmem, if_neg (mt hseen.mp hmem), hresults, hfrontier, hworst]
  split_ifs
  · exact ⟨_, rfl, hok, hstands, rfl, rfl, rfl⟩
  · exact ⟨_, rfl, hok, hstands, rfl, rfl, rfl⟩
  · exact ⟨_, rfl, hok, hstands, rfl, rfl, rfl⟩
  · exact ⟨_, rfl, hok, hstands, rfl, rfl, rfl⟩

theorem MarkedBeam.Agrees.looks (h : m.Agrees n b) (dist : ℕ → F) (admits : ℕ → Bool) (ef : ℕ)
    {cands : List ℕ} (hcands : ∀ a ∈ cands, a < n) :
    ∃ m', cands.foldlM (MarkedBeam.look dist admits ef) m = some m' ∧
      m'.Agrees n (cands.foldl (Beam.look dist admits ef) b) := by
  induction cands generalizing m b with
  | nil => exact ⟨m, rfl, h⟩
  | cons a cands ih =>
      obtain ⟨m₁, hlook, h₁⟩ := h.look dist admits ef (hcands a List.mem_cons_self)
      obtain ⟨m₂, hlooks, h₂⟩ := ih h₁ fun a' ha' => hcands a' (List.mem_cons_of_mem _ ha')
      refine ⟨m₂, ?_, h₂⟩
      rw [List.foldlM_cons, hlook]
      exact hlooks

/-! ### A whole search -/

theorem MarkedBeam.Agrees.loop (hready : Ready p g level S) (dist : ℕ → F) (admits : ℕ → Bool)
    (ef : ℕ) : ∀ (fuel : ℕ) {m : MarkedBeam F} {b : Beam F}, m.Agrees p.maxElements b →
      b.Inside S → ∃ m', markedLoop dist admits g ef level fuel m = some m' ∧
        m'.Agrees p.maxElements (searchLoop dist admits g ef level fuel b)
  | 0, m, _, h, _ => ⟨m, rfl, h⟩
  | fuel + 1, m, b, h, hb => by
      unfold markedLoop searchLoop
      rw [h.frontier]
      cases hpop : (minHeap F).pop b.frontier with
      | none => exact ⟨m, rfl, h⟩
      | some x =>
          obtain ⟨best, frontier⟩ := x
          obtain ⟨hbest, hpopped⟩ := hb.pop hpop
          have hcands := hready.mem_of_take hbest
          have hagrees : ({ m with frontier } : MarkedBeam F).Agrees p.maxElements
              { b with frontier } := ⟨h.ok, h.stands, h.results, rfl, h.worst⟩
          simp only [h.worst, h.results]
          split_ifs with hstop
          · exact ⟨m, rfl, h⟩
          · obtain ⟨m₁, hlooks, h₁⟩ := hagrees.looks dist admits ef fun cand hcand =>
              (hready cand (hcands cand hcand)).1.1
            rw [h.results, h.worst] at hlooks
            rw [hlooks]
            exact MarkedBeam.Agrees.loop hready dist admits ef fuel h₁
              (hpopped.looks dist admits ef hcands)

/-- **The marks of earlier searches do not matter.** -/
theorem searchMarked_eq (hready : Ready p g level S) (dist : ℕ → F) (admits : ℕ → Bool)
    {v : VisitedList} (hv : Ok p.maxElements v) (ef : ℕ) (hentry : S entry) :
    ∃ v', searchMarked p dist admits g v entry ef level =
      some (searchLayer p dist admits g entry ef level, v') ∧ Ok p.maxElements v' := by
  obtain ⟨seen, v₁, htest⟩ := VisitedList.testAndSet_isSome hv.reset (hready entry hentry).1.1
  obtain ⟨-, hok, hspec⟩ := testAndSet_spec hv.reset htest
  have hstart : MarkedBeam.Agrees p.maxElements
      { visited := v₁
        results := (Beam.start dist admits entry).results
        frontier := (Beam.start dist admits entry).frontier
        worst := (Beam.start dist admits entry).worst } (Beam.start dist admits entry) :=
    ⟨hok, (hspec [] hv.stands_reset).2, rfl, rfl, rfl⟩
  obtain ⟨m, hloop, hm⟩ := MarkedBeam.Agrees.loop hready dist admits ef (p.maxElements + 1) hstart
    (Beam.Inside.start dist admits hentry)
  refine ⟨m.visited, ?_, hm.ok⟩
  unfold searchMarked searchLayer
  rw [← hm.results, htest, Option.bind_eq_bind, Option.bind_some]
  simp only [hloop]
  rfl

/-- A search takes any list that a pool made. -/
theorem searchMarked_of_run (hready : Ready p g level S) (dist : ℕ → F) (admits : ℕ → Bool)
    (ef : ℕ) (hentry : S entry) {initial a : ℕ} {trace : List VisitedEvent}
    {pool : VisitedListPool} (hrun : VisitedListPool.Run initial p.maxElements trace pool)
    (ha : a ∈ pool.held) :
    ∃ v', searchMarked p dist admits g (pool.lists a) entry ef level =
      some (searchLayer p dist admits g entry ef level, v') := by
  have hmade := hrun.inv.lt_made a (List.mem_append_right _ ha)
  obtain ⟨v', heq, -⟩ :=
    searchMarked_eq hready dist admits (hrun.inv.list a hmade).ok ef hentry
  exact ⟨v', heq⟩

/-- A search of a stored index, with any list of its pool. -/
theorem searchMarked_stored {idx : Index F} (h : idx.Stored) (hfit : idx.params.ArraysFit)
    (dist : ℕ → F) (admits : ℕ → Bool) (ef l : ℕ) (hentry : On idx.store.count idx.graph l entry)
    {initial a : ℕ} {trace : List VisitedEvent} {pool : VisitedListPool}
    (hrun : VisitedListPool.Run initial idx.params.maxElements trace pool) (ha : a ∈ pool.held) :
    ∃ v', searchMarked idx.params dist admits idx.graph (pool.lists a) entry ef l =
      some (searchLayer idx.params dist admits idx.graph entry ef l, v') := by
  have hn : idx.store.count ≤ idx.params.maxElements :=
    h.counted.good.count_le.trans (min_le_left _ _)
  exact searchMarked_of_run (h.graph.ready h.wellFormed hfit hn l) dist admits ef hentry hrun ha

end Graph

end VectorSearch.Hnsw
