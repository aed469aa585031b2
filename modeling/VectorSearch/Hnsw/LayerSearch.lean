import VectorSearch.Lib.Reach
import VectorSearch.Hnsw.Graph

/-! # What the searches of one level find

`Beam.Sound` is the invariant of the loop of `searchLayer`: the visited nodes can be reached from the
entry, and the results are distinct visited nodes that are admitted, with their distances, at most
`ef` of them.  `Beam.Whole` is the part that needs a beam that never fills: what was visited and is
admitted is still among the results, and the links of the nodes off the frontier were followed.

* `searchLayer_sound`: what the search returns.
* `searchLayer_complete`: a search that returns fewer than `ef` nodes returns all that can be
  reached and are admitted.
* `greedyDescend_reach`, `descend_mem`: a descent stays among the nodes of its levels. -/

namespace VectorSearch.Hnsw

open Links

/-- The ids of candidates. -/
def ids {F : Type} (cs : List (Cand F)) : List ℕ := cs.map Prod.snd

theorem ids_perm {F : Type} {cs cs' : List (Cand F)} (h : cs.Perm cs') :
    (ids cs).Perm (ids cs') := h.map _

theorem mem_ids {F : Type} {cs : List (Cand F)} {c : Cand F} (h : c ∈ cs) : c.2 ∈ ids cs :=
  List.mem_map_of_mem h

namespace Graph

/-- The links of one level. -/
def next (g : Graph) (level : ℤ) : ℕ → List ℕ := fun a => g.neighbors a level

section
variable {F : Type} [Platform F] {dist : ℕ → F} {admits : ℕ → Bool} {g : Graph}
  {entry ef cand : ℕ} {level : ℤ} {b : Beam F}

/-! ### The results -/

/-- Put a candidate among at most `ef` results. -/
def keep (ef : ℕ) (results : (maxHeap F).Q) (c : Cand F) : (maxHeap F).Q :=
  if ef < (maxHeap F).size ((maxHeap F).push results c)
    then (maxHeap F).tail ((maxHeap F).push results c) else (maxHeap F).push results c

section keep
variable {q : (maxHeap F).Q} {c : Cand F}

theorem keep_of_lt (h : (maxHeap F).size q < ef) : keep ef q c = (maxHeap F).push q c := by
  unfold keep
  rw [(maxHeap F).size_push, if_neg (by omega)]

theorem size_keep_le (h : (maxHeap F).size q ≤ ef) : (maxHeap F).size (keep ef q c) ≤ ef := by
  unfold keep
  have hpush := (maxHeap F).size_push q c
  split_ifs with hfull
  · have htail := (maxHeap F).size_tail (q := (maxHeap F).push q c) (by omega)
    omega
  · omega

theorem le_size_keep (h : (maxHeap F).size q ≤ ef) :
    (maxHeap F).size q ≤ (maxHeap F).size (keep ef q c) := by
  unfold keep
  have hpush := (maxHeap F).size_push q c
  split_ifs with hfull
  · have htail := (maxHeap F).size_tail (q := (maxHeap F).push q c) (by omega)
    omega
  · omega

theorem mem_of_mem_keep {d : Cand F} (h : d ∈ (maxHeap F).elems (keep ef q c)) :
    d = c ∨ d ∈ (maxHeap F).elems q := by
  unfold keep at h
  split_ifs at h
  · exact (maxHeap F).mem_push.mp ((maxHeap F).mem_of_mem_tail h)
  · exact (maxHeap F).mem_push.mp h

theorem nodup_keep (h : (ids ((maxHeap F).elems q)).Nodup) (hc : c.2 ∉ ids ((maxHeap F).elems q)) :
    (ids ((maxHeap F).elems (keep ef q c))).Nodup := by
  have hpush : (ids ((maxHeap F).elems ((maxHeap F).push q c))).Nodup :=
    (ids_perm ((maxHeap F).elems_push q c)).nodup_iff.mpr (List.nodup_cons.mpr ⟨hc, h⟩)
  unfold keep
  split_ifs with hfull
  · have hpos : 0 < (maxHeap F).size ((maxHeap F).push q c) := by
      rw [(maxHeap F).size_push]
      omega
    obtain ⟨a, ha⟩ := (maxHeap F).tail_perm hpos
    exact (List.nodup_cons.mp ((ids_perm ha).nodup_iff.mp hpush)).2
  · exact hpush

end keep

/-! ### Looking at a neighbour -/

theorem look_of_mem (h : cand ∈ b.visited) : b.look dist admits ef cand = b := if_pos h

/-- The first look at a node visits it.  It may go on the frontier, and among the results when it is
admitted. -/
theorem look_of_not_mem (dist : ℕ → F) (admits : ℕ → Bool) (ef : ℕ) (h : cand ∉ b.visited) :
    (b.look dist admits ef cand).visited = cand :: b.visited ∧
      ((b.look dist admits ef cand).frontier = (minHeap F).push b.frontier (dist cand, cand) ∨
        (b.look dist admits ef cand).frontier = b.frontier) ∧
      (admits cand = true ∧
          (b.look dist admits ef cand).results = keep ef b.results (dist cand, cand) ∨
        (b.look dist admits ef cand).results = b.results) := by
  unfold Beam.look
  rw [if_neg h]
  by_cases hnear : (maxHeap F).size b.results < ef ∨ FloatOps.lt (dist cand) b.worst = true
  · simp only [if_pos hnear]
    by_cases hadm : admits cand = true
    · simp only [if_pos hadm]
      exact ⟨trivial, Or.inl trivial, Or.inl ⟨hadm, rfl⟩⟩
    · simp only [if_neg hadm]
      exact ⟨trivial, Or.inl trivial, Or.inr trivial⟩
  · simp only [if_neg hnear]
    exact ⟨trivial, Or.inr trivial, Or.inr trivial⟩

/-- With room among the results, a new node goes on the frontier and, if admitted, among them. -/
theorem look_of_room (dist : ℕ → F) (admits : ℕ → Bool) (h : cand ∉ b.visited)
    (hroom : (maxHeap F).size b.results < ef) :
    (b.look dist admits ef cand).frontier = (minHeap F).push b.frontier (dist cand, cand) ∧
      (b.look dist admits ef cand).results =
        if admits cand then (maxHeap F).push b.results (dist cand, cand) else b.results := by
  have hkeep := keep_of_lt (c := (dist cand, cand)) hroom
  unfold keep at hkeep
  unfold Beam.look
  rw [if_neg h]
  simp only [if_pos (Or.inl hroom), hkeep]
  exact ⟨trivial, trivial⟩

/-! ### Soundness -/

/-- The invariant of the loop of `searchLayer`. -/
structure Beam.Sound (dist : ℕ → F) (admits : ℕ → Bool) (g : Graph) (entry ef : ℕ) (level : ℤ)
    (b : Beam F) : Prop where
  reach : ∀ v ∈ b.visited, Reach (g.next level) entry v
  nodup : b.visited.Nodup
  frontier : ∀ c ∈ (minHeap F).elems b.frontier, c.2 ∈ b.visited
  results : ∀ c ∈ (maxHeap F).elems b.results,
    c.2 ∈ b.visited ∧ c.1 = dist c.2 ∧ admits c.2 = true
  nodup_results : (ids ((maxHeap F).elems b.results)).Nodup
  size_le : (maxHeap F).size b.results ≤ ef

theorem Beam.Sound.start (hef : 0 < ef) :
    (Beam.start dist admits entry).Sound dist admits g entry ef level := by
  have hresults : ∀ c ∈ (maxHeap F).elems (Beam.start dist admits entry).results,
      c = (dist entry, entry) ∧ admits entry = true := by
    intro c hc
    unfold Beam.start at hc
    by_cases hadm : admits entry = true
    · simp only [if_pos hadm, (maxHeap F).mem_push, (maxHeap F).elems_empty, List.not_mem_nil,
        or_false] at hc
      exact ⟨hc, hadm⟩
    · simp only [if_neg hadm, (maxHeap F).elems_empty, List.not_mem_nil] at hc
  have hsize : (maxHeap F).size (Beam.start dist admits entry).results ≤ 1 := by
    unfold Beam.start
    split_ifs
    · simp only [(maxHeap F).size_push, (maxHeap F).size_empty]
      omega
    · simp only [(maxHeap F).size_empty]
      omega
  refine ⟨?_, List.nodup_singleton _, ?_, ?_, ?_, by omega⟩
  · intro v hv
    rw [List.mem_singleton.mp hv]
    exact Reach.refl _
  · intro c hc
    simp only [Beam.start, (minHeap F).mem_push, (minHeap F).elems_empty, List.not_mem_nil,
      or_false] at hc
    rw [hc]
    exact List.mem_cons_self
  · intro c hc
    obtain ⟨rfl, hadm⟩ := hresults c hc
    exact ⟨List.mem_cons_self, rfl, hadm⟩
  · rw [PriorityQueue.size] at hsize
    generalize (maxHeap F).elems (Beam.start dist admits entry).results = cs at hsize
    cases cs with
    | nil => exact List.nodup_nil
    | cons c rest =>
        obtain rfl : rest = [] := List.eq_nil_of_length_eq_zero (by simpa using hsize)
        exact List.nodup_singleton _

/-- Looking at a node that can be reached. -/
theorem Beam.Sound.look (h : b.Sound dist admits g entry ef level)
    (hcand : Reach (g.next level) entry cand) :
    (b.look dist admits ef cand).Sound dist admits g entry ef level := by
  by_cases hmem : cand ∈ b.visited
  · rwa [look_of_mem hmem]
  obtain ⟨hvisited, hfrontier, hresults⟩ := look_of_not_mem dist admits ef hmem
  have hnew : cand ∉ ids ((maxHeap F).elems b.results) := by
    intro hin
    obtain ⟨c, hc, rfl⟩ := List.mem_map.mp hin
    exact hmem (h.results c hc).1
  have hold : ∀ c ∈ (maxHeap F).elems b.results,
      c.2 ∈ cand :: b.visited ∧ c.1 = dist c.2 ∧ admits c.2 = true := fun c hc =>
    ⟨List.mem_cons_of_mem _ (h.results c hc).1, (h.results c hc).2⟩
  refine ⟨?_, ?_, ?_, ?_, ?_, ?_⟩
  · rw [hvisited]
    intro v hv
    obtain rfl | hv := List.mem_cons.mp hv
    · exact hcand
    · exact h.reach v hv
  · rw [hvisited]
    exact List.nodup_cons.mpr ⟨hmem, h.nodup⟩
  · rw [hvisited]
    intro c hc
    have hc : c.2 = cand ∨ c ∈ (minHeap F).elems b.frontier := by
      obtain hfrontier | hfrontier := hfrontier
      · rw [hfrontier] at hc
        exact ((minHeap F).mem_push.mp hc).imp_left (congrArg Prod.snd)
      · exact Or.inr (hfrontier ▸ hc)
    exact List.mem_cons.mpr (hc.imp_right fun hc => h.frontier c hc)
  · rw [hvisited]
    obtain ⟨hadm, hresults⟩ | hresults := hresults
    · rw [hresults]
      intro c hc
      obtain rfl | hc := mem_of_mem_keep hc
      · exact ⟨List.mem_cons_self, rfl, hadm⟩
      · exact hold c hc
    · rwa [hresults]
  · obtain ⟨-, hresults⟩ | hresults := hresults
    · rw [hresults]
      exact nodup_keep h.nodup_results hnew
    · rw [hresults]
      exact h.nodup_results
  · obtain ⟨-, hresults⟩ | hresults := hresults
    · rw [hresults]
      exact size_keep_le h.size_le
    · rw [hresults]
      exact h.size_le

theorem Beam.Sound.looks (h : b.Sound dist admits g entry ef level) {cands : List ℕ}
    (hcands : ∀ a ∈ cands, Reach (g.next level) entry a) :
    (cands.foldl (Beam.look dist admits ef) b).Sound dist admits g entry ef level := by
  induction cands generalizing b with
  | nil => exact h
  | cons a cands ih =>
      exact ih (h.look (hcands a List.mem_cons_self)) fun a' ha' =>
        hcands a' (List.mem_cons_of_mem _ ha')

/-- A candidate that is taken off the frontier can be reached. -/
theorem Beam.Sound.reach_best (h : b.Sound dist admits g entry ef level) {best : Cand F}
    {frontier : (minHeap F).Q} (hpop : (minHeap F).pop b.frontier = some (best, frontier)) :
    Reach (g.next level) entry best.2 := by
  have hbest := ((minHeap F).elems_of_pop_some hpop).mem_iff.mpr List.mem_cons_self
  exact h.reach _ (h.frontier best hbest)

/-- Taking a candidate off the frontier; its neighbours can be reached. -/
theorem Beam.Sound.pop (h : b.Sound dist admits g entry ef level) {best : Cand F}
    {frontier : (minHeap F).Q} (hpop : (minHeap F).pop b.frontier = some (best, frontier)) :
    ({ b with frontier } : Beam F).Sound dist admits g entry ef level ∧
      ∀ a ∈ (g.neighbors best.2 level).take kMaxDegree, Reach (g.next level) entry a := by
  refine ⟨⟨h.reach, h.nodup, fun c hc => ?_, h.results, h.nodup_results, h.size_le⟩, fun a ha =>
    (h.reach_best hpop).step (List.mem_of_mem_take ha)⟩
  have hperm := (minHeap F).elems_of_pop_some hpop
  exact h.frontier c (hperm.mem_iff.mpr (List.mem_cons_of_mem _ hc))

/-- The state after looking at the neighbours of the candidate that was taken off the frontier. -/
def Beam.expand (dist : ℕ → F) (admits : ℕ → Bool) (g : Graph) (ef : ℕ) (level : ℤ) (b : Beam F)
    (best : Cand F) (frontier : (minHeap F).Q) : Beam F :=
  ((g.neighbors best.2 level).take kMaxDegree).foldl (Beam.look dist admits ef) { b with frontier }

theorem Beam.Sound.expand (h : b.Sound dist admits g entry ef level) {best : Cand F}
    {frontier : (minHeap F).Q} (hpop : (minHeap F).pop b.frontier = some (best, frontier)) :
    (b.expand dist admits g ef level best frontier).Sound dist admits g entry ef level := by
  obtain ⟨hsound, hreach⟩ := h.pop hpop
  exact hsound.looks hreach

/-- What every round keeps holds of the state that the loop returns. -/
theorem searchLoop_invariant (P : Beam F → Prop)
    (hround : ∀ b best frontier, P b → (minHeap F).pop b.frontier = some (best, frontier) →
      P (b.expand dist admits g ef level best frontier)) :
    ∀ (fuel : ℕ) {b : Beam F}, P b → P (searchLoop dist admits g ef level fuel b)
  | 0, _, h => h
  | fuel + 1, b, h => by
      unfold searchLoop
      cases hpop : (minHeap F).pop b.frontier with
      | none => exact h
      | some x =>
          simp only
          split_ifs
          · exact h
          · exact searchLoop_invariant P hround fuel (hround b x.1 x.2 h hpop)

theorem searchLoop_sound (fuel : ℕ) (h : b.Sound dist admits g entry ef level) :
    (searchLoop dist admits g ef level fuel b).Sound dist admits g entry ef level :=
  searchLoop_invariant (Beam.Sound dist admits g entry ef level)
    (fun _ _ _ hb hpop => hb.expand hpop) fuel h

/-! ### Fuel -/

/-- The rounds that a search of `n` nodes may still take: one for each node that was not visited
and one for each on the frontier. -/
def Beam.todo (n : ℕ) (b : Beam F) : ℕ := n - b.visited.length + (minHeap F).size b.frontier

theorem todo_start {n m : ℕ} (hentry : entry < n) (hn : n ≤ m) :
    (Beam.start dist admits entry).todo n < m + 1 := by
  unfold Beam.todo Beam.start
  rw [(minHeap F).size_push, (minHeap F).size_empty, List.length_singleton]
  omega

section todo
variable {n : ℕ} (hlt : ∀ v, Reach (g.next level) entry v → v < n)
include hlt

theorem Beam.Sound.length_visited (h : b.Sound dist admits g entry ef level) :
    b.visited.length ≤ n := by
  have hsub : b.visited.toFinset ⊆ Finset.range n := fun v hv =>
    Finset.mem_range.mpr (hlt v (h.reach v (List.mem_toFinset.mp hv)))
  have hcard := Finset.card_le_card hsub
  rwa [Finset.card_range, List.toFinset_card_of_nodup h.nodup] at hcard

theorem Beam.Sound.todo_look (h : b.Sound dist admits g entry ef level)
    (hcand : Reach (g.next level) entry cand) :
    (b.look dist admits ef cand).todo n ≤ b.todo n := by
  by_cases hmem : cand ∈ b.visited
  · rw [look_of_mem hmem]
  · obtain ⟨hvisited, hfrontier, -⟩ := look_of_not_mem dist admits ef hmem
    have hlen := (h.look hcand).length_visited hlt
    unfold Beam.todo
    rw [hvisited, List.length_cons] at hlen ⊢
    obtain hfrontier | hfrontier := hfrontier
    · rw [hfrontier, (minHeap F).size_push]
      omega
    · rw [hfrontier]
      omega

theorem Beam.Sound.todo_looks (h : b.Sound dist admits g entry ef level) {cands : List ℕ}
    (hcands : ∀ a ∈ cands, Reach (g.next level) entry a) :
    (cands.foldl (Beam.look dist admits ef) b).todo n ≤ b.todo n := by
  induction cands generalizing b with
  | nil => exact le_rfl
  | cons a cands ih =>
      have ha := hcands a List.mem_cons_self
      exact (ih (h.look ha) fun a' ha' => hcands a' (List.mem_cons_of_mem _ ha')).trans
        (h.todo_look hlt ha)

theorem Beam.Sound.todo_expand (h : b.Sound dist admits g entry ef level) {best : Cand F}
    {frontier : (minHeap F).Q} (hpop : (minHeap F).pop b.frontier = some (best, frontier)) :
    (b.expand dist admits g ef level best frontier).todo n < b.todo n := by
  obtain ⟨hsound, hreach⟩ := h.pop hpop
  have hlooks := hsound.todo_looks hlt hreach
  have hsize := (minHeap F).size_of_pop_some hpop
  have hpopped : ({ b with frontier } : Beam F).todo n < b.todo n := by
    simp only [Beam.todo, hsize]
    omega
  exact lt_of_le_of_lt hlooks hpopped

end todo

/-! ### Completeness -/

theorem Beam.Sound.le_size_look (h : b.Sound dist admits g entry ef level) (cand : ℕ) :
    (maxHeap F).size b.results ≤ (maxHeap F).size (b.look dist admits ef cand).results := by
  by_cases hmem : cand ∈ b.visited
  · rw [look_of_mem hmem]
  · obtain ⟨-, -, ⟨-, hresults⟩ | hresults⟩ := look_of_not_mem dist admits ef hmem
    · rw [hresults]
      exact le_size_keep h.size_le
    · rw [hresults]

theorem Beam.Sound.le_size_looks (h : b.Sound dist admits g entry ef level) {cands : List ℕ}
    (hcands : ∀ a ∈ cands, Reach (g.next level) entry a) :
    (maxHeap F).size b.results ≤
      (maxHeap F).size (cands.foldl (Beam.look dist admits ef) b).results := by
  induction cands generalizing b with
  | nil => exact le_rfl
  | cons a cands ih =>
      exact (h.le_size_look a).trans (ih (h.look (hcands a List.mem_cons_self)) fun a' ha' =>
        hcands a' (List.mem_cons_of_mem _ ha'))

/-- Nothing was left out: the links `rest` of `cur` apart, all links of the nodes off the frontier
were followed, and the visited nodes that are admitted are among the results. -/
structure Beam.Whole (admits : ℕ → Bool) (g : Graph) (entry : ℕ) (level : ℤ) (cur : ℕ)
    (rest : List ℕ) (b : Beam F) : Prop where
  explored : Explored (g.next level) entry b.visited (ids ((minHeap F).elems b.frontier)) cur rest
  kept : ∀ v ∈ b.visited, admits v = true → v ∈ ids ((maxHeap F).elems b.results)

theorem Beam.Whole.start (dist : ℕ → F) :
    (Beam.start dist admits entry).Whole admits g entry level entry [] := by
  have hfrontier : (ids ((minHeap F).elems (Beam.start dist admits entry).frontier)).Perm [entry] := by
    have hpush := (minHeap F).elems_push (minHeap F).empty (dist entry, entry)
    rw [(minHeap F).elems_empty] at hpush
    exact ids_perm hpush
  refine ⟨⟨List.mem_cons_self, ?_, ?_⟩, ?_⟩
  · exact (Explored.start (g.next level) entry).reach
  · intro v hv hnot
    rw [hfrontier.mem_iff] at hnot
    exact absurd hv hnot
  · intro v hv hadm
    rw [Beam.start, List.mem_singleton] at hv
    subst hv
    have hc : (dist v, v) ∈ (maxHeap F).elems (Beam.start dist admits v).results := by
      unfold Beam.start
      simp only [if_pos hadm]
      exact (maxHeap F).mem_push.mpr (Or.inl rfl)
    exact mem_ids hc

/-- A look that leaves room among the results leaves nothing out. -/
theorem Beam.Whole.look {cur : ℕ} {rest : List ℕ}
    (h : b.Whole admits g entry level cur (cand :: rest))
    (hcand : Reach (g.next level) entry cand) (hroom : (maxHeap F).size b.results < ef) :
    (b.look dist admits ef cand).Whole admits g entry level cur rest := by
  by_cases hmem : cand ∈ b.visited
  · rw [look_of_mem hmem]
    exact ⟨h.explored.skip hmem, h.kept⟩
  obtain ⟨hvisited, -, -⟩ := look_of_not_mem dist admits ef hmem
  obtain ⟨hfrontier, hresults⟩ := look_of_room dist admits hmem hroom
  constructor
  · rw [hvisited, hfrontier]
    refine h.explored.visit hcand fun v => ?_
    rw [(ids_perm ((minHeap F).elems_push b.frontier (dist cand, cand))).mem_iff]
    exact List.mem_cons
  · rw [hvisited, hresults]
    intro v hv hadm
    have hpush := ids_perm ((maxHeap F).elems_push b.results (dist cand, cand))
    obtain rfl | hv := List.mem_cons.mp hv
    · rw [if_pos hadm, hpush.mem_iff]
      exact List.mem_cons_self
    · have hkept := h.kept v hv hadm
      split_ifs
      · rw [hpush.mem_iff]
        exact List.mem_cons_of_mem _ hkept
      · exact hkept

theorem Beam.Whole.looks {cur : ℕ} {cands : List ℕ} (hs : b.Sound dist admits g entry ef level)
    (h : b.Whole admits g entry level cur cands)
    (hcands : ∀ a ∈ cands, Reach (g.next level) entry a)
    (hroom : (maxHeap F).size (cands.foldl (Beam.look dist admits ef) b).results < ef) :
    (cands.foldl (Beam.look dist admits ef) b).Whole admits g entry level cur [] := by
  induction cands generalizing b with
  | nil => exact h
  | cons a cands ih =>
      have hsize := hs.le_size_looks hcands
      have ha := hcands a List.mem_cons_self
      exact ih (hs.look ha) (h.look ha (by omega))
        (fun a' ha' => hcands a' (List.mem_cons_of_mem _ ha')) hroom

theorem Beam.Whole.expand {cur : ℕ} (hs : b.Sound dist admits g entry ef level)
    (h : b.Whole admits g entry level cur []) {best : Cand F} {frontier : (minHeap F).Q}
    (hpop : (minHeap F).pop b.frontier = some (best, frontier))
    (hdeg : (g.neighbors best.2 level).length ≤ kMaxDegree)
    (hroom : (maxHeap F).size (b.expand dist admits g ef level best frontier).results < ef) :
    (b.expand dist admits g ef level best frontier).Whole admits g entry level best.2 [] := by
  obtain ⟨hsound, hreach⟩ := hs.pop hpop
  have hpopped : ({ b with frontier } : Beam F).Whole admits g entry level best.2
      (g.next level best.2) :=
    ⟨h.explored.pop (ids_perm ((minHeap F).elems_of_pop_some hpop)), h.kept⟩
  unfold Beam.expand at hroom ⊢
  rw [List.take_of_length_le hdeg] at hreach hroom ⊢
  exact hpopped.looks hsound hreach hroom

/-- **A loop with fuel enough that returns fewer than `ef` results has found everything.** -/
theorem searchLoop_complete {n : ℕ} (hlt : ∀ v, Reach (g.next level) entry v → v < n)
    (hdeg : ∀ v, Reach (g.next level) entry v → (g.neighbors v level).length ≤ kMaxDegree) :
    ∀ {fuel : ℕ} {b : Beam F} {cur : ℕ}, b.Sound dist admits g entry ef level →
      ((maxHeap F).size b.results < ef → b.Whole admits g entry level cur []) →
      b.todo n < fuel →
      (maxHeap F).size (searchLoop dist admits g ef level fuel b).results < ef →
      ∀ v, Reach (g.next level) entry v → admits v = true →
        v ∈ ids ((maxHeap F).elems (searchLoop dist admits g ef level fuel b).results)
  | 0, _, _, _, _, hfuel, _ => absurd hfuel (Nat.not_lt_zero _)
  | fuel + 1, b, cur, hs, hw, hfuel, hroom => by
      unfold searchLoop at hroom ⊢
      cases hpop : (minHeap F).pop b.frontier with
      | none =>
          rw [hpop] at hroom
          have hwhole := hw hroom
          have hexplored := hwhole.explored
          rw [(minHeap F).elems_of_pop_none hpop] at hexplored
          exact fun v hv hadm => hwhole.kept v ((hexplored.mem_iff v).mpr hv) hadm
      | some x =>
          obtain ⟨best, frontier⟩ := x
          rw [hpop] at hroom
          simp only at hroom ⊢
          split_ifs at hroom ⊢ with hstop
          · -- the loop stops early only with `ef` results
            exact absurd hroom (not_lt.mpr hstop.2)
          · obtain ⟨hpopped, hreach⟩ := hs.pop hpop
            have hlen := hdeg _ (hs.reach_best hpop)
            have htodo := hs.todo_expand hlt hpop
            have hgrow := hpopped.le_size_looks hreach
            exact searchLoop_complete hlt hdeg (hs.expand hpop) (fun hsize =>
              (hw (lt_of_le_of_lt hgrow hsize)).expand hs hpop hlen hsize)
              (lt_of_lt_of_le htodo (Nat.le_of_lt_succ hfuel)) hroom

/-! ### searchLayer -/

/-- **What a search of a level returns**: distinct nodes that can be reached and are admitted, with
their distances, at most `ef` of them. -/
theorem searchLayer_sound (p : Params) (dist : ℕ → F) (admits : ℕ → Bool) (g : Graph)
    (entry : ℕ) (level : ℤ) (hef : 0 < ef) :
    (ids ((maxHeap F).elems (searchLayer p dist admits g entry ef level))).Nodup ∧
      (maxHeap F).size (searchLayer p dist admits g entry ef level) ≤ ef ∧
      ∀ c ∈ (maxHeap F).elems (searchLayer p dist admits g entry ef level),
        Reach (g.next level) entry c.2 ∧ c.1 = dist c.2 ∧ admits c.2 = true := by
  have hstart : (Beam.start dist admits entry).Sound dist admits g entry ef level :=
    Beam.Sound.start hef
  have h := searchLoop_sound (p.maxElements + 1) hstart
  exact ⟨h.nodup_results, h.size_le, fun c hc =>
    ⟨h.reach _ (h.results c hc).1, (h.results c hc).2⟩⟩

/-- **A search that comes up short is exhaustive.** -/
theorem searchLayer_complete {p : Params} (dist : ℕ → F) (admits : ℕ → Bool) {n : ℕ}
    (hn : n ≤ p.maxElements) (hef : 0 < ef)
    (hlt : ∀ v, Reach (g.next level) entry v → v < n)
    (hdeg : ∀ v, Reach (g.next level) entry v → (g.neighbors v level).length ≤ kMaxDegree)
    (hshort : (maxHeap F).size (searchLayer p dist admits g entry ef level) < ef) (v : ℕ) :
    v ∈ ids ((maxHeap F).elems (searchLayer p dist admits g entry ef level)) ↔
      Reach (g.next level) entry v ∧ admits v = true := by
  have hentry : entry < n := hlt entry (Reach.refl entry)
  have htodo : (Beam.start dist admits entry).todo n < p.maxElements + 1 := todo_start hentry hn
  constructor
  · intro hv
    obtain ⟨c, hc, rfl⟩ := List.mem_map.mp hv
    obtain ⟨hreach, -, hadm⟩ := (searchLayer_sound p dist admits g entry level hef).2.2 c hc
    exact ⟨hreach, hadm⟩
  · rintro ⟨hv, hadm⟩
    exact searchLoop_complete hlt hdeg (Beam.Sound.start hef) (fun _ => Beam.Whole.start dist)
      htodo hshort v hv hadm

/-- The search of a level returns something if its entry is admitted. -/
theorem searchLayer_pos (p : Params) (dist : ℕ → F) (g : Graph) (level : ℤ) (hef : 0 < ef)
    (hentry : admits entry = true) :
    0 < (maxHeap F).size (searchLayer p dist admits g entry ef level) := by
  have hstart : 0 < (maxHeap F).size (Beam.start dist admits entry).results := by
    unfold Beam.start
    simp only [if_pos hentry, (maxHeap F).size_push]
    omega
  have hround : ∀ (b : Beam F) (best : Cand F) (frontier : (minHeap F).Q),
      b.Sound dist admits g entry ef level ∧ 0 < (maxHeap F).size b.results →
      (minHeap F).pop b.frontier = some (best, frontier) →
      (b.expand dist admits g ef level best frontier).Sound dist admits g entry ef level ∧
        0 < (maxHeap F).size (b.expand dist admits g ef level best frontier).results := by
    rintro b best frontier ⟨hs, hpos⟩ hpop
    obtain ⟨hpopped, hreach⟩ := hs.pop hpop
    exact ⟨hs.expand hpop, lt_of_lt_of_le hpos (hpopped.le_size_looks hreach)⟩
  exact (searchLoop_invariant _ hround (p.maxElements + 1) ⟨Beam.Sound.start hef, hstart⟩).2

/-! ### Greedy descent -/

theorem greedyScan_mem (dist : ℕ → F) : ∀ (cands : List ℕ) (st : ℕ × F × Bool),
    (greedyScan dist cands st).1 = st.1 ∨ (greedyScan dist cands st).1 ∈ cands
  | [], _ => Or.inl rfl
  | cand :: cands, (cur, curDist, changed) => by
      unfold greedyScan
      split_ifs
      · obtain h | h := greedyScan_mem dist cands (cand, dist cand, true)
        · exact Or.inr (h ▸ List.mem_cons_self)
        · exact Or.inr (List.mem_cons_of_mem _ h)
      · exact (greedyScan_mem dist cands (cur, curDist, changed)).imp_right
          (List.mem_cons_of_mem _)

theorem greedyLoop_reach (dist : ℕ → F) (g : Graph) (level : ℤ) : ∀ (fuel : ℕ) (st : ℕ × F),
    Reach (g.next level) st.1 (greedyLoop dist g level fuel st).1
  | 0, st => Reach.refl st.1
  | fuel + 1, (cur, curDist) => by
      have hscan := greedyScan_mem dist (g.neighbors cur level) (cur, curDist, false)
      unfold greedyLoop
      generalize greedyScan dist (g.neighbors cur level) (cur, curDist, false) = st' at hscan
      obtain ⟨cur', curDist', changed⟩ := st'
      have hreach : Reach (g.next level) cur cur' := by
        obtain rfl | hmem := hscan
        · exact Reach.refl _
        · exact (Reach.refl _).step hmem
      cases changed with
      | false => exact hreach
      | true => exact hreach.trans (greedyLoop_reach dist g level fuel (cur', curDist'))

/-- A greedy descent ends at a node that can be reached. -/
theorem greedyDescend_reach (p : Params) (dist : ℕ → F) (g : Graph) (entry : ℕ) (level : ℤ) :
    Reach (g.next level) entry (greedyDescend p dist g entry level) :=
  greedyLoop_reach dist g level _ (entry, dist entry)

/-- A descent over the levels stays in a family of sets that grow downwards and are closed under the
links of their level. -/
theorem descend_mem (p : Params) (dist : ℕ → F) {S : ℤ → ℕ → Prop} {top bottom : ℤ}
    (hanti : ∀ l v, S l v → S (l - 1) v)
    (hclosed : ∀ l, bottom < l → ∀ a, S l a → ∀ v ∈ g.next l a, S l v) (hle : bottom ≤ top)
    (hentry : S top entry) : S bottom (descend p dist g entry top bottom) := by
  have hrun : ∀ k ≤ (top - bottom).toNat, S (top - k)
      ((List.range k).foldl (fun cur (i : ℕ) => greedyDescend p dist g cur (top - (i : ℤ))) entry) := by
    intro k
    induction k with
    | zero => simpa using hentry
    | succ k ih =>
        intro hk
        rw [List.range_succ, List.foldl_append, List.foldl_cons, List.foldl_nil]
        have hmem := ((greedyDescend_reach p dist g _ (top - k)).mem_of_closed
          (hclosed _ (by omega)) (ih (by omega)))
        have hnext : top - ((k + 1 : ℕ) : ℤ) = top - k - 1 := by push_cast; ring
        rw [hnext]
        exact hanti _ _ hmem
  have hbottom : top - ((top - bottom).toNat : ℤ) = bottom := by omega
  have hlast := hrun _ le_rfl
  rwa [hbottom] at hlast

end

end Graph

end VectorSearch.Hnsw
