import VectorSearch.Hnsw.Heuristic
import VectorSearch.Hnsw.WellFormed

/-! # A search of one level ends in a local optimum

`Beam.Tight` is the third invariant of the loop of `searchLayer`, next to `Beam.Sound` and
`Beam.Whole`: the links of the results that are off the frontier were followed, and an admitted node
that was visited is among the results or, once these are full, no closer than `worst`.  The stop rule
leaves only nodes behind on the frontier that are farther away than every result, so the results are
off the frontier when the loop ends.

`searchLayer_optimum`: a search that comes up short finds everything, and the others end where no
neighbour of a result is closer than the farthest of them. -/

namespace VectorSearch.Hnsw

open Links

namespace Graph

section
variable {F : Type} [Platform F] {dist : ℕ → F} {admits : ℕ → Bool} {g : Graph}
  {entry ef cand cur : ℕ} {level : ℤ} {b : Beam F} {rest : List ℕ}

/-! ### The bound -/

/-- `w` is the distance of the farthest of the candidates, if there are any. -/
structure Farthest (cs : List (Cand F)) (w : F) : Prop where
  attained : cs ≠ [] → ∃ c ∈ cs, c.1 = w
  lt_false : ∀ c ∈ cs, FloatOps.lt w c.1 = false

/-- The bound that is read off the top of the results. -/
def topDist (q : (maxHeap F).Q) (w : F) : F := match (maxHeap F).top q with
  | none => w
  | some c => c.1

theorem farthest_topDist (h : StrictWeak (FloatOps.lt (F := F))) (q : (maxHeap F).Q) (w : F) :
    Farthest ((maxHeap F).elems q) (topDist q w) := by
  unfold topDist PriorityQueue.top
  cases hpop : (maxHeap F).pop q with
  | none =>
      rw [(maxHeap F).elems_of_pop_none hpop]
      exact ⟨fun hne => absurd rfl hne, fun _ hc => absurd hc List.not_mem_nil⟩
  | some x =>
      have htop := (maxHeap F).top_le (h.comap Prod.fst) hpop
      have hmem := ((maxHeap F).elems_of_pop_some hpop).mem_iff.mpr List.mem_cons_self
      exact ⟨fun _ => ⟨x.1, hmem, rfl⟩, htop⟩

/-- What `keep` throws away is no closer than what stays. -/
theorem keep_cases (h : StrictWeak (FloatOps.lt (F := F))) {q : (maxHeap F).Q} (c : Cand F)
    (hsize : (maxHeap F).size q ≤ ef) :
    (keep ef q c = (maxHeap F).push q c ∧ (maxHeap F).size q < ef) ∨
      ((maxHeap F).size q = ef ∧ (maxHeap F).size (keep ef q c) = ef ∧
        ∃ a, ((c :: (maxHeap F).elems q).Perm (a :: (maxHeap F).elems (keep ef q c))) ∧
          ∀ d ∈ (maxHeap F).elems (keep ef q c), FloatOps.lt a.1 d.1 = false) := by
  obtain hlt | hge := Nat.lt_or_ge ((maxHeap F).size q) ef
  · exact Or.inl ⟨keep_of_lt hlt, hlt⟩
  right
  have heq : (maxHeap F).size q = ef := le_antisymm hsize hge
  have hpush : (maxHeap F).size ((maxHeap F).push q c) = ef + 1 := by
    rw [(maxHeap F).size_push, heq]
  have hkeep : keep ef q c = (maxHeap F).tail ((maxHeap F).push q c) := by
    unfold keep
    rw [if_pos (by omega)]
  rw [hkeep]
  have htail := (maxHeap F).size_tail (q := (maxHeap F).push q c) (by omega)
  refine ⟨heq, by omega, ?_⟩
  unfold PriorityQueue.tail
  cases hpop : (maxHeap F).pop ((maxHeap F).push q c) with
  | none =>
      rw [PriorityQueue.size, (maxHeap F).elems_of_pop_none hpop] at hpush
      exact absurd hpush (by simp)
  | some x =>
      have hperm := (maxHeap F).elems_of_pop_some hpop
      refine ⟨x.1, ((maxHeap F).elems_push q c).symm.trans hperm, fun d hd => ?_⟩
      exact (maxHeap F).top_le (h.comap Prod.fst) hpop d
        (hperm.mem_iff.mpr (List.mem_cons_of_mem _ hd))

/-! ### The invariant -/

/-- The links `rest` of `cur` apart, all links of the results off the frontier were followed, and an
admitted node that was visited and is not among the results is no closer than they are. -/
structure Beam.Tight (dist : ℕ → F) (admits : ℕ → Bool) (g : Graph) (ef : ℕ) (level : ℤ) (cur : ℕ)
    (rest : List ℕ) (b : Beam F) : Prop where
  frontier_dist : ∀ c ∈ (minHeap F).elems b.frontier, c.1 = dist c.2
  followed : ∀ r ∈ ids ((maxHeap F).elems b.results), r ∉ ids ((minHeap F).elems b.frontier) →
    ∀ w ∈ g.next level r, w ∈ b.visited ∨ r = cur ∧ w ∈ rest
  left_out : ∀ v ∈ b.visited, admits v = true → v ∈ ids ((maxHeap F).elems b.results) ∨
    (maxHeap F).size b.results = ef ∧ FloatOps.lt (dist v) b.worst = false
  farthest : Farthest ((maxHeap F).elems b.results) b.worst

theorem Beam.Tight.start (h : StrictWeak (FloatOps.lt (F := F))) :
    (Beam.start dist admits entry).Tight dist admits g ef level entry [] := by
  have hfrontier : ∀ c ∈ (minHeap F).elems (Beam.start dist admits entry).frontier,
      c = (dist entry, entry) := by
    intro c hc
    simpa only [Beam.start, (minHeap F).mem_push, (minHeap F).elems_empty, List.not_mem_nil,
      or_false] using hc
  have hin : (dist entry, entry) ∈ (minHeap F).elems (Beam.start dist admits entry).frontier :=
    (minHeap F).mem_push.mpr (Or.inl rfl)
  refine ⟨fun c hc => by rw [hfrontier c hc], fun r hr hnot => ?_, fun v hv hadm => Or.inl ?_, ?_⟩
  · -- the only result is on the frontier
    have hentry : r = entry := by
      obtain ⟨c, hc, rfl⟩ := List.mem_map.mp hr
      unfold Beam.start at hc
      split_ifs at hc
      · simp only [(maxHeap F).mem_push, (maxHeap F).elems_empty, List.not_mem_nil, or_false] at hc
        rw [hc]
      · simp only [(maxHeap F).elems_empty, List.not_mem_nil] at hc
    exact absurd (mem_ids hin) (hentry ▸ hnot)
  · rw [Beam.start, List.mem_singleton] at hv
    subst hv
    refine mem_ids (c := (dist v, v)) ?_
    simp only [Beam.start, if_pos hadm]
    exact (maxHeap F).mem_push.mpr (Or.inl rfl)
  · unfold Beam.start
    split_ifs with hadm
    · have helems : ∀ c ∈ (maxHeap F).elems ((maxHeap F).push (maxHeap F).empty (dist entry, entry)),
          c = (dist entry, entry) := by
        intro c hc
        simpa only [(maxHeap F).mem_push, (maxHeap F).elems_empty, List.not_mem_nil, or_false]
          using hc
      refine ⟨fun _ => ⟨_, (maxHeap F).mem_push.mpr (Or.inl rfl), rfl⟩, fun c hc => ?_⟩
      rw [helems c hc]
      exact h.irrefl _
    · simp only [(maxHeap F).elems_empty]
      exact ⟨fun hne => absurd rfl hne, fun _ hc => absurd hc List.not_mem_nil⟩

/-- The ways to look at a node for the first time. -/
theorem look_cases (dist : ℕ → F) (admits : ℕ → Bool) (ef : ℕ) (hmem : cand ∉ b.visited) :
    (ef ≤ (maxHeap F).size b.results ∧ FloatOps.lt (dist cand) b.worst = false ∧
        b.look dist admits ef cand = { b with visited := cand :: b.visited }) ∨
      (((maxHeap F).size b.results < ef ∨ FloatOps.lt (dist cand) b.worst = true) ∧
        ∃ results, b.look dist admits ef cand =
            { visited := cand :: b.visited
              results
              frontier := (minHeap F).push b.frontier (dist cand, cand)
              worst := topDist results b.worst } ∧
          (admits cand = true ∧ results = keep ef b.results (dist cand, cand) ∨
            admits cand = false ∧ results = b.results)) := by
  unfold Beam.look
  rw [if_neg hmem]
  by_cases hnear : (maxHeap F).size b.results < ef ∨ FloatOps.lt (dist cand) b.worst = true
  · refine Or.inr ⟨hnear, ?_⟩
    simp only [if_pos hnear]
    cases hadm : admits cand with
    | true => exact ⟨_, rfl, Or.inl ⟨rfl, rfl⟩⟩
    | false => exact ⟨_, rfl, Or.inr ⟨rfl, rfl⟩⟩
  · simp only [if_neg hnear]
    rw [not_or, not_lt, Bool.not_eq_true] at hnear
    exact Or.inl ⟨hnear.1, hnear.2, trivial⟩

/-- Links that were followed stay so when `cand` is looked at, whether it is new or not. -/
theorem followed_look {r w : ℕ} {visited visited' : List ℕ} (hsub : visited ⊆ visited')
    (hcand : cand ∈ visited') (hw : w ∈ visited ∨ r = cur ∧ w ∈ cand :: rest) :
    w ∈ visited' ∨ r = cur ∧ w ∈ rest := by
  obtain hw | ⟨hr, hw⟩ := hw
  · exact Or.inl (hsub hw)
  obtain rfl | hw := List.mem_cons.mp hw
  · exact Or.inl hcand
  · exact Or.inr ⟨hr, hw⟩

/-- A distance that is not below the bound is not below a bound that is no larger. -/
theorem Farthest.lt_bound (h : StrictWeak (FloatOps.lt (F := F))) {cs : List (Cand F)} {d w w' : F}
    (hfar : Farthest cs w') (hne : cs ≠ []) (hle : ∀ c ∈ cs, FloatOps.lt w c.1 = false)
    (hd : FloatOps.lt d w = false) : FloatOps.lt d w' = false := by
  obtain ⟨c, hc, rfl⟩ := hfar.attained hne
  exact h.negTrans hd (hle c hc)

/-- Nothing is left of results as many as asked for. -/
theorem elems_ne_nil {q : (maxHeap F).Q} (hef : 0 < ef) (hq : (maxHeap F).size q = ef) :
    (maxHeap F).elems q ≠ [] := by
  intro hnil
  rw [PriorityQueue.size, hnil, List.length_nil] at hq
  omega

/-- A result or a node that is no closer than the results stays so when `cand` becomes a result. -/
theorem left_out_keep (h : StrictWeak (FloatOps.lt (F := F))) (hef : 0 < ef)
    {q : (maxHeap F).Q} {w : F} (hsize : (maxHeap F).size q ≤ ef)
    (hdist : ∀ c ∈ (maxHeap F).elems q, c.1 = dist c.2) (hfar : Farthest ((maxHeap F).elems q) w)
    (hnear : (maxHeap F).size q < ef ∨ FloatOps.lt (dist cand) w = true) {v : ℕ}
    (hv : v ∈ ids ((dist cand, cand) :: (maxHeap F).elems q) ∨
      (maxHeap F).size q = ef ∧ FloatOps.lt (dist v) w = false) :
    v ∈ ids ((maxHeap F).elems (keep ef q (dist cand, cand))) ∨
      (maxHeap F).size (keep ef q (dist cand, cand)) = ef ∧
        FloatOps.lt (dist v) (topDist (keep ef q (dist cand, cand)) w) = false := by
  obtain ⟨hkeep, hroom⟩ | ⟨hfull, hkept, a, hperm, hlast⟩ := keep_cases h (dist cand, cand) hsize
  · have hv := hv.resolve_right fun hout => absurd hout.1 (Nat.ne_of_lt hroom)
    rw [hkeep]
    exact Or.inl ((ids_perm ((maxHeap F).elems_push _ _)).mem_iff.mpr hv)
  have hfar' := farthest_topDist h (keep ef q (dist cand, cand)) w
  have hnew := elems_ne_nil hef hkept
  obtain hv | ⟨-, hv⟩ := hv
  · obtain ⟨c, hc, rfl⟩ := List.mem_map.mp hv
    obtain rfl | hin := List.mem_cons.mp (hperm.mem_iff.mp hc)
    · -- the node that was dropped
      have hcdist : c.1 = dist c.2 := by
        obtain rfl | hc := List.mem_cons.mp hc
        · rfl
        · exact hdist c hc
      exact Or.inr ⟨hkept, hfar'.lt_bound h hnew hlast (hcdist ▸ h.irrefl _)⟩
    · exact Or.inl (mem_ids hin)
  · refine Or.inr ⟨hkept, hfar'.lt_bound h hnew (fun c hc => ?_) hv⟩
    obtain rfl | hc := mem_of_mem_keep hc
    · exact h.asymm (hnear.resolve_left (by omega))
    · exact hfar.lt_false c hc

/-- Looking at the next link of the node at hand. -/
theorem Beam.Tight.look (h : StrictWeak (FloatOps.lt (F := F))) (hef : 0 < ef)
    (hs : b.Sound dist admits g entry ef level)
    (ht : b.Tight dist admits g ef level cur (cand :: rest)) :
    (b.look dist admits ef cand).Tight dist admits g ef level cur rest := by
  by_cases hmem : cand ∈ b.visited
  · rw [look_of_mem hmem]
    exact ⟨ht.frontier_dist, fun r hr hnot w hw =>
      followed_look (List.Subset.refl _) hmem (ht.followed r hr hnot w hw), ht.left_out, ht.farthest⟩
  have hvisited : b.visited ⊆ cand :: b.visited := List.subset_cons_self _ _
  obtain ⟨hfull, hfar, hlook⟩ | ⟨hnear, results, hlook, hresults⟩ := look_cases dist admits ef hmem
  · -- the node is visited and left out
    have hsize := le_antisymm hs.size_le hfull
    rw [hlook]
    refine ⟨ht.frontier_dist, fun r hr hnot w hw =>
      followed_look hvisited List.mem_cons_self (ht.followed r hr hnot w hw), fun v hv hadm => ?_,
      ht.farthest⟩
    obtain rfl | hv := List.mem_cons.mp hv
    · exact Or.inr ⟨hsize, hfar⟩
    · exact ht.left_out v hv hadm
  have hpush : ∀ v, v ∈ ids ((minHeap F).elems ((minHeap F).push b.frontier (dist cand, cand))) ↔
      v = cand ∨ v ∈ ids ((minHeap F).elems b.frontier) := by
    intro v
    rw [(ids_perm ((minHeap F).elems_push b.frontier (dist cand, cand))).mem_iff]
    exact List.mem_cons
  have hfarthest := farthest_topDist h results b.worst
  rw [hlook]
  refine ⟨fun c hc => ?_, fun r hr hnot w hw => ?_, fun v hv hadm => ?_, hfarthest⟩
  · obtain rfl | hc := (minHeap F).mem_push.mp hc
    · rfl
    · exact ht.frontier_dist c hc
  · -- a result off the frontier was there before
    rw [hpush, not_or] at hnot
    have hold : r ∈ ids ((maxHeap F).elems b.results) := by
      obtain ⟨-, rfl⟩ | ⟨-, rfl⟩ := hresults
      · obtain ⟨c, hc, rfl⟩ := List.mem_map.mp hr
        obtain rfl | hc := mem_of_mem_keep hc
        · exact absurd rfl hnot.1
        · exact mem_ids hc
      · exact hr
    exact followed_look hvisited List.mem_cons_self (ht.followed r hold hnot.2 w hw)
  obtain ⟨-, rfl⟩ | ⟨hrefused, rfl⟩ := hresults
  · refine left_out_keep h hef hs.size_le (fun c hc => (hs.results c hc).2.1) ht.farthest hnear ?_
    obtain rfl | hv := List.mem_cons.mp hv
    · exact Or.inl List.mem_cons_self
    · exact (ht.left_out v hv hadm).imp_left (List.mem_cons_of_mem _)
  · obtain rfl | hv := List.mem_cons.mp hv
    · rw [hrefused] at hadm
      cases hadm
    · exact (ht.left_out v hv hadm).imp_right fun hout =>
        ⟨hout.1, hfarthest.lt_bound h (elems_ne_nil hef hout.1) ht.farthest.lt_false hout.2⟩

theorem Beam.Tight.looks (h : StrictWeak (FloatOps.lt (F := F))) (hef : 0 < ef) {cands : List ℕ}
    (hs : b.Sound dist admits g entry ef level)
    (hcands : ∀ a ∈ cands, Reach (g.next level) entry a)
    (ht : b.Tight dist admits g ef level cur cands) :
    (cands.foldl (Beam.look dist admits ef) b).Tight dist admits g ef level cur [] := by
  induction cands generalizing b with
  | nil => exact ht
  | cons a cands ih =>
      exact ih (hs.look (hcands a List.mem_cons_self))
        (fun a' ha' => hcands a' (List.mem_cons_of_mem _ ha')) (ht.look h hef hs)

/-- Following the links of a candidate that is taken off the frontier. -/
theorem Beam.Tight.expand (h : StrictWeak (FloatOps.lt (F := F))) (hef : 0 < ef)
    (hs : b.Sound dist admits g entry ef level) (ht : b.Tight dist admits g ef level cur [])
    {best : Cand F} {frontier : (minHeap F).Q}
    (hpop : (minHeap F).pop b.frontier = some (best, frontier))
    (hdeg : (g.neighbors best.2 level).length ≤ kMaxDegree) :
    (b.expand dist admits g ef level best frontier).Tight dist admits g ef level best.2 [] := by
  obtain ⟨hsound, hreach⟩ := hs.pop hpop
  have hperm := (minHeap F).elems_of_pop_some hpop
  unfold Beam.expand
  rw [List.take_of_length_le hdeg] at hreach ⊢
  refine Beam.Tight.looks h hef hsound hreach
    ⟨fun c hc => ht.frontier_dist c (hperm.mem_iff.mpr (List.mem_cons_of_mem _ hc)),
      fun r hr hnot w hw => ?_, ht.left_out, ht.farthest⟩
  by_cases hbest : r = best.2
  · exact Or.inr ⟨hbest, hbest ▸ hw⟩
  · refine (ht.followed r hr ?_ w hw).imp_right fun hrest => nomatch hrest.2
    rw [(ids_perm hperm).mem_iff]
    exact fun hin => (List.mem_cons.mp hin).elim hbest hnot

/-! ### The end of the loop -/

/-- No neighbour of a result is left out that is closer than some result. -/
def Settled (dist : ℕ → F) (admits : ℕ → Bool) (g : Graph) (ef : ℕ) (level : ℤ)
    (results : (maxHeap F).Q) : Prop :=
  ∀ r ∈ ids ((maxHeap F).elems results), ∀ a ∈ g.next level r, admits a = true →
    a ∈ ids ((maxHeap F).elems results) ∨
      (maxHeap F).size results = ef ∧
        ∀ c ∈ (maxHeap F).elems results, FloatOps.lt (dist a) c.1 = false

/-- When every result is off the frontier the results are settled. -/
theorem Beam.Tight.settled (h : StrictWeak (FloatOps.lt (F := F)))
    (ht : b.Tight dist admits g ef level cur [])
    (hoff : ∀ r ∈ ids ((maxHeap F).elems b.results), r ∉ ids ((minHeap F).elems b.frontier)) :
    Settled dist admits g ef level b.results := by
  intro r hr a ha hadm
  have hvisited := (ht.followed r hr (hoff r hr) a ha).resolve_right fun hrest => nomatch hrest.2
  exact (ht.left_out a hvisited hadm).imp_right fun hout =>
    ⟨hout.1, fun c hc => h.negTrans hout.2 (ht.farthest.lt_false c hc)⟩

/-- What the stop rule leaves on the frontier is farther away than every result. -/
theorem Beam.Tight.off_frontier (h : StrictWeak (FloatOps.lt (F := F)))
    (hs : b.Sound dist admits g entry ef level) (ht : b.Tight dist admits g ef level cur [])
    {best : Cand F} {frontier : (minHeap F).Q}
    (hpop : (minHeap F).pop b.frontier = some (best, frontier))
    (hstop : FloatOps.lt b.worst best.1 = true) :
    ∀ r ∈ ids ((maxHeap F).elems b.results), r ∉ ids ((minHeap F).elems b.frontier) := by
  intro r hr hin
  obtain ⟨c, hc, rfl⟩ := List.mem_map.mp hr
  obtain ⟨c', hc', hid⟩ := List.mem_map.mp hin
  have hsame : c'.1 = c.1 := by
    rw [ht.frontier_dist c' hc', (hs.results c hc).2.1, hid]
  have hbest : FloatOps.lt c'.1 best.1 = false :=
    (minHeap F).top_le (h.swap.comap Prod.fst) hpop c' hc'
  rw [h.negTrans (ht.farthest.lt_false c hc) (hsame ▸ hbest)] at hstop
  cases hstop

/-- **A loop with fuel enough ends with settled results.** -/
theorem searchLoop_settled (h : StrictWeak (FloatOps.lt (F := F))) (hef : 0 < ef) {n : ℕ}
    (hlt : ∀ v, Reach (g.next level) entry v → v < n)
    (hdeg : ∀ v, Reach (g.next level) entry v → (g.neighbors v level).length ≤ kMaxDegree) :
    ∀ {fuel : ℕ} {b : Beam F} {cur : ℕ}, b.Sound dist admits g entry ef level →
      b.Tight dist admits g ef level cur [] → b.todo n < fuel →
      Settled dist admits g ef level (searchLoop dist admits g ef level fuel b).results
  | 0, _, _, _, _, hfuel => absurd hfuel (Nat.not_lt_zero _)
  | fuel + 1, b, cur, hs, ht, hfuel => by
      unfold searchLoop
      cases hpop : (minHeap F).pop b.frontier with
      | none =>
          refine ht.settled h fun r _ hin => ?_
          rw [(minHeap F).elems_of_pop_none hpop] at hin
          exact absurd hin List.not_mem_nil
      | some x =>
          obtain ⟨best, frontier⟩ := x
          simp only
          split_ifs with hstop
          · exact ht.settled h (ht.off_frontier h hs hpop hstop.1)
          · have hlen := hdeg _ (hs.reach_best hpop)
            have htodo := hs.todo_expand hlt hpop
            exact searchLoop_settled h hef hlt hdeg (hs.expand hpop) (ht.expand h hef hs hpop hlen)
              (lt_of_lt_of_le htodo (Nat.le_of_lt_succ hfuel))

/-- What a search of a level returns for at most `ef` results. -/
structure Optimum (dist : ℕ → F) (admits : ℕ → Bool) (g : Graph) (entry ef : ℕ) (level : ℤ)
    (results : (maxHeap F).Q) : Prop where
  nodup : (ids ((maxHeap F).elems results)).Nodup
  size_le : (maxHeap F).size results ≤ ef
  found : ∀ c ∈ (maxHeap F).elems results,
    Reach (g.next level) entry c.2 ∧ c.1 = dist c.2 ∧ admits c.2 = true
  exhaustive : (maxHeap F).size results < ef → ∀ v,
    v ∈ ids ((maxHeap F).elems results) ↔ Reach (g.next level) entry v ∧ admits v = true
  settled : (maxHeap F).size results = ef → ∀ r ∈ ids ((maxHeap F).elems results),
    ∀ a ∈ g.next level r, admits a = true → a ∈ ids ((maxHeap F).elems results) ∨
      ∀ c ∈ (maxHeap F).elems results, FloatOps.lt (dist a) c.1 = false

/-- The nodes that a search of a level reaches, and their links. -/
theorem WellFormed.reach_lt {p : Params} {n l : ℕ} (hg : WellFormed p n g) (hentry : entry < n)
    (hlevel : (l : ℤ) ≤ g.levels entry) {v : ℕ} (hv : Reach (g.next l) entry v) :
    v < n ∧ (g.neighbors v l).length ≤ kMaxDegree := by
  obtain ⟨hlt, hle⟩ := (hg.closed l).reach hentry hlevel hv
  have hdeg := (hg.links v hlt l hle).length_le
  have hM := p.M_le
  refine ⟨hlt, hdeg.trans ?_⟩
  unfold Params.maxDegree Params.maxM0 Params.maxM
  split_ifs <;> omega

/-- **A search of a level of a well-formed graph** is exhaustive if it comes up short, and ends in a
local optimum otherwise. -/
theorem searchLayer_optimum (h : StrictWeak (FloatOps.lt (F := F))) {p : Params} {n l : ℕ}
    (hg : WellFormed p n g) (hn : n ≤ p.maxElements) (hentry : entry < n)
    (hlevel : (l : ℤ) ≤ g.levels entry) (hef : 1 ≤ ef) (dist : ℕ → F) (deleted : ℕ → Bool)
    (filterDeleted : Bool) :
    Optimum dist (fun id => !filterDeleted || !deleted id) g entry ef l
      (searchLayer p dist (fun id => !filterDeleted || !deleted id) g entry ef l) := by
  set admits : ℕ → Bool := fun id => !filterDeleted || !deleted id
  have hlt : ∀ v, Reach (g.next l) entry v → v < n := fun v hv =>
    (hg.reach_lt hentry hlevel hv).1
  have hdeg : ∀ v, Reach (g.next l) entry v → (g.neighbors v l).length ≤ kMaxDegree := fun v hv =>
    (hg.reach_lt hentry hlevel hv).2
  have htodo : (Beam.start dist admits entry).todo n < p.maxElements + 1 := todo_start hentry hn
  have hsettled : Settled dist admits g ef l (searchLayer p dist admits g entry ef l) :=
    searchLoop_settled h hef hlt hdeg (Beam.Sound.start hef) (Beam.Tight.start h) htodo
  obtain ⟨hnodup, hsize, hfound⟩ := searchLayer_sound p dist admits g entry l hef
  exact ⟨hnodup, hsize, hfound, searchLayer_complete dist admits hn hef hlt hdeg, fun _ r hr a ha hadm =>
    (hsettled r hr a ha hadm).imp_right And.right⟩

/-! ### Three points on a line -/

open StandIn

def lineParams : Params :=
  { Params.smallest with
    maxElements := 4
    maxElements_pos := by decide
    maxElements_lt := by decide }

/-- The graph of the points 0, 1 and 5. -/
def lineGraph : Graph :=
  (((Graph.empty.link lineParams (linePair [0, 1, 5]) 0 0).link lineParams (linePair [0, 1, 5])
    1 0).link lineParams (linePair [0, 1, 5]) 2 0)

theorem wellFormed_lineGraph : WellFormed lineParams 3 lineGraph :=
  (((WellFormed.empty lineParams).link (by decide) _ 0).link (by decide) _ 0).link (by decide) _ 0

/-- From the node at 5, a search for one of the points next to 0 ends at 1 if the node at 0 has a
tombstone. -/
theorem optimum_three_points :
    Optimum (linePair [0, 1, 5] 0) (fun id => !true || !decide (id = 0)) lineGraph 2 1 0
      (searchLayer lineParams (linePair [0, 1, 5] 0) (fun id => !true || !decide (id = 0))
        lineGraph 2 1 0) :=
  searchLayer_optimum strictWeak_ints wellFormed_lineGraph (by decide) (by decide) (by decide)
    (by decide) _ _ _

end

end Graph

end VectorSearch.Hnsw
