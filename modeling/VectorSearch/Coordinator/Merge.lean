import VectorSearch.Coordinator.Gather

/-! # The merged answer

What `search` returns, for distances in a linear order.  The order of arrival and the sort are
arbitrary throughout.

* `search_ok_iff`, `search_partial`: when the search succeeds, and what it counts.
* `topK_search`: the result is a selection of the `k` nearest candidates.
* `scatter_gather`: the coordinator returns the true global top-k. -/

namespace VectorSearch.Coordinator

open Rpc (Answer ScoredKey Status)

section
variable {D : Type}

/-- The call of the shard failed. -/
def Failed (answer : Answer D) : Prop := ∃ e, answer = .error e

instance : DecidablePred (Failed (D := D)) := fun answer =>
  match answer with
  | .ok _ => isFalse fun ⟨_, h⟩ => nomatch h
  | .error e => isTrue ⟨e, rfl⟩

/-- The candidates of all shards that answered. -/
def allCandidates (numShards : ℕ) (answers : ℕ → Answer D) : Multiset (Candidate D) :=
  ((List.range numShards).map fun s => (candidates s (answers s) : Multiset (Candidate D))).sum

/-- The number of shards whose call failed. -/
def numFailed (numShards : ℕ) (answers : ℕ → Answer D) : ℕ :=
  (List.range numShards).countP fun s => Failed (answers s)

variable {allowPartial : Bool} {answers : ℕ → Answer D} {order : List ℕ} {numShards : ℕ}

/-! ### What is gathered -/

theorem gather_concat (allowPartial : Bool) (answers : ℕ → Answer D) (order : List ℕ) (s : ℕ) :
    gather allowPartial answers (order ++ [s]) =
      (gather allowPartial answers order).receive allowPartial s (answers s) := by
  unfold gather
  rw [List.foldl_append]
  rfl

/-- What is gathered depends on the shards that were heard. -/
theorem gather_congr (allowPartial : Bool) {answers answers' : ℕ → Answer D} {order : List ℕ}
    (h : ∀ s ∈ order, answers s = answers' s) :
    gather allowPartial answers order = gather allowPartial answers' order := by
  induction order using List.reverseRecOn with
  | nil => rfl
  | append_singleton order s ih =>
    rw [gather_concat, gather_concat, ih fun s hs => h s (List.mem_append_left _ hs),
      h s (List.mem_append_right _ (List.mem_singleton_self s))]

/-- The candidates are those of the answers. -/
theorem coe_all_gather (allowPartial : Bool) (answers : ℕ → Answer D) (order : List ℕ) :
    ((gather allowPartial answers order).all : Multiset (Candidate D)) =
      (order.map fun s => (candidates s (answers s) : Multiset (Candidate D))).sum := by
  induction order using List.reverseRecOn with
  | nil => rfl
  | append_singleton order s ih =>
    rw [gather_concat, List.map_append, List.sum_append, ← ih]
    unfold Gathered.receive
    cases h : answers s with
    | ok results => simp [h]
    | error e => cases allowPartial <;> simp [h, candidates]

/-- The failures that are counted. -/
theorem failed_gather (answers : ℕ → Answer D) (order : List ℕ) :
    (gather true answers order).failed = order.countP fun s => Failed (answers s) := by
  induction order using List.reverseRecOn with
  | nil => rfl
  | append_singleton order s ih =>
    rw [gather_concat, List.countP_append, ← ih]
    unfold Gathered.receive
    cases h : answers s with
    | ok results => simp [Failed, h]
    | error e => simp [Failed, h]

/-- Without `allow_partial` no failures are counted. -/
theorem failed_gather_false (answers : ℕ → Answer D) (order : List ℕ) :
    (gather false answers order).failed = 0 := by
  induction order using List.reverseRecOn with
  | nil => rfl
  | append_singleton order s ih =>
    rw [gather_concat, ← ih]
    unfold Gathered.receive
    cases answers s <;> rfl

/-- Whether the group has an error. -/
theorem err_gather (allowPartial : Bool) (answers : ℕ → Answer D) (order : List ℕ) :
    (gather allowPartial answers order).err = none ↔
      allowPartial = true ∨ ∀ s ∈ order, ¬ Failed (answers s) := by
  induction order using List.reverseRecOn with
  | nil => simp [gather, Gathered.empty]
  | append_singleton order s ih =>
    rw [gather_concat]
    unfold Gathered.receive
    cases h : answers s with
    | ok results =>
      rw [ih]
      simp [or_imp, forall_and, Failed, h]
    | error e =>
      cases allowPartial with
      | true => simpa using ih
      | false => simp [or_imp, forall_and, Failed, h]

/-! ### The result -/

variable {sort : SortSlice} {less : D → D → Bool} {pool : Pool D} {query : List UInt32} {k ef : ℕ}
  {r : GatherResult D}

/-- The list that is sorted and cut. -/
theorem finish_eq_ok {g : Gathered D} :
    g.finish sort less numShards k = .ok r ↔
      g.err = none ∧
        r = ⟨(sort.run (fun a b => less a.distance b.distance) g.all).take k, numShards, g.failed⟩ := by
  have htake : ∀ l : List (Candidate D), (if k < l.length then l.take k else l) = l.take k := by
    intro l
    split_ifs with h
    · rfl
    · rw [List.take_of_length_le (by omega)]
  unfold Gathered.finish
  cases g.err with
  | none => simp [htake, eq_comm]
  | some e => simp

theorem search_ok_iff (horder : order.Perm (List.range pool.numShards)) :
    (∃ r, search sort less pool query k ef allowPartial order = .ok r) ↔
      allowPartial = true ∨ ∀ s < pool.numShards, ¬ Failed (pool.answers query k ef s) := by
  unfold search
  simp only [finish_eq_ok, exists_and_left, exists_eq, and_true, err_gather, horder.mem_iff,
    List.mem_range]

theorem search_partial (horder : order.Perm (List.range pool.numShards))
    (h : search sort less pool query k ef true order = .ok r) :
    r.shardsFailed = numFailed pool.numShards (pool.answers query k ef) := by
  obtain ⟨-, rfl⟩ := finish_eq_ok.mp h
  rw [failed_gather]
  exact horder.countP_eq _

theorem coe_all_gather_range (horder : order.Perm (List.range numShards)) :
    ((gather allowPartial answers order).all : Multiset (Candidate D)) =
      allCandidates numShards answers := by
  rw [coe_all_gather]
  exact (horder.map _).sum_eq

/-- The shards that answered. -/
def healthy (numShards : ℕ) (answers : ℕ → Answer D) : List ℕ :=
  (List.range numShards).filter fun s => ¬ Failed (answers s)

/-- The scored keys of an answer. -/
def scoredKeys : Answer D → List (ScoredKey D)
  | .ok results => results
  | .error _ => []

theorem exists_of_mem_healthy {s : ℕ} (h : s ∈ healthy numShards answers) :
    s < numShards ∧ ∃ l, answers s = .ok l := by
  obtain ⟨hlt, hok⟩ := List.mem_filter.mp h
  refine ⟨List.mem_range.mp hlt, ?_⟩
  cases hl : answers s with
  | ok l => exact ⟨l, rfl⟩
  | error e => exact absurd ⟨e, hl⟩ (of_decide_eq_true hok)

theorem numFailed_add_healthy (numShards : ℕ) (answers : ℕ → Answer D) :
    numFailed numShards answers + (healthy numShards answers).length = numShards := by
  have h := List.length_eq_countP_add_countP (fun s => decide (Failed (answers s)))
    (l := List.range numShards)
  rw [List.length_range] at h
  refine Eq.trans ?_ h.symm
  rw [numFailed, healthy, ← List.countP_eq_length_filter]
  simp

/-- **The failures of a search that succeeds** are the shards that did not answer, and without
`allow_partial` all of them did. -/
theorem search_failed (horder : order.Perm (List.range pool.numShards))
    (h : search sort less pool query k ef allowPartial order = .ok r) :
    r.shardsFailed = numFailed pool.numShards (pool.answers query k ef) ∧
      (allowPartial = false → healthy pool.numShards (pool.answers query k ef) =
        List.range pool.numShards) := by
  have hall := (search_ok_iff horder).mp ⟨r, h⟩
  have hhealthy : allowPartial = false → healthy pool.numShards (pool.answers query k ef) =
      List.range pool.numShards := by
    rintro rfl
    refine List.filter_eq_self.mpr fun s hs => ?_
    simpa using hall.resolve_left Bool.false_ne_true s (List.mem_range.mp hs)
  refine ⟨?_, hhealthy⟩
  cases allowPartial with
  | true => exact search_partial horder h
  | false =>
    have hcount := numFailed_add_healthy pool.numShards (pool.answers query k ef)
    rw [hhealthy rfl, List.length_range] at hcount
    obtain ⟨-, rfl⟩ := finish_eq_ok.mp h
    exact (failed_gather_false _ order).trans (by omega)

theorem map_scored_allCandidates (numShards : ℕ) (answers : ℕ → Answer D) :
    (allCandidates numShards answers).map Candidate.scored =
      ((healthy numShards answers).map fun s => (scoredKeys (answers s) : Multiset _)).sum := by
  unfold allCandidates healthy
  induction List.range numShards with
  | nil => rfl
  | cons s shards ih =>
    rw [List.map_cons, List.sum_cons, Multiset.map_add, ih]
    cases h : answers s with
    | ok results =>
      simp [Failed, h, scoredKeys, candidates, Candidate.scored, Function.comp_def]
    | error e => simp [Failed, h, candidates]

/-! ### Ranked distances -/

variable [DecidableEq D] {E : Type} [LinearOrder E] (rank : D → E)

/-- **The result is a selection of the nearest candidates**, for a comparison that ranks the
distances. -/
theorem topK_ranked (hless : ∀ x y, less x y = decide (rank x < rank y))
    (horder : order.Perm (List.range pool.numShards))
    (h : search sort less pool query k ef allowPartial order = .ok r) :
    TopK (fun c => rank c.distance) k (allCandidates pool.numShards (pool.answers query k ef))
      r.results := by
  obtain ⟨-, rfl⟩ := finish_eq_ok.mp h
  rw [← coe_all_gather_range horder, ← Multiset.coe_eq_coe.mpr (sort.perm _ _)]
  refine topK_take ((sort.sorted ((StrictWeak.of_rank rank hless).comap Candidate.distance) _).imp ?_) k
  intro a b hab
  simpa [hless] using hab

/-- **Selections of the shards' own vectors are merged to one of their union.** -/
theorem topK_union_ranked (hless : ∀ x y, less x y = decide (rank x < rank y))
    (horder : order.Perm (List.range pool.numShards))
    (h : search sort less pool query k ef allowPartial order = .ok r)
    {own : ℕ → Multiset (ScoredKey D)}
    (hown : ∀ s ∈ healthy pool.numShards (pool.answers query k ef),
      TopK (fun x => rank x.distance) k (own s) (scoredKeys (pool.answers query k ef s))) :
    TopK (fun x => rank x.distance) k
      ((healthy pool.numShards (pool.answers query k ef)).map own).sum
      (r.results.map Candidate.scored) := by
  have hmap := TopK.map (d := fun x : ScoredKey D => rank x.distance) (f := Candidate.scored)
    (topK_ranked rank hless horder h)
  rw [map_scored_allCandidates, ← add_zero (List.sum _)] at hmap
  simpa using topK_sum _ hown hmap

end

section
variable {D : Type} [LinearOrder D]

/-- The comparison of `Search` on exact distances. -/
def closer (a b : D) : Bool := decide (a < b)

variable {sort : SortSlice} {pool : Pool D} {query : List UInt32} {k ef : ℕ} {allowPartial : Bool}
  {order : List ℕ} {r : GatherResult D}

/-- **The result is a selection of the nearest candidates.** -/
theorem topK_search (horder : order.Perm (List.range pool.numShards))
    (h : search sort closer pool query k ef allowPartial order = .ok r) :
    TopK Candidate.distance k (allCandidates pool.numShards (pool.answers query k ef)) r.results :=
  topK_ranked id (fun _ _ => rfl) horder h

/-- Selections of the shards' own vectors are merged to one of their union. -/
theorem topK_union (horder : order.Perm (List.range pool.numShards))
    (h : search sort closer pool query k ef allowPartial order = .ok r)
    {own : ℕ → Multiset (ScoredKey D)}
    (hown : ∀ s ∈ healthy pool.numShards (pool.answers query k ef),
      TopK ScoredKey.distance k (own s) (scoredKeys (pool.answers query k ef s))) :
    TopK ScoredKey.distance k
      ((healthy pool.numShards (pool.answers query k ef)).map own).sum
      (r.results.map Candidate.scored) :=
  topK_union_ranked id (fun _ _ => rfl) horder h hown

/-- **Scatter-gather returns the true global top-k whatever the arrival order.** -/
theorem scatter_gather (sort : SortSlice) (pool : Pool D) (query : List UInt32) {k : ℕ}
    (hk : 1 ≤ k) (ef : ℕ) {order : List ℕ} (horder : order.Perm (List.range pool.numShards)) :
    let answers := pool.answers query k ef
    let all := allCandidates pool.numShards answers
    let inside (r : GatherResult D) := fun c : Candidate D =>
      Inside k (r.results.map Candidate.distance) c.distance
    ((∃ r, search sort closer pool query k ef false order = .ok r) ↔
        ∀ s < pool.numShards, ¬ Failed (answers s)) ∧
      (∃ r, search sort closer pool query k ef true order = .ok r ∧
        r.shardsFailed = numFailed pool.numShards answers) ∧
      ∀ allowPartial r, search sort closer pool query k ef allowPartial order = .ok r →
        r.results.map Candidate.distance = (all.map Candidate.distance).sort.take k ∧
        (r.results : Multiset (Candidate D)) ≤ all ∧
        (∀ c, inside r c → r.results.count c = all.count c) ∧
        (∀ sort' order' r', order'.Perm (List.range pool.numShards) →
          search sort' closer pool query k ef allowPartial order' = .ok r' →
            r'.results.map Candidate.distance = r.results.map Candidate.distance ∧
            (∀ c, inside r c → r'.results.count c = r.results.count c)) ∧
        (∀ own : ℕ → Multiset (ScoredKey D),
          (∀ s < pool.numShards, ∃ l, answers s = .ok l ∧
            TopK ScoredKey.distance k (own s) l) →
          TopK ScoredKey.distance k ((List.range pool.numShards).map own).sum
            (r.results.map Candidate.scored)) := by
  refine ⟨(search_ok_iff horder).trans (by simp), ?_, fun allowPartial r h => ?_⟩
  · obtain ⟨r, h⟩ : ∃ r, search sort closer pool query k ef true order = .ok r :=
      (search_ok_iff horder).mpr (Or.inl rfl)
    exact ⟨r, h, search_partial horder h⟩
  have htop := topK_search horder h
  refine ⟨htop.map_eq, htop.le, fun c hc => htop.count_eq hk hc, ?_, fun own hown => ?_⟩
  · intro sort' order' r' horder' h'
    have htop' := topK_search horder' h'
    have hdist := htop'.map_eq.trans htop.map_eq.symm
    refine ⟨hdist, fun c hc => ?_⟩
    rw [htop.count_eq hk hc, htop'.count_eq hk (by rwa [hdist])]
  · have hall : healthy pool.numShards (pool.answers query k ef) = List.range pool.numShards := by
      refine List.filter_eq_self.mpr fun s hs => ?_
      obtain ⟨l, hl, -⟩ := hown s (List.mem_range.mp hs)
      simp [Failed, hl]
    rw [← hall]
    refine topK_union horder h fun s hs => ?_
    obtain ⟨l, hl, hl'⟩ := hown s (List.mem_range.mp (List.mem_of_mem_filter hs))
    rwa [hl]

/-- Two of three shards answer, the second one first. -/
def threeShards : Pool ℕ where
  numShards := 3
  shard s _ :=
    if s = 0 then .ok [⟨⟨1, 1⟩, 4⟩, ⟨⟨1, 2⟩, 7⟩]
    else if s = 1 then .ok [⟨⟨2, 1⟩, 4⟩, ⟨⟨2, 2⟩, 5⟩]
    else .error ⟨.unavailable, "down"⟩

theorem scatter_gather_three_shards :
    ∃ r, search .merge closer threeShards [0] 2 100 true [2, 1, 0] = .ok r ∧
      r.shardsFailed = numFailed 3 (threeShards.answers [0] 2 100) :=
  (scatter_gather .merge threeShards [0] (by decide : 1 ≤ 2) 100
    (by decide : [2, 1, 0].Perm (List.range 3))).2.1

end

end VectorSearch.Coordinator
