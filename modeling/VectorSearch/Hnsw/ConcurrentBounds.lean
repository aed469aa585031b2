import VectorSearch.Hnsw.Bounds
import VectorSearch.Hnsw.EntryLock
import VectorSearch.Hnsw.LostLinks

/-! # Every access of concurrent insertions is in range

While calls of `addPoint` interleave, a list may be overwritten and a node may be seen before it is
linked.  It is never seen before its slot is filled: the links of a level lead to filled nodes of
that level, and so do the places that a call keeps in its `Job` (`Job.Within`).  Each step keeps
this (`Job.Within.work`, `Move.bounded`).

So in every run every vector that is read was written before, and every block that is read or
written lies in its array (`accesses_in_range`), although lists are read under the mutex of one node
only and links may be lost. -/

namespace VectorSearch.Hnsw

open VectorSearch.Hnsw.Graph (Beam)
open RwLock (Mode)

section
variable {F : Type} [Platform F] {p : Params} {pair : ℕ → ℕ → F}

/-! ### The places of a job -/

/-- The job of a node of the given level stays among the nodes of its levels; `A l` are those of
level `l`. -/
def Job.Within (p : Params) (level : ℕ) (A : ℕ → ℕ → Prop) : Job F → Prop
  | .first | .linked | .settled => True
  | .descend l cur _ => level ≤ l ∧ A l cur
  | .search l b => l ≤ level ∧ b.Inside (A l)
  | .connect l selected => l ≤ level ∧ (∀ v ∈ selected, A l v) ∧ selected.length ≤ p.M
  | .back l next rest => l ≤ level ∧ A l next ∧ ∀ v ∈ rest, A l v

/-- The nodes of a level are on the levels below it. -/
def Layered (A : ℕ → ℕ → Prop) : Prop := ∀ l v, A (l + 1) v → A l v

omit [Platform F] in
theorem Layered.mono {A : ℕ → ℕ → Prop} (h : Layered A) {l l' v : ℕ} (hle : l ≤ l')
    (hv : A l' v) : A l v := by
  induction l', hle using Nat.le_induction with
  | base => exact hv
  | succ l' _ ih => exact ih (h l' v hv)

namespace Job

variable {A B : ℕ → ℕ → Prop} {id level : ℕ} {g : Graph} {job : Job F}

/-- More nodes may have come to the levels. -/
theorem Within.imp (h : job.Within p level A) (hAB : ∀ l v, A l v → B l v) :
    job.Within p level B := by
  cases job with
  | first | linked | settled => trivial
  | descend l cur curDist => exact ⟨h.1, hAB l cur h.2⟩
  | search l b =>
      exact ⟨h.1, fun c hc => hAB l _ (h.2.frontier c hc), fun c hc => hAB l _ (h.2.results c hc)⟩
  | connect l selected => exact ⟨h.1, fun v hv => hAB l v (h.2.1 v hv), h.2.2⟩
  | back l next rest => exact ⟨h.1, hAB l next h.2.1, fun v hv => hAB l v (h.2.2 v hv)⟩

theorem within_enter {l cur : ℕ} (hl : l ≤ level) (hcur : A l cur) :
    (enter pair id l cur).Within p level A :=
  ⟨hl, Graph.Beam.Inside.start _ _ hcur⟩

theorem within_next (hA : Layered A) {cur : ℕ} : ∀ {l : ℕ}, l ≤ level → A l cur →
    (next pair id l cur).Within p level A
  | 0, _, _ => trivial
  | _ + 1, hl, hcur => within_enter (Nat.le_of_succ_le hl) (hA _ _ hcur)

/-- The first job, where the entry point is on the highest level. -/
theorem within_start (hA : Layered A) (hmax : 0 ≤ g.maxLevel)
    (hentry : g.entryPoint ≠ kNone → A g.maxLevel.toNat g.entryPoint) :
    (start pair g id level).Within p level A := by
  unfold start
  split_ifs with hnone hlow
  · trivial
  · exact ⟨by omega, hentry hnone⟩
  · exact within_enter (by omega) (hA.mono (by omega) (hentry hnone))

/-- **The next section of a job** stays among the nodes of its levels, if the links do. -/
theorem Within.work (hA : Layered A) (hlinks : ∀ a l v, v ∈ g.neighbors a (l : ℕ) → A l v)
    (hid : ∀ l ≤ level, A l id) (h : job.Within p level A) :
    (job.work p pair id level g).2.Within p level A := by
  cases job with
  | first | linked | settled => trivial
  | descend l cur curDist =>
      obtain ⟨hl, hcur⟩ := h
      have hscan := Graph.greedyScan_mem (pair id) (g.neighbors cur l) (cur, curDist, false)
      unfold Job.work
      simp only
      generalize Graph.greedyScan (pair id) (g.neighbors cur l) (cur, curDist, false) = st at hscan
      obtain ⟨cur', curDist', changed⟩ := st
      have hcur' : A l cur' := by
        obtain rfl | hmem := hscan
        · exact hcur
        · exact hlinks cur l cur' hmem
      cases changed with
      | true => exact ⟨hl, hcur'⟩
      | false =>
          simp only
          split_ifs with hlow
          · exact ⟨hlow.le, hA.mono (Nat.sub_le l 1) hcur'⟩
          · exact within_enter le_rfl (hA.mono hl hcur')
  | search l b =>
      obtain ⟨hl, hb⟩ := h
      have hselected : (Job.connect l (Graph.selectNeighborsHeuristic pair b.results p.M) :
          Job F).Within p level A := by
        refine ⟨hl, fun v hv => ?_, ?_⟩
        · have hsub := Graph.selectNeighborsHeuristic_subperm pair b.results p.M
          obtain ⟨c, hc, rfl⟩ := List.mem_map.mp (hsub.subset hv)
          exact hb.results c hc
        · rw [Graph.length_selectNeighborsHeuristic]
          exact min_le_right _ _
      unfold Job.work
      simp only
      cases hpop : (minHeap F).pop b.frontier with
      | none => exact hselected
      | some x =>
          obtain ⟨best, frontier⟩ := x
          obtain ⟨-, hpopped⟩ := hb.pop hpop
          simp only
          split_ifs
          · exact hselected
          · exact ⟨hl, hpopped.looks _ _ _ fun v hv => hlinks best.2 l v (List.mem_of_mem_take hv)⟩
  | connect l selected =>
      obtain ⟨hl, hsel, -⟩ := h
      cases selected with
      | nil => exact within_next hA hl (hid l hl)
      | cons n rest => exact ⟨hl, hsel n List.mem_cons_self, hsel⟩
  | back l cur rest =>
      obtain ⟨hl, hcur, hrest⟩ := h
      cases rest with
      | nil => exact within_next hA hl hcur
      | cons n rest => exact ⟨hl, hcur, fun v hv => hrest v (List.mem_cons_of_mem _ hv)⟩

/-- A list after the next section of a job: as before, or written by it, or linked back into. -/
theorem neighbors_work_cases (p : Params) (pair : ℕ → ℕ → F) (id level : ℕ) (g : Graph)
    (job : Job F) (a l : ℕ) :
    (job.work p pair id level g).1.neighbors a l = g.neighbors a l ∨
      (∃ selected, job = .connect l selected ∧
        (job.work p pair id level g).1.neighbors a l = selected.take (p.maxDegree l)) ∨
      ∃ next rest, job = .back l next (a :: rest) ∧
        (job.work p pair id level g).1.neighbors a l =
          Graph.backLinks p pair id l a (g.neighbors a l) := by
  by_cases hown : ∃ b rest, job = .connect l (b :: rest) ∧ a = id
  · obtain ⟨b, rest, rfl, rfl⟩ := hown
    refine Or.inr (Or.inl ⟨_, rfl, ?_⟩)
    rw [Job.work, Graph.setLinks, Graph.neighbors, Graph.linkBlock_setBlock, if_pos ⟨rfl, rfl⟩,
      Block.neighbors_write]
  · by_cases hback : ∃ cur rest, job = .back l cur (a :: rest)
    · obtain ⟨cur, rest, rfl⟩ := hback
      refine Or.inr (Or.inr ⟨cur, rest, rfl, ?_⟩)
      rw [Job.work, Graph.linkBack_eq, Graph.neighbors, Graph.linkBlock_setBlock, if_pos ⟨rfl, rfl⟩,
        Graph.neighbors_backBlock]
      rfl
    · exact Or.inl (neighbors_work p pair id level g (fun b rest hjob ha => hown ⟨b, rest, hjob, ha⟩)
        fun cur rest hjob => hback ⟨cur, rest, hjob⟩)

/-! ### The accesses of a job -/

/-- The nodes other than the own one whose vectors the next section reads. -/
def reads (g : Graph) : Job F → List ℕ
  | .descend l cur _ => cur :: g.neighbors cur l
  | .search l b =>
      (((minHeap F).pop b.frontier).elim [] fun x => (g.neighbors x.1.2 l).take kMaxDegree) ++
        ((maxHeap F).elems b.results).map Prod.snd
  | .back l cur (n :: _) => cur :: n :: g.neighbors n l
  | .back _ cur [] => [cur]
  | _ => []

/-- The node and the level of the block that the next section reads or writes. -/
def block (id : ℕ) : Job F → Option (ℕ × ℕ)
  | .descend l cur _ => some (cur, l)
  | .search l b => ((minHeap F).pop b.frontier).map fun x => (x.1.2, l)
  | .connect l (_ :: _) => some (id, l)
  | .back l _ (n :: _) => some (n, l)
  | _ => none

/-- The nodes that a job reads are nodes of a level. -/
theorem Within.mem_reads (hlinks : ∀ a l v, v ∈ g.neighbors a (l : ℕ) → A l v)
    (h : job.Within p level A) {v : ℕ} (hv : v ∈ job.reads g) : ∃ l, A l v := by
  cases job with
  | first | linked | settled => cases hv
  | descend l cur curDist =>
      obtain rfl | hv := List.mem_cons.mp hv
      · exact ⟨l, h.2⟩
      · exact ⟨l, hlinks cur l v hv⟩
  | search l b =>
      obtain hv | hv := List.mem_append.mp hv
      · cases hpop : (minHeap F).pop b.frontier with
        | none =>
            rw [hpop] at hv
            cases hv
        | some x =>
            rw [hpop] at hv
            exact ⟨l, hlinks x.1.2 l v (List.mem_of_mem_take hv)⟩
      · obtain ⟨c, hc, rfl⟩ := List.mem_map.mp hv
        exact ⟨l, h.2.results c hc⟩
  | connect l selected => cases selected <;> cases hv
  | back l cur rest =>
      obtain ⟨-, hcur, hrest⟩ := h
      cases rest with
      | nil => exact ⟨l, List.mem_singleton.mp hv ▸ hcur⟩
      | cons n rest =>
          obtain rfl | hv := List.mem_cons.mp hv
          · exact ⟨l, hcur⟩
          · obtain rfl | hv := List.mem_cons.mp hv
            · exact ⟨l, hrest v List.mem_cons_self⟩
            · exact ⟨l, hlinks n l v hv⟩

/-- The block that a job goes to is one of a node of the level. -/
theorem Within.block (h : job.Within p level A) (hid : ∀ l ≤ level, A l id) {a l : ℕ}
    (hb : job.block id = some (a, l)) : A l a := by
  cases job with
  | first | linked | settled => cases hb
  | descend l cur curDist =>
      cases hb
      exact h.2
  | search l b =>
      obtain ⟨x, hpop, hx⟩ := Option.map_eq_some_iff.mp hb
      cases hx
      exact (h.2.pop hpop).1
  | connect l selected =>
      cases selected with
      | nil => cases hb
      | cons n rest =>
          cases hb
          exact hid l h.1
  | back l cur rest =>
      cases rest with
      | nil => cases hb
      | cons n rest =>
          obtain ⟨-, -, hrest⟩ := h
          cases hb
          exact hrest a List.mem_cons_self

end Job

namespace Inserts

variable {s s' : Inserts F} {t : ℕ}

/-! ### Filled slots -/

theorem filled_congr (hret : s'.returned = s.returned)
    (hnode : ∀ u, (s'.threads u).node = (s.threads u).node) (v : ℕ) : s'.Filled v ↔ s.Filled v := by
  unfold Filled
  rw [hret]
  simp only [hnode]

/-- A call that returns leaves its slot filled. -/
theorem filled_release {mode : Mode} {id level : ℕ} (hnode : (s.threads t).node = some (id, level))
    (v : ℕ) : (s.release t id mode).Filled v ↔ s.Filled v := by
  have hself : (s.release t id mode).threads t = .idle := threads_self _ _ _
  have hother : ∀ u ≠ t, (s.release t id mode).threads u = s.threads u := fun u hu =>
    threads_of_ne _ _ hu
  constructor
  · rintro (hret | ⟨u, l, hu⟩)
    · obtain rfl | hret := List.mem_cons.mp hret
      · exact Or.inr ⟨t, level, hnode⟩
      · exact Or.inl hret
    · by_cases hut : u = t
      · rw [hut, hself] at hu
        cases hu
      · exact Or.inr ⟨u, l, by rwa [hother u hut] at hu⟩
  · rintro (hret | ⟨u, l, hu⟩)
    · exact Or.inl (List.mem_cons_of_mem _ hret)
    · by_cases hut : u = t
      · rw [hut, hnode] at hu
        obtain ⟨rfl, -⟩ := Prod.mk.inj (Option.some.inj hu)
        exact Or.inl List.mem_cons_self
      · exact Or.inr ⟨u, l, by rwa [hother u hut]⟩

/-- A call that fills a slot. -/
theorem filled_fill (p : Params) {id level : ℕ} (hph : s.threads t = .counted id) (v : ℕ) :
    (s.fill p t id level).Filled v ↔ v = id ∨ s.Filled v := by
  have hself : (s.fill p t id level).threads t = .ready id level := threads_self _ _ _
  have hother : ∀ u ≠ t, (s.fill p t id level).threads u = s.threads u := fun u hu =>
    threads_of_ne _ _ hu
  constructor
  · rintro (hret | ⟨u, l, hu⟩)
    · exact Or.inr (Or.inl hret)
    · by_cases hut : u = t
      · rw [hut, hself] at hu
        obtain ⟨rfl, -⟩ := Prod.mk.inj (Option.some.inj hu)
        exact Or.inl rfl
      · exact Or.inr (Or.inr ⟨u, l, by rwa [hother u hut] at hu⟩)
  · rintro (rfl | hret | ⟨u, l, hu⟩)
    · exact Or.inr ⟨t, level, by rw [hself]; rfl⟩
    · exact Or.inl hret
    · have hut : u ≠ t := by
        rintro rfl
        rw [hph] at hu
        cases hu
      exact Or.inr ⟨u, l, by rwa [hother u hut]⟩

/-- Nobody has filled the slot of an id that was counted and not filled yet. -/
theorem Inv.not_filled (h : Inv p s) {id : ℕ} (hph : s.threads t = .counted id)
    (hroom : id < p.maxElements) : ¬ s.Filled id := by
  obtain ⟨n, R, hn⟩ := h.alloc
  have hgiven : (s.threads t).given p = some id := by rw [hph, Task.given_of_lt hroom]
  rintro (hret | ⟨u, l, hu⟩)
  · exact hn.apart hgiven hret
  · obtain rfl := hn.inj (Task.given_of_node hu) hgiven
    rw [hph] at hu
    cases hu

theorem Inv.filled_lt (h : Inv p s) {v : ℕ} (hv : s.Filled v) : v < p.maxElements := by
  obtain ⟨n, R, hn⟩ := h.alloc
  have hgiven : s.Given p v := by
    obtain hret | ⟨u, l, hu⟩ := hv
    · exact Or.inr hret
    · exact Or.inl ⟨u, Task.given_of_node hu⟩
  exact lt_of_lt_of_le ((hn.given v).mpr hgiven) hn.le

/-- A move fills a slot, or it leaves the slots and their levels as they are. -/
theorem Move.slots (hm : Move p pair s t s') :
    ((∀ v, s'.Filled v ↔ s.Filled v) ∧ s'.graph.levels = s.graph.levels ∧
        s'.graph.upperSize = s.graph.upperSize) ∨
      ∃ id level, s.threads t = .counted id ∧ id < p.maxElements ∧ s' = s.fill p t id level := by
  cases hm with
  | take hph =>
      refine Or.inl ⟨filled_congr rfl ?_, rfl, rfl⟩
      exact congr_setThread Task.node { s with count := s.count + 1 } (by rw [hph]; rfl)
  | reject hph _ =>
      refine Or.inl ⟨filled_congr rfl ?_, rfl, rfl⟩
      exact congr_setThread Task.node { s with count := s.count - 1, full := s.full + 1 }
        (by rw [hph]; rfl)
  | fill level hph hroom => exact Or.inr ⟨_, level, hph, hroom, rfl⟩
  | probe hph _ =>
      refine Or.inl ⟨filled_congr rfl ?_, rfl, rfl⟩
      exact congr_setThread Task.node s (by rw [hph]; rfl)
  | @acquire _ _ _ entryLock hph _ =>
      refine Or.inl ⟨filled_congr rfl ?_, rfl, rfl⟩
      exact congr_setThread Task.node { s with entryLock } (by rw [hph]; rfl)
  | @work _ id level _ job hph hjob =>
      have hframe := (Job.work_spec p pair id level s.graph hjob).1
      simp only [Graph.frame, Prod.mk.injEq] at hframe
      obtain ⟨hlevels, hupper, -, -⟩ := hframe
      refine Or.inl ⟨filled_congr rfl ?_, hlevels, hupper⟩
      exact congr_setThread Task.node
        { s with graph := (job.work p pair id level s.graph).1 } (by rw [hph]; rfl)
  | @promote _ id level _ _ hph _ =>
      refine Or.inl ⟨filled_congr rfl ?_, rfl, rfl⟩
      exact congr_setThread Task.node
        { s with graph := { s.graph with entryPoint := id, maxLevel := level } } (by rw [hph]; rfl)
  | keep hph _ =>
      refine Or.inl ⟨filled_congr rfl ?_, rfl, rfl⟩
      exact congr_setThread Task.node s (by rw [hph]; rfl)
  | release hph => exact Or.inl ⟨filled_release (by rw [hph]; rfl), rfl, rfl⟩

/-! ### The invariant -/

/-- The slot of the node is filled, and the node is on the level. -/
def Stands (s : Inserts F) (l v : ℕ) : Prop := s.Filled v ∧ (l : ℤ) ≤ s.graph.levels v

theorem layered_stands (s : Inserts F) : Layered s.Stands := fun l v h =>
  ⟨h.1, by have := h.2; push_cast at this; omega⟩

/-- The own node stands on the levels that it is to be linked on. -/
theorem Inv.stands_own (h : Inv p s) {mode : Mode} {id level : ℕ} {curMaxLevel : ℤ}
    {job : Job F} (hph : s.threads t = .inside mode id level curMaxLevel job) {l : ℕ}
    (hl : l ≤ level) : s.Stands l id := by
  refine ⟨Or.inr ⟨t, level, by rw [hph]; rfl⟩, ?_⟩
  rw [h.node (t := t) (by rw [hph]; rfl)]
  exact Int.ofNat_le.mpr hl

/-- What the lists and the calls have of nodes, and what the nodes have of arrays. -/
structure Bounded (p : Params) (s : Inserts F) : Prop where
  links : ∀ a l v, v ∈ s.graph.neighbors a (l : ℕ) → s.Stands l v
  degree : ∀ a (l : ℕ), (s.graph.neighbors a l).length ≤ p.maxDegree l
  upper : ∀ a, s.Filled a → s.graph.upperSize a = (s.graph.levels a).toNat * p.strideUpper
  fresh : ∀ a, ¬ s.Filled a → s.graph.upperSize a = 0
  nonneg : ∀ a, s.Filled a → 0 ≤ s.graph.levels a
  jobs : ∀ {t mode id level curMaxLevel job}, s.threads t = .inside mode id level curMaxLevel job →
    job.Within p level s.Stands

theorem Bounded.start : Bounded p (start : Inserts F) where
  links a l v hv := by
    unfold Inserts.start Graph.neighbors Graph.linkBlock Graph.empty at hv
    split_ifs at hv <;> cases hv
  degree a l := by
    unfold Inserts.start Graph.neighbors Graph.linkBlock Graph.empty
    split_ifs <;> exact Nat.zero_le _
  upper a h := by
    obtain h | ⟨t, l, h⟩ := h <;> cases h
  fresh _ _ := rfl
  nonneg _ _ := le_rfl
  jobs h := nomatch h

/-- The entry point is on the highest level. -/
theorem Bounded.maxLevel_nonneg (h : Bounded p s) (hinv : Inv p s) : 0 ≤ s.graph.maxLevel := by
  by_cases hne : s.graph.entryPoint = kNone
  · exact (hinv.empty hne).2.ge
  · exact (hinv.entry hne).1 ▸ h.nonneg _ (hinv.filled_entry hne)

theorem Bounded.stands_entry (h : Bounded p s) (hinv : Inv p s)
    (hne : s.graph.entryPoint ≠ kNone) : s.Stands s.graph.maxLevel.toNat s.graph.entryPoint := by
  refine ⟨hinv.filled_entry hne, ?_⟩
  rw [(hinv.entry hne).1, Int.toNat_of_nonneg (h.maxLevel_nonneg hinv)]

/-- A step that fills no slot. -/
theorem Bounded.move (h : Bounded p s) (hfilled : ∀ v, s'.Filled v ↔ s.Filled v)
    (hlevels : s'.graph.levels = s.graph.levels)
    (hupper : s'.graph.upperSize = s.graph.upperSize)
    (hlinks : ∀ a l v, v ∈ s'.graph.neighbors a (l : ℕ) → s.Stands l v)
    (hdegree : ∀ a (l : ℕ), (s'.graph.neighbors a l).length ≤ p.maxDegree l)
    (hother : ∀ u ≠ t, s'.threads u = s.threads u)
    (hjob : ∀ {mode id level curMaxLevel job},
      s'.threads t = .inside mode id level curMaxLevel job → job.Within p level s.Stands) :
    Bounded p s' := by
  have hstands : ∀ l v, s'.Stands l v ↔ s.Stands l v := fun l v => by
    unfold Stands
    rw [hfilled, hlevels]
  refine ⟨fun a l v hv => (hstands l v).mpr (hlinks a l v hv), hdegree, fun a ha => ?_,
    fun a ha => ?_, fun a ha => ?_, fun {u mode id level curMaxLevel job} hu => ?_⟩
  · rw [hupper, hlevels]
    exact h.upper a ((hfilled a).mp ha)
  · rw [hupper]
    exact h.fresh a fun hf => ha ((hfilled a).mpr hf)
  · rw [hlevels]
    exact h.nonneg a ((hfilled a).mp ha)
  · refine Job.Within.imp ?_ fun l v => (hstands l v).mpr
    by_cases hut : u = t
    · exact hjob (hut ▸ hu)
    · rw [hother u hut] at hu
      exact h.jobs hu

/-- A step that leaves the lists alone, too. -/
theorem Bounded.move_same (h : Bounded p s) (hfilled : ∀ v, s'.Filled v ↔ s.Filled v)
    (hlevels : s'.graph.levels = s.graph.levels)
    (hupper : s'.graph.upperSize = s.graph.upperSize)
    (hlists : ∀ a (l : ℕ), s'.graph.neighbors a l = s.graph.neighbors a l)
    (hother : ∀ u ≠ t, s'.threads u = s.threads u)
    (hjob : ∀ {mode id level curMaxLevel job},
      s'.threads t = .inside mode id level curMaxLevel job → job.Within p level s.Stands) :
    Bounded p s' :=
  h.move hfilled hlevels hupper (fun a l v hv => h.links a l v (hlists a l ▸ hv))
    (fun a l => hlists a l ▸ h.degree a l) hother hjob

theorem levels_fill (hinv : Inv p s) {id : ℕ} (level : ℕ) (hph : s.threads t = .counted id)
    (hroom : id < p.maxElements) {v : ℕ} (hv : s.Filled v) :
    (s.fill p t id level).graph.levels v = s.graph.levels v := by
  have hnew := hinv.not_filled hph hroom
  exact Function.update_of_ne (by rintro rfl; exact hnew hv) _ _

theorem stands_fill (hinv : Inv p s) {id : ℕ} (level : ℕ) (hph : s.threads t = .counted id)
    (hroom : id < p.maxElements) {l v : ℕ} (h : s.Stands l v) :
    (s.fill p t id level).Stands l v := by
  refine ⟨(filled_fill p hph v).mpr (Or.inr h.1), ?_⟩
  rw [levels_fill hinv level hph hroom h.1]
  exact h.2

/-- A call fills the slot of its node. -/
theorem Bounded.fill (h : Bounded p s) (hinv : Inv p s) {id : ℕ} (level : ℕ)
    (hph : s.threads t = .counted id) (hroom : id < p.maxElements) :
    Bounded p (s.fill p t id level) := by
  have hnew := hinv.not_filled hph hroom
  have hfilled : ∀ v, (s.fill p t id level).Filled v ↔ v = id ∨ s.Filled v := filled_fill p hph
  have hold : ∀ v, s.Filled v → (s.fill p t id level).graph.levels v = s.graph.levels v :=
    fun v hv => levels_fill hinv level hph hroom hv
  have hself : (s.fill p t id level).graph.levels id = level := Function.update_self _ _ _
  have hsize : ∀ v ≠ id, (s.fill p t id level).graph.upperSize v = s.graph.upperSize v := by
    intro v hv
    unfold Inserts.fill Graph.setLevel
    simp only [setThread]
    split_ifs
    · exact Function.update_of_ne hv _ _
    · rfl
  have hsizeSelf : (s.fill p t id level).graph.upperSize id = level * p.strideUpper := by
    have hzero := h.fresh id hnew
    unfold Inserts.fill Graph.setLevel
    simp only [setThread]
    split_ifs with hpos
    · rw [Function.update_self, Int.toNat_natCast]
    · obtain rfl : level = 0 := by omega
      rw [hzero, Nat.zero_mul]
  have hstands : ∀ l v, s.Stands l v → (s.fill p t id level).Stands l v := fun l v hv =>
    stands_fill hinv level hph hroom hv
  have hlists : ∀ a (l : ℕ), (s.fill p t id level).graph.neighbors a l = s.graph.neighbors a l ∨
      (s.fill p t id level).graph.neighbors a l = [] := fun a l =>
    (Graph.neighbors_setLevel p a l s.graph id level).imp_right And.right
  refine ⟨fun a l v hv => ?_, fun a l => ?_, fun a ha => ?_, fun a ha => ?_, fun a ha => ?_,
    fun {u mode id' level' curMaxLevel job} hu => ?_⟩
  · obtain hsame | hnil := hlists a l
    · exact hstands l v (h.links a l v (hsame ▸ hv))
    · rw [hnil] at hv
      cases hv
  · obtain hsame | hnil := hlists a l
    · rw [hsame]
      exact h.degree a l
    · rw [hnil]
      exact Nat.zero_le _
  · by_cases hid : a = id
    · rw [hid, hsizeSelf, hself, Int.toNat_natCast]
    · have ha := ((hfilled a).mp ha).resolve_left hid
      rw [hsize a hid, hold a ha]
      exact h.upper a ha
  · have hid : a ≠ id := fun he => ha ((hfilled a).mpr (Or.inl he))
    rw [hsize a hid]
    exact h.fresh a fun hf => ha ((hfilled a).mpr (Or.inr hf))
  · by_cases hid : a = id
    · rw [hid, hself]
      exact Int.natCast_nonneg level
    · have ha := ((hfilled a).mp ha).resolve_left hid
      rw [hold a ha]
      exact h.nonneg a ha
  · by_cases hut : u = t
    · rw [hut, Inserts.fill, threads_self] at hu
      cases hu
    · rw [Inserts.fill, threads_of_ne _ _ hut] at hu
      exact (h.jobs hu).imp hstands

/-- **Every move keeps the bounds.** -/
theorem Move.bounded (hm : Move p pair s t s') (h : Bounded p s) (hinv : Inv p s) :
    Bounded p s' := by
  have hother : ∀ u ≠ t, s'.threads u = s.threads u := fun u hu => hm.threads_of_ne hu
  obtain ⟨hfilled, hlevels, hupper⟩ | ⟨id, level, hph, hroom, rfl⟩ := hm.slots
  case inr => exact h.fill hinv level hph hroom
  cases hm with
  | fill level hph hroom => exact h.fill hinv level hph hroom
  | take hph =>
      refine h.move_same hfilled hlevels hupper (fun _ _ => rfl) hother fun hj => ?_
      rw [Inserts.take, threads_self] at hj
      cases hj
  | reject hph hfull =>
      refine h.move_same hfilled hlevels hupper (fun _ _ => rfl) hother fun hj => ?_
      rw [Inserts.reject, threads_self] at hj
      cases hj
  | probe hph hlock =>
      refine h.move_same hfilled hlevels hupper (fun _ _ => rfl) hother fun hj => ?_
      rw [Inserts.probe, threads_self] at hj
      cases hj
  | acquire hph hacq =>
      refine h.move_same hfilled hlevels hupper (fun _ _ => rfl) hother fun hj => ?_
      rw [Inserts.acquired, threads_self] at hj
      cases hj
      exact Job.within_start s.layered_stands (h.maxLevel_nonneg hinv) (h.stands_entry hinv)
  | @work mode id level curMaxLevel job hph hjob =>
      have hid : ∀ l ≤ level, s.Stands l id := fun l hl => hinv.stands_own hph hl
      have hwithin := h.jobs hph
      refine h.move hfilled hlevels hupper (fun a l v hv => ?_) (fun a l => ?_) hother
        fun hj => ?_
      · obtain hsame | ⟨selected, rfl, hlist⟩ | ⟨next, rest, rfl, hlist⟩ :=
          Job.neighbors_work_cases p pair id level s.graph job a l
        · exact h.links a l v (hsame ▸ hv)
        · exact hwithin.2.1 v (List.mem_of_mem_take (hlist ▸ hv))
        · have hv : v ∈ Graph.backLinks p pair id l a (s.graph.neighbors a l) := hlist ▸ hv
          obtain rfl | hv := List.mem_cons.mp ((Graph.backLinks_subperm p pair id l a _).subset hv)
          · exact hid l hwithin.1
          · exact h.links a l v hv
      · obtain hsame | ⟨selected, rfl, hlist⟩ | ⟨next, rest, rfl, hlist⟩ :=
          Job.neighbors_work_cases p pair id level s.graph job a l
        · exact hsame ▸ h.degree a l
        · refine (congrArg List.length hlist).le.trans ?_
          rw [List.length_take]
          exact min_le_left _ _
        · exact (congrArg List.length hlist).le.trans (Graph.length_backLinks_le p pair id l a _)
      · rw [Inserts.work, threads_self] at hj
        cases hj
        exact hwithin.work s.layered_stands h.links hid
  | promote hph hjob =>
      refine h.move_same hfilled hlevels hupper (fun _ _ => rfl) hother fun hj => ?_
      rw [Inserts.promote, threads_self] at hj
      cases hj
      trivial
  | keep hph hle =>
      refine h.move_same hfilled hlevels hupper (fun _ _ => rfl) hother fun hj => ?_
      rw [Inserts.keep, threads_self] at hj
      cases hj
      trivial
  | release hph =>
      refine h.move_same hfilled hlevels hupper (fun _ _ => rfl) hother fun hj => ?_
      rw [Inserts.release, threads_self] at hj
      cases hj

/-- A node that stands on a level stays there. -/
theorem Move.stands (hm : Move p pair s t s') (hinv : Inv p s) {l v : ℕ} (h : s.Stands l v) :
    s'.Stands l v := by
  obtain ⟨hfilled, hlevels, -⟩ | ⟨id, level, hph, hroom, rfl⟩ := hm.slots
  · exact ⟨(hfilled v).mpr h.1, hlevels ▸ h.2⟩
  · exact stands_fill hinv level hph hroom h

theorem Reached.bounded (h : Reached p pair (fun s t _ => s.threads t = .idle → s.IdFits p) s) :
    Bounded p s := by
  induction h with
  | start => exact Bounded.start
  | step h hstep _ ih => exact (move_of_step hstep).bounded ih h.inv

/-! ### Accesses -/

/-- The nodes whose vectors the next section of a thread reads. -/
def reads (s : Inserts F) (t : ℕ) : List ℕ :=
  match s.threads t with
  | .idle | .counted _ | .ready _ _ => []
  | .probed id _ _ => if s.graph.entryPoint = kNone then [id] else [id, s.graph.entryPoint]
  | .inside _ id _ _ job => id :: job.reads s.graph

/-- The node and the level of the block that the next section of a thread reads or writes. -/
def block (s : Inserts F) (t : ℕ) : Option (ℕ × ℕ) :=
  match s.threads t with
  | .inside _ id _ _ job => job.block id
  | _ => none

/-- What is read was written. -/
theorem Bounded.filled_of_mem_reads (h : Bounded p s) (hinv : Inv p s) {v : ℕ}
    (hv : v ∈ s.reads t) : s.Filled v := by
  unfold reads at hv
  split at hv
  case h_1 | h_2 | h_3 => cases hv
  case h_4 id level becomesEntry hph =>
    have hown : s.Filled id := Or.inr ⟨t, level, by rw [hph]; rfl⟩
    split_ifs at hv with hnone
    · exact List.mem_singleton.mp hv ▸ hown
    · obtain rfl | hv := List.mem_cons.mp hv
      · exact hown
      · exact List.mem_singleton.mp hv ▸ hinv.filled_entry hnone
  case h_5 mode id level curMaxLevel job hph =>
    obtain rfl | hv := List.mem_cons.mp hv
    · exact Or.inr ⟨t, level, by rw [hph]; rfl⟩
    · obtain ⟨l, hl⟩ := (h.jobs hph).mem_reads h.links hv
      exact hl.1

/-- The block of a filled node on one of its levels. -/
theorem Bounded.hasBlock (h : Bounded p s) (hinv : Inv p s) (hfit : p.ArraysFit) {a l : ℕ}
    (ha : s.Stands l a) : s.graph.HasBlock p a l := by
  have hnonneg := h.nonneg a ha.1
  have hlevel := ha.2
  refine Graph.HasBlock.of_fit hfit (hinv.filled_lt ha.1) (h.upper a ha.1) (by omega) ?_
  rw [← Block.length_neighbors (s.graph.linkBlock a l)]
  exact h.degree a l

/-- What the next section of a thread goes to. -/
structure AccessesFit (p : Params) (s : Inserts F) (t : ℕ) : Prop where
  /-- a vector that is read was written -/
  filled : ∀ v ∈ s.reads t, s.Filled v
  slot : ∀ v ∈ s.reads t, p.HasSlot v
  block : ∀ a l, s.block t = some (a, l) → s.graph.HasBlock p a l
  /-- the slot that a call is to fill is in range, and no call reads it -/
  own : ∀ id, s.threads t = .counted id → id < p.maxElements → p.HasSlot id ∧ ∀ u, id ∉ s.reads u

/-- **Every access of concurrent insertions is in range**, in every state of every run whose calls
take ids that fit: a vector that is read was written before, the slot that a call fills is read by
none, and a block lies in its array. -/
theorem accesses_in_range (hfit : p.ArraysFit)
    (h : Reached p pair (fun s t _ => s.threads t = .idle → s.IdFits p) s) (t : ℕ) :
    s.AccessesFit p t := by
  have hinv := h.inv
  have hbounded := h.bounded
  have hfilled : ∀ u, ∀ v ∈ s.reads u, s.Filled v := fun u v hv =>
    hbounded.filled_of_mem_reads hinv hv
  refine ⟨hfilled t, fun v hv => hfit.hasSlot (hinv.filled_lt (hfilled t v hv)), fun a l hb => ?_,
    fun id hph hroom => ⟨hfit.hasSlot hroom, fun u hu =>
      hinv.not_filled hph hroom (hfilled u id hu)⟩⟩
  unfold block at hb
  split at hb
  case h_1 mode id level curMaxLevel job hph =>
    exact hbounded.hasBlock hinv hfit ((hbounded.jobs hph).block
      (fun l hl => hinv.stands_own hph hl) hb)
  case h_2 => cases hb

open StandIn

/-- Node 2 is about to be linked back into node 1, which another call is still linking. -/
theorem accesses_in_range_two : ∃ s : Inserts ℤ, s.reads 1 = [2, 1, 1] ∧ s.block 1 = some (1, 0) ∧
    s.block 0 = some (1, 0) ∧ s.AccessesFit Graph.lineParams 1 := by
  have hrun : ((start : Inserts ℤ).run Graph.lineParams nearPair
      (fun s _ => decide (s.count < kNone)) (firstCall ++ secondCall ++ List.replicate 9 (1, 0))).map
      (fun s => (s.reads 1, s.block 1, s.block 0)) = some ([2, 1, 1], some (1, 0), some (1, 0)) := by
    decide +kernel
  obtain ⟨s, hs, hseen⟩ := Option.map_eq_some_iff.mp hrun
  simp only [Prod.mk.injEq] at hseen
  obtain ⟨hreads, hblock, hother⟩ := hseen
  refine ⟨s, hreads, hblock, hother, accesses_in_range ⟨by decide, by decide⟩
    (Reached.run (fun hsafe _ => ?_) _ .start hs) 1⟩
  have hlt := of_decide_eq_true hsafe
  exact ⟨hlt.trans (by decide), fun _ => hlt.ne⟩

end Inserts

end

end VectorSearch.Hnsw
