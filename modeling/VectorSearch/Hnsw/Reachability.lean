import VectorSearch.Hnsw.WellFormed

/-! # Which vectors a search can find

A search for as many vectors as there are returns the nodes that can be reached over the links of
layer 0 from the node where the descent lands (`Built.mem_found`).  Insertions keep layer 0
connected as long as they find no full list there, since then every link gets its link back
(`WellFormed.connected_addPointAt`); a full list is pruned, and may drop the last link into a node
(`pruned_node_lost`).  `found_iff` puts this together for a sequence of insertions into a new
index. -/

namespace VectorSearch.Hnsw

open Links

/-- The arguments of an insertion and the level that it draws. -/
structure Insertion (F : Type) where
  vec : List F
  label : Label
  level : ℕ

namespace Index

variable {F : Type} [Platform F] {idx idx' : Index F}

/-- Insertions one after another, if all of them return normally. -/
def addAllAt (idx : Index F) : List (Insertion F) → Option (Index F)
  | [] => some idx
  | a :: as =>
      match (idx.addPointAt a.vec a.label a.level).2 with
      | .ok _ => addAllAt (idx.addPointAt a.vec a.label a.level).1 as
      | .error _ => none

/-- No list of layer 0 is full when one of the insertions begins. -/
def NeverFull (idx : Index F) : List (Insertion F) → Prop
  | [] => True
  | a :: as => (∀ i < idx.size, (idx.graph.neighbors i 0).length < idx.params.maxM0) ∧
      NeverFull (idx.addPointAt a.vec a.label a.level).1 as

/-- The labels that a search for all vectors returns. -/
def found (idx : Index F) (query : List F) : List Label :=
  (idx.search query idx.size idx.size).map Prod.fst

/-! ### Built indexes -/

/-- What insertions build: a well-formed index without tombstones or negative levels. -/
structure Built (idx : Index F) : Prop where
  wellFormed : idx.WellFormed
  nonneg : ∀ i < idx.store.count, 0 ≤ idx.graph.levels i
  live : ∀ i, idx.store.deleted i = false

omit [Platform F] in
theorem Built.new (p : Params) (seed : UInt64) : (Index.new p seed : Index F).Built where
  wellFormed := WellFormed.new p seed
  nonneg _ h := absurd h (Nat.not_lt_zero _)
  live _ := rfl

/-- What an insertion that succeeds adds to a built index. -/
theorem Built.store_addPointAt (h : idx.Built) {a : Insertion F} {id : ℕ}
    (hcount : idx.store.count < 2 ^ 32)
    (hres : (idx.addPointAt a.vec a.label a.level).2 = .ok id) :
    (idx.addPointAt a.vec a.label a.level).1.store.count = idx.store.count + 1 ∧
      (idx.addPointAt a.vec a.label a.level).1.store.labels =
        Function.update idx.store.labels idx.store.count a.label ∧
      ∀ i, (idx.addPointAt a.vec a.label a.level).1.store.deleted i = false := by
  obtain ⟨hlabel, hlt, -, hstore, -⟩ := addPointAt_of_ok hres
  rw [Nat.mod_eq_of_lt hcount] at hlt
  rw [hstore, Store.add_of_room a.vec hlabel (lt_min hlt hcount)]
  refine ⟨rfl, rfl, fun i => ?_⟩
  simp only [Store.registerLabel, Store.writeSlot]
  by_cases hi : i = idx.store.count
  · rw [hi, Function.update_self]
  · rw [Function.update_of_ne hi]
    exact h.live i

/-- The graph after an insertion into an index that is not empty. -/
theorem WellFormed.graph_addPointAt (h : idx.WellFormed)
    (hnonneg : ∀ i < idx.store.count, 0 ≤ idx.graph.levels i) {a : Insertion F} {id : ℕ}
    (hpos : 0 < idx.store.count) (hcount : idx.store.count < 2 ^ 32)
    (hres : (idx.addPointAt a.vec a.label a.level).2 = .ok id) :
    ∃ (pair : ℕ → ℕ → F) (sel : List ℕ), Graph.Chosen idx.params idx.store.count idx.graph.levels 0 sel ∧
      ∀ j, (idx.addPointAt a.vec a.label a.level).1.graph.neighbors j 0 =
        if j = idx.store.count then sel
        else if j ∈ sel then
          Graph.backLinks idx.params pair idx.store.count 0 j (idx.graph.neighbors j 0)
        else idx.graph.neighbors j 0 := by
  obtain ⟨-, -, hid, -, hgraph⟩ := addPointAt_of_ok hres
  rw [Nat.mod_eq_of_lt hcount] at hid
  have hg := h.graph
  obtain ⟨hjoined, -⟩ := Graph.link_spec (p := idx.params)
    (idx.addPointAt a.vec a.label a.level).1.pair a.level hg.closed (hg.entry_lt hpos)
    (hg.entry_ne_none hpos (by rw [kNone]; omega)) (hg.level_entry hpos)
  have hmax : 0 ≤ idx.graph.maxLevel := hg.level_entry hpos ▸ hnonneg _ (hg.entry_lt hpos)
  obtain ⟨sel, hsel, hj⟩ := hjoined 0 (le_min (Int.natCast_nonneg a.level) hmax)
  refine ⟨(idx.addPointAt a.vec a.label a.level).1.pair, sel, hsel, fun j => ?_⟩
  rw [hgraph, hid]
  have hlinks := hj.neighbors hsel.length_le j
  by_cases hjc : j = idx.store.count
  · rw [if_pos hjc] at hlinks ⊢
    exact hlinks
  · have hset := Graph.neighbors_congr
      (Graph.linkBlock_setLevel_ne idx.params idx.graph a.level hjc 0)
    rw [if_neg hjc, hset] at hlinks
    rw [if_neg hjc]
    exact hlinks

theorem Built.addPointAt (h : idx.Built) {a : Insertion F} {id : ℕ}
    (hlen : a.vec.length = idx.params.dim) (hcount : idx.store.count < 2 ^ 32)
    (hres : (idx.addPointAt a.vec a.label a.level).2 = .ok id) :
    (idx.addPointAt a.vec a.label a.level).1.Built := by
  obtain ⟨hcnt, -, hlive⟩ := h.store_addPointAt hcount hres
  obtain ⟨-, -, hid, -, hgraph⟩ := addPointAt_of_ok hres
  rw [Nat.mod_eq_of_lt hcount] at hid
  refine ⟨h.wellFormed.addPointAt hlen a.label a.level hcount, fun i hi => ?_, hlive⟩
  rw [hgraph, hid, Graph.levels_link]
  rw [hcnt] at hi
  by_cases hic : i = idx.store.count
  · rw [hic, Function.update_self]
    exact Int.natCast_nonneg a.level
  · rw [Function.update_of_ne hic]
    exact h.nonneg i (by omega)

/-! ### Layer 0 stays connected without full lists -/

omit [Platform F] in
/-- A list of layer 0 is shorter than the number of nodes. -/
theorem WellFormed.length_lt (h : idx.WellFormed) {i : ℕ} (hi : i < idx.store.count)
    (hlevel : 0 ≤ idx.graph.levels i) : (idx.graph.neighbors i 0).length < idx.store.count := by
  have hok : Graph.LinksOk idx.params idx.store.count idx.graph.levels i 0
      (idx.graph.neighbors i 0) := h.graph.links i hi 0 hlevel
  have hsub : (i :: idx.graph.neighbors i 0).toFinset ⊆ Finset.range idx.store.count := by
    intro j hj
    rw [List.mem_toFinset, List.mem_cons] at hj
    rw [Finset.mem_range]
    obtain rfl | hj := hj
    · exact hi
    · exact hok.lt j hj
  have hcard := Finset.card_le_card hsub
  rw [List.toFinset_card_of_nodup (List.nodup_cons.mpr ⟨hok.not_self, hok.nodup⟩),
    Finset.card_range, List.length_cons] at hcard
  exact hcard

/-- **An insertion that finds no full list keeps layer 0 connected.** -/
theorem WellFormed.connected_addPointAt (h : idx.WellFormed)
    (hnonneg : ∀ i < idx.store.count, 0 ≤ idx.graph.levels i) {a : Insertion F} {id : ℕ}
    (hcount : idx.store.count < 2 ^ 32)
    (hres : (idx.addPointAt a.vec a.label a.level).2 = .ok id)
    (hroom : ∀ i < idx.store.count, (idx.graph.neighbors i 0).length < idx.params.maxM0)
    (hconn : Connected (idx.graph.next 0) {i | i < idx.store.count}) :
    Connected ((idx.addPointAt a.vec a.label a.level).1.graph.next 0)
      {i | i < idx.store.count + 1} := by
  obtain hzero | hpos := Nat.eq_zero_or_pos idx.store.count
  · intro i hi j hj
    obtain rfl : i = j := by
      simp only [hzero, Set.mem_ofPred_eq] at hi hj
      omega
    exact Reach.refl i
  obtain ⟨pair, sel, hsel, hlinks⟩ := h.graph_addPointAt hnonneg hpos hcount hres
  have hset : {i | i < idx.store.count + 1} = insert idx.store.count {i | i < idx.store.count} := by
    ext i
    simp only [Set.mem_ofPred_eq, Set.mem_insert_iff]
    omega
  have hback : ∀ j < idx.store.count, j ∈ sel →
      (idx.addPointAt a.vec a.label a.level).1.graph.neighbors j 0 =
        idx.graph.neighbors j 0 ++ [idx.store.count] := by
    intro j hj hmem
    rw [hlinks j, if_neg (Nat.ne_of_lt hj), if_pos hmem, Graph.backLinks]
    exact if_pos (hroom j hj)
  obtain ⟨s, hs⟩ := List.exists_mem_of_ne_nil sel hsel.ne_nil
  rw [hset]
  refine hconn.insert (s := s) (fun j hj v hv => ?_) (fun j hj v hv => ?_) (hsel.lt s hs) ?_ ?_
  · by_cases hmem : j ∈ sel
    · rw [Graph.next, hback j hj hmem]
      exact List.mem_append_left _ hv
    · rw [Graph.next, hlinks j, if_neg (Nat.ne_of_lt hj), if_neg hmem]
      exact hv
  · exact (h.graph.links j hj 0 (hnonneg j hj)).lt v hv
  · rw [Graph.next, hlinks, if_pos rfl]
    exact hs
  · rw [Graph.next, hback s (hsel.lt s hs) hs]
    exact List.mem_append_right _ List.mem_cons_self

/-! ### Runs of insertions -/

theorem addAllAt_cons {a : Insertion F} {as : List (Insertion F)}
    (h : idx.addAllAt (a :: as) = some idx') :
    ∃ id, (idx.addPointAt a.vec a.label a.level).2 = .ok id ∧
      (idx.addPointAt a.vec a.label a.level).1.addAllAt as = some idx' := by
  unfold addAllAt at h
  cases hres : (idx.addPointAt a.vec a.label a.level).2 with
  | error e =>
      rw [hres] at h
      cases h
  | ok id =>
      rw [hres] at h
      exact ⟨id, rfl, h⟩

/-- **What insertions build**: each adds a node with its label. -/
theorem Built.addAllAt : ∀ {as : List (Insertion F)} {idx : Index F}, idx.Built →
    (∀ a ∈ as, a.vec.length = idx.params.dim) → idx.store.count + as.length < 2 ^ 32 →
    idx.addAllAt as = some idx' →
    idx'.Built ∧ idx'.params = idx.params ∧ idx'.store.count = idx.store.count + as.length ∧
      (List.range idx'.store.count).map idx'.store.labels =
        (List.range idx.store.count).map idx.store.labels ++ as.map Insertion.label
  | [], idx, h, _, _, hrun => by
      cases hrun
      exact ⟨h, rfl, rfl, (List.append_nil _).symm⟩
  | a :: as, idx, h, hlen, hcount, hrun => by
      obtain ⟨id, hres, hrest⟩ := addAllAt_cons hrun
      rw [List.length_cons] at hcount
      have hlt : idx.store.count < 2 ^ 32 := by omega
      obtain ⟨hcnt, hlabels, -⟩ := h.store_addPointAt hlt hres
      obtain ⟨hbuilt, hparams, hcnt', hlabels'⟩ := Built.addAllAt
        (h.addPointAt (hlen a List.mem_cons_self) hlt hres)
        (fun a' ha' => by
          rw [params_addPointAt]
          exact hlen a' (List.mem_cons_of_mem _ ha'))
        (by omega) hrest
      refine ⟨hbuilt, hparams.trans (params_addPointAt _ _ _ _), ?_, ?_⟩
      · rw [hcnt', hcnt, List.length_cons]
        omega
      · have hold : (List.range idx.store.count).map (Function.update idx.store.labels
            idx.store.count a.label) = (List.range idx.store.count).map idx.store.labels :=
          List.map_congr_left fun i hi =>
            Function.update_of_ne (Nat.ne_of_lt (List.mem_range.mp hi)) _ _
        rw [hlabels', hcnt, hlabels, List.range_succ, List.map_append, hold, List.map_cons,
          List.map_cons, List.map_nil, Function.update_self, List.append_assoc]
        rfl

/-- Without full lists, insertions build a connected layer 0. -/
theorem Built.connected_addAllAt : ∀ {as : List (Insertion F)} {idx : Index F}, idx.Built →
    (∀ a ∈ as, a.vec.length = idx.params.dim) → idx.store.count + as.length < 2 ^ 32 →
    idx.addAllAt as = some idx' → idx.NeverFull as →
    Connected (idx.graph.next 0) {i | i < idx.store.count} →
    Connected (idx'.graph.next 0) {i | i < idx'.store.count}
  | [], idx, _, _, _, hrun, _, hconn => by
      cases hrun
      exact hconn
  | a :: as, idx, h, hlen, hcount, hrun, hroom, hconn => by
      obtain ⟨id, hres, hrest⟩ := addAllAt_cons hrun
      rw [List.length_cons] at hcount
      have hlt : idx.store.count < 2 ^ 32 := by omega
      obtain ⟨hcnt, -⟩ := h.store_addPointAt hlt hres
      refine Built.connected_addAllAt (h.addPointAt (hlen a List.mem_cons_self) hlt hres)
        (fun a' ha' => ?_) (by omega) hrest hroom.2 ?_
      · rw [params_addPointAt]
        exact hlen a' (List.mem_cons_of_mem _ ha')
      · rw [hcnt]
        exact h.wellFormed.connected_addPointAt h.nonneg hlt hres hroom.1 hconn

/-- Up to `2 * M + 1` insertions no list of layer 0 is full. -/
theorem Built.neverFull : ∀ {as : List (Insertion F)} {idx : Index F}, idx.Built →
    (∀ a ∈ as, a.vec.length = idx.params.dim) → idx.store.count + as.length < 2 ^ 32 →
    idx.addAllAt as = some idx' → idx.store.count + as.length ≤ 2 * idx.params.M + 1 →
    idx.NeverFull as
  | [], _, _, _, _, _, _ => trivial
  | a :: as, idx, h, hlen, hcount, hrun, hfew => by
      obtain ⟨id, hres, hrest⟩ := addAllAt_cons hrun
      rw [List.length_cons] at hcount hfew
      have hlt : idx.store.count < 2 ^ 32 := by omega
      obtain ⟨hcnt, -⟩ := h.store_addPointAt hlt hres
      refine ⟨fun i hi => ?_, Built.neverFull (h.addPointAt (hlen a List.mem_cons_self) hlt hres)
        (fun a' ha' => ?_) (by omega) hrest ?_⟩
      · have hlength := h.wellFormed.length_lt hi (h.nonneg i hi)
        rw [Params.maxM0]
        omega
      · rw [params_addPointAt]
        exact hlen a' (List.mem_cons_of_mem _ ha')
      · rw [params_addPointAt]
        omega

/-! ### What a search for everything finds -/

/-- The descent of a search lands on a node. -/
theorem Built.landing_lt (h : idx.Built) (hpos : 0 < idx.store.count) (q : List F) :
    idx.landing q < idx.store.count := by
  have hg := h.wellFormed.graph
  have hmax : 0 ≤ idx.graph.maxLevel := hg.level_entry hpos ▸ h.nonneg _ (hg.entry_lt hpos)
  exact (Graph.descend_closed idx.params _ hg.closed le_rfl hmax (hg.entry_lt hpos)
    (hg.level_entry hpos).ge).1

theorem Built.lt_of_reach (h : idx.Built) (hpos : 0 < idx.store.count) {q : List F} {v : ℕ}
    (hv : Reach (idx.graph.next 0) (idx.landing q) v) : v < idx.store.count :=
  have hland := h.landing_lt hpos q
  ((h.wellFormed.graph.closed 0).reach hland (h.nonneg _ hland) hv).1

/-- What a search of layer 0 returns: at most `ef` different nodes, all reached from where the
descent lands. -/
theorem searchBase_sound (idx : Index F) (q : List F) {ef : ℕ} (hef : 0 < ef) :
    (ids ((maxHeap F).elems (idx.searchBase q ef))).Nodup ∧
      (maxHeap F).size (idx.searchBase q ef) ≤ ef ∧
      ∀ c ∈ (maxHeap F).elems (idx.searchBase q ef),
        Reach (idx.graph.next 0) (idx.landing q) c.2 := by
  obtain ⟨hnodup, hsize, hfound⟩ := Graph.searchLayer_sound idx.params
    (fun id => rawDistance idx.params.space q (idx.store.data id))
    (fun id => ! idx.store.deleted id) idx.graph (idx.landing q) 0 hef
  exact ⟨hnodup, hsize, fun c hc => (hfound c hc).1⟩

/-- **The nodes that a search of layer 0 with room for all of them returns** are those that can be
reached from where the descent lands. -/
theorem Built.mem_searchBase (h : idx.Built) (hpos : 0 < idx.store.count) (q : List F) (v : ℕ) :
    v ∈ ids ((maxHeap F).elems (idx.searchBase q idx.store.count)) ↔
      Reach (idx.graph.next 0) (idx.landing q) v := by
  have hdeg : ∀ v, Reach (idx.graph.next 0) (idx.landing q) v →
      (idx.graph.neighbors v 0).length ≤ kMaxDegree := fun v hv =>
    have hlt := h.lt_of_reach hpos hv
    (h.wellFormed.graph.links v hlt 0 (h.nonneg v hlt)).length_le.trans
      (show idx.params.maxM0 ≤ kMaxDegree from idx.params.M_le)
  have hcap : idx.store.count ≤ idx.params.maxElements :=
    h.wellFormed.store.count_le.trans (min_le_left _ _)
  obtain ⟨hnodup, hsize, hfound⟩ := idx.searchBase_sound q hpos
  have hcomplete : (maxHeap F).size (idx.searchBase q idx.store.count) < idx.store.count →
      ∀ v, v ∈ ids ((maxHeap F).elems (idx.searchBase q idx.store.count)) ↔
        Reach (idx.graph.next 0) (idx.landing q) v ∧ (! idx.store.deleted v) = true :=
    Graph.searchLayer_complete
      (fun id => rawDistance idx.params.space q (idx.store.data id))
      (fun id => ! idx.store.deleted id) hcap hpos (fun _ => h.lt_of_reach hpos) hdeg
  have hreach : v ∈ ids ((maxHeap F).elems (idx.searchBase q idx.store.count)) →
      Reach (idx.graph.next 0) (idx.landing q) v := by
    intro hv
    obtain ⟨c, hc, rfl⟩ := List.mem_map.mp hv
    exact hfound c hc
  refine ⟨hreach, fun hv => ?_⟩
  rcases Nat.lt_or_ge ((maxHeap F).size (idx.searchBase q idx.store.count)) idx.store.count
    with hshort | hall
  · exact (hcomplete hshort v).mpr ⟨hv, by rw [h.live v]; rfl⟩
  · -- as many different nodes as there are
    have hsub : (ids ((maxHeap F).elems (idx.searchBase q idx.store.count))).toFinset ⊆
        Finset.range idx.store.count := by
      intro w hw
      obtain ⟨c, hc, rfl⟩ := List.mem_map.mp (List.mem_toFinset.mp hw)
      exact Finset.mem_range.mpr (h.lt_of_reach hpos (hfound c hc))
    have heq := Finset.eq_of_subset_of_card_le hsub (by
      rw [Finset.card_range, List.toFinset_card_of_nodup hnodup, ids, List.length_map]
      exact hall)
    rw [← List.mem_toFinset, heq, Finset.mem_range]
    exact h.lt_of_reach hpos hv

/-- **What a search for everything returns**: the labels of the nodes that can be reached, each
once. -/
theorem Built.mem_found (h : idx.Built) (hcount : idx.store.count < 2 ^ 32) (query : List F) :
    (idx.found query).Nodup ∧ ∀ label, label ∈ idx.found query ↔
      ∃ id < idx.store.count, idx.store.labels id = label ∧
        Reach (idx.graph.next 0) (idx.landing (idx.params.prepare query)) id := by
  unfold found search size
  obtain hzero | hpos := Nat.eq_zero_or_pos idx.store.count
  · rw [if_pos hzero]
    refine ⟨List.nodup_nil, fun label => iff_of_false List.not_mem_nil ?_⟩
    rintro ⟨id, hid, -⟩
    omega
  rw [if_neg (Nat.ne_of_gt hpos),
    if_neg (h.wellFormed.graph.entry_ne_none hpos (by rw [kNone]; omega)), max_self]
  set q := idx.params.prepare query with hq
  obtain ⟨hnodup, hsize, hfound⟩ := idx.searchBase_sound q hpos
  have hmem := h.mem_searchBase hpos q
  have hlt : ∀ v, Reach (idx.graph.next 0) (idx.landing q) v → v < idx.store.count :=
    fun _ => h.lt_of_reach hpos
  simp only [Nat.sub_eq_zero_of_le hsize, Function.iterate_zero, id_eq]
  -- the labels, in the order of the heap
  have hperm : ((((maxHeap F).drain (idx.searchBase q idx.store.count)).reverse.map fun c =>
      (idx.store.labels c.2, c.1)).map Prod.fst).Perm
        ((ids ((maxHeap F).elems (idx.searchBase q idx.store.count))).map idx.store.labels) := by
    rw [List.map_map, ids, List.map_map]
    exact ((List.reverse_perm _).trans ((maxHeap F).drain_perm _)).map _
  refine ⟨hperm.nodup_iff.mpr (List.Nodup.map_on (fun v hv w hw heq => ?_) hnodup), fun label => ?_⟩
  · have hv' := h.wellFormed.store.id_of_label (hlt v ((hmem v).mp hv))
    have hw' := h.wellFormed.store.id_of_label (hlt w ((hmem w).mp hw))
    rw [heq, hw'] at hv'
    exact (Option.some.inj hv').symm
  · rw [hperm.mem_iff, List.mem_map]
    constructor
    · rintro ⟨v, hv, rfl⟩
      exact ⟨v, hlt v ((hmem v).mp hv), rfl, (hmem v).mp hv⟩
    · rintro ⟨v, -, rfl, hv⟩
      exact ⟨v, (hmem v).mpr hv, rfl⟩

/-- **Which acknowledged vectors a search for all of them finds**: the ones that can be reached
over layer 0 from where the descent lands, so all exactly when all can be reached.  All are found
if no insertion began with a full list on layer 0, in particular up to `2 * M + 1` vectors. -/
theorem found_iff {p : Params} {seed : UInt64} {as : List (Insertion F)}
    (hrun : (Index.new p seed).addAllAt as = some idx) (hlen : ∀ a ∈ as, a.vec.length = p.dim)
    (hfew : as.length < 2 ^ 32) (query : List F) :
    ((idx.found query).Nodup ∧ ∀ label, label ∈ idx.found query ↔
      ∃ id < idx.size, idx.store.labels id = label ∧
        Reach (idx.graph.next 0) (idx.landing (p.prepare query)) id) ∧
      ((∀ a ∈ as, a.label ∈ idx.found query) ↔
        ∀ id < idx.size, Reach (idx.graph.next 0) (idx.landing (p.prepare query)) id) ∧
      ((Index.new p seed).NeverFull as → ∀ a ∈ as, a.label ∈ idx.found query) ∧
      (as.length ≤ 2 * p.M + 1 → ∀ a ∈ as, a.label ∈ idx.found query) := by
  have hnew : (Index.new p seed : Index F).Built := Built.new p seed
  have hzero : (Index.new p seed : Index F).store.count = 0 := rfl
  obtain ⟨h, hparams, hcount, hlabels⟩ := Built.addAllAt hnew hlen (by omega) hrun
  have hparams : idx.params = p := hparams
  have hlt : idx.store.count < 2 ^ 32 := by omega
  obtain ⟨hnodup, hmem⟩ := h.mem_found hlt query
  rw [hparams] at hmem
  have hlabel : ∀ label, (∃ a ∈ as, a.label = label) ↔
      ∃ id < idx.store.count, idx.store.labels id = label := by
    intro label
    have hin := congrArg (label ∈ ·) hlabels
    simpa only [hzero, List.range_zero, List.map_nil, List.nil_append, List.mem_map,
      List.mem_range, eq_iff_iff] using hin.symm
  have hall : (∀ a ∈ as, a.label ∈ idx.found query) ↔
      ∀ id < idx.size, Reach (idx.graph.next 0) (idx.landing (p.prepare query)) id := by
    constructor
    · intro hfound id hid
      obtain ⟨a, ha, heq⟩ := (hlabel (idx.store.labels id)).mpr ⟨id, hid, rfl⟩
      obtain ⟨id', hid', hsame, hreach⟩ := (hmem _).mp (hfound a ha)
      have h₁ := h.wellFormed.store.id_of_label hid'
      rw [hsame, heq, h.wellFormed.store.id_of_label hid] at h₁
      exact Option.some.inj h₁ ▸ hreach
    · intro hreach a ha
      obtain ⟨id, hid, heq⟩ := (hlabel a.label).mp ⟨a, ha, rfl⟩
      exact (hmem _).mpr ⟨id, hid, heq, hreach id hid⟩
  have hnever : (Index.new p seed).NeverFull as → ∀ a ∈ as, a.label ∈ idx.found query := by
    intro hroom
    have hconn := Built.connected_addAllAt hnew hlen (by omega) hrun hroom
      fun i hi => absurd hi (Nat.not_lt_zero i)
    exact hall.mpr fun id hid => hconn _ (h.landing_lt (Nat.zero_lt_of_lt hid) _) id hid
  exact ⟨⟨hnodup, hmem⟩, hall, hnever, fun hM => hnever (Built.neverFull hnew hlen (by omega) hrun
    (by rw [hzero]; exact (Nat.zero_add _).le.trans hM))⟩

end Index

/-! ### A vector that is lost -/

/-- Six insertions on layer 0, with `M = 2`: the third node is far from the others. -/
def prunedRun : List (Insertion ℤ) :=
  [⟨[3, 0, 0], ⟨0, 0⟩, 0⟩, ⟨[-3, 0, 0], ⟨0, 1⟩, 0⟩, ⟨[0, 40, 0], ⟨0, 2⟩, 0⟩,
    ⟨[0, 4, 0], ⟨0, 3⟩, 0⟩, ⟨[0, -2, 3], ⟨0, 4⟩, 0⟩, ⟨[0, -2, -3], ⟨0, 5⟩, 0⟩]

def prunedParams : Params :=
  { Params.smallest with
    dim := 3
    maxElements := 6
    efConstruction := 6
    dim_pos := by decide
    maxElements_pos := by decide
    M_le_ef := by decide
    dim_lt := by decide
    maxElements_lt := by decide
    ef_lt := by decide }

open StandIn in
/-- All six insertions return normally, and the third vector is not found, not even by itself. -/
theorem pruned_node_lost :
    ∃ idx, (Index.new prunedParams 0).addAllAt prunedRun = some idx ∧ idx.size = 6 ∧
      idx.size ≤ prunedParams.efConstruction ∧ (⟨0, 2⟩ : Label) ∉ idx.found [0, 40, 0] := by
  have hrun : ((Index.new prunedParams 0).addAllAt prunedRun).map
      (fun idx => (idx.size, idx.found [0, 40, 0])) =
        some (6, [⟨0, 3⟩, ⟨0, 0⟩, ⟨0, 1⟩, ⟨0, 4⟩, ⟨0, 5⟩]) := by decide +kernel
  obtain ⟨idx, hidx, hresult⟩ := Option.map_eq_some_iff.mp hrun
  obtain ⟨hsize, hfound⟩ := Prod.mk.inj hresult
  refine ⟨idx, hidx, hsize, hsize.le, ?_⟩
  rw [hfound]
  decide

open StandIn in
/-- The first five of them are all found. -/
theorem five_found :
    ∃ idx, (Index.new prunedParams 0).addAllAt (prunedRun.take 5) = some idx ∧
      ∀ a ∈ prunedRun.take 5, a.label ∈ idx.found [0, 40, 0] := by
  have hrun : ((Index.new prunedParams 0).addAllAt (prunedRun.take 5)).isSome = true := by
    decide +kernel
  obtain ⟨idx, hidx⟩ := Option.isSome_iff_exists.mp hrun
  exact ⟨idx, hidx, (Index.found_iff hidx (by decide) (by decide) [0, 40, 0]).2.2.2 (by decide)⟩

end VectorSearch.Hnsw
