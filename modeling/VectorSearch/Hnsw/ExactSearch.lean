import VectorSearch.Hnsw.Reachability
import VectorSearch.Hnsw.SearchAnswers
import VectorSearch.Lib.TopK

/-! # When a search is exact

A search whose beam has room for all live vectors, and whose descent lands where all of them can be
reached, returns the `k` nearest live vectors (`search_exact`).  Distances are ranked by any linear
order that the comparison of the floats agrees with.

No list of layer 0 is full before the index has more than `2 * M + 1` vectors, so up to there layer 0
stays connected whatever is added, tombstoned and loaded in between (`Lived.sprawling`), and every
such search is exact (`small_exact`). -/

namespace VectorSearch.Hnsw.Index

open Links

variable {F : Type} [Platform F] {idx : Index F} {D : Type} [LinearOrder D] {rank : F → D}

/-- The live vectors under their labels, with their distances from a query. -/
def scored (idx : Index F) (query : List F) : Multiset (Label × F) :=
  idx.store.liveIds.val.map fun id => (idx.store.labels id,
    rawDistance idx.params.space (idx.params.prepare query) (idx.store.data id))

/-- They are the live entries of the keys. -/
theorem mem_scored (h : idx.store.Good idx.params) {query : List F} {x : Label × F} :
    x ∈ idx.scored query ↔ ∃ v, idx.store.keyMap x.1 = some (v, false) ∧
      x.2 = rawDistance idx.params.space (idx.params.prepare query) v := by
  rw [scored, Multiset.mem_map]
  constructor
  · rintro ⟨i, hi, rfl⟩
    obtain ⟨hlt, hdel⟩ := Finset.mem_filter.mp (Finset.mem_val.mp hi)
    have hkey := Store.keyMap_of_id (h.id_of_label (Finset.mem_range.mp hlt))
    rw [hdel] at hkey
    exact ⟨_, hkey, rfl⟩
  · rintro ⟨v, hkey, hdist⟩
    obtain ⟨i, hi, heq⟩ := Option.map_eq_some_iff.mp hkey
    obtain ⟨hlt, hlabel⟩ := h.label_of_id hi
    obtain ⟨rfl, hdel⟩ := Prod.mk.inj heq
    exact ⟨i, Finset.mem_filter.mpr ⟨Finset.mem_range.mpr hlt, hdel⟩, Prod.ext hlabel hdist.symm⟩

theorem nodup_scored (h : idx.store.Good idx.params) (query : List F) : (idx.scored query).Nodup := by
  refine Multiset.Nodup.map_on (fun i hi j hj heq => ?_) idx.store.liveIds.nodup
  have hlt : ∀ {i}, i ∈ idx.store.liveIds.val → i < idx.store.count := fun hi =>
    Finset.mem_range.mp (Finset.mem_filter.mp (Finset.mem_val.mp hi)).1
  have hi := h.id_of_label (hlt hi)
  rw [(Prod.mk.inj heq).1, h.id_of_label (hlt hj)] at hi
  exact (Option.some.inj hi).symm

/-- The comparison of the platform ranks the distances. -/
def Ranks (rank : F → D) : Prop := ∀ x y : F, FloatOps.lt x y = decide (rank x < rank y)

/-- What the beam holds are different live nodes with their distances. -/
theorem Answering.searchBase_live (h : idx.Answering) (hpos : 0 < idx.store.count) (q : List F)
    {ef : ℕ} (hef : 0 < ef) : (ids ((maxHeap F).elems (idx.searchBase q ef))).Nodup ∧
      ∀ c ∈ (maxHeap F).elems (idx.searchBase q ef), c.2 ∈ idx.store.liveIds ∧
        c.1 = rawDistance idx.params.space q (idx.store.data c.2) := by
  obtain ⟨hnodup, -, hfound⟩ := Graph.searchLayer_sound idx.params
    (fun id => rawDistance idx.params.space q (idx.store.data id))
    (fun id => ! idx.store.deleted id) idx.graph (idx.landing q) 0 hef
  refine ⟨hnodup, fun c hc => ?_⟩
  obtain ⟨hreach, hdist, hdel⟩ := hfound c hc
  refine ⟨Finset.mem_filter.mpr ⟨Finset.mem_range.mpr ?_, by simpa using hdel⟩, hdist⟩
  exact hreach.mem_of_closed (fun a _ v hv => h.searchable.grounded a v hv)
    (h.searchable.landing_lt hpos q)

/-- **A beam with room for all live nodes** finds all of them, if they can be reached. -/
theorem Answering.mem_roomy (h : idx.Answering) (hpos : 0 < idx.store.count) (q : List F) {ef : ℕ}
    (hef : 0 < ef) (hroom : idx.store.liveIds.card ≤ ef)
    (hreach : ∀ id ∈ idx.store.liveIds, Reach (idx.graph.next 0) (idx.landing q) id) (id : ℕ) :
    id ∈ ids ((maxHeap F).elems (idx.searchBase q ef)) ↔ id ∈ idx.store.liveIds := by
  obtain ⟨hnodup, hlive⟩ := h.searchBase_live hpos q hef
  have hmem : ∀ v ∈ ids ((maxHeap F).elems (idx.searchBase q ef)), v ∈ idx.store.liveIds := by
    intro v hv
    obtain ⟨c, hc, rfl⟩ := List.mem_map.mp hv
    exact (hlive c hc).1
  obtain hshort | hfull := Nat.lt_or_ge ((maxHeap F).size (idx.searchBase q ef)) ef
  · refine ⟨hmem id, fun hid => (h.mem_searchBase hpos q hef hshort id).mpr ⟨hreach id hid, ?_⟩⟩
    exact (Finset.mem_filter.mp hid).2
  · -- as many different live nodes as there are
    have hsub : (ids ((maxHeap F).elems (idx.searchBase q ef))).toFinset ⊆ idx.store.liveIds :=
      fun v hv => hmem v (List.mem_toFinset.mp hv)
    have heq := Finset.eq_of_subset_of_card_le hsub (by
      rw [List.toFinset_card_of_nodup hnodup, ids, List.length_map]
      exact hroom.trans hfull)
    rw [← heq, List.mem_toFinset]

/-- What the beam holds then. -/
theorem Answering.elems_roomy (h : idx.Answering) (hpos : 0 < idx.store.count) (q : List F) {ef : ℕ}
    (hef : 0 < ef) (hroom : idx.store.liveIds.card ≤ ef)
    (hreach : ∀ id ∈ idx.store.liveIds, Reach (idx.graph.next 0) (idx.landing q) id) :
    ((maxHeap F).elems (idx.searchBase q ef) : Multiset (Cand F)) =
      idx.store.liveIds.val.map fun id =>
        (rawDistance idx.params.space q (idx.store.data id), id) := by
  obtain ⟨hnodup, hlive⟩ := h.searchBase_live hpos q hef
  have hids : idx.store.liveIds.val =
      (ids ((maxHeap F).elems (idx.searchBase q ef)) : Multiset ℕ) := by
    refine (Multiset.Nodup.ext idx.store.liveIds.nodup (Multiset.coe_nodup.mpr hnodup)).mpr
      fun id => ?_
    exact (h.mem_roomy hpos q hef hroom hreach id).symm
  have hpairs : (ids ((maxHeap F).elems (idx.searchBase q ef))).map (fun id =>
      (rawDistance idx.params.space q (idx.store.data id), id)) =
        (maxHeap F).elems (idx.searchBase q ef) := by
    rw [ids, List.map_map]
    refine (List.map_congr_left fun c hc => ?_).trans (List.map_id _)
    exact Prod.ext (hlive c hc).2.symm rfl
  rw [hids, Multiset.map_coe, hpairs]

/-- **A search with room for all live vectors is exact**, if all of them can be reached from where
the descent lands. -/
theorem Answering.exact [DecidableEq F] (h : idx.Answering) (hrank : Ranks rank)
    (hentry : 0 < idx.store.count → idx.graph.entryPoint ≠ kNone) (query : List F) {k : ℕ}
    (hk : 1 ≤ k) {ef : ℕ} (hroom : idx.store.liveIds.card ≤ max ef k)
    (hreach : ∀ id ∈ idx.store.liveIds,
      Reach (idx.graph.next 0) (idx.landing (idx.params.prepare query)) id) :
    TopK (fun x => rank x.2) k (idx.scored query) (idx.search query k ef) := by
  obtain hzero | hpos := Nat.eq_zero_or_pos idx.store.count
  · have hnone : idx.search query k ef = [] := if_pos hzero
    have hlive : idx.store.liveIds = ∅ := by
      rw [Store.liveIds, hzero, Finset.range_zero, Finset.filter_empty]
    rw [hnone, scored, hlive]
    exact ⟨List.Pairwise.nil, le_refl _, (Nat.min_zero k).symm, fun c hc => absurd hc List.not_mem_nil⟩
  rw [search_of_entry hpos (hentry hpos), trimmed]
  set q := idx.params.prepare query with hq
  set Q := idx.searchBase q (max ef k)
  have hpop : ((maxHeap F).drain ((maxHeap F).tail^[(maxHeap F).size Q - k] Q)).reverse =
      ((maxHeap F).drain Q).reverse.take k := by
    have hsize : ((maxHeap F).drain Q).length = (maxHeap F).size Q :=
      ((maxHeap F).drain_perm Q).length_eq
    rw [(maxHeap F).drain_iterate_tail (Nat.sub_le _ k), List.reverse_drop, hsize]
    obtain hle | hle := Nat.le_total k ((maxHeap F).size Q)
    · rw [Nat.sub_sub_self hle]
    · rw [Nat.sub_eq_zero_of_le hle, Nat.sub_zero, List.take_of_length_le,
        List.take_of_length_le] <;> rw [List.length_reverse, hsize]
      exact hle
  have hsorted : (((maxHeap F).drain Q).reverse.map fun c => (idx.store.labels c.2, c.1)).Pairwise
      fun a b => rank a.2 ≤ rank b.2 := by
    rw [List.pairwise_map, List.pairwise_reverse]
    refine ((maxHeap F).drain_pairwise ((StrictWeak.of_rank rank hrank).comap Prod.fst) Q).imp fun {a b} hab => ?_
    have hab : FloatOps.lt a.1 b.1 = false := hab
    rw [hrank, decide_eq_false_iff_not, not_lt] at hab
    exact hab
  have hall : ((((maxHeap F).drain Q).reverse.map fun c => (idx.store.labels c.2, c.1) :
      List (Label × F)) : Multiset (Label × F)) = idx.scored query := by
    have helems := h.elems_roomy hpos q (lt_of_lt_of_le hk (le_max_right ef k)) hroom hreach
    rw [← Multiset.map_coe, Multiset.coe_reverse,
      Multiset.coe_eq_coe.mpr ((maxHeap F).drain_perm Q), helems, Multiset.map_map]
    rfl
  rw [hpop, List.map_take, ← hall]
  exact topK_take hsorted k

/-! ### The levels of the nodes -/

/-- An insertion is refused, or it adds a node on its level. -/
theorem addPointAt_levels (idx : Index F) (vec : List F) {label : Label} (level : ℤ)
    (hid : idx.store.hasLabel label = true ∨ idx.store.count < 2 ^ 32) :
    (idx.addPointAt vec label level).1 = idx ∨
      (idx.addPointAt vec label level).1.store.count = idx.store.count + 1 ∧
        (idx.addPointAt vec label level).1.graph.levels =
          Function.update idx.graph.levels idx.store.count level := by
  cases hres : (idx.addPointAt vec label level).2 with
  | error e => exact Or.inl (addPointAt_of_error hres)
  | ok id =>
    obtain ⟨hlabel, hlow, hideq, hstore, hgraph⟩ := addPointAt_of_ok hres
    have hcount := hid.resolve_left (by rw [hlabel]; exact Bool.false_ne_true)
    rw [Nat.mod_eq_of_lt hcount] at hlow hideq
    right
    rw [hstore, hgraph, Store.add_of_room vec hlabel (lt_min hlow hcount), Graph.levels_link, hideq]
    exact ⟨rfl, rfl⟩

/-- The calls keep the nodes with their levels. -/
theorem Op.levels_perform {op : Op F} (hid : op.HasId idx) :
    idx.store.count ≤ (op.perform idx).1.store.count ∧
      ∀ i < idx.store.count, (op.perform idx).1.graph.levels i = idx.graph.levels i := by
  cases op with
  | addPoint vec label level =>
    obtain hsame | ⟨hcount, hlevels⟩ := idx.addPointAt_levels vec level hid
    · have hperform : ((Op.addPoint vec label level).perform idx).1 = idx := hsame
      rw [hperform]
      exact ⟨le_rfl, fun _ _ => rfl⟩
    · refine ⟨Nat.le.intro hcount.symm, fun i hi => ?_⟩
      exact (congrFun hlevels i).trans (Function.update_of_ne hi.ne _ _)
  | markDeleted label => exact ⟨(Store.count_markDeleted _ _).ge, fun _ _ => rfl⟩
  | unmarkDeleted label => exact ⟨(Store.count_unmarkDeleted _ _).ge, fun _ _ => rfl⟩
  | search query k ef => exact ⟨le_rfl, fun _ _ => rfl⟩

/-! ### Small indexes -/

/-- A well-formed index without negative levels whose layer 0 is connected as long as no list on it
can be full. -/
structure Sprawling (idx : Index F) : Prop where
  wellFormed : idx.WellFormed
  nonneg : ∀ i < idx.store.count, 0 ≤ idx.graph.levels i
  connected : idx.store.count ≤ 2 * idx.params.M + 1 →
    Connected (idx.graph.next 0) {i | i < idx.store.count}

omit [Platform F] in
theorem Sprawling.new (p : Params) (seed : UInt64) : (Index.new p seed : Index F).Sprawling where
  wellFormed := WellFormed.new p seed
  nonneg _ h := absurd h (Nat.not_lt_zero _)
  connected _ i hi := absurd hi (Nat.not_lt_zero i)

omit [Platform F] in
theorem Sprawling.with_rng (h : idx.Sprawling) (rng : Rng) : ({ idx with rng } : Index F).Sprawling :=
  ⟨⟨h.wellFormed.store, h.wellFormed.graph⟩, h.nonneg, h.connected⟩

omit [Platform F] in
/-- Setting and clearing tombstones. -/
theorem Sprawling.with_store (h : idx.Sprawling) {s : Store F} (hgood : s.Good idx.params)
    (hcount : s.count = idx.store.count) : ({ idx with store := s } : Index F).Sprawling := by
  refine ⟨⟨hgood, ?_⟩, ?_, ?_⟩
  · exact hcount ▸ h.wellFormed.graph
  · exact hcount ▸ h.nonneg
  · exact hcount ▸ h.connected

theorem Sprawling.addPointAt (h : idx.Sprawling) {vec : List F} (hlen : vec.length = idx.params.dim)
    {label : Label} {level : ℤ} (hlevel : 0 ≤ level)
    (hid : idx.store.hasLabel label = true ∨ idx.store.count < 2 ^ 32) :
    (idx.addPointAt vec label level).1.Sprawling := by
  cases hres : (idx.addPointAt vec label level).2 with
  | error e => rwa [addPointAt_of_error hres]
  | ok id =>
    obtain ⟨n, rfl⟩ := Int.eq_ofNat_of_zero_le hlevel
    obtain ⟨hlabel, hlow, hideq, hstore, hgraph⟩ := addPointAt_of_ok hres
    have hcount := hid.resolve_left (by rw [hlabel]; exact Bool.false_ne_true)
    rw [Nat.mod_eq_of_lt hcount] at hlow hideq
    have hadd : (idx.addPointAt vec label n).1.store.count = idx.store.count + 1 := by
      rw [hstore, Store.add_of_room vec hlabel (lt_min hlow hcount)]
      rfl
    refine ⟨h.wellFormed.addPointAt hlen label n hcount, fun i hi => ?_, fun hfew => ?_⟩
    · rw [hgraph, hideq, Graph.levels_link]
      rw [hadd] at hi
      by_cases hic : i = idx.store.count
      · rw [hic, Function.update_self]
        exact Int.natCast_nonneg n
      · rw [Function.update_of_ne hic]
        exact h.nonneg i (by omega)
    · rw [hadd, params_addPointAt] at hfew
      rw [hadd]
      refine h.wellFormed.connected_addPointAt h.nonneg (a := ⟨vec, label, n⟩) hcount hres
        (fun i hi => ?_) (h.connected (by omega))
      -- a node has fewer neighbours than there are nodes
      have hlength := h.wellFormed.length_lt hi (h.nonneg i hi)
      rw [Params.maxM0]
      omega

theorem Sprawling.perform (h : idx.Sprawling) {op : Op F} (hsized : op.Sized idx.params.dim)
    (hid : op.HasId idx) (hdraws : op.Draws {level | 0 ≤ level}) : (op.perform idx).1.Sprawling := by
  have hstore := h.wellFormed.store
  cases op with
  | addPoint vec label level => exact h.addPointAt hsized hdraws hid
  | markDeleted label =>
    exact h.with_store (hstore.markDeleted label).1 (Store.count_markDeleted _ _)
  | unmarkDeleted label =>
    exact h.with_store (hstore.unmarkDeleted label).1 (Store.count_unmarkDeleted _ _)
  | search query k ef => exact h

/-- **In a small index everything is found.** -/
theorem Sprawling.reach (h : idx.Sprawling) (hfew : idx.store.count ≤ 2 * idx.params.M + 1)
    (q : List F) : ∀ id ∈ idx.store.liveIds, Reach (idx.graph.next 0) (idx.landing q) id := by
  intro id hid
  have hlt := Finset.mem_range.mp (Finset.mem_filter.mp hid).1
  have hpos : 0 < idx.store.count := by omega
  have hg := h.wellFormed.graph
  have hmax : 0 ≤ idx.graph.maxLevel := hg.level_entry hpos ▸ h.nonneg _ (hg.entry_lt hpos)
  exact h.connected hfew _ (Graph.descend_closed idx.params _ hg.closed le_rfl hmax
    (hg.entry_lt hpos) (hg.level_entry hpos).ge).1 _ hlt

section
variable [Platform UInt32] {p : Params} {idx : Index UInt32} {rank : UInt32 → D}

theorem Lived.mono {S S' : Set ℤ} (hS : S ⊆ S') (h : Lived p S idx) : Lived p S' idx := by
  induction h with
  | new seed => exact .new seed
  | call op rng _ hsized hid hdraws ih =>
    refine ih.call op rng hsized hid ?_
    cases op with
    | addPoint vec label level => exact hS hdraws
    | markDeleted | unmarkDeleted | search => trivial
  | reload _ hload ih => exact ih.reload hload

/-- If no node is on a negative level then none was drawn. -/
theorem Lived.nonneg {S : Set ℤ} (hS : S ⊆ {level | p.Storable level}) (h : Lived p S idx)
    (hnonneg : ∀ i < idx.store.count, 0 ≤ idx.graph.levels i) :
    Lived p (S ∩ {level | 0 ≤ level}) idx := by
  induction h with
  | new seed => exact .new seed
  | @call idx op rng h hsized hid hdraws ih =>
    obtain ⟨hcount, hlevels⟩ := Op.levels_perform hid
    have hbefore := ih fun i hi => hlevels i hi ▸ hnonneg i (hi.trans_le hcount)
    cases op with
    | addPoint vec label level =>
      obtain hsame | ⟨hadded, hlevels⟩ := idx.addPointAt_levels vec level hid
      · have hperform : ((Op.addPoint vec label level).perform idx).1 = idx := hsame
        rw [hperform]
        exact hbefore.call (.search [] 0 0) rng trivial trivial trivial
      · have hnew := hnonneg idx.store.count (hadded ▸ Nat.lt_succ_self _)
        have hlevel : ((Op.addPoint vec label level).perform idx).1.graph.levels idx.store.count =
            level := (congrFun hlevels _).trans (Function.update_self _ _ _)
        exact hbefore.call _ rng hsized hid ⟨hdraws, hlevel ▸ hnew⟩
    | markDeleted label => exact hbefore.call (.markDeleted label) rng trivial trivial trivial
    | unmarkDeleted label => exact hbefore.call (.unmarkDeleted label) rng trivial trivial trivial
    | search query k ef => exact hbefore.call (.search query k ef) rng trivial trivial trivial
  | @reload idx idx' h hload ih =>
    have hstored := (h.stored hS).2
    have hsame := hload
    rw [hstored.load_save] at hsame
    obtain rfl := Except.ok.inj hsame
    exact (ih hnonneg).reload hload

theorem Lived.sprawling (h : Lived p {level | p.Storable level ∧ 0 ≤ level} idx) :
    idx.params = p ∧ idx.Sprawling := by
  induction h with
  | new seed => exact ⟨rfl, Sprawling.new p seed⟩
  | call op rng _ hsized hid hdraws ih =>
    obtain ⟨rfl, h⟩ := ih
    refine ⟨Op.params_perform _ op, (h.perform hsized hid ?_).with_rng rng⟩
    cases op with
    | addPoint vec label level => exact hdraws.2
    | markDeleted | unmarkDeleted | search => trivial
  | reload h hload ih =>
    obtain ⟨rfl, hstored⟩ := h.stored fun level hlevel => hlevel.1
    rw [hstored.load_save] at hload
    obtain rfl := Except.ok.inj hload
    exact ⟨rfl, ih.2.with_rng _⟩

/-- **A search is exact** after any sequential calls, loading included, when the beam has room for all
live vectors and all of them can be reached from where the descent lands: it returns the `k` nearest
live vectors with their distances, nearest first. -/
theorem search_exact (hrank : Ranks rank) (h : Lived p {level | p.Storable level} idx)
    (hentry : 0 < idx.store.count → idx.graph.entryPoint ≠ kNone) (query : List UInt32) {k : ℕ}
    (hk : 1 ≤ k) {ef : ℕ} (hroom : idx.store.liveIds.card ≤ max ef k)
    (hreach : ∀ id ∈ idx.store.liveIds,
      Reach (idx.graph.next 0) (idx.landing (idx.params.prepare query)) id) :
    TopK (fun x => rank x.2) k (idx.scored query) (idx.search query k ef) :=
  h.answering.2.exact hrank hentry query hk hroom hreach

/-- In a small index every search finds its way to all live vectors. -/
theorem Lived.small (h : Lived p {level | p.Storable level ∧ 0 ≤ level} idx)
    (hfew : idx.store.count ≤ 2 * p.M + 1) :
    (0 < idx.store.count → idx.graph.entryPoint ≠ kNone) ∧
      ∀ q, ∀ id ∈ idx.store.liveIds, Reach (idx.graph.next 0) (idx.landing q) id := by
  obtain ⟨rfl, hsprawling⟩ := h.sprawling
  refine ⟨fun hpos => hsprawling.wellFormed.graph.entry_ne_none hpos ?_, hsprawling.reach hfew⟩
  have hM := idx.params.M_le
  rw [kMaxDegree] at hM
  rw [kNone]
  omega

end

open StandIn in
theorem ranks_bits : Ranks UInt32.toNat := fun x y => by
  simp [FloatOps.lt, UInt32.lt_iff_toNat_lt]

end VectorSearch.Hnsw.Index
