import VectorSearch.Hnsw.Sequential

/-! # What a search may return

`Index.Searchable` is what makes the answers of `search` sound: the index is well formed and every
link of layer 0 leads to one of its nodes.  (`WellFormed` says this only of the nodes whose level is
not negative, but a search of layer 0 starts wherever the descent ends.)  `search_sound`: the keys
of an answer are different ones, and each is the label of a live node. -/

namespace VectorSearch.Hnsw

namespace Graph

section
variable {F : Type} [Platform F] {p : Params} {g : Graph} {n : ℕ}

/-- The links of layer 0 lead to the first `n` nodes. -/
def Grounded (n : ℕ) (g : Graph) : Prop := ∀ a, ∀ v ∈ g.neighbors a 0, v < n

theorem grounded_empty : Grounded 0 Graph.empty := fun _ _ hv => nomatch hv

/-- Linking the next node. -/
theorem Grounded.link (h : Grounded n g) (hw : WellFormed p n g) (hn : n ≤ kNone)
    (pair : ℕ → ℕ → F) (level : ℤ) : Grounded (n + 1) (g.link p pair n level) := by
  intro a v hv
  obtain hsel | hlist | hlist := hw.neighbors_link_zero hn pair level a
  · exact Nat.lt_succ_of_lt (hsel.lt v hv)
  · rw [hlist] at hv
    obtain rfl | hv := List.mem_cons.mp ((backLinks_subperm p pair n 0 a _).subset hv)
    · exact Nat.lt_succ_self _
    · exact Nat.lt_succ_of_lt (h a v hv)
  · rw [hlist] at hv
    exact Nat.lt_succ_of_lt (h a v hv)

end

end Graph

namespace Index

section
variable {F : Type} [Platform F] {idx : Index F}

/-- A well-formed index whose layer 0 can be searched from anywhere. -/
structure Searchable (idx : Index F) : Prop where
  wellFormed : idx.WellFormed
  grounded : idx.graph.Grounded idx.store.count

omit [Platform F] in
theorem Searchable.new (p : Params) (seed : UInt64) : (Index.new p seed : Index F).Searchable where
  wellFormed := WellFormed.new p seed
  grounded := Graph.grounded_empty

theorem Searchable.addPointAt (h : idx.Searchable) {vec : List F} (hlen : vec.length = idx.params.dim)
    {label : Label} (level : ℤ)
    (hid : idx.store.hasLabel label = true ∨ idx.store.count < 2 ^ 32) :
    (idx.addPointAt vec label level).1.Searchable := by
  cases hres : (idx.addPointAt vec label level).2 with
  | error e => rwa [addPointAt_of_error hres]
  | ok id =>
      obtain ⟨hlabel, hlt, hideq, hstore, hgraph⟩ := addPointAt_of_ok hres
      have hcount : idx.store.count < 2 ^ 32 := hid.resolve_left (by simp [hlabel])
      refine ⟨h.wellFormed.addPointAt hlen label level hcount, ?_⟩
      rw [Nat.mod_eq_of_lt hcount] at hlt hideq
      have hcnt : (idx.store.add idx.params vec label).1.count = idx.store.count + 1 := by
        rw [Store.add_of_room vec hlabel (lt_min hlt hcount)]
        rfl
      rw [hgraph, hstore, hcnt, hideq]
      exact h.grounded.link h.wellFormed.graph (by rw [kNone]; omega) _ level

theorem Searchable.addPoint (h : idx.Searchable) {vec : List F} (hlen : vec.length = idx.params.dim)
    {label : Label} (hid : idx.store.hasLabel label = true ∨ idx.store.count < 2 ^ 32) :
    (idx.addPoint vec label).1.Searchable := by
  obtain ⟨rng, heq⟩ := idx.addPoint_eq vec label
  have hadd := h.addPointAt hlen idx.randomLevel hid
  rw [heq]
  exact ⟨⟨hadd.wellFormed.store, hadd.wellFormed.graph⟩, hadd.grounded⟩

omit [Platform F] in
theorem Searchable.with_store (h : idx.Searchable) {s : Store F} (hgood : s.Good idx.params)
    (hcount : s.count = idx.store.count) : ({ idx with store := s } : Index F).Searchable :=
  ⟨⟨hgood, hcount ▸ h.wellFormed.graph⟩, hcount ▸ h.grounded⟩

/-- A descent ends at a node. -/
theorem Searchable.landing_lt (h : idx.Searchable) (hpos : 0 < idx.store.count) (q : List F) :
    idx.landing q < idx.store.count := by
  have hg := h.wellFormed.graph
  by_cases hmax : 0 ≤ idx.graph.maxLevel
  · exact (Graph.descend_closed idx.params _ hg.closed le_rfl hmax (hg.entry_lt hpos)
      (hg.level_entry hpos).ge).1
  · have hnone : (idx.graph.maxLevel - 0).toNat = 0 := by omega
    unfold landing Graph.descend
    rw [hnone]
    exact hg.entry_lt hpos

/-- **An answer has different keys, each that of a live node.** -/
theorem Searchable.search_sound (h : idx.Searchable) (query : List F) {k ef : ℕ} (hk : 0 < k) :
    ((idx.search query k ef).map Prod.fst).Nodup ∧
      ∀ x ∈ idx.search query k ef, ∃ id < idx.store.count,
        idx.store.labels id = x.1 ∧ idx.store.deleted id = false := by
  unfold search
  obtain hzero | hpos := Nat.eq_zero_or_pos idx.store.count
  · rw [if_pos hzero]
    exact ⟨List.nodup_nil, nofun⟩
  rw [if_neg (Nat.ne_of_gt hpos)]
  split_ifs with hnone
  · exact ⟨List.nodup_nil, nofun⟩
  simp only
  set q := idx.params.prepare query
  obtain ⟨hnodup, -, hfound⟩ := Graph.searchLayer_sound idx.params
    (fun id => rawDistance idx.params.space q (idx.store.data id))
    (fun id => ! idx.store.deleted id) idx.graph (idx.landing q) 0
    (lt_of_lt_of_le hk (le_max_right ef k))
  have hbase : Graph.searchLayer idx.params
      (fun id => rawDistance idx.params.space q (idx.store.data id))
      (fun id => ! idx.store.deleted id) idx.graph (idx.landing q) (max ef k) 0 =
        idx.searchBase q (max ef k) := rfl
  rw [hbase] at hnodup hfound
  -- the candidates that are left after the farthest ones were dropped
  have hsub := (maxHeap F).iterate_tail_subperm (idx.searchBase q (max ef k))
    ((maxHeap F).size (idx.searchBase q (max ef k)) - k)
  generalize (maxHeap F).tail^[(maxHeap F).size (idx.searchBase q (max ef k)) - k]
    (idx.searchBase q (max ef k)) = top at hsub
  have hperm := (List.reverse_perm _).trans ((maxHeap F).drain_perm top)
  have hmem : ∀ c ∈ ((maxHeap F).drain top).reverse,
      c.2 < idx.store.count ∧ idx.store.deleted c.2 = false := by
    intro c hc
    obtain ⟨hreach, -, hlive⟩ := hfound c (hsub.subset (hperm.mem_iff.mp hc))
    refine ⟨?_, by simpa using hlive⟩
    exact hreach.mem_of_closed (fun a _ v hv => h.grounded a v hv) (h.landing_lt hpos q)
  have hids : (ids ((maxHeap F).drain top).reverse).Nodup := by
    obtain ⟨cs, hcs, hsublist⟩ := hsub
    have hsubperm : (ids ((maxHeap F).elems top)).Subperm
        (ids ((maxHeap F).elems (idx.searchBase q (max ef k)))) :=
      ⟨ids cs, ids_perm hcs, hsublist.map Prod.snd⟩
    exact (ids_perm hperm).nodup_iff.mpr (nodup_of_subperm hsubperm hnodup)
  constructor
  · have hkeys : (((maxHeap F).drain top).reverse.map fun c => (idx.store.labels c.2, c.1)).map
        Prod.fst = (ids ((maxHeap F).drain top).reverse).map idx.store.labels := by
      rw [ids, List.map_map, List.map_map]
      rfl
    rw [hkeys]
    refine List.Nodup.map_on (fun v hv w hw heq => ?_) hids
    obtain ⟨c, hc, rfl⟩ := List.mem_map.mp hv
    obtain ⟨c', hc', rfl⟩ := List.mem_map.mp hw
    have hv' := h.wellFormed.store.id_of_label (hmem c hc).1
    rw [heq, h.wellFormed.store.id_of_label (hmem c' hc').1] at hv'
    exact (Option.some.inj hv').symm
  · intro x hx
    obtain ⟨c, hc, rfl⟩ := List.mem_map.mp hx
    exact ⟨c.2, (hmem c hc).1, rfl, (hmem c hc).2⟩

end

end Index

end VectorSearch.Hnsw
