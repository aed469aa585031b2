import VectorSearch.Hnsw.KeyStore
import VectorSearch.Hnsw.Linking

/-! # Well-formed graphs

`Graph.WellFormed p n g` says that `g` is the graph of `n` nodes: the entry point is one of them and
of the highest level, and the links of a node on each of its levels are different other nodes of
that level, no more than there is room for.  Linking the next node keeps it (`WellFormed.link`),
so every index that insertions build is well formed (`Index.WellFormed.addPointAt`,
`Index.WellFormed.addAllAt`). -/

namespace VectorSearch.Hnsw

namespace Graph

/-- What the list of node `i` on level `l` may hold. -/
structure LinksOk (p : Params) (n : ℕ) (levels : ℕ → ℤ) (i l : ℕ) (ns : List ℕ) : Prop where
  length_le : ns.length ≤ p.maxDegree l
  nodup : ns.Nodup
  not_self : i ∉ ns
  lt : ∀ j ∈ ns, j < n
  level_le : ∀ j ∈ ns, (l : ℤ) ≤ levels j

/-- The graph of `n` nodes. -/
structure WellFormed (p : Params) (n : ℕ) (g : Graph) : Prop where
  entry_none : n = 0 → g.entryPoint = kNone
  entry_lt : 0 < n → g.entryPoint < n
  level_entry : 0 < n → g.levels g.entryPoint = g.maxLevel
  level_le_max : ∀ i < n, g.levels i ≤ g.maxLevel
  fresh : ∀ i, n ≤ i → g.linkBlock i 0 = Block.empty
  links : ∀ i < n, ∀ l : ℕ, (l : ℤ) ≤ g.levels i → LinksOk p n g.levels i l (g.neighbors i l)

variable {p : Params} {n : ℕ} {g : Graph}

theorem WellFormed.empty (p : Params) : WellFormed p 0 Graph.empty where
  entry_none _ := rfl
  entry_lt h := absurd h (lt_irrefl 0)
  level_entry h := absurd h (lt_irrefl 0)
  level_le_max _ h := absurd h (Nat.not_lt_zero _)
  fresh _ _ := rfl
  links _ h := absurd h (Nat.not_lt_zero _)

theorem WellFormed.closed (h : WellFormed p n g) (l : ℕ) : Closed n g l := fun a ha hla v hv =>
  ⟨(h.links a ha l hla).lt v hv, (h.links a ha l hla).level_le v hv⟩

theorem WellFormed.entry_ne_none (h : WellFormed p n g) (hpos : 0 < n) (hn : n ≤ kNone) :
    g.entryPoint ≠ kNone := Nat.ne_of_lt (lt_of_lt_of_le (h.entry_lt hpos) hn)

/-! ### Linking the next node -/

section link
variable {F : Type} [Platform F] {i l : ℕ} {ns : List ℕ} {levels : ℕ → ℤ}

/-- Another node does not disturb a list. -/
theorem LinksOk.grow (h : LinksOk p n levels i l ns) (level : ℤ) :
    LinksOk p (n + 1) (Function.update levels n level) i l ns where
  length_le := h.length_le
  nodup := h.nodup
  not_self := h.not_self
  lt j hj := Nat.lt_succ_of_lt (h.lt j hj)
  level_le j hj := by
    rw [Function.update_of_ne (Nat.ne_of_lt (h.lt j hj))]
    exact h.level_le j hj

/-- The list of the new node. -/
theorem LinksOk.chosen (h : Chosen p n levels l ns) (level : ℤ) :
    LinksOk p (n + 1) (Function.update levels n level) n l ns where
  length_le := h.length_le.trans (p.M_le_maxDegree l)
  nodup := h.nodup
  not_self := h.not_mem
  lt j hj := Nat.lt_succ_of_lt (h.lt j hj)
  level_le j hj := by
    rw [Function.update_of_ne (Nat.ne_of_lt (h.lt j hj))]
    exact h.level_le j hj

/-- A list with a link back to the new node. -/
theorem LinksOk.back (h : LinksOk p n levels i l ns) (hi : i < n) {level : ℤ}
    (hl : (l : ℤ) ≤ level) (pair : ℕ → ℕ → F) :
    LinksOk p (n + 1) (Function.update levels n level) i l (backLinks p pair n l i ns) := by
  have hsub := backLinks_subperm p pair n l i ns
  have hmem : ∀ j ∈ backLinks p pair n l i ns, j = n ∨ j ∈ ns := fun j hj =>
    List.mem_cons.mp (hsub.subset hj)
  have hn : n ∉ ns := fun hn => lt_irrefl n (h.lt n hn)
  refine ⟨length_backLinks_le p pair n l i ns, nodup_of_subperm hsub
    (List.nodup_cons.mpr ⟨hn, h.nodup⟩), fun hself => ?_, fun j hj => ?_, fun j hj => ?_⟩
  · exact (hmem i hself).elim (Nat.ne_of_lt hi) h.not_self
  · obtain rfl | hj := hmem j hj
    · exact Nat.lt_succ_self j
    · exact Nat.lt_succ_of_lt (h.lt j hj)
  · obtain rfl | hj := hmem j hj
    · rwa [Function.update_self]
    · rw [Function.update_of_ne (Nat.ne_of_lt (h.lt j hj))]
      exact h.level_le j hj

theorem LinksOk.nil (p : Params) (n : ℕ) (levels : ℕ → ℤ) (i l : ℕ) :
    LinksOk p n levels i l [] where
  length_le := Nat.zero_le _
  nodup := List.nodup_nil
  not_self := List.not_mem_nil
  lt _ h := nomatch h
  level_le _ h := nomatch h

/-- The first node. -/
theorem WellFormed.link_first (h : WellFormed p 0 g) (pair : ℕ → ℕ → F) (level : ℤ) :
    WellFormed p 1 (g.link p pair 0 level) := by
  rw [link_of_none (h.entry_none rfl)]
  refine ⟨nofun, fun _ => Nat.one_pos, fun _ => ?_, fun i hi => ?_, fun i hi => ?_,
    fun i hi l hl => ?_⟩
  · exact Function.update_self 0 level g.levels
  · rw [Nat.lt_one_iff.mp hi]
    exact (Function.update_self 0 level g.levels).le
  · exact (linkBlock_setLevel_ne p g level (Nat.ne_of_gt hi) 0).trans (h.fresh i (Nat.zero_le i))
  · obtain rfl := Nat.lt_one_iff.mp hi
    have hlevel : Function.update g.levels 0 level 0 = level := Function.update_self 0 level g.levels
    have hnil : (g.setLevel p 0 level).neighbors 0 l = [] := by
      unfold neighbors
      rw [linkBlock_setLevel_self p (h.fresh 0 le_rfl) (hl.trans hlevel.le), Block.neighbors_empty]
    exact hnil ▸ LinksOk.nil _ _ _ _ _

/-- The lists after linking the next node, which is not the first. -/
theorem WellFormed.linksOk_link (h : WellFormed p n g) (hpos : 0 < n) (hn : n ≤ kNone)
    (pair : ℕ → ℕ → F) (level : ℤ) {i : ℕ} (hi : i < n + 1) {l : ℕ}
    (hl : (l : ℤ) ≤ (g.link p pair n level).levels i) :
    LinksOk p (n + 1) (g.link p pair n level).levels i l
      ((g.link p pair n level).neighbors i l) := by
  obtain ⟨hjoined, hother⟩ := link_spec (p := p) pair level h.closed
    (h.entry_lt hpos) (h.entry_ne_none hpos hn) (h.level_entry hpos)
  rw [levels_link] at hl ⊢
  obtain hi | rfl := Nat.lt_succ_iff_lt_or_eq.mp hi
  · rw [Function.update_of_ne (Nat.ne_of_lt hi)] at hl
    have hlist : (g.setLevel p n level).neighbors i l = g.neighbors i l :=
      neighbors_congr (linkBlock_setLevel_ne p g level (Nat.ne_of_lt hi) l)
    have hok := h.links i hi l hl
    by_cases hshared : (l : ℤ) ≤ min level g.maxLevel
    · obtain ⟨sel, hsel, hj⟩ := hjoined l hshared
      rw [hj.neighbors hsel.length_le, if_neg (Nat.ne_of_lt hi), hlist]
      split_ifs
      · exact hok.back hi (hshared.trans (min_le_left _ _)) pair
      · exact hok.grow level
    · rw [neighbors_congr (hother l (not_le.mp hshared) i), hlist]
      exact hok.grow level
  · rw [Function.update_self] at hl
    by_cases hshared : (l : ℤ) ≤ min level g.maxLevel
    · obtain ⟨sel, hsel, hj⟩ := hjoined l hshared
      rw [hj.neighbors hsel.length_le, if_pos rfl]
      exact LinksOk.chosen hsel level
    · rw [neighbors_congr (hother l (not_le.mp hshared) i), neighbors,
        linkBlock_setLevel_self p (h.fresh i le_rfl) hl, Block.neighbors_empty]
      exact LinksOk.nil _ _ _ _ _

/-- **Linking the next node keeps a graph well formed.** -/
theorem WellFormed.link (h : WellFormed p n g) (hn : n ≤ kNone) (pair : ℕ → ℕ → F) (level : ℤ) :
    WellFormed p (n + 1) (g.link p pair n level) := by
  obtain rfl | hpos := Nat.eq_zero_or_pos n
  · exact h.link_first pair level
  obtain ⟨hjoined, hother⟩ := link_spec (p := p) pair level h.closed
    (h.entry_lt hpos) (h.entry_ne_none hpos hn) (h.level_entry hpos)
  have hlevels := levels_link p pair g n level
  have htop : ((g.link p pair n level).entryPoint, (g.link p pair n level).maxLevel) =
      if g.maxLevel < level then (n, level) else (g.entryPoint, g.maxLevel) := by
    simpa only [h.entry_ne_none hpos hn, false_or] using top_link p pair g n level
  have hold : ∀ i < n, (g.link p pair n level).levels i = g.levels i := fun i hi => by
    rw [hlevels, Function.update_of_ne (Nat.ne_of_lt hi)]
  have hnew : (g.link p pair n level).levels n = level := by rw [hlevels, Function.update_self]
  refine ⟨fun hzero => absurd hzero (Nat.succ_ne_zero n), fun _ => ?_, fun _ => ?_,
    fun i hi => ?_, fun i hi => ?_, fun i hi l hl => ?_⟩
  · have hlt := h.entry_lt hpos
    split_ifs at htop
    · obtain ⟨hentry, -⟩ := Prod.mk.inj htop
      omega
    · obtain ⟨hentry, -⟩ := Prod.mk.inj htop
      omega
  · split_ifs at htop
    · obtain ⟨hentry, hmax⟩ := Prod.mk.inj htop
      rw [hentry, hmax, hnew]
    · obtain ⟨hentry, hmax⟩ := Prod.mk.inj htop
      rw [hentry, hmax, hold _ (h.entry_lt hpos), h.level_entry hpos]
  · have hle : max g.maxLevel level ≤ (g.link p pair n level).maxLevel := by
      split_ifs at htop with hhigh
      · rw [(Prod.mk.inj htop).2, max_eq_right hhigh.le]
      · rw [(Prod.mk.inj htop).2, max_eq_left (not_lt.mp hhigh)]
    refine le_trans ?_ hle
    obtain hi | rfl := Nat.lt_succ_iff_lt_or_eq.mp hi
    · rw [hold i hi]
      exact (h.level_le_max i hi).trans (le_max_left _ _)
    · rw [hnew]
      exact le_max_right _ _
  · have hin : i ≠ n := by omega
    by_cases hshared : (0 : ℤ) ≤ min level g.maxLevel
    · obtain ⟨sel, hsel, hj⟩ := hjoined 0 hshared
      have hisel : i ∉ sel := fun hmem => by
        have hlt := hsel.lt i hmem
        omega
      have hblock := hj i
      rw [if_neg hin, if_neg hisel, linkBlock_setLevel_ne p g level hin] at hblock
      exact hblock.trans (h.fresh i (by omega))
    · exact (hother 0 (not_le.mp hshared) i).trans
        ((linkBlock_setLevel_ne p g level hin 0).trans (h.fresh i (by omega)))
  · exact h.linksOk_link hpos hn pair level hi hl

/-- What linking the next node makes of a list of layer 0: the node's own is chosen from the older
nodes, the others have gained a link back or are as before. -/
theorem WellFormed.neighbors_link_zero (h : WellFormed p n g) (hn : n ≤ kNone) (pair : ℕ → ℕ → F)
    (level : ℤ) (a : ℕ) :
    Chosen p n g.levels 0 ((g.link p pair n level).neighbors a 0) ∨
      (g.link p pair n level).neighbors a 0 = backLinks p pair n 0 a (g.neighbors a 0) ∨
      (g.link p pair n level).neighbors a 0 = g.neighbors a 0 := by
  obtain rfl | hpos := Nat.eq_zero_or_pos n
  · rw [link_of_none (h.entry_none rfl)]
    exact Or.inr (Or.inr rfl)
  obtain ⟨hjoined, hother⟩ := link_spec (p := p) pair level h.closed
    (h.entry_lt hpos) (h.entry_ne_none hpos hn) (h.level_entry hpos)
  by_cases hshared : ((0 : ℕ) : ℤ) ≤ min level g.maxLevel
  · obtain ⟨sel, hsel, hj⟩ := hjoined 0 hshared
    have hlist := hj.neighbors hsel.length_le a
    rw [Nat.cast_zero] at hlist
    rw [hlist]
    split_ifs
    · exact Or.inl hsel
    · exact Or.inr (Or.inl rfl)
    · exact Or.inr (Or.inr rfl)
  · have hsame := neighbors_congr (hother 0 (not_le.mp hshared) a)
    rw [Nat.cast_zero] at hsame
    exact Or.inr (Or.inr hsame)

end link

end Graph

/-! ### Insertions into an index -/

namespace Index

variable {F : Type} [Platform F] {idx : Index F} {vec : List F} {label : Label} {level : ℤ}

/-- The store is good and the graph is one of its nodes. -/
structure WellFormed (idx : Index F) : Prop where
  store : idx.store.Good idx.params
  graph : idx.graph.WellFormed idx.params idx.store.count

omit [Platform F] in
theorem WellFormed.new (p : Params) (seed : UInt64) : (Index.new p seed : Index F).WellFormed where
  store := Store.Good.empty p
  graph := Graph.WellFormed.empty p

/-- An insertion that fails changes nothing. -/
theorem addPointAt_of_error {e : AddError} (h : (idx.addPointAt vec label level).2 = .error e) :
    (idx.addPointAt vec label level).1 = idx := by
  unfold addPointAt at h ⊢
  by_cases hlabel : idx.store.hasLabel label = true
  · rw [if_pos hlabel]
  · rw [if_neg hlabel] at h ⊢
    by_cases hfull : idx.params.maxElements ≤ idx.store.fetchAdd.1
    · simp only [if_pos hfull]
      rfl
    · simp only [if_neg hfull] at h
      cases h

/-- What an insertion that succeeds does. -/
theorem addPointAt_of_ok {id : ℕ} (h : (idx.addPointAt vec label level).2 = .ok id) :
    idx.store.hasLabel label = false ∧ idx.store.count % 2 ^ 32 < idx.params.maxElements ∧
      id = idx.store.count % 2 ^ 32 ∧
      (idx.addPointAt vec label level).1.store = (idx.store.add idx.params vec label).1 ∧
      (idx.addPointAt vec label level).1.graph =
        idx.graph.link idx.params (idx.addPointAt vec label level).1.pair id level := by
  obtain ⟨hstore, -⟩ := idx.store_addPointAt vec label level
  rw [hstore]
  unfold addPointAt at h ⊢
  by_cases hlabel : idx.store.hasLabel label = true
  · rw [if_pos hlabel] at h
    cases h
  · rw [if_neg hlabel] at h ⊢
    by_cases hfull : idx.params.maxElements ≤ idx.store.fetchAdd.1
    · simp only [if_pos hfull] at h
      cases h
    · simp only [if_neg hfull] at h ⊢
      obtain rfl := Except.ok.inj h
      exact ⟨by simpa using hlabel, not_le.mp hfull, rfl, trivial, rfl⟩

/-- **An insertion below `2 ^ 32` vectors keeps an index well formed.** -/
theorem WellFormed.addPointAt (h : idx.WellFormed) (hlen : vec.length = idx.params.dim)
    (label : Label) (level : ℤ) (hcount : idx.store.count < 2 ^ 32) :
    (idx.addPointAt vec label level).1.WellFormed := by
  cases hres : (idx.addPointAt vec label level).2 with
  | error e => rwa [addPointAt_of_error hres]
  | ok id =>
      obtain ⟨hlabel, hlt, hid, hstore, hgraph⟩ := addPointAt_of_ok hres
      rw [Nat.mod_eq_of_lt hcount] at hlt hid
      have hroom : idx.store.count < idx.params.room := lt_min hlt hcount
      have hcnt : (idx.store.add idx.params vec label).1.count = idx.store.count + 1 := by
        rw [Store.add_of_room vec hlabel hroom]
        rfl
      constructor
      · rw [hstore, params_addPointAt]
        exact (h.store.add_new hlen hlabel hroom).1
      · rw [hgraph, params_addPointAt, hstore, hcnt, hid]
        exact h.graph.link (by rw [kNone]; omega) _ level

end Index

end VectorSearch.Hnsw
