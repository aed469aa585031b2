import VectorSearch.Hnsw.LayerSearch

/-! # What linking a node does to the link lists

Choosing neighbours takes some of the candidates, each at most once, and as many as there is room
for (`selectNeighborsHeuristic_subperm`, `length_selectNeighborsHeuristic`).  Connecting a node on a
level writes the chosen nodes into its own list and gives each of them a link back, which is
appended or, in a full list, competes with the links that are there (`backLinks`).  Nothing else
changes: `Joined` says this of two graphs and `connectNewElement_spec` proves it.

`link_spec` puts the levels together.  It asks of the graph that the links of each level stay within
the nodes of that level (`Closed`). -/

namespace VectorSearch.Hnsw

open Links

theorem Params.M_le_maxDegree (p : Params) (l : ℤ) : p.M ≤ p.maxDegree l := by
  unfold Params.maxDegree Params.maxM0 Params.maxM
  split_ifs
  · omega
  · omega

theorem nodup_of_subperm {α : Type} {l l' : List α} (h : l.Subperm l') (hnodup : l'.Nodup) :
    l.Nodup := by
  obtain ⟨l'', hperm, hsub⟩ := h
  exact hperm.nodup_iff.mp (hnodup.sublist hsub)

namespace Graph

section
variable {F : Type} [Platform F] {p : Params} {pair : ℕ → ℕ → F} {g g' : Graph} {n : ℕ}

/-! ### Choosing neighbours -/

/-- The kept and the discarded candidates are different ones of those looked at, which are all of
them unless `M` were kept. -/
theorem diverse_spec (pair : ℕ → ℕ → F) (M : ℕ) : ∀ (cs : List (Cand F)) (kept discarded : List ℕ),
    kept.length ≤ M →
    (diverse pair M cs kept discarded).1.length ≤ M ∧
      ∃ rest, ((diverse pair M cs kept discarded).1 ++ (diverse pair M cs kept discarded).2 ++
          rest).Perm (kept ++ discarded ++ ids cs) ∧
        ((diverse pair M cs kept discarded).1.length < M → rest = [])
  | [], kept, discarded, hlen => ⟨hlen, [], List.Perm.refl _, fun _ => rfl⟩
  | c :: cs, kept, discarded, hlen => by
      unfold diverse
      split_ifs with hfull hany
      · exact ⟨hlen, ids (c :: cs), List.Perm.refl _, fun h => absurd hfull (not_le.mpr h)⟩
      · obtain ⟨hle, rest, hperm, hrest⟩ := diverse_spec pair M cs kept (discarded ++ [c.2]) hlen
        refine ⟨hle, rest, ?_, hrest⟩
        rw [ids, List.map_cons]
        simpa [ids] using hperm
      · have hlen' : (kept ++ [c.2]).length ≤ M := by
          rw [List.length_append, List.length_singleton]
          omega
        obtain ⟨hle, rest, hperm, hrest⟩ := diverse_spec pair M cs (kept ++ [c.2]) discarded hlen'
        refine ⟨hle, rest, hperm.trans ?_, hrest⟩
        have hmove : (c.2 :: (discarded ++ ids cs)).Perm (discarded ++ c.2 :: ids cs) :=
          List.perm_middle.symm
        simpa [ids] using hmove.append_left kept

/-- The heuristic takes its candidates from the heap, each once. -/
theorem selectNeighborsHeuristic_subperm (pair : ℕ → ℕ → F) (top : (maxHeap F).Q) (M : ℕ) :
    (selectNeighborsHeuristic pair top M).Subperm (ids ((maxHeap F).elems top)) := by
  unfold selectNeighborsHeuristic
  simp only
  generalize hcs : ((maxHeap F).drain top).insertionSort (fun a b => ¬ candLt b a) = cs
  have hperm : (ids cs).Perm (ids ((maxHeap F).elems top)) := by
    rw [← hcs]
    exact ids_perm ((List.perm_insertionSort _ _).trans ((maxHeap F).drain_perm top))
  split_ifs
  · exact hperm.subperm
  · obtain ⟨-, rest, hall, -⟩ := diverse_spec pair M cs [] [] (Nat.zero_le _)
    have hsub := ((List.take_sublist (M - (diverse pair M cs [] []).1.length)
      (diverse pair M cs [] []).2).append_left (diverse pair M cs [] []).1)
    exact (hsub.trans (List.sublist_append_left _ rest)).subperm.trans (hall.trans hperm).subperm

/-- The heuristic takes as many candidates as there is room for. -/
theorem length_selectNeighborsHeuristic (pair : ℕ → ℕ → F) (top : (maxHeap F).Q) (M : ℕ) :
    (selectNeighborsHeuristic pair top M).length = min ((maxHeap F).size top) M := by
  unfold selectNeighborsHeuristic
  simp only
  generalize hcs : ((maxHeap F).drain top).insertionSort (fun a b => ¬ candLt b a) = cs
  have hlen : cs.length = (maxHeap F).size top := by
    rw [← hcs, List.length_insertionSort, ((maxHeap F).drain_perm top).length_eq, PriorityQueue.size]
  split_ifs with hfew
  · rw [List.length_map]
    omega
  · obtain ⟨hle, rest, hall, hrest⟩ := diverse_spec pair M cs [] [] (Nat.zero_le _)
    have hall := hall.length_eq
    simp only [List.length_append, ids, List.length_map, List.length_nil] at hall
    rw [List.length_append, List.length_take]
    by_cases hlt : (diverse pair M cs [] []).1.length < M
    · rw [hrest hlt, List.length_nil] at hall
      omega
    · omega

/-! ### Link blocks -/

theorem linkBlock_setBlock (g : Graph) (i j l m : ℕ) (b : Block) :
    (g.setBlock i l b).linkBlock j m = if j = i ∧ m = l then b else g.linkBlock j m := by
  unfold setBlock linkBlock
  by_cases hl : l = 0
  · subst hl
    by_cases hm : m = 0
    · subst hm
      by_cases hj : j = i
      · subst hj
        simp
      · simp [hj]
    · simp [hm]
  · by_cases hm : m = 0
    · subst hm
      simp [hl, Ne.symm hl]
    · by_cases hj : j = i
      · subst hj
        by_cases hml : m = l
        · subst hml
          simp [hl]
        · have hne : m - 1 ≠ l - 1 := by omega
          simp [hl, hm, hml, Function.update_of_ne hne]
      · simp [hl, hm, hj]

/-- All of a graph but its links. -/
def frame (g : Graph) : (ℕ → ℤ) × (ℕ → ℕ) × ℕ × ℤ :=
  (g.levels, g.upperSize, g.entryPoint, g.maxLevel)

theorem frame_setBlock (g : Graph) (i : ℕ) (l : ℤ) (b : Block) :
    (g.setBlock i l b).frame = g.frame := by
  unfold setBlock
  split_ifs <;> rfl

/-! ### Links back -/

/-- The list of node `n` on a level after node `id` was linked back into it. -/
def backLinks (p : Params) (pair : ℕ → ℕ → F) (id : ℕ) (l : ℕ) (n : ℕ) (ns : List ℕ) : List ℕ :=
  if ns.length < p.maxDegree l then ns ++ [id]
  else selectNeighborsHeuristic pair (ns.foldl (fun pool e => (maxHeap F).push pool (pair n e, e))
    ((maxHeap F).push (maxHeap F).empty (pair n id, id))) (p.maxDegree l)

/-- The block of node `n` on a level after node `id` was linked back into it. -/
def backBlock (p : Params) (pair : ℕ → ℕ → F) (id : ℕ) (l : ℕ) (n : ℕ) (b : Block) : Block :=
  if b.neighbors.length < p.maxDegree l then b.push id
  else b.write (p.maxDegree l) (backLinks p pair id l n b.neighbors)

theorem backLinks_subperm (p : Params) (pair : ℕ → ℕ → F) (id l n : ℕ) (ns : List ℕ) :
    (backLinks p pair id l n ns).Subperm (id :: ns) := by
  unfold backLinks
  split_ifs
  · exact (List.perm_append_singleton id ns).subperm
  · refine (selectNeighborsHeuristic_subperm _ _ _).trans (List.Perm.subperm ?_)
    have hpool := (maxHeap F).elems_foldl_push (fun e => (pair n e, e)) ns
      ((maxHeap F).push (maxHeap F).empty (pair n id, id))
    have hfirst := (maxHeap F).elems_push (maxHeap F).empty (pair n id, id)
    rw [(maxHeap F).elems_empty] at hfirst
    have hids := ids_perm (hpool.trans (hfirst.append_left _))
    have hns : ids (ns.map fun e => (pair n e, e)) = ns := by
      rw [ids, List.map_map]
      exact List.map_id ns
    have hall : ids (ns.map (fun e => (pair n e, e)) ++ [(pair n id, id)]) = ns ++ [id] := by
      rw [ids, List.map_append]
      exact congrArg (· ++ [id]) hns
    rw [hall] at hids
    exact hids.trans (List.perm_append_singleton id ns)

theorem length_backLinks_le (p : Params) (pair : ℕ → ℕ → F) (id l n : ℕ) (ns : List ℕ) :
    (backLinks p pair id l n ns).length ≤ p.maxDegree l := by
  unfold backLinks
  split_ifs with hroom
  · rw [List.length_append, List.length_singleton]
    omega
  · rw [length_selectNeighborsHeuristic]
    exact min_le_right _ _

theorem neighbors_backBlock (p : Params) (pair : ℕ → ℕ → F) (id l n : ℕ) (b : Block) :
    (backBlock p pair id l n b).neighbors = backLinks p pair id l n b.neighbors := by
  have hlen := length_backLinks_le p pair id l n b.neighbors
  unfold backBlock
  split_ifs with hroom
  · rw [Block.neighbors_push, backLinks, if_pos hroom]
  · rw [Block.neighbors_write, List.take_of_length_le hlen]

theorem linkBack_eq (p : Params) (pair : ℕ → ℕ → F) (id n l : ℕ) (g : Graph) :
    linkBack p pair id l g n = g.setBlock n l (backBlock p pair id l n (g.linkBlock n l)) := by
  have hdeg : g.linkBlock n l 0 = (g.linkBlock n l).neighbors.length :=
    (Block.length_neighbors _).symm
  unfold linkBack backBlock
  simp only [hdeg]
  split_ifs with hroom
  · rfl
  · rw [setLinks, backLinks, if_neg hroom]

theorem frame_linkBack (p : Params) (pair : ℕ → ℕ → F) (id n : ℕ) (l : ℤ) (g : Graph) :
    (linkBack p pair id l g n).frame = g.frame := by
  unfold linkBack setLinks
  simp only
  split_ifs
  · exact frame_setBlock _ _ _ _
  · exact frame_setBlock _ _ _ _

/-- Linking back into different nodes changes the block of each once. -/
theorem linkBlock_linkBacks (p : Params) (pair : ℕ → ℕ → F) (id j l m : ℕ) :
    ∀ (sel : List ℕ) (g : Graph), sel.Nodup →
      (sel.foldl (linkBack p pair id l) g).linkBlock j m =
        if j ∈ sel ∧ m = l then backBlock p pair id l j (g.linkBlock j l) else g.linkBlock j m
  | [], _, _ => by simp
  | n :: sel, g, h => by
      obtain ⟨hn, hsel⟩ := List.nodup_cons.mp h
      rw [List.foldl_cons, linkBlock_linkBacks p pair id j l m sel _ hsel, linkBack_eq,
        linkBlock_setBlock, linkBlock_setBlock]
      by_cases hj : j = n
      · subst hj
        simp [hn]
      · simp [hj]

theorem frame_linkBacks (p : Params) (pair : ℕ → ℕ → F) (id : ℕ) (l : ℤ) : ∀ (sel : List ℕ)
    (g : Graph), (sel.foldl (linkBack p pair id l) g).frame = g.frame
  | [], _ => rfl
  | n :: sel, g => by
      rw [List.foldl_cons, frame_linkBacks p pair id l sel, frame_linkBack]

/-! ### Connecting on one level -/

/-- The neighbours chosen for node `n` on a level: one at least and `M` at most, different ones, all
of them older nodes of the level. -/
structure Chosen (p : Params) (n : ℕ) (levels : ℕ → ℤ) (l : ℕ) (sel : List ℕ) : Prop where
  ne_nil : sel ≠ []
  nodup : sel.Nodup
  length_le : sel.length ≤ p.M
  lt : ∀ j ∈ sel, j < n
  level_le : ∀ j ∈ sel, (l : ℤ) ≤ levels j

theorem Chosen.not_mem {levels : ℕ → ℤ} {l : ℕ} {sel : List ℕ} (h : Chosen p n levels l sel) :
    n ∉ sel := fun hn => absurd (h.lt n hn) (lt_irrefl n)

/-- The blocks of level `l` in `g'` are those of `g` with node `id` connected to `sel`. -/
def Joined (p : Params) (pair : ℕ → ℕ → F) (id l : ℕ) (g g' : Graph) (sel : List ℕ) : Prop :=
  ∀ j, g'.linkBlock j l =
    if j = id then (g.linkBlock id l).write (p.maxDegree l) sel
    else if j ∈ sel then backBlock p pair id l j (g.linkBlock j l) else g.linkBlock j l

/-- The links after a node was connected. -/
theorem Joined.neighbors {id l : ℕ} {pair : ℕ → ℕ → F} {sel : List ℕ}
    (h : Joined p pair id l g g' sel) (hlen : sel.length ≤ p.M) (j : ℕ) :
    g'.neighbors j l =
      if j = id then sel
      else if j ∈ sel then backLinks p pair id l j (g.neighbors j l) else g.neighbors j l := by
  unfold Graph.neighbors
  rw [h j]
  split_ifs
  · rw [Block.neighbors_write, List.take_of_length_le (hlen.trans (p.M_le_maxDegree l))]
  · exact neighbors_backBlock p pair id l j _
  · rfl

theorem frame_connectNewElement (p : Params) (pair : ℕ → ℕ → F) (g : Graph) (id : ℕ)
    (top : (maxHeap F).Q) (l : ℤ) : (connectNewElement p pair g id top l).1.frame = g.frame := by
  unfold connectNewElement
  split
  · rfl
  · rw [frame_linkBacks, setLinks, frame_setBlock]

/-- **Connecting a node on a level** to some of the candidates. -/
theorem connectNewElement_spec {id l : ℕ} {top : (maxHeap F).Q}
    (hnodup : (ids ((maxHeap F).elems top)).Nodup) (hpos : 0 < (maxHeap F).size top)
    (hid : id ∉ ids ((maxHeap F).elems top)) :
    ∃ sel, sel ≠ [] ∧ sel.Nodup ∧ sel.length ≤ p.M ∧ sel ⊆ ids ((maxHeap F).elems top) ∧
      (connectNewElement p pair g id top l).2 ∈ sel ∧
      Joined p pair id l g (connectNewElement p pair g id top l).1 sel ∧
      ∀ m : ℕ, m ≠ l → ∀ j, (connectNewElement p pair g id top l).1.linkBlock j m =
        g.linkBlock j m := by
  have hsub := selectNeighborsHeuristic_subperm pair top p.M
  have hlen := length_selectNeighborsHeuristic pair top p.M
  unfold connectNewElement
  generalize selectNeighborsHeuristic pair top p.M = sel at hsub hlen
  obtain ⟨next, rest, rfl⟩ : ∃ next rest, sel = next :: rest := by
    refine List.exists_cons_of_ne_nil fun hnil => ?_
    have hM := p.M_pos
    rw [hnil, List.length_nil] at hlen
    omega
  have hseldup := nodup_of_subperm hsub hnodup
  have hselM : (next :: rest).length ≤ p.M := hlen ▸ min_le_right _ _
  have hidsel : id ∉ next :: rest := fun hmem => hid (hsub.subset hmem)
  refine ⟨next :: rest, List.cons_ne_nil _ _, hseldup, hselM, hsub.subset, List.mem_cons_self,
    ?_, ?_⟩
  · intro j
    rw [linkBlock_linkBacks _ _ _ _ _ _ _ _ hseldup, setLinks, linkBlock_setBlock]
    by_cases hj : j = id
    · subst hj
      simp only [hidsel, false_and, if_false, and_self, if_true]
    · simp only [hj, if_false, and_true]
  · intro m hm j
    rw [linkBlock_linkBacks _ _ _ _ _ _ _ _ hseldup, if_neg fun h => hm h.2, setLinks,
      linkBlock_setBlock, if_neg fun h => hm h.2]

/-- The links of the first `n` nodes on a level lead to such nodes of the level. -/
def Closed (n : ℕ) (g : Graph) (l : ℕ) : Prop :=
  ∀ a < n, (l : ℤ) ≤ g.levels a → ∀ v ∈ g.neighbors a l, v < n ∧ (l : ℤ) ≤ g.levels v

theorem Closed.reach {l a v : ℕ} (h : Closed n g l) (ha : a < n) (hlevel : (l : ℤ) ≤ g.levels a)
    (hv : Reach (g.next l) a v) : v < n ∧ (l : ℤ) ≤ g.levels v :=
  hv.mem_of_closed (fun b hb w hw => h b hb.1 hb.2 w hw) ⟨ha, hlevel⟩

/-- **Searching and connecting node `n` on a level** of the older nodes. -/
theorem linkLevel_spec (pair : ℕ → ℕ → F) {l cur : ℕ} (hclosed : Closed n g l) (hcur : cur < n)
    (hlevel : (l : ℤ) ≤ g.levels cur) :
    ∃ sel, Chosen p n g.levels l sel ∧ (linkLevel p pair n (g, cur) l).2 ∈ sel ∧
      Joined p pair n l g (linkLevel p pair n (g, cur) l).1 sel ∧
      ∀ m : ℕ, m ≠ l → ∀ j, (linkLevel p pair n (g, cur) l).1.linkBlock j m =
        g.linkBlock j m := by
  have hef : 0 < p.efConstruction := lt_of_lt_of_le p.M_pos p.M_le_ef
  obtain ⟨hnodup, -, hfound⟩ := searchLayer_sound p (pair n) (fun _ => true) g cur l hef
  have hpos : 0 < (maxHeap F).size (searchLayer p (pair n) (fun _ => true) g cur
      p.efConstruction l) := searchLayer_pos p (pair n) g l hef rfl
  have hmem : ∀ j ∈ ids ((maxHeap F).elems (searchLayer p (pair n) (fun _ => true) g cur
      p.efConstruction l)), j < n ∧ (l : ℤ) ≤ g.levels j := by
    intro j hj
    obtain ⟨c, hc, rfl⟩ := List.mem_map.mp hj
    exact hclosed.reach hcur hlevel (hfound c hc).1
  obtain ⟨sel, hne, hdup, hlen, hsub, hnext, hjoined, hother⟩ :=
    connectNewElement_spec (p := p) (g := g) hnodup hpos
      fun hn => absurd (hmem n hn).1 (lt_irrefl n)
  exact ⟨sel, ⟨hne, hdup, hlen, fun j hj => (hmem j (hsub hj)).1, fun j hj => (hmem j (hsub hj)).2⟩,
    hnext, hjoined, hother⟩

/-! ### Connecting on all levels -/

theorem levelsDown_zero : levelsDown ((0 : ℕ) : ℤ) = [((0 : ℕ) : ℤ)] := rfl

theorem levelsDown_succ (t : ℕ) :
    levelsDown ((t + 1 : ℕ) : ℤ) = ((t + 1 : ℕ) : ℤ) :: levelsDown (t : ℤ) := by
  have hlen : (((t + 1 : ℕ) : ℤ) + 1).toNat = (((t : ℕ) : ℤ) + 1).toNat + 1 := by omega
  unfold levelsDown
  rw [hlen, List.range_succ_eq_map, List.map_cons, List.map_map]
  congr 1
  apply List.map_congr_left
  intro i _
  simp only [Function.comp_apply]
  push_cast
  ring

theorem neighbors_congr {j l : ℕ} (h : g'.linkBlock j l = g.linkBlock j l) :
    g'.neighbors j l = g.neighbors j l := congrArg Block.neighbors h

theorem Closed.congr {l : ℕ} (h : Closed n g l) (hframe : g'.frame = g.frame)
    (hlinks : ∀ j, g'.linkBlock j l = g.linkBlock j l) : Closed n g' l := by
  have hlevels : g'.levels = g.levels := congrArg Prod.fst hframe
  intro a ha hla v hv
  rw [hlevels] at hla ⊢
  rw [neighbors_congr (hlinks a)] at hv
  exact h a ha hla v hv

theorem frame_linkLevels (p : Params) (pair : ℕ → ℕ → F) (id : ℕ) : ∀ (ls : List ℤ)
    (st : Graph × ℕ), ((ls.foldl (linkLevel p pair id) st).1).frame = st.1.frame
  | [], _ => rfl
  | l :: ls, st => by
      rw [List.foldl_cons, frame_linkLevels p pair id ls, linkLevel, frame_connectNewElement]

/-- **Searching and connecting node `n` on the levels from `t` down.** -/
theorem linkLevels_spec (pair : ℕ → ℕ → F) : ∀ (t : ℕ) {g : Graph} {cur : ℕ},
    (∀ l ≤ t, Closed n g l) → cur < n → (t : ℤ) ≤ g.levels cur →
    (∀ l ≤ t, ∃ sel, Chosen p n g.levels l sel ∧
        Joined p pair n l g ((levelsDown t).foldl (linkLevel p pair n) (g, cur)).1 sel) ∧
      ∀ m : ℕ, t < m → ∀ j,
        (((levelsDown t).foldl (linkLevel p pair n) (g, cur)).1).linkBlock j m = g.linkBlock j m
  | 0, g, cur, hclosed, hcur, hlevel => by
      obtain ⟨sel, hsel, -, hjoined, hother⟩ :=
        linkLevel_spec (p := p) pair (hclosed 0 le_rfl) hcur hlevel
      rw [levelsDown_zero, List.foldl_cons, List.foldl_nil]
      refine ⟨fun l hl => ?_, fun m hm => hother m (Nat.ne_of_gt hm)⟩
      rw [Nat.le_zero.mp hl]
      exact ⟨sel, hsel, hjoined⟩
  | t + 1, g, cur, hclosed, hcur, hlevel => by
      obtain ⟨sel, hsel, hnext, hjoined, hother⟩ :=
        linkLevel_spec (p := p) pair (hclosed (t + 1) le_rfl) hcur hlevel
      have hframe := frame_linkLevels p pair n [((t + 1 : ℕ) : ℤ)] (g, cur)
      rw [List.foldl_cons, List.foldl_nil] at hframe
      rw [levelsDown_succ, List.foldl_cons]
      generalize linkLevel p pair n (g, cur) ((t + 1 : ℕ) : ℤ) = st at hnext hframe hjoined hother
      obtain ⟨g₁, cur₁⟩ := st
      have hlevels : g₁.levels = g.levels := congrArg Prod.fst hframe
      have hnextlevel := hsel.level_le _ hnext
      obtain ⟨hjoined', hother'⟩ := linkLevels_spec pair t
        (fun l hl => (hclosed l (by omega)).congr hframe (hother l (by omega)))
        (hsel.lt _ hnext) (by rw [hlevels]; exact le_trans (by omega) hnextlevel)
      refine ⟨fun l hl => ?_, fun m hm j => ?_⟩
      · by_cases hlt : l = t + 1
        · subst hlt
          refine ⟨sel, hsel, fun j => ?_⟩
          rw [hother' _ (Nat.lt_succ_self t) j]
          exact hjoined j
        · obtain ⟨sel', hsel', hj'⟩ := hjoined' l (by omega)
          refine ⟨sel', hlevels ▸ hsel', fun j => ?_⟩
          rw [hj' j, hother l hlt j, hother l hlt n]
      · rw [hother' m (by omega) j, hother m (by omega) j]

/-! ### Linking a new node -/

section setLevel
variable {level : ℤ} {i : ℕ}

@[simp] theorem levels_setLevel (g : Graph) (n : ℕ) (level : ℤ) :
    (g.setLevel p n level).levels = Function.update g.levels n level := rfl

theorem linkBlock_setLevel_ne (p : Params) (g : Graph) (level : ℤ) (h : i ≠ n) (m : ℕ) :
    (g.setLevel p n level).linkBlock i m = g.linkBlock i m := by
  have hupper : (g.setLevel p n level).linksUpper i = g.linksUpper i := by
    unfold setLevel
    split_ifs
    · exact Function.update_of_ne h _ _
    · rfl
  unfold linkBlock
  rw [hupper]
  rfl

/-- The blocks of a new node, whose level-0 block is empty, are empty up to its level. -/
theorem linkBlock_setLevel_self (p : Params) (hfresh : g.linkBlock n 0 = Block.empty) {m : ℕ}
    (hm : (m : ℤ) ≤ level) : (g.setLevel p n level).linkBlock n m = Block.empty := by
  by_cases h0 : m = 0
  · subst h0
    exact hfresh
  · have hpos : 0 < level := by omega
    have hm0 : (m : ℤ) ≠ 0 := by omega
    unfold setLevel linkBlock
    simp only [if_pos hpos, if_neg hm0, Function.update_self]

theorem closed_setLevel (p : Params) (level : ℤ) {l : ℕ} (h : Closed n g l) :
    Closed n (g.setLevel p n level) l := by
  intro a ha hla v hv
  rw [neighbors_congr (linkBlock_setLevel_ne p g level (Nat.ne_of_lt ha) l)] at hv
  rw [levels_setLevel, Function.update_of_ne (Nat.ne_of_lt ha)] at hla
  obtain ⟨hvn, hvl⟩ := h a ha hla v hv
  rw [levels_setLevel, Function.update_of_ne (Nat.ne_of_lt hvn)]
  exact ⟨hvn, hvl⟩

end setLevel

/-- Where the insertion of node `n` starts to link, on the highest level that it shares with older
nodes. -/
def landing (p : Params) (pair : ℕ → ℕ → F) (g : Graph) (n : ℕ) (level : ℤ) : ℕ :=
  if level < g.maxLevel
    then descend p (pair n) (g.setLevel p n level) g.entryPoint g.maxLevel level
    else g.entryPoint

theorem link_of_none (hnone : g.entryPoint = kNone) (pair : ℕ → ℕ → F) (level : ℤ) :
    g.link p pair n level =
      { g.setLevel p n level with entryPoint := n, maxLevel := level } := if_pos hnone

theorem link_of_some (hsome : g.entryPoint ≠ kNone) (pair : ℕ → ℕ → F) (level : ℤ) :
    g.link p pair n level =
      let g' := ((levelsDown (min level g.maxLevel)).foldl (linkLevel p pair n)
        (g.setLevel p n level, landing p pair g n level)).1
      if g.maxLevel < level then { g' with entryPoint := n, maxLevel := level } else g' :=
  if_neg hsome

/-- **What linking a node does to the rest of the graph**: it gets its level and the room for its
blocks, and it becomes the entry point when it is the first or its level is the highest. -/
theorem frame_link (p : Params) (pair : ℕ → ℕ → F) (g : Graph) (n : ℕ) (level : ℤ) :
    (g.link p pair n level).frame = (Function.update g.levels n level,
      (g.setLevel p n level).upperSize,
      if g.entryPoint = kNone ∨ g.maxLevel < level then (n, level)
      else (g.entryPoint, g.maxLevel)) := by
  by_cases hnone : g.entryPoint = kNone
  · rw [link_of_none hnone, if_pos (Or.inl hnone)]
    rfl
  · have hframe := frame_linkLevels p pair n (levelsDown (min level g.maxLevel))
      (g.setLevel p n level, landing p pair g n level)
    rw [link_of_some hnone]
    simp only [frame, Prod.mk.injEq, hnone, false_or] at hframe ⊢
    obtain ⟨hlevels, hupper, hpoint, hmaxLevel⟩ := hframe
    split_ifs
    · exact ⟨hlevels, hupper, rfl⟩
    · exact ⟨hlevels, hupper, Prod.ext hpoint hmaxLevel⟩

theorem levels_link (p : Params) (pair : ℕ → ℕ → F) (g : Graph) (n : ℕ) (level : ℤ) :
    (g.link p pair n level).levels = Function.update g.levels n level :=
  congrArg Prod.fst (frame_link p pair g n level)

theorem top_link (p : Params) (pair : ℕ → ℕ → F) (g : Graph) (n : ℕ) (level : ℤ) :
    ((g.link p pair n level).entryPoint, (g.link p pair n level).maxLevel) =
      if g.entryPoint = kNone ∨ g.maxLevel < level then (n, level)
      else (g.entryPoint, g.maxLevel) :=
  congrArg (fun f => f.2.2) (frame_link p pair g n level)

/-- A descent that ends on a level of the graph stays among its nodes, and ends at one of that
level. -/
theorem descend_closed (p : Params) (dist : ℕ → F) {entry : ℕ} {top bottom : ℤ}
    (hclosed : ∀ l, Closed n g l) (hbottom : 0 ≤ bottom) (hle : bottom ≤ top) (hentry : entry < n)
    (hlevel : top ≤ g.levels entry) :
    descend p dist g entry top bottom < n ∧
      bottom ≤ g.levels (descend p dist g entry top bottom) := by
  have hanti : ∀ (l : ℤ) (v : ℕ), (v < n ∧ l ≤ g.levels v) → v < n ∧ l - 1 ≤ g.levels v :=
    fun l v hv => ⟨hv.1, by omega⟩
  have hstay : ∀ l : ℤ, bottom < l → ∀ a, (a < n ∧ l ≤ g.levels a) →
      ∀ v ∈ g.next l a, v < n ∧ l ≤ g.levels v := by
    intro l hl a ha v hv
    lift l to ℕ using by omega
    exact hclosed l a ha.1 ha.2 v hv
  exact descend_mem p dist hanti hstay hle ⟨hentry, hlevel⟩

/-- The landing node is an older node of the level. -/
theorem landing_mem (pair : ℕ → ℕ → F) {level : ℤ} (hclosed : ∀ l, Closed n g l)
    (hentry : g.entryPoint < n) (hlevel : g.levels g.entryPoint = g.maxLevel)
    (hpos : 0 ≤ min level g.maxLevel) :
    landing p pair g n level < n ∧ min level g.maxLevel ≤ g.levels (landing p pair g n level) := by
  unfold landing
  split_ifs with hlt
  · obtain ⟨hn, hle⟩ := descend_closed p (pair n) (fun l => closed_setLevel p level (hclosed l))
      (hpos.trans (min_le_left _ _)) hlt.le hentry (by
        rw [levels_setLevel, Function.update_of_ne (Nat.ne_of_lt hentry), hlevel])
    rw [levels_setLevel, Function.update_of_ne (Nat.ne_of_lt hn)] at hle
    exact ⟨hn, (min_le_left _ _).trans hle⟩
  · exact ⟨hentry, hlevel ▸ min_le_right _ _⟩

/-- **What linking a node does to the blocks**: on the levels that it shares with older nodes it is
connected to nodes chosen there, and the blocks of the other levels stay. -/
theorem link_spec (pair : ℕ → ℕ → F) (level : ℤ) (hclosed : ∀ l, Closed n g l)
    (hentry : g.entryPoint < n) (hsome : g.entryPoint ≠ kNone)
    (hlevel : g.levels g.entryPoint = g.maxLevel) :
    (∀ l : ℕ, (l : ℤ) ≤ min level g.maxLevel → ∃ sel, Chosen p n g.levels l sel ∧
        Joined p pair n l (g.setLevel p n level) (g.link p pair n level) sel) ∧
      ∀ l : ℕ, min level g.maxLevel < (l : ℤ) → ∀ j,
        (g.link p pair n level).linkBlock j l = (g.setLevel p n level).linkBlock j l := by
  have hblocks : ∀ j (l : ℕ), (g.link p pair n level).linkBlock j l =
      (((levelsDown (min level g.maxLevel)).foldl (linkLevel p pair n)
        (g.setLevel p n level, landing p pair g n level)).1).linkBlock j l := by
    intro j l
    rw [link_of_some hsome]
    simp only
    split_ifs <;> rfl
  obtain hneg | hpos := lt_or_ge (min level g.maxLevel) 0
  · have hnil : levelsDown (min level g.maxLevel) = [] := by
      unfold levelsDown
      rw [Int.toNat_of_nonpos (by omega)]
      rfl
    rw [hnil] at hblocks
    exact ⟨fun l hl => absurd hl (by omega), fun l _ j => hblocks j l⟩
  · obtain ⟨hland, hle⟩ := landing_mem (p := p) pair hclosed hentry hlevel hpos
    obtain ⟨t, ht⟩ := Int.eq_ofNat_of_zero_le hpos
    rw [ht] at hle hblocks ⊢
    obtain ⟨hjoined, hother⟩ := linkLevels_spec (p := p) pair t
      (fun l _ => closed_setLevel p level (hclosed l)) hland
      (by rw [levels_setLevel, Function.update_of_ne (Nat.ne_of_lt hland)]; exact hle)
    refine ⟨fun l hl => ?_, fun l hl j => ?_⟩
    · obtain ⟨sel, hsel, hj⟩ := hjoined l (by omega)
      refine ⟨sel, ⟨hsel.ne_nil, hsel.nodup, hsel.length_le, hsel.lt, fun j hj => ?_⟩,
        fun j => ?_⟩
      · have hle := hsel.level_le j hj
        rwa [levels_setLevel, Function.update_of_ne (Nat.ne_of_lt (hsel.lt j hj))] at hle
      · rw [hblocks]
        exact hj j
    · rw [hblocks]
      exact hother l (by omega) j

end

end Graph

end VectorSearch.Hnsw
