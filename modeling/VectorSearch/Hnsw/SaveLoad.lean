import VectorSearch.Hnsw.Sequential
import VectorSearch.Hnsw.Snapshot

/-! # load undoes save

`Graph.Stored` says what the arrays of a graph of `n` nodes hold: every word of a link block has 32
bits, the cells behind a block, above a level and behind the last node were never written, and the
upper blocks of a node are as many as its level.  Together with a tidy key store this is kept by
every call (`Stored.perform`), and `load` then gives the saved index back with another generator
(`reloaded_eq`).

`Lived p S idx` says that calls that draw levels of `S`, and saving and loading, lead from a new
index to `idx`. -/

namespace VectorSearch.Hnsw

/-- A level that the file can hold: an `int32_t`, with upper blocks that 32 bits can count. -/
def Params.Storable (p : Params) (level : ℤ) : Prop :=
  -2 ^ 31 ≤ level ∧ level < 2 ^ 31 ∧ level.toNat * p.strideUpper < 2 ^ 32

theorem Params.storable_zero (p : Params) : p.Storable 0 := by
  refine ⟨by decide, by decide, ?_⟩
  rw [Int.toNat_zero, Nat.zero_mul]
  exact Nat.two_pow_pos 32

/-- Every level that can be drawn can be stored. -/
theorem Params.storable_levelDraw {F : Type} [Platform F] (p : Params) (seed : UInt64) (n : ℕ) :
    p.Storable (Platform.levelDraw F seed p.M n) := by
  obtain ⟨hlow, hhigh⟩ := Platform.levelDraw_bounds (F := F) seed p.M n
  have hM := p.M_le
  rw [kMaxDegree] at hM
  refine ⟨hlow, by omega, ?_⟩
  have hlevel : (Platform.levelDraw F seed p.M n).toNat ≤ 1022 := by omega
  have hstride : p.strideUpper ≤ 129 := by
    unfold strideUpper maxM
    omega
  calc _ ≤ 1022 * 129 := Nat.mul_le_mul hlevel hstride
    _ < 2 ^ 32 := by decide

/-! ### Link blocks -/

namespace Block
variable {cap id : ℕ} {b : Block} {ns : List ℕ}

/-- A block of `cap + 1` words of 32 bits. -/
structure Stored (cap : ℕ) (b : Block) : Prop where
  word_lt : ∀ w, b w < 2 ^ 32
  outside : ∀ w, cap < w → b w = 0

theorem Stored.empty (cap : ℕ) : empty.Stored cap where
  word_lt _ := Nat.two_pow_pos 32
  outside _ _ := rfl

theorem Stored.neighbor_lt (h : b.Stored cap) {j : ℕ} (hj : j ∈ b.neighbors) : j < 2 ^ 32 := by
  obtain ⟨w, -, rfl⟩ := List.mem_map.mp hj
  exact h.word_lt (w + 1)

theorem Stored.push (h : b.Stored cap) (hcap : cap < 2 ^ 32) (hroom : b 0 < cap)
    (hid : id < 2 ^ 32) : (b.push id).Stored cap := by
  unfold Block.push
  refine ⟨fun w => ?_, fun w hw => ?_⟩
  · by_cases h0 : w = 0
    · rw [h0, Function.update_self]
      omega
    · rw [Function.update_of_ne h0]
      by_cases hlast : w = b 0 + 1
      · rwa [hlast, Function.update_self]
      · rw [Function.update_of_ne hlast]
        exact h.word_lt w
  · rw [Function.update_of_ne (by omega), Function.update_of_ne (by omega)]
    exact h.outside w hw

theorem Stored.write (h : b.Stored cap) (hcap : cap < 2 ^ 32) (hns : ∀ j ∈ ns, j < 2 ^ 32) :
    (b.write cap ns).Stored cap := by
  unfold Block.write
  refine ⟨fun w => ?_, fun w hw => ?_⟩
  · simp only
    split_ifs with h0 hn
    · omega
    · rw [List.getD_eq_getElem _ _ (by omega)]
      exact hns _ (List.getElem_mem _)
    · exact h.word_lt w
  · simp only
    rw [if_neg (by omega), if_neg (by omega)]
    exact h.outside w hw

end Block

/-! ### Graphs -/

namespace Graph
variable {p : Params} {n : ℕ} {g : Graph}

theorem maxDegree_lt (p : Params) (l : ℤ) : p.maxDegree l < 2 ^ 32 := by
  have hM := p.M_le
  unfold Params.maxDegree Params.maxM0 Params.maxM
  rw [kMaxDegree] at hM
  split_ifs
  · omega
  · omega

theorem linkBlock_succ (g : Graph) (i l : ℕ) : g.linkBlock i ((l + 1 : ℕ) : ℤ) = g.linksUpper i l := by
  have hne : ((l + 1 : ℕ) : ℤ) ≠ 0 := by omega
  have hl : (((l + 1 : ℕ) : ℤ) - 1).toNat = l := by omega
  rw [linkBlock, if_neg hne, hl]

/-- What the arrays of a graph of `n` nodes hold. -/
structure Stored (p : Params) (n : ℕ) (g : Graph) : Prop where
  level : ∀ i, p.Storable (g.levels i)
  level_fresh : ∀ i, n ≤ i → g.levels i = 0
  upperSize_eq : ∀ i, g.upperSize i = (g.levels i).toNat * p.strideUpper
  block : ∀ i l : ℕ, (g.linkBlock i l).Stored (p.maxDegree l)
  block_fresh : ∀ i l : ℕ, n ≤ i ∨ g.levels i < l ∧ 0 < l → g.linkBlock i l = Block.empty
  maxLevel : p.Storable g.maxLevel

theorem linkBlock_empty (i l : ℕ) : Graph.empty.linkBlock i l = Block.empty := by
  unfold linkBlock Graph.empty
  split_ifs <;> rfl

theorem Stored.empty (p : Params) : Stored p 0 Graph.empty where
  level _ := p.storable_zero
  level_fresh _ _ := rfl
  upperSize_eq _ := (Nat.zero_mul _).symm
  block i l := linkBlock_empty i l ▸ Block.Stored.empty _
  block_fresh i l _ := linkBlock_empty i l
  maxLevel := p.storable_zero

section link
variable {F : Type} [Platform F]

/-- The new level and the room for its blocks. -/
theorem Stored.setLevel (h : Stored p n g) {level : ℤ} (hlevel : p.Storable level) :
    Stored p (n + 1) (g.setLevel p n level) := by
  have hlevels := levels_setLevel (p := p) g n level
  have hself : ∀ l : ℕ, (g.setLevel p n level).linkBlock n l = Block.empty := by
    intro l
    have hfresh : ∀ l : ℕ, g.linkBlock n l = Block.empty := fun l => h.block_fresh n l (Or.inl le_rfl)
    by_cases hl : (l : ℤ) ≤ level
    · exact linkBlock_setLevel_self p (hfresh 0) hl
    · by_cases hpos : 0 < level
      · have hl0 : (l : ℤ) ≠ 0 := by omega
        unfold linkBlock Graph.setLevel
        simp only [if_pos hpos, if_neg hl0, Function.update_self]
      · have hsame : (g.setLevel p n level).linkBlock n l = g.linkBlock n l := by
          unfold linkBlock Graph.setLevel
          simp only [if_neg hpos]
        exact hsame.trans (hfresh l)
  have hother : ∀ {i : ℕ}, i ≠ n → ∀ l : ℕ,
      (g.setLevel p n level).linkBlock i l = g.linkBlock i l := fun hi l =>
    linkBlock_setLevel_ne p g level hi l
  refine ⟨fun i => ?_, fun i hi => ?_, fun i => ?_, fun i l => ?_, fun i l hl => ?_, h.maxLevel⟩
  · rw [hlevels]
    by_cases hi : i = n
    · rwa [hi, Function.update_self]
    · rw [Function.update_of_ne hi]
      exact h.level i
  · rw [hlevels, Function.update_of_ne (by omega)]
    exact h.level_fresh i (by omega)
  · rw [hlevels]
    unfold Graph.setLevel
    by_cases hi : i = n
    · rw [hi, Function.update_self]
      by_cases hpos : 0 < level
      · simp only [if_pos hpos, Function.update_self]
      · have hzero : g.upperSize n = 0 := by
          rw [h.upperSize_eq, h.level_fresh n le_rfl, Int.toNat_zero, Nat.zero_mul]
        simp only [if_neg hpos, hzero, Int.toNat_of_nonpos (not_lt.mp hpos), Nat.zero_mul]
    · rw [Function.update_of_ne hi, ← h.upperSize_eq]
      split_ifs
      · exact Function.update_of_ne hi _ _
      · rfl
  · by_cases hi : i = n
    · rw [hi, hself]
      exact Block.Stored.empty _
    · rw [hother hi]
      exact h.block i l
  · by_cases hi : i = n
    · rw [hi, hself]
    · rw [hlevels, Function.update_of_ne hi] at hl
      rw [hother hi]
      exact h.block_fresh i l (hl.imp_left fun hle => by omega)

/-- The block of an older node with a link back to node `n`. -/
theorem stored_backBlock {b : Block} {l : ℕ} (h : b.Stored (p.maxDegree l)) (hn : n < 2 ^ 32)
    (pair : ℕ → ℕ → F) (i : ℕ) : (backBlock p pair n l i b).Stored (p.maxDegree l) := by
  have hcap := maxDegree_lt p l
  unfold backBlock
  split_ifs with hroom
  · rw [Block.length_neighbors] at hroom
    exact h.push hcap hroom hn
  · refine h.write hcap fun j hj => ?_
    obtain rfl | hj := List.mem_cons.mp ((backLinks_subperm p pair n l i b.neighbors).subset hj)
    · exact hn
    · exact h.neighbor_lt hj

/-- Connecting node `n` on the levels up to `top`, where all nodes concerned have those levels. -/
theorem Stored.joined {g' : Graph} (h : Stored p (n + 1) g) {pair : ℕ → ℕ → F} {level top : ℤ}
    {levels : ℕ → ℤ} (hn : n < 2 ^ 32) (hframe : g'.levels = g.levels ∧ g'.upperSize = g.upperSize)
    (hmax : p.Storable g'.maxLevel) (hlevels : g.levels = Function.update levels n level)
    (htop : top ≤ level)
    (hjoined : ∀ l : ℕ, (l : ℤ) ≤ top → ∃ sel, Chosen p n levels l sel ∧
      Joined p pair n l g g' sel)
    (hother : ∀ l : ℕ, top < (l : ℤ) → ∀ j, g'.linkBlock j l = g.linkBlock j l) :
    Stored p (n + 1) g' := by
  obtain ⟨hframe, hupper⟩ := hframe
  refine ⟨hframe ▸ h.level, hframe ▸ h.level_fresh, hframe ▸ hupper ▸ h.upperSize_eq,
    fun i l => ?_, fun i l hl => ?_, hmax⟩
  · by_cases hshared : (l : ℤ) ≤ top
    · obtain ⟨sel, hsel, hj⟩ := hjoined l hshared
      rw [hj i]
      split_ifs
      · exact (h.block n l).write (maxDegree_lt p l) fun j hj => (hsel.lt j hj).trans hn
      · exact stored_backBlock (h.block i l) hn pair i
      · exact h.block i l
    · rw [hother l (not_le.mp hshared) i]
      exact h.block i l
  · rw [hframe] at hl
    by_cases hshared : (l : ℤ) ≤ top
    · obtain ⟨sel, hsel, hj⟩ := hjoined l hshared
      have hin : i ≠ n := by
        rintro rfl
        rw [hlevels, Function.update_self] at hl
        omega
      have hisel : i ∉ sel := fun hmem => by
        have hlt := hsel.lt i hmem
        have hle := hsel.level_le i hmem
        rw [hlevels, Function.update_of_ne hin] at hl
        omega
      rw [hj i, if_neg hin, if_neg hisel]
      exact h.block_fresh i l hl
    · rw [hother l (not_le.mp hshared) i]
      exact h.block_fresh i l hl

/-- **Linking the next node.** -/
theorem Stored.link (h : Stored p n g) (hw : WellFormed p n g) (hn : n ≤ kNone) (pair : ℕ → ℕ → F)
    {level : ℤ} (hlevel : p.Storable level) : Stored p (n + 1) (g.link p pair n level) := by
  have hset := h.setLevel hlevel
  have hn32 : n < 2 ^ 32 := by
    rw [kNone] at hn
    omega
  obtain rfl | hpos := Nat.eq_zero_or_pos n
  · rw [link_of_none (hw.entry_none rfl)]
    exact ⟨hset.level, hset.level_fresh, hset.upperSize_eq, hset.block, hset.block_fresh, hlevel⟩
  · obtain ⟨hjoined, hother⟩ := link_spec (p := p) pair level hw.closed
      (hw.entry_lt hpos) (hw.entry_ne_none hpos hn) (hw.level_entry hpos)
    have hframe := frame_link p pair g n level
    simp only [frame, Prod.mk.injEq] at hframe
    obtain ⟨hlevels, hupper, htop⟩ := hframe
    have hmax : p.Storable (g.link p pair n level).maxLevel := by
      split_ifs at htop
      · rwa [(Prod.mk.inj htop).2]
      · rw [(Prod.mk.inj htop).2]
        exact h.maxLevel
    exact hset.joined hn32 ⟨hlevels, hupper⟩ hmax rfl (min_le_left _ _) hjoined hother

end link

end Graph

/-! ### Indices -/

/-- The slots behind the last vector were never written. -/
def Store.Tidy {F : Type} (s : Store F) : Prop :=
  ∀ i, s.count ≤ i → s.data i = [] ∧ s.labels i = ⟨0, 0⟩ ∧ s.deleted i = false

namespace Store
variable {F : Type} {p : Params} {s : Store F}

theorem Tidy.setFlag (h : s.Tidy) {i : ℕ} (hi : i < s.count) (b : Bool) (n : ℕ) :
    ({ s with deleted := Function.update s.deleted i b, numDeleted := n } : Store F).Tidy := by
  intro j hj
  obtain ⟨hdata, hlabel, hdel⟩ := h j hj
  have hne : j ≠ i := Nat.ne_of_gt (lt_of_lt_of_le hi hj)
  exact ⟨hdata, hlabel, (Function.update_of_ne hne _ _).trans hdel⟩

theorem Tidy.markDeleted (h : s.Tidy) (hgood : s.Good p) (k : Label) : (s.markDeleted k).1.Tidy := by
  cases hi : s.labelToId k with
  | none =>
      rw [markDeleted_none hi]
      exact h
  | some i =>
      rw [markDeleted_some hi]
      split_ifs
      · exact h
      · exact h.setFlag (hgood.label_of_id hi).1 _ _

theorem Tidy.unmarkDeleted (h : s.Tidy) (hgood : s.Good p) (k : Label) :
    (s.unmarkDeleted k).1.Tidy := by
  cases hi : s.labelToId k with
  | none =>
      rw [unmarkDeleted_none hi]
      exact h
  | some i =>
      rw [unmarkDeleted_some hi]
      split_ifs
      · exact h
      · exact h.setFlag (hgood.label_of_id hi).1 _ _

theorem Tidy.add [Platform F] (h : s.Tidy) {vec : List F} {k : Label}
    (hid : s.hasLabel k = true ∨ s.count < 2 ^ 32) : (s.add p vec k).1.Tidy := by
  cases hk : s.hasLabel k with
  | true =>
      rw [add_of_hasLabel p vec hk]
      exact h
  | false =>
      have hcount : s.count < 2 ^ 32 := hid.resolve_left (by rw [hk]; exact Bool.false_ne_true)
      obtain hlt | hfull := Nat.lt_or_ge (s.count % 2 ^ 32) p.maxElements
      · rw [add_of_lt vec hk hlt, Nat.mod_eq_of_lt hcount]
        intro j (hj : s.count + 1 ≤ j)
        have hne : j ≠ s.count := by omega
        obtain ⟨hdata, hlabel, hdel⟩ := h j (by omega)
        exact ⟨(Function.update_of_ne hne _ _).trans hdata,
          (Function.update_of_ne hne _ _).trans hlabel, (Function.update_of_ne hne _ _).trans hdel⟩
      · rw [add_of_full vec hk hfull]
        exact h

end Store

/-- Calls write no slot behind the last vector. -/
theorem Store.Tidy.perform {F : Type} [Platform F] {idx : Index F} (h : idx.store.Tidy)
    (hgood : idx.store.Good idx.params) {op : Index.Op F} (hid : op.HasId idx) :
    (op.perform idx).1.store.Tidy := by
  cases op with
  | addPoint vec label level =>
      have hstore := (idx.store_addPointAt vec label level).1
      rw [Index.Op.perform, hstore]
      exact h.add hid
  | markDeleted label => exact h.markDeleted hgood label
  | unmarkDeleted label => exact h.unmarkDeleted hgood label
  | search query k ef => exact h

theorem Index.Reached.tidy {F : Type} [Platform F] {p : Params} {idx : Index F}
    (h : Reached p idx) : idx.store.Tidy := by
  induction h with
  | new seed => exact fun _ _ => ⟨rfl, rfl, rfl⟩
  | call op rng h _ hid ih =>
      obtain ⟨rfl, hcounted⟩ := h.counted
      exact Store.Tidy.perform ih hcounted.good hid

namespace Index
variable {F : Type} [Platform F] {p : Params} {S : Set ℤ}

/-- An index as calls and `load` leave it. -/
structure Stored (idx : Index F) : Prop where
  counted : idx.store.Counted idx.params
  tidy : idx.store.Tidy
  wellFormed : idx.graph.WellFormed idx.params idx.store.count
  graph : idx.graph.Stored idx.params idx.store.count

omit [Platform F] in
theorem Stored.new (p : Params) (seed : UInt64) : (Index.new p seed : Index F).Stored where
  counted := Store.Counted.empty p
  tidy _ _ := ⟨rfl, rfl, rfl⟩
  wellFormed := Graph.WellFormed.empty p
  graph := Graph.Stored.empty p

/-- The levels that a call draws are in a set. -/
def Op.Draws (S : Set ℤ) : Op F → Prop
  | addPoint _ _ level => level ∈ S
  | _ => True

theorem Stored.addPointAt {idx : Index F} (h : idx.Stored) {vec : List F} {label : Label}
    {level : ℤ} (hlen : vec.length = idx.params.dim)
    (hid : idx.store.hasLabel label = true ∨ idx.store.count < 2 ^ 32)
    (hlevel : idx.params.Storable level) : (idx.addPointAt vec label level).1.Stored := by
  cases hres : (idx.addPointAt vec label level).2 with
  | error e => rwa [addPointAt_of_error hres]
  | ok id =>
      obtain ⟨hlabel, hlt, hid', hstore, hgraph⟩ := addPointAt_of_ok hres
      have hcount := hid.resolve_left (by rw [hlabel]; exact Bool.false_ne_true)
      have hwell := (Index.WellFormed.mk h.counted.good h.wellFormed).addPointAt hlen label level
        hcount
      rw [Nat.mod_eq_of_lt hcount] at hlt hid'
      have hroom : idx.store.count < idx.params.room := lt_min hlt hcount
      have hcnt : (idx.store.add idx.params vec label).1.count = idx.store.count + 1 := by
        rw [Store.add_of_room vec hlabel hroom]
        rfl
      refine ⟨?_, ?_, hwell.graph, ?_⟩
      · rw [hstore, params_addPointAt]
        exact h.counted.add hlen (Or.inr hcount)
      · rw [hstore]
        exact h.tidy.add (Or.inr hcount)
      · rw [hgraph, params_addPointAt, hstore, hcnt, hid']
        exact h.graph.link h.wellFormed (by rw [kNone]; omega) _ hlevel

/-- **Every call keeps it**, with levels that can be stored. -/
theorem Stored.perform {idx : Index F} (h : idx.Stored) {op : Op F}
    (hsized : op.Sized idx.params.dim) (hid : op.HasId idx)
    (hdraws : op.Draws {level | idx.params.Storable level}) : (op.perform idx).1.Stored := by
  have hcounted := counted_perform h.counted hsized hid
  have htidy := h.tidy.perform h.counted.good hid
  cases op with
  | addPoint vec label level => exact h.addPointAt hsized hid hdraws
  | markDeleted label =>
      have hcount := idx.store.count_markDeleted label
      exact ⟨hcounted, htidy, hcount ▸ h.wellFormed, hcount ▸ h.graph⟩
  | unmarkDeleted label =>
      have hcount := idx.store.count_unmarkDeleted label
      exact ⟨hcounted, htidy, hcount ▸ h.wellFormed, hcount ▸ h.graph⟩
  | search query k ef => exact h

end Index

/-! ### What load reads -/

theorem toInt32_ofInt32 {z : ℤ} (hlow : -2 ^ 31 ≤ z) (hhigh : z < 2 ^ 31) :
    toInt32 (ofInt32 z % 256 ^ 4) = z := by
  unfold toInt32 ofInt32
  split_ifs with h
  · omega
  · omega

namespace Index
variable {idx : Index UInt32}

section
variable (h : idx.Stored)
include h

theorem store_reloaded_eq : idx.reloaded.store = idx.store := by
  have hgood := h.counted.good
  have hcount := count_reloaded hgood
  have hmap := labelToId_reloaded hgood
  have hndel : idx.reloaded.store.numDeleted = idx.store.numDeleted :=
    Nat.mod_eq_of_lt h.counted.lt
  have hdata : idx.reloaded.store.data = idx.store.data := by
    funext i
    obtain hi | hi := Nat.lt_or_ge i idx.store.count
    · exact data_reloaded hgood hi
    · rw [(h.tidy i hi).1]
      exact List.getD_eq_default _ _ (by simpa [body] using hi)
  have hlabels : idx.reloaded.store.labels = idx.store.labels := by
    funext i
    obtain hi | hi := Nat.lt_or_ge i idx.store.count
    · exact labels_reloaded hi
    · rw [(h.tidy i hi).2.1]
      exact List.getD_eq_default _ _ (by simpa [body] using hi)
  have hdeleted : idx.reloaded.store.deleted = idx.store.deleted := by
    funext i
    obtain hi | hi := Nat.lt_or_ge i idx.store.count
    · exact deleted_reloaded hi
    · rw [(h.tidy i hi).2.2]
      exact List.getD_eq_default _ _ (by simpa [body] using hi)
  generalize idx.reloaded.store = s at hcount hmap hndel hdata hlabels hdeleted
  cases s
  simp only at hcount hmap hndel hdata hlabels hdeleted
  rw [hcount, hmap, hndel, hdata, hlabels, hdeleted]

theorem levels_reloaded : idx.reloaded.graph.levels = idx.graph.levels := by
  funext i
  obtain ⟨hlow, hhigh, -⟩ := h.graph.level i
  obtain hi | hi := Nat.lt_or_ge i idx.store.count
  · exact (getD_map_range _ hi _).trans (toInt32_ofInt32 hlow hhigh)
  · rw [h.graph.level_fresh i hi]
    exact List.getD_eq_default _ _ (by simpa [body] using hi)

theorem linksL0_reloaded : idx.reloaded.graph.linksL0 = idx.graph.linksL0 := by
  funext i w
  have hblock : (idx.graph.linksL0 i).Stored (idx.params.maxDegree 0) := h.graph.block i 0
  obtain hi | hi := Nat.lt_or_ge i idx.store.count
  · have hrow : idx.body.linksL0.getD i [] =
        (List.range idx.params.strideL0).map fun w => idx.graph.linksL0 i w % 256 ^ 4 :=
      getD_map_range _ hi _
    have hget : idx.reloaded.graph.linksL0 i w = (idx.body.linksL0.getD i []).getD w 0 := rfl
    rw [hget, hrow]
    obtain hw | hw := Nat.lt_or_ge w idx.params.strideL0
    · rw [getD_map_range _ hw]
      exact Nat.mod_eq_of_lt (hblock.word_lt w)
    · rw [hblock.outside w hw]
      exact List.getD_eq_default _ _ (by simpa using hw)
  · have hfresh : idx.graph.linksL0 i = Block.empty := h.graph.block_fresh i 0 (Or.inl hi)
    have hrow : idx.body.linksL0.getD i [] = [] :=
      List.getD_eq_default _ _ (by simpa [body] using hi)
    have hget : idx.reloaded.graph.linksL0 i w = (idx.body.linksL0.getD i []).getD w 0 := rfl
    rw [hget, hrow, hfresh]
    rfl

/-- The words of `linksUpper_[i]` as they are read back. -/
theorem upper_reloaded {i : ℕ} (hi : i < idx.store.count) :
    idx.body.linksUpper.getD i [] =
      (List.range (idx.graph.upperSize i)).map fun j => idx.upperWord i j % 256 ^ 4 := by
  obtain ⟨-, -, hsize⟩ := h.graph.level i
  have hmod : idx.graph.upperSize i % 2 ^ 32 = idx.graph.upperSize i := by
    rw [h.graph.upperSize_eq]
    exact Nat.mod_eq_of_lt hsize
  have hrow := getD_map_range (fun i => (List.range (idx.graph.upperSize i % 2 ^ 32)).map fun j =>
    idx.upperWord i j % 256 ^ 4) hi []
  rwa [hmod] at hrow

theorem upperSize_reloaded : idx.reloaded.graph.upperSize = idx.graph.upperSize := by
  funext i
  have hget : idx.reloaded.graph.upperSize i = (idx.body.linksUpper.getD i []).length := rfl
  rw [hget]
  obtain hi | hi := Nat.lt_or_ge i idx.store.count
  · rw [upper_reloaded h hi, List.length_map, List.length_range]
  · have hrow : idx.body.linksUpper.getD i [] = [] :=
      List.getD_eq_default _ _ (by simpa [body] using hi)
    rw [hrow, h.graph.upperSize_eq, h.graph.level_fresh i hi, Int.toNat_zero, Nat.zero_mul]
    rfl

theorem linksUpper_reloaded : idx.reloaded.graph.linksUpper = idx.graph.linksUpper := by
  funext i l w
  have hget : idx.reloaded.graph.linksUpper i l w = if w < idx.params.strideUpper
      then (idx.body.linksUpper.getD i []).getD (l * idx.params.strideUpper + w) 0 else 0 := rfl
  have hblock := h.graph.block i (l + 1)
  rw [Graph.linkBlock_succ] at hblock
  have hstride : idx.params.maxDegree ((l + 1 : ℕ) : ℤ) + 1 = idx.params.strideUpper := by
    rw [Params.maxDegree, if_neg (by omega)]
    rfl
  rw [hget]
  obtain hw | hw := Nat.lt_or_ge w idx.params.strideUpper
  · rw [if_pos hw]
    by_cases hin : i < idx.store.count ∧ l < (idx.graph.levels i).toNat
    · obtain ⟨hi, hl⟩ := hin
      have hlt : l * idx.params.strideUpper + w < idx.graph.upperSize i := by
        rw [h.graph.upperSize_eq]
        calc _ < l * idx.params.strideUpper + idx.params.strideUpper := Nat.add_lt_add_left hw _
          _ = (l + 1) * idx.params.strideUpper := (Nat.succ_mul _ _).symm
          _ ≤ _ := Nat.mul_le_mul_right _ hl
      have hword : idx.upperWord i (l * idx.params.strideUpper + w) = idx.graph.linksUpper i l w := by
        have hpos : 0 < idx.params.strideUpper := Nat.succ_pos _
        unfold upperWord
        rw [Nat.add_comm, Nat.add_mul_div_right _ _ hpos, Nat.add_mul_mod_self_right,
          Nat.div_eq_of_lt hw, Nat.mod_eq_of_lt hw, Nat.zero_add]
      rw [upper_reloaded h hi, getD_map_range _ hlt, hword]
      exact Nat.mod_eq_of_lt (hblock.word_lt w)
    · have hempty : idx.graph.linksUpper i l = Block.empty := by
        rw [← Graph.linkBlock_succ]
        refine h.graph.block_fresh i (l + 1) ?_
        by_cases hi : i < idx.store.count
        · exact Or.inr ⟨by omega, Nat.succ_pos l⟩
        · exact Or.inl (not_lt.mp hi)
      have hout : (idx.body.linksUpper.getD i []).length ≤ l * idx.params.strideUpper + w := by
        have hsize : (idx.body.linksUpper.getD i []).length = idx.graph.upperSize i :=
          congrFun (upperSize_reloaded h) i
        rw [hsize, h.graph.upperSize_eq]
        by_cases hi : i < idx.store.count
        · exact le_trans (Nat.mul_le_mul_right _ (by omega)) (Nat.le_add_right _ _)
        · rw [h.graph.level_fresh i (not_lt.mp hi), Int.toNat_zero, Nat.zero_mul]
          exact Nat.zero_le _
      rw [hempty, List.getD_eq_default _ _ hout]
      rfl
  · rw [if_neg (not_lt.mpr hw), hblock.outside w (by omega)]

theorem graph_reloaded_eq : idx.reloaded.graph = idx.graph := by
  have hlevels := levels_reloaded h
  have hlinksL0 := linksL0_reloaded h
  have hlinksUpper := linksUpper_reloaded h
  have hupperSize := upperSize_reloaded h
  have hentry : idx.reloaded.graph.entryPoint = idx.graph.entryPoint := by
    refine Nat.mod_eq_of_lt (b := 256 ^ 4) ?_
    have hle := h.counted.good.count_le
    rw [Params.room] at hle
    obtain h0 | hpos := Nat.eq_zero_or_pos idx.store.count
    · have hnone : idx.header.ep = kNone := h.wellFormed.entry_none h0
      rw [hnone]
      decide
    · have hlt : idx.header.ep < idx.store.count := h.wellFormed.entry_lt hpos
      omega
  have hmax : idx.reloaded.graph.maxLevel = idx.graph.maxLevel :=
    toInt32_ofInt32 h.graph.maxLevel.1 h.graph.maxLevel.2.1
  generalize idx.reloaded.graph = g at hlevels hlinksL0 hlinksUpper hupperSize hentry hmax
  cases g
  simp only at hlevels hlinksL0 hlinksUpper hupperSize hentry hmax
  rw [hlevels, hlinksL0, hlinksUpper, hupperSize, hentry, hmax]

/-- **The loaded index is the saved one** with a new generator. -/
theorem reloaded_eq : idx.reloaded = { idx with rng := ⟨100, 0⟩ } := by
  have hstore := store_reloaded_eq h
  have hgraph := graph_reloaded_eq h
  have hparams : idx.reloaded.params = idx.params := rfl
  have hrng : idx.reloaded.rng = ⟨100, 0⟩ := rfl
  generalize idx.reloaded = idx' at hstore hgraph hparams hrng
  cases idx'
  simp only at hstore hgraph hparams hrng
  rw [hstore, hgraph, hparams, hrng]

end

end Index

/-! ### Lives of an index -/

namespace Index

section
variable {idx : Index UInt32}

/-- The file of a stored index loads, and gives it back. -/
theorem Stored.load_save (h : idx.Stored) :
    load idx.save = .ok { idx with rng := ⟨100, 0⟩ } := by
  have hcount : idx.store.count ≤ idx.params.maxElements :=
    h.counted.good.count_le.trans (min_le_left _ _)
  rw [Hnsw.load_save idx hcount, reloaded_eq h]

theorem Stored.with_rng (h : idx.Stored) (rng : Rng) : ({ idx with rng } : Index UInt32).Stored :=
  ⟨h.counted, h.tidy, h.wellFormed, h.graph⟩

end

section
variable {F : Type} [Platform F]

/-- What a sequence of calls returns. -/
def Op.answers : Index F → List (Op F) → List (Answer F)
  | _, [] => []
  | idx, op :: ops => (op.perform idx).2 :: answers (op.perform idx).1 ops

/-- With the levels given, a call does not look at the generator. -/
theorem Op.perform_rng (idx : Index F) (rng : Rng) (op : Op F) :
    op.perform { idx with rng } = ({ (op.perform idx).1 with rng }, (op.perform idx).2) := by
  cases op with
  | addPoint vec label level =>
      unfold perform addPointAt
      simp only
      split_ifs
      · rfl
      · rfl
      · rfl
  | markDeleted label => rfl
  | unmarkDeleted label => rfl
  | search query k ef => rfl

end

section
variable [Platform UInt32]

/-- Sequential calls that draw levels of `S`, and saving and loading, lead from a new index with
parameters `p` to `idx`. -/
inductive Lived (p : Params) (S : Set ℤ) : Index UInt32 → Prop where
  | new (seed : UInt64) : Lived p S (Index.new p seed)
  | call {idx : Index UInt32} (op : Op UInt32) (rng : Rng) (h : Lived p S idx)
      (hsized : op.Sized p.dim) (hid : op.HasId idx) (hdraws : op.Draws S) :
      Lived p S { (op.perform idx).1 with rng }
  | reload {idx idx' : Index UInt32} (h : Lived p S idx) (hload : load idx.save = .ok idx') :
      Lived p S idx'

variable {p : Params} {S : Set ℤ} {idx : Index UInt32}

theorem Lived.stored (h : Lived p S idx) (hS : ∀ level ∈ S, p.Storable level) :
    idx.params = p ∧ idx.Stored := by
  induction h with
  | new seed => exact ⟨rfl, Stored.new p seed⟩
  | call op rng _ hsized hid hdraws ih =>
      obtain ⟨rfl, hstored⟩ := ih
      refine ⟨Op.params_perform _ op, (hstored.perform hsized hid ?_).with_rng rng⟩
      cases op with
      | addPoint vec label level => exact hS level hdraws
      | markDeleted label => trivial
      | unmarkDeleted label => trivial
      | search query k ef => trivial
  | reload _ hload ih =>
      obtain ⟨rfl, hstored⟩ := ih
      rw [hstored.load_save] at hload
      obtain rfl := Except.ok.inj hload
      exact ⟨rfl, hstored.with_rng _⟩

end

open StandIn

end Index

end VectorSearch.Hnsw
