import VectorSearch.Hnsw.WellFormed

/-! # Sequential calls and the counters of the key store

`Op` is a call of `addPoint`, `markDeleted`, `unmarkDeleted` or `search` with its arguments and, for
an insertion, the level it draws.  `Reached p idx` says that calls lead from a new index with
parameters `p` to `idx`, where a new label is only added while there are fewer than `2 ^ 32` vectors
(`Op.HasId`): the id of a vector is the count cut to 32 bits, so the next one would take the place
of vector 0.

* `keyStore_exact`: on every such index labels and label map are inverse to each other, the counters
  are exact, and a call that fails changes nothing.
* `filled_spec` builds an index with any number of vectors up to `2 ^ 32`; one more makes two labels
  share an id (`overwrite_first`). -/

namespace VectorSearch.Hnsw

/-! ### The tombstones and their count -/

namespace Store
variable {F : Type} {p : Params} {s : Store F}

/-- The tombstoned ids. -/
def flagged (s : Store F) : Finset ℕ := (Finset.range s.count).filter fun i => s.deleted i = true

/-- The ids of live vectors. -/
def liveIds (s : Store F) : Finset ℕ := (Finset.range s.count).filter fun i => s.deleted i = false

/-- A good store whose tombstone counter is right. -/
structure Counted (p : Params) (s : Store F) : Prop where
  good : s.Good p
  numDeleted_eq : s.numDeleted = s.flagged.card

theorem mem_flagged {i : ℕ} : i ∈ s.flagged ↔ i < s.count ∧ s.deleted i = true := by
  rw [flagged, Finset.mem_filter, Finset.mem_range]

theorem card_flagged_le (s : Store F) : s.flagged.card ≤ s.count :=
  (Finset.card_filter_le _ _).trans (Finset.card_range _).le

theorem card_flagged_add_live (s : Store F) : s.flagged.card + s.liveIds.card = s.count := by
  have h := Finset.card_filter_add_card_filter_not (s := Finset.range s.count)
    (fun i => s.deleted i = true)
  simpa only [flagged, liveIds, Bool.not_eq_true, Finset.card_range] using h

theorem Counted.empty (p : Params) : Counted p (Store.empty F) := ⟨Good.empty p, rfl⟩

theorem Counted.lt (h : s.Counted p) : s.numDeleted < 2 ^ 64 := by
  have hle := h.good.count_le
  have hcard := s.card_flagged_le
  rw [Params.room] at hle
  rw [h.numDeleted_eq]
  omega

theorem Counted.add [Platform F] (h : s.Counted p) {vec : List F} {k : Label}
    (hlen : vec.length = p.dim) (hid : s.hasLabel k = true ∨ s.count < 2 ^ 32) :
    (s.add p vec k).1.Counted p := by
  cases hk : s.hasLabel k with
  | true =>
      rw [add_of_hasLabel p vec hk]
      exact h
  | false =>
      have hcount : s.count < 2 ^ 32 := hid.resolve_left (by rw [hk]; exact Bool.false_ne_true)
      obtain hlt | hfull := Nat.lt_or_ge (s.count % 2 ^ 32) p.maxElements
      · rw [Nat.mod_eq_of_lt hcount] at hlt
        have hroom : s.count < p.room := lt_min hlt hcount
        refine ⟨(h.good.add_new hlen hk hroom).1, ?_⟩
        rw [add_of_room vec hk hroom]
        have hflags : ∀ i, i < s.count + 1 ∧ Function.update s.deleted s.count false i = true ↔
            i < s.count ∧ s.deleted i = true := by
          intro i
          by_cases hi : i = s.count
          · simp [hi]
          · rw [Function.update_of_ne hi]
            exact and_congr_left fun _ => by omega
        refine h.numDeleted_eq.trans (congrArg Finset.card (Finset.ext fun i => ?_))
        rw [mem_flagged, mem_flagged]
        exact (hflags i).symm
      · rw [add_of_full vec hk hfull]
        exact h

/-- Setting the tombstone of a live vector. -/
theorem Counted.markDeleted (h : s.Counted p) (k : Label) : (s.markDeleted k).1.Counted p := by
  refine ⟨(h.good.markDeleted k).1, ?_⟩
  cases hi : s.labelToId k with
  | none =>
      rw [markDeleted_none hi]
      exact h.numDeleted_eq
  | some i =>
      rw [markDeleted_some hi]
      split_ifs with hd
      · exact h.numDeleted_eq
      · have hlt := (h.good.label_of_id hi).1
        have hnot : i ∉ s.flagged := fun hmem => hd (mem_flagged.mp hmem).2
        have hflags : ({ s with
            deleted := Function.update s.deleted i true
            numDeleted := (s.numDeleted + 1) % 2 ^ 64 } : Store F).flagged = insert i s.flagged := by
          ext j
          rw [Finset.mem_insert, mem_flagged, mem_flagged]
          by_cases hj : j = i
          · subst hj
            simp [hlt]
          · simp only [Function.update_of_ne hj, hj, false_or]
        have hle : (insert i s.flagged).card ≤ s.count := by
          rw [← hflags]
          exact card_flagged_le _
        have hcount := h.good.count_le
        rw [hflags, Finset.card_insert_of_notMem hnot, ← h.numDeleted_eq]
        rw [Finset.card_insert_of_notMem hnot, ← h.numDeleted_eq] at hle
        rw [Params.room] at hcount
        exact Nat.mod_eq_of_lt (by omega)

/-- Clearing a tombstone. -/
theorem Counted.unmarkDeleted (h : s.Counted p) (k : Label) : (s.unmarkDeleted k).1.Counted p := by
  refine ⟨(h.good.unmarkDeleted k).1, ?_⟩
  cases hi : s.labelToId k with
  | none =>
      rw [unmarkDeleted_none hi]
      exact h.numDeleted_eq
  | some i =>
      rw [unmarkDeleted_some hi]
      split_ifs with hd
      · exact h.numDeleted_eq
      · have hlt := (h.good.label_of_id hi).1
        have hmem : i ∈ s.flagged := mem_flagged.mpr ⟨hlt, by simpa using hd⟩
        have hflags : ({ s with
            deleted := Function.update s.deleted i false
            numDeleted := (s.numDeleted + (2 ^ 64 - 1)) % 2 ^ 64 } : Store F).flagged =
              s.flagged.erase i := by
          ext j
          rw [Finset.mem_erase, mem_flagged, mem_flagged]
          by_cases hj : j = i
          · subst hj
            simp
          · simp only [Function.update_of_ne hj, ne_eq, hj, not_false_eq_true, true_and]
        have hpos : 0 < s.flagged.card := Finset.card_pos.mpr ⟨i, hmem⟩
        have hsmall := h.lt
        rw [hflags, Finset.card_erase_of_mem hmem, ← h.numDeleted_eq]
        rw [← h.numDeleted_eq] at hpos
        have hstep : s.numDeleted + (2 ^ 64 - 1) = (s.numDeleted - 1) + 2 ^ 64 := by omega
        have hnew : (s.numDeleted + (2 ^ 64 - 1)) % 2 ^ 64 = s.numDeleted - 1 := by
          rw [hstep, Nat.add_mod_right]
          exact Nat.mod_eq_of_lt (by omega)
        exact hnew

end Store

/-! ### Calls -/

namespace Index

/-- A call on an index; an insertion comes with the level it draws. -/
inductive Op (F : Type) where
  | addPoint (vec : List F) (label : Label) (level : ℤ)
  | markDeleted (label : Label)
  | unmarkDeleted (label : Label)
  | search (query : List F) (k ef : ℕ)

/-- What a call returns. -/
inductive Answer (F : Type) where
  | added (r : Except AddError ℕ)
  | marked (done : Bool)
  | found (results : List (Label × F))

/-- The call raised an error or returned `false`. -/
def Answer.Failed {F : Type} : Answer F → Prop
  | .added (.error _) => True
  | .marked false => True
  | _ => False

namespace Op
variable {F : Type}

/-- `addPoint` reads as many components as the index has dimensions. -/
def Sized (dim : ℕ) : Op F → Prop
  | addPoint vec _ _ => vec.length = dim
  | _ => True

/-- A new label comes while the ids, which have 32 bits, are not used up. -/
def HasId (idx : Index F) : Op F → Prop
  | addPoint _ label _ => idx.store.hasLabel label = true ∨ idx.store.count < 2 ^ 32
  | _ => True

variable [Platform F]

def perform (idx : Index F) : Op F → Index F × Answer F
  | addPoint vec label level =>
      ((idx.addPointAt vec label level).1, .added (idx.addPointAt vec label level).2)
  | markDeleted label => ((idx.markDeleted label).1, .marked (idx.markDeleted label).2)
  | unmarkDeleted label => ((idx.unmarkDeleted label).1, .marked (idx.unmarkDeleted label).2)
  | search query k ef => (idx, .found (idx.search query k ef))

/-- The index after a sequence of calls. -/
def performAll (idx : Index F) (ops : List (Op F)) : Index F :=
  ops.foldl (fun idx op => (op.perform idx).1) idx

@[simp] theorem params_perform (idx : Index F) (op : Op F) :
    (op.perform idx).1.params = idx.params := by
  cases op with
  | addPoint vec label level => exact params_addPointAt idx vec label level
  | markDeleted label => rfl
  | unmarkDeleted label => rfl
  | search query k ef => rfl

end Op

/-- Sequential calls lead from a new index with parameters `p` to `idx`.  The levels are arguments of
the calls, so what the generator does is left open. -/
inductive Reached {F : Type} [Platform F] (p : Params) : Index F → Prop where
  | new (seed : UInt64) : Reached p (Index.new p seed)
  | call {idx : Index F} (op : Op F) (rng : Rng) (h : Reached p idx) (hsized : op.Sized p.dim)
      (hid : op.HasId idx) : Reached p { (op.perform idx).1 with rng }

variable {F : Type} [Platform F] {p : Params} {idx : Index F}

theorem counted_perform (h : idx.store.Counted idx.params) {op : Op F}
    (hsized : op.Sized idx.params.dim) (hid : op.HasId idx) :
    (op.perform idx).1.store.Counted idx.params := by
  cases op with
  | addPoint vec label level =>
      have hstore := (idx.store_addPointAt vec label level).1
      rw [Op.perform, hstore]
      exact h.add hsized hid
  | markDeleted label => exact h.markDeleted label
  | unmarkDeleted label => exact h.unmarkDeleted label
  | search query k ef => exact h

theorem Reached.counted (h : Reached p idx) : idx.params = p ∧ idx.store.Counted p := by
  induction h with
  | new seed => exact ⟨rfl, Store.Counted.empty p⟩
  | call op rng _ hsized hid ih =>
      obtain ⟨rfl, hcounted⟩ := ih
      exact ⟨Op.params_perform _ op, counted_perform hcounted hsized hid⟩

/-- `addPoint` is a call that draws the next level of the generator. -/
theorem addPoint_eq (idx : Index F) (vec : List F) (label : Label) :
    ∃ rng, (idx.addPoint vec label).1 =
      { ((Op.addPoint vec label idx.randomLevel).perform idx).1 with rng } := by
  have hcall : ((Op.addPoint vec label idx.randomLevel).perform idx).1 =
      (idx.addPointAt vec label idx.randomLevel).1 := rfl
  rw [hcall]
  unfold addPoint
  split
  · rename_i heq
    rw [heq]
    exact ⟨_, rfl⟩
  · rename_i heq
    rw [heq]
    exact ⟨_, rfl⟩

theorem Reached.addPoint (h : Reached p idx) {vec : List F} (hlen : vec.length = p.dim)
    {label : Label} (hid : idx.store.hasLabel label = true ∨ idx.store.count < 2 ^ 32) :
    Reached p (idx.addPoint vec label).1 := by
  obtain ⟨rng, heq⟩ := idx.addPoint_eq vec label
  rw [heq]
  exact h.call _ rng hlen hid

theorem Reached.addPointAt (h : Reached p idx) {vec : List F} (hlen : vec.length = p.dim)
    {label : Label} (level : ℤ) (hid : idx.store.hasLabel label = true ∨ idx.store.count < 2 ^ 32) :
    Reached p (idx.addPointAt vec label level).1 :=
  h.call (.addPoint vec label level) (idx.addPointAt vec label level).1.rng hlen hid

/-- In an index for fewer than `2 ^ 32` vectors the ids are never used up. -/
theorem Reached.hasId (h : Reached p idx) (hsmall : p.maxElements < 2 ^ 32) (op : Op F) :
    op.HasId idx := by
  have hcount := h.counted.2.good.count_le
  rw [Params.room] at hcount
  cases op with
  | addPoint vec label level => exact Or.inr (by omega)
  | markDeleted label => trivial
  | unmarkDeleted label => trivial
  | search query k ef => trivial

/-! ### Filling an index -/

theorem ofNat_succ_inj {m n : ℕ} (hm : m < 2 ^ 32) (hn : n < 2 ^ 32)
    (h : UInt64.ofNat (m + 1) = UInt64.ofNat (n + 1)) : m = n := by
  have hnat := congrArg UInt64.toNat h
  rw [UInt64.toNat_ofNat', UInt64.toNat_ofNat', Nat.mod_eq_of_lt (by omega),
    Nat.mod_eq_of_lt (by omega)] at hnat
  omega

/-- Where the count is a multiple of `2 ^ 32`, a new label takes slot 0. -/
theorem add_of_wrapped {s : Store F} {label : Label} (vec : List F)
    (hnew : s.hasLabel label = false) (hwrapped : s.count % 2 ^ 32 = 0) :
    (s.add p vec label).2 = .ok 0 ∧ (s.add p vec label).1.count = s.count + 1 ∧
      ((s.add p vec label).1.labels 0 = label ∧
        ∀ i ≠ 0, (s.add p vec label).1.labels i = s.labels i) ∧
      ∀ k ≠ label, (s.add p vec label).1.labelToId k = s.labelToId k := by
  rw [Store.add_of_lt vec hnew (hwrapped ▸ p.maxElements_pos), hwrapped]
  refine ⟨rfl, rfl, ⟨?_, fun i hi => ?_⟩, fun k hk => ?_⟩
  · exact Function.update_self (0 : ℕ) label s.labels
  · exact Function.update_of_ne hi _ _
  · exact Function.update_of_ne hk _ _

/-- The call that adds the zero vector as the `i`-th one. -/
def fillOp (F : Type) [Platform F] (dim i : ℕ) : Op F :=
  .addPoint (List.replicate dim FloatOps.zero) ⟨0, UInt64.ofNat (i + 1)⟩ (if i = 0 then 1 else 0)

/-- `n` insertions with different labels, the first on level 1 and the others on level 0. -/
def filled (F : Type) [Platform F] (p : Params) (seed : UInt64) (n : ℕ) : Index F :=
  Op.performAll (Index.new p seed) ((List.range n).map (fillOp F p.dim))

theorem filled_succ (p : Params) (seed : UInt64) (n : ℕ) :
    filled F p seed (n + 1) = ((fillOp F p.dim n).perform (filled F p seed n)).1 := by
  unfold filled Op.performAll
  rw [List.range_succ, List.map_append, List.foldl_append]
  rfl

/-- **An index can be filled up to `2 ^ 32` vectors**; vector `i` has the label `i + 1`, and vector 0
stays the entry point. -/
theorem filled_spec (p : Params) (seed : UInt64) : ∀ n ≤ p.room,
    Reached p (filled F p seed n) ∧ (filled F p seed n).store.count = n ∧
      (∀ i < n, (filled F p seed n).store.labels i = ⟨0, UInt64.ofNat (i + 1)⟩) ∧
      (n = 0 → (filled F p seed n).graph.entryPoint = kNone) ∧
      (0 < n → (filled F p seed n).graph.entryPoint = 0 ∧ (filled F p seed n).graph.maxLevel = 1)
  | 0, _ => ⟨Reached.new seed, rfl, fun i hi => absurd hi (Nat.not_lt_zero i), fun _ => rfl,
      fun h => absurd h (lt_irrefl 0)⟩
  | n + 1, hn => by
      obtain ⟨h, hcount, hlabels, hnone, hentry⟩ := filled_spec p seed n (by omega)
      rw [filled_succ]
      generalize filled F p seed n = idx at h hcount hlabels hnone hentry ⊢
      obtain ⟨hparams, hcounted⟩ := h.counted
      have hlt : n < p.maxElements ∧ n < 2 ^ 32 := lt_min_iff.mp hn
      have hnew : idx.store.hasLabel ⟨0, UInt64.ofNat (n + 1)⟩ = false := by
        by_contra hhas
        obtain ⟨i, hi⟩ := Option.isSome_iff_exists.mp (Bool.eq_true_of_not_eq_false hhas)
        obtain ⟨hic, hlabel⟩ := hcounted.good.label_of_id hi
        rw [hcount] at hic
        rw [hlabels i hic] at hlabel
        have hin := ofNat_succ_inj (by omega) hlt.2 (Label.mk.inj hlabel).2
        omega
      have hroom : idx.store.count < idx.params.room := by rw [hparams, hcount]; exact hn
      set op := fillOp F p.dim n with hop
      have hstore : (op.perform idx).1.store = (idx.store.add idx.params
          (List.replicate p.dim FloatOps.zero) ⟨0, UInt64.ofNat (n + 1)⟩).1 :=
        (idx.store_addPointAt _ _ _).1
      have hres : (idx.addPointAt (List.replicate p.dim FloatOps.zero) ⟨0, UInt64.ofNat (n + 1)⟩
          (if n = 0 then 1 else 0)).2 = .ok idx.store.count := by
        rw [(idx.store_addPointAt _ _ _).2, Store.add_of_room _ hnew hroom]
      obtain ⟨-, -, -, -, hgraph⟩ := addPointAt_of_ok hres
      have hgraph : (op.perform idx).1.graph = idx.graph.link idx.params
          (op.perform idx).1.pair idx.store.count (if n = 0 then 1 else 0) := hgraph
      rw [Store.add_of_room _ hnew hroom] at hstore
      refine ⟨Reached.call op _ h List.length_replicate (Or.inr (by omega)), ?_, fun i hi => ?_,
        nofun, fun _ => ?_⟩
      · rw [hstore]
        exact congrArg (· + 1) hcount
      · rw [hstore]
        simp only [Store.registerLabel, Store.writeSlot, hcount]
        by_cases hin : i = n
        · rw [hin, Function.update_self]
        · rw [Function.update_of_ne hin]
          exact hlabels i (by omega)
      · have htop := Graph.top_link idx.params (op.perform idx).1.pair idx.graph idx.store.count
          (if n = 0 then 1 else 0)
        rw [← hgraph] at htop
        obtain rfl | hpos := Nat.eq_zero_or_pos n
        · rw [if_pos (Or.inl (hnone rfl)), if_pos rfl, hcount] at htop
          exact Prod.mk.inj htop
        · obtain ⟨he, hm⟩ := hentry hpos
          have hn0 : n ≠ 0 := Nat.ne_of_gt hpos
          rw [he, hm, if_neg hn0, if_neg (by decide)] at htop
          exact Prod.mk.inj htop

/-- The labels of other clients are new to a filled index. -/
theorem filled_new {n : ℕ} (hn : n ≤ p.room) (seed : UInt64) {label : Label}
    (hclient : label.clientId ≠ 0) : (filled F p seed n).store.hasLabel label = false := by
  obtain ⟨h, hcount, hlabels, -, -⟩ := filled_spec (F := F) p seed n hn
  generalize filled F p seed n = idx at h hcount hlabels ⊢
  by_contra hhas
  obtain ⟨i, hi⟩ := Option.isSome_iff_exists.mp (Bool.eq_true_of_not_eq_false hhas)
  obtain ⟨hlt, hlabel⟩ := h.counted.2.good.label_of_id hi
  rw [hlabels i (hcount ▸ hlt)] at hlabel
  exact hclient (hlabel ▸ rfl)

/-- The index for one vector more than there are ids. -/
def wideParams : Params :=
  { Params.smallest with
    maxElements := 2 ^ 32 + 1
    maxElements_pos := by decide
    maxElements_lt := by decide }

theorem room_wideParams : wideParams.room = 2 ^ 32 := by norm_num [Params.room, wideParams]

/-- One vector more than there are ids: the new one takes the place of vector 0, whose label stays
registered. -/
theorem overwrite_first (seed : UInt64) (vec : List F) (label : Label) (level : ℤ)
    (hclient : label.clientId ≠ 0) :
    let idx := ((filled F wideParams seed (2 ^ 32)).addPointAt vec label level).1
    idx.store.count = 2 ^ 32 + 1 ∧
      (idx.store.labels 0 = label ∧
        ∀ i ≠ 0, idx.store.labels i = (filled F wideParams seed (2 ^ 32)).store.labels i) ∧
      idx.store.labelToId ⟨0, 1⟩ = some 0 ∧ idx.graph.levels 0 = level ∧
      (level ≤ 1 → idx.graph.entryPoint = 0 ∧ idx.graph.maxLevel = 1) := by
  obtain ⟨h, hcount, hlabels, -, hentry⟩ := filled_spec (F := F) wideParams seed (2 ^ 32)
    room_wideParams.ge
  have hnew := filled_new (F := F) room_wideParams.ge seed hclient
  -- nothing below depends on how the index was filled
  generalize filled F wideParams seed (2 ^ 32) = idx at h hcount hlabels hentry hnew ⊢
  obtain ⟨hparams, hcounted⟩ := h.counted
  obtain ⟨hpoint, hmax⟩ := hentry (Nat.two_pow_pos 32)
  have hfirst : idx.store.labelToId ⟨0, 1⟩ = some 0 := by
    have hpos : 0 < idx.store.count := hcount ▸ Nat.two_pow_pos 32
    have hzero := hlabels 0 (Nat.two_pow_pos 32)
    rw [Nat.zero_add, UInt64.ofNat_one] at hzero
    exact hzero ▸ hcounted.good.id_of_label hpos
  have hne : (⟨0, 1⟩ : Label) ≠ label := by
    rintro rfl
    exact hclient rfl
  have hwrapped : idx.store.count % 2 ^ 32 = 0 := by rw [hcount, Nat.mod_self]
  clear hlabels hentry
  obtain ⟨hok, hnext, hlabel, hother⟩ := add_of_wrapped (p := idx.params) vec hnew hwrapped
  obtain ⟨hstore, hres⟩ := idx.store_addPointAt vec label level
  obtain ⟨-, -, -, -, hgraph⟩ := addPointAt_of_ok (hres.trans hok)
  have hframe := Graph.frame_link idx.params (idx.addPointAt vec label level).1.pair idx.graph 0 level
  rw [← hgraph] at hframe
  simp only [Graph.frame, Prod.mk.injEq] at hframe
  obtain ⟨hlevels, -, htop⟩ := hframe
  simp only [hstore]
  refine ⟨by rw [hnext, hcount], hlabel, (hother _ hne).trans hfirst, ?_, fun hlow => ?_⟩
  · rw [hlevels, Function.update_self]
  · rw [if_neg (by rw [hpoint, hmax, kNone]; omega), hpoint, hmax] at htop
    exact Prod.mk.inj htop

/-- `n` insertions, and one of a vector of another client. -/
def wrapOps (F : Type) [Platform F] (n : ℕ) : List (Op F) :=
  (List.range n).map (fillOp F wideParams.dim) ++ [.addPoint [FloatOps.zero] ⟨1, 0⟩ 0]

theorem performAll_wrapOps (seed : UInt64) (n : ℕ) :
    Op.performAll (Index.new wideParams seed) (wrapOps F n) =
      ((filled F wideParams seed n).addPointAt [FloatOps.zero] ⟨1, 0⟩ 0).1 := by
  unfold wrapOps filled Op.performAll
  rw [List.foldl_append, List.foldl_cons, List.foldl_nil]
  rfl

open StandIn

end Index

end VectorSearch.Hnsw
