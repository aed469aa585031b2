import VectorSearch.Hnsw.SaveLoad

/-! # Every access is in range: programs with checked accesses

The arrays of the index carry no bounds checks.  Every program of `Hnsw/Graph.lean` and
`Hnsw/Operations.lean` that goes through them is re-implemented here with checks: `XM` returns `none`
as soon as a node without a slot, a link block outside its array or a degree above the room of its
block comes up.

For every program `X` the theorem `XM_eq` proves that on a graph whose nodes are ready for it
(`Graph.Ready`) no check fails, and that the checked program computes the unchecked one.  In
particular `addPointAtM_eq` and `searchM_eq`: on a stored index with non-negative levels every
access of `addPoint` and `search` is in range. -/

namespace VectorSearch.Hnsw

open Links

/-! ### Slots and blocks -/

namespace Params

/-- `data_.size()`; the product is a `size_t`. -/
def dataSize (p : Params) : ℕ := p.maxElements * p.dim % 2 ^ 64

/-- `linksL0_.size()` -/
def linksSize (p : Params) : ℕ := p.maxElements * p.strideL0 % 2 ^ 64

/-- Node `id` has an element in the arrays with one element a node, and a vector in `data_`. -/
def HasSlot (p : Params) (id : ℕ) : Prop :=
  id < p.maxElements ∧ id * p.dim + p.dim ≤ p.dataSize

instance (p : Params) (id : ℕ) : Decidable (p.HasSlot id) := by
  unfold HasSlot
  infer_instance

/-- The sizes of `data_` and `linksL0_` do not wrap. -/
def ArraysFit (p : Params) : Prop :=
  p.maxElements * p.dim < 2 ^ 64 ∧ p.maxElements * p.strideL0 < 2 ^ 64

theorem ArraysFit.hasSlot {p : Params} (h : p.ArraysFit) {id : ℕ} (hid : id < p.maxElements) :
    p.HasSlot id := by
  have hle : (id + 1) * p.dim ≤ p.maxElements * p.dim := Nat.mul_le_mul_right _ hid
  rw [Nat.succ_mul] at hle
  unfold HasSlot dataSize
  rw [Nat.mod_eq_of_lt h.1]
  exact ⟨hid, hle⟩

end Params

namespace Graph

/-- The link block of node `id` on a level lies within its array, and its links within the block. -/
def HasBlock (p : Params) (g : Graph) (id : ℕ) (level : ℤ) : Prop :=
  id < p.maxElements ∧
    (if level = 0 then id * p.strideL0 + p.strideL0 ≤ p.linksSize
      else 0 < level ∧ level.toNat * p.strideUpper ≤ g.upperSize id) ∧
    g.linkBlock id level 0 ≤ p.maxDegree level

instance (p : Params) (g : Graph) (id : ℕ) (level : ℤ) : Decidable (g.HasBlock p id level) := by
  unfold HasBlock
  infer_instance

/-- Where the arrays fit, a node has its block on each level that its own array has room for. -/
theorem HasBlock.of_fit {p : Params} {g : Graph} {id l top : ℕ} (hfit : p.ArraysFit)
    (hid : id < p.maxElements) (hupper : g.upperSize id = top * p.strideUpper) (hl : l ≤ top)
    (hcount : g.linkBlock id l 0 ≤ p.maxDegree l) : g.HasBlock p id l := by
  refine ⟨hid, ?_, hcount⟩
  split_ifs with h0
  · have hle : (id + 1) * p.strideL0 ≤ p.maxElements * p.strideL0 := Nat.mul_le_mul_right _ hid
    rw [Nat.succ_mul] at hle
    rwa [Params.linksSize, Nat.mod_eq_of_lt hfit.2]
  · rw [hupper, Int.toNat_natCast]
    exact ⟨by omega, Nat.mul_le_mul_right _ hl⟩

section
variable {F : Type} [Platform F]

/-! ### The checked programs -/

def greedyLoopM (p : Params) (dist : ℕ → F) (g : Graph) (level : ℤ) : ℕ → ℕ × F → Option (ℕ × F)
  | 0, st => some st
  | fuel + 1, (cur, curDist) =>
      if g.HasBlock p cur level ∧ ∀ cand ∈ g.neighbors cur level, p.HasSlot cand then
        match greedyScan dist (g.neighbors cur level) (cur, curDist, false) with
        | (cur, curDist, true) => greedyLoopM p dist g level fuel (cur, curDist)
        | (cur, curDist, false) => some (cur, curDist)
      else none

def greedyDescendM (p : Params) (dist : ℕ → F) (g : Graph) (entry : ℕ) (level : ℤ) : Option ℕ :=
  if p.HasSlot entry then
    (greedyLoopM p dist g level (p.maxElements + 1) (entry, dist entry)).map Prod.fst
  else none

def descendM (p : Params) (dist : ℕ → F) (g : Graph) (entry : ℕ) (top bottom : ℤ) : Option ℕ :=
  (List.range (top - bottom).toNat).foldlM
    (fun cur (i : ℕ) => greedyDescendM p dist g cur (top - (i : ℤ))) entry

def searchLoopM (p : Params) (dist : ℕ → F) (admits : ℕ → Bool) (g : Graph) (ef : ℕ) (level : ℤ) :
    ℕ → Beam F → Option (Beam F)
  | 0, b => some b
  | fuel + 1, b =>
      match (minHeap F).pop b.frontier with
      | none => some b
      | some (best, frontier) =>
          if FloatOps.lt b.worst best.1 ∧ ef ≤ (maxHeap F).size b.results then some b
          else if g.HasBlock p best.2 level ∧
              ∀ cand ∈ (g.neighbors best.2 level).take kMaxDegree, p.HasSlot cand then
            searchLoopM p dist admits g ef level fuel (b.expand dist admits g ef level best frontier)
          else none

def searchLayerM (p : Params) (dist : ℕ → F) (admits : ℕ → Bool) (g : Graph) (entry ef : ℕ)
    (level : ℤ) : Option (maxHeap F).Q :=
  if p.HasSlot entry then
    (searchLoopM p dist admits g ef level (p.maxElements + 1) (Beam.start dist admits entry)).map
      Beam.results
  else none

def linkBackM (p : Params) (pair : ℕ → ℕ → F) (id : ℕ) (level : ℤ) (g : Graph) (n : ℕ) :
    Option Graph :=
  if g.HasBlock p n level ∧ p.HasSlot n ∧ p.HasSlot id ∧ ∀ e ∈ g.neighbors n level, p.HasSlot e then
    some (linkBack p pair id level g n)
  else none

def connectNewElementM (p : Params) (pair : ℕ → ℕ → F) (g : Graph) (id : ℕ) (top : (maxHeap F).Q)
    (level : ℤ) : Option (Graph × ℕ) :=
  if ∀ c ∈ (maxHeap F).elems top, p.HasSlot c.2 then
    match selectNeighborsHeuristic pair top p.M with
    | [] => some (g, id)
    | next :: rest =>
        if g.HasBlock p id level then
          ((next :: rest).foldlM (linkBackM p pair id level)
            (g.setLinks p id level (next :: rest))).map fun g => (g, next)
        else none
  else none

def linkLevelM (p : Params) (pair : ℕ → ℕ → F) (id : ℕ) (st : Graph × ℕ) (level : ℤ) :
    Option (Graph × ℕ) := do
  let top ← searchLayerM p (pair id) (fun _ => true) st.1 st.2 p.efConstruction level
  connectNewElementM p pair st.1 id top level

def landingM (p : Params) (pair : ℕ → ℕ → F) (g : Graph) (id : ℕ) (level : ℤ) : Option ℕ :=
  if level < g.maxLevel
    then descendM p (pair id) (g.setLevel p id level) g.entryPoint g.maxLevel level
    else some g.entryPoint

def linkM (p : Params) (pair : ℕ → ℕ → F) (g : Graph) (id : ℕ) (level : ℤ) : Option Graph :=
  if p.HasSlot id then
    if g.entryPoint = kNone then
      some { g.setLevel p id level with entryPoint := id, maxLevel := level }
    else do
      let cur ← landingM p pair g id level
      let (g', _) ← (levelsDown (min level g.maxLevel)).foldlM (linkLevelM p pair id)
        (g.setLevel p id level, cur)
      some (if g.maxLevel < level then { g' with entryPoint := id, maxLevel := level } else g')
  else none

end

end Graph

namespace Index
variable {F : Type} [Platform F]

def addPointAtM (idx : Index F) (vec : List F) (label : Label) (level : ℤ) :
    Option (Index F × Except AddError ℕ) :=
  if idx.store.hasLabel label then some (idx, .error .duplicate)
  else
    let (id, store) := idx.store.fetchAdd
    if idx.params.maxElements ≤ id then some ({ idx with store := store.fetchSub }, .error .full)
    else if idx.params.HasSlot id then
      let idx := { idx with
        store := (store.writeSlot id (idx.params.prepare vec) label).registerLabel label id }
      (idx.graph.linkM idx.params idx.pair id level).map fun graph => ({ idx with graph }, .ok id)
    else none

def searchM (idx : Index F) (query : List F) (k ef : ℕ) : Option (List (Label × F)) :=
  if idx.store.count = 0 then some []
  else if idx.graph.entryPoint = kNone then some []
  else if idx.params.HasSlot idx.graph.entryPoint then do
    let dist := fun id =>
      rawDistance idx.params.space (idx.params.prepare query) (idx.store.data id)
    let cur ← idx.graph.descendM idx.params dist idx.graph.entryPoint idx.graph.maxLevel 0
    let top ← Graph.searchLayerM idx.params dist (fun id => ! idx.store.deleted id) idx.graph cur
      (max ef k) 0
    let top := (maxHeap F).tail^[(maxHeap F).size top - k] top
    if ∀ c ∈ (maxHeap F).elems top, c.2 < idx.params.maxElements then
      some (((maxHeap F).drain top).reverse.map fun c => (idx.store.labels c.2, c.1))
    else none
  else none

end Index

/-! ### Loops whose checks all succeed -/

theorem foldlM_eq_some {α β : Type} (f : β → α → β) (fM : β → α → Option β) (P : β → Prop) :
    ∀ {l : List α} {b : β}, (∀ a ∈ l, ∀ b, P b → fM b a = some (f b a) ∧ P (f b a)) → P b →
      l.foldlM fM b = some (l.foldl f b) ∧ P (l.foldl f b)
  | [], _, _, h => ⟨rfl, h⟩
  | a :: l, b, hstep, h => by
      obtain ⟨heq, hnext⟩ := hstep a List.mem_cons_self b h
      obtain ⟨hrest, hlast⟩ := foldlM_eq_some f fM P
        (fun a' ha' => hstep a' (List.mem_cons_of_mem _ ha')) hnext
      rw [List.foldlM_cons, heq]
      exact ⟨hrest, hlast⟩

theorem foldlM_range_eq_some {β : Type} (f : β → ℕ → β) (fM : β → ℕ → Option β)
    (P : ℕ → β → Prop) {b : β} (h : P 0 b) : ∀ {n : ℕ},
    (∀ i < n, ∀ b, P i b → fM b i = some (f b i) ∧ P (i + 1) (f b i)) →
      (List.range n).foldlM fM b = some ((List.range n).foldl f b) ∧ P n ((List.range n).foldl f b)
  | 0, _ => ⟨rfl, h⟩
  | n + 1, hstep => by
      obtain ⟨hrest, hlast⟩ := foldlM_range_eq_some f fM P h fun i hi => hstep i (Nat.lt_succ_of_lt hi)
      obtain ⟨heq, hnext⟩ := hstep n (Nat.lt_succ_self n) _ hlast
      rw [List.range_succ, List.foldlM_append, List.foldl_append, hrest]
      refine ⟨?_, hnext⟩
      rw [Option.bind_eq_bind, Option.bind_some, List.foldlM_cons, heq]
      rfl

namespace Graph

section
variable {F : Type} [Platform F] {p : Params} {g g' : Graph} {level : ℤ} {S : ℕ → Prop} {n : ℕ}

/-- The nodes of `S` have their slots and their blocks of a level, whose links stay in `S`. -/
def Ready (p : Params) (g : Graph) (level : ℤ) (S : ℕ → Prop) : Prop :=
  ∀ a, S a → p.HasSlot a ∧ g.HasBlock p a level ∧ ∀ v ∈ g.neighbors a level, S v

/-! ### Descent -/

theorem greedyLoopM_eq (h : Ready p g level S) (dist : ℕ → F) : ∀ (fuel : ℕ) (st : ℕ × F), S st.1 →
    greedyLoopM p dist g level fuel st = some (greedyLoop dist g level fuel st)
  | 0, _, _ => rfl
  | fuel + 1, (cur, curDist), hcur => by
      obtain ⟨-, hblock, hlinks⟩ := h cur hcur
      have hscan := greedyScan_mem dist (g.neighbors cur level) (cur, curDist, false)
      have hslots : ∀ cand ∈ g.neighbors cur level, p.HasSlot cand := fun cand hcand =>
        (h cand (hlinks cand hcand)).1
      unfold greedyLoopM greedyLoop
      rw [if_pos ⟨hblock, hslots⟩]
      generalize greedyScan dist (g.neighbors cur level) (cur, curDist, false) = st at hscan
      obtain ⟨cur', curDist', changed⟩ := st
      have hnext : S cur' := by
        obtain rfl | hmem := hscan
        · exact hcur
        · exact hlinks _ hmem
      cases changed with
      | false => rfl
      | true => exact greedyLoopM_eq h dist fuel (cur', curDist') hnext

theorem greedyDescendM_eq (h : Ready p g level S) (dist : ℕ → F) {entry : ℕ} (hentry : S entry) :
    greedyDescendM p dist g entry level = some (greedyDescend p dist g entry level) ∧
      S (greedyDescend p dist g entry level) := by
  have hstay := (greedyDescend_reach p dist g entry level).mem_of_closed
    (fun a ha => (h a ha).2.2) hentry
  unfold greedyDescendM
  rw [if_pos (h entry hentry).1, greedyLoopM_eq h dist _ _ hentry]
  exact ⟨rfl, hstay⟩

theorem descendM_eq {T : ℤ → ℕ → Prop} {top bottom : ℤ} (hanti : ∀ l v, T l v → T (l - 1) v)
    (h : ∀ l, bottom < l → Ready p g l (T l)) (hle : bottom ≤ top) (dist : ℕ → F) {entry : ℕ}
    (hentry : T top entry) :
    descendM p dist g entry top bottom = some (descend p dist g entry top bottom) ∧
      T bottom (descend p dist g entry top bottom) := by
  have hlast : top - ((top - bottom).toNat : ℤ) = bottom := by omega
  have hstart : T (top - ((0 : ℕ) : ℤ)) entry := by simpa using hentry
  obtain ⟨heq, hmem⟩ := foldlM_range_eq_some
    (fun cur (i : ℕ) => greedyDescend p dist g cur (top - (i : ℤ)))
    (fun cur (i : ℕ) => greedyDescendM p dist g cur (top - (i : ℤ)))
    (fun i cur => T (top - (i : ℤ)) cur) hstart
    (n := (top - bottom).toNat) fun i hi cur hcur => by
      obtain ⟨hstep, hnext⟩ := greedyDescendM_eq (h (top - (i : ℤ)) (by omega)) dist hcur
      have hdown : top - ((i + 1 : ℕ) : ℤ) = top - (i : ℤ) - 1 := by push_cast; ring
      exact ⟨hstep, hdown ▸ hanti _ _ hnext⟩
  rw [hlast] at hmem
  exact ⟨heq, hmem⟩

/-! ### Beam search -/

/-- The candidates of a beam are in `S`. -/
structure Beam.Inside (S : ℕ → Prop) (b : Beam F) : Prop where
  frontier : ∀ c ∈ (minHeap F).elems b.frontier, S c.2
  results : ∀ c ∈ (maxHeap F).elems b.results, S c.2

theorem Beam.Inside.start {entry : ℕ} (dist : ℕ → F) (admits : ℕ → Bool) (hentry : S entry) :
    (Beam.start dist admits entry).Inside S := by
  constructor
  · intro c hc
    simp only [Beam.start, (minHeap F).mem_push, (minHeap F).elems_empty, List.not_mem_nil,
      or_false] at hc
    exact hc ▸ hentry
  · intro c hc
    unfold Beam.start at hc
    split_ifs at hc
    · simp only [(maxHeap F).mem_push, (maxHeap F).elems_empty, List.not_mem_nil, or_false] at hc
      exact hc ▸ hentry
    · simp only [(maxHeap F).elems_empty, List.not_mem_nil] at hc

theorem Beam.Inside.look {b : Beam F} (h : b.Inside S) (dist : ℕ → F) (admits : ℕ → Bool) (ef : ℕ)
    {cand : ℕ} (hcand : S cand) : (b.look dist admits ef cand).Inside S := by
  by_cases hmem : cand ∈ b.visited
  · rwa [look_of_mem hmem]
  obtain ⟨-, hfrontier, hresults⟩ := look_of_not_mem dist admits ef hmem
  constructor
  · intro c hc
    obtain hfrontier | hfrontier := hfrontier
    · rw [hfrontier, (minHeap F).mem_push] at hc
      obtain rfl | hc := hc
      · exact hcand
      · exact h.frontier c hc
    · exact h.frontier c (hfrontier ▸ hc)
  · intro c hc
    obtain ⟨-, hresults⟩ | hresults := hresults
    · rw [hresults] at hc
      obtain rfl | hc := mem_of_mem_keep hc
      · exact hcand
      · exact h.results c hc
    · exact h.results c (hresults ▸ hc)

theorem Beam.Inside.looks {b : Beam F} (h : b.Inside S) (dist : ℕ → F) (admits : ℕ → Bool)
    (ef : ℕ) {cands : List ℕ} (hcands : ∀ a ∈ cands, S a) :
    (cands.foldl (Beam.look dist admits ef) b).Inside S := by
  induction cands generalizing b with
  | nil => exact h
  | cons a cands ih =>
      exact ih (h.look dist admits ef (hcands a List.mem_cons_self)) fun a' ha' =>
        hcands a' (List.mem_cons_of_mem _ ha')

theorem Beam.Inside.pop {b : Beam F} (h : b.Inside S) {best : Cand F} {frontier : (minHeap F).Q}
    (hpop : (minHeap F).pop b.frontier = some (best, frontier)) :
    S best.2 ∧ ({ b with frontier } : Beam F).Inside S := by
  have hperm := (minHeap F).elems_of_pop_some hpop
  have hrest : ∀ c ∈ (minHeap F).elems frontier, S c.2 := fun c hc =>
    h.frontier c (hperm.mem_iff.mpr (List.mem_cons_of_mem _ hc))
  exact ⟨h.frontier best (hperm.mem_iff.mpr List.mem_cons_self), hrest, h.results⟩

/-- The links that a round follows stay in `S`. -/
theorem Ready.mem_of_take (h : Ready p g level S) {a : ℕ} (ha : S a) :
    ∀ cand ∈ (g.neighbors a level).take kMaxDegree, S cand := fun cand hcand =>
  (h a ha).2.2 cand (List.mem_of_mem_take hcand)

theorem searchLoopM_eq (h : Ready p g level S) (dist : ℕ → F) (admits : ℕ → Bool) (ef : ℕ) :
    ∀ (fuel : ℕ) {b : Beam F}, b.Inside S →
      searchLoopM p dist admits g ef level fuel b = some (searchLoop dist admits g ef level fuel b) ∧
        (searchLoop dist admits g ef level fuel b).Inside S
  | 0, _, hb => ⟨rfl, hb⟩
  | fuel + 1, b, hb => by
      unfold searchLoopM searchLoop
      cases hpop : (minHeap F).pop b.frontier with
      | none => exact ⟨rfl, hb⟩
      | some x =>
          obtain ⟨best, frontier⟩ := x
          obtain ⟨hbest, hpopped⟩ := hb.pop hpop
          have hblock := (h best.2 hbest).2.1
          have hcands := h.mem_of_take hbest
          simp only
          split_ifs with hstop hchecks
          · exact ⟨rfl, hb⟩
          · exact searchLoopM_eq h dist admits ef fuel (hpopped.looks dist admits ef hcands)
          · exact absurd ⟨hblock, fun cand hcand => (h cand (hcands cand hcand)).1⟩ hchecks

theorem searchLayerM_eq (h : Ready p g level S) (dist : ℕ → F) (admits : ℕ → Bool) {entry : ℕ}
    (ef : ℕ) (hentry : S entry) :
    searchLayerM p dist admits g entry ef level = some (searchLayer p dist admits g entry ef level) ∧
      ∀ c ∈ (maxHeap F).elems (searchLayer p dist admits g entry ef level), S c.2 := by
  obtain ⟨heq, hinside⟩ := searchLoopM_eq h dist admits ef (p.maxElements + 1)
    (Beam.Inside.start dist admits hentry)
  unfold searchLayerM
  rw [if_pos (h entry hentry).1, heq]
  exact ⟨rfl, hinside.results⟩

/-! ### Linking -/

/-- The nodes of a level among the first `n`. -/
def On (n : ℕ) (g : Graph) (level : ℤ) (a : ℕ) : Prop := a < n ∧ level ≤ g.levels a

/-- What linking back from a node of the level needs. -/
def Backed (p : Params) (n : ℕ) (g : Graph) (level : ℤ) : Prop :=
  ∀ a, On n g level a → g.HasBlock p a level ∧ ∀ e ∈ g.neighbors a level, p.HasSlot e

theorem HasBlock.congr {a : ℕ} (h : g.HasBlock p a level) (hupper : g'.upperSize a = g.upperSize a)
    (hlinks : g'.linkBlock a level = g.linkBlock a level) : g'.HasBlock p a level := by
  unfold HasBlock at h ⊢
  rwa [hupper, hlinks]

theorem HasBlock.replace {a i : ℕ} {b : Block} (h : g.HasBlock p a level)
    (hdeg : b 0 ≤ p.maxDegree level) : (g.setBlock i level b).HasBlock p a level := by
  have hupper : (g.setBlock i level b).upperSize = g.upperSize :=
    congrArg (fun f => f.2.1) (frame_setBlock g i level b)
  by_cases hai : a = i
  · refine ⟨h.1, hupper ▸ h.2.1, ?_⟩
    subst hai
    unfold setBlock linkBlock
    split_ifs
    · simp only [Function.update_self]
      exact hdeg
    · simp only [Function.update_self]
      exact hdeg
  · refine h.congr (congrFun hupper a) ?_
    unfold setBlock linkBlock
    split_ifs
    · simp only [Function.update_of_ne hai]
    · simp only [Function.update_of_ne hai]

/-- Linking back into a node of the level. -/
theorem linkBackM_eq {l a : ℕ} (h : Backed p n g l) (hslots : ∀ a ≤ n, p.HasSlot a)
    (ha : On n g l a) (pair : ℕ → ℕ → F) :
    linkBackM p pair n l g a = some (linkBack p pair n l g a) ∧
      Backed p n (linkBack p pair n l g a) l := by
  obtain ⟨hblock, hlinks⟩ := h a ha
  have hlevels : (linkBack p pair n l g a).levels = g.levels :=
    congrArg Prod.fst (frame_linkBack p pair n a l g)
  constructor
  · exact if_pos ⟨hblock, hslots a ha.1.le, hslots n le_rfl, hlinks⟩
  · intro v hv
    have hv' : On n g l v := ⟨hv.1, hlevels ▸ hv.2⟩
    obtain ⟨hvblock, hvlinks⟩ := h v hv'
    have hdeg : backBlock p pair n l a (g.linkBlock a l) 0 ≤ p.maxDegree l := by
      rw [← Block.length_neighbors (backBlock p pair n l a (g.linkBlock a l)), neighbors_backBlock]
      exact length_backLinks_le p pair n l a _
    rw [linkBack_eq]
    refine ⟨hvblock.replace hdeg, fun e he => ?_⟩
    unfold neighbors at he
    rw [linkBlock_setBlock] at he
    split_ifs at he with hva
    · rw [neighbors_backBlock] at he
      obtain rfl | he := List.mem_cons.mp ((backLinks_subperm p pair n l a _).subset he)
      · exact hslots e le_rfl
      · exact hlinks e he
    · exact hvlinks e he

/-- Connecting node `n` on a level to nodes of the level. -/
theorem connectNewElementM_eq {l : ℕ} (hready : Ready p g l (On n g l))
    (hslots : ∀ a ≤ n, p.HasSlot a) (hnew : g.HasBlock p n l) (pair : ℕ → ℕ → F)
    {top : (maxHeap F).Q} (htop : ∀ c ∈ (maxHeap F).elems top, On n g l c.2) :
    connectNewElementM p pair g n top l = some (connectNewElement p pair g n top l) := by
  have hsub := selectNeighborsHeuristic_subperm pair top p.M
  unfold connectNewElementM connectNewElement
  rw [if_pos fun c hc => (hready c.2 (htop c hc)).1]
  generalize selectNeighborsHeuristic pair top p.M = sel at hsub
  have hsel : ∀ a ∈ sel, On n g l a := by
    intro a ha
    obtain ⟨c, hc, rfl⟩ := List.mem_map.mp (hsub.subset ha)
    exact htop c hc
  cases sel with
  | nil => rfl
  | cons next rest =>
      have hlevels : (g.setLinks p n l (next :: rest)).levels = g.levels :=
        congrArg Prod.fst (frame_setBlock g n l _)
      have hwrite : (g.linkBlock n l).write (p.maxDegree l) (next :: rest) 0 ≤ p.maxDegree l := by
        rw [← Block.length_neighbors ((g.linkBlock n l).write _ _), Block.neighbors_write,
          List.length_take]
        exact min_le_left _ _
      have hstart : Backed p n (g.setLinks p n l (next :: rest)) l := by
        intro a ha
        have ha' : On n g l a := ⟨ha.1, hlevels ▸ ha.2⟩
        obtain ⟨-, hblock, hlinks⟩ := hready a ha'
        refine ⟨hblock.replace hwrite, fun e he => ?_⟩
        unfold setLinks neighbors at he
        rw [linkBlock_setBlock, if_neg fun h => Nat.ne_of_lt ha.1 h.1] at he
        exact (hready e (hlinks e he)).1
      obtain ⟨heq, -⟩ := foldlM_eq_some (linkBack p pair n l) (linkBackM p pair n l)
        (fun g' => g'.levels = g.levels ∧ Backed p n g' l)
        (l := next :: rest) (fun a ha g' hg' => by
          have haOn : On n g' l a := ⟨(hsel a ha).1, hg'.1.symm ▸ (hsel a ha).2⟩
          obtain ⟨hstep, hback⟩ := linkBackM_eq hg'.2 hslots haOn pair
          have hframe := congrArg Prod.fst (frame_linkBack p pair n a l g')
          exact ⟨hstep, hframe.trans hg'.1, hback⟩) ⟨hlevels, hstart⟩
      simp only
      rw [if_pos hnew, heq]
      rfl

/-- Searching and connecting node `n` on a level. -/
theorem linkLevelM_eq {l cur : ℕ} (hready : Ready p g l (On n g l)) (hslots : ∀ a ≤ n, p.HasSlot a)
    (hnew : g.HasBlock p n l) (hcur : On n g l cur) (pair : ℕ → ℕ → F) :
    linkLevelM p pair n (g, cur) l = some (linkLevel p pair n (g, cur) l) := by
  obtain ⟨heq, htop⟩ := searchLayerM_eq hready (pair n) (fun _ => true) p.efConstruction hcur
  unfold linkLevelM linkLevel
  simp only
  rw [heq]
  exact connectNewElementM_eq hready hslots hnew pair htop

theorem Ready.congr {l : ℕ} (h : Ready p g l (On n g l)) (hlevels : ∀ a < n, g'.levels a = g.levels a)
    (hupper : ∀ a < n, g'.upperSize a = g.upperSize a)
    (hlinks : ∀ a < n, g'.linkBlock a l = g.linkBlock a l) : Ready p g' l (On n g' l) := by
  intro a ha
  obtain ⟨hslot, hblock, hnext⟩ := h a ⟨ha.1, hlevels a ha.1 ▸ ha.2⟩
  refine ⟨hslot, hblock.congr (hupper a ha.1) (hlinks a ha.1), fun v hv => ?_⟩
  rw [neighbors_congr (hlinks a ha.1)] at hv
  obtain ⟨hvn, hvl⟩ := hnext v hv
  exact ⟨hvn, (hlevels v hvn).symm ▸ hvl⟩

theorem Ready.closed {l : ℕ} (h : Ready p g l (On n g l)) : Closed n g l :=
  fun a ha hla v hv => (h a ⟨ha, hla⟩).2.2 v hv

/-- **Searching and connecting node `n` on the levels from `t` down.** -/
theorem linkLevelsM_eq (hslots : ∀ a ≤ n, p.HasSlot a) (pair : ℕ → ℕ → F) : ∀ (t : ℕ) {g : Graph}
    {cur : ℕ}, (∀ l ≤ t, Ready p g l (On n g l) ∧ g.HasBlock p n l) → On n g t cur →
    (levelsDown t).foldlM (linkLevelM p pair n) (g, cur) =
      some ((levelsDown t).foldl (linkLevel p pair n) (g, cur))
  | 0, g, cur, h, hcur => by
      obtain ⟨hready, hnew⟩ := h 0 le_rfl
      rw [levelsDown_zero, List.foldlM_cons, linkLevelM_eq hready hslots hnew hcur]
      rfl
  | t + 1, g, cur, h, hcur => by
      obtain ⟨hready, hnew⟩ := h (t + 1) le_rfl
      obtain ⟨sel, hsel, hnext, -, hother⟩ :=
        linkLevel_spec (p := p) pair hready.closed hcur.1 hcur.2
      have hframe := frame_linkLevels p pair n [((t + 1 : ℕ) : ℤ)] (g, cur)
      rw [List.foldl_cons, List.foldl_nil] at hframe
      rw [levelsDown_succ, List.foldlM_cons, linkLevelM_eq hready hslots hnew hcur, List.foldl_cons]
      generalize linkLevel p pair n (g, cur) ((t + 1 : ℕ) : ℤ) = st at hnext hframe hother
      obtain ⟨g₁, cur₁⟩ := st
      have hlevels : g₁.levels = g.levels := congrArg Prod.fst hframe
      have hupper : g₁.upperSize = g.upperSize := congrArg (fun f => f.2.1) hframe
      have hcur₁ : On n g₁ t cur₁ := by
        have hle : ((t + 1 : ℕ) : ℤ) ≤ g.levels cur₁ := hsel.level_le _ hnext
        refine ⟨hsel.lt _ hnext, ?_⟩
        rw [hlevels]
        omega
      exact linkLevelsM_eq hslots pair t (fun l hl =>
        ⟨(h l (by omega)).1.congr (fun a _ => congrFun hlevels a) (fun a _ => congrFun hupper a)
            fun a _ => hother l (by omega) a,
          (h l (by omega)).2.congr (congrFun hupper n) (hother l (by omega) n)⟩) hcur₁

/-- The nodes of each level of a stored graph are ready. -/
theorem Stored.ready (h : Stored p n g) (hw : WellFormed p n g) (hfit : p.ArraysFit)
    (hn : n ≤ p.maxElements) (l : ℕ) : Ready p g l (On n g l) := by
  intro a ha
  have hlinks := hw.links a ha.1 l ha.2
  have hlt : a < p.maxElements := lt_of_lt_of_le ha.1 hn
  have hle : l ≤ (g.levels a).toNat := Int.toNat_natCast l ▸ Int.toNat_le_toNat ha.2
  refine ⟨hfit.hasSlot hlt, HasBlock.of_fit hfit hlt (h.upperSize_eq a) hle ?_,
    fun v hv => ⟨hlinks.lt v hv, hlinks.level_le v hv⟩⟩
  rw [← Block.length_neighbors (g.linkBlock a l)]
  exact hlinks.length_le

/-- **Every access of linking the next node is in range.** -/
theorem linkM_eq (h : Stored p n g) (hw : WellFormed p n g) (hfit : p.ArraysFit)
    (hn : n < p.maxElements) (hlevels : ∀ i < n, 0 ≤ g.levels i)
    (hlevel : 0 ≤ level) (hstorable : p.Storable level) (pair : ℕ → ℕ → F) :
    linkM p pair g n level = some (link p pair g n level) := by
  have hslots : ∀ a ≤ n, p.HasSlot a := fun a ha => hfit.hasSlot (lt_of_le_of_lt ha hn)
  unfold linkM
  rw [if_pos (hslots n le_rfl)]
  by_cases hnone : g.entryPoint = kNone
  · rw [link_of_none hnone]
    exact if_pos hnone
  have hpos : 0 < n := Nat.pos_of_ne_zero fun h0 => hnone (hw.entry_none h0)
  have hentry := hw.entry_lt hpos
  have hmax : 0 ≤ g.maxLevel := hw.level_entry hpos ▸ hlevels _ hentry
  -- the older nodes are ready in the graph that already has the new node's level
  have hset := h.setLevel hstorable
  have hsame : ∀ a < n, (g.setLevel p n level).levels a = g.levels a := fun a ha =>
    Function.update_of_ne (Nat.ne_of_lt ha) _ _
  have hready : ∀ l : ℕ, Ready p (g.setLevel p n level) l (On n (g.setLevel p n level) l) := by
    intro l
    refine (h.ready hw hfit hn.le l).congr hsame (fun a ha => ?_) fun a ha =>
      linkBlock_setLevel_ne p g level (Nat.ne_of_lt ha) l
    rw [hset.upperSize_eq, hsame a ha, h.upperSize_eq]
  have hnew : ∀ l : ℕ, (l : ℤ) ≤ level → (g.setLevel p n level).HasBlock p n l := by
    intro l hl
    have hupper : (g.setLevel p n level).upperSize n = level.toNat * p.strideUpper := by
      rw [hset.upperSize_eq, levels_setLevel, Function.update_self]
    refine HasBlock.of_fit hfit hn hupper (by omega) ?_
    rw [linkBlock_setLevel_self p (h.block_fresh n 0 (Or.inl le_rfl)) hl]
    exact Nat.zero_le _
  have hstart : On n (g.setLevel p n level) g.maxLevel g.entryPoint :=
    ⟨hentry, by rw [hsame _ hentry, hw.level_entry hpos]⟩
  have hanti : ∀ (l : ℤ) v, On n (g.setLevel p n level) l v →
      On n (g.setLevel p n level) (l - 1) v := fun l v hv => ⟨hv.1, by have := hv.2; omega⟩
  have hcur : landingM p pair g n level = some (landing p pair g n level) ∧
      On n (g.setLevel p n level) (min level g.maxLevel) (landing p pair g n level) := by
    unfold landingM landing
    split_ifs with hlt
    · rw [min_eq_left hlt.le]
      refine descendM_eq hanti (fun l hl => ?_) hlt.le (pair n) hstart
      lift l to ℕ using by omega
      exact hready l
    · rw [min_eq_right (not_lt.mp hlt)]
      exact ⟨rfl, hstart⟩
  obtain ⟨t, ht⟩ := Int.eq_ofNat_of_zero_le (le_min hlevel hmax)
  rw [ht] at hcur
  have hall := linkLevelsM_eq hslots pair t (fun l hl => ⟨hready l, hnew l (by omega)⟩) hcur.2
  rw [link_of_some hnone, if_neg hnone, hcur.1, ht, Option.bind_eq_bind, Option.bind_some, hall]
  rfl

end

end Graph

/-! ### The calls -/

namespace Index
variable {F : Type} [Platform F] {idx : Index F} {vec : List F} {label : Label} {level : ℤ}

/-- **Every access of an insertion is in range.** -/
theorem addPointAtM_eq (h : idx.Stored) (hfit : idx.params.ArraysFit)
    (hlevels : ∀ i < idx.store.count, 0 ≤ idx.graph.levels i)
    (hid : idx.store.hasLabel label = true ∨ idx.store.count < 2 ^ 32) (hlevel : 0 ≤ level)
    (hstorable : idx.params.Storable level) :
    idx.addPointAtM vec label level = some (idx.addPointAt vec label level) := by
  unfold addPointAtM addPointAt
  cases hlabel : idx.store.hasLabel label with
  | true => rfl
  | false =>
      have hcount := hid.resolve_left (by rw [hlabel]; exact Bool.false_ne_true)
      have hcut : idx.store.fetchAdd.1 = idx.store.count := Nat.mod_eq_of_lt hcount
      rw [if_neg Bool.false_ne_true, if_neg Bool.false_ne_true]
      simp only [hcut]
      split_ifs with hfull hslot
      · rfl
      · rw [Graph.linkM_eq h.graph h.wellFormed hfit (not_le.mp hfull) hlevels hlevel hstorable]
        rfl
      · exact absurd (hfit.hasSlot (not_le.mp hfull)) hslot

/-- A search stays among the nodes that are ready, from the top level down. -/
theorem searchM_eq_of_ready {T : ℕ → ℕ → Prop} (hanti : ∀ l v, T (l + 1) v → T l v)
    (hready : ∀ l : ℕ, Graph.Ready idx.params idx.graph l (T l))
    (hentry : 0 < idx.store.count →
      0 ≤ idx.graph.maxLevel ∧ T idx.graph.maxLevel.toNat idx.graph.entryPoint)
    (query : List F) (k ef : ℕ) : idx.searchM query k ef = some (idx.search query k ef) := by
  unfold searchM search
  by_cases h0 : idx.store.count = 0
  · rw [if_pos h0, if_pos h0]
  by_cases hnone : idx.graph.entryPoint = kNone
  · rw [if_neg h0, if_neg h0, if_pos hnone, if_pos hnone]
  rw [if_neg h0, if_neg h0, if_neg hnone, if_neg hnone]
  obtain ⟨hmax, hentry⟩ := hentry (Nat.pos_of_ne_zero h0)
  have hdown : ∀ (l : ℤ) v, T l.toNat v → T (l - 1).toNat v := by
    intro l v hv
    obtain hl | hl := le_or_gt l 0
    · have hsame : (l - 1).toNat = l.toNat := by omega
      rwa [hsame]
    · have hsucc : l.toNat = (l - 1).toNat + 1 := by omega
      rw [hsucc] at hv
      exact hanti _ v hv
  unfold searchBase landing
  generalize (fun id => rawDistance idx.params.space (idx.params.prepare query)
    (idx.store.data id)) = dist
  obtain ⟨hdescend, hland⟩ := Graph.descendM_eq (p := idx.params) (g := idx.graph)
    (T := fun l v => T l.toNat v) hdown
    (fun l hl => by
      lift l to ℕ using hl.le
      exact hready l)
    hmax dist hentry
  have hbase : Graph.Ready idx.params idx.graph 0 (T 0) := hready 0
  obtain ⟨hsearch, hfound⟩ := Graph.searchLayerM_eq hbase dist
    (fun id => ! idx.store.deleted id) (max ef k) hland
  rw [if_pos (hready _ _ hentry).1]
  simp only [Option.bind_eq_bind, hdescend, Option.bind_some, hsearch]
  refine if_pos fun c hc => ?_
  exact (hbase _ (hfound c (((maxHeap F).iterate_tail_subperm _ _).subset hc))).1.1

/-- **Every access of a search is in range.** -/
theorem searchM_eq (h : idx.Stored) (hfit : idx.params.ArraysFit)
    (hlevels : ∀ i < idx.store.count, 0 ≤ idx.graph.levels i) (query : List F) (k ef : ℕ) :
    idx.searchM query k ef = some (idx.search query k ef) := by
  have hw := h.wellFormed
  have hn : idx.store.count ≤ idx.params.maxElements :=
    h.counted.good.count_le.trans (min_le_left _ _)
  refine searchM_eq_of_ready (T := fun l => Graph.On idx.store.count idx.graph l)
    (fun l v hv => ⟨hv.1, by have := hv.2; omega⟩) (fun l => h.graph.ready hw hfit hn l)
    (fun hpos => ?_) query k ef
  have hentry := hw.entry_lt hpos
  have hmax : 0 ≤ idx.graph.maxLevel := hw.level_entry hpos ▸ hlevels _ hentry
  refine ⟨hmax, hentry, ?_⟩
  rw [Int.toNat_of_nonneg hmax, hw.level_entry hpos]

theorem levels_addPointAt {S : Set ℤ} (h : ∀ i < idx.store.count, idx.graph.levels i ∈ S)
    (hid : idx.store.hasLabel label = true ∨ idx.store.count < 2 ^ 32) (hlevel : level ∈ S) :
    ∀ i < (idx.addPointAt vec label level).1.store.count,
      (idx.addPointAt vec label level).1.graph.levels i ∈ S := by
  cases hres : (idx.addPointAt vec label level).2 with
  | error e => rwa [addPointAt_of_error hres]
  | ok id =>
      obtain ⟨hlabel, hlt, hid', hstore, hgraph⟩ := addPointAt_of_ok hres
      have hcount := hid.resolve_left (by rw [hlabel]; exact Bool.false_ne_true)
      rw [Nat.mod_eq_of_lt hcount] at hlt hid'
      rw [hstore, Store.add_of_room vec hlabel (lt_min hlt hcount), hgraph, Graph.levels_link, hid']
      intro i (hi : i < idx.store.count + 1)
      by_cases hin : i = idx.store.count
      · rwa [hin, Function.update_self]
      · rw [Function.update_of_ne hin]
        exact h i (by omega)

end Index

/-! ### Every life of an index -/

namespace Index
variable [Platform UInt32] {p : Params} {S : Set ℤ} {idx : Index UInt32}

/-- The levels of the nodes are among those drawn. -/
theorem Lived.levels_mem (h : Lived p S idx) (hS : ∀ level ∈ S, p.Storable level) :
    ∀ i < idx.store.count, idx.graph.levels i ∈ S := by
  induction h with
  | new seed => exact fun i hi => absurd hi (Nat.not_lt_zero i)
  | @call idx op rng _ _ hid hdraws ih =>
      cases op with
      | addPoint vec label level => exact levels_addPointAt ih hid hdraws
      | markDeleted label =>
          intro i hi
          exact ih i (idx.store.count_markDeleted label ▸ hi)
      | unmarkDeleted label =>
          intro i hi
          exact ih i (idx.store.count_unmarkDeleted label ▸ hi)
      | search query k ef => exact ih
  | reload h hload ih =>
      rw [(h.stored hS).2.load_save] at hload
      obtain rfl := Except.ok.inj hload
      exact ih

/-- **The graph is well formed in every state**, and every access of the next insertion or search
is in range, if the arrays have the sizes that the parameters ask for. -/
theorem wellFormed_lived (h : Lived p {level | 0 ≤ level ∧ p.Storable level} idx) :
    (0 < idx.store.count → idx.graph.entryPoint < idx.store.count ∧
      idx.graph.levels idx.graph.entryPoint = idx.graph.maxLevel ∧
      ∀ i < idx.store.count, idx.graph.levels i ≤ idx.graph.maxLevel) ∧
    (∀ i < idx.store.count, ∀ l : ℕ, (l : ℤ) ≤ idx.graph.levels i →
      idx.graph.linkBlock i l 0 ≤ (if l = 0 then p.maxM0 else p.maxM) ∧
      (idx.graph.neighbors i l).Nodup ∧ i ∉ idx.graph.neighbors i l ∧
      ∀ j ∈ idx.graph.neighbors i l, j < idx.store.count ∧ (l : ℤ) ≤ idx.graph.levels j) ∧
    (p.ArraysFit →
      (∀ vec label level, 0 ≤ level → p.Storable level →
        (idx.store.hasLabel label = true ∨ idx.store.count < 2 ^ 32) →
        idx.addPointAtM vec label level = some (idx.addPointAt vec label level)) ∧
      ∀ query k ef, idx.searchM query k ef = some (idx.search query k ef)) := by
  obtain ⟨rfl, hstored⟩ := h.stored fun level hlevel => hlevel.2
  have hlevels : ∀ i < idx.store.count, 0 ≤ idx.graph.levels i := fun i hi =>
    (h.levels_mem (fun level hlevel => hlevel.2) i hi).1
  have hw := hstored.wellFormed
  refine ⟨fun hpos => ⟨hw.entry_lt hpos, hw.level_entry hpos, hw.level_le_max⟩, fun i hi l hl => ?_,
    fun hfit => ⟨fun vec label level hlevel hstorable hid =>
      addPointAtM_eq hstored hfit hlevels hid hlevel hstorable, searchM_eq hstored hfit hlevels⟩⟩
  have hlinks := hw.links i hi l hl
  refine ⟨?_, hlinks.nodup, hlinks.not_self, fun j hj => ⟨hlinks.lt j hj, hlinks.level_le j hj⟩⟩
  have hlen := hlinks.length_le
  rw [Graph.neighbors, Block.length_neighbors, Params.maxDegree] at hlen
  simpa only [Nat.cast_eq_zero] using hlen

end Index

namespace Index

open StandIn

/-- Two vectors on two levels. -/
theorem wellFormed_two :
    let ops : List (Op UInt32) := [.addPoint [0] ⟨7, 1⟩ 1, .addPoint [1] ⟨7, 2⟩ 0]
    let idx := Op.performAll (Index.new wideParams 0) ops
    idx.graph.levels idx.graph.entryPoint = idx.graph.maxLevel ∧
      idx.addPointAtM [2] ⟨7, 3⟩ 1 = some (idx.addPointAt [2] ⟨7, 3⟩ 1) ∧
      idx.searchM [1] 1 1 = some (idx.search [1] 1 1) := by
  intro ops idx
  have hone : wideParams.Storable 1 := ⟨by decide, by decide, by decide⟩
  have hnew : Lived wideParams {level | 0 ≤ level ∧ wideParams.Storable level}
      (Index.new wideParams 0) := .new 0
  have hfirst := hnew.call (.addPoint [0] ⟨7, 1⟩ 1) ⟨0, 0⟩ rfl (Or.inr (by decide))
    ⟨by decide, hone⟩
  have hsecond := hfirst.call (.addPoint [1] ⟨7, 2⟩ 0) ⟨0, 0⟩ rfl (Or.inr (by decide +kernel))
    ⟨le_rfl, wideParams.storable_zero⟩
  obtain ⟨hentry, -, haccesses⟩ := wellFormed_lived hsecond
  obtain ⟨hadd, hsearch⟩ := haccesses ⟨by decide, by decide⟩
  exact ⟨(hentry (by decide +kernel)).2.1,
    hadd [2] ⟨7, 3⟩ 1 (by decide) hone (Or.inr (by decide +kernel)), hsearch [1] 1 1⟩

/-- With `2 ^ 32 + 1` vectors the entry point may have lost its level. -/
theorem entry_overwritten :
    (Op.performAll (Index.new wideParams 0) (wrapOps UInt32 (2 ^ 32))).store.count = 2 ^ 32 + 1 ∧
      (Op.performAll (Index.new wideParams 0) (wrapOps UInt32 (2 ^ 32))).graph.entryPoint = 0 ∧
      (Op.performAll (Index.new wideParams 0) (wrapOps UInt32 (2 ^ 32))).graph.levels 0 ≠
        (Op.performAll (Index.new wideParams 0) (wrapOps UInt32 (2 ^ 32))).graph.maxLevel := by
  have hwrapped := overwrite_first (F := UInt32) 0 [FloatOps.zero] ⟨1, 0⟩ 0 (by decide)
  rw [performAll_wrapOps]
  generalize filled UInt32 wideParams 0 (2 ^ 32) = idx at hwrapped
  obtain ⟨hcount, -, -, hlevel, htop⟩ := hwrapped
  obtain ⟨hentry, hmax⟩ := htop (by decide)
  refine ⟨hcount, hentry, ?_⟩
  rw [hlevel, hmax]
  decide

end Index

end VectorSearch.Hnsw
