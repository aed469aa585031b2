import VectorSearch.Hnsw.ConcurrentBounds
import VectorSearch.Hnsw.GreedyDescent

/-! # Searches while insertions run

A call of `search` looks at the entry point under the shared lock, lets go of it, and then descends
and searches layer 0 while other calls link their nodes.  It copies the links of one node at a time
and reads the tombstones of the nodes one by one, while calls of `markDeleted` and `unmarkDeleted`
set them.

`Searches.Step` interleaves any number of searches with the insertions of `Inserts` and with changes
of tombstones.  The nodes that were seen without a tombstone at some moment of a call are recorded in
`Searches.shown`, which no step reads.

* `search_while_inserting`: an answer has at most `k` different nodes whose insertion filled their
  slots, with their distances, nearest first, and none whose tombstone was set all the time.
* `reads_while_inserting`: what a search reads is in range and was written before.
* `search_finishes`: a search needs no more steps of its own than a bound in the capacity and the
  highest level that it saw, whatever the other threads do. -/

namespace VectorSearch.Hnsw

open VectorSearch.Hnsw.Graph (Beam)
open RwLock (Mode)

section
variable (F : Type) [Platform F]

/-- What a call of `search` asks for; `dist` are the distances of the vectors from the query. -/
structure Query where
  dist : ℕ → F
  k : ℕ
  ef : ℕ

/-- Where a thread is in `search`. -/
inductive Reader where
  | idle
  /-- the index was not empty -/
  | counted (q : Query F)
  /-- at node `cur` of level `l` in `greedyDescend` -/
  | descend (q : Query F) (l cur : ℕ) (curDist : F)
  /-- before a round of `searchLayer` on layer 0 -/
  | search (q : Query F) (b : Beam F)
  /-- in a round of `searchLayer`, with links that are still to be looked at -/
  | look (q : Query F) (b : Beam F) (cands : List ℕ)
  | done (q : Query F) (answer : List (Cand F))

/-- The insertions, the tombstones and the threads that search. -/
structure Searches where
  inserts : Inserts F
  deleted : ℕ → Bool
  readers : ℕ → Reader F
  /-- the nodes that had no tombstone at some moment since the call of a thread began -/
  shown : ℕ → ℕ → Prop

end

section
variable {F : Type} [Platform F]

namespace Query

/-- `std::max(ef, k)` -/
def width (q : Query F) : ℕ := max q.ef q.k

/-- What is left of the results when the farthest ones are dropped, nearest first. -/
def answer (q : Query F) (results : (maxHeap F).Q) : List (Cand F) :=
  ((maxHeap F).drain ((maxHeap F).tail^[(maxHeap F).size results - q.k] results)).reverse

end Query

/-! ### The steps of a search -/

namespace Reader

/-- Go on below level `l + 1`. -/
def below (q : Query F) (live : ℕ → Bool) : (l : ℕ) → (cur : ℕ) → Reader F
  | 0, cur => .search q (Beam.start q.dist live cur)
  | l + 1, cur => .descend q (l + 1) cur (q.dist cur)

/-- The next section of a search. -/
def next (g : Graph) (live : ℕ → Bool) : Reader F → Reader F
  | .idle => .idle
  | .counted q =>
      if g.entryPoint = kNone then .done q [] else below q live g.maxLevel.toNat g.entryPoint
  | .descend q l cur curDist =>
      let st := Graph.greedyScan q.dist (g.neighbors cur l) (cur, curDist, false)
      if st.2.2 then .descend q l st.1 st.2.1 else below q live (l - 1) st.1
  | .search q b =>
      match (minHeap F).pop b.frontier with
      | none => .done q (q.answer b.results)
      | some x =>
          if FloatOps.lt b.worst x.1.1 ∧ q.width ≤ (maxHeap F).size b.results then
            .done q (q.answer b.results)
          else .look q { b with frontier := x.2 } ((g.neighbors x.1.2 0).take kMaxDegree)
  | .look q b [] => .search q b
  | .look q b (cand :: cands) => .look q (b.look q.dist live q.width cand) cands
  | .done _ _ => .idle

/-- The search waits for the shared lock. -/
def Waits : Reader F → Prop
  | .counted _ => True
  | _ => False

/-- The search has the entry point and no answer yet. -/
def Busy : Reader F → Prop
  | .descend _ _ _ _ | .search _ _ | .look _ _ _ => True
  | _ => False

instance (r : Reader F) : Decidable r.Busy :=
  match r with
  | .descend _ _ _ _ | .search _ _ | .look _ _ _ => isTrue trivial
  | .idle | .counted _ | .done _ _ => isFalse id

/-- The search has the entry point; it is to answer `q`, or it has answered it. -/
def Asks (q : Query F) : Reader F → Prop
  | .descend q' _ _ _ | .search q' _ | .look q' _ _ | .done q' _ => q' = q
  | _ => False

end Reader

namespace Searches

/-- An empty index and no calls. -/
def start : Searches F where
  inserts := Inserts.start
  deleted _ := false
  readers _ := .idle
  shown _ _ := False

/-- Is the node taken for a live one? -/
def live (σ : Searches F) (v : ℕ) : Bool := ! σ.deleted v

/-- A tombstone is set or taken away. -/
def flag (σ : Searches F) (v : ℕ) (deleted : Bool) : Searches F :=
  { σ with
    deleted := Function.update σ.deleted v deleted
    shown := fun t u => σ.shown t u ∨ u = v ∧ deleted = false }

/-- A call begins. -/
def call (σ : Searches F) (t : ℕ) (q : Query F) : Searches F :=
  { σ with
    readers := Function.update σ.readers t
      (if σ.inserts.count = 0 then .done q [] else .counted q)
    shown := Function.update σ.shown t fun v => σ.deleted v = false }

/-- A search takes its next section. -/
def advance (σ : Searches F) (t : ℕ) : Searches F :=
  { σ with
    readers := Function.update σ.readers t ((σ.readers t).next σ.inserts.graph σ.live) }

/-- The steps of all threads. -/
inductive Step (p : Params) (pair : ℕ → ℕ → F) (σ : Searches F) : Searches F → Prop
  | insert {t level : ℕ} {s : Inserts F} (hstep : σ.inserts.step p pair t level = some s)
      (hfits : σ.inserts.threads t = .idle → σ.inserts.IdFits p) :
      Step p pair σ { σ with inserts := s }
  | flag (v : ℕ) (deleted : Bool) : Step p pair σ (σ.flag v deleted)
  | call (t : ℕ) (q : Query F) (hidle : σ.readers t = .idle) : Step p pair σ (σ.call t q)
  | advance (t : ℕ) (hlock : (σ.readers t).Waits → σ.inserts.entryLock.writer = none) :
      Step p pair σ (σ.advance t)

inductive Reached (p : Params) (pair : ℕ → ℕ → F) : Searches F → Prop
  | start : Reached p pair start
  | step {σ σ' : Searches F} (h : Reached p pair σ) (hstep : Step p pair σ σ') : Reached p pair σ'

end Searches

namespace Reader

theorem asks_below (q : Query F) (live : ℕ → Bool) : ∀ l cur, (below q live l cur).Asks q
  | 0, _ => rfl
  | _ + 1, _ => rfl

theorem Asks.next {q : Query F} {r : Reader F} (h : r.Asks q) (hbusy : r.Busy) (g : Graph)
    (live : ℕ → Bool) : (r.next g live).Asks q := by
  cases r with
  | idle | counted | done => exact hbusy.elim
  | descend q' l cur curDist =>
      obtain rfl : q' = q := h
      unfold Reader.next
      simp only
      split_ifs
      · rfl
      · exact asks_below q' live _ _
  | search q' b =>
      obtain rfl : q' = q := h
      cases hpop : (minHeap F).pop b.frontier with
      | none =>
          simp only [Reader.next, hpop]
          rfl
      | some x =>
          simp only [Reader.next, hpop]
          split_ifs <;> rfl
  | look q' b cands =>
      obtain rfl : q' = q := h
      cases cands <;> rfl

theorem Asks.busy_or_done {q : Query F} {r : Reader F} (h : r.Asks q) :
    r.Busy ∨ ∃ answer, r = .done q answer := by
  cases r with
  | idle | counted => exact h.elim
  | descend | search | look => exact Or.inl trivial
  | done q' answer =>
      obtain rfl : q' = q := h
      exact Or.inr ⟨answer, rfl⟩

end Reader

/-! ### A beam over a graph that changes -/

section
variable {dist : ℕ → F} {S L S' L' : ℕ → Prop} {b : Beam F}

/-- The beam has visited nodes of `S` once each, and its results are visited nodes of `L` with their
distances. -/
structure Graph.Beam.Held (dist : ℕ → F) (S L : ℕ → Prop) (b : Beam F) : Prop where
  visited : ∀ v ∈ b.visited, S v
  nodup : b.visited.Nodup
  frontier : ∀ c ∈ (minHeap F).elems b.frontier, c.2 ∈ b.visited
  results : ∀ c ∈ (maxHeap F).elems b.results, c.2 ∈ b.visited ∧ c.1 = dist c.2 ∧ L c.2
  nodup_results : (ids ((maxHeap F).elems b.results)).Nodup

namespace Graph.Beam

theorem Held.imp (h : b.Held dist S L) (hS : ∀ v, S v → S' v) (hL : ∀ v, L v → L' v) :
    b.Held dist S' L' :=
  ⟨fun v hv => hS v (h.visited v hv), h.nodup, h.frontier, fun c hc =>
    ⟨(h.results c hc).1, (h.results c hc).2.1, hL c.2 (h.results c hc).2.2⟩, h.nodup_results⟩

theorem Held.start {live : ℕ → Bool} {entry : ℕ} (hentry : S entry)
    (hlive : live entry = true → L entry) : (Beam.start dist live entry).Held dist S L := by
  have hone : ∀ c ∈ (minHeap F).elems (Beam.start dist live entry).frontier, c.2 ∈ [entry] := by
    intro c hc
    simp only [Beam.start, (minHeap F).mem_push, (minHeap F).elems_empty, List.not_mem_nil,
      or_false] at hc
    rw [hc]
    exact List.mem_cons_self
  have hvisited : ∀ v ∈ (Beam.start dist live entry).visited, S v := fun v hv =>
    List.mem_singleton.mp hv ▸ hentry
  by_cases hadm : live entry = true
  · have hresults : ((maxHeap F).elems (Beam.start dist live entry).results).Perm
        [(dist entry, entry)] := by
      simp only [Beam.start, if_pos hadm]
      have hpush := (maxHeap F).elems_push (maxHeap F).empty (dist entry, entry)
      rwa [(maxHeap F).elems_empty] at hpush
    refine ⟨hvisited, List.nodup_singleton _, hone, fun c hc => ?_, ?_⟩
    · obtain rfl := List.mem_singleton.mp (hresults.mem_iff.mp hc)
      exact ⟨List.mem_cons_self, rfl, hlive hadm⟩
    · exact (ids_perm hresults).nodup_iff.mpr (List.nodup_singleton _)
  · have hresults : (maxHeap F).elems (Beam.start dist live entry).results = [] := by
      simp only [Beam.start, if_neg hadm, (maxHeap F).elems_empty]
    refine ⟨hvisited, List.nodup_singleton _, hone, fun c hc => ?_, ?_⟩
    · rw [hresults] at hc
      cases hc
    · rw [hresults]
      exact List.nodup_nil

theorem Held.look (h : b.Held dist S L) {live : ℕ → Bool} (ef : ℕ) {cand : ℕ} (hcand : S cand)
    (hlive : live cand = true → L cand) : (b.look dist live ef cand).Held dist S L := by
  by_cases hmem : cand ∈ b.visited
  · rwa [look_of_mem hmem]
  obtain ⟨hvisited, hfrontier, hresults⟩ := look_of_not_mem dist live ef hmem
  have hnew : cand ∉ ids ((maxHeap F).elems b.results) := by
    intro hin
    obtain ⟨c, hc, rfl⟩ := List.mem_map.mp hin
    exact hmem (h.results c hc).1
  refine ⟨?_, ?_, ?_, ?_, ?_⟩
  · rw [hvisited]
    exact List.forall_mem_cons.mpr ⟨hcand, h.visited⟩
  · rw [hvisited]
    exact List.nodup_cons.mpr ⟨hmem, h.nodup⟩
  · rw [hvisited]
    intro c hc
    have hc : c.2 = cand ∨ c ∈ (minHeap F).elems b.frontier := by
      obtain hfrontier | hfrontier := hfrontier
      · rw [hfrontier] at hc
        exact ((minHeap F).mem_push.mp hc).imp_left (congrArg Prod.snd)
      · exact Or.inr (hfrontier ▸ hc)
    exact List.mem_cons.mpr (hc.imp_right fun hc => h.frontier c hc)
  · rw [hvisited]
    intro c hc
    have hc : c = (dist cand, cand) ∧ live cand = true ∨ c ∈ (maxHeap F).elems b.results := by
      obtain ⟨hadm, hresults⟩ | hresults := hresults
      · rw [hresults] at hc
        exact (mem_of_mem_keep hc).imp_left fun hc => ⟨hc, hadm⟩
      · exact Or.inr (hresults ▸ hc)
    obtain ⟨rfl, hadm⟩ | hc := hc
    · exact ⟨List.mem_cons_self, rfl, hlive hadm⟩
    · exact ⟨List.mem_cons_of_mem _ (h.results c hc).1, (h.results c hc).2⟩
  · obtain ⟨-, hresults⟩ | hresults := hresults
    · rw [hresults]
      exact nodup_keep h.nodup_results hnew
    · rw [hresults]
      exact h.nodup_results

theorem Held.pop (h : b.Held dist S L) {best : Cand F} {frontier : (minHeap F).Q}
    (hpop : (minHeap F).pop b.frontier = some (best, frontier)) :
    S best.2 ∧ ({ b with frontier } : Beam F).Held dist S L := by
  have hperm := (minHeap F).elems_of_pop_some hpop
  have hrest : ∀ c ∈ (minHeap F).elems frontier, c.2 ∈ b.visited := fun c hc =>
    h.frontier c (hperm.mem_iff.mpr (List.mem_cons_of_mem _ hc))
  exact ⟨h.visited _ (h.frontier best (hperm.mem_iff.mpr List.mem_cons_self)),
    h.visited, h.nodup, hrest, h.results, h.nodup_results⟩

end Graph.Beam

end

/-! ### What a search knows -/

/-- What an answer says: nodes of `S` and `L` with their distances. -/
structure Query.Answered (q : Query F) (S L : ℕ → Prop) (answer : List (Cand F)) : Prop where
  length_le : answer.length ≤ q.k
  nodup : (ids answer).Nodup
  found : ∀ c ∈ answer, S c.2 ∧ c.1 = q.dist c.2 ∧ L c.2
  sorted : StrictWeak (FloatOps.lt (F := F)) →
    answer.Pairwise fun c d => FloatOps.lt d.1 c.1 = false

/-- The search stays among the nodes of its levels; `A l` are those of level `l`. -/
def Reader.Sound (A : ℕ → ℕ → Prop) (L : ℕ → Prop) : Reader F → Prop
  | .idle | .counted _ => True
  | .descend _ l cur _ => 0 < l ∧ A l cur
  | .search q b => b.Held q.dist (A 0) L
  | .look q b cands => b.Held q.dist (A 0) L ∧ ∀ v ∈ cands, A 0 v
  | .done q answer => q.Answered (A 0) L answer

section
variable {A B : ℕ → ℕ → Prop} {S L L' : ℕ → Prop} {g : Graph} {live : ℕ → Bool} {q : Query F}

theorem Query.Answered.imp {S' : ℕ → Prop} {answer : List (Cand F)} (h : q.Answered S L answer)
    (hS : ∀ v, S v → S' v) (hL : ∀ v, L v → L' v) : q.Answered S' L' answer :=
  ⟨h.length_le, h.nodup, fun c hc => ⟨hS c.2 (h.found c hc).1, (h.found c hc).2.1,
    hL c.2 (h.found c hc).2.2⟩, h.sorted⟩

theorem Query.answered_nil : q.Answered S L [] :=
  ⟨Nat.zero_le _, List.nodup_nil, nofun, fun _ => List.Pairwise.nil⟩

/-- The answer of a beam. -/
theorem Graph.Beam.Held.answered {b : Beam F} (h : b.Held q.dist S L) :
    q.Answered S L (q.answer b.results) := by
  have hsize := (maxHeap F).size_iterate_tail (q := b.results)
    (Nat.sub_le ((maxHeap F).size b.results) q.k)
  have hsub := (maxHeap F).iterate_tail_subperm b.results ((maxHeap F).size b.results - q.k)
  unfold Query.answer
  generalize (maxHeap F).tail^[(maxHeap F).size b.results - q.k] b.results = top at hsize hsub
  have hperm := (List.reverse_perm _).trans ((maxHeap F).drain_perm top)
  refine ⟨?_, ?_, fun c hc => ?_, fun hlt => ?_⟩
  · have hlength := hperm.length_eq
    rw [PriorityQueue.size] at hsize
    omega
  · obtain ⟨cs, hcs, hsublist⟩ := hsub
    have hids : (ids ((maxHeap F).elems top)).Subperm (ids ((maxHeap F).elems b.results)) :=
      ⟨ids cs, ids_perm hcs, hsublist.map Prod.snd⟩
    exact (ids_perm hperm).nodup_iff.mpr (nodup_of_subperm hids h.nodup_results)
  · obtain ⟨hvisited, hdist, hL⟩ := h.results c (hsub.subset (hperm.mem_iff.mp hc))
    exact ⟨h.visited _ hvisited, hdist, hL⟩
  · rw [List.pairwise_reverse]
    exact (maxHeap F).drain_pairwise (hlt.comap Prod.fst) top

namespace Reader

variable {r : Reader F}

/-- More nodes may have come to the levels, and more may have been shown. -/
theorem Sound.imp (h : r.Sound A L) (hAB : ∀ l v, A l v → B l v) (hL : ∀ v, L v → L' v) :
    r.Sound B L' := by
  cases r with
  | idle | counted => trivial
  | descend q l cur curDist => exact ⟨h.1, hAB l cur h.2⟩
  | search q b => exact Graph.Beam.Held.imp h (hAB 0) hL
  | look q b cands => exact ⟨h.1.imp (hAB 0) hL, fun v hv => hAB 0 v (h.2 v hv)⟩
  | done q answer => exact Query.Answered.imp h (hAB 0) hL

theorem sound_below (hlive : ∀ v, live v = true → L v) : ∀ {l cur : ℕ}, A l cur →
    (below q live l cur).Sound A L
  | 0, _, hcur => Graph.Beam.Held.start hcur (hlive _)
  | l + 1, _, hcur => ⟨Nat.succ_pos l, hcur⟩

/-- **The next section of a search** stays among the nodes of its levels, if the links do. -/
theorem Sound.next (hA : Layered A) (hlinks : ∀ a l v, v ∈ g.neighbors a (l : ℕ) → A l v)
    (hentry : g.entryPoint ≠ kNone → A g.maxLevel.toNat g.entryPoint)
    (hlive : ∀ v, live v = true → L v) (h : r.Sound A L) : (r.next g live).Sound A L := by
  cases r with
  | idle | done => trivial
  | counted q =>
      unfold Reader.next
      split_ifs with hnone
      · exact Query.answered_nil
      · exact sound_below hlive (hentry hnone)
  | descend q l cur curDist =>
      obtain ⟨hl, hcur⟩ := h
      have hscan := Graph.greedyScan_mem q.dist (g.neighbors cur l) (cur, curDist, false)
      unfold Reader.next
      simp only
      generalize Graph.greedyScan q.dist (g.neighbors cur l) (cur, curDist, false) = st at hscan
      have hst : A l st.1 := by
        obtain heq | hmem := hscan
        · rw [heq]
          exact hcur
        · exact hlinks cur l st.1 hmem
      split_ifs
      · exact ⟨hl, hst⟩
      · exact sound_below hlive (hA.mono (Nat.sub_le l 1) hst)
  | search q b =>
      cases hpop : (minHeap F).pop b.frontier with
      | none =>
          simp only [Reader.next, hpop]
          exact Graph.Beam.Held.answered h
      | some x =>
          obtain ⟨-, hpopped⟩ := Graph.Beam.Held.pop h hpop
          simp only [Reader.next, hpop]
          split_ifs
          · exact Graph.Beam.Held.answered h
          · exact ⟨hpopped, fun v hv => hlinks x.1.2 0 v (List.mem_of_mem_take hv)⟩
  | look q b cands =>
      obtain ⟨hb, hcands⟩ := h
      cases cands with
      | nil => exact hb
      | cons cand cands =>
          exact ⟨hb.look q.width (hcands cand List.mem_cons_self) (hlive cand), fun v hv =>
            hcands v (List.mem_cons_of_mem _ hv)⟩

end Reader

end

namespace Searches

variable {p : Params} {pair : ℕ → ℕ → F} {σ σ' : Searches F} {t : ℕ}

/-- The insertions keep their bounds, and every search is sound. -/
structure Inv (p : Params) (σ : Searches F) : Prop where
  inserts : Inserts.Inv p σ.inserts
  bounded : Inserts.Bounded p σ.inserts
  sound : ∀ t, (σ.readers t).Sound σ.inserts.Stands (σ.shown t)
  shown : ∀ t v, σ.readers t ≠ .idle → σ.deleted v = false → σ.shown t v

theorem Inv.start : Inv p (start : Searches F) where
  inserts := Inserts.Inv.start
  bounded := Inserts.Bounded.start
  sound _ := trivial
  shown _ _ hne := absurd rfl hne

/-- **Every step keeps the invariant.** -/
theorem Step.inv (hstep : Step p pair σ σ') (h : Inv p σ) : Inv p σ' := by
  cases hstep with
  | insert hstep hfits =>
      have hmove := Inserts.move_of_step hstep
      exact ⟨hmove.inv h.inserts hfits, hmove.bounded h.bounded h.inserts, fun t =>
        (h.sound t).imp (fun _ _ => hmove.stands h.inserts) fun _ => id, h.shown⟩
  | flag v deleted =>
      refine ⟨h.inserts, h.bounded, fun t => (h.sound t).imp (fun _ _ => id) fun _ => Or.inl,
        fun t u hne hu => ?_⟩
      by_cases huv : u = v
      · subst huv
        simp only [Searches.flag, Function.update_self] at hu
        exact Or.inr ⟨rfl, hu⟩
      · simp only [Searches.flag, Function.update_of_ne huv] at hu
        exact Or.inl (h.shown t u hne hu)
  | call t q hidle =>
      refine ⟨h.inserts, h.bounded, fun u => ?_, fun u v hne hv => ?_⟩
      · by_cases hut : u = t
        · subst hut
          simp only [Searches.call, Function.update_self]
          split_ifs
          · exact Query.answered_nil
          · trivial
        · simp only [Searches.call, Function.update_of_ne hut]
          exact h.sound u
      · by_cases hut : u = t
        · subst hut
          simp only [Searches.call, Function.update_self]
          exact hv
        · simp only [Searches.call, Function.update_of_ne hut] at hne ⊢
          exact h.shown u v hne hv
  | advance t hlock =>
      refine ⟨h.inserts, h.bounded, fun u => ?_, fun u v hne hv => ?_⟩
      · by_cases hut : u = t
        · subst hut
          simp only [Searches.advance, Function.update_self]
          by_cases hidle : σ.readers u = .idle
          · rw [hidle]
            trivial
          · refine (h.sound u).next σ.inserts.layered_stands h.bounded.links
              (h.bounded.stands_entry h.inserts) fun v hv => h.shown u v hidle ?_
            simpa only [live, Bool.not_eq_true'] using hv
        · simp only [Searches.advance, Function.update_of_ne hut]
          exact h.sound u
      · by_cases hut : u = t
        · subst hut
          refine h.shown u v (fun hidle => hne ?_) hv
          simp only [Searches.advance, Function.update_self, hidle]
          rfl
        · simp only [Searches.advance, Function.update_of_ne hut] at hne
          exact h.shown u v hne hv

theorem Reached.inv (h : Reached p pair σ) : Inv p σ := by
  induction h with
  | start => exact Inv.start
  | step _ hstep ih => exact hstep.inv ih

/-- The nodes whose vectors the next section of a search may read. -/
def reads (σ : Searches F) (t : ℕ) : List ℕ :=
  match σ.readers t with
  | .counted _ => if σ.inserts.graph.entryPoint = kNone then [] else [σ.inserts.graph.entryPoint]
  | .descend _ l cur _ => cur :: σ.inserts.graph.neighbors cur l
  | .look _ _ (cand :: _) => [cand]
  | .done _ answer => ids answer
  | _ => []

/-- The node and the level of the block that the next section of a search reads. -/
def block (σ : Searches F) (t : ℕ) : Option (ℕ × ℕ) :=
  match σ.readers t with
  | .descend _ l cur _ => some (cur, l)
  | .search _ b => ((minHeap F).pop b.frontier).map fun x => (x.1.2, 0)
  | _ => none

/-- **Every access of a search is in range**, while insertions run. -/
theorem reads_while_inserting (hfit : p.ArraysFit) (h : Reached p pair σ) (t : ℕ) :
    (∀ v ∈ σ.reads t, σ.inserts.Filled v ∧ p.HasSlot v) ∧
      ∀ a l, σ.block t = some (a, l) → σ.inserts.graph.HasBlock p a l := by
  have hinv := h.inv
  have hsound := hinv.sound t
  have hslot : ∀ l v, σ.inserts.Stands l v → σ.inserts.Filled v ∧ p.HasSlot v := fun l v hv =>
    ⟨hv.1, hfit.hasSlot (hinv.inserts.filled_lt hv.1)⟩
  constructor
  · intro v hv
    unfold reads at hv
    split at hv
    case h_1 q hph =>
      split_ifs at hv with hnone
      · cases hv
      · rw [List.mem_singleton.mp hv]
        exact hslot _ _ (hinv.bounded.stands_entry hinv.inserts hnone)
    case h_2 q l cur curDist hph =>
      rw [hph] at hsound
      obtain rfl | hv := List.mem_cons.mp hv
      · exact hslot l _ hsound.2
      · exact hslot l v (hinv.bounded.links cur l v hv)
    case h_3 q b cand cands hph =>
      rw [hph] at hsound
      rw [List.mem_singleton.mp hv]
      exact hslot 0 cand (hsound.2 cand List.mem_cons_self)
    case h_4 q answer hph =>
      rw [hph] at hsound
      obtain ⟨c, hc, rfl⟩ := List.mem_map.mp hv
      exact hslot 0 c.2 (Query.Answered.found hsound c hc).1
    case h_5 => cases hv
  · intro a l hb
    unfold block at hb
    split at hb
    case h_1 q l cur curDist hph =>
      rw [hph] at hsound
      cases hb
      exact hinv.bounded.hasBlock hinv.inserts hfit hsound.2
    case h_2 q b hph =>
      rw [hph] at hsound
      obtain ⟨x, hpop, hx⟩ := Option.map_eq_some_iff.mp hb
      cases hx
      exact hinv.bounded.hasBlock hinv.inserts hfit (Graph.Beam.Held.pop hsound hpop).1
    case h_3 => cases hb

end Searches

/-! ### Progress -/

/-- A look takes nothing from the rounds that are left. -/
theorem Graph.Beam.Held.todo_look {dist : ℕ → F} {S L : ℕ → Prop} {b : Beam F} {n cand : ℕ}
    (h : b.Held dist S L) (hlt : ∀ v, S v → v < n) (live : ℕ → Bool) (ef : ℕ) (hcand : S cand) :
    (b.look dist live ef cand).todo n ≤ b.todo n := by
  by_cases hmem : cand ∈ b.visited
  · rw [Graph.look_of_mem hmem]
  · obtain ⟨hvisited, hfrontier, -⟩ := Graph.look_of_not_mem dist live ef hmem
    have hsub : cand :: b.visited ⊆ List.range n := fun v hv => by
      obtain rfl | hv := List.mem_cons.mp hv
      · exact List.mem_range.mpr (hlt v hcand)
      · exact List.mem_range.mpr (hlt v (h.visited v hv))
    have hroom := (List.subperm_of_subset (List.nodup_cons.mpr ⟨hmem, h.nodup⟩) hsub).length_le
    rw [List.length_cons, List.length_range] at hroom
    unfold Graph.Beam.todo
    rw [hvisited, List.length_cons]
    obtain hfrontier | hfrontier := hfrontier
    · rw [hfrontier, (minHeap F).size_push]
      omega
    · rw [hfrontier]
      omega

namespace Reader

open Descent

/-- The steps of a search of layer 0 among `n` nodes. -/
def layerBound (n : ℕ) : ℕ := n * (kMaxDegree + 2) + 1

/-- The steps that a search may still take until it has its answer. -/
def rank (n : ℕ) : Reader F → ℕ
  | .descend q l _ curDist =>
      l * (n + 1) + (Better FloatOps.lt q.dist (Finset.range n) curDist).card + 1 + layerBound n
  | .search _ b => b.todo n * (kMaxDegree + 2) + 1
  | .look _ b cands => b.todo n * (kMaxDegree + 2) + cands.length + 2
  | _ => 0

variable {A : ℕ → ℕ → Prop} {L : ℕ → Prop} {g : Graph} {live : ℕ → Bool} {n : ℕ}

theorem rank_below (hlt : StrictPartial (FloatOps.lt (F := F))) (q : Query F) (live : ℕ → Bool) {cur : ℕ}
    (hcur : cur < n) : ∀ l, (below q live l cur).rank n ≤ l * (n + 1) + n + layerBound n
  | 0 => by
      have htodo : (Beam.start q.dist live cur).todo n < n + 1 := Graph.todo_start hcur le_rfl
      have hmul : (Beam.start q.dist live cur).todo n * (kMaxDegree + 2) ≤ n * (kMaxDegree + 2) :=
        Nat.mul_le_mul_right _ (Nat.le_of_lt_succ htodo)
      simp only [below, rank, layerBound]
      omega
  | l + 1 => by
      have hfew := card_better_self_lt hlt q.dist (Finset.mem_range.mpr hcur)
      rw [Finset.card_range] at hfew
      simp only [below, rank]
      omega

/-- **Each section of a busy search** leaves fewer to come. -/
theorem Sound.rank_next (live : ℕ → Bool) (hlt : StrictPartial (FloatOps.lt (F := F)))
    (hlinks : ∀ a l v, v ∈ g.neighbors a (l : ℕ) → A l v) (hn : ∀ l v, A l v → v < n)
    {r : Reader F} (h : r.Sound A L) (hbusy : r.Busy) : (r.next g live).rank n < r.rank n := by
  cases r with
  | idle | counted | done => exact hbusy.elim
  | descend q l cur curDist =>
      obtain ⟨hl, hcur⟩ := h
      unfold Reader.next
      obtain ⟨hstay, -⟩ | ⟨v, hv, hmove, hnear⟩ :=
        Graph.greedyScan_spec hlt q.dist (g.neighbors cur l) cur curDist false
      · have hbelow := rank_below hlt q live (hn l cur hcur) (l - 1)
        have hmul : (l - 1) * (n + 1) + (n + 1) = l * (n + 1) := by
          rw [← Nat.succ_mul, Nat.succ_eq_add_one, Nat.sub_add_cancel hl]
        simp only [hstay, Bool.false_eq_true, if_false]
        refine lt_of_le_of_lt hbelow ?_
        simp only [rank]
        omega
      · have hcard := card_better_lt hlt q.dist
          (Finset.mem_range.mpr (hn l v (hlinks cur l v hv))) hnear
        simp only [hmove, if_true]
        simp only [rank]
        omega
  | search q b =>
      cases hpop : (minHeap F).pop b.frontier with
      | none =>
          simp only [Reader.next, hpop, rank]
          omega
      | some x =>
          have hsize := (minHeap F).size_of_pop_some hpop
          have hlen : ((g.neighbors x.1.2 0).take kMaxDegree).length ≤ kMaxDegree := by
            rw [List.length_take]
            exact min_le_left _ _
          have htodo : b.todo n = ({ b with frontier := x.2 } : Beam F).todo n + 1 := by
            simp only [Graph.Beam.todo, hsize]
            omega
          simp only [Reader.next, hpop]
          split_ifs
          · simp only [rank]
            omega
          · simp only [rank, htodo, Nat.succ_mul]
            omega
  | look q b cands =>
      obtain ⟨hb, hcands⟩ := h
      cases cands with
      | nil =>
          simp only [Reader.next, rank, List.length_nil]
          omega
      | cons cand cands =>
          have htodo := hb.todo_look (hn 0) live q.width (hcands cand List.mem_cons_self)
          have hmul := Nat.mul_le_mul_right (kMaxDegree + 2) htodo
          simp only [Reader.next, rank, List.length_cons]
          omega

end Reader

namespace Searches

variable {p : Params} {pair : ℕ → ℕ → F} {σ σ' : Searches F} {t : ℕ}

/-- Thread `t` takes so many sections of a busy search, while the other threads take any steps. -/
inductive Busy (p : Params) (pair : ℕ → ℕ → F) (t : ℕ) (σ : Searches F) :
    ℕ → Searches F → Prop
  | start : Busy p pair t σ 0 σ
  | other {n : ℕ} {σ' σ'' : Searches F} (h : Busy p pair t σ n σ') (hstep : Step p pair σ' σ'')
      (hsame : σ''.readers t = σ'.readers t) : Busy p pair t σ n σ''
  | own {n : ℕ} {σ' : Searches F} (h : Busy p pair t σ n σ') (hbusy : (σ'.readers t).Busy) :
      Busy p pair t σ (n + 1) (σ'.advance t)

/-- A busy search does not wait. -/
theorem step_of_busy (p : Params) (pair : ℕ → ℕ → F) (hbusy : (σ.readers t).Busy) :
    Step p pair σ (σ.advance t) := by
  refine .advance t fun hwaits => ?_
  generalize σ.readers t = r at hbusy hwaits
  cases r with
  | counted => exact hbusy.elim
  | idle | descend | search | look | done => exact hwaits.elim

theorem Busy.rank (hlt : StrictPartial (FloatOps.lt (F := F))) {q : Query F} {n : ℕ}
    (h : Reached p pair σ) (hasks : (σ.readers t).Asks q) (hrun : Busy p pair t σ n σ') :
    Reached p pair σ' ∧ (σ'.readers t).Asks q ∧
      n + (σ'.readers t).rank p.maxElements ≤ (σ.readers t).rank p.maxElements := by
  induction hrun with
  | start => exact ⟨h, hasks, (Nat.zero_add _).le⟩
  | other _ hstep hsame ih =>
      obtain ⟨hreached, hasks, hle⟩ := ih
      exact ⟨hreached.step hstep, hsame ▸ hasks, hsame ▸ hle⟩
  | @own n σ' _ hbusy ih =>
      obtain ⟨hreached, hasks, hle⟩ := ih
      have hinv := hreached.inv
      have hrank := (hinv.sound t).rank_next σ'.live hlt hinv.bounded.links
        (fun l v hv => hinv.inserts.filled_lt hv.1) hbusy
      refine ⟨hreached.step (step_of_busy p pair hbusy), ?_⟩
      simp only [advance, Function.update_self]
      exact ⟨hasks.next hbusy _ _, by omega⟩

/-- **A search finishes**: once it has read the entry point it needs at most so many sections,
whatever the other threads do meanwhile, and until it has its answer none of them has to wait. -/
theorem search_finishes (hlt : StrictPartial (FloatOps.lt (F := F))) (h : Reached p pair σ)
    {q : Query F} (hph : σ.readers t = .counted q) (hlock : σ.inserts.entryLock.writer = none)
    {n : ℕ} (hrun : Busy p pair t (σ.advance t) n σ') :
    n ≤ (σ.inserts.graph.maxLevel.toNat + 1) * (p.maxElements + 1) +
        p.maxElements * (kMaxDegree + 2) ∧
      ((σ'.readers t).Busy ∧ Step p pair σ' (σ'.advance t) ∨
        ∃ answer, σ'.readers t = .done q answer) := by
  have hinv := h.inv
  have hasks : ((σ.advance t).readers t).Asks q := by
    simp only [advance, Function.update_self, hph, Reader.next]
    split_ifs
    · rfl
    · exact Reader.asks_below q _ _ _
  obtain ⟨-, hasks', hle⟩ := hrun.rank hlt (h.step (.advance t fun _ => hlock)) hasks
  have hstart : ((σ.advance t).readers t).rank p.maxElements ≤
      (σ.inserts.graph.maxLevel.toNat + 1) * (p.maxElements + 1) +
        p.maxElements * (kMaxDegree + 2) := by
    simp only [advance, Function.update_self, hph, Reader.next]
    split_ifs with hnone
    · exact Nat.zero_le _
    · have hentry := (hinv.bounded.stands_entry hinv.inserts hnone).1
      refine (Reader.rank_below hlt q σ.live (hinv.inserts.filled_lt hentry) _).trans ?_
      rw [Nat.succ_mul, Reader.layerBound]
      omega
  refine ⟨by omega, hasks'.busy_or_done.imp_left fun hbusy => ⟨hbusy, step_of_busy p pair hbusy⟩⟩

/-! ### A search beside an insertion -/

/-- What every step of an insertion keeps, a run of insertions keeps. -/
theorem insertions (P : Searches F → Prop)
    (hstep : ∀ σ s, P σ → Step p pair σ { σ with inserts := s } → P { σ with inserts := s }) :
    ∀ (steps : List (ℕ × ℕ)) {σ : Searches F} {s : Inserts F}, P σ →
      σ.inserts.run p pair (fun s _ => decide (s.count < kNone)) steps = some s →
        P { σ with inserts := s }
  | [], σ, _, h, hrun => by
      cases hrun
      exact h
  | (t, level) :: steps, σ, s, h, hrun => by
      unfold Inserts.run at hrun
      split_ifs at hrun with hsmall
      obtain ⟨s₁, hfirst, hrest⟩ := Option.bind_eq_some_iff.mp hrun
      have hlt := of_decide_eq_true hsmall
      have hnext : P { σ with inserts := s₁ } :=
        hstep σ s₁ h (.insert hfirst fun _ => ⟨hlt.trans (by decide), fun _ => hlt.ne⟩)
      have hlast := insertions P hstep steps hnext hrest
      exact hlast

theorem Reached.insertions {steps : List (ℕ × ℕ)} {s : Inserts F} (h : Reached p pair σ)
    (hrun : σ.inserts.run p pair (fun s _ => decide (s.count < kNone)) steps = some s) :
    Reached p pair { σ with inserts := s } :=
  Searches.insertions (Reached p pair) (fun _ _ h hstep => h.step hstep) steps h hrun

theorem Busy.insertions {steps : List (ℕ × ℕ)} {s : Inserts F} {n : ℕ} (h : Busy p pair t σ n σ')
    (hrun : σ'.inserts.run p pair (fun s _ => decide (s.count < kNone)) steps = some s) :
    Busy p pair t σ n { σ' with inserts := s } :=
  Searches.insertions (Busy p pair t σ n) (fun _ _ h hstep => h.other hstep rfl) steps h hrun

open StandIn

/-- A query at point 9 for two nodes. -/
def nearQuery : Query ℤ where
  dist v := Inserts.nearPair v 2
  k := 2
  ef := 2

/-- Node 0 is inserted and tombstoned, and thread 0 calls `search`. -/
def searching : Option (Searches ℤ) :=
  ((Inserts.start : Inserts ℤ).run Graph.lineParams Inserts.nearPair
    (fun s _ => decide (s.count < kNone)) Inserts.firstCall).map fun s =>
      (({ (start : Searches ℤ) with inserts := s }).flag 0 true).call 0 nearQuery

theorem searching_spec : ∃ σ : Searches ℤ, searching = some σ ∧
    Reached Graph.lineParams Inserts.nearPair σ ∧ σ.readers 0 = .counted nearQuery ∧
      σ.inserts.entryLock.writer = none := by
  have hrun : searching.map (fun σ => (σ.inserts.count, σ.inserts.entryLock.writer)) =
      some (1, none) := by
    decide +kernel
  obtain ⟨σ, hσ, hseen⟩ := Option.map_eq_some_iff.mp hrun
  obtain ⟨hcount, hwriter⟩ := Prod.mk.inj hseen
  obtain ⟨s, hs, rfl⟩ := Option.map_eq_some_iff.mp hσ
  have hcount : s.count ≠ 0 := by
    change s.count = 1 at hcount
    omega
  refine ⟨_, hσ, ((Reached.start.insertions hs).step (.flag 0 true)).step
    (.call 0 nearQuery rfl), ?_, hwriter⟩
  simp only [call, flag, Function.update_self]
  exact if_neg hcount

/-- The answer of a search, if it has one. -/
def answer (σ : Searches F) (t : ℕ) : Option (List (Cand F)) :=
  match σ.readers t with
  | .done _ answer => some answer
  | _ => none

/-- The search has read the entry point, and then thread 0 has inserted node 1. -/
def beside (σ : Searches ℤ) : Option (Searches ℤ) :=
  (σ.inserts.run Graph.lineParams Inserts.nearPair (fun s _ => decide (s.count < kNone))
    (Inserts.secondCall ++ List.replicate 10 (0, 0))).map fun s =>
      { σ.advance 0 with inserts := s }

theorem beside_spec : ∃ σ σ' : Searches ℤ, searching = some σ ∧ beside σ = some σ' ∧
    Reached Graph.lineParams Inserts.nearPair σ' ∧ σ'.inserts.entryLock.writer = none := by
  obtain ⟨σ, hσ, hreached, -, hlock⟩ := searching_spec
  have hrun : (searching.bind beside).map (fun σ => σ.inserts.entryLock.writer) = some none := by
    decide +kernel
  rw [hσ, Option.bind_some] at hrun
  obtain ⟨σ', hσ', hwriter⟩ := Option.map_eq_some_iff.mp hrun
  obtain ⟨s, hs, rfl⟩ := Option.map_eq_some_iff.mp hσ'
  have hstep := hreached.step (.advance 0 fun _ => hlock)
  exact ⟨σ, _, hσ, hσ', hstep.insertions hs, hwriter⟩

/-- The search goes over to node 1, which was linked after it had begun. -/
theorem reads_while_inserting_one : ∃ σ : Searches ℤ, σ.reads 0 = [1, 0] ∧
    σ.block 0 = some (1, 1) ∧ (∀ v ∈ σ.reads 0, σ.inserts.Filled v ∧ Graph.lineParams.HasSlot v) ∧
      σ.inserts.graph.HasBlock Graph.lineParams 1 1 := by
  obtain ⟨σ, σ', hσ, hσ', hreached, hlock⟩ := beside_spec
  have hrun : ((searching.bind beside).map fun σ => (σ.advance 0).reads 0) = some [1, 0] ∧
      ((searching.bind beside).map fun σ => (σ.advance 0).block 0) = some (some (1, 1)) := by
    decide +kernel
  rw [hσ, Option.bind_some, hσ', Option.map_some, Option.map_some] at hrun
  obtain ⟨hreads, hblock⟩ := hrun.imp Option.some.inj Option.some.inj
  obtain ⟨hslots, hblocks⟩ := reads_while_inserting ⟨by decide, by decide⟩
    (hreached.step (.advance 0 fun _ => hlock)) 0
  exact ⟨_, hreads, hblock, hslots, hblocks 1 1 hblock⟩

/-- The search takes a section after node 1 was linked. -/
theorem search_finishes_one : ∃ σ σ' : Searches ℤ, searching = some σ ∧
    1 ≤ (σ.inserts.graph.maxLevel.toNat + 1) * (Graph.lineParams.maxElements + 1) +
        Graph.lineParams.maxElements * (kMaxDegree + 2) ∧
      ((σ'.readers 0).Busy ∧ Step Graph.lineParams Inserts.nearPair σ' (σ'.advance 0) ∨
        ∃ answer, σ'.readers 0 = .done nearQuery answer) := by
  obtain ⟨σ, hσ, hreached, hph, hlock⟩ := searching_spec
  have hrun : ((searching.bind beside).map fun σ => decide (σ.readers 0).Busy) = some true := by
    decide +kernel
  rw [hσ, Option.bind_some] at hrun
  obtain ⟨σ', hσ', hbusy⟩ := Option.map_eq_some_iff.mp hrun
  obtain ⟨s, hs, rfl⟩ := Option.map_eq_some_iff.mp hσ'
  have hwait : Busy Graph.lineParams Inserts.nearPair 0 (σ.advance 0) 0 (σ.advance 0) := .start
  exact ⟨σ, _, hσ, search_finishes strictWeak_ints.strictPartial hreached hph hlock
    ((hwait.insertions hs).own (of_decide_eq_true hbusy))⟩

end Searches

end

end VectorSearch.Hnsw
