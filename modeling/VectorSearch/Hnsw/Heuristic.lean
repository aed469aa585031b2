import VectorSearch.Lib.GreedySelection
import VectorSearch.Hnsw.Linking

/-! # What the selection heuristic selects

`selectNeighborsHeuristic` sorts its candidates by distance and id and takes the greedy diverse
selection: a candidate is covered by a kept one that is strictly closer to it than the base point
is.  The shortfall is made up from the rejected candidates, nearest first.  `Selects` is the
specification, `diverse_eq` connects the loop of the source with the scan of
`Lib/GreedySelection.lean`, and `selectNeighborsHeuristic_selects` proves that the heuristic meets
its specification for every set of candidates.

The order of distance and id decides what was looked at: with as many picks as there is room for, a
candidate as far as the last of them but with a larger id was never compared with anything
(`tied_candidate_left_out`). -/

namespace VectorSearch.Hnsw

open Greedy

namespace Graph

section
variable {F : Type} [Platform F]

/-! ### The order of the candidates -/

/-- `operator<` of the pairs is an order if that of the distances is. -/
theorem strictWeak_candLt (h : StrictWeak (FloatOps.lt (F := F))) :
    StrictWeak (candLt (F := F)) := by
  have hfalse : ∀ a b : Cand F, candLt a b = false ↔
      FloatOps.lt a.1 b.1 = false ∧ (FloatOps.lt b.1 a.1 = true ∨ b.2 ≤ a.2) := by
    intro a b
    unfold candLt
    cases FloatOps.lt a.1 b.1 <;> cases FloatOps.lt b.1 a.1 <;> simp
  constructor
  · intro a b hab
    unfold candLt at hab
    rw [hfalse]
    obtain hlt | htie := Bool.or_eq_true_iff.mp hab
    · exact ⟨h.asymm hlt, Or.inl hlt⟩
    · simp only [Bool.and_eq_true, Bool.not_eq_true', decide_eq_true_eq] at htie
      exact ⟨htie.1, Or.inr htie.2.le⟩
  · intro a b c hab hbc
    rw [hfalse] at hab hbc ⊢
    refine ⟨h.negTrans hab.1 hbc.1, ?_⟩
    obtain hba | hba := hab.2
    · left
      by_contra hca
      rw [h.negTrans hbc.1 (by simpa using hca)] at hba
      cases hba
    obtain hcb | hcb := hbc.2
    · left
      by_contra hca
      rw [h.negTrans (by simpa using hca) hab.1] at hcb
      cases hcb
    · exact Or.inr (hcb.trans hba)

/-- Of two candidates with different ids one comes first. -/
theorem candLt_of_ne {a b : Cand F} (hne : a.2 ≠ b.2) (h : candLt b a = false) :
    candLt a b = true := by
  unfold candLt at h ⊢
  cases hab : FloatOps.lt a.1 b.1 with
  | true => simp
  | false =>
      cases hba : FloatOps.lt b.1 a.1 with
      | true => simp [hba] at h
      | false =>
          have hle : a.2 ≤ b.2 := by simpa [hab, hba] using h
          simpa using lt_of_le_of_ne hle hne

/-- The candidates of a heap in the order in which the heuristic looks at them. -/
def sortedCands (top : (maxHeap F).Q) : List (Cand F) :=
  ((maxHeap F).drain top).insertionSort fun a b => ¬ candLt b a

theorem sortedCands_perm (top : (maxHeap F).Q) :
    (sortedCands top).Perm ((maxHeap F).elems top) :=
  (List.perm_insertionSort _ _).trans ((maxHeap F).drain_perm top)

theorem sortedCands_sorted (h : StrictWeak (FloatOps.lt (F := F))) {top : (maxHeap F).Q}
    (hids : (ids ((maxHeap F).elems top)).Nodup) :
    (sortedCands top).Pairwise fun a b => candLt a b = true := by
  have hcand := strictWeak_candLt h
  have : IsTrans (Cand F) fun a b => ¬ candLt b a = true :=
    ⟨fun a b c hab hbc => by
      have := hcand.negTrans (a := c) (b := b) (c := a) (by simpa using hbc) (by simpa using hab)
      simpa using this⟩
  have : Std.Total (α := Cand F) fun a b => ¬ candLt b a = true :=
    ⟨fun a b => by
      by_contra hboth
      rw [not_or, not_not, not_not] at hboth
      rw [hcand.asymm hboth.1] at hboth
      exact Bool.false_ne_true hboth.2⟩
  have hsorted := List.pairwise_insertionSort (fun a b : Cand F => ¬ candLt b a = true)
    ((maxHeap F).drain top)
  have hdistinct : (sortedCands top).Pairwise fun a b => a.2 ≠ b.2 :=
    List.pairwise_map.mp ((ids_perm (sortedCands_perm top)).nodup_iff.mpr hids)
  exact (hsorted.and hdistinct).imp fun hab => candLt_of_ne hab.2 (by simpa using hab.1)

/-! ### The specification -/

variable {pair : ℕ → ℕ → F} {M : ℕ}

/-- The kept candidate `r` is strictly closer to `c` than the base point is. -/
def covers (pair : ℕ → ℕ → F) (r c : Cand F) : Bool := FloatOps.lt (pair c.2 r.2) c.1

/-- What the heuristic is to return for the candidates `cs`, which are sorted by distance and id. -/
structure Selects [DecidableEq F] (pair : ℕ → ℕ → F) (M : ℕ) (cs : List (Cand F)) (out : List ℕ) :
    Prop where
  length_eq : out.length = min cs.length M
  nodup : out.Nodup
  subset : out ⊆ ids cs
  nearest : out.head? = (ids cs).head?
  diverse : M < cs.length → ∃ kept, Picked (covers pair) M cs kept ∧
    out = ids kept ++ ids ((cs.filter (· ∉ kept)).take (M - kept.length)) ∧
    ∀ c ∈ cs, c.2 ∉ out → ∀ last ∈ kept.getLast?, candLt last c = false →
      ∃ r ∈ kept, FloatOps.lt (pair c.2 r.2) c.1 = true

/-! ### The heuristic -/

/-- The loop of the source is the scan for the greedy selection. -/
theorem diverse_eq (pair : ℕ → ℕ → F) (M : ℕ) : ∀ cs kept rejected : List (Cand F),
    diverse pair M cs (ids kept) (ids rejected) =
      (ids (pick (covers pair) M cs kept rejected).1, ids (pick (covers pair) M cs kept rejected).2)
  | [], _, _ => rfl
  | c :: cs, kept, rejected => by
      have hany : ((ids kept).any fun r => FloatOps.lt (pair c.2 r) c.1) =
          kept.any fun r => covers pair r c := by
        rw [ids, List.any_map]
        rfl
      have hsnoc : ∀ l : List (Cand F), ids l ++ [c.2] = ids (l ++ [c]) := fun l => by simp [ids]
      unfold diverse pick
      rw [hany, ids, List.length_map, ← ids]
      split_ifs
      · rfl
      · rw [hsnoc, diverse_eq pair M cs kept (rejected ++ [c])]
      · rw [hsnoc, diverse_eq pair M cs (kept ++ [c]) rejected]

theorem selectNeighborsHeuristic_eq (pair : ℕ → ℕ → F) (top : (maxHeap F).Q) (M : ℕ) :
    selectNeighborsHeuristic pair top M =
      if (sortedCands top).length ≤ M then ids (sortedCands top)
      else
        let picked := pick (covers pair) M (sortedCands top) [] []
        ids picked.1 ++ ids (picked.2.take (M - picked.1.length)) := by
  have hdiverse := diverse_eq pair M (sortedCands top) [] []
  unfold selectNeighborsHeuristic
  simp only [ids, List.map_nil, List.map_take] at hdiverse ⊢
  rw [← sortedCands]
  simp only [hdiverse, List.length_map]

/-- A candidate in front of the last pick that was not kept is covered by a kept one. -/
theorem covered_of_picked [DecidableEq F]
    {cs kept : List (Cand F)} (hsorted : cs.Pairwise fun a b => candLt a b = true)
    (hpicked : Picked (covers pair) M cs kept) {c last : Cand F} (hc : c ∈ cs) (hnot : c ∉ kept)
    (hlast : last ∈ kept) (hle : candLt last c = false) :
    ∃ r ∈ kept, FloatOps.lt (pair c.2 r.2) c.1 = true := by
  obtain ⟨pre, post, hcs⟩ := List.append_of_mem hc
  have hin := hpicked.sublist.subset hlast
  rw [hcs, List.mem_append, List.mem_cons] at hin
  obtain hpre | rfl | hpost := hin
  · -- the last pick would come first
    rw [hcs, List.pairwise_append] at hsorted
    rw [hsorted.2.2 last hpre c List.mem_cons_self] at hle
    cases hle
  · exact absurd hlast hnot
  · obtain ⟨mid, post, rfl⟩ := List.append_of_mem hpost
    obtain ⟨r, -, hr, hcov⟩ := hpicked.covered hcs hnot hlast
    exact ⟨r, hr, hcov⟩

/-- **The heuristic meets its specification**, if the distances are ordered. -/
theorem selectNeighborsHeuristic_selects [DecidableEq F] (h : StrictWeak (FloatOps.lt (F := F)))
    (pair : ℕ → ℕ → F) {top : (maxHeap F).Q} (hids : (ids ((maxHeap F).elems top)).Nodup) {M : ℕ}
    (hM : 1 ≤ M) :
    ∃ cs, cs.Perm ((maxHeap F).elems top) ∧ (cs.Pairwise fun a b => candLt a b = true) ∧
      Selects pair M cs (selectNeighborsHeuristic pair top M) := by
  have hperm := sortedCands_perm top
  have hsorted := sortedCands_sorted h hids
  have hlen := length_selectNeighborsHeuristic pair top M
  have hnodup := nodup_of_subperm (selectNeighborsHeuristic_subperm pair top M) hids
  have hsub := (selectNeighborsHeuristic_subperm pair top M).subset
  refine ⟨sortedCands top, hperm, hsorted, ?_, hnodup, ?_, ?_, fun hmany => ?_⟩
  · rw [hlen, PriorityQueue.size, hperm.length_eq]
  · exact fun i hi => (ids_perm hperm).mem_iff.mpr (hsub hi)
  all_goals
    have hids' : (ids (sortedCands top)).Nodup := (ids_perm hperm).nodup_iff.mpr hids
    rw [selectNeighborsHeuristic_eq] at hnodup ⊢
    generalize sortedCands top = cs at *
    obtain ⟨hpicked, hle, hrest⟩ := pick_spec (covers pair) M hids'.of_map
    generalize pick (covers pair) M cs [] [] = picked at *
    obtain ⟨kept, rejected⟩ := picked
    simp only at hpicked hle hrest hnodup ⊢
  · split_ifs with hfew
    · rfl
    cases cs with
    | nil => simp at hfew
    | cons c cs =>
        -- the first candidate is kept
        have hc : c ∈ kept := (hpicked.mem_iff (List.nil_append (c :: cs)).symm).mpr
          ⟨Nat.lt_of_lt_of_le Nat.zero_lt_one hM, fun _ hr => absurd hr List.not_mem_nil⟩
        obtain ⟨rest, rfl⟩ : ∃ rest, kept = c :: rest := by
          cases hpicked.sublist with
          | cons _ hsub => exact absurd (hsub.subset hc) (List.nodup_cons.mp hids'.of_map).1
          | cons_cons _ hsub => exact ⟨_, rfl⟩
        rfl
  · rw [if_neg (by omega)] at hnodup ⊢
    refine ⟨kept, hpicked, ?_, fun c hc hout last hlast hbefore => ?_⟩
    · congr 2
      obtain hlt | hge := Nat.lt_or_ge kept.length M
      · rw [hrest hlt]
        congr!
      · rw [Nat.sub_eq_zero_of_le hge, List.take_zero, List.take_zero]
    · refine covered_of_picked hsorted hpicked hc (fun hk => hout ?_)
        (List.mem_of_getLast? hlast) hbefore
      exact List.mem_append_left _ (mem_ids hk)

end

/-! ### Points on a line -/

open StandIn

/-- The distance of points on a line, given by their coordinates. -/
def linePair (points : List ℤ) (a b : ℕ) : ℤ :=
  l2SquaredDistance [points.getD a 0] [points.getD b 0]

/-- The points from 1 on as candidates for point 0. -/
def lineHeap (points : List ℤ) : (maxHeap ℤ).Q :=
  (List.range (points.length - 1)).foldl
    (fun q i => (maxHeap ℤ).push q (linePair points 0 (i + 1), i + 1)) (maxHeap ℤ).empty

/-- Of the points 1, 2 and -3 the second is covered by the first. -/
theorem selects_three_points :
    (∃ cs, cs.Perm ((maxHeap ℤ).elems (lineHeap [0, 1, 2, -3])) ∧
      (cs.Pairwise fun a b => candLt a b = true) ∧
      Selects (linePair [0, 1, 2, -3]) 2 cs
        (selectNeighborsHeuristic (linePair [0, 1, 2, -3]) (lineHeap [0, 1, 2, -3]) 2)) ∧
      selectNeighborsHeuristic (linePair [0, 1, 2, -3]) (lineHeap [0, 1, 2, -3]) 2 = [1, 3] :=
  ⟨selectNeighborsHeuristic_selects strictWeak_ints (linePair [0, 1, 2, -3]) (by decide)
    (by decide : 1 ≤ 2), by decide⟩

/-- Of the points 1 and -1 only the first is picked, and nothing that was kept is closer to the other
one, which is just as far from the base point. -/
theorem tied_candidate_left_out :
    ∃ cs kept, cs.Perm ((maxHeap ℤ).elems (lineHeap [0, 1, -1])) ∧
      (cs.Pairwise fun a b => candLt a b = true) ∧ Picked (covers (linePair [0, 1, -1])) 1 cs kept ∧
      ¬ ∀ c ∈ cs, c.2 ∉ selectNeighborsHeuristic (linePair [0, 1, -1]) (lineHeap [0, 1, -1]) 1 →
        ∀ last ∈ kept.getLast?, FloatOps.lt last.1 c.1 = false →
          ∃ r ∈ kept, FloatOps.lt (linePair [0, 1, -1] c.2 r.2) c.1 = true := by
  have hpicked := (pick_spec (covers (linePair [0, 1, -1])) 1
    (by decide : [((1 : ℤ), 1), (1, 2)].Nodup)).1
  have hkept : (pick (covers (linePair [0, 1, -1])) 1 [((1 : ℤ), 1), (1, 2)] [] []).1 = [(1, 1)] := by
    decide
  rw [hkept] at hpicked
  exact ⟨[(1, 1), (1, 2)], [(1, 1)], by decide, by decide, hpicked, by decide⟩

end Graph

end VectorSearch.Hnsw
