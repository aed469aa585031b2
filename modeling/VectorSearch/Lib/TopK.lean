import Mathlib.Tactic
import Mathlib.Data.Multiset.Sort

/-! # The k nearest of a multiset

`TopK d k all sel`: the list `sel` holds the `k` elements of the multiset `all` with the least `d`,
in non-decreasing order, or all of them if there are fewer.  Which of several elements at the
cutoff are selected is left open.  It is the same as being the first `k` entries of a sorted
arrangement of `all` (`topK_iff`); the values (`TopK.map_eq`) and the elements strictly inside the
cutoff (`TopK.count_eq`) are therefore determined.  A selection from the selections of several
parts is one from their union (`topK_sum`). -/

variable {α β ι D : Type} [DecidableEq α] [DecidableEq β] [LinearOrder D]

/-- The `k` elements of `all` with the least `d`. -/
structure TopK (d : α → D) (k : ℕ) (all : Multiset α) (sel : List α) : Prop where
  sorted : sel.Pairwise fun a b => d a ≤ d b
  le : (sel : Multiset α) ≤ all
  length : sel.length = min k all.card
  nearest : ∀ a ∈ sel, ∀ b ∈ all - (sel : Multiset α), d a ≤ d b

/-- The value `x` is below the `k`-th of `ds`, if there is one. -/
def Inside (k : ℕ) (ds : List D) (x : D) : Prop := ∀ y ∈ ds[k - 1]?, x < y

instance (k : ℕ) (ds : List D) : DecidablePred (Inside k ds) := fun x =>
  match h : ds[k - 1]? with
  | none => isTrue (by simp [Inside, h])
  | some y => decidable_of_iff (x < y) (by simp [Inside, h])

variable {d : α → D} {k : ℕ} {all : Multiset α} {sel : List α}

/-! ### Selections are the beginnings of sorted arrangements -/

theorem topK_take {l : List α} (h : l.Pairwise fun a b => d a ≤ d b) (k : ℕ) :
    TopK d k l (l.take k) := by
  have hl : (l : Multiset α) - (l.take k : Multiset α) = (l.drop k : Multiset α) := by
    conv_lhs => rw [← List.take_append_drop k l, ← Multiset.coe_add, List.take_append_drop]
    exact add_tsub_cancel_left _ _
  refine ⟨h.sublist (List.take_sublist k l), (List.take_sublist k l).subperm, by simp, ?_⟩
  rw [hl]
  rw [← List.take_append_drop k l, List.pairwise_append] at h
  exact fun a ha b hb => h.2.2 a ha b (by simpa using hb)

/-- **A selection is the beginning of a sorted arrangement.** -/
theorem topK_iff :
    TopK d k all sel ↔
      ∃ rest : List α, (sel ++ rest).Pairwise (fun a b => d a ≤ d b) ∧
        ((sel ++ rest : List α) : Multiset α) = all ∧ sel = (sel ++ rest).take k := by
  constructor
  · intro h
    let rest := (all - (sel : Multiset α)).toList.mergeSort fun a b => decide (d a ≤ d b)
    have hrest : (rest : Multiset α) = all - (sel : Multiset α) := by
      rw [Multiset.coe_eq_coe.mpr (List.mergeSort_perm _ _), Multiset.coe_toList]
    have hall : ((sel ++ rest : List α) : Multiset α) = all := by
      rw [← Multiset.coe_add, hrest, add_tsub_cancel_of_le h.le]
    refine ⟨rest, ?_, hall, ?_⟩
    · rw [List.pairwise_append]
      refine ⟨h.sorted, ?_, fun a ha b hb => h.nearest a ha b ?_⟩
      · have htrans : ∀ a b c : α, decide (d a ≤ d b) = true → decide (d b ≤ d c) = true →
            decide (d a ≤ d c) = true := by simpa using fun a b c => le_trans
        have htotal : ∀ a b : α, (decide (d a ≤ d b) || decide (d b ≤ d a)) = true := by
          simpa using fun a b => le_total (d a) (d b)
        simpa using List.pairwise_mergeSort htrans htotal _
      · rw [← hrest]
        simpa using hb
    · have hlen : sel.length = min k (sel ++ rest).length := by
        rw [h.length, ← hall, Multiset.coe_card]
      obtain hk | hk := Nat.le_total k (sel ++ rest).length
      · rw [min_eq_left hk] at hlen
        rw [← hlen, List.take_left]
      · rw [min_eq_right hk, List.length_append] at hlen
        have : rest = [] := List.length_eq_zero_iff.mp (by omega)
        rw [List.take_of_length_le hk, this, List.append_nil]
  · rintro ⟨rest, hs, rfl, ht⟩
    have h := topK_take hs k
    rwa [← ht] at h

/-! ### What a selection determines -/

/-- The selected values are the least ones. -/
theorem TopK.map_eq (h : TopK d k all sel) : sel.map d = (all.map d).sort.take k := by
  obtain ⟨rest, hs, rfl, ht⟩ := topK_iff.mp h
  have hsort : (((sel ++ rest : List α) : Multiset α).map d).sort = (sel ++ rest).map d := by
    refine List.Perm.eq_of_pairwise' (r := (· ≤ ·)) (Multiset.pairwise_sort _ _)
      (List.pairwise_map.mpr hs) ?_
    rw [← Multiset.coe_eq_coe, Multiset.sort_eq, Multiset.map_coe]
  rw [hsort, ← List.map_take, ← ht]

/-- The elements strictly inside the cutoff are all selected. -/
theorem TopK.count_eq (hk : 0 < k) (h : TopK d k all sel) {a : α}
    (ha : Inside k (sel.map d) (d a)) : sel.count a = all.count a := by
  obtain ⟨rest, hs, rfl, ht⟩ := topK_iff.mp h
  rw [Multiset.coe_count, List.count_append, Nat.left_eq_add, List.count_eq_zero]
  intro hrest
  -- there is a rest, so the selection has a last entry, which is no farther than `a`
  have hlen : sel.length = k := by
    have hlen := congrArg List.length ht
    have := List.length_pos_of_mem hrest
    simp only [List.length_take, List.length_append] at hlen
    omega
  have hlt : k - 1 < sel.length := by omega
  have hy : d sel[k - 1] ∈ (sel.map d)[k - 1]? := by simp [hlt]
  have hle := (List.pairwise_append.mp hs).2.2 _ (List.getElem_mem hlt) a hrest
  exact absurd (ha _ hy) (not_lt.mpr hle)

/-- Forgetting what does not matter for `d`. -/
theorem TopK.map {f : β → α} {all : Multiset β} {sel : List β}
    (h : TopK (fun b => d (f b)) k all sel) : TopK d k (all.map f) (sel.map f) := by
  obtain ⟨rest, hs, rfl, ht⟩ := topK_iff.mp h
  refine topK_iff.mpr ⟨rest.map f, ?_, ?_, ?_⟩
  · rw [← List.map_append, List.pairwise_map]
    exact hs
  · rw [← List.map_append, Multiset.map_coe]
  · rw [← List.map_append, ← List.map_take, ← ht]

/-! ### Selections from selections -/

/-- Elements no nearer than `k` of those there do not change the selection. -/
theorem TopK.add_far (h : TopK d k all sel) {near far : Multiset α} (hle : near ≤ all)
    (hcard : near.card = k) (hfar : ∀ a ∈ near, ∀ b ∈ far, d a ≤ d b) :
    TopK d k (all + far) sel := by
  have hk : k ≤ all.card := hcard ▸ Multiset.card_le_card hle
  have hlen : sel.length = k := by rw [h.length, min_eq_left hk]
  refine ⟨h.sorted, h.le.trans (Multiset.le_add_right _ _), ?_, fun a ha b hb => ?_⟩
  · rw [hlen, Multiset.card_add, min_eq_left (by omega)]
  rw [tsub_add_eq_add_tsub h.le |>.symm, Multiset.mem_add] at hb
  cases hb with
  | inl hb => exact h.nearest a ha b hb
  | inr hb =>
    by_cases hnear : near ≤ sel
    · -- then the selection is `near` itself
      have heq : near = sel := Multiset.eq_of_le_of_card_le hnear (by simp [hlen, hcard])
      exact hfar a (by simpa [heq] using ha) b hb
    · -- otherwise one of `near` was left out, and separates `a` from `b`
      obtain ⟨c, hc⟩ := not_forall.mp (mt Multiset.le_iff_count.mpr hnear)
      have hcn : c ∈ near := Multiset.count_pos.mp (by omega)
      have hca : c ∈ all - (sel : Multiset α) := by
        rw [← Multiset.count_pos, Multiset.count_sub]
        have := Multiset.le_iff_count.mp hle c
        omega
      exact (h.nearest a ha c hca).trans (hfar c hcn b hb)

/-- One of the parts may be replaced by a selection from it. -/
theorem TopK.of_add {own : Multiset α} {part : List α} (hpart : TopK d k own part)
    (h : TopK d k (part + all) sel) : TopK d k (own + all) sel := by
  obtain ⟨rest, hs, rfl, ht⟩ := topK_iff.mp hpart
  rw [← Multiset.coe_add, add_right_comm]
  cases rest with
  | nil => simpa using h
  | cons b rest =>
    have hlen : part.length = k := by
      have hlen := congrArg List.length ht
      simp only [List.length_take, List.length_append, List.length_cons] at hlen
      omega
    refine h.add_far (Multiset.le_add_right _ _) (by simpa using hlen) fun a ha b hb => ?_
    exact (List.pairwise_append.mp hs).2.2 a (by simpa using ha) b (by simpa using hb)

/-- **A selection from the selections of the parts is one from their union.** -/
theorem topK_sum {own : ι → Multiset α} {part : ι → List α} (s : List ι)
    (hparts : ∀ i ∈ s, TopK d k (own i) (part i))
    (h : TopK d k ((s.map fun i => (part i : Multiset α)).sum + all) sel) :
    TopK d k ((s.map own).sum + all) sel := by
  induction s generalizing all with
  | nil => exact h
  | cons i s ih =>
    simp only [List.map_cons, List.sum_cons, add_assoc, List.forall_mem_cons] at hparts h ⊢
    have h := hparts.1.of_add h
    rw [add_left_comm] at h ⊢
    exact ih hparts.2 h
