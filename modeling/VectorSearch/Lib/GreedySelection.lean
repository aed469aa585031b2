import Mathlib.Tactic
import Mathlib.Data.List.Nodup

/-! # Greedy selection

A list is scanned from the front, and an element is kept unless one that was kept before covers it,
until `M` are kept.  `Picked covers M cs kept` says without a scan which elements these are.  `pick`
is the scan, which also lists the elements it rejected.

* `Picked.covered`: an element in front of a kept one that is not kept is covered by a kept one in
  front of it.
* `pick_spec`: the scan of a list without repetitions keeps the greedy selection, and if that has
  fewer than `M` elements it has rejected all others. -/

namespace Greedy

variable {α : Type} [DecidableEq α] {covers : α → α → Bool} {M : ℕ} {cs kept rejected : List α}

/-- `kept` is the greedy selection of at most `M` elements of `cs`: an element is kept exactly if
fewer than `M` of those in front of it are kept and none of these covers it. -/
structure Picked (covers : α → α → Bool) (M : ℕ) (cs kept : List α) : Prop where
  sublist : kept.Sublist cs
  mem_iff : ∀ {pre c post}, cs = pre ++ c :: post → (c ∈ kept ↔
    (pre.filter (· ∈ kept)).length < M ∧ ∀ r ∈ pre, r ∈ kept → covers r c = false)

/-- Scan a list, with the elements kept and rejected so far. -/
def pick (covers : α → α → Bool) (M : ℕ) : List α → List α → List α → List α × List α
  | [], kept, rejected => (kept, rejected)
  | c :: cs, kept, rejected =>
      if M ≤ kept.length then (kept, rejected)
      else if kept.any fun r => covers r c then pick covers M cs kept (rejected ++ [c])
      else pick covers M cs (kept ++ [c]) rejected

/-! ### The selection -/

/-- A sublist of a list without repetitions is a filter of it. -/
theorem filter_mem_sublist (h : kept.Sublist cs) (hcs : cs.Nodup) :
    cs.filter (· ∈ kept) = kept := by
  have hself : kept.filter (· ∈ kept) = kept := List.filter_eq_self.mpr fun a ha => by simpa using ha
  have hsub := h.filter (· ∈ kept)
  rw [hself] at hsub
  refine (hsub.eq_of_length_le ?_).symm
  refine (List.subperm_of_subset (hcs.filter _) fun a ha => ?_).length_le
  simpa using (List.mem_filter.mp ha).2

/-- Where a later element is kept, one that is not was covered. -/
theorem Picked.covered (h : Picked covers M cs kept) {pre mid post : List α} {c last : α}
    (hcs : cs = pre ++ c :: (mid ++ last :: post)) (hc : c ∉ kept) (hlast : last ∈ kept) :
    ∃ r ∈ pre, r ∈ kept ∧ covers r c = true := by
  have hsplit : cs = (pre ++ c :: mid) ++ last :: post := by rw [hcs]; simp
  have hfew := ((h.mem_iff hsplit).mp hlast).1
  have hle : (pre.filter (· ∈ kept)).length ≤ ((pre ++ c :: mid).filter (· ∈ kept)).length := by
    rw [List.filter_append, List.length_append]
    exact Nat.le_add_right _ _
  by_contra hnone
  refine hc ((h.mem_iff hcs).mpr ⟨by omega, fun r hr hrk => ?_⟩)
  by_contra hcov
  exact hnone ⟨r, hr, hrk, by simpa using hcov⟩

/-! ### The scan -/

variable {done : List α} {c : α}

/-- A new element leaves the decisions on the others. -/
theorem Picked.snoc {kept' : List α} (h : Picked covers M done kept) (hdone : done.Nodup)
    (hsub : kept'.Sublist (done ++ [c])) (hsame : ∀ a ∈ done, a ∈ kept' ↔ a ∈ kept)
    (hnew : c ∈ kept' ↔ kept.length < M ∧ ∀ r ∈ kept, covers r c = false) :
    Picked covers M (done ++ [c]) kept' := by
  have hfilter : ∀ pre : List α, pre ⊆ done →
      pre.filter (· ∈ kept') = pre.filter (· ∈ kept) := by
    intro pre hpre
    refine List.filter_congr fun a ha => ?_
    simp only [hsame a (hpre ha)]
  refine ⟨hsub, @fun pre a post hsplit => ?_⟩
  obtain rfl | ⟨post, b, rfl⟩ := List.eq_nil_or_concat post
  · -- the new element is the last one
    obtain ⟨rfl, hlast⟩ := List.append_inj' hsplit rfl
    obtain rfl := (List.cons.inj hlast).1
    rw [hnew, hfilter done (List.Subset.refl _), filter_mem_sublist h.sublist hdone]
    refine and_congr_right fun _ => ⟨fun hall r hr hrk => ?_, fun hall r hr => ?_⟩
    · exact hall r ((hsame r hr).mp hrk)
    · have hrd := h.sublist.subset hr
      exact hall r hrd ((hsame r hrd).mpr hr)
  · have hold : done = pre ++ a :: post := by
      have hassoc : done ++ [c] = (pre ++ a :: post) ++ [b] := by rw [hsplit]; simp
      exact (List.append_inj' hassoc rfl).1
    have hpre : pre ⊆ done := fun x hx => by rw [hold]; exact List.mem_append_left _ hx
    have ha : a ∈ done := by rw [hold]; simp
    rw [hsame a ha, h.mem_iff hold, hfilter pre hpre]
    refine and_congr_right fun _ => forall₂_congr fun r hr => ?_
    rw [hsame r (hpre hr)]

/-- An element that is not kept: enough are kept, or one of them covers it. -/
theorem Picked.leave (h : Picked covers M done kept) (hdone : (done ++ [c]).Nodup)
    (hwhy : M ≤ kept.length ∨ ∃ r ∈ kept, covers r c = true) :
    Picked covers M (done ++ [c]) kept := by
  have hnot : c ∉ kept := fun hc =>
    (List.nodup_append.mp hdone).2.2 c (h.sublist.subset hc) c List.mem_cons_self rfl
  refine h.snoc (List.nodup_append.mp hdone).1 (h.sublist.trans (List.sublist_append_left _ _))
    (fun _ _ => Iff.rfl) (iff_of_false hnot ?_)
  rintro ⟨hlt, hall⟩
  obtain hfull | ⟨r, hr, hcov⟩ := hwhy
  · omega
  · rw [hall r hr] at hcov
    cases hcov

/-- An element that is kept. -/
theorem Picked.keep (h : Picked covers M done kept) (hdone : (done ++ [c]).Nodup)
    (hroom : kept.length < M) (hfree : ∀ r ∈ kept, covers r c = false) :
    Picked covers M (done ++ [c]) (kept ++ [c]) := by
  refine h.snoc (List.nodup_append.mp hdone).1 (h.sublist.append (List.Sublist.refl _))
    (fun a ha => ?_) (iff_of_true (by simp) ⟨hroom, hfree⟩)
  have hne : a ≠ c := (List.nodup_append.mp hdone).2.2 a ha c List.mem_cons_self
  simp [hne]

/-- Elements behind the ones that are enough. -/
theorem Picked.leave_all (h : Picked covers M done kept) (hfull : M ≤ kept.length) :
    ∀ {rest : List α}, (done ++ rest).Nodup → Picked covers M (done ++ rest) kept := by
  intro rest
  induction rest using List.reverseRecOn with
  | nil =>
    intro _
    rwa [List.append_nil]
  | append_singleton rest a ih =>
    intro hnodup
    rw [← List.append_assoc] at hnodup ⊢
    exact (ih (List.nodup_append.mp hnodup).1).leave hnodup (Or.inl hfull)

/-- **The scan makes the greedy selection**, and rejects everything else unless it finds enough. -/
theorem pick_scanned : ∀ {cs done kept : List α}, (done ++ cs).Nodup →
    Picked covers M done kept → kept.length ≤ M →
    Picked covers M (done ++ cs) (pick covers M cs kept (done.filter (· ∉ kept))).1 ∧
      (pick covers M cs kept (done.filter (· ∉ kept))).1.length ≤ M ∧
      ((pick covers M cs kept (done.filter (· ∉ kept))).1.length < M →
        (pick covers M cs kept (done.filter (· ∉ kept))).2 =
          (done ++ cs).filter (· ∉ (pick covers M cs kept (done.filter (· ∉ kept))).1))
  | [], done, kept, _, h, hle => by
      rw [pick, List.append_nil]
      exact ⟨h, hle, fun _ => rfl⟩
  | c :: cs, done, kept, hnodup, h, hle => by
      have hsnoc : done ++ c :: cs = (done ++ [c]) ++ cs := by simp
      have hnew : (done ++ [c]).Nodup := by
        rw [hsnoc] at hnodup
        exact (List.nodup_append.mp hnodup).1
      have hnot : c ∉ kept := fun hc =>
        (List.nodup_append.mp hnew).2.2 c (h.sublist.subset hc) c List.mem_cons_self rfl
      unfold pick
      split_ifs with hfull hany
      · exact ⟨h.leave_all hfull hnodup, hle, fun hlt => absurd hfull (not_le.mpr hlt)⟩
      · have hrej : done.filter (· ∉ kept) ++ [c] = (done ++ [c]).filter (· ∉ kept) := by
          simp [hnot]
        rw [hrej, hsnoc]
        rw [hsnoc] at hnodup
        exact pick_scanned hnodup (h.leave hnew (Or.inr (by simpa using hany))) hle
      · have hrej : done.filter (· ∉ kept) = (done ++ [c]).filter (· ∉ kept ++ [c]) := by
          have hdone : ∀ a ∈ done, decide (a ∉ kept ++ [c]) = decide (a ∉ kept) := by
            intro a ha
            have hne : a ≠ c := (List.nodup_append.mp hnew).2.2 a ha c List.mem_cons_self
            simp [hne]
          rw [List.filter_append, List.filter_congr hdone]
          simp
        rw [hrej, hsnoc]
        rw [hsnoc] at hnodup
        have hroom : kept.length < M := by omega
        refine pick_scanned hnodup (h.keep hnew hroom fun r hr => ?_) (by simpa using hroom)
        by_contra hcov
        exact hany (List.any_eq_true.mpr ⟨r, hr, by simpa using hcov⟩)

variable (covers M) in
/-- **The scan of a list without repetitions.** -/
theorem pick_spec (hcs : cs.Nodup) :
    Picked covers M cs (pick covers M cs [] []).1 ∧
      (pick covers M cs [] []).1.length ≤ M ∧
      ((pick covers M cs [] []).1.length < M →
        (pick covers M cs [] []).2 = cs.filter (· ∉ (pick covers M cs [] []).1)) := by
  have hnil : Picked covers M [] [] := ⟨List.Sublist.refl _, fun h => by simp at h⟩
  have h := pick_scanned (by simpa using hcs : ([] ++ cs).Nodup) hnil (Nat.zero_le M)
  simpa using h

end Greedy
