import VectorSearch.Hnsw.ConcurrentInsert

/-! # Ids at the capacity

A call takes its id by counting first and looking at the capacity afterwards; when the index was full
it counts back.  `Alloc p s n R` is the invariant: `n` ids are given, the calls of the threads `R` have
counted too far and not yet back, which only happens when the index is full, and the count is off by
their number.  Every move keeps it while the count has 32 bits (`Move.alloc`).

`ids_exact`: while the capacity and the calls in progress leave the ids in range, the ids that were
given are 0, 1 and so on, each given once, and no call fails below capacity. -/

namespace VectorSearch.Hnsw

section
variable {F : Type} [Platform F] {p : Params} {pair : ℕ → ℕ → F}

/-- The id of a call that does not fail. -/
def Task.given (p : Params) : Task F → Option ℕ
  | .idle => none
  | .counted id => if id < p.maxElements then some id else none
  | .ready id _ => some id
  | .probed id _ _ => some id
  | .inside _ id _ _ _ => some id

/-- The call is between its `fetch_add` and its `fetch_sub`. -/
def Task.Rejected (p : Params) : Task F → Prop
  | .counted id => p.maxElements ≤ id
  | _ => False

section
variable (id level : ℕ) (becomesEntry : Bool) (mode : RwLock.Mode) (curMaxLevel : ℤ) (job : Job F)

@[simp] theorem Task.given_idle : (Task.idle : Task F).given p = none := rfl
@[simp] theorem Task.given_ready : (Task.ready id level : Task F).given p = some id := rfl
@[simp] theorem Task.given_probed :
    (Task.probed id level becomesEntry : Task F).given p = some id := rfl
@[simp] theorem Task.given_inside :
    (Task.inside mode id level curMaxLevel job).given p = some id := rfl

@[simp] theorem Task.rejected_counted :
    (Task.counted id : Task F).Rejected p ↔ p.maxElements ≤ id := Iff.rfl
@[simp] theorem Task.not_rejected_idle : ¬ (Task.idle : Task F).Rejected p := id
@[simp] theorem Task.not_rejected_ready : ¬ (Task.ready id level : Task F).Rejected p := fun h => h
@[simp] theorem Task.not_rejected_probed :
    ¬ (Task.probed id level becomesEntry : Task F).Rejected p := fun h => h
@[simp] theorem Task.not_rejected_inside :
    ¬ (Task.inside mode id level curMaxLevel job).Rejected p := fun h => h

end

theorem Task.given_of_lt {id : ℕ} (h : id < p.maxElements) :
    (Task.counted id : Task F).given p = some id := if_pos h

theorem Task.given_of_rejected {task : Task F} (h : task.Rejected p) : task.given p = none := by
  cases task with
  | counted id => exact if_neg (not_lt.mpr h)
  | idle | ready | probed | inside => exact h.elim

namespace Inserts

/-- The id was given to a call. -/
def Given (p : Params) (s : Inserts F) (id : ℕ) : Prop :=
  (∃ t, (s.threads t).given p = some id) ∨ id ∈ s.returned

/-! ### The invariant -/

/-- `n` ids are given, and the threads `R` have counted too far. -/
structure Alloc (p : Params) (s : Inserts F) (n : ℕ) (R : Finset ℕ) : Prop where
  count_eq : s.count = n + R.card
  le : n ≤ p.maxElements
  rejected : ∀ t, t ∈ R ↔ (s.threads t).Rejected p
  full : R.Nonempty ∨ 0 < s.full → n = p.maxElements
  given : ∀ id, id < n ↔ s.Given p id
  inj : ∀ {t u id}, (s.threads t).given p = some id → (s.threads u).given p = some id → t = u
  nodup : s.returned.Nodup
  apart : ∀ {t id}, (s.threads t).given p = some id → id ∉ s.returned

variable {s s' : Inserts F} {t n : ℕ} {R : Finset ℕ}

theorem Alloc.start : Alloc p (start : Inserts F) 0 ∅ where
  count_eq := rfl
  le := Nat.zero_le _
  rejected t := iff_of_false (Finset.notMem_empty t) Task.not_rejected_idle
  full h := by simp [Inserts.start] at h
  given id := by simp [Inserts.start, Given]
  inj h := nomatch h
  nodup := List.nodup_nil
  apart h := nomatch h

/-- A step that gives no id and takes none back. -/
theorem Alloc.recount (h : Alloc p s n R) {R' : Finset ℕ} (hcount : s'.count = n + R'.card)
    (hreturned : s'.returned = s.returned)
    (hgiven : ∀ u, (s'.threads u).given p = (s.threads u).given p)
    (hrejected : ∀ u, u ∈ R' ↔ (s'.threads u).Rejected p)
    (hfull : R'.Nonempty ∨ 0 < s'.full → n = p.maxElements) : Alloc p s' n R' where
  count_eq := hcount
  le := h.le
  rejected := hrejected
  full := hfull
  given id := by
    unfold Given
    rw [hreturned]
    simp only [hgiven]
    exact h.given id
  inj ht hu := h.inj (hgiven _ ▸ ht) (hgiven _ ▸ hu)
  nodup := hreturned ▸ h.nodup
  apart ht := hreturned ▸ h.apart (hgiven _ ▸ ht)

/-- A step that counts nothing, either. -/
theorem Alloc.same (h : Alloc p s n R) (hcount : s'.count = s.count) (hfull : s'.full = s.full)
    (hreturned : s'.returned = s.returned)
    (hgiven : ∀ u, (s'.threads u).given p = (s.threads u).given p)
    (hrejected : ∀ u, (s'.threads u).Rejected p ↔ (s.threads u).Rejected p) : Alloc p s' n R :=
  h.recount (hcount ▸ h.count_eq) hreturned hgiven
    (fun u => (h.rejected u).trans (hrejected u).symm) (hfull ▸ h.full)

/-- A thread goes on with the node that it was given. -/
theorem Alloc.setThread (h : Alloc p s n R) {id : ℕ} {task : Task F}
    (ht : (s.threads t).given p = some id) (htask : task.given p = some id) :
    Alloc p (s.setThread t task) n R := by
  have hnot : ∀ {task : Task F}, task.given p = some id → ¬ task.Rejected p := by
    intro task hgiven hrejected
    rw [Task.given_of_rejected hrejected] at hgiven
    cases hgiven
  refine h.same rfl rfl rfl (fun u => ?_) fun u => ?_
  · by_cases hu : u = t
    · rw [hu, threads_self, htask, ht]
    · rw [threads_of_ne _ _ hu]
  · by_cases hu : u = t
    · rw [hu, threads_self]
      exact iff_of_false (hnot htask) (hnot ht)
    · rw [threads_of_ne _ _ hu]

/-- The graph and the lock do not matter. -/
theorem Alloc.congr (h : Alloc p s n R) (graph : Graph) (entryLock : RwLock ℕ) :
    Alloc p { s with graph, entryLock } n R :=
  h.same rfl rfl rfl (fun _ => rfl) fun _ => Iff.rfl

/-! ### The steps -/

theorem threads_take (hlt : s.count < 2 ^ 32) : (s.take t).threads t = .counted s.count := by
  unfold Inserts.take
  rw [threads_self, Nat.mod_eq_of_lt hlt]

theorem threads_take_of_ne {u : ℕ} (hu : u ≠ t) : (s.take t).threads u = s.threads u :=
  threads_of_ne _ _ hu

/-- While there is room nobody has counted too far, and the count is the next id. -/
theorem Alloc.take_of_room (h : Alloc p s n R) (hidle : s.threads t = .idle)
    (hlt : s.count < 2 ^ 32) (hroom : s.count < p.maxElements) : Alloc p (s.take t) (n + 1) ∅ := by
  have hempty : R = ∅ := by
    by_contra hne
    have hn := h.full (Or.inl (Finset.nonempty_iff_ne_empty.mpr hne))
    have hcount := h.count_eq
    omega
  subst hempty
  have hcount : s.count = n := h.count_eq
  have hgiven : ((s.take t).threads t).given p = some n := by
    rw [threads_take hlt, hcount, Task.given_of_lt (hcount ▸ hroom)]
  have hnew : ∀ u, (s.threads u).given p ≠ some n := fun u hu =>
    absurd ((h.given n).mpr (Or.inl ⟨u, hu⟩)) (lt_irrefl n)
  have hunreturned : n ∉ s.returned := fun hmem =>
    absurd ((h.given n).mpr (Or.inr hmem)) (lt_irrefl n)
  refine ⟨congrArg (· + 1) hcount, hcount ▸ hroom, fun u => ?_, fun hf => ?_, fun id => ?_,
    fun {u v id} hu hv => ?_, h.nodup, fun {u id} hu => ?_⟩
  · by_cases hu : u = t
    · rw [hu, threads_take hlt]
      exact iff_of_false (Finset.notMem_empty t) (not_le.mpr hroom)
    · rw [threads_take_of_ne hu]
      exact h.rejected u
  · have hn := h.full hf
    omega
  · rw [Nat.lt_succ_iff_lt_or_eq, h.given id]
    constructor
    · rintro ((⟨u, hu⟩ | hret) | rfl)
      · have hne : u ≠ t := by
          rintro rfl
          rw [hidle] at hu
          cases hu
        exact Or.inl ⟨u, by rwa [threads_take_of_ne hne]⟩
      · exact Or.inr hret
      · exact Or.inl ⟨t, hgiven⟩
    · rintro (⟨u, hu⟩ | hret)
      · by_cases hut : u = t
        · rw [hut, hgiven] at hu
          exact Or.inr (Option.some.inj hu).symm
        · rw [threads_take_of_ne hut] at hu
          exact Or.inl (Or.inl ⟨u, hu⟩)
      · exact Or.inl (Or.inr hret)
  · by_cases hut : u = t <;> by_cases hvt : v = t
    · rw [hut, hvt]
    · rw [hut, hgiven] at hu
      rw [threads_take_of_ne hvt, ← hu] at hv
      exact absurd hv (hnew v)
    · rw [hvt, hgiven] at hv
      rw [threads_take_of_ne hut, ← hv] at hu
      exact absurd hu (hnew u)
    · rw [threads_take_of_ne hut] at hu
      rw [threads_take_of_ne hvt] at hv
      exact h.inj hu hv
  · by_cases hut : u = t
    · rw [hut, hgiven] at hu
      exact Option.some.inj hu ▸ hunreturned
    · rw [threads_take_of_ne hut] at hu
      exact h.apart hu

/-- In a full index a call counts too far. -/
theorem Alloc.take_of_full (h : Alloc p s n R) (hidle : s.threads t = .idle)
    (hlt : s.count < 2 ^ 32) (hfull : p.maxElements ≤ s.count) :
    Alloc p (s.take t) n (insert t R) := by
  have htR : t ∉ R := fun hmem => by
    have hrej := (h.rejected t).mp hmem
    rw [hidle] at hrej
    exact hrej
  have hcount := h.count_eq
  have hn : n = p.maxElements := by
    by_cases hne : R.Nonempty
    · exact h.full (Or.inl hne)
    · have hle := h.le
      rw [Finset.not_nonempty_iff_eq_empty.mp hne, Finset.card_empty] at hcount
      omega
  have hrejected : ((s.take t).threads t).Rejected p := by
    rw [threads_take hlt]
    exact hfull
  refine h.recount ?_ rfl (fun u => ?_) (fun u => ?_) fun _ => hn
  · rw [Finset.card_insert_of_notMem htR]
    exact congrArg (· + 1) hcount
  · by_cases hu : u = t
    · rw [hu, Task.given_of_rejected hrejected, hidle, Task.given_idle]
    · rw [threads_take_of_ne hu]
  · by_cases hu : u = t
    · rw [hu]
      exact iff_of_true (Finset.mem_insert_self t R) hrejected
    · rw [Finset.mem_insert, threads_take_of_ne hu, or_iff_right hu]
      exact h.rejected u

/-- The next id is the number of those that were given, or is too high because the index is full. -/
theorem Alloc.take (h : Alloc p s n R) (hidle : s.threads t = .idle) (hlt : s.count < 2 ^ 32) :
    ∃ n' R', n ≤ n' ∧ Alloc p (s.take t) n' R' := by
  obtain hroom | hfull := Nat.lt_or_ge s.count p.maxElements
  · exact ⟨n + 1, ∅, Nat.le_succ n, h.take_of_room hidle hlt hroom⟩
  · exact ⟨n, insert t R, le_rfl, h.take_of_full hidle hlt hfull⟩

/-- A call that counted too far counts back and fails. -/
theorem Alloc.reject (h : Alloc p s n R) (hrej : (s.threads t).Rejected p) :
    Alloc p (s.reject t) n (R.erase t) := by
  have hmem := (h.rejected t).mpr hrej
  have hn := h.full (Or.inl ⟨t, hmem⟩)
  refine h.recount ?_ rfl (fun u => ?_) (fun u => ?_) fun _ => hn
  · have hcount := h.count_eq
    have hpos := Finset.card_pos.mpr ⟨t, hmem⟩
    have hback : (s.reject t).count = s.count - 1 := rfl
    rw [hback, Finset.card_erase_of_mem hmem]
    omega
  · by_cases hu : u = t
    · rw [hu, Inserts.reject, threads_self, Task.given_of_rejected hrej, Task.given_idle]
    · rw [Inserts.reject, threads_of_ne _ _ hu]
  · by_cases hu : u = t
    · rw [hu, Inserts.reject, threads_self]
      exact iff_of_false (Finset.notMem_erase t R) Task.not_rejected_idle
    · rw [Finset.mem_erase, Inserts.reject, threads_of_ne _ _ hu, and_iff_right hu]
      exact h.rejected u

/-- A call returns its id. -/
theorem Alloc.release (h : Alloc p s n R) {id : ℕ} (hgiven : (s.threads t).given p = some id)
    (mode : RwLock.Mode) : Alloc p (s.release t id mode) n R := by
  have hself : (s.release t id mode).threads t = .idle := threads_self _ _ _
  have hother : ∀ {u}, u ≠ t → (s.release t id mode).threads u = s.threads u := fun hu =>
    threads_of_ne _ _ hu
  have hnot : ¬ (s.threads t).Rejected p := fun hrej => by
    rw [Task.given_of_rejected hrej] at hgiven
    cases hgiven
  have hne : ∀ {u i}, ((s.release t id mode).threads u).given p = some i → u ≠ t := by
    rintro u i hu rfl
    rw [hself] at hu
    cases hu
  refine ⟨h.count_eq, h.le, fun u => ?_, h.full, fun i => ?_, fun hu hv => ?_,
    List.nodup_cons.mpr ⟨h.apart hgiven, h.nodup⟩, fun {u i} hu => ?_⟩
  · by_cases hu : u = t
    · rw [h.rejected u, hu, hself]
      exact iff_of_false hnot Task.not_rejected_idle
    · rw [hother hu]
      exact h.rejected u
  · rw [h.given i]
    constructor
    · rintro (⟨u, hu⟩ | hret)
      · by_cases hut : u = t
        · rw [hut, hgiven] at hu
          exact Or.inr (Option.some.inj hu ▸ List.mem_cons_self)
        · exact Or.inl ⟨u, by rwa [hother hut]⟩
      · exact Or.inr (List.mem_cons_of_mem _ hret)
    · rintro (⟨u, hu⟩ | hret)
      · exact Or.inl ⟨u, by rwa [hother (hne hu)] at hu⟩
      · obtain rfl | hret := List.mem_cons.mp hret
        · exact Or.inl ⟨t, hgiven⟩
        · exact Or.inr hret
  · have hu' := hother (hne hu)
    have hv' := hother (hne hv)
    exact h.inj (hu' ▸ hu) (hv' ▸ hv)
  · have hut := hne hu
    rw [hother hut] at hu
    intro hmem
    obtain rfl | hmem := List.mem_cons.mp hmem
    · exact hut (h.inj hu hgiven)
    · exact h.apart hu hmem

/-- **Every move keeps the allocation exact**, while the ids have room in 32 bits. -/
theorem Move.alloc (hm : Move p pair s t s') (h : Alloc p s n R)
    (hlt : s.threads t = .idle → s.count < 2 ^ 32) : ∃ n' R', n ≤ n' ∧ Alloc p s' n' R' := by
  cases hm with
  | take hph => exact h.take hph (hlt hph)
  | reject hph hfull =>
      exact ⟨n, R.erase t, le_rfl, h.reject (by rw [hph]; exact hfull)⟩
  | fill level hph hroom =>
      refine ⟨n, R, le_rfl, (h.congr _ s.entryLock).setThread ?_ (Task.given_ready _ level)⟩
      exact (congrArg (Task.given p) hph).trans (Task.given_of_lt hroom)
  | probe hph =>
      exact ⟨n, R, le_rfl, h.setThread (congrArg (Task.given p) hph) rfl⟩
  | acquire hph =>
      exact ⟨n, R, le_rfl, (h.congr s.graph _).setThread (congrArg (Task.given p) hph) rfl⟩
  | work hph | promote hph =>
      exact ⟨n, R, le_rfl, (h.congr _ s.entryLock).setThread (congrArg (Task.given p) hph) rfl⟩
  | keep hph =>
      exact ⟨n, R, le_rfl, h.setThread (congrArg (Task.given p) hph) rfl⟩
  | release hph =>
      exact ⟨n, R, le_rfl, h.release (congrArg (Task.given p) hph) _⟩

/-! ### Runs -/

/-- The capacity and the calls in progress leave the ids in range. -/
def InRange (p : Params) (s : Inserts F) : Prop :=
  ∀ T : Finset ℕ, (∀ t ∈ T, s.threads t ≠ .idle) → p.maxElements + T.card < 2 ^ 32 - 1

/-- The ids that were given to calls that do not fail are the first `n`, each given once; a call only
fails when the index is full, and the count is right when no call has to count back. -/
structure Exact (p : Params) (s : Inserts F) (n : ℕ) : Prop where
  given : ∀ id, id < n ↔ s.Given p id
  inj : ∀ {t u id}, (s.threads t).given p = some id → (s.threads u).given p = some id → t = u
  nodup : s.returned.Nodup
  apart : ∀ {t id}, (s.threads t).given p = some id → id ∉ s.returned
  full : (0 < s.full ∨ ∃ t, (s.threads t).Rejected p) → n = p.maxElements
  count_eq : (∀ t, ¬ (s.threads t).Rejected p) → s.count = n

theorem Alloc.exact (h : Alloc p s n R) : Exact p s n where
  given := h.given
  inj := h.inj
  nodup := h.nodup
  apart := h.apart
  full hf := h.full (hf.elim Or.inr fun ⟨t, ht⟩ => Or.inl ⟨t, (h.rejected t).mpr ht⟩)
  count_eq hnone := by
    have hempty : R = ∅ :=
      Finset.eq_empty_of_forall_notMem fun t ht => hnone t ((h.rejected t).mp ht)
    rw [h.count_eq, hempty, Finset.card_empty, Nat.add_zero]

/-- With the ids in range after the next call has begun, its id is not cut. -/
theorem Alloc.count_lt (h : Alloc p s n R) (hidle : s.threads t = .idle)
    (hrange : (s.take t).InRange p) : s.count < 2 ^ 32 := by
  have htR : t ∉ R := fun hmem => by
    have hrej := (h.rejected t).mp hmem
    rw [hidle] at hrej
    exact hrej
  have hbusy : ∀ u ∈ insert t R, (s.take t).threads u ≠ .idle := by
    intro u hu hidle'
    by_cases hut : u = t
    · rw [hut, Inserts.take, threads_self] at hidle'
      cases hidle'
    · have hrej := (h.rejected u).mp ((Finset.mem_insert.mp hu).resolve_left hut)
      rw [Inserts.take, threads_of_ne _ _ hut] at hidle'
      rw [hidle'] at hrej
      exact hrej
  have hcard := hrange (insert t R) hbusy
  have hcount := h.count_eq
  have hle := h.le
  rw [Finset.card_insert_of_notMem htR] at hcard
  omega

/-- **Id allocation is exact at capacity**, in every run whose ids stay in range. -/
theorem ids_exact (h : Reached p pair (fun _ _ s' => s'.InRange p) s) : ∃ n, Exact p s n := by
  have halloc : ∃ n R, Alloc p s n R := by
    induction h with
    | start => exact ⟨0, ∅, Alloc.start⟩
    | step _ hstep hrange ih =>
        obtain ⟨n, R, hn⟩ := ih
        have hm := move_of_step hstep
        obtain ⟨n', R', -, hn'⟩ := hm.alloc hn fun hidle => by
          cases hm with
          | take hph => exact hn.count_lt hph hrange
          | reject hph | fill _ hph | probe hph | acquire hph | work hph | promote hph | keep hph
          | release hph =>
              rw [hidle] at hph
              cases hph
        exact ⟨n', R', hn'⟩
  obtain ⟨n, R, hn⟩ := halloc
  exact ⟨n, hn.exact⟩

/-- Threads from number `k` on that are idle. -/
theorem inRange_of_idle {k : ℕ} (hidle : ∀ t, k ≤ t → s.threads t = .idle)
    (hk : p.maxElements + k < 2 ^ 32 - 1) : s.InRange p := by
  intro T hT
  have hsub : T ⊆ Finset.range k := fun t ht =>
    Finset.mem_range.mpr (not_le.mp fun hle => hT t ht (hidle t hle))
  have hcard := Finset.card_le_card hsub
  rw [Finset.card_range] at hcard
  omega

open StandIn

def onePlace : Params := .smallest

/-- Two calls for one place: both have counted, and the second one fails. -/
theorem ids_exact_two :
    let s : Inserts ℤ := ((start.take 0).take 1).reject 1
    ∃ n, Exact onePlace s n ∧ s.full = 1 ∧ s.count = 1 := by
  intro s
  have hrange : ∀ s : Inserts ℤ, (∀ t, 2 ≤ t → s.threads t = .idle) → s.InRange onePlace :=
    fun s hs => inRange_of_idle hs (by decide)
  have hother : ∀ (s : Inserts ℤ) {t u : ℕ} (task : Task ℤ), t < 2 → 2 ≤ u →
      (s.setThread t task).threads u = s.threads u := fun s t u task ht hu =>
    threads_of_ne s task (by omega)
  have hstart : Reached onePlace (fun _ _ => 0) (fun _ _ s' => s'.InRange onePlace)
      (start : Inserts ℤ) := .start
  have htake₀ : (start : Inserts ℤ).step onePlace (fun _ _ => 0) 0 0 = some (start.take 0) := rfl
  have htake₁ : (start.take 0 : Inserts ℤ).step onePlace (fun _ _ => 0) 1 0 =
      some ((start.take 0).take 1) := rfl
  have hreject : ((start.take 0).take 1 : Inserts ℤ).step onePlace (fun _ _ => 0) 1 0 = some s := rfl
  have hfirst := hstart.step htake₀
    (hrange _ fun u hu => hother _ _ (by decide) hu)
  have hsecond := hfirst.step htake₁
    (hrange _ fun u hu => (hother _ _ (by decide) hu).trans (hother _ _ (by decide) hu))
  have hthird := hsecond.step hreject (hrange _ fun u hu =>
    (hother _ _ (by decide) hu).trans
      ((hother _ _ (by decide) hu).trans (hother _ _ (by decide) hu)))
  obtain ⟨n, hn⟩ := ids_exact hthird
  exact ⟨n, hn, rfl, rfl⟩

end Inserts

end

end VectorSearch.Hnsw
