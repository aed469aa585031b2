import VectorSearch.Hnsw.Graph

/-! # Visited marks

A `VisitedList` has a 16-bit mark for each node; a node is visited if its mark is the current epoch.
A reset only starts a new epoch, so the marks of up to 65535 earlier ones stay in the array until
the epoch wraps round.

`Stands v S` says that the marks of `v` stand for the set `S`.  As no mark is above the epoch
(`Ok`), they stand for the empty set after a reset (`Ok.stands_reset`), and `testAndSet` tells
whether an index is in the set and adds it (`testAndSet_spec`).

`Pool` is the pool with all the lists it ever made: those in it and those that its callers hold.  In
every run `testAndSet` tells whether the index was passed since the last reset of that list
(`testAndSet_since_reset`). -/

namespace VectorSearch.Hnsw

structure VisitedList where
  marks : List UInt16
  cur : UInt16
deriving DecidableEq

namespace VisitedList

/-- `VisitedList(n)` -/
def new (n : ℕ) : VisitedList := ⟨List.replicate n 0, 0⟩

/-- `reset` -/
def reset (v : VisitedList) : VisitedList :=
  if v.cur + 1 = 0 then ⟨List.replicate v.marks.length 0, 1⟩ else { v with cur := v.cur + 1 }

/-- `testAndSet`, defined for the indices of the array. -/
def testAndSet (v : VisitedList) (i : ℕ) : Option (Bool × VisitedList) :=
  if i < v.marks.length then
    if v.marks.getD i 0 = v.cur then some (true, v)
    else some (false, { v with marks := v.marks.set i v.cur })
  else none

/-! ### Marks as a set -/

/-- A list for `n` nodes; no mark is from a later epoch. -/
structure Ok (n : ℕ) (v : VisitedList) : Prop where
  length_eq : v.marks.length = n
  mark_le : ∀ i < n, v.marks.getD i 0 ≤ v.cur

/-- The marks stand for a set of indices. -/
def Stands (n : ℕ) (v : VisitedList) (S : List ℕ) : Prop :=
  ∀ i < n, v.marks.getD i 0 = v.cur ↔ i ∈ S

variable {n : ℕ} {v : VisitedList}

theorem Ok.new (n : ℕ) : Ok n (VisitedList.new n) where
  length_eq := List.length_replicate
  mark_le i _ := by simp [VisitedList.new]

/-- An epoch that does not wrap round goes up. -/
theorem lt_epoch {cur : UInt16} (h : cur + 1 ≠ 0) : cur < cur + 1 := by
  have hlt := cur.toNat_lt
  have hne : (cur + 1).toNat ≠ 0 := fun h0 => h (UInt16.toNat_inj.mp h0)
  rw [UInt16.toNat_add] at hne
  rw [UInt16.lt_iff_toNat_lt, UInt16.toNat_add]
  simp only [UInt16.toNat_one] at hne ⊢
  omega

theorem Ok.reset (h : Ok n v) : Ok n v.reset := by
  unfold VisitedList.reset
  split_ifs with hwrap
  · refine ⟨List.length_replicate.trans h.length_eq, fun i _ => ?_⟩
    simp
  · exact ⟨h.length_eq, fun i hi => UInt16.le_trans (h.mark_le i hi) (UInt16.le_of_lt (lt_epoch hwrap))⟩

/-- After a reset nothing is visited. -/
theorem Ok.stands_reset (h : Ok n v) : Stands n v.reset [] := by
  intro i hi
  simp only [List.not_mem_nil, iff_false]
  unfold VisitedList.reset
  split_ifs with hwrap
  · simp
  · exact UInt16.ne_of_lt (UInt16.lt_of_le_of_lt (h.mark_le i hi) (lt_epoch hwrap))

theorem getD_set_marks (marks : List UInt16) (cur : UInt16) {i : ℕ} (hi : i < marks.length) (j : ℕ) :
    (marks.set i cur).getD j 0 = if j = i then cur else marks.getD j 0 := by
  split_ifs with hj
  · subst hj
    simp [List.getD_eq_getElem?_getD, List.getElem?_set_self hi]
  · simp [List.getD_eq_getElem?_getD, List.getElem?_set_ne (Ne.symm hj)]

/-- `testAndSet` tells whether the index is in the set, and adds it. -/
theorem testAndSet_spec (h : Ok n v) {i : ℕ} {r : Bool} {v' : VisitedList}
    (hcall : v.testAndSet i = some (r, v')) :
    i < n ∧ Ok n v' ∧ ∀ S, Stands n v S → (r = true ↔ i ∈ S) ∧ Stands n v' (i :: S) := by
  unfold testAndSet at hcall
  split_ifs at hcall with hi hmark
  · -- visited already
    cases hcall
    rw [h.length_eq] at hi
    refine ⟨hi, h, fun S hS => ⟨iff_of_true rfl ((hS i hi).mp hmark), fun j hj => ?_⟩⟩
    rw [hS j hj, List.mem_cons]
    constructor
    · exact Or.inr
    · rintro (rfl | hmem)
      · exact (hS j hi).mp hmark
      · exact hmem
  · cases hcall
    have hset := getD_set_marks v.marks v.cur hi
    rw [h.length_eq] at hi
    refine ⟨hi, ⟨?_, fun j hj => ?_⟩, fun S hS => ⟨?_, fun j hj => ?_⟩⟩
    · rw [List.length_set, h.length_eq]
    · rw [hset]
      split_ifs
      · exact UInt16.le_refl _
      · exact h.mark_le j hj
    · exact iff_of_false Bool.false_ne_true fun hmem => hmark ((hS i hi).mpr hmem)
    · rw [hset, List.mem_cons, ← hS j hj]
      by_cases hji : j = i <;> simp [hji]

end VisitedList

/-! ### The pool -/

/-- `VisitedListPool` with the lists it made, each under its address: `pool` are those that wait in
it, `held` those in the hands of its callers. -/
structure VisitedListPool where
  n : ℕ
  pool : List ℕ
  held : List ℕ
  lists : ℕ → VisitedList
  /-- the addresses below are in use -/
  made : ℕ

/-- What happens to a list. -/
inductive VisitedEvent where
  | reset (a : ℕ)
  | tested (a i : ℕ) (result : Bool)
deriving DecidableEq

/-- The calls on a pool and on the lists that callers hold. -/
inductive VisitedCall where
  | acquire
  | reset (a : ℕ)
  | testAndSet (a i : ℕ)
  | release (a : ℕ)
deriving DecidableEq

namespace VisitedListPool
open VisitedList

/-- `VisitedListPool(initial, n)` -/
def new (initial n : ℕ) : VisitedListPool where
  n := n
  pool := List.range initial
  held := []
  lists _ := VisitedList.new n
  made := initial

/-- `acquire`: the list at the back of the pool, reset, or a new one. -/
def acquire (p : VisitedListPool) : VisitedListPool × List VisitedEvent :=
  match p.pool.getLast? with
  | none => ({ p with
      held := p.made :: p.held
      lists := Function.update p.lists p.made (VisitedList.new p.n)
      made := p.made + 1 }, [])
  | some a => ({ p with
      pool := p.pool.dropLast
      held := a :: p.held
      lists := Function.update p.lists a (p.lists a).reset }, [.reset a])

/-- A call, by someone who holds the list that it is about: the pool after it and what happened. -/
def call (p : VisitedListPool) : VisitedCall → Option (VisitedListPool × List VisitedEvent)
  | .acquire => some p.acquire
  | .reset a =>
      if a ∈ p.held then
        some ({ p with lists := Function.update p.lists a (p.lists a).reset }, [.reset a])
      else none
  | .testAndSet a i =>
      if a ∈ p.held then
        ((p.lists a).testAndSet i).map fun (result, v) =>
          ({ p with lists := Function.update p.lists a v }, [.tested a i result])
      else none
  | .release a =>
      if a ∈ p.held then some ({ p with pool := p.pool ++ [a], held := p.held.erase a }, [])
      else none

/-- The runs of a pool, with what happened in them, the latest first. -/
inductive Run (initial n : ℕ) : List VisitedEvent → VisitedListPool → Prop
  | start : Run initial n [] (new initial n)
  | call {trace events : List VisitedEvent} {p p' : VisitedListPool} (c : VisitedCall) :
      Run initial n trace p → p.call c = some (p', events) → Run initial n (events ++ trace) p'

/-- The indices passed to `testAndSet` of list `a` since its last reset. -/
def passed (a : ℕ) : List VisitedEvent → List ℕ
  | [] => []
  | .reset b :: before => if b = a then [] else passed a before
  | .tested b i _ :: before => if b = a then i :: passed a before else passed a before

/-! ### Every run -/

/-- Each `testAndSet` after a reset told whether its index was passed since. -/
def Answers (trace : List VisitedEvent) : Prop :=
  ∀ after before a i result, trace = after ++ .tested a i result :: before →
    VisitedEvent.reset a ∈ before → (result = true ↔ i ∈ passed a before)

/-- What holds of the list at address `a` after a run. -/
structure ListInv (n : ℕ) (trace : List VisitedEvent) (a : ℕ) (v : VisitedList) : Prop where
  ok : Ok n v
  stands : VisitedEvent.reset a ∈ trace → Stands n v (passed a trace)

/-- What holds of the pool after a run. -/
structure Inv (n : ℕ) (trace : List VisitedEvent) (p : VisitedListPool) : Prop where
  n_eq : p.n = n
  list : ∀ a < p.made, ListInv n trace a (p.lists a)
  /-- nothing has happened to a list that is not made yet -/
  fresh : ∀ a, p.made ≤ a → VisitedEvent.reset a ∉ trace
  answers : Answers trace
  /-- no list is in two places -/
  nodup : (p.pool ++ p.held).Nodup
  lt_made : ∀ a ∈ p.pool ++ p.held, a < p.made

variable {initial n : ℕ} {trace : List VisitedEvent} {p : VisitedListPool} {a : ℕ}

theorem Answers.reset (h : Answers trace) (a : ℕ) : Answers (.reset a :: trace) := by
  intro after before b i result heq
  cases after with
  | nil => cases heq
  | cons ev after =>
      rw [List.cons_append, List.cons.injEq] at heq
      exact h after before b i result heq.2

theorem Answers.tested (h : Answers trace) {i : ℕ} {result : Bool}
    (hnew : VisitedEvent.reset a ∈ trace → (result = true ↔ i ∈ passed a trace)) :
    Answers (.tested a i result :: trace) := by
  intro after before b j result' heq
  cases after with
  | nil =>
      cases heq
      exact hnew
  | cons ev after =>
      rw [List.cons_append, List.cons.injEq] at heq
      exact h after before b j result' heq.2

/-- The list that a reset is about. -/
theorem ListInv.reset {v : VisitedList} (h : ListInv n trace a v) :
    ListInv n (.reset a :: trace) a v.reset where
  ok := h.ok.reset
  stands _ := by
    rw [passed, if_pos rfl]
    exact h.ok.stands_reset

/-- The list that a test is about. -/
theorem ListInv.tested {v v' : VisitedList} (h : ListInv n trace a v) {i : ℕ} {result : Bool}
    (hcall : v.testAndSet i = some (result, v')) :
    ListInv n (.tested a i result :: trace) a v' ∧
      (VisitedEvent.reset a ∈ trace → (result = true ↔ i ∈ passed a trace)) := by
  obtain ⟨-, hok, hspec⟩ := testAndSet_spec h.ok hcall
  refine ⟨⟨hok, fun hmem => ?_⟩, fun hmem => (hspec _ (h.stands hmem)).1⟩
  rw [List.mem_cons] at hmem
  obtain hmem | hmem := hmem
  · cases hmem
  · rw [passed, if_pos rfl]
    exact (hspec _ (h.stands hmem)).2

/-- The other lists. -/
theorem ListInv.of_reset {v : VisitedList} {b : ℕ} (h : ListInv n trace b v) (hne : b ≠ a) :
    ListInv n (.reset a :: trace) b v := by
  refine ⟨h.ok, fun hmem => ?_⟩
  rw [List.mem_cons, VisitedEvent.reset.injEq, or_iff_right hne] at hmem
  rw [passed, if_neg hne.symm]
  exact h.stands hmem

theorem ListInv.of_tested {v : VisitedList} {b i : ℕ} {result : Bool} (h : ListInv n trace b v)
    (hne : b ≠ a) : ListInv n (.tested a i result :: trace) b v := by
  refine ⟨h.ok, fun hmem => ?_⟩
  rw [List.mem_cons, or_iff_right VisitedEvent.noConfusion] at hmem
  rw [passed, if_neg hne.symm]
  exact h.stands hmem

/-- A reset of a list, in the pool or in someone's hands. -/
theorem Inv.reset (h : Inv n trace p) (ha : a < p.made) :
    Inv n (.reset a :: trace)
      { p with lists := Function.update p.lists a (p.lists a).reset } where
  n_eq := h.n_eq
  list b hb := by
    obtain rfl | hne := eq_or_ne b a
    · simp only [Function.update_self]
      exact (h.list b hb).reset
    · simp only [Function.update_of_ne hne]
      exact (h.list b hb).of_reset hne
  fresh b hb hmem := by
    rw [List.mem_cons, VisitedEvent.reset.injEq] at hmem
    obtain rfl | hmem := hmem
    · exact absurd ha (not_lt.mpr hb)
    · exact h.fresh b hb hmem
  answers := h.answers.reset a
  nodup := h.nodup
  lt_made := h.lt_made

theorem Inv.tested (h : Inv n trace p) (ha : a < p.made) {i : ℕ} {result : Bool} {v : VisitedList}
    (hcall : (p.lists a).testAndSet i = some (result, v)) :
    Inv n (.tested a i result :: trace) { p with lists := Function.update p.lists a v } where
  n_eq := h.n_eq
  list b hb := by
    obtain rfl | hne := eq_or_ne b a
    · simp only [Function.update_self]
      exact ((h.list b hb).tested hcall).1
    · simp only [Function.update_of_ne hne]
      exact (h.list b hb).of_tested hne
  fresh b hb hmem := by
    rw [List.mem_cons, or_iff_right VisitedEvent.noConfusion] at hmem
    exact h.fresh b hb hmem
  answers := h.answers.tested ((h.list a ha).tested hcall).2
  nodup := h.nodup
  lt_made := h.lt_made

/-- A list goes from one place to another. -/
theorem Inv.move (h : Inv n trace p) {pool held : List ℕ}
    (hperm : (pool ++ held).Perm (p.pool ++ p.held)) :
    Inv n trace { p with pool, held } where
  n_eq := h.n_eq
  list := h.list
  fresh := h.fresh
  answers := h.answers
  nodup := hperm.nodup_iff.mpr h.nodup
  lt_made a ha := h.lt_made a (hperm.mem_iff.mp ha)

/-- A new list. -/
theorem Inv.make (h : Inv n trace p) :
    Inv n trace { p with
      held := p.made :: p.held
      lists := Function.update p.lists p.made (VisitedList.new p.n)
      made := p.made + 1 } where
  n_eq := h.n_eq
  list a ha := by
    obtain rfl | hne := eq_or_ne a p.made
    · simp only [Function.update_self, h.n_eq]
      exact ⟨Ok.new n, fun hmem => absurd hmem (h.fresh p.made le_rfl)⟩
    · simp only [Function.update_of_ne hne]
      exact h.list a (lt_of_le_of_ne (Nat.le_of_lt_succ ha) hne)
  fresh a ha := h.fresh a (Nat.le_of_succ_le ha)
  answers := h.answers
  nodup := by
    rw [List.perm_middle.nodup_iff, List.nodup_cons]
    exact ⟨fun hmem => lt_irrefl _ (h.lt_made _ hmem), h.nodup⟩
  lt_made a ha := by
    rw [List.perm_middle.mem_iff, List.mem_cons] at ha
    obtain rfl | ha := ha
    · exact Nat.lt_succ_self _
    · exact Nat.lt_succ_of_lt (h.lt_made a ha)

theorem Inv.start (initial n : ℕ) : Inv n [] (new initial n) where
  n_eq := rfl
  list _ _ := ⟨Ok.new n, fun h => absurd h List.not_mem_nil⟩
  fresh _ _ := List.not_mem_nil
  answers after before a i result heq := by cases after <;> cases heq
  nodup := by simpa [new] using List.nodup_range
  lt_made a ha := by simpa [new] using ha

theorem Inv.acquire (h : Inv n trace p) : Inv n (p.acquire.2 ++ trace) p.acquire.1 := by
  unfold VisitedListPool.acquire
  cases hlast : p.pool.getLast? with
  | none => exact h.make
  | some a =>
      have hpool : p.pool = p.pool.dropLast ++ [a] := by
        rw [← List.dropLast_append_getLast? a hlast]
        simp
      have hmem : a ∈ p.pool ++ p.held := by
        rw [hpool]
        simp
      have hperm : (p.pool.dropLast ++ a :: p.held).Perm (p.pool ++ p.held) := by
        conv_rhs => rw [hpool, List.append_assoc, List.singleton_append]
      exact (h.reset (h.lt_made a hmem)).move hperm

/-- A call keeps the invariant. -/
theorem Inv.call (h : Inv n trace p) {c : VisitedCall} {p' : VisitedListPool}
    {events : List VisitedEvent} (hcall : p.call c = some (p', events)) :
    Inv n (events ++ trace) p' := by
  have hheld : ∀ a ∈ p.held, a < p.made := fun a ha => h.lt_made a (List.mem_append_right _ ha)
  cases c with
  | acquire =>
      rw [VisitedListPool.call, Option.some.injEq] at hcall
      have hacquire := h.acquire
      rw [hcall] at hacquire
      exact hacquire
  | reset a =>
      simp only [VisitedListPool.call] at hcall
      split_ifs at hcall with ha
      cases hcall
      exact h.reset (hheld a ha)
  | testAndSet a i =>
      simp only [VisitedListPool.call] at hcall
      split_ifs at hcall with ha
      obtain ⟨⟨result, v⟩, htest, heq⟩ := Option.map_eq_some_iff.mp hcall
      cases heq
      exact h.tested (hheld a ha) htest
  | release a =>
      simp only [VisitedListPool.call] at hcall
      split_ifs at hcall with ha
      cases hcall
      refine h.move ?_
      rw [List.append_assoc, List.singleton_append]
      exact (List.perm_cons_erase ha).symm.append_left p.pool

theorem Run.inv (h : Run initial n trace p) : Inv n trace p := by
  induction h with
  | start => exact Inv.start initial n
  | call c _ hcall ih => exact ih.call hcall

/-- **Epoch marks behave like a cleared set.** -/
theorem testAndSet_since_reset {after before : List VisitedEvent} {i : ℕ} {result : Bool}
    (h : Run initial n (after ++ .tested a i result :: before) p)
    (hreset : VisitedEvent.reset a ∈ before) : result = true ↔ i ∈ passed a before :=
  h.inv.answers after before a i result rfl hreset

/-- The only list of a pool taken, reset once more and asked twice about node 1. -/
theorem answer_second_test :
    true = true ↔ 1 ∈ passed 0 [.tested 0 1 false, .reset 0, .reset 0] := by
  have h₁ := Run.call .acquire (.start : Run 1 2 [] (new 1 2)) rfl
  have h₂ := Run.call (.reset 0) h₁ rfl
  have h₃ := Run.call (.testAndSet 0 1) h₂ rfl
  have h₄ := Run.call (.testAndSet 0 1) h₃ rfl
  have h : Run 1 2 ([] ++ .tested 0 1 true :: [.tested 0 1 false, .reset 0, .reset 0]) _ := h₄
  exact testAndSet_since_reset h (by decide)

/-- A list is in the pool or in one caller's hands. -/
theorem Run.nodup (h : Run initial n trace p) : (p.pool ++ p.held).Nodup := h.inv.nodup

end VisitedListPool

end VectorSearch.Hnsw
