import Mathlib.Tactic
import Mathlib.Data.List.Basic

/-! # Priority queues

A `PriorityQueue α comp` is an implementation of `std::priority_queue<α>` with comparator `comp`,
where `comp a b` says that `a` has lower priority than `b`.  Its laws are the documented ones: the
contents change by the pushed and the popped element, and the top is an element that none of the
others beats, provided that the comparator is a strict weak order (`StrictWeak`).  Which of several
elements of equal priority is on top is left open.

`drain` empties a queue from the top; it lists the contents (`drain_perm`).  `listQueue` is an
implementation on plain lists. -/

/-- What the standard asks of a comparator. -/
structure StrictWeak {α : Type} (lt : α → α → Bool) : Prop where
  asymm : ∀ {a b}, lt a b = true → lt b a = false
  negTrans : ∀ {a b c}, lt a b = false → lt b c = false → lt a c = false

theorem StrictWeak.irrefl {α : Type} {lt : α → α → Bool} (h : StrictWeak lt) (a : α) :
    lt a a = false := by
  cases haa : lt a a with
  | false => rfl
  | true => rw [← h.asymm haa, haa]

theorem StrictWeak.trans {α : Type} {lt : α → α → Bool} (h : StrictWeak lt) {a b c : α}
    (hab : lt a b = true) (hbc : lt b c = true) : lt a c = true := by
  by_contra hac
  have hab' := h.negTrans (Bool.eq_false_iff.mpr hac) (h.asymm hbc)
  exact absurd hab (Bool.eq_false_iff.mp hab')

/-- A comparator under which some elements may compare with none, such as a number with a NaN. -/
structure StrictPartial {α : Type} (lt : α → α → Bool) : Prop where
  irrefl : ∀ a, lt a a = false
  trans : ∀ {a b c}, lt a b = true → lt b c = true → lt a c = true

theorem StrictWeak.strictPartial {α : Type} {lt : α → α → Bool} (h : StrictWeak lt) :
    StrictPartial lt :=
  ⟨h.irrefl, h.trans⟩

/-- Swapping the arguments of a comparator. -/
theorem StrictWeak.swap {α : Type} {lt : α → α → Bool} (h : StrictWeak lt) :
    StrictWeak fun a b => lt b a :=
  ⟨h.asymm, fun h₁ h₂ => h.negTrans h₂ h₁⟩

/-- A comparison of ranks in a linear order. -/
theorem StrictWeak.of_rank {α β : Type} [LinearOrder β] {lt : α → α → Bool} (rank : α → β)
    (h : ∀ a b, lt a b = decide (rank a < rank b)) : StrictWeak lt where
  asymm {a b} hab := by
    rw [h, decide_eq_true_iff] at hab
    rw [h, decide_eq_false_iff_not]
    exact hab.le.not_gt
  negTrans {a b c} hab hbc := by
    rw [h, decide_eq_false_iff_not, not_lt] at hab hbc
    rw [h, decide_eq_false_iff_not, not_lt]
    exact hbc.trans hab

/-- Comparing by a key. -/
theorem StrictWeak.comap {α β : Type} {lt : α → α → Bool} (h : StrictWeak lt) (f : β → α) :
    StrictWeak fun a b => lt (f a) (f b) :=
  ⟨h.asymm, h.negTrans⟩

/-- An implementation of a priority queue. -/
structure PriorityQueue (α : Type) (comp : α → α → Bool) where
  Q : Type
  /-- the contents, in some order -/
  elems : Q → List α
  empty : Q
  push : Q → α → Q
  /-- the top element and the queue without it -/
  pop : Q → Option (α × Q)
  elems_empty : elems empty = []
  elems_push : ∀ q a, (elems (push q a)).Perm (a :: elems q)
  elems_of_pop_none : ∀ {q}, pop q = none → elems q = []
  elems_of_pop_some : ∀ {q a q'}, pop q = some (a, q') → (elems q).Perm (a :: elems q')
  top_le : StrictWeak comp → ∀ {q a q'}, pop q = some (a, q') → ∀ b ∈ elems q, comp a b = false

namespace PriorityQueue

variable {α : Type} {comp : α → α → Bool} (H : PriorityQueue α comp)

/-- `size()` -/
def size (q : H.Q) : ℕ := (H.elems q).length

/-- `top()` -/
def top (q : H.Q) : Option α := (H.pop q).map Prod.fst

/-- `pop()`; the empty queue stays as it is. -/
def tail (q : H.Q) : H.Q := match H.pop q with
  | none => q
  | some (_, q') => q'

@[simp] theorem size_empty : H.size H.empty = 0 := by rw [size, H.elems_empty]; rfl

@[simp] theorem size_push (q : H.Q) (a : α) : H.size (H.push q a) = H.size q + 1 := by
  rw [size, (H.elems_push q a).length_eq, List.length_cons, size]

theorem mem_push {q : H.Q} {a b : α} : b ∈ H.elems (H.push q a) ↔ b = a ∨ b ∈ H.elems q := by
  rw [(H.elems_push q a).mem_iff, List.mem_cons]

theorem size_of_pop_some {q q' : H.Q} {a : α} (h : H.pop q = some (a, q')) :
    H.size q = H.size q' + 1 := by
  rw [size, (H.elems_of_pop_some h).length_eq, List.length_cons, size]

/-- `pop()` takes one element away, unless there is none. -/
theorem tail_perm {q : H.Q} (h : 0 < H.size q) :
    ∃ a, (H.elems q).Perm (a :: H.elems (H.tail q)) := by
  unfold tail
  cases hp : H.pop q with
  | none =>
      rw [size, H.elems_of_pop_none hp] at h
      cases h
  | some x => exact ⟨x.1, H.elems_of_pop_some hp⟩

theorem size_tail {q : H.Q} (h : 0 < H.size q) : H.size (H.tail q) + 1 = H.size q := by
  obtain ⟨a, ha⟩ := H.tail_perm h
  rw [size, size, ha.length_eq, List.length_cons]

theorem tail_subperm (q : H.Q) : (H.elems (H.tail q)).Subperm (H.elems q) := by
  unfold tail
  cases hp : H.pop q with
  | none => exact List.Subperm.refl _
  | some x =>
      exact (List.sublist_cons_self _ _).subperm.trans (H.elems_of_pop_some hp).symm.subperm

theorem mem_of_mem_tail {q : H.Q} {b : α} (h : b ∈ H.elems (H.tail q)) : b ∈ H.elems q :=
  (H.tail_subperm q).subset h

/-- What is left after some pops. -/
theorem iterate_tail_subperm (q : H.Q) : ∀ n : ℕ, (H.elems (H.tail^[n] q)).Subperm (H.elems q)
  | 0 => List.Subperm.refl _
  | n + 1 => by
      rw [Function.iterate_succ_apply']
      exact (H.tail_subperm _).trans (iterate_tail_subperm q n)

theorem size_iterate_tail {q : H.Q} : ∀ {n : ℕ}, n ≤ H.size q → H.size (H.tail^[n] q) + n = H.size q
  | 0, _ => rfl
  | n + 1, h => by
      have ih := size_iterate_tail (q := q) (n := n) (by omega)
      have htail := H.size_tail (q := H.tail^[n] q) (by omega)
      rw [Function.iterate_succ_apply']
      omega

/-- Pushing the elements of a list one by one. -/
theorem elems_foldl_push {β : Type} (f : β → α) : ∀ (bs : List β) (q : H.Q),
    (H.elems (bs.foldl (fun q b => H.push q (f b)) q)).Perm (bs.map f ++ H.elems q)
  | [], _ => List.Perm.refl _
  | b :: bs, q => by
      have hrest := (elems_foldl_push f bs (H.push q (f b))).trans
        ((H.elems_push q (f b)).append_left (bs.map f))
      exact hrest.trans List.perm_middle

/-- Pop until the queue is empty. -/
def drainFuel : ℕ → H.Q → List α
  | 0, _ => []
  | fuel + 1, q => match H.pop q with
    | none => []
    | some (a, q') => a :: drainFuel fuel q'

/-- The elements in the order in which they are popped. -/
def drain (q : H.Q) : List α := H.drainFuel (H.size q) q

theorem drainFuel_perm : ∀ {fuel : ℕ} {q : H.Q}, H.size q ≤ fuel →
    (H.drainFuel fuel q).Perm (H.elems q)
  | 0, q, h => by
      rw [List.length_eq_zero_iff.mp (Nat.le_zero.mp h)]
      exact List.Perm.refl _
  | fuel + 1, q, h => by
      unfold drainFuel
      cases hp : H.pop q with
      | none => rw [H.elems_of_pop_none hp]
      | some x =>
          have hsize := H.size_of_pop_some hp
          exact ((drainFuel_perm (by omega)).cons x.1).trans (H.elems_of_pop_some hp).symm

theorem drain_perm (q : H.Q) : (H.drain q).Perm (H.elems q) := H.drainFuel_perm le_rfl

theorem drainFuel_pairwise (hc : StrictWeak comp) : ∀ {fuel : ℕ} {q : H.Q}, H.size q ≤ fuel →
    (H.drainFuel fuel q).Pairwise fun a b => comp a b = false
  | 0, _, _ => List.Pairwise.nil
  | fuel + 1, q, h => by
      unfold drainFuel
      cases hp : H.pop q with
      | none => exact List.Pairwise.nil
      | some x =>
          have hsize := H.size_of_pop_some hp
          refine List.Pairwise.cons (fun b hb => ?_) (drainFuel_pairwise hc (by omega))
          have hb := (H.drainFuel_perm (by omega)).mem_iff.mp hb
          exact H.top_le hc hp b
            ((H.elems_of_pop_some hp).mem_iff.mpr (List.mem_cons_of_mem _ hb))

/-- No element is popped before one of higher priority. -/
theorem drain_pairwise (hc : StrictWeak comp) (q : H.Q) :
    (H.drain q).Pairwise fun a b => comp a b = false := H.drainFuel_pairwise hc le_rfl

theorem drain_tail {q : H.Q} (h : 0 < H.size q) : ∃ a, H.drain q = a :: H.drain (H.tail q) := by
  unfold drain tail
  cases hp : H.pop q with
  | none =>
      rw [size, H.elems_of_pop_none hp] at h
      cases h
  | some x =>
      refine ⟨x.1, ?_⟩
      rw [H.size_of_pop_some hp, drainFuel, hp]

/-- Pops take the first elements away. -/
theorem drain_iterate_tail {q : H.Q} : ∀ {n : ℕ}, n ≤ H.size q →
    H.drain (H.tail^[n] q) = (H.drain q).drop n
  | 0, _ => rfl
  | n + 1, h => by
      have hsize := H.size_iterate_tail (q := q) (n := n) (by omega)
      obtain ⟨a, ha⟩ := H.drain_tail (q := H.tail^[n] q) (by omega)
      rw [drain_iterate_tail (by omega)] at ha
      rw [Function.iterate_succ_apply', ← List.drop_drop, List.drop_one, ha, List.tail_cons]

end PriorityQueue

/-! ### An implementation -/

/-- The first of the elements that no later one beats, and the others. -/
def popList {α : Type} (comp : α → α → Bool) : List α → Option (α × List α)
  | [] => none
  | a :: as => match popList comp as with
    | none => some (a, [])
    | some (m, rest) => if comp a m then some (m, a :: rest) else some (a, as)

theorem popList_none {α : Type} {comp : α → α → Bool} : ∀ {as : List α},
    popList comp as = none → as = []
  | [], _ => rfl
  | a :: as, h => by
      simp only [popList] at h
      split at h
      · cases h
      · split_ifs at h

theorem popList_perm {α : Type} {comp : α → α → Bool} : ∀ {as : List α} {m : α} {rest : List α},
    popList comp as = some (m, rest) → as.Perm (m :: rest)
  | [], _, _, h => nomatch h
  | a :: as, m, rest, h => by
      simp only [popList] at h
      cases hp : popList comp as with
      | none =>
          rw [hp] at h
          cases h
          rw [popList_none hp]
      | some x =>
          obtain ⟨m', rest'⟩ := x
          rw [hp] at h
          simp only at h
          split_ifs at h
          · cases h
            exact ((popList_perm hp).cons a).trans (List.Perm.swap _ _ _)
          · cases h
            exact List.Perm.refl _

theorem popList_top {α : Type} {comp : α → α → Bool} (hc : StrictWeak comp) :
    ∀ {as : List α} {m : α} {rest : List α},
      popList comp as = some (m, rest) → ∀ b ∈ as, comp m b = false
  | [], _, _, h => nomatch h
  | a :: as, m, rest, h => by
      intro b hb
      simp only [popList] at h
      cases hp : popList comp as with
      | none =>
          rw [hp] at h
          cases h
          rw [popList_none hp, List.mem_singleton] at hb
          exact hb ▸ hc.irrefl a
      | some x =>
          obtain ⟨m', rest'⟩ := x
          have htop := popList_top hc hp
          rw [hp] at h
          simp only at h
          split_ifs at h with ham
          · cases h
            obtain rfl | hb := List.mem_cons.mp hb
            · exact hc.asymm ham
            · exact htop b hb
          · cases h
            obtain rfl | hb := List.mem_cons.mp hb
            · exact hc.irrefl _
            · exact hc.negTrans (by simpa using ham) (htop b hb)

/-- A priority queue on plain lists. -/
def listQueue (α : Type) (comp : α → α → Bool) : PriorityQueue α comp where
  Q := List α
  elems := id
  empty := []
  push q a := a :: q
  pop := popList comp
  elems_empty := rfl
  elems_push _ _ := List.Perm.refl _
  elems_of_pop_none := popList_none
  elems_of_pop_some := popList_perm
  top_le := popList_top
