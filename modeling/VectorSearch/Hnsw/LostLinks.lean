import VectorSearch.Hnsw.IdAllocation
import VectorSearch.Hnsw.LocalOptimum

/-! # The links of concurrent insertions

A call writes the list of its node on each level once, from the top level down, and does not look at
what is in it.  But its node is seen as soon as it is linked on the first level: another call that
comes down from there finds it on a level below, whose list is still to be written, and links back
into that list.  `back_link_lost` is such a run, in which the link is overwritten.

`links_kept` says that this is the only way to lose a link: where calls link back only into lists that
are passed by the calls they belong to (`InOrder`), a link that is gone was pruned from a full list. -/

namespace VectorSearch.Hnsw

section
variable {F : Type} [Platform F] {p : Params} {pair : ℕ → ℕ → F} {n l : ℕ}

/-- The call has nothing left to write into the list of its node on level `l`. -/
def Job.Past (l : ℕ) : Job F → Prop
  | .first | .descend _ _ _ => False
  | .search k _ | .connect k _ => k < l
  | .back k _ _ => k ≤ l
  | .linked | .settled => True

def Task.Past (l : ℕ) : Task F → Prop
  | .inside _ _ _ _ job => job.Past l
  | _ => False

theorem Graph.neighbors_setLevel (p : Params) (n l : ℕ) (g : Graph) (id level : ℕ) :
    (g.setLevel p id level).neighbors n l = g.neighbors n l ∨
      n = id ∧ (g.setLevel p id level).neighbors n l = [] := by
  unfold Graph.neighbors Graph.linkBlock Graph.setLevel
  by_cases hl : (l : ℤ) = 0
  · exact Or.inl (by simp only [if_pos hl])
  · simp only [if_neg hl]
    split_ifs
    · by_cases hn : n = id
      · refine Or.inr ⟨hn, ?_⟩
        rw [hn, Function.update_self]
        exact Block.neighbors_empty
      · exact Or.inl (by rw [Function.update_of_ne hn])
    · exact Or.inl rfl

/-! ### Linking -/

namespace Job

variable (p pair) (id level : ℕ) (g : Graph) {job : Job F}

theorem past_next (cur : ℕ) : ∀ k, k ≤ l → (next pair id k cur).Past l
  | 0, _ => trivial
  | _ + 1, hk => hk

/-- What is past stays past. -/
theorem Past.work (h : job.Past l) : (job.work p pair id level g).2.Past l := by
  cases job with
  | first | descend => exact h.elim
  | linked | settled => exact h
  | search k b =>
      unfold Job.work
      simp only
      split
      · exact h
      · split_ifs <;> exact h
  | connect k selected =>
      cases selected with
      | nil => exact past_next pair id id k (Nat.le_of_lt h)
      | cons a rest => exact Nat.le_of_lt h
  | back k cur rest =>
      cases rest with
      | nil => exact past_next pair id cur k h
      | cons a rest => exact h

/-- Only the list of the node itself is written, and one other by a link back. -/
theorem neighbors_work (hown : ∀ a rest, job = .connect l (a :: rest) → n ≠ id)
    (hback : ∀ cur rest, job ≠ .back l cur (n :: rest)) :
    (job.work p pair id level g).1.neighbors n l = g.neighbors n l := by
  cases job with
  | first | linked | settled => rfl
  | descend | search =>
      unfold Job.work
      simp only
      split
      · rfl
      · split_ifs <;> rfl
  | connect k selected =>
      cases selected with
      | nil => rfl
      | cons a rest =>
          have hne : ¬ (n = id ∧ l = k) := by
            rintro ⟨hn, rfl⟩
            exact hown a rest rfl hn
          simp only [Job.work, Graph.setLinks, Graph.neighbors, Graph.linkBlock_setBlock, if_neg hne]
  | back k cur rest =>
      cases rest with
      | nil => rfl
      | cons a rest =>
          have hne : ¬ (n = a ∧ l = k) := by
            rintro ⟨rfl, rfl⟩
            exact hback cur rest rfl
          simp only [Job.work, Graph.linkBack_eq, Graph.neighbors, Graph.linkBlock_setBlock,
            if_neg hne]

/-- A link back into a list that has room loses nothing. -/
theorem mem_neighbors_linkBack {g : Graph} {x : ℕ} (hx : x ∈ g.neighbors n l)
    (hroom : (g.neighbors n l).length < p.maxDegree l) :
    x ∈ (Graph.linkBack p pair id l g n).neighbors n l := by
  have hback : (Graph.linkBack p pair id l g n).neighbors n l = g.neighbors n l ++ [id] := by
    rw [Graph.neighbors, Graph.linkBack_eq, Graph.linkBlock_setBlock, if_pos ⟨rfl, rfl⟩,
      Graph.neighbors_backBlock, Graph.backLinks]
    exact if_pos hroom
  rw [hback]
  exact List.mem_append_left _ hx

end Job

namespace Inserts

variable {s s' : Inserts F} {t : ℕ}

/-- The call of node `n` has nothing left to write into its list on level `l`. -/
def Passed (p : Params) (s : Inserts F) (n l : ℕ) : Prop :=
  n ∈ s.returned ∨ ∃ t, (s.threads t).given p = some n ∧ (s.threads t).Past l

/-- The next step of thread `t` links back into the full list of `n` on level `l`. -/
def Prunes (p : Params) (s : Inserts F) (t n l : ℕ) : Prop :=
  (∃ mode id level curMaxLevel next rest,
    s.threads t = .inside mode id level curMaxLevel (.back l next (n :: rest))) ∧
      p.maxDegree l ≤ (s.graph.neighbors n l).length

/-- A step of thread `t` takes links only from a full list that it prunes. -/
def KeepsLinks (p : Params) (s : Inserts F) (t : ℕ) (s' : Inserts F) : Prop :=
  ∀ n (l : ℕ) x, x ∈ s.graph.neighbors n l → x ∉ s'.graph.neighbors n l → Prunes p s t n l

/-- The next step of thread `t` takes an id that is not cut, and links back only into a list that is
passed by the call of its node. -/
structure InOrder (p : Params) (s : Inserts F) (t : ℕ) : Prop where
  fits : s.threads t = .idle → s.count < 2 ^ 32
  passed : ∀ {mode id level curMaxLevel next n rest l},
    s.threads t = .inside mode id level curMaxLevel (.back l next (n :: rest)) → Passed p s n l

/-- The lists that are still to be written are empty. -/
structure Unwritten (p : Params) (s : Inserts F) : Prop where
  alloc : ∃ n R, Alloc p s n R
  empty : ∀ {n l}, ¬ Passed p s n l → s.graph.neighbors n l = []

theorem Unwritten.start : Unwritten p (start : Inserts F) where
  alloc := ⟨0, ∅, Alloc.start⟩
  empty {n l} _ := by
    unfold Inserts.start Graph.neighbors Graph.linkBlock Graph.empty
    split_ifs <;> rfl

/-- A call that has its list still to write is the only one of its node. -/
theorem Unwritten.not_passed (h : Unwritten p s) (hgiven : (s.threads t).given p = some n)
    (hpast : ¬ (s.threads t).Past l) : ¬ Passed p s n l := by
  obtain ⟨m, R, hm⟩ := h.alloc
  rintro (hret | ⟨u, hu, hupast⟩)
  · exact hm.apart hgiven hret
  · obtain rfl := hm.inj hgiven hu
    exact hpast hupast

/-- A list that is passed stays passed. -/
theorem Move.passed (hm : Move p pair s t s') (h : Passed p s n l) : Passed p s' n l := by
  have hgone : ∀ {u}, (s.threads u).Past l → (s.threads u).given p = some n →
      u ≠ t → Passed p s' n l := fun {u} hpast hgiven hu =>
    Or.inr ⟨u, by rwa [hm.threads_of_ne hu], by rwa [hm.threads_of_ne hu]⟩
  obtain hret | ⟨u, hgiven, hpast⟩ := h
  · left
    cases hm with
    | release => exact List.mem_cons_of_mem _ hret
    | take | reject | fill | probe | acquire | work | promote | keep => exact hret
  · by_cases hu : u = t
    · subst hu
      cases hm with
      | take hph | reject hph | fill _ hph | probe hph | acquire hph =>
          rw [hph] at hpast
          exact hpast.elim
      | @work mode id level curMaxLevel job hph hjob =>
          rw [hph] at hpast hgiven
          refine Or.inr ⟨u, ?_, ?_⟩ <;> rw [Inserts.work, threads_self]
          · exact hgiven
          · exact hpast.work p pair id level s.graph
      | promote hph =>
          rw [hph] at hgiven
          refine Or.inr ⟨u, ?_, ?_⟩ <;> rw [Inserts.promote, threads_self]
          · exact hgiven
          · trivial
      | keep hph =>
          rw [hph] at hgiven
          refine Or.inr ⟨u, ?_, ?_⟩ <;> rw [Inserts.keep, threads_self]
          · exact hgiven
          · trivial
      | release hph =>
          rw [hph] at hgiven
          exact Or.inl (Option.some.inj hgiven ▸ List.mem_cons_self)
    · exact hgone hpast hgiven hu

/-- A step leaves a list as it is, empties or writes one that its call has still to write, or links
back into it. -/
theorem Move.neighbors (hm : Move p pair s t s') (h : Unwritten p s) (n l : ℕ) :
    s'.graph.neighbors n l = s.graph.neighbors n l ∨
    ¬ Passed p s n l ∧ (s'.graph.neighbors n l = [] ∨ Passed p s' n l) ∨
    ∃ mode id level curMaxLevel next rest,
      s.threads t = .inside mode id level curMaxLevel (.back l next (n :: rest)) ∧
        s'.graph = Graph.linkBack p pair id l s.graph n := by
  cases hm with
  | take | reject | probe | acquire | promote | keep | release => exact Or.inl rfl
  | @fill id level hph hroom =>
      obtain heq | ⟨rfl, hnil⟩ := Graph.neighbors_setLevel p n l s.graph id level
      · exact Or.inl heq
      · refine Or.inr (Or.inl ⟨h.not_passed (t := t) ?_ ?_, Or.inl hnil⟩)
        · rw [hph, Task.given_of_lt hroom]
        · rw [hph]
          exact id
  | @work mode id level curMaxLevel job hph hjob =>
      by_cases hown : ∃ a rest, job = .connect l (a :: rest) ∧ n = id
      · obtain ⟨a, rest, rfl, rfl⟩ := hown
        refine Or.inr (Or.inl ⟨h.not_passed (t := t) (congrArg (Task.given p) hph) ?_,
          Or.inr (Or.inr ⟨t, ?_, ?_⟩)⟩)
        · rw [hph]
          exact lt_irrefl l
        · rw [Inserts.work, threads_self]
          rfl
        · rw [Inserts.work, threads_self]
          exact le_refl l
      · by_cases hback : ∃ cur rest, job = .back l cur (n :: rest)
        · obtain ⟨cur, rest, rfl⟩ := hback
          exact Or.inr (Or.inr ⟨mode, id, level, curMaxLevel, cur, rest, hph, rfl⟩)
        · exact Or.inl (Job.neighbors_work p pair id level s.graph
            (fun a rest hjob hn => hown ⟨a, rest, hjob, hn⟩)
            fun cur rest hjob => hback ⟨cur, rest, hjob⟩)

/-- **Every step in order keeps the lists empty** that are still to be written. -/
theorem Move.unwritten (hm : Move p pair s t s') (h : Unwritten p s) (hok : InOrder p s t) :
    Unwritten p s' := by
  obtain ⟨m, R, hn⟩ := h.alloc
  obtain ⟨m', R', -, hn'⟩ := hm.alloc hn hok.fits
  refine ⟨⟨m', R', hn'⟩, fun {n l} hnot => ?_⟩
  have hbefore : ¬ Passed p s n l := fun hpassed => hnot (hm.passed hpassed)
  obtain heq | ⟨-, hnil | hpassed⟩ | ⟨mode, id, level, curMaxLevel, next, rest, hph, -⟩ :=
    hm.neighbors h n l
  · rw [heq, h.empty hbefore]
  · exact hnil
  · exact absurd hpassed hnot
  · exact absurd (hok.passed hph) hbefore

/-- While these lists are empty, links are only lost by pruning. -/
theorem Move.keepsLinks (hm : Move p pair s t s') (h : Unwritten p s) : KeepsLinks p s t s' := by
  intro n l x hx hgone
  obtain heq | ⟨hnot, -⟩ | ⟨mode, id, level, curMaxLevel, next, rest, hph, hgraph⟩ :=
    hm.neighbors h n l
  · exact absurd (heq ▸ hx) hgone
  · rw [h.empty hnot] at hx
    exact absurd hx List.not_mem_nil
  · refine ⟨⟨mode, id, level, curMaxLevel, next, rest, hph⟩, not_lt.mp fun hroom => hgone ?_⟩
    rw [hgraph]
    exact Job.mem_neighbors_linkBack p pair id hx hroom

/-! ### Runs -/

theorem Reached.unwritten (h : Reached p pair (fun s t _ => s.InOrder p t) s) : Unwritten p s := by
  induction h with
  | start => exact Unwritten.start
  | step _ hstep hok ih => exact (move_of_step hstep).unwritten ih hok

/-- **Links are lost by pruning only**, in every run in which calls link back only into lists that are
passed by the calls of their nodes. -/
theorem links_kept (h : Reached p pair (fun s t _ => s.InOrder p t) s) {level : ℕ}
    (hstep : s.step p pair t level = some s') : KeepsLinks p s t s' :=
  (move_of_step hstep).keepsLinks h.unwritten

open StandIn

/-- The count is small, and a link back goes to a node whose call has returned. -/
def intoReturned (s : Inserts F) (t : ℕ) : Bool :=
  decide (s.count < 2 ^ 32) && match s.threads t with
    | .inside _ _ _ _ (.back _ _ (n :: _)) => decide (n ∈ s.returned)
    | _ => true

theorem inOrder_of_intoReturned (h : s.intoReturned t) : InOrder p s t := by
  unfold intoReturned at h
  obtain ⟨hcount, hreturned⟩ := Bool.and_eq_true_iff.mp h
  refine ⟨fun _ => of_decide_eq_true hcount, fun hph => Or.inl ?_⟩
  rw [hph] at hreturned
  exact of_decide_eq_true hreturned

/-- Points at 0, 10 and 9. -/
def nearPair : ℕ → ℕ → ℤ := Graph.linePair [0, 10, 9]

/-- Thread 0 inserts node 0 on level 1. -/
def firstCall : List (ℕ × ℕ) := (0, 0) :: (0, 1) :: List.replicate 4 (0, 0)

/-- Thread 0 inserts node 1 on level 1, up to its list on level 0. -/
def secondCall : List (ℕ × ℕ) := (0, 0) :: (0, 1) :: List.replicate 9 (0, 0)

/-- Thread 0 inserts node 0, then threads 1 and 2 take turns, until both have found it, thread 1 has
linked back into its list and thread 2 is about to. -/
def twoLinkBacks : List (ℕ × ℕ) :=
  List.replicate 6 (0, 0) ++ (List.replicate 6 [(1, 0), (2, 0)]).flatten ++ [(1, 0), (1, 0), (2, 0)]

/-- Two calls at the same time: the link back of node 2 leaves that of node 1 where it is. -/
theorem links_kept_two : ∃ s s' : Inserts ℤ,
    s.step Graph.lineParams nearPair 2 0 = some s' ∧ s.graph.neighbors 0 0 = [1] ∧
      s'.graph.neighbors 0 0 = [1, 2] ∧ KeepsLinks Graph.lineParams s 2 s' := by
  have hrun : (((start : Inserts ℤ).run Graph.lineParams nearPair intoReturned twoLinkBacks).bind
      fun s => (s.step Graph.lineParams nearPair 2 0).map fun s' =>
        (s.graph.neighbors 0 0, s'.graph.neighbors 0 0)) = some ([1], [1, 2]) := by
    decide +kernel
  obtain ⟨s, hs, hstep⟩ := Option.bind_eq_some_iff.mp hrun
  obtain ⟨s', hs', hlists⟩ := Option.map_eq_some_iff.mp hstep
  obtain ⟨hbefore, hafter⟩ := Prod.mk.inj hlists
  exact ⟨s, s', hs', hbefore, hafter,
    links_kept (Reached.run inOrder_of_intoReturned _ .start hs) hs'⟩

/-- **A link back is overwritten**: node 1 is seen through level 1, node 2 links back into its list on
level 0, and then node 1 writes that list. -/
theorem back_link_lost : ∃ s s' : Inserts ℤ,
    Reached Graph.lineParams nearPair (fun _ _ _ => True) s ∧
      s.step Graph.lineParams nearPair 0 0 = some s' ∧ 2 ∈ s.graph.neighbors 1 0 ∧
        2 ∉ s'.graph.neighbors 1 0 ∧ ¬ KeepsLinks Graph.lineParams s 0 s' := by
  have hrun : (((start : Inserts ℤ).run Graph.lineParams nearPair (fun _ _ => true)
      (firstCall ++ secondCall ++ List.replicate 10 (1, 0))).bind fun s =>
      (s.step Graph.lineParams nearPair 0 0).map fun s' =>
        (s.graph.neighbors 1 0, s'.graph.neighbors 1 0)) = some ([2], [0]) := by
    decide +kernel
  obtain ⟨s, hs, hstep⟩ := Option.bind_eq_some_iff.mp hrun
  obtain ⟨s', hs', hlists⟩ := Option.map_eq_some_iff.mp hstep
  obtain ⟨hbefore, hafter⟩ := Prod.mk.inj hlists
  have hmem : 2 ∈ s.graph.neighbors 1 0 := hbefore ▸ List.mem_singleton_self 2
  have hgone : 2 ∉ s'.graph.neighbors 1 0 := by
    rw [hafter]
    decide
  refine ⟨s, s', Reached.run (fun _ => trivial) _ .start hs, hs', hmem, hgone, fun hkeeps => ?_⟩
  obtain ⟨-, hfull⟩ := hkeeps 1 0 2 hmem hgone
  rw [show s.graph.neighbors 1 ((0 : ℕ) : ℤ) = [2] from hbefore] at hfull
  exact absurd hfull (by decide)

end Inserts

end

end VectorSearch.Hnsw
