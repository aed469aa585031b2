import VectorSearch.Hnsw.LocalOptimum
import VectorSearch.Lib.Descent

/-! # Greedy descent ends at a local minimum

The `while` loop of `greedyDescend` has no counter and no visited set, and it goes to a nearer node
in the middle of scanning the links of another.  `greedyRound` is one pass of it, `greedyScan_spec`
says what a pass can do: it stays where no link is nearer, or it goes to a link that is.

On a well-formed graph the nodes nearer than the current one get fewer with each pass that moves, so
the loop stops after at most one pass for each node, at a node none of whose links is nearer
(`greedyDescend_localMin`). -/

namespace VectorSearch.Hnsw

namespace Graph

open Descent

section
variable {F : Type} [Platform F] {dist : ℕ → F} {g : Graph}

/-- One pass of the `while` loop: where it goes, or `none` if nothing changed. -/
def greedyRound (dist : ℕ → F) (g : Graph) (level : ℤ) (st : ℕ × F) : Option (ℕ × F) :=
  match greedyScan dist (g.neighbors st.1 level) (st.1, st.2, false) with
  | (cur, curDist, true) => some (cur, curDist)
  | (_, _, false) => none

/-- What a scan can do: no link is nearer, or it ends at a nearer link. -/
theorem greedyScan_spec (hlt : StrictPartial (FloatOps.lt (F := F))) (dist : ℕ → F) :
    ∀ (cands : List ℕ) (cur : ℕ) (curDist : F) (changed : Bool),
      (greedyScan dist cands (cur, curDist, changed) = (cur, curDist, changed) ∧
        ∀ w ∈ cands, FloatOps.lt (dist w) curDist = false) ∨
      ∃ v ∈ cands, greedyScan dist cands (cur, curDist, changed) = (v, dist v, true) ∧
        FloatOps.lt (dist v) curDist = true
  | [], _, _, _ => Or.inl ⟨rfl, fun _ h => absurd h List.not_mem_nil⟩
  | cand :: cands, cur, curDist, changed => by
      unfold greedyScan
      split_ifs with hcand
      · -- the scan goes on from the nearer link
        right
        obtain ⟨hstay, -⟩ | ⟨v, hv, hmove, hnear⟩ :=
          greedyScan_spec hlt dist cands cand (dist cand) true
        · exact ⟨cand, List.mem_cons_self, hstay, hcand⟩
        · exact ⟨v, List.mem_cons_of_mem _ hv, hmove, hlt.trans hnear hcand⟩
      · obtain ⟨hstay, hmin⟩ | ⟨v, hv, hmove, hnear⟩ :=
          greedyScan_spec hlt dist cands cur curDist changed
        · refine Or.inl ⟨hstay, fun w hw => ?_⟩
          obtain rfl | hw := List.mem_cons.mp hw
          · exact Bool.eq_false_iff.mpr hcand
          · exact hmin w hw
        · exact Or.inr ⟨v, List.mem_cons_of_mem _ hv, hmove, hnear⟩

theorem greedyRound_some (hlt : StrictPartial (FloatOps.lt (F := F))) {level : ℤ} {st st' : ℕ × F}
    (h : greedyRound dist g level st = some st') :
    st'.1 ∈ g.neighbors st.1 level ∧ st'.2 = dist st'.1 ∧ FloatOps.lt st'.2 st.2 = true := by
  obtain ⟨hstay, -⟩ | ⟨v, hv, hmove, hnear⟩ :=
    greedyScan_spec hlt dist (g.neighbors st.1 level) st.1 st.2 false
  · simp [greedyRound, hstay] at h
  · simp only [greedyRound, hmove, Option.some.injEq] at h
    subst h
    exact ⟨hv, rfl, hnear⟩

theorem greedyRound_none (hlt : StrictPartial (FloatOps.lt (F := F))) {level : ℤ} {st : ℕ × F}
    (h : greedyRound dist g level st = none) :
    ∀ w ∈ g.neighbors st.1 level, FloatOps.lt (dist w) st.2 = false := by
  obtain ⟨-, hmin⟩ | ⟨v, -, hmove, -⟩ :=
    greedyScan_spec hlt dist (g.neighbors st.1 level) st.1 st.2 false
  · exact hmin
  · simp [greedyRound, hmove] at h

/-- The loop with fuel repeats the pass. -/
theorem greedyLoop_eq (hlt : StrictPartial (FloatOps.lt (F := F))) (dist : ℕ → F) (g : Graph)
    (level : ℤ) : ∀ (fuel : ℕ) (st : ℕ × F),
    greedyLoop dist g level fuel st = iterate (greedyRound dist g level) fuel st
  | 0, _ => rfl
  | fuel + 1, (cur, curDist) => by
      obtain ⟨hstay, -⟩ | ⟨v, -, hmove, -⟩ :=
        greedyScan_spec hlt dist (g.neighbors cur level) cur curDist false
      · simp only [greedyLoop, iterate, greedyRound, hstay]
      · simp only [greedyLoop, iterate, greedyRound, hmove]
        exact greedyLoop_eq hlt dist g level fuel (v, dist v)

/-! ### Where the loop stops -/

/-- Where a descent of level `l` from `entry` may be: a node of the level with its distance, not
farther than the entry. -/
structure OnDescent (dist : ℕ → F) (n : ℕ) (g : Graph) (entry l : ℕ) (st : ℕ × F) : Prop where
  lt : st.1 < n
  level_le : (l : ℤ) ≤ g.levels st.1
  dist_eq : st.2 = dist st.1
  not_farther : FloatOps.lt (dist entry) st.2 = false

theorem OnDescent.start (hlt : StrictWeak (FloatOps.lt (F := F))) {n entry l : ℕ}
    (hentry : entry < n) (hlevel : (l : ℤ) ≤ g.levels entry) :
    OnDescent dist n g entry l (entry, dist entry) :=
  ⟨hentry, hlevel, rfl, hlt.irrefl _⟩

/-- A pass goes to a node of the level, and leaves fewer nodes nearer. -/
theorem OnDescent.round (hlt : StrictWeak (FloatOps.lt (F := F))) {n entry l : ℕ}
    (hclosed : Closed n g l) {st st' : ℕ × F} (h : OnDescent dist n g entry l st)
    (hround : greedyRound dist g l st = some st') :
    OnDescent dist n g entry l st' ∧
      (Better FloatOps.lt dist (Finset.range n) st'.2).card <
        (Better FloatOps.lt dist (Finset.range n) st.2).card := by
  obtain ⟨hmem, hdist, hnear⟩ := greedyRound_some hlt.strictPartial hround
  obtain ⟨hv, hvl⟩ := hclosed st.1 h.lt h.level_le st'.1 hmem
  refine ⟨⟨hv, hvl, hdist, hlt.negTrans h.not_farther (hlt.asymm hnear)⟩, ?_⟩
  rw [hdist] at hnear ⊢
  exact card_better_lt hlt.strictPartial dist (Finset.mem_range.mpr hv) hnear

/-- **Greedy descent ends at a local minimum.** -/
theorem greedyDescend_localMin (hlt : StrictWeak (FloatOps.lt (F := F))) {p : Params} {n l : ℕ}
    (hg : WellFormed p n g) (dist : ℕ → F) {entry : ℕ} (hentry : entry < n)
    (hlevel : (l : ℤ) ≤ g.levels entry) :
    ∃ (k : ℕ) (st : ℕ × F), k < n ∧ Ends (greedyRound dist g l) k (entry, dist entry) st ∧
      OnDescent dist n g entry l st ∧
      (∀ w ∈ g.neighbors st.1 l, FloatOps.lt (dist w) st.2 = false) ∧
      (∀ fuel, n ≤ fuel → greedyLoop dist g l fuel (entry, dist entry) = st) ∧
      (n ≤ p.maxElements → greedyDescend p dist g entry l = st.1) := by
  have hstart : OnDescent dist n g entry l (entry, dist entry) := .start hlt hentry hlevel
  obtain ⟨k, st, hk, hend⟩ := exists_ends
    (fun st : ℕ × F => (Better FloatOps.lt dist (Finset.range n) st.2).card)
    (fun _ _ h hround => h.round hlt (hg.closed l) hround) hstart
  have hfew := card_better_self_lt hlt.strictPartial dist (Finset.mem_range.mpr hentry)
  rw [Finset.card_range] at hfew
  have hkn : k < n := lt_of_le_of_lt hk hfew
  have hloop : ∀ fuel, n ≤ fuel → greedyLoop dist g l fuel (entry, dist entry) = st := by
    intro fuel hfuel
    rw [greedyLoop_eq hlt.strictPartial]
    exact hend.iterate_eq (by omega)
  refine ⟨k, st, hkn, hend, ?_, greedyRound_none hlt.strictPartial hend.stopped, hloop, ?_⟩
  · exact hend.invariant (fun _ _ h hround => (h.round hlt (hg.closed l) hround).1) hstart
  · intro hn
    rw [greedyDescend, hloop _ (by omega)]

end

section
open StandIn

/-- Among the points 0, 1 and 5, a descent to 0 from the node at 5 ends. -/
theorem localMin_three_points :
    ∃ (k : ℕ) (st : ℕ × ℤ), k < 3 ∧
      Ends (greedyRound (linePair [0, 1, 5] 0) lineGraph 0) k (2, linePair [0, 1, 5] 0 2) st ∧
      OnDescent (linePair [0, 1, 5] 0) 3 lineGraph 2 0 st ∧
      (∀ w ∈ lineGraph.neighbors st.1 0, FloatOps.lt (linePair [0, 1, 5] 0 w) st.2 = false) ∧
      (∀ fuel, 3 ≤ fuel → greedyLoop (linePair [0, 1, 5] 0) lineGraph 0 fuel
        (2, linePair [0, 1, 5] 0 2) = st) ∧
      (3 ≤ lineParams.maxElements →
        greedyDescend lineParams (linePair [0, 1, 5] 0) lineGraph 2 0 = st.1) :=
  greedyDescend_localMin strictWeak_ints wellFormed_lineGraph (linePair [0, 1, 5] 0) (by decide)
    (by decide)

example : greedyDescend lineParams (linePair [0, 1, 5] 0) lineGraph 2 0 = 0 := by decide

end

end Graph

end VectorSearch.Hnsw
