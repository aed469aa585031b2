import VectorSearch.Hnsw.IdAllocation
import VectorSearch.Hnsw.Sequential

/-! # The entry point under concurrent insertions

A call looks at the entry point under the shared lock to see which mode of `entryLock_` it needs,
lets go, acquires the lock in that mode and reads the entry point again.  In between other calls may
have raised the highest level, but never lowered it: `Knows` says what a call still knows of what it
saw, `Inv` that all of them do, and `entry_on_top` draws the conclusions for every run.

The ids have to be told from `kNone`: a call that takes its id when `2 ^ 32 - 1` others were counted
becomes an entry point that looks like none (`entry_none_after_return`). -/

namespace VectorSearch.Hnsw

open RwLock (Mode)

section
variable {F : Type} [Platform F] {p : Params} {pair : ℕ → ℕ → F}

/-- The mode in which a thread holds `entryLock_`. -/
def Task.mode : Task F → Option Mode
  | .inside mode _ _ _ _ => some mode
  | _ => none

/-- The node of a call and its level, when they are set. -/
def Task.node : Task F → Option (ℕ × ℕ)
  | .ready id level => some (id, level)
  | .probed id level _ => some (id, level)
  | .inside _ id level _ _ => some (id, level)
  | _ => none

theorem Task.given_of_node {task : Task F} {id level : ℕ} (h : task.node = some (id, level)) :
    task.given p = some id := by
  cases task with
  | idle | counted => cases h
  | ready | probed | inside =>
      cases h
      rfl

/-! ### The jobs -/

theorem Job.start_eq_first (pair : ℕ → ℕ → F) (g : Graph) (id level : ℕ) :
    Job.start pair g id level = .first ↔ g.entryPoint = kNone := by
  unfold Job.start Job.enter
  split_ifs with hnone
  · exact iff_of_true rfl hnone
  · exact iff_of_false nofun hnone
  · exact iff_of_false nofun hnone

theorem Job.start_ne_settled (pair : ℕ → ℕ → F) (g : Graph) (id level : ℕ) :
    Job.start pair g id level ≠ .settled := by
  unfold Job.start Job.enter
  split_ifs <;> nofun

theorem Job.next_ne (pair : ℕ → ℕ → F) (id l cur : ℕ) :
    Job.next pair id l cur ≠ .first ∧ Job.next pair id l cur ≠ .settled := by
  cases l <;> exact ⟨nofun, nofun⟩

/-- Linking leads to linking or to its end, and changes lists only. -/
theorem Job.work_spec (p : Params) (pair : ℕ → ℕ → F) (id level : ℕ) (g : Graph) {job : Job F}
    (h : job.Linking) : (job.work p pair id level g).1.frame = g.frame ∧
      (job.work p pair id level g).2 ≠ .first ∧ (job.work p pair id level g).2 ≠ .settled := by
  cases job with
  | first | linked | settled => exact h.elim
  | descend l cur curDist =>
      unfold Job.work
      simp only
      split
      · exact ⟨rfl, nofun, nofun⟩
      · split_ifs
        · exact ⟨rfl, nofun, nofun⟩
        · exact ⟨rfl, nofun, nofun⟩
  | search l b =>
      unfold Job.work
      simp only
      split
      · exact ⟨rfl, nofun, nofun⟩
      · split_ifs
        · exact ⟨rfl, nofun, nofun⟩
        · exact ⟨rfl, nofun, nofun⟩
  | connect l selected =>
      cases selected with
      | nil => exact ⟨rfl, next_ne pair id l id⟩
      | cons n rest => exact ⟨Graph.frame_setBlock _ _ _ _, nofun, nofun⟩
  | back l cur rest =>
      cases rest with
      | nil => exact ⟨rfl, next_ne pair id l cur⟩
      | cons n rest => exact ⟨Graph.frame_linkBack p pair id n l g, nofun, nofun⟩

namespace Inserts

/-- Replacing a task changes nothing that the new one has in common with it. -/
theorem congr_setThread {β : Type} (f : Task F → β) (s : Inserts F) {t : ℕ} {task : Task F}
    (h : f task = f (s.threads t)) (u : ℕ) : f ((s.setThread t task).threads u) = f (s.threads u) := by
  by_cases hu : u = t
  · rw [hu, threads_self, h]
  · rw [threads_of_ne _ _ hu]

theorem modes_setThread (s : Inserts F) (t : ℕ) (task : Task F) :
    (fun u => ((s.setThread t task).threads u).mode) =
      Function.update (fun u => (s.threads u).mode) t task.mode :=
  Function.comp_update Task.mode s.threads t task

/-- The next id is not cut, and it is not the one that stands for none. -/
def IdFits (p : Params) (s : Inserts F) : Prop :=
  s.count < 2 ^ 32 ∧ (s.count < p.maxElements → s.count ≠ kNone)

/-! ### The invariant -/

/-- The slot of the node is filled. -/
def Filled (s : Inserts F) (id : ℕ) : Prop :=
  id ∈ s.returned ∨ ∃ t level, (s.threads t).node = some (id, level)

/-- What the entry point, the highest level and the calls know of each other. -/
structure Inv (p : Params) (s : Inserts F) : Prop where
  alloc : ∃ n R, Alloc p s n R
  ne_none : ∀ {t id}, (s.threads t).given p = some id → id ≠ kNone
  tracks : s.entryLock.Tracks fun t => (s.threads t).mode
  node : ∀ {t id level}, (s.threads t).node = some (id, level) → s.graph.levels id = level
  probed : ∀ {t id level}, s.threads t = .probed id level false →
    s.graph.entryPoint ≠ kNone ∧ (level : ℤ) ≤ s.graph.maxLevel
  shared : ∀ {t id level curMaxLevel job}, s.threads t = .inside .shared id level curMaxLevel job →
    job ≠ .first ∧ s.graph.entryPoint ≠ kNone ∧ (level : ℤ) ≤ curMaxLevel ∧
      curMaxLevel ≤ s.graph.maxLevel
  exclusive : ∀ {t id level curMaxLevel job},
    s.threads t = .inside .exclusive id level curMaxLevel job → job ≠ .settled →
      curMaxLevel = s.graph.maxLevel ∧ (job = .first ↔ s.graph.entryPoint = kNone)
  settled : ∀ {t mode id level curMaxLevel},
    s.threads t = .inside mode id level curMaxLevel .settled →
      s.graph.entryPoint ≠ kNone ∧ (level : ℤ) ≤ s.graph.maxLevel
  empty : s.graph.entryPoint = kNone → s.returned = [] ∧ s.graph.maxLevel = 0
  entry : s.graph.entryPoint ≠ kNone → s.graph.levels s.graph.entryPoint = s.graph.maxLevel ∧
    (s.graph.entryPoint ∈ s.returned ∨ ∃ t, (s.threads t).mode.isSome ∧
      (s.threads t).given p = some s.graph.entryPoint)
  returned : ∀ id ∈ s.returned, s.graph.levels id ≤ s.graph.maxLevel

variable {s s' : Inserts F} {t u id level : ℕ}

theorem Inv.start : Inv p (start : Inserts F) where
  alloc := ⟨0, ∅, Alloc.start⟩
  ne_none h := nomatch h
  tracks := RwLock.Tracks.free
  node h := nomatch h
  probed h := nomatch h
  shared h := nomatch h
  exclusive h := nomatch h
  settled h := nomatch h
  empty _ := ⟨rfl, rfl⟩
  entry h := absurd rfl h
  returned _ h := nomatch h

theorem Inv.filled_entry (h : Inv p s) (hne : s.graph.entryPoint ≠ kNone) :
    s.Filled s.graph.entryPoint := by
  refine (h.entry hne).2.imp_right ?_
  rintro ⟨t, hmode, hgiven⟩
  cases hph : s.threads t with
  | inside mode id level curMaxLevel job =>
      rw [hph] at hgiven
      cases hgiven
      exact ⟨t, level, by rw [hph]; rfl⟩
  | idle | counted | ready | probed =>
      rw [hph] at hmode
      cases hmode

/-! ### What a call knows -/

/-- What a call knows of the entry point and of the highest level. -/
structure Knows (p : Params) (g : Graph) (task : Task F) : Prop where
  ne_none : ∀ {id}, task.given p = some id → id ≠ kNone
  node : ∀ {id level}, task.node = some (id, level) → g.levels id = level
  probed : ∀ {id level}, task = .probed id level false →
    g.entryPoint ≠ kNone ∧ (level : ℤ) ≤ g.maxLevel
  shared : ∀ {id level curMaxLevel job}, task = .inside .shared id level curMaxLevel job →
    job ≠ .first ∧ g.entryPoint ≠ kNone ∧ (level : ℤ) ≤ curMaxLevel ∧ curMaxLevel ≤ g.maxLevel
  exclusive : ∀ {id level curMaxLevel job}, task = .inside .exclusive id level curMaxLevel job →
    job ≠ .settled → curMaxLevel = g.maxLevel ∧ (job = .first ↔ g.entryPoint = kNone)
  settled : ∀ {mode id level curMaxLevel}, task = .inside mode id level curMaxLevel .settled →
    g.entryPoint ≠ kNone ∧ (level : ℤ) ≤ g.maxLevel

theorem Inv.knows (h : Inv p s) (t : ℕ) : Knows p s.graph (s.threads t) where
  ne_none := h.ne_none
  node := h.node
  probed := h.probed
  shared := h.shared
  exclusive := h.exclusive
  settled := h.settled

theorem Inv.of_knows (halloc : ∃ n R, Alloc p s n R)
    (htracks : s.entryLock.Tracks fun t => (s.threads t).mode)
    (hknows : ∀ t, Knows p s.graph (s.threads t))
    (hempty : s.graph.entryPoint = kNone → s.returned = [] ∧ s.graph.maxLevel = 0)
    (hentry : s.graph.entryPoint ≠ kNone →
      s.graph.levels s.graph.entryPoint = s.graph.maxLevel ∧
        (s.graph.entryPoint ∈ s.returned ∨ ∃ t, (s.threads t).mode.isSome ∧
          (s.threads t).given p = some s.graph.entryPoint))
    (hreturned : ∀ id ∈ s.returned, s.graph.levels id ≤ s.graph.maxLevel) : Inv p s where
  alloc := halloc
  ne_none := (hknows _).ne_none
  tracks := htracks
  node := (hknows _).node
  probed := (hknows _).probed
  shared := (hknows _).shared
  exclusive := (hknows _).exclusive
  settled := (hknows _).settled
  empty := hempty
  entry := hentry
  returned := hreturned

variable {g g' : Graph} {task : Task F}

/-- A change to the lists, or to the levels of other nodes. -/
theorem Knows.congr (h : Knows p g task) (hentry : g'.entryPoint = g.entryPoint)
    (hmax : g'.maxLevel = g.maxLevel)
    (hlevels : ∀ {id level}, task.node = some (id, level) → g'.levels id = g.levels id) :
    Knows p g' task where
  ne_none := h.ne_none
  node hn := (hlevels hn).trans (h.node hn)
  probed ht := by
    rw [hentry, hmax]
    exact h.probed ht
  shared ht := by
    rw [hentry, hmax]
    exact h.shared ht
  exclusive ht := by
    rw [hentry, hmax]
    exact h.exclusive ht
  settled ht := by
    rw [hentry, hmax]
    exact h.settled ht

/-- A call that does not hold the lock. -/
theorem Knows.of_outside (hmode : task.mode = none)
    (hnone : ∀ {id}, task.given p = some id → id ≠ kNone)
    (hnode : ∀ {id level}, task.node = some (id, level) → g.levels id = level)
    (hprobed : ∀ {id level}, task = .probed id level false →
      g.entryPoint ≠ kNone ∧ (level : ℤ) ≤ g.maxLevel) : Knows p g task := by
  have hnot : ∀ {mode id level curMaxLevel job},
      task ≠ .inside mode id level curMaxLevel job := by
    rintro mode id level curMaxLevel job rfl
    cases hmode
  exact ⟨hnone, hnode, hprobed, fun ht => absurd ht hnot, fun ht => absurd ht hnot,
    fun ht => absurd ht hnot⟩

/-- A call that holds the lock. -/
theorem Knows.of_inside {mode : Mode} {curMaxLevel : ℤ} {job : Job F} (hnone : id ≠ kNone)
    (hnode : g.levels id = level)
    (hshared : mode = .shared → job ≠ .first ∧ g.entryPoint ≠ kNone ∧ (level : ℤ) ≤ curMaxLevel ∧
      curMaxLevel ≤ g.maxLevel)
    (hexclusive : mode = .exclusive → job ≠ .settled →
      curMaxLevel = g.maxLevel ∧ (job = .first ↔ g.entryPoint = kNone))
    (hsettled : job = .settled → g.entryPoint ≠ kNone ∧ (level : ℤ) ≤ g.maxLevel) :
    Knows p g (.inside mode id level curMaxLevel job) := by
  refine ⟨?_, ?_, ?_, ?_, ?_, ?_⟩
  · rintro _ ⟨⟩
    exact hnone
  · rintro _ _ ⟨⟩
    exact hnode
  · rintro _ _ ⟨⟩
  · rintro _ _ _ _ ⟨⟩
    exact hshared rfl
  · rintro _ _ _ _ ⟨⟩
    exact hexclusive rfl
  · rintro _ _ _ _ ⟨⟩
    exact hsettled rfl

/-- The thread that moves knows what it has to, and the others what they knew. -/
theorem Inv.knows_all (h : Inv p s) (hother : ∀ u ≠ t, s'.threads u = s.threads u)
    (hself : Knows p s'.graph (s'.threads t)) (hentry : s'.graph.entryPoint = s.graph.entryPoint)
    (hmax : s'.graph.maxLevel = s.graph.maxLevel)
    (hlevels : ∀ i, s.Filled i → s'.graph.levels i = s.graph.levels i) (u : ℕ) :
    Knows p s'.graph (s'.threads u) := by
  by_cases hu : u = t
  · rwa [hu]
  · rw [hother u hu]
    exact (h.knows u).congr hentry hmax fun hn => hlevels _ (Or.inr ⟨u, _, hn⟩)

/-! ### The steps -/

/-- A thread outside the lock goes on outside the lock. -/
theorem Inv.outside (h : Inv p s) (halloc : ∃ n R, Alloc p s' n R)
    (hnone : ∀ {id}, (s'.threads t).given p = some id → id ≠ kNone)
    (hlock : s'.entryLock = s.entryLock) (hret : s'.returned = s.returned)
    (hentry : s'.graph.entryPoint = s.graph.entryPoint)
    (hmax : s'.graph.maxLevel = s.graph.maxLevel)
    (hlevels : ∀ i, s.Filled i → s'.graph.levels i = s.graph.levels i)
    (hother : ∀ u ≠ t, s'.threads u = s.threads u) (ht : (s.threads t).mode = none)
    (ht' : (s'.threads t).mode = none)
    (hnode : ∀ {id level}, (s'.threads t).node = some (id, level) → s'.graph.levels id = level)
    (hprobed : ∀ {id level}, s'.threads t = .probed id level false →
      s.graph.entryPoint ≠ kNone ∧ (level : ℤ) ≤ s.graph.maxLevel) : Inv p s' := by
  have hmode : ∀ u, (s'.threads u).mode = (s.threads u).mode := by
    intro u
    by_cases hu : u = t
    · rw [hu, ht, ht']
    · rw [hother u hu]
  have hself : Knows p s'.graph (s'.threads t) := by
    refine .of_outside ht' hnone hnode fun hp => ?_
    rw [hentry, hmax]
    exact hprobed hp
  refine .of_knows halloc (hlock ▸ h.tracks.congr (funext hmode))
    (h.knows_all hother hself hentry hmax hlevels) ?_ (fun hne => ?_) fun id hid => ?_
  · rw [hentry, hmax, hret]
    exact h.empty
  · rw [hentry] at hne ⊢
    obtain ⟨hlevel, hin⟩ := h.entry hne
    rw [hlevels _ (h.filled_entry hne), hmax, hret]
    refine ⟨hlevel, hin.imp_right ?_⟩
    rintro ⟨u, hu, hgiven⟩
    have hut : u ≠ t := by
      rintro rfl
      rw [ht] at hu
      cases hu
    exact ⟨u, by rwa [hmode], by rwa [hother u hut]⟩
  · rw [hret] at hid
    rw [hlevels id (Or.inl hid), hmax]
    exact h.returned id hid

/-- A call goes on linking, or finds that its level is not the highest. -/
theorem Inv.inside (h : Inv p s) {mode : Mode} {curMaxLevel : ℤ} {job job' : Job F} {graph : Graph}
    (hph : s.threads t = .inside mode id level curMaxLevel job)
    (hframe : graph.frame = s.graph.frame) (hjob : job ≠ .first ∧ job ≠ .settled)
    (hfirst : job' ≠ .first) (hsettled : job' = .settled → (level : ℤ) ≤ curMaxLevel) :
    Inv p ({ s with graph }.setThread t (.inside mode id level curMaxLevel job')) := by
  simp only [Graph.frame, Prod.mk.injEq] at hframe
  obtain ⟨hlevels, -, hentry, hmax⟩ := hframe
  have hknown : s.graph.entryPoint ≠ kNone ∧ curMaxLevel ≤ s.graph.maxLevel := by
    cases mode with
    | shared => exact ⟨(h.shared hph).2.1, (h.shared hph).2.2.2⟩
    | exclusive =>
        obtain ⟨hcur, hnone⟩ := h.exclusive hph hjob.2
        exact ⟨fun he => hjob.1 (hnone.mpr he), hcur.le⟩
  have hself : Knows p s.graph (.inside mode id level curMaxLevel job') := by
    refine .of_inside (h.ne_none (congrArg (Task.given p) hph)) (h.node (congrArg Task.node hph))
      ?_ ?_ fun hj => ⟨hknown.1, (hsettled hj).trans hknown.2⟩
    · rintro rfl
      exact ⟨hfirst, (h.shared hph).2⟩
    · rintro rfl -
      exact ⟨(h.exclusive hph hjob.2).1, iff_of_false hfirst hknown.1⟩
  have hmode := congr_setThread Task.mode { s with graph }
    (show (Task.inside mode id level curMaxLevel job').mode = _ from (congrArg Task.mode hph).symm)
  have hgiven := congr_setThread (Task.given p) { s with graph }
    (show (Task.inside mode id level curMaxLevel job').given p = _ from
      (congrArg (Task.given p) hph).symm)
  obtain ⟨n, R, hn⟩ := h.alloc
  refine .of_knows ⟨n, R, (hn.congr graph s.entryLock).setThread (congrArg (Task.given p) hph) rfl⟩
    (h.tracks.congr (funext hmode)) (h.knows_all (fun u hu => threads_of_ne _ _ hu) ?_ hentry hmax
      fun i _ => congrFun hlevels i) ?_ (fun hne => ?_) fun i hi => ?_
  · rw [threads_self]
    exact hself.congr hentry hmax fun _ => congrFun hlevels _
  · change graph.entryPoint = kNone → s.returned = [] ∧ graph.maxLevel = 0
    rw [hentry, hmax]
    exact h.empty
  · simp only [hmode, hgiven]
    change graph.entryPoint ≠ kNone at hne
    change graph.levels graph.entryPoint = graph.maxLevel ∧ (graph.entryPoint ∈ s.returned ∨
      ∃ u, (s.threads u).mode.isSome ∧ (s.threads u).given p = some graph.entryPoint)
    rw [hlevels, hentry, hmax] at *
    exact h.entry hne
  · change graph.levels i ≤ graph.maxLevel
    rw [hlevels, hmax]
    exact h.returned i hi

/-- A call acquires the lock; in shared mode it saw before that it stays below the entry point. -/
theorem Inv.acquired (h : Inv p s) {becomesEntry : Bool} {entryLock : RwLock ℕ}
    (hph : s.threads t = .probed id level becomesEntry)
    (hacq : s.entryLock.acquire t (modeFor becomesEntry) = some entryLock) :
    Inv p (s.acquired pair t id level (modeFor becomesEntry) entryLock) := by
  have hfirst := Job.start_eq_first pair s.graph id level
  have hself : Knows p s.graph (.inside (modeFor becomesEntry) id level s.graph.maxLevel
      (.start pair s.graph id level)) := by
    refine .of_inside (h.ne_none (congrArg (Task.given p) hph)) (h.node (congrArg Task.node hph))
      (fun hm => ?_) (fun _ _ => ⟨rfl, hfirst⟩)
      fun hj => absurd hj (Job.start_ne_settled pair s.graph id level)
    cases becomesEntry with
    | true => cases hm
    | false =>
        obtain ⟨hne, hle⟩ := h.probed hph
        exact ⟨fun hj => hne (hfirst.mp hj), hne, hle, le_rfl⟩
  have hother : ∀ u ≠ t, (s.acquired pair t id level (modeFor becomesEntry) entryLock).threads u =
      s.threads u := fun u hu => threads_of_ne _ _ hu
  obtain ⟨n, R, hn⟩ := h.alloc
  refine .of_knows
    ⟨n, R, (hn.congr s.graph entryLock).setThread (congrArg (Task.given p) hph) rfl⟩
    ((h.tracks.acquire hacq).congr (modes_setThread { s with entryLock } t _))
    (h.knows_all hother ?_ rfl rfl fun _ _ => rfl) h.empty (fun hne => ?_) h.returned
  · rw [Inserts.acquired, threads_self]
    exact hself
  · obtain ⟨hlevel, hin⟩ := h.entry hne
    refine ⟨hlevel, hin.imp_right ?_⟩
    rintro ⟨u, hu, hgiven⟩
    have hut : u ≠ t := by
      rintro rfl
      rw [hph] at hu
      cases hu
    exact ⟨u, by rwa [hother u hut], by rwa [hother u hut]⟩

/-- What a call that becomes the entry point knows: it is alone, and its level is the highest. -/
theorem Inv.alone_of_promote (h : Inv p s) {mode : Mode} {curMaxLevel : ℤ} {job : Job F}
    (hph : s.threads t = .inside mode id level curMaxLevel job)
    (hjob : job = .first ∨ job = .linked ∧ curMaxLevel < level) :
    mode = .exclusive ∧ s.graph.maxLevel ≤ level ∧ ∀ u ≠ t, (s.threads u).mode = none := by
  cases mode with
  | shared =>
      obtain ⟨hne, -, hle, -⟩ := h.shared hph
      exact absurd hle (not_le.mpr (hjob.resolve_left hne).2)
  | exclusive =>
      have hmode : (s.threads t).mode = some .exclusive := by rw [hph]; rfl
      have hunsettled : job ≠ .settled := by
        rintro rfl
        simp at hjob
      obtain ⟨hcur, hnone⟩ := h.exclusive hph hunsettled
      refine ⟨rfl, ?_, fun u hu => h.tracks.eq_none hmode hu⟩
      obtain hfirst | ⟨-, hlt⟩ := hjob
      · rw [(h.empty (hnone.mp hfirst)).2]
        exact Int.natCast_nonneg level
      · exact hcur ▸ hlt.le

/-- A call becomes the entry point. -/
theorem Inv.promote (h : Inv p s) {mode : Mode} {curMaxLevel : ℤ} {job : Job F}
    (hph : s.threads t = .inside mode id level curMaxLevel job)
    (hjob : job = .first ∨ job = .linked ∧ curMaxLevel < level) :
    Inv p (s.promote t id level mode curMaxLevel) := by
  obtain ⟨rfl, hmax, halone⟩ := h.alone_of_promote hph hjob
  have hnone : id ≠ kNone := h.ne_none (congrArg (Task.given p) hph)
  have hlevel : s.graph.levels id = level := h.node (congrArg Task.node hph)
  have hself : (s.promote t id level .exclusive curMaxLevel).threads t =
      .inside .exclusive id level curMaxLevel .settled := threads_self _ _ _
  have hmode := congr_setThread Task.mode
    { s with graph := { s.graph with entryPoint := id, maxLevel := level } }
    (show (Task.inside .exclusive id level curMaxLevel .settled).mode = _ from
      (congrArg Task.mode hph).symm)
  obtain ⟨n, R, hn⟩ := h.alloc
  refine .of_knows ⟨n, R, (hn.congr _ s.entryLock).setThread (congrArg (Task.given p) hph) rfl⟩
    (h.tracks.congr (funext hmode)) (fun u => ?_) (fun he => absurd he hnone)
    (fun _ => ⟨hlevel, Or.inr ⟨t, ?_, ?_⟩⟩) fun i hi => (h.returned i hi).trans hmax
  · by_cases hu : u = t
    · rw [hu, hself]
      exact .of_inside hnone hlevel nofun (fun _ hj => absurd rfl hj) fun _ => ⟨hnone, le_rfl⟩
    · have hthread : (s.promote t id level .exclusive curMaxLevel).threads u = s.threads u :=
        threads_of_ne _ _ hu
      rw [hthread]
      exact .of_outside (halone u hu) h.ne_none h.node fun hp =>
        ⟨hnone, (h.probed hp).2.trans hmax⟩
  · rw [hself]
    rfl
  · rw [hself]
    rfl

/-- A call returns. -/
theorem Inv.release (h : Inv p s) {mode : Mode} {curMaxLevel : ℤ}
    (hph : s.threads t = .inside mode id level curMaxLevel .settled) :
    Inv p (s.release t id mode) := by
  have hgiven : (s.threads t).given p = some id := congrArg (Task.given p) hph
  have hlevel : s.graph.levels id = level := h.node (congrArg Task.node hph)
  obtain ⟨hne, hle⟩ := h.settled hph
  have hself : (s.release t id mode).threads t = .idle := threads_self _ _ _
  have hother : ∀ u ≠ t, (s.release t id mode).threads u = s.threads u := fun u hu =>
    threads_of_ne _ _ hu
  obtain ⟨n, R, hn⟩ := h.alloc
  refine .of_knows ⟨n, R, hn.release hgiven mode⟩
    ((h.tracks.release (congrArg Task.mode hph)).congr (modes_setThread _ t .idle))
    (h.knows_all hother ?_ rfl rfl fun _ _ => rfl) (fun he => absurd he hne) (fun he => ?_)
    fun i hi => ?_
  · rw [hself]
    exact .of_outside rfl nofun nofun nofun
  · obtain ⟨hl, hret | ⟨u, hu, hug⟩⟩ := h.entry he
    · exact ⟨hl, Or.inl (List.mem_cons_of_mem _ hret)⟩
    · refine ⟨hl, ?_⟩
      by_cases hut : u = t
      · rw [hut, hgiven] at hug
        exact Or.inl (Option.some.inj hug ▸ List.mem_cons_self)
      · exact Or.inr ⟨u, by rwa [hother u hut], by rwa [hother u hut]⟩
  · obtain rfl | hi := List.mem_cons.mp hi
    · change s.graph.levels i ≤ s.graph.maxLevel
      rw [hlevel]
      exact hle
    · exact h.returned i hi

/-- **Every move keeps the invariant**, if no id is cut and none is given that stands for none. -/
theorem Move.inv (hm : Move p pair s t s') (h : Inv p s)
    (hfits : s.threads t = .idle → s.IdFits p) : Inv p s' := by
  obtain ⟨n, R, hn⟩ := h.alloc
  obtain ⟨n', R', -, hn'⟩ := hm.alloc hn fun hidle => (hfits hidle).1
  have halloc : ∃ n R, Alloc p s' n R := ⟨n', R', hn'⟩
  have hother : ∀ u ≠ t, s'.threads u = s.threads u := fun u hu => hm.threads_of_ne hu
  cases hm with
  | take hph =>
      obtain ⟨hlt, hne⟩ := hfits hph
      refine h.outside halloc ?_ rfl rfl rfl rfl (fun _ _ => rfl) hother (by rw [hph]; rfl)
        ?_ ?_ ?_ <;> rw [Inserts.take, threads_self]
      · intro id hid
        rw [Nat.mod_eq_of_lt hlt] at hid
        obtain ⟨hroom, hid⟩ := Option.ite_none_right_eq_some.mp hid
        exact Option.some.inj hid ▸ hne hroom
      · rfl
      · rintro _ _ ⟨⟩
      · rintro _ _ ⟨⟩
  | reject hph hfull =>
      refine h.outside halloc ?_ rfl rfl rfl rfl (fun _ _ => rfl) hother (by rw [hph]; rfl) ?_ ?_ ?_
        <;> rw [Inserts.reject, threads_self]
      · rintro _ ⟨⟩
      · rfl
      · rintro _ _ ⟨⟩
      · rintro _ _ ⟨⟩
  | @fill id level hph hroom =>
      have hgiven : (s.threads t).given p = some id := by rw [hph, Task.given_of_lt hroom]
      -- nobody has filled that slot
      have hfree : ∀ i, s.Filled i → i ≠ id := by
        rintro i (hret | ⟨u, l, hu⟩) rfl
        · exact hn.apart hgiven hret
        · obtain rfl := hn.inj (Task.given_of_node hu) hgiven
          rw [hph] at hu
          cases hu
      refine h.outside halloc ?_ rfl rfl rfl rfl
        (fun i hi => Function.update_of_ne (hfree i hi) _ _) hother (by rw [hph]; rfl) ?_ ?_ ?_ <;>
        rw [Inserts.fill, threads_self]
      · rintro i ⟨⟩
        exact h.ne_none hgiven
      · rfl
      · rintro i l ⟨⟩
        exact Function.update_self _ _ _
      · rintro _ _ ⟨⟩
  | @probe id level hph hlock =>
      have hgiven : (s.threads t).given p = some id := by rw [hph]; rfl
      refine h.outside halloc ?_ rfl rfl rfl rfl (fun _ _ => rfl) hother (by rw [hph]; rfl)
        ?_ ?_ ?_ <;> rw [Inserts.probe, threads_self]
      · rintro i ⟨⟩
        exact h.ne_none hgiven
      · rfl
      · rintro i l ⟨⟩
        exact h.node (t := t) (by rw [hph]; rfl)
      · intro i l hprobed
        obtain ⟨rfl, rfl, hfalse⟩ := Task.probed.inj hprobed
        simpa using hfalse
  | acquire hph hacq => exact h.acquired hph hacq
  | @work mode id level curMaxLevel job hph hjob =>
      obtain ⟨hframe, hfirst, hsettled⟩ := Job.work_spec p pair id level s.graph hjob
      refine h.inside hph hframe ⟨?_, ?_⟩ hfirst fun he => absurd he hsettled
      · rintro rfl
        exact hjob
      · rintro rfl
        exact hjob
  | promote hph hjob => exact h.promote hph hjob
  | keep hph hle => exact h.inside hph rfl ⟨by rintro ⟨⟩, by rintro ⟨⟩⟩ (by rintro ⟨⟩) fun _ => hle
  | release hph => exact h.release hph

/-- The highest level is never lowered. -/
theorem Move.maxLevel_le (hm : Move p pair s t s') (h : Inv p s) :
    s.graph.maxLevel ≤ s'.graph.maxLevel := by
  cases hm with
  | promote hph hjob => exact (h.alone_of_promote hph hjob).2.1
  | @work mode id level curMaxLevel job hph hjob =>
      have hframe := (Job.work_spec p pair id level s.graph hjob).1
      exact (congrArg (fun f => f.2.2.2) hframe).ge
  | take | reject | fill | probe | acquire | keep | release => exact le_rfl

/-! ### Runs -/

/-- The entry point is on top: it is none only before the first call returns, and a call that holds
the lock in shared mode does not rise above the highest level that it read. -/
structure Top (s : Inserts F) : Prop where
  empty : s.graph.entryPoint = kNone → s.returned = []
  level : s.graph.entryPoint ≠ kNone → s.graph.levels s.graph.entryPoint = s.graph.maxLevel
  returned : ∀ id ∈ s.returned, s.graph.levels id ≤ s.graph.maxLevel
  shared : ∀ {t id level curMaxLevel job}, s.threads t = .inside .shared id level curMaxLevel job →
    (level : ℤ) ≤ curMaxLevel

theorem Inv.top (h : Inv p s) : s.Top where
  empty he := (h.empty he).1
  level hne := (h.entry hne).1
  returned := h.returned
  shared hph := (h.shared hph).2.2.1

theorem Reached.inv (h : Reached p pair (fun s t _ => s.threads t = .idle → s.IdFits p) s) :
    Inv p s := by
  induction h with
  | start => exact Inv.start
  | step _ hstep hfits ih => exact (move_of_step hstep).inv ih hfits

/-- **The entry point stays on top**, in every run whose calls take ids that fit: in every state, and
the highest level never falls. -/
theorem entry_on_top (h : Reached p pair (fun s t _ => s.threads t = .idle → s.IdFits p) s) :
    s.Top ∧ ∀ t level s', s.step p pair t level = some s' →
      s.graph.maxLevel ≤ s'.graph.maxLevel :=
  ⟨h.inv.top, fun _ _ _ hstep => (move_of_step hstep).maxLevel_le h.inv⟩

/-- A call that finds no entry point, alone from the filling of its slot to its return. -/
theorem Reached.first {ok : Inserts F → ℕ → Inserts F → Prop} (h : Reached p pair ok s)
    (hok : ∀ s s', s.threads t ≠ .idle → ok s t s') (hph : s.threads t = .counted id)
    (hroom : id < p.maxElements) (hlock : s.entryLock = RwLock.free ℕ)
    (hentry : s.graph.entryPoint = kNone) (level : ℕ) :
    ∃ s', Reached p pair ok s' ∧ s'.threads t = .idle ∧ (∀ u ≠ t, s'.threads u = s.threads u) ∧
      s'.graph.entryPoint = id ∧ s'.graph.maxLevel = level ∧ s'.returned = id :: s.returned := by
  let held : RwLock ℕ := ⟨∅, some t⟩
  let s₁ := s.fill p t id level
  let s₂ := s₁.probe t id level
  let s₃ := s₂.acquired pair t id level .exclusive held
  let s₄ := s₃.promote t id level .exclusive s.graph.maxLevel
  have hready : s₁.threads t = .ready id level := threads_self _ _ _
  have hprobed : s₂.threads t = .probed id level true := by
    have hself : s₂.threads t = .probed id level
        (decide (s.graph.entryPoint = kNone) || decide (s.graph.maxLevel < level)) :=
      threads_self _ _ _
    rwa [decide_eq_true hentry, Bool.true_or] at hself
  have hfirst : s₃.threads t = .inside .exclusive id level s.graph.maxLevel .first := by
    have hself : s₃.threads t = .inside .exclusive id level s.graph.maxLevel
        (.start pair s₂.graph id level) := threads_self _ _ _
    rwa [(Job.start_eq_first pair s₂.graph id level).mpr hentry] at hself
  have hsettled : s₄.threads t = .inside .exclusive id level s.graph.maxLevel .settled :=
    threads_self _ _ _
  have hstep₁ : s.step p pair t level = some s₁ := by
    simp only [Inserts.step, hph, if_neg (not_le.mpr hroom), s₁]
  have hstep₂ : s₁.step p pair t 0 = some s₂ := by
    have hwriter : s₁.entryLock.writer = none := congrArg RwLock.writer hlock
    simp only [Inserts.step, hready, hwriter, Option.isNone_none, if_true, s₂]
  have hstep₃ : s₂.step p pair t 0 = some s₃ := by
    have hfree : s₂.entryLock = RwLock.free ℕ := hlock
    simp only [Inserts.step, hprobed, hfree, modeFor]
    rfl
  have hstep₄ : s₃.step p pair t 0 = some s₄ := by
    simp only [Inserts.step, hfirst, s₄]
  have hstep₅ : s₄.step p pair t 0 = some (s₄.release t id .exclusive) := by
    simp only [Inserts.step, hsettled]
  refine ⟨_, ((((h.step hstep₁ (hok _ _ ?_)).step hstep₂ (hok _ _ ?_)).step hstep₃
    (hok _ _ ?_)).step hstep₄ (hok _ _ ?_)).step hstep₅ (hok _ _ ?_), threads_self _ _ _,
    fun u hu => ?_, rfl, rfl, rfl⟩
  · rw [hph]
    nofun
  · rw [hready]
    nofun
  · rw [hprobed]
    nofun
  · rw [hfirst]
    nofun
  · rw [hsettled]
    nofun
  · have h₁ := (move_of_step hstep₁).threads_of_ne hu
    have h₂ := (move_of_step hstep₂).threads_of_ne hu
    have h₃ := (move_of_step hstep₃).threads_of_ne hu
    have h₄ := (move_of_step hstep₄).threads_of_ne hu
    rw [(move_of_step hstep₅).threads_of_ne hu, h₄, h₃, h₂, h₁]

open StandIn

/-- Threads 0 and 1 look at an index without entry point, and thread 0 returns.  Then thread 2 looks
at it. -/
def staleProbe : List (ℕ × ℕ) :=
  [(0, 0), (0, 0), (1, 0), (1, 1), (0, 0), (1, 0), (0, 0), (0, 0), (0, 0), (2, 0), (2, 0), (2, 0)]

/-- Thread 1 takes the lock, links its node and returns, and thread 2 takes the lock. -/
def staleLock : List (ℕ × ℕ) := List.replicate 8 (1, 0) ++ [(2, 0)]

/-- Thread 1 has seen no entry point and thread 2 has seen node 0, when they take the lock one after
the other: node 1 is linked all the same and becomes the entry point, and thread 2 starts there. -/
theorem entry_on_top_stale : ∃ s s' : Inserts ℤ,
    (s.Top ∧ s.threads 1 = .probed 1 1 true ∧ s.graph.entryPoint = 0) ∧
      s'.Top ∧ s'.graph.entryPoint = 1 ∧ s'.graph.neighbors 1 0 = [0] ∧ s'.returned = [1, 0] ∧
        s'.entryLock.readers = {2} := by
  have hprobe : ((start : Inserts ℤ).run Index.wideParams (fun _ _ => 0)
      (fun s _ => decide (s.count < kNone)) staleProbe).map
        (fun s => (s.threads 1, s.graph.entryPoint)) = some (.probed 1 1 true, 0) := rfl
  obtain ⟨s, hs, hseen⟩ := Option.map_eq_some_iff.mp hprobe
  have hlock : ((start : Inserts ℤ).run Index.wideParams (fun _ _ => 0)
      (fun s _ => decide (s.count < kNone)) (staleProbe ++ staleLock)).map
        (fun s => (s.graph.entryPoint, s.graph.neighbors 1 0, s.returned, s.entryLock.readers)) =
          some (1, [0], [1, 0], {2}) := by decide +kernel
  obtain ⟨s', hs', hlast⟩ := Option.map_eq_some_iff.mp hlock
  have htop : ∀ steps (s : Inserts ℤ), (start : Inserts ℤ).run Index.wideParams (fun _ _ => 0)
      (fun s _ => decide (s.count < kNone)) steps = some s → s.Top := fun steps s hrun => by
    refine (entry_on_top (Reached.run (fun h _ => ?_) steps .start hrun)).1
    have hlt := of_decide_eq_true h
    exact ⟨hlt.trans (by decide), fun _ => hlt.ne⟩
  obtain ⟨hthread, hentry⟩ := Prod.mk.inj hseen
  obtain ⟨hentry', hlists⟩ := Prod.mk.inj hlast
  obtain ⟨hlist, hrest⟩ := Prod.mk.inj hlists
  obtain ⟨hreturned, hreaders⟩ := Prod.mk.inj hrest
  exact ⟨s, s', ⟨htop _ s hs, hthread, hentry⟩, htop _ s' hs', hentry', hlist, hreturned, hreaders⟩

/-- `n` calls of different threads have taken their ids. -/
theorem reached_taken (pair : ℕ → ℕ → F) (n : ℕ) (hn : n ≤ 2 ^ 32) :
    ∃ s, Reached p pair (fun _ _ _ => True) s ∧ s.count = n ∧ s.graph = Graph.empty ∧
      s.entryLock = RwLock.free ℕ ∧ s.returned = [] ∧
      ∀ t, s.threads t = if t < n then .counted t else .idle := by
  induction n with
  | zero => exact ⟨start, .start, rfl, rfl, rfl, rfl, fun t => (if_neg (Nat.not_lt_zero t)).symm⟩
  | succ n ih =>
      obtain ⟨s, h, hcount, hgraph, hlock, hret, hthreads⟩ := ih (Nat.le_of_succ_le hn)
      have hidle : s.threads n = .idle := by rw [hthreads, if_neg (lt_irrefl n)]
      have hstep : s.step p pair n 0 = some (s.take n) := by simp only [Inserts.step, hidle]
      have hid : s.count % 2 ^ 32 = n := by rw [hcount, Nat.mod_eq_of_lt hn]
      refine ⟨_, h.step hstep trivial, congrArg (· + 1) hcount, hgraph, hlock, hret, fun t => ?_⟩
      by_cases ht : t = n
      · rw [ht, if_pos (Nat.lt_succ_self n), Inserts.take, threads_self, hid]
      · rw [Inserts.take, threads_of_ne _ _ ht, hthreads]
        congr 1
        exact propext (by omega)

/-- **The id of the last call stands for none**: of `2 ^ 32` calls that have taken their ids the last
one returns, no lock is held, and there is no entry point. -/
theorem entry_none_after_return : ∃ s : Inserts ℤ,
    Reached Index.wideParams (fun _ _ => 0) (fun _ _ _ => True) s ∧
      (∀ t, (s.threads t).mode = none) ∧ s.graph.entryPoint = kNone ∧ s.returned ≠ [] := by
  obtain ⟨s, h, -, hgraph, hlock, -, hthreads⟩ :=
    reached_taken (F := ℤ) (p := Index.wideParams) (fun _ _ => 0) (2 ^ 32) le_rfl
  have hroom : kNone < Index.wideParams.maxElements := by
    norm_num [kNone, Index.wideParams]
  have hlast : s.threads kNone = .counted kNone := by
    rw [hthreads, if_pos (by norm_num [kNone])]
  obtain ⟨s', h', hidle, hother, hentry, -, hret⟩ :=
    h.first (fun _ _ _ => trivial) hlast hroom hlock (congrArg Graph.entryPoint hgraph) 0
  refine ⟨s', h', fun t => ?_, hentry, by rw [hret]; exact List.cons_ne_nil _ _⟩
  by_cases ht : t = kNone
  · rw [ht, hidle]
    rfl
  · rw [hother t ht, hthreads]
    split_ifs <;> rfl

end Inserts

end

end VectorSearch.Hnsw
