import VectorSearch.Hnsw.Linking
import VectorSearch.Lib.RwLock

/-! # Concurrent calls of addPoint

Any number of threads call `addPoint` with different labels, so no lookup of a label finds anything
and the label map is left out.  A call takes an id, fills the slot of its node, looks at the entry
point to see which mode of `entryLock_` it needs, acquires the lock in that mode and reads the entry
point again, links its node, and becomes the entry point if its level is the highest.

`Inserts.step` is the next step of a thread: an atomic operation on `count_`, a section under
`entryLock_`, or a section under the `linkLocks_` mutex of one node.  While it links, a call keeps its
place in a `Job`: it reads the list of one node at a time (`descend`, `search`), writes its own list
(`connect`) and links back into one list at a time (`back`).  `Inserts.Reached` are the states of the
runs whose steps are all allowed by `ok`. -/

namespace VectorSearch.Hnsw

open VectorSearch.Hnsw.Graph (Beam)
open RwLock (Mode)

section
variable (F : Type) [Platform F]

/-- What a call does while it holds `entryLock_`. -/
inductive Job where
  /-- there is no entry point -/
  | first
  /-- at node `cur` of level `l` in `greedyDescend` -/
  | descend (l cur : ℕ) (curDist : F)
  /-- in the loop of `searchLayer` on level `l` -/
  | search (l : ℕ) (b : Beam F)
  /-- the neighbours on level `l` are selected -/
  | connect (l : ℕ) (selected : List ℕ)
  /-- the own list of level `l` is written, and `rest` are still to be linked back -/
  | back (l next : ℕ) (rest : List ℕ)
  /-- all levels are linked -/
  | linked
  /-- the entry point is updated if need be -/
  | settled

/-- Where a thread is in `addPoint`. -/
inductive Task where
  | idle
  /-- `count_.fetch_add` has given the id -/
  | counted (id : ℕ)
  /-- vector, level and upper blocks of the node are set -/
  | ready (id level : ℕ)
  /-- the entry point was looked at -/
  | probed (id level : ℕ) (becomesEntry : Bool)
  /-- the entry lock is held, and `maxLevel_` was read again -/
  | inside (mode : Mode) (id level : ℕ) (curMaxLevel : ℤ) (job : Job F)

/-- The shared state, the threads, the ids that calls have returned, and how many have thrown. -/
structure Inserts where
  count : ℕ
  graph : Graph
  entryLock : RwLock ℕ
  threads : ℕ → Task F
  returned : List ℕ
  full : ℕ

end

section
variable {F : Type} [Platform F]

/-! ### Linking -/

namespace Job

/-- Begin to search a level. -/
def enter (pair : ℕ → ℕ → F) (id l cur : ℕ) : Job F :=
  .search l (Beam.start (pair id) (fun _ => true) cur)

/-- After level `l`, with the entry for the next one. -/
def next (pair : ℕ → ℕ → F) (id : ℕ) : (l : ℕ) → (cur : ℕ) → Job F
  | 0, _ => .linked
  | l + 1, cur => enter pair id l cur

/-- The first job of a call for a node of the given level. -/
def start (pair : ℕ → ℕ → F) (g : Graph) (id level : ℕ) : Job F :=
  if g.entryPoint = kNone then .first
  else if level < g.maxLevel then .descend g.maxLevel.toNat g.entryPoint (pair id g.entryPoint)
  else enter pair id (min (level : ℤ) g.maxLevel).toNat g.entryPoint

/-- The next section under a `linkLocks_` mutex. -/
def work (p : Params) (pair : ℕ → ℕ → F) (id level : ℕ) (g : Graph) : Job F → Graph × Job F
  | .descend l cur curDist =>
      match Graph.greedyScan (pair id) (g.neighbors cur l) (cur, curDist, false) with
      | (cur, curDist, true) => (g, .descend l cur curDist)
      | (cur, _, false) =>
          (g, if level < l - 1 then .descend (l - 1) cur (pair id cur)
            else enter pair id level cur)
  | .search l b =>
      match (minHeap F).pop b.frontier with
      | none => (g, .connect l (Graph.selectNeighborsHeuristic pair b.results p.M))
      | some (best, frontier) =>
          if FloatOps.lt b.worst best.1 ∧ p.efConstruction ≤ (maxHeap F).size b.results then
            (g, .connect l (Graph.selectNeighborsHeuristic pair b.results p.M))
          else
            (g, .search l (b.expand (pair id) (fun _ => true) g p.efConstruction l best frontier))
  | .connect l [] => (g, next pair id l id)
  | .connect l (n :: rest) => (g.setLinks p id l (n :: rest), .back l n (n :: rest))
  | .back l cur (n :: rest) => (Graph.linkBack p pair id l g n, .back l cur rest)
  | .back l cur [] => (g, next pair id l cur)
  | job => (g, job)

end Job

/-! ### The steps of a thread -/

namespace Inserts

/-- An empty index and no calls. -/
def start : Inserts F where
  count := 0
  graph := Graph.empty
  entryLock := RwLock.free ℕ
  threads _ := .idle
  returned := []
  full := 0

def setThread (s : Inserts F) (t : ℕ) (task : Task F) : Inserts F :=
  { s with threads := Function.update s.threads t task }

/-- `static_cast<idx_t>(count_.fetch_add(1))` -/
def take (s : Inserts F) (t : ℕ) : Inserts F :=
  { s with count := s.count + 1 }.setThread t (.counted (s.count % 2 ^ 32))

/-- `count_.fetch_sub(1)` and the error -/
def reject (s : Inserts F) (t : ℕ) : Inserts F :=
  { s with count := s.count - 1, full := s.full + 1 }.setThread t .idle

/-- Fill the slot of the node. -/
def fill (p : Params) (s : Inserts F) (t id level : ℕ) : Inserts F :=
  { s with graph := s.graph.setLevel p id level }.setThread t (.ready id level)

/-- The probe under the shared lock: does the node become the entry point? -/
def probe (s : Inserts F) (t id level : ℕ) : Inserts F :=
  s.setThread t (.probed id level
    (decide (s.graph.entryPoint = kNone) || decide (s.graph.maxLevel < level)))

/-- The mode in which the lock is acquired. -/
def modeFor : Bool → Mode
  | true => .exclusive
  | false => .shared

/-- The lock was acquired: read the entry point again. -/
def acquired (pair : ℕ → ℕ → F) (s : Inserts F) (t id level : ℕ) (mode : Mode)
    (entryLock : RwLock ℕ) : Inserts F :=
  { s with entryLock }.setThread t
    (.inside mode id level s.graph.maxLevel (.start pair s.graph id level))

def work (p : Params) (pair : ℕ → ℕ → F) (s : Inserts F) (t id level : ℕ) (mode : Mode)
    (curMaxLevel : ℤ) (job : Job F) : Inserts F :=
  { s with graph := (job.work p pair id level s.graph).1 }.setThread t
    (.inside mode id level curMaxLevel (job.work p pair id level s.graph).2)

/-- Set the entry point and the highest level. -/
def promote (s : Inserts F) (t id level : ℕ) (mode : Mode) (curMaxLevel : ℤ) : Inserts F :=
  { s with graph := { s.graph with entryPoint := id, maxLevel := level } }.setThread t
    (.inside mode id level curMaxLevel .settled)

/-- The node stays below the entry point. -/
def keep (s : Inserts F) (t id level : ℕ) (mode : Mode) (curMaxLevel : ℤ) : Inserts F :=
  s.setThread t (.inside mode id level curMaxLevel .settled)

/-- Release the lock and return the id. -/
def release (s : Inserts F) (t id : ℕ) (mode : Mode) : Inserts F :=
  { s with entryLock := s.entryLock.release t mode, returned := id :: s.returned }.setThread t .idle

/-- The next step of thread `t`, if it need not wait; a node that is filled draws `level`. -/
def step (p : Params) (pair : ℕ → ℕ → F) (s : Inserts F) (t level : ℕ) : Option (Inserts F) :=
  match s.threads t with
  | .idle => some (s.take t)
  | .counted id => some (if p.maxElements ≤ id then s.reject t else s.fill p t id level)
  | .ready id level => if s.entryLock.writer.isNone then some (s.probe t id level) else none
  | .probed id level becomesEntry =>
      (s.entryLock.acquire t (modeFor becomesEntry)).map
        (s.acquired pair t id level (modeFor becomesEntry))
  | .inside mode id level curMaxLevel .first => some (s.promote t id level mode curMaxLevel)
  | .inside mode id level curMaxLevel .linked =>
      some (if curMaxLevel < level then s.promote t id level mode curMaxLevel
        else s.keep t id level mode curMaxLevel)
  | .inside mode id _ _ .settled => some (s.release t id mode)
  | .inside mode id level curMaxLevel job => some (s.work p pair t id level mode curMaxLevel job)

/-- The states that steps lead to which are all allowed. -/
inductive Reached (p : Params) (pair : ℕ → ℕ → F) (ok : Inserts F → ℕ → Inserts F → Prop) :
    Inserts F → Prop
  | start : Reached p pair ok start
  | step {s s' : Inserts F} {t level : ℕ} (h : Reached p pair ok s)
      (hstep : s.step p pair t level = some s') (hok : ok s t s') : Reached p pair ok s'

end Inserts

/-! ### What a step can do -/

/-- The job is one of linking. -/
def Job.Linking : Job F → Prop
  | .first | .linked | .settled => False
  | _ => True

namespace Inserts

variable {p : Params} {pair : ℕ → ℕ → F} {s s' : Inserts F} {t u level : ℕ}

/-- The steps of thread `t`, with what they ask of the state. -/
inductive Move (p : Params) (pair : ℕ → ℕ → F) (s : Inserts F) (t : ℕ) : Inserts F → Prop
  | take (hph : s.threads t = .idle) : Move p pair s t (s.take t)
  | reject {id : ℕ} (hph : s.threads t = .counted id) (hfull : p.maxElements ≤ id) :
      Move p pair s t (s.reject t)
  | fill {id : ℕ} (level : ℕ) (hph : s.threads t = .counted id) (hroom : id < p.maxElements) :
      Move p pair s t (s.fill p t id level)
  | probe {id level : ℕ} (hph : s.threads t = .ready id level)
      (hlock : s.entryLock.writer = none) : Move p pair s t (s.probe t id level)
  | acquire {id level : ℕ} {becomesEntry : Bool} {entryLock : RwLock ℕ}
      (hph : s.threads t = .probed id level becomesEntry)
      (hacq : s.entryLock.acquire t (modeFor becomesEntry) = some entryLock) :
      Move p pair s t (s.acquired pair t id level (modeFor becomesEntry) entryLock)
  | work {mode : Mode} {id level : ℕ} {curMaxLevel : ℤ} {job : Job F}
      (hph : s.threads t = .inside mode id level curMaxLevel job) (hjob : job.Linking) :
      Move p pair s t (s.work p pair t id level mode curMaxLevel job)
  | promote {mode : Mode} {id level : ℕ} {curMaxLevel : ℤ} {job : Job F}
      (hph : s.threads t = .inside mode id level curMaxLevel job)
      (hjob : job = .first ∨ job = .linked ∧ curMaxLevel < level) :
      Move p pair s t (s.promote t id level mode curMaxLevel)
  | keep {mode : Mode} {id level : ℕ} {curMaxLevel : ℤ}
      (hph : s.threads t = .inside mode id level curMaxLevel .linked)
      (hle : (level : ℤ) ≤ curMaxLevel) : Move p pair s t (s.keep t id level mode curMaxLevel)
  | release {mode : Mode} {id level : ℕ} {curMaxLevel : ℤ}
      (hph : s.threads t = .inside mode id level curMaxLevel .settled) :
      Move p pair s t (s.release t id mode)

/-- **A step is one of these moves.** -/
theorem move_of_step (h : s.step p pair t level = some s') : Move p pair s t s' := by
  unfold step at h
  split at h
  case h_1 hph =>
    cases h
    exact .take hph
  case h_2 id hph =>
    cases h
    split_ifs with hfull
    · exact .reject hph hfull
    · exact .fill level hph (not_le.mp hfull)
  case h_3 id lvl hph =>
    split_ifs at h with hlock
    cases h
    exact .probe hph (Option.isNone_iff_eq_none.mp hlock)
  case h_4 id lvl becomesEntry hph =>
    obtain ⟨entryLock, hacq, rfl⟩ := Option.map_eq_some_iff.mp h
    exact .acquire hph hacq
  case h_5 mode id lvl curMaxLevel hph =>
    cases h
    exact .promote hph (Or.inl rfl)
  case h_6 mode id lvl curMaxLevel hph =>
    cases h
    split_ifs with hlt
    · exact .promote hph (Or.inr ⟨rfl, hlt⟩)
    · exact .keep hph (not_lt.mp hlt)
  case h_7 mode id lvl curMaxLevel hph =>
    cases h
    exact .release hph
  case h_8 mode id lvl curMaxLevel job hfirst hlinked hsettled hph =>
    cases h
    refine .work hph ?_
    cases job with
    | first => exact absurd rfl hfirst
    | linked => exact absurd rfl hlinked
    | settled => exact absurd rfl hsettled
    | descend | search | connect | back => trivial

theorem threads_of_ne (s : Inserts F) (task : Task F) (h : u ≠ t) :
    (s.setThread t task).threads u = s.threads u := Function.update_of_ne h _ _

theorem threads_self (s : Inserts F) (t : ℕ) (task : Task F) :
    (s.setThread t task).threads t = task := Function.update_self _ _ _

/-- The other threads stay where they are. -/
theorem Move.threads_of_ne (h : Move p pair s t s') (hu : u ≠ t) : s'.threads u = s.threads u := by
  cases h <;> exact Inserts.threads_of_ne _ _ hu

/-! ### Runs -/

/-- The steps of the threads, each with the level that it may draw, while they are `safe`. -/
def run (p : Params) (pair : ℕ → ℕ → F) (safe : Inserts F → ℕ → Bool) :
    List (ℕ × ℕ) → Inserts F → Option (Inserts F)
  | [], s => some s
  | (t, level) :: steps, s =>
      if safe s t then (s.step p pair t level).bind (run p pair safe steps) else none

theorem Reached.run {ok : Inserts F → ℕ → Inserts F → Prop} {safe : Inserts F → ℕ → Bool}
    (hsafe : ∀ {s t s'}, safe s t → ok s t s') : ∀ (steps : List (ℕ × ℕ)) {s s' : Inserts F},
    Reached p pair ok s → Inserts.run p pair safe steps s = some s' → Reached p pair ok s'
  | [], _, _, h, hrun => by
      cases hrun
      exact h
  | (t, level) :: steps, s, s', h, hrun => by
      unfold Inserts.run at hrun
      split_ifs at hrun with hs
      obtain ⟨s₁, hstep, hrest⟩ := Option.bind_eq_some_iff.mp hrun
      exact Reached.run hsafe steps (h.step hstep (hsafe hs)) hrest

end Inserts

end

end VectorSearch.Hnsw
