import VectorSearch.Durable.Lifetime
import VectorSearch.Durable.SameGraph

/-! # The life of a shard process

`main` starts the background snapshots, serves requests until a signal comes, lets `GracefulStop` wait
for the handlers, and calls `Close`, which stops the background snapshots, takes a final snapshot and
closes the index (`Process.Next`).  Handlers of writes, handlers of `Snapshot` and the background
goroutine interleave freely; only the lock of the index keeps them apart.  The log may refuse a record
and a snapshot may fail at any of its steps.

While the process runs the log and the index can drift apart.  The final snapshot sets that right:
`clean_restarts` says that shards which are always shut down this way, with a final snapshot that goes
through, hold after any number of restarts exactly what was acknowledged, as long as 32 bits give an
id to each vector (`Process.RunWithin`).  `can_exit` says that the shutdown never gets stuck. -/

namespace VectorSearch.Shard

open Durable (Answer Call Config Dir DurableIndex SnapshotError SnapshotStep WriteError acked promised)
open Hnsw (Index KeyMap Params Platform)

/-- Who takes a snapshot. -/
inductive Snapshotter where
  /-- the goroutine of `Start` -/
  | ticker
  /-- a handler of `Snapshot` -/
  | handler
  /-- `Close` -/
  | close
deriving DecidableEq

/-- The goroutine of `Start`. -/
inductive Ticker where
  /-- in the `select` -/
  | selecting
  /-- in `Snapshot`, after a tick -/
  | snapshotting
  /-- returned, or never started -/
  | gone
deriving DecidableEq

/-- How far `main` has come. -/
inductive Phase where
  | serving
  /-- in `GracefulStop` -/
  | draining
  /-- `Close` has closed `stopCh` and waits for the goroutine of `Start` -/
  | waiting
  /-- `Close` takes the final snapshot -/
  | snapshotting
  /-- in front of `idx.Close()`; whether the final snapshot went through -/
  | closing (saved : Bool)
  | exited (saved : Bool)
deriving DecidableEq

namespace Phase

/-- `GracefulStop` has returned. -/
def drained : Phase → Bool
  | serving | draining => false
  | _ => true

/-- The goroutine of `Start` has returned. -/
def joined : Phase → Bool
  | serving | draining | waiting => false
  | _ => true

/-- The final snapshot went through. -/
def saved : Phase → Bool
  | closing saved | exited saved => saved
  | _ => false

/-- What is left to do. -/
def work : Phase → ℕ
  | serving => 10
  | draining => 8
  | waiting => 6
  | snapshotting => 4
  | closing _ => 2
  | exited _ => 0

end Phase

/-- What is left to do once `stopCh` is closed. -/
def Ticker.work : Ticker → ℕ
  | snapshotting => 4
  | selecting => 2
  | gone => 0

/-- A running shard, and what its callers were told. -/
structure Process where
  handle : DurableIndex
  /-- writes that wait for the shared lock -/
  waiting : List Call
  /-- writes that hold it and have not appended their record -/
  locked : List Call
  /-- writes whose record is appended -/
  appended : List Call
  /-- the number of handlers of `Snapshot` -/
  snapshots : ℕ
  /-- who holds the exclusive lock -/
  rotating : Option Snapshotter
  ticker : Ticker
  phase : Phase
  /-- all writes so far -/
  submitted : List Call
  answers : List Answer

namespace Process

/-- After `New` and `Start`; `background` says whether `SnapshotInterval` is positive. -/
def start (d : DurableIndex) (background : Bool) : Process :=
  ⟨d, [], [], [], 0, none, if background then .selecting else .gone, .serving, [], []⟩

/-- In front of the lock of `Snapshot`, or behind it. -/
def Wants (s : Process) : Snapshotter → Prop
  | .ticker => s.ticker = .snapshotting
  | .handler => 0 < s.snapshots
  | .close => s.phase = .snapshotting

/-- The writes that have not returned. -/
def writes (s : Process) : List Call := s.waiting ++ s.locked ++ s.appended

/-- `Snapshot` returns. -/
def resume (s : Process) (d : DurableIndex) (saved : Bool) : Snapshotter → Process
  | .ticker => { s with handle := d, rotating := none, ticker := .selecting }
  | .handler => { s with handle := d, rotating := none, snapshots := s.snapshots - 1 }
  | .close => { s with handle := d, rotating := none, phase := .closing saved }

section
variable [Platform UInt32]

/-- The steps of the process. -/
inductive Next (background : Bool) (s : Process) : Process → Prop
  /-- a handler is started, whose checks the write passes -/
  | request {c : Call} (hphase : s.phase = .serving) (hsized : c.Sized s.handle.idx.params.dim) :
      Next background s { s with waiting := c :: s.waiting, submitted := c :: s.submitted }
  | requestSnapshot (hphase : s.phase = .serving) :
      Next background s { s with snapshots := s.snapshots + 1 }
  | tick (hticker : s.ticker = .selecting) : Next background s { s with ticker := .snapshotting }
  | signal (hphase : s.phase = .serving) : Next background s { s with phase := .draining }
  /-- `RLock` -/
  | lock {c : Call} (hc : c ∈ s.waiting) (hfree : s.rotating = none) :
      Next background s { s with waiting := s.waiting.erase c, locked := c :: s.locked }
  | append {c : Call} {io : Wal.AppendIO} {d : DurableIndex} (hc : c ∈ s.locked)
      (happ : s.handle.appendWAL c.record io = (d, .ok ())) :
      Next background s
        { s with handle := d, locked := s.locked.erase c, appended := c :: s.appended }
  /-- the write returns the error of `Append` -/
  | appendFails {c : Call} {io : Wal.AppendIO} {d : DurableIndex} {e : Wal.AppendError}
      (hc : c ∈ s.locked) (happ : s.handle.appendWAL c.record io = (d, .error e)) :
      Next background s
        { s with
          handle := d
          locked := s.locked.erase c
          answers := s.answers ++ [(c, .error (.walAppend e))] }
  /-- the write changes the index and returns -/
  | applyCall {c : Call} (hc : c ∈ s.appended) :
      Next background s
        { s with
          handle := { s.handle with idx := (c.onIndex s.handle.idx).1 }
          appended := s.appended.erase c
          answers := s.answers ++ [(c, match (c.onIndex s.handle.idx).2 with
            | .ok _ => .ok ()
            | .error e => .error (c.error e))] }
  /-- `Lock` -/
  | lockSnapshot {who : Snapshotter} (hwho : s.Wants who) (hfree : s.rotating = none)
      (hquiet : s.locked = [] ∧ s.appended = []) :
      Next background s { s with rotating := some who }
  | snapshot {who : Snapshotter} {d : DurableIndex} (hwho : s.rotating = some who)
      (hopen : s.handle.walOpen = true) (hsnap : s.handle.snapshot = (d, .ok ())) :
      Next background s (s.resume d true who)
  /-- a new log is there already -/
  | snapshotRefused {who : Snapshotter} {d : DurableIndex} {e : SnapshotError}
      (hwho : s.rotating = some who) (hsnap : s.handle.snapshot = (d, .error e)) :
      Next background s (s.resume d false who)
  /-- a call of the operating system fails -/
  | snapshotFails {who : Snapshotter} {t : SnapshotStep} {left : Option DurableFile}
      (hwho : s.rotating = some who)
      (hw : s.handle.walOpen = true ∨ t ∈ .closeOld :: Durable.beforeClose) :
      Next background s (s.resume (s.handle.snapshotFailing t left) false who)
  /-- `GracefulStop` returns, and `Close` closes `stopCh` -/
  | drained (hphase : s.phase = .draining)
      (hwrites : s.waiting = [] ∧ s.locked = [] ∧ s.appended = []) (hsnapshots : s.snapshots = 0) :
      Next background s { s with phase := .waiting }
  /-- the goroutine of `Start` sees that `stopCh` is closed -/
  | tickerReturns (hticker : s.ticker = .selecting) (hphase : s.phase.drained = true) :
      Next background s { s with ticker := .gone }
  /-- `wg.Wait` returns -/
  | joined (hphase : s.phase = .waiting) (hticker : s.ticker = .gone) :
      Next background s
        { s with phase := if background then .snapshotting else .closing false }
  /-- `idx.Close` -/
  | close {saved : Bool} (hphase : s.phase = .closing saved) (hfree : s.rotating = none)
      (hquiet : s.locked = [] ∧ s.appended = []) :
      Next background s
        { s with handle := { s.handle with walOpen := false }, phase := .exited saved }

/-- A run of the process. -/
def Run (background : Bool) : Process → Process → Prop := Relation.ReflTransGen (Next background)

/-- A step after which 32 bits still give an id to each vector. -/
def NextWithin (background : Bool) (s s' : Process) : Prop :=
  Next background s s' ∧ s'.handle.idx.store.count ≤ 2 ^ 32

/-- A run in which every vector gets an id of its own. -/
def RunWithin (background : Bool) : Process → Process → Prop :=
  Relation.ReflTransGen (NextWithin background)

/-! ### Locks and phases -/

/-- What holds at every moment of the process, whatever its index holds. -/
structure Ordered (s : Process) : Prop where
  submitted : s.submitted.Perm (s.writes ++ s.answers.map Prod.fst)
  exclusive : s.rotating ≠ none → s.locked = [] ∧ s.appended = []
  wants : ∀ who, s.rotating = some who → s.Wants who
  drained : s.phase.drained = true → s.writes = [] ∧ s.snapshots = 0
  joined : s.phase.joined = true → s.ticker = .gone

variable {p : Params} {base : KeyMap UInt32} {background : Bool} {s s' : Process} {c : Call}

omit [Platform UInt32] in
theorem ordered_start (d : DurableIndex) (background : Bool) : (start d background).Ordered where
  submitted := List.Perm.refl _
  exclusive h := absurd rfl h
  wants _ h := nomatch h
  drained h := nomatch h
  joined h := nomatch h

omit [Platform UInt32] in
theorem undrained_of_serving (hphase : s.phase = .serving) : s.phase.drained ≠ true := by
  rw [hphase]
  exact Bool.false_ne_true

omit [Platform UInt32] in
/-- Nobody but `Close`, in its final snapshot, depends on the phase. -/
theorem Wants.with_phase {who : Snapshotter} (h : s.Wants who) (hphase : s.phase ≠ .snapshotting)
    (phase : Phase) : Wants { s with phase } who := by
  cases who with
  | ticker => exact h
  | handler => exact h
  | close => exact absurd h hphase

omit [Platform UInt32] in
theorem Wants.with_ticker {who : Snapshotter} (h : s.Wants who) (hticker : s.ticker ≠ .snapshotting)
    (ticker : Ticker) : Wants { s with ticker } who := by
  cases who with
  | ticker => exact absurd h hticker
  | handler => exact h
  | close => exact h

omit [Platform UInt32] in
theorem drained_of_joined {phase : Phase} (h : phase.joined = true) : phase.drained = true := by
  cases phase <;> first | rfl | cases h

omit [Platform UInt32] in
/-- While there are writes `GracefulStop` does not return. -/
theorem Ordered.undrained (h : s.Ordered) (hc : c ∈ s.writes) : s.phase.drained ≠ true := by
  intro hd
  rw [(h.drained hd).1] at hc
  cases hc

omit [Platform UInt32] in
/-- While a write has the shared lock nobody has the other. -/
theorem Ordered.unlocked (h : s.Ordered) (hc : c ∈ s.locked ∨ c ∈ s.appended) :
    s.rotating = none := by
  by_contra hr
  obtain ⟨hlocked, happended⟩ := h.exclusive hr
  rw [hlocked, happended] at hc
  exact hc.elim List.not_mem_nil List.not_mem_nil

omit [Platform UInt32] in
/-- A write that goes on. -/
theorem Ordered.advance (h : s.Ordered) (hwrites : s'.writes.Perm s.writes) (hc : c ∈ s.writes)
    (hfree : s'.rotating = none) (hphase : s'.phase = s.phase) (hanswers : s'.answers = s.answers)
    (hsubmitted : s'.submitted = s.submitted) : s'.Ordered where
  submitted := by
    rw [hsubmitted, hanswers]
    exact h.submitted.trans (hwrites.symm.append_right _)
  exclusive hr := absurd hfree hr
  wants who hr := by
    rw [hfree] at hr
    cases hr
  drained hd := absurd (hphase ▸ hd) (h.undrained hc)
  joined hd := absurd (drained_of_joined (hphase ▸ hd)) (h.undrained hc)

omit [Platform UInt32] in
/-- A write that returns. -/
theorem Ordered.return (h : s.Ordered) {r : Except WriteError Unit}
    (hwrites : (c :: s'.writes).Perm s.writes) (hfree : s'.rotating = none)
    (hphase : s'.phase = s.phase) (hanswers : s'.answers = s.answers ++ [(c, r)])
    (hsubmitted : s'.submitted = s.submitted) : s'.Ordered := by
  have hc : c ∈ s.writes := hwrites.mem_iff.mp List.mem_cons_self
  exact {
    submitted := by
      rw [hsubmitted, hanswers, List.map_append, ← List.append_assoc]
      refine h.submitted.trans ((hwrites.symm.append_right _).trans ?_)
      exact (List.perm_append_singleton c (s'.writes ++ s.answers.map Prod.fst)).symm
    exclusive := fun hr => absurd hfree hr
    wants := fun who hr => by
      rw [hfree] at hr
      cases hr
    drained := fun hd => absurd (hphase ▸ hd) (h.undrained hc)
    joined := fun hd => absurd (drained_of_joined (hphase ▸ hd)) (h.undrained hc) }

omit [Platform UInt32] in
/-- A `Snapshot` that returns. -/
theorem Ordered.resume (h : s.Ordered) {who : Snapshotter} (hwho : s.rotating = some who)
    (d : DurableIndex) (saved : Bool) : (s.resume d saved who).Ordered := by
  have hwants := h.wants who hwho
  have hfree : ∀ {who : Snapshotter}, (none : Option Snapshotter) ≠ some who := fun hr => by cases hr
  cases who with
  | ticker =>
    have hticker : s.ticker = .snapshotting := hwants
    refine ⟨h.submitted, fun hr => absurd rfl hr, fun _ hr => (hfree hr).elim, h.drained,
      fun hj => ?_⟩
    rw [h.joined hj] at hticker
    cases hticker
  | handler =>
    have hpos : 0 < s.snapshots := hwants
    refine ⟨h.submitted, fun hr => absurd rfl hr, fun _ hr => (hfree hr).elim, fun hd => ?_,
      h.joined⟩
    rw [(h.drained hd).2] at hpos
    exact absurd hpos (Nat.lt_irrefl 0)
  | close =>
    have hphase : s.phase = .snapshotting := hwants
    exact ⟨h.submitted, fun hr => absurd rfl hr, fun _ hr => (hfree hr).elim,
      fun _ => h.drained (by rw [hphase]; rfl), fun _ => h.joined (by rw [hphase]; rfl)⟩

omit [Platform UInt32] in
theorem perm_move {α : Type} [DecidableEq α] {a : α} {l : List α} (h : a ∈ l) (l' : List α) :
    (l.erase a ++ a :: l').Perm (l ++ l') :=
  List.perm_middle.trans ((List.perm_cons_erase h).symm.append_right l')

omit [Platform UInt32] in
theorem writes_lock (hc : c ∈ s.waiting) :
    (s.waiting.erase c ++ c :: s.locked ++ s.appended).Perm s.writes :=
  (perm_move hc s.locked).append_right _

omit [Platform UInt32] in
theorem writes_append (hc : c ∈ s.locked) :
    (s.waiting ++ s.locked.erase c ++ c :: s.appended).Perm s.writes := by
  rw [writes, List.append_assoc, List.append_assoc]
  exact (perm_move hc s.appended).append_left _

omit [Platform UInt32] in
theorem writes_appendFails (hc : c ∈ s.locked) :
    (c :: (s.waiting ++ s.locked.erase c ++ s.appended)).Perm s.writes := by
  rw [writes, List.append_assoc, List.append_assoc]
  exact List.perm_middle.symm.trans
    (((List.perm_cons_erase hc).symm.append_right s.appended).append_left _)

omit [Platform UInt32] in
theorem writes_applyCall (hc : c ∈ s.appended) :
    (c :: (s.waiting ++ s.locked ++ s.appended.erase c)).Perm s.writes :=
  List.perm_middle.symm.trans ((List.perm_cons_erase hc).symm.append_left _)

/-- **One step of the process** keeps its locks and phases in order. -/
theorem Ordered.next (h : s.Ordered) (hstep : Next background s s') : s'.Ordered := by
  cases hstep with
  | @request c hphase hsized =>
    refine ⟨h.submitted.cons c, h.exclusive, fun who hr => ?_,
      fun hd => absurd hd (undrained_of_serving hphase), h.joined⟩
    cases who <;> exact h.wants _ hr
  | requestSnapshot hphase =>
    refine ⟨h.submitted, h.exclusive, fun who hr => ?_,
      fun hd => absurd hd (undrained_of_serving hphase), h.joined⟩
    cases who with
    | ticker => exact h.wants _ hr
    | handler => exact Nat.succ_pos _
    | close => exact h.wants _ hr
  | tick hticker =>
    refine ⟨h.submitted, h.exclusive, fun who hr => ?_, h.drained, fun hj => ?_⟩
    · exact (h.wants who hr).with_ticker (by rw [hticker]; decide) _
    · rw [h.joined hj] at hticker
      cases hticker
  | signal hphase =>
    refine ⟨h.submitted, h.exclusive, fun who hr => ?_, fun hd => ?_, fun hj => ?_⟩
    · exact (h.wants who hr).with_phase (by rw [hphase]; decide) _
    · cases hd
    · cases hj
  | @lock c hc hfree =>
    exact h.advance (writes_lock hc) (List.mem_append_left _ (List.mem_append_left _ hc)) hfree rfl
      rfl rfl
  | @append c io d hc happ =>
    exact h.advance (writes_append hc) (List.mem_append_left _ (List.mem_append_right _ hc))
      (h.unlocked (Or.inl hc)) rfl rfl rfl
  | @appendFails c io d e hc happ =>
    exact h.return (writes_appendFails hc) (h.unlocked (Or.inl hc)) rfl rfl rfl
  | @applyCall c hc => exact h.return (writes_applyCall hc) (h.unlocked (Or.inr hc)) rfl rfl rfl
  | @lockSnapshot who hwho hfree hquiet =>
    refine ⟨h.submitted, fun _ => hquiet, fun who' hr => ?_, h.drained, h.joined⟩
    obtain rfl := Option.some.inj hr
    cases who <;> exact hwho
  | snapshot hwho _ _ => exact h.resume hwho _ _
  | snapshotRefused hwho _ => exact h.resume hwho _ _
  | snapshotFails hwho _ => exact h.resume hwho _ _
  | drained hphase hwrites hsnapshots =>
    obtain ⟨hwaiting, hlocked, happended⟩ := hwrites
    refine ⟨h.submitted, h.exclusive, fun who hr => ?_,
      fun _ => ⟨by rw [writes, hwaiting, hlocked, happended]; rfl, hsnapshots⟩, fun hj => ?_⟩
    · exact (h.wants who hr).with_phase (by rw [hphase]; decide) _
    · cases hj
  | tickerReturns hticker hphase =>
    refine ⟨h.submitted, h.exclusive, fun who hr => ?_, h.drained, fun _ => rfl⟩
    exact (h.wants who hr).with_ticker (by rw [hticker]; decide) _
  | joined hphase hticker =>
    have hdrained := h.drained (by rw [hphase]; rfl)
    have hfree : ∀ who, s.rotating ≠ some who := by
      intro who hr
      have hwants := h.wants who hr
      cases who with
      | ticker =>
        rw [Wants, hticker] at hwants
        cases hwants
      | handler =>
        rw [Wants, hdrained.2] at hwants
        exact absurd hwants (Nat.lt_irrefl 0)
      | close =>
        rw [Wants, hphase] at hwants
        cases hwants
    exact ⟨h.submitted, h.exclusive, fun who hr => absurd hr (hfree who), fun _ => hdrained,
      fun _ => hticker⟩
  | @close saved hphase hfree hquiet =>
    exact ⟨h.submitted, h.exclusive, fun who hr => absurd (hfree.symm.trans hr) (by simp),
      fun _ => h.drained (by rw [hphase]; rfl), fun _ => h.joined (by rw [hphase]; rfl)⟩

omit [Platform UInt32] in
/-- Once `GracefulStop` has returned every write is answered. -/
theorem Ordered.all_answered (h : s.Ordered) (hd : s.phase.drained = true) :
    s.submitted.Perm (s.answers.map Prod.fst) := by
  have hsubmitted := h.submitted
  rwa [(h.drained hd).1, List.nil_append] at hsubmitted

theorem Ordered.run (h : s.Ordered) (hrun : Run background s s') : s'.Ordered := by
  induction hrun with
  | refl => exact h
  | tail _ hstep ih => exact ih.next hstep

/-! ### The invariant -/

/-- The map that the acknowledged writes make of `base`. -/
def kept (p : Params) (base : KeyMap UInt32) (answers : List Answer) : KeyMap UInt32 :=
  base.run ((acked answers).map (Call.op p))

/-- What holds at every moment of the process, of its index and its files too. -/
structure Sound (p : Params) (base : KeyMap UInt32) (s : Process) : Prop where
  ordered : s.Ordered
  stored : s.handle.idx.Stored
  params : s.handle.idx.params = p
  map : s.handle.idx.store.keyMap = kept p base s.answers
  sized : ∀ c ∈ s.writes, c.Sized p.dim
  saved : s.phase.saved = true → s.handle.dir.wal = some Wal.newLog ∧
    s.handle.dir.snapshot = some (DurableFile.empty.write s.handle.idx.save)

theorem sound_start {d : DurableIndex} (hstored : d.idx.Stored) (background : Bool) :
    Sound d.idx.params d.idx.store.keyMap (start d background) where
  ordered := ordered_start d background
  stored := hstored
  params := rfl
  map := rfl
  sized _ hc := absurd hc List.not_mem_nil
  saved h := nomatch h

omit [Platform UInt32] in
theorem joined_of_saved {phase : Phase} (h : phase.saved = true) : phase.joined = true := by
  cases phase <;> first | rfl | cases h

/-- While there are writes no final snapshot was taken. -/
theorem Sound.unsaved (h : s.Sound p base) (hc : c ∈ s.writes) : s.phase.saved ≠ true :=
  fun hs => h.ordered.undrained hc (drained_of_joined (joined_of_saved hs))

/-- A step that changes neither the index nor the answers, while a write is waiting. -/
theorem Sound.advance (h : s.Sound p base) (hordered : s'.Ordered)
    (hidx : s'.handle.idx = s.handle.idx) (hwrites : s'.writes.Perm s.writes) (hc : c ∈ s.writes)
    (hphase : s'.phase = s.phase) (hanswers : s'.answers = s.answers) : s'.Sound p base where
  ordered := hordered
  stored := hidx ▸ h.stored
  params := hidx ▸ h.params
  map := by rw [hidx, hanswers, h.map]
  sized c hc := h.sized c (hwrites.mem_iff.mp hc)
  saved hs := absurd (hphase ▸ hs) (h.unsaved hc)

/-- A write that returns. -/
theorem Sound.return (h : s.Sound p base) (hordered : s'.Ordered) {r : Except WriteError Unit}
    (hstored : s'.handle.idx.Stored) (hparams : s'.handle.idx.params = s.handle.idx.params)
    (hmap : s'.handle.idx.store.keyMap = kept p base (s.answers ++ [(c, r)]))
    (hwrites : (c :: s'.writes).Perm s.writes) (hphase : s'.phase = s.phase)
    (hanswers : s'.answers = s.answers ++ [(c, r)]) : s'.Sound p base where
  ordered := hordered
  stored := hstored
  params := hparams.trans h.params
  map := hanswers ▸ hmap
  sized c hc := h.sized c (hwrites.mem_iff.mp (List.mem_cons_of_mem _ hc))
  saved hs := absurd (hphase ▸ hs) (h.unsaved (hwrites.mem_iff.mp List.mem_cons_self))

/-- A `Snapshot` that returns. -/
theorem Sound.resume (h : s.Sound p base) {who : Snapshotter} (hwho : s.rotating = some who)
    {d : DurableIndex} (hidx : d.idx = s.handle.idx) {saved : Bool}
    (hsaved : saved = true → d.dir.wal = some Wal.newLog ∧
      d.dir.snapshot = some (DurableFile.empty.write d.idx.save)) :
    (s.resume d saved who).Sound p base := by
  have hordered := h.ordered.resume hwho d saved
  have hwants := h.ordered.wants who hwho
  cases who with
  | ticker =>
    have hticker : s.ticker = .snapshotting := hwants
    refine ⟨hordered, hidx ▸ h.stored, hidx ▸ h.params, hidx ▸ h.map, h.sized, fun hs => ?_⟩
    rw [h.ordered.joined (joined_of_saved hs)] at hticker
    cases hticker
  | handler =>
    have hpos : 0 < s.snapshots := hwants
    refine ⟨hordered, hidx ▸ h.stored, hidx ▸ h.params, hidx ▸ h.map, h.sized, fun hs => ?_⟩
    rw [(h.ordered.drained (drained_of_joined (joined_of_saved hs))).2] at hpos
    exact absurd hpos (Nat.lt_irrefl 0)
  | close => exact ⟨hordered, hidx ▸ h.stored, hidx ▸ h.params, hidx ▸ h.map, h.sized, hsaved⟩

/-! ### Runs -/

omit [Platform UInt32] in
theorem idx_of_appendWAL {d d' : DurableIndex} {r : Wal.Record} {io : Wal.AppendIO}
    {res : Except Wal.AppendError Unit} (h : d.appendWAL r io = (d', res)) : d'.idx = d.idx := by
  unfold DurableIndex.appendWAL at h
  split at h <;> cases h <;> rfl

omit [Platform UInt32] in
/-- A `Snapshot` that goes through leaves its files. -/
theorem files_of_snapshot {d d' : DurableIndex} (h : d.snapshot = (d', .ok ())) :
    d'.idx = d.idx ∧ d'.dir.wal = some Wal.newLog ∧
      d'.dir.snapshot = some (DurableFile.empty.write d'.idx.save) := by
  have hnew : d.dir.walNew = none := by
    obtain ⟨idx, ⟨snapshot, tmp, wal, new⟩, o⟩ := d
    cases new with
    | none => rfl
    | some f => cases h
  rw [Durable.snapshot_eq hnew] at h
  obtain ⟨rfl, -⟩ := Prod.mk.inj h
  exact ⟨rfl, rfl, rfl⟩

theorem kept_error (p : Params) (base : KeyMap UInt32) (answers : List Answer) (c : Call)
    (e : WriteError) : kept p base (answers ++ [(c, .error e)]) = kept p base answers := by
  have hacked : acked (answers ++ [(c, .error e)]) = acked answers := by
    simp [acked, Except.toBool]
  rw [kept, hacked, kept]

theorem kept_ok (p : Params) (base : KeyMap UInt32) (answers : List Answer) (c : Call) :
    kept p base (answers ++ [(c, .ok ())]) = (kept p base answers).apply (c.op p) := by
  have hacked : acked (answers ++ [(c, .ok ())]) = acked answers ++ [c] := by
    simp [acked, Except.toBool]
  rw [kept, hacked, List.map_append]
  exact KeyedLog.run_concat _ _ _

/-- With an id for each vector a new key finds one. -/
theorem has_id_of_count_le {idx : Index UInt32} (hgood : idx.store.Good idx.params)
    (hsized : c.Sized idx.params.dim) (hle : (c.onIndex idx).1.store.count ≤ 2 ^ 32)
    (hadd : c.isAdd = true) :
    idx.store.hasLabel c.key = true ∨ idx.store.count < 2 ^ 32 := by
  by_contra hno
  rw [not_or, not_lt, Bool.not_eq_true] at hno
  obtain ⟨hkey, hge⟩ := hno
  have hcount : idx.store.count = 2 ^ 32 :=
    le_antisymm (hgood.count_le.trans (min_le_right _ _)) hge
  -- the id wraps round to 0, and the vector is stored
  have hlt : idx.store.count % 2 ^ 32 < idx.params.maxElements := by
    rw [hcount, Nat.mod_self]
    exact idx.params.maxElements_pos
  rw [(Durable.onIndex_eq hsized).2.1] at hle
  cases c with
  | add vec key =>
    have hgrows : ((Call.add vec key).onStore idx.params idx.store).1.count =
        idx.store.count + 1 := by
      have hnew : idx.store.hasLabel key = false := hkey
      rw [Call.onStore, Hnsw.Store.add_of_lt vec hnew hlt]
      rfl
    omega
  | markDeleted key => cases hadd
  | unmarkDeleted key => cases hadd

/-- A write that changes the index and returns. -/
theorem Sound.applied (h : s.Sound p base) (hc : c ∈ s.appended)
    (hle : (c.onIndex s.handle.idx).1.store.count ≤ 2 ^ 32) :
    Sound p base
      { s with
        handle := { s.handle with idx := (c.onIndex s.handle.idx).1 }
        appended := s.appended.erase c
        answers := s.answers ++ [(c, match (c.onIndex s.handle.idx).2 with
          | .ok _ => .ok ()
          | .error e => .error (c.error e))] } := by
  have hsized : c.Sized s.handle.idx.params.dim := by
    rw [h.params]
    exact h.sized c (List.mem_append_right _ hc)
  have hid := has_id_of_count_le h.stored.counted.good hsized hle
  have heffect := Durable.onIndex_effect h.stored.counted.good hsized hid
  rw [h.params, h.map] at heffect
  refine h.return (h.ordered.return (writes_applyCall hc) (h.ordered.unlocked (Or.inr hc)) rfl rfl rfl)
    (Durable.stored_onIndex h.stored hsized hid) (Durable.onIndex_eq hsized).1 ?_
    (writes_applyCall hc) rfl rfl
  cases hres : (c.onIndex s.handle.idx).2 with
  | ok u =>
    obtain ⟨a, ha, -, -, hmap⟩ | ⟨hno, -⟩ := heffect
    · obtain rfl := Option.some.inj ha
      rw [kept_ok]
      exact hmap
    · exact absurd hres hno
  | error e =>
    obtain ⟨a, -, hok, -⟩ | ⟨-, hmap⟩ := heffect
    · rw [hres] at hok
      cases hok
    · rw [kept_error]
      exact hmap

/-- **One step of the process.** -/
theorem Sound.next (h : s.Sound p base) (hstep : NextWithin background s s') : s'.Sound p base := by
  obtain ⟨hstep, hle⟩ := hstep
  have hordered := h.ordered.next hstep
  cases hstep with
  | @request c hphase hsized =>
    rw [h.params] at hsized
    refine ⟨hordered, h.stored, h.params, h.map, fun c' hc' => ?_, h.saved⟩
    obtain rfl | hc' := List.mem_cons.mp hc'
    · exact hsized
    · exact h.sized c' hc'
  | requestSnapshot | tick | lockSnapshot | tickerReturns =>
    exact ⟨hordered, h.stored, h.params, h.map, h.sized, h.saved⟩
  | signal hphase => exact ⟨hordered, h.stored, h.params, h.map, h.sized, fun hs => by cases hs⟩
  | @lock c hc hfree =>
    exact h.advance hordered rfl (writes_lock hc)
      (List.mem_append_left _ (List.mem_append_left _ hc)) rfl rfl
  | @append c io d hc happ =>
    exact h.advance hordered (idx_of_appendWAL happ) (writes_append hc)
      (List.mem_append_left _ (List.mem_append_right _ hc)) rfl rfl
  | @appendFails c io d e hc happ =>
    have hidx : d.idx = s.handle.idx := idx_of_appendWAL happ
    refine h.return hordered (hidx ▸ h.stored) (congrArg Index.params hidx) ?_
      (writes_appendFails hc) rfl rfl
    rw [kept_error, ← h.map]
    exact congrArg (fun i : Index UInt32 => i.store.keyMap) hidx
  | @applyCall c hc => exact h.applied hc hle
  | @snapshot who d hwho hopen hsnap =>
    obtain ⟨hidx, hfiles⟩ := files_of_snapshot hsnap
    exact h.resume hwho hidx fun _ => hfiles
  | @snapshotRefused who d e hwho hsnap =>
    have hidx := Durable.idx_snapshot s.handle
    rw [hsnap] at hidx
    exact h.resume hwho hidx nofun
  | @snapshotFails who t left hwho hw =>
    exact h.resume hwho (Durable.halfRotated_failing s.handle t left).idx nofun
  | drained => exact ⟨hordered, h.stored, h.params, h.map, h.sized, fun hs => by cases hs⟩
  | joined =>
    refine ⟨hordered, h.stored, h.params, h.map, h.sized, fun hs => ?_⟩
    cases background <;> cases hs
  | @close saved hphase hfree hquiet =>
    exact ⟨hordered, h.stored, h.params, h.map, h.sized, fun hs => h.saved (by rw [hphase]; exact hs)⟩

/-- **A run of the process.** -/
theorem Sound.run (h : s.Sound p base) (hrun : RunWithin background s s') : s'.Sound p base := by
  induction hrun with
  | refl => exact h
  | tail _ hstep ih => exact ih.next hstep

/-! ### Restarts -/

/-- The handles of shards that run one after the other on one directory, each shut down with a final
snapshot that goes through, and the answers that their callers got, while every vector gets an id of
its own. -/
inductive Generations (cfg : Config) : List Answer → DurableIndex → Prop
  | first {d : DurableIndex} (hopen : Durable.openIndex cfg Dir.empty = .ok d) :
      Generations cfg [] d
  | next {answers : List Answer} {d d' : DurableIndex} {s : Process}
      (h : Generations cfg answers d) (hrun : RunWithin true (start d true) s)
      (hexit : s.phase = .exited true) (hopen : Durable.openIndex cfg s.handle.dir = .ok d') :
      Generations cfg (answers ++ s.answers) d'

/-- **What `New` finds after a final snapshot**: the index as it was when the shard stopped, but for
the generator. -/
theorem Sound.opens_saved (h : s.Sound p base) (hsaved : s.phase.saved = true) (cfg : Config) :
    ∃ d', Durable.openIndex cfg s.handle.dir = .ok d' ∧
      d'.idx = { s.handle.idx with rng := ⟨100, 0⟩ } := by
  obtain ⟨hwal, hsnap⟩ := h.saved hsaved
  have hload : Durable.loadOrCreateIndex cfg s.handle.dir =
      .ok { s.handle.idx with rng := ⟨100, 0⟩ } := by
    rw [Durable.loadOrCreateIndex_saved h.stored.counted.good hsnap rfl, Index.reloaded_eq h.stored]
  exact ⟨_, Durable.openIndex_of_holds hload hwal (List.append_nil _).symm Wal.holds_newLog
    Wal.readRecord_nil rfl, rfl⟩

theorem kept_append (p : Params) (base : KeyMap UInt32) (answers answers' : List Answer) :
    kept p base (answers ++ answers') = kept p (kept p base answers) answers' := by
  have hacked : acked (answers ++ answers') = acked answers ++ acked answers' := by
    simp [acked]
  rw [kept, hacked, List.map_append, kept, kept]
  exact List.foldl_append

theorem Generations.stored {cfg : Config} {answers : List Answer} {d : DurableIndex}
    (h : Generations cfg answers d) :
    d.idx.Stored ∧ d.idx.store.keyMap = promised d.idx.params answers := by
  induction h with
  | first hopen =>
    obtain ⟨p, -, rfl⟩ := Durable.openIndex_empty hopen
    exact ⟨Index.Stored.new p cfg.seed, rfl⟩
  | @next answers d d' s _ hrun hexit hopen ih =>
    obtain ⟨hstored, hmap⟩ := ih
    have hsound := (sound_start hstored true).run hrun
    obtain ⟨d'', hopen', hidx⟩ := hsound.opens_saved (by rw [hexit]; rfl) cfg
    obtain rfl := Except.ok.inj (hopen'.symm.trans hopen)
    rw [hidx]
    refine ⟨hsound.stored.with_rng _, ?_⟩
    have hkept : kept d.idx.params d.idx.store.keyMap s.answers =
        promised d.idx.params (answers ++ s.answers) := by
      rw [hmap]
      exact (kept_append _ _ _ _).symm
    exact hsound.map.trans (hkept.trans (by rw [hsound.params]))

/-- **Shards that are shut down cleanly hold what was acknowledged**, no more and no less, in every
interleaving of their handlers and snapshots, with any refused records and failed snapshots in
between.  When such a shard stops every write has been answered, and `New` finds the index as it was,
with its tombstones and its graph. -/
theorem clean_restarts {cfg : Config} {answers : List Answer} {d : DurableIndex}
    (h : Generations cfg answers d) :
    d.idx.store.keyMap = promised d.idx.params answers ∧
      ∀ s, RunWithin true (start d true) s → s.phase = .exited true →
        s.submitted.Perm (s.answers.map Prod.fst) ∧
        ∃ d', Durable.openIndex cfg s.handle.dir = .ok d' ∧
          d'.idx = { s.handle.idx with rng := ⟨100, 0⟩ } := by
  obtain ⟨hstored, hmap⟩ := h.stored
  refine ⟨hmap, fun s hrun hexit => ?_⟩
  have hsound := (sound_start hstored true).run hrun
  refine ⟨?_, hsound.opens_saved (by rw [hexit]; rfl) cfg⟩
  exact hsound.ordered.all_answered (by rw [hexit]; rfl)

/-! ### The shutdown finishes -/

/-- What is left to do. -/
def work (s : Process) : ℕ :=
  3 * s.waiting.length + 2 * s.locked.length + s.appended.length + 2 * s.snapshots +
    (if s.rotating = none then 1 else 0) + s.ticker.work + s.phase.work

/-- A step that brings the end nearer. -/
def Advances (background : Bool) (s : Process) : Prop :=
  ∃ s', Next background s s' ∧ s'.phase ≠ .serving ∧ s'.work < s.work

omit [Platform UInt32] in
theorem work_resume {who : Snapshotter} (hwho : s.rotating = some who) (hwants : s.Wants who)
    (d : DurableIndex) (saved : Bool) : (s.resume d saved who).work < s.work := by
  cases who with
  | ticker =>
    have hticker : s.ticker = .snapshotting := hwants
    have hresume : (s.resume d saved .ticker).work = 3 * s.waiting.length + 2 * s.locked.length +
      s.appended.length + 2 * s.snapshots + 1 + 2 + s.phase.work := rfl
    have hwork : s.work = 3 * s.waiting.length + 2 * s.locked.length + s.appended.length +
      2 * s.snapshots + 4 + s.phase.work := by simp [work, hwho, hticker, Ticker.work]
    omega
  | handler =>
    have hpos : 0 < s.snapshots := hwants
    have hresume : (s.resume d saved .handler).work = 3 * s.waiting.length + 2 * s.locked.length +
      s.appended.length + 2 * (s.snapshots - 1) + 1 + s.ticker.work + s.phase.work := rfl
    have hwork : s.work = 3 * s.waiting.length + 2 * s.locked.length + s.appended.length +
      2 * s.snapshots + s.ticker.work + s.phase.work := by simp [work, hwho]
    omega
  | close =>
    have hphase : s.phase = .snapshotting := hwants
    have hresume : (s.resume d saved .close).work = 3 * s.waiting.length + 2 * s.locked.length +
      s.appended.length + 2 * s.snapshots + 1 + s.ticker.work + 2 := rfl
    have hwork : s.work = 3 * s.waiting.length + 2 * s.locked.length + s.appended.length +
      2 * s.snapshots + s.ticker.work + 4 := by simp [work, hwho, hphase, Phase.work]
    omega

/-- A snapshot that is being taken can return. -/
theorem Ordered.progress_rotating (h : s.Ordered) (hphase : s.phase ≠ .serving)
    {who : Snapshotter} (hwho : s.rotating = some who) : s.Advances background := by
  have hfails : Next background s (s.resume (s.handle.snapshotFailing .save none) false who) :=
    .snapshotFails hwho (Or.inr (by decide))
  refine ⟨_, hfails, ?_, work_resume hwho (h.wants who hwho) _ _⟩
  cases who with
  | ticker => exact hphase
  | handler => exact hphase
  | close => exact Phase.noConfusion

/-- A write can go on. -/
theorem progress_write (hphase : s.phase ≠ .serving) (hfree : s.rotating = none)
    (hc : c ∈ s.writes) : s.Advances background := by
  obtain hc | hc := List.mem_append.mp hc
  · obtain hc | hc := List.mem_append.mp hc
    · refine ⟨_, .lock hc hfree, hphase, ?_⟩
      have hlength := List.length_erase_of_mem hc
      have hpos := List.length_pos_of_mem hc
      simp only [work, List.length_cons, hlength]
      omega
    · have hlength := List.length_erase_of_mem hc
      have hpos := List.length_pos_of_mem hc
      cases hres : s.handle.appendWAL c.record .done with
      | mk d res =>
        cases res with
        | ok u =>
          refine ⟨_, .append hc hres, hphase, ?_⟩
          simp only [work, List.length_cons, hlength]
          omega
        | error e =>
          refine ⟨_, .appendFails hc hres, hphase, ?_⟩
          simp only [work, hlength]
          omega
  · have hlength := List.length_erase_of_mem hc
    have hpos := List.length_pos_of_mem hc
    refine ⟨_, .applyCall hc, hphase, ?_⟩
    simp only [work, hlength]
    omega

/-- **The shutdown does not get stuck.** -/
theorem Ordered.progress (h : s.Ordered) (hphase : s.phase ≠ .serving)
    (hexit : ∀ saved, s.phase ≠ .exited saved) : s.Advances background := by
  cases hwho : s.rotating with
  | some who => exact h.progress_rotating hphase hwho
  | none =>
    cases hwrites : s.writes with
    | cons c cs => exact progress_write hphase hwho (hwrites ▸ List.mem_cons_self)
    | nil =>
      obtain ⟨hfirst, happended⟩ := List.append_eq_nil_iff.mp hwrites
      obtain ⟨hwaiting, hlocked⟩ := List.append_eq_nil_iff.mp hfirst
      have hlock : ∀ who, s.Wants who → s.Advances background := fun who hwants =>
        ⟨_, .lockSnapshot hwants hwho ⟨hlocked, happended⟩, hphase, by simp [work, hwho]⟩
      -- the goroutine of `Start` comes to its end once `stopCh` is closed
      have hticker : s.phase.drained = true → s.ticker ≠ .gone → s.Advances background := by
        intro hdrained hgone
        cases ht : s.ticker with
        | selecting => exact ⟨_, .tickerReturns ht hdrained, hphase, by simp [work, ht, Ticker.work]⟩
        | snapshotting => exact hlock .ticker ht
        | gone => exact absurd ht hgone
      cases hp : s.phase with
      | serving => exact absurd hp hphase
      | draining =>
        obtain hzero | hpos := Nat.eq_zero_or_pos s.snapshots
        · exact ⟨_, .drained hp ⟨hwaiting, hlocked, happended⟩ hzero, Phase.noConfusion, by
            simp [work, hp, Phase.work]⟩
        · exact hlock .handler hpos
      | waiting =>
        by_cases ht : s.ticker = .gone
        · refine ⟨_, .joined hp ht, ?_, ?_⟩
          · cases background <;> exact Phase.noConfusion
          · cases background <;> simp [work, hp, Phase.work]
        · exact hticker (by rw [hp]; rfl) ht
      | snapshotting => exact hlock .close hp
      | closing saved =>
        exact ⟨_, .close hp hwho ⟨hlocked, happended⟩, Phase.noConfusion, by
          simp [work, hp, Phase.work]⟩
      | exited saved => exact absurd hp (hexit saved)

/-- **After a signal the process can always exit**, from whatever its handlers, its snapshots and its
disk have made of it, and then every write was answered. -/
theorem can_exit {d : DurableIndex} (hrun : Run background (start d background) s)
    (hphase : s.phase ≠ .serving) :
    ∃ s' saved, Run background s s' ∧ s'.phase = .exited saved ∧
      s'.submitted.Perm (s'.answers.map Prod.fst) := by
  have h := (ordered_start d background).run hrun
  clear hrun
  induction hn : s.work using Nat.strong_induction_on generalizing s with
  | _ n ih =>
    by_cases hexit : ∃ saved, s.phase = .exited saved
    · obtain ⟨saved, hexit⟩ := hexit
      exact ⟨s, saved, .refl, hexit, h.all_answered (by rw [hexit]; rfl)⟩
    · obtain ⟨s', hstep, hphase', hless⟩ := h.progress hphase (not_exists.mp hexit)
      obtain ⟨s'', saved, hrest, hend⟩ := ih s'.work (hn ▸ hless) hphase' (h.next hstep) rfl
      exact ⟨s'', saved, .head hstep hrest, hend⟩

end

section
open Hnsw.StandIn Durable

/-- A new shard of which an `Add` comes in just before the signal. -/
theorem run_signal : RunWithin true (start (DurableIndex.fresh smallParams 0) true)
    { start (DurableIndex.fresh smallParams 0) true with
      waiting := [.add [5] ⟨1, 1⟩], submitted := [.add [5] ⟨1, 1⟩], phase := .draining } := by
  have hsized : (Call.add [5] ⟨1, 1⟩).Sized smallParams.dim := by
    rintro vec key ⟨⟩
    rfl
  exact (Relation.ReflTransGen.refl.tail ⟨.request rfl hsized, Nat.zero_le _⟩).tail
    ⟨.signal rfl, Nat.zero_le _⟩

/-- The log cannot sync the record of the `Add`, which is left in it; the shard stops, and the next
one does not have the key. -/
theorem clean_restarts_refused :
    ∃ s d', RunWithin true (start (DurableIndex.fresh smallParams 0) true) s ∧
      s.answers = [(.add [5] ⟨1, 1⟩, .error (.walAppend .fsync))] ∧
      openIndex smallConfig s.handle.dir = .ok d' ∧ d'.idx.store.keyMap ⟨1, 1⟩ = none := by
  have hlocked := run_signal.tail ⟨.lock List.mem_cons_self rfl, Nat.zero_le _⟩
  have hfailed := hlocked.tail ⟨@Next.appendFails _ true _ (.add [5] ⟨1, 1⟩) .syncFails _ .fsync
    List.mem_cons_self rfl, Nat.zero_le _⟩
  have hdrained := hfailed.tail ⟨.drained rfl ⟨rfl, rfl, rfl⟩ rfl, Nat.zero_le _⟩
  have hgone := hdrained.tail ⟨.tickerReturns rfl rfl, Nat.zero_le _⟩
  have hjoined := hgone.tail ⟨.joined rfl rfl, Nat.zero_le _⟩
  have hrotating := hjoined.tail
    ⟨@Next.lockSnapshot _ true _ .close rfl rfl ⟨rfl, rfl⟩, Nat.zero_le _⟩
  have hsaved := hrotating.tail ⟨.snapshot rfl rfl rfl, Nat.zero_le _⟩
  have hexit := hsaved.tail ⟨.close rfl rfl ⟨rfl, rfl⟩, Nat.zero_le _⟩
  have hfirst : Generations smallConfig [] (DurableIndex.fresh smallParams 0) := .first rfl
  obtain ⟨-, d', hopen, -⟩ := (clean_restarts hfirst).2 _ hexit rfl
  refine ⟨_, d', hexit, rfl, hopen, ?_⟩
  rw [(clean_restarts (hfirst.next hexit rfl hopen)).1]
  rfl

theorem can_exit_signal :
    ∃ s' saved, Run true
        { start (DurableIndex.fresh smallParams 0) true with
          waiting := [.add [5] ⟨1, 1⟩], submitted := [.add [5] ⟨1, 1⟩], phase := .draining } s' ∧
      s'.phase = .exited saved ∧ s'.submitted.Perm (s'.answers.map Prod.fst) :=
  can_exit (Relation.ReflTransGen.mono (fun _ _ h => h.1) _ _ run_signal) Phase.noConfusion

end

end Process

end VectorSearch.Shard
