import VectorSearch.Durable.LogOrder

/-! # Snapshots while writes land, over crashes and restarts

Any number of `Add` calls and `Snapshot` calls on one directory (`Process.Next`): an `Add` takes
the shared lock, appends its record, changes the index, and returns; a `Snapshot` takes the
exclusive lock and makes its steps one by one; at any moment the process may die, and `Open` starts
the next one on the files as they are.

`Kept` relates the snapshot file, the log and the index at every such moment: what was acknowledged
is in the snapshot or in the log, everything in either of them is in the index but for the calls in
between, and within a `Snapshot` the files are as far as its steps (`Rotating`).  `kept_next` is its
step lemma.  `safe_iff` says that the keys are safe exactly when the records of the index are within
the limit of the reader, in all runs in which every vector gets an id of its own
(`Process.NextWithin`). -/

open ByteCodec

namespace VectorSearch.Durable

open Wal (Record Loggable Holds applyAll)
open Hnsw (Label Index Platform Params Store KeyOp KeyMap)

/-- An `Add`. -/
structure Write where
  vec : Wal.Vec
  key : Label
deriving DecidableEq

def Write.call (w : Write) : Call := .add w.vec w.key

/-- The keys of some `Add`s. -/
def keysOf (ws : List Write) : Finset Label := (ws.map Write.key).toFinset

/-- The running process, the files, and what its callers have been told. -/
structure Process where
  handle : DurableIndex
  /-- `Add`s that hold the shared lock and have not appended their record -/
  locked : List Write
  /-- `Add`s whose record is appended -/
  appended : List Write
  /-- `Add`s that the index has accepted -/
  applied : List Write
  /-- the steps that a `Snapshot` with the exclusive lock has left -/
  rotating : Option (List SnapshotStep)
  /-- all `Add`s so far -/
  submitted : List Write
  /-- those that have returned nil -/
  acked : List Write

/-- The process that `Open` starts. -/
def Process.start (d : DurableIndex) : Process := ⟨d, [], [], [], none, [], []⟩

section
variable [Platform UInt32]

/-- The steps of the process.  `known` are the keys that were in the index at the start: an `Add`
has a key of its own, and all of them are within the capacity. -/
inductive Process.Next (cfg : Config) (known : Finset Label) (s : Process) : Process → Prop
  /-- `RLock` -/
  | lock {w : Write} (hfree : s.rotating = none) (hnew : w.key ∉ known ∪ keysOf s.submitted)
      (hdim : w.vec.length = s.handle.idx.params.dim)
      (hroom : (insert w.key (known ∪ keysOf s.submitted)).card ≤
        s.handle.idx.params.maxElements) :
      Next cfg known s { s with locked := w :: s.locked, submitted := w :: s.submitted }
  | append {w : Write} {d : DurableIndex} (hw : w ∈ s.locked)
      (happ : s.handle.appendWAL w.call.record .done = (d, .ok ())) :
      Next cfg known s
        { s with handle := d, locked := s.locked.erase w, appended := w :: s.appended }
  /-- the call returns the error of `Append` -/
  | appendFails {w : Write} {d : DurableIndex} {e : Wal.AppendError} (hw : w ∈ s.locked)
      (happ : s.handle.appendWAL w.call.record .done = (d, .error e)) :
      Next cfg known s { s with handle := d, locked := s.locked.erase w }
  | applyCall {w : Write} (hw : w ∈ s.appended)
      (hres : (w.call.onIndex s.handle.idx).2 = .ok ()) :
      Next cfg known s
        { s with
          handle := { s.handle with idx := (w.call.onIndex s.handle.idx).1 }
          appended := s.appended.erase w
          applied := w :: s.applied }
  /-- the call returns the error of the index -/
  | applyFails {w : Write} {e : Hnsw.Err} (hw : w ∈ s.appended)
      (hres : (w.call.onIndex s.handle.idx).2 = .error e) :
      Next cfg known s
        { s with
          handle := { s.handle with idx := (w.call.onIndex s.handle.idx).1 }
          appended := s.appended.erase w }
  /-- `RUnlock`, and the call returns nil -/
  | acknowledge {w : Write} (hw : w ∈ s.applied) :
      Next cfg known s { s with applied := s.applied.erase w, acked := w :: s.acked }
  /-- `Lock` -/
  | lockSnapshot (hfree : s.rotating = none)
      (hquiet : s.locked = [] ∧ s.appended = [] ∧ s.applied = []) :
      Next cfg known s { s with rotating := some snapshotSteps }
  | snapshotStep {t : SnapshotStep} {ts : List SnapshotStep} {d : DurableIndex}
      (hts : s.rotating = some (t :: ts)) (hstep : t.perform s.handle = .ok d) :
      Next cfg known s { s with handle := d, rotating := some ts }
  /-- `Snapshot` returns the error -/
  | snapshotFails {t : SnapshotStep} {ts : List SnapshotStep} {e : SnapshotError}
      (hts : s.rotating = some (t :: ts)) (hstep : t.perform s.handle = .error e) :
      Next cfg known s { s with rotating := none }
  /-- `Unlock`, and `Snapshot` returns nil -/
  | unlockSnapshot (hts : s.rotating = some []) : Next cfg known s { s with rotating := none }
  /-- the process dies and `Open` starts another one -/
  | crash {d : DurableIndex} (hopen : openIndex cfg s.handle.dir = .ok d) :
      Next cfg known s { Process.start d with submitted := s.submitted, acked := s.acked }

/-- A step after which 32 bits still give an id to each vector: those of the index `d` that the
process started with, and one for each `Add`. -/
def Process.NextWithin (cfg : Config) (d : DurableIndex) (s s' : Process) : Prop :=
  s.Next cfg d.idx.store.keys s' ∧ d.idx.store.count + s'.submitted.length ≤ 2 ^ 32

/-- The keys that the log names in a `MarkDeleted` or `UnmarkDeleted`. -/
def Dir.tombstoned (dir : Dir) : Finset Label :=
  match dir.wal with
  | none => ∅
  | some f => (((Wal.records (f.bytes.drop Wal.headerSize)).filter
      fun r => ! (callOf r).isAdd).map keyOf).toFinset

/-- If the process died now, `Open` would succeed, every acknowledged key would be there with its
own vector, live unless a record from before the start deletes it, and no other keys than those
from before the start and the submitted ones. -/
def Process.Safe (cfg : Config) (known tombstoned : Finset Label) (s : Process) : Prop :=
  ∃ d', openIndex cfg s.handle.dir = .ok d' ∧
    (∀ w ∈ s.acked, ∃ b, d'.idx.store.keyMap w.key = some (d'.idx.params.prepare w.vec, b) ∧
      (w.key ∉ tombstoned → b = false)) ∧
    ∀ k, d'.idx.store.hasLabel k = true → k ∈ known ∪ keysOf s.submitted

/-! ### The invariant -/

/-- The entry of a submitted key. -/
def Write.Own (p : Params) (tombstoned : Finset Label) (w : Write) (m : KeyMap UInt32) : Prop :=
  KeyOp.Own (p.prepare w.vec) (w.key ∉ tombstoned) (m w.key)

/-- The snapshot of the index is in place. -/
def Renamed (d : DurableIndex) : Prop :=
  d.dir.snapshot = some (DurableFile.empty.write d.idx.save)

/-- What the first `j` steps of `Snapshot` have done. -/
def Rotating (d : DurableIndex) : ℕ → Prop
  | 0 => d.walOpen = true
  | 1 => d.dir.snapshotTmp = some (DurableFile.empty.write d.idx.save) ∧ d.walOpen = true
  | 2 => Renamed d ∧ d.walOpen = true
  | 3 => Renamed d ∧ d.dir.walNew = some DurableFile.empty ∧ d.walOpen = true
  | 4 => Renamed d ∧ d.dir.walNew = some (DurableFile.empty.write Wal.header) ∧ d.walOpen = true
  | 5 => Renamed d ∧ d.dir.walNew = some Wal.newLog ∧ d.walOpen = true
  | 6 | 7 => Renamed d ∧ d.dir.walNew = some Wal.newLog
  | 8 => Renamed d ∧ d.dir.wal = some Wal.newLog
  | _ => Renamed d ∧ d.walOpen = true

/-- The log `f` with the records `rs`, and the index `base` that the snapshot gives. -/
structure Logged (cfg : Config) (p : Params) (tombstoned : Finset Label) (s : Process)
    (f : DurableFile) (base : Index UInt32) (rs : List Record) : Prop where
  wal : s.handle.dir.wal = some f
  holds : Holds f.bytes rs
  load : loadOrCreateIndex cfg s.handle.dir = .ok base
  params : base.params = p
  good : base.store.Good p
  own : ∀ w ∈ s.submitted, w.Own p tombstoned base.store.keyMap
  keys : base.store.keys ⊆ s.handle.idx.store.keys
  benign : ∀ r ∈ rs, Benign p r
  adds : ∀ r ∈ rs, (callOf r).isAdd = true → ∀ w ∈ s.submitted, keyOf r = w.key → callOf r = w.call
  others : ∀ r ∈ rs, (callOf r).isAdd = false → keyOf r ∈ tombstoned
  logged : addedKeys (rs.map callOf) ⊆ s.handle.idx.store.keys ∪ keysOf s.appended
  kept : ∀ w, w ∈ s.acked ∨ w ∈ s.applied ∨ w ∈ s.appended →
    w.key ∈ addedKeys (rs.map callOf) ∪ base.store.keys

/-- The invariant of the process. -/
structure Kept (cfg : Config) (p : Params) (known tombstoned : Finset Label) (s : Process) :
    Prop where
  params : s.handle.idx.params = p
  good : s.handle.idx.store.Good p
  keys : s.handle.idx.store.keys ⊆ known ∪ keysOf s.submitted
  own : ∀ w ∈ s.submitted, w.Own p tombstoned s.handle.idx.store.keyMap
  room : (known ∪ keysOf s.submitted).card ≤ p.room
  distinct : ∀ w ∈ s.submitted, ∀ w' ∈ s.submitted, w.key = w'.key → w = w'
  sized : ∀ w ∈ s.submitted, w.vec.length = p.dim
  fresh : ∀ w ∈ s.submitted, w.key ∉ known
  flight : ∀ w, w ∈ s.locked ∨ w ∈ s.appended ∨ w ∈ s.applied ∨ w ∈ s.acked → w ∈ s.submitted
  log : ∃ f base rs, Logged cfg p tombstoned s f base rs
  lock : match s.rotating with
    | none => s.handle.walOpen = true
    | some ts => s.locked = [] ∧ s.appended = [] ∧ s.applied = [] ∧
        ∃ j ≤ snapshotSteps.length, ts = snapshotSteps.drop j ∧ Rotating s.handle j

/-! ### What Open finds -/

section
variable {cfg : Config} {p : Params} {known tombstoned : Finset Label} {s : Process}

omit [Platform UInt32] in
theorem mem_keysOf {ws : List Write} {k : Label} : k ∈ keysOf ws ↔ ∃ w ∈ ws, w.key = k := by
  simp only [keysOf, List.mem_toFinset, List.mem_map]

omit [Platform UInt32] in
theorem key_mem_keysOf {ws : List Write} {w : Write} (h : w ∈ ws) : w.key ∈ keysOf ws :=
  mem_keysOf.mpr ⟨w, h, rfl⟩

/-- Replaying a log in which every record on the key is its own `Add` or an old tombstone. -/
theorem Write.Own.run {w : Write} {m : KeyMap UInt32} (h : w.Own p tombstoned m)
    {rs : List Record} (hadds : ∀ r ∈ rs, (callOf r).isAdd = true → keyOf r = w.key →
      callOf r = w.call)
    (hothers : ∀ r ∈ rs, (callOf r).isAdd = false → keyOf r ∈ tombstoned) :
    w.Own p tombstoned (m.run ((rs.map callOf).map (Call.op p))) := by
  rw [Write.Own, KeyMap.run_at]
  refine KeyOp.Own.foldl h fun o ho => ?_
  obtain ⟨⟨k, o⟩, hmem, rfl⟩ := List.mem_map.mp ho
  obtain ⟨hmem, hkey⟩ := List.mem_filter.mp hmem
  have hkey : k = w.key := by simpa using hkey
  obtain ⟨c, hc, hop⟩ := List.mem_map.mp hmem
  obtain ⟨r, hr, rfl⟩ := List.mem_map.mp hc
  have hk : keyOf r = w.key := (key_callOf r).symm.trans ((congrArg Prod.fst hop).trans hkey)
  obtain rfl : ((callOf r).op p).2 = o := congrArg Prod.snd hop
  by_cases hadd : (callOf r).isAdd = true
  · left
    rw [hadds r hr hadd hk]
    rfl
  · rw [Bool.not_eq_true] at hadd
    refine Or.inr ⟨by rw [isAdd_op, hadd], not_not_intro ?_⟩
    rw [← hk]
    exact hothers r hr hadd

/-- The log stays what it is when the two files do, the keys of the index only grow, and no write
comes to be in the log. -/
theorem Logged.mono {f : DurableFile} {base : Index UInt32} {rs : List Record}
    (h : Logged cfg p tombstoned s f base rs) {s' : Process}
    (hwal : s'.handle.dir.wal = s.handle.dir.wal)
    (hsnap : s'.handle.dir.snapshot = s.handle.dir.snapshot) (hsub : s'.submitted = s.submitted)
    (hkeys : s.handle.idx.store.keys ⊆ s'.handle.idx.store.keys)
    (happended : keysOf s.appended ⊆ s'.handle.idx.store.keys ∪ keysOf s'.appended)
    (hflight : ∀ w, w ∈ s'.acked ∨ w ∈ s'.applied ∨ w ∈ s'.appended →
      w ∈ s.acked ∨ w ∈ s.applied ∨ w ∈ s.appended) :
    Logged cfg p tombstoned s' f base rs where
  wal := hwal.trans h.wal
  holds := h.holds
  load := (loadOrCreateIndex_congr hsnap).trans h.load
  params := h.params
  good := h.good
  own := by
    rw [hsub]
    exact h.own
  keys := h.keys.trans hkeys
  benign := h.benign
  adds := by
    rw [hsub]
    exact h.adds
  others := h.others
  logged := h.logged.trans
    (Finset.union_subset (hkeys.trans Finset.subset_union_left) happended)
  kept w hw := h.kept w (hflight w hw)

/-- **What `Open` makes of the files.** -/
theorem Kept.opens (h : Kept cfg p known tombstoned s) {f : DurableFile} {base : Index UInt32}
    {rs : List Record} (hlog : Logged cfg p tombstoned s f base rs) :
    ∃ idx, openIndex cfg s.handle.dir = .ok ⟨idx, { s.handle.dir with
        wal := some (f.truncate f.bytes.length) }, true⟩ ∧
      idx.params = p ∧ idx.store.Good p ∧
      idx.store.keys = addedKeys (rs.map callOf) ∪ base.store.keys ∧
      idx.store.keys ⊆ known ∪ keysOf s.submitted ∧
      ∀ w ∈ s.submitted, w.Own p tombstoned idx.store.keyMap := by
  have hsub : addedKeys (rs.map callOf) ∪ base.store.keys ⊆ known ∪ keysOf s.submitted := by
    have happ : keysOf s.appended ⊆ keysOf s.submitted := by
      intro k hk
      obtain ⟨w, hw, rfl⟩ := mem_keysOf.mp hk
      exact key_mem_keysOf (h.flight w (Or.inr (Or.inl hw)))
    exact Finset.union_subset (hlog.logged.trans (Finset.union_subset h.keys
      (happ.trans Finset.subset_union_right))) (hlog.keys.trans h.keys)
  obtain ⟨idx, happ, hparams, hgood, hmap, hkeys⟩ := applyAll_good rs
    (by rw [hlog.params]; exact hlog.good) (by rw [hlog.params]; exact hlog.benign)
    (by rw [hlog.params]; exact (Finset.card_le_card hsub).trans h.room)
  rw [hlog.params] at hparams hgood hmap
  refine ⟨idx, openIndex_of_holds hlog.load hlog.wal (List.append_nil _).symm hlog.holds
    Wal.readRecord_nil happ, hparams, hgood, hkeys, by rw [hkeys]; exact hsub, fun w hw => ?_⟩
  rw [hmap]
  exact (hlog.own w hw).run (fun r hr hadd => hlog.adds r hr hadd w hw) hlog.others

/-- The invariant makes the process safe. -/
theorem Kept.safe (h : Kept cfg p known tombstoned s) : s.Safe cfg known tombstoned := by
  obtain ⟨f, base, rs, hlog⟩ := h.log
  obtain ⟨idx, hopen, hparams, hgood, hkeys, hsub, hown⟩ := h.opens hlog
  refine ⟨_, hopen, fun w hw => ?_, fun k hk => hsub (hgood.mem_keys.mpr hk)⟩
  have hmem : w.key ∈ idx.store.keys := by
    rw [hkeys]
    exact hlog.kept w (Or.inl hw)
  have hsome : (idx.store.keyMap w.key).isSome = true := by
    rw [Store.isSome_keyMap]
    exact hgood.mem_keys.mp hmem
  obtain ⟨⟨v, b⟩, hentry⟩ := Option.isSome_iff_exists.mp hsome
  obtain ⟨rfl, hb⟩ := hown w (h.flight w (Or.inr (Or.inr (Or.inr hw)))) v b hentry
  exact ⟨b, by rw [hentry, hparams], hb⟩

end

/-! ### The steps of Add -/

section
variable {cfg : Config} {p : Params} {known tombstoned : Finset Label} {s : Process}

omit [Platform UInt32] in
theorem keysOf_cons (w : Write) (ws : List Write) : keysOf (w :: ws) = insert w.key (keysOf ws) := by
  rw [keysOf, List.map_cons, List.toFinset_cons]
  rfl

theorem own_of_notMem {w : Write} {st : Store UInt32} (hgood : st.Good p)
    (h : w.key ∉ st.keys) : w.Own p tombstoned st.keyMap := by
  have hnone : st.keyMap w.key = none := by
    rw [← Option.not_isSome_iff_eq_none, Store.isSome_keyMap]
    exact fun hk => h (hgood.mem_keys.mpr hk)
  rw [Write.Own, hnone]
  exact KeyOp.own_none

theorem Kept.lockAdd (h : Kept cfg p known tombstoned s) {w : Write} (hfree : s.rotating = none)
    (hnew : w.key ∉ known ∪ keysOf s.submitted) (hdim : w.vec.length = s.handle.idx.params.dim)
    (hroom : (insert w.key (known ∪ keysOf s.submitted)).card ≤
      min s.handle.idx.params.maxElements (2 ^ 32)) :
    Kept cfg p known tombstoned
      { s with locked := w :: s.locked, submitted := w :: s.submitted } := by
  have hkeys : known ∪ keysOf (w :: s.submitted) = insert w.key (known ∪ keysOf s.submitted) := by
    rw [keysOf_cons, Finset.union_insert]
  have hgrow : known ∪ keysOf s.submitted ⊆ known ∪ keysOf (w :: s.submitted) := by
    rw [hkeys]
    exact Finset.subset_insert _ _
  have hother : ∀ w' ∈ s.submitted, w'.key ≠ w.key := by
    intro w' hw' heq
    exact hnew (Finset.mem_union_right _ (heq ▸ key_mem_keysOf hw'))
  have hmem : w.key ∉ s.handle.idx.store.keys := fun hk => hnew (h.keys hk)
  refine ⟨h.params, h.good, h.keys.trans hgrow, ?_, ?_, ?_, ?_, ?_, ?_, ?_, ?_⟩
  · rintro w' (_ | ⟨_, hw'⟩)
    · exact own_of_notMem h.good hmem
    · exact h.own w' hw'
  · rw [hkeys, Params.room, ← h.params]
    exact hroom
  · rintro w' (_ | ⟨_, hw'⟩) w'' (_ | ⟨_, hw''⟩) heq
    · rfl
    · exact absurd heq.symm (hother w'' hw'')
    · exact absurd heq (hother w' hw')
    · exact h.distinct w' hw' w'' hw'' heq
  · rintro w' (_ | ⟨_, hw'⟩)
    · rw [hdim, h.params]
    · exact h.sized w' hw'
  · rintro w' (_ | ⟨_, hw'⟩)
    · exact fun hk => hnew (Finset.mem_union_left _ hk)
    · exact h.fresh w' hw'
  · rintro w' ((_ | ⟨_, hw'⟩) | hw')
    · exact List.mem_cons_self
    · exact List.mem_cons_of_mem _ (h.flight w' (Or.inl hw'))
    · exact List.mem_cons_of_mem _ (h.flight w' (Or.inr hw'))
  · obtain ⟨f, base, rs, hlog⟩ := h.log
    refine ⟨f, base, rs, hlog.wal, hlog.holds, hlog.load, hlog.params, hlog.good, ?_, hlog.keys,
      hlog.benign, ?_, hlog.others, hlog.logged, hlog.kept⟩
    · rintro w' (_ | ⟨_, hw'⟩)
      · exact own_of_notMem hlog.good fun hk => hmem (hlog.keys hk)
      · exact hlog.own w' hw'
    · rintro r hr hadd w' (_ | ⟨_, hw'⟩) heq
      · -- the log has no `Add` of a new key
        have hk : w.key ∈ addedKeys (rs.map callOf) := by
          refine List.mem_toFinset.mpr (List.mem_map.mpr ⟨callOf r, List.mem_filter.mpr
            ⟨List.mem_map_of_mem hr, hadd⟩, ?_⟩)
          rw [key_callOf, heq]
        obtain hk | hk := Finset.mem_union.mp (hlog.logged hk)
        · exact absurd hk hmem
        · obtain ⟨w'', hw'', hkey⟩ := mem_keysOf.mp hk
          exact absurd hkey (hother w'' (h.flight w'' (Or.inr (Or.inl hw''))))
      · exact hlog.adds r hr hadd w' hw' heq
  · rw [hfree]
    have hlock := h.lock
    rw [hfree] at hlock
    exact hlock

/-- While an `Add` is in progress no `Snapshot` is. -/
theorem Kept.not_rotating (h : Kept cfg p known tombstoned s)
    (hbusy : s.locked ≠ [] ∨ s.appended ≠ [] ∨ s.applied ≠ []) :
    s.rotating = none ∧ s.handle.walOpen = true := by
  have hlock := h.lock
  cases hrot : s.rotating with
  | none =>
      rw [hrot] at hlock
      exact ⟨rfl, hlock⟩
  | some ts =>
      rw [hrot] at hlock
      obtain ⟨hl, ha, hp, -⟩ := hlock
      obtain h | h | h := hbusy
      · exact absurd hl h
      · exact absurd ha h
      · exact absurd hp h

omit [Platform UInt32] in
theorem Write.sized (w : Write) {dim : ℕ} (h : w.vec.length = dim) : w.call.Sized dim := by
  rintro vec key ⟨⟩
  exact h

theorem Kept.append (h : Kept cfg p known tombstoned s) (hfits : Fits p.dim) {w : Write}
    (hw : w ∈ s.locked) {d : DurableIndex} {res : Except Wal.AppendError Unit}
    (happ : s.handle.appendWAL w.call.record .done = (d, res)) :
    res = .ok () ∧ Kept cfg p known tombstoned
      { s with handle := d, locked := s.locked.erase w, appended := w :: s.appended } := by
  obtain ⟨hrot, hopen⟩ := h.not_rotating (Or.inl (List.ne_nil_of_mem hw))
  have hsub : w ∈ s.submitted := h.flight w (Or.inl hw)
  have hsized : w.call.Sized p.dim := w.sized (h.sized w hsub)
  have hloggable := loggable_record p.dim_pos hsized (Or.inl hfits)
  obtain ⟨f, base, rs, hlog⟩ := h.log
  rw [appendWAL_done hopen hlog.wal hloggable.encode] at happ
  cases happ
  have hadded : addedKeys ((rs ++ [w.call.record]).map callOf) =
      addedKeys (rs.map callOf) ∪ {w.key} := by
    rw [List.map_append, addedKeys_append]
    rfl
  refine ⟨rfl, h.params, h.good, h.keys, h.own, h.room, h.distinct, h.sized, h.fresh, ?_,
    ⟨_, base, rs ++ [w.call.record], rfl, hlog.holds.append hloggable, ?_, hlog.params, hlog.good,
      hlog.own, hlog.keys, ?_, ?_, ?_, ?_, ?_⟩, ?_⟩
  · rintro w' (hw' | (_ | ⟨_, hw'⟩) | hw')
    · exact h.flight w' (Or.inl (List.mem_of_mem_erase hw'))
    · exact hsub
    · exact h.flight w' (Or.inr (Or.inl hw'))
    · exact h.flight w' (Or.inr (Or.inr hw'))
  · rw [← hlog.load]
    rfl
  · intro r hr
    obtain hr | hr := List.mem_append.mp hr
    · exact hlog.benign r hr
    · rw [List.mem_singleton.mp hr]
      exact benign_record hsized
  · intro r hr hadd w' hw' heq
    obtain hr | hr := List.mem_append.mp hr
    · exact hlog.adds r hr hadd w' hw' heq
    · rw [List.mem_singleton.mp hr] at heq ⊢
      rw [callOf_record, h.distinct w hsub w' hw' ((keyOf_record _).symm.trans heq)]
  · intro r hr hadd
    obtain hr | hr := List.mem_append.mp hr
    · exact hlog.others r hr hadd
    · rw [List.mem_singleton.mp hr, callOf_record] at hadd
      cases hadd
  · rw [hadded, keysOf_cons, Finset.union_insert, Finset.union_comm (addedKeys _),
      ← Finset.insert_eq]
    exact Finset.insert_subset_insert _ hlog.logged
  · rw [hadded]
    have hold : ∀ w', w' ∈ s.acked ∨ w' ∈ s.applied ∨ w' ∈ s.appended →
        w'.key ∈ addedKeys (rs.map callOf) ∪ {w.key} ∪ base.store.keys := fun w' hw' =>
      Finset.union_subset_union Finset.subset_union_left (Finset.Subset.refl _) (hlog.kept w' hw')
    rintro w' (hw' | hw' | (_ | ⟨_, hw'⟩))
    · exact hold w' (Or.inl hw')
    · exact hold w' (Or.inr (Or.inl hw'))
    · simp
    · exact hold w' (Or.inr (Or.inr hw'))
  · rw [hrot]
    exact hopen

/-- An `Add` that the index has been given, and that goes on to `applied` or returns an error. -/
theorem Kept.applyCall (h : Kept cfg p known tombstoned s) {w : Write} (hw : w ∈ s.appended)
    {applied : List Write} (happlied : ∀ w' ∈ applied, w' = w ∨ w' ∈ s.applied) :
    Kept cfg p known tombstoned
      { s with
        handle := { s.handle with idx := (w.call.onIndex s.handle.idx).1 }
        appended := s.appended.erase w
        applied := applied } := by
  obtain ⟨hrot, hopen⟩ := h.not_rotating (Or.inr (Or.inl (List.ne_nil_of_mem hw)))
  have hsub : w ∈ s.submitted := h.flight w (Or.inr (Or.inl hw))
  have hgood : s.handle.idx.store.Good s.handle.idx.params := by
    rw [h.params]
    exact h.good
  obtain ⟨hparams', hgood', hmap', hkeys'⟩ := onIndex_good (c := w.call) hgood
    (by rw [h.params]; exact w.sized (h.sized w hsub))
    (fun _ => by
      rw [h.params]
      exact h.good.has_or_room h.keys h.room
        (Finset.mem_union_right _ (key_mem_keysOf hsub)))
  rw [h.params] at hparams' hgood' hmap'
  have hkeys'' : (w.call.onIndex s.handle.idx).1.store.keys =
      insert w.key s.handle.idx.store.keys := hkeys'
  have hgrow : s.handle.idx.store.keys ⊆ (w.call.onIndex s.handle.idx).1.store.keys := by
    rw [hkeys'']
    exact Finset.subset_insert _ _
  obtain ⟨f, base, rs, hlog⟩ := h.log
  have hflight : ∀ w' ∈ applied, w' ∈ s.applied ∨ w' ∈ s.appended := fun w' hw' =>
    (happlied w' hw').elim (fun heq => Or.inr (heq ▸ hw)) Or.inl
  refine ⟨hparams', hgood', ?_, ?_, h.room, h.distinct, h.sized, h.fresh, ?_,
    ⟨f, base, rs, hlog.mono rfl rfl rfl hgrow ?_ ?_⟩, ?_⟩
  · show (w.call.onIndex s.handle.idx).1.store.keys ⊆ _
    rw [hkeys'']
    exact Finset.insert_subset (Finset.mem_union_right _ (key_mem_keysOf hsub)) h.keys
  · intro w' hw'
    show w'.Own p tombstoned (w.call.onIndex s.handle.idx).1.store.keyMap
    have hop : w.call.op p = (w.key, .add (p.prepare w.vec)) := rfl
    rw [hmap', Write.Own, hop]
    by_cases hkey : w'.key = w.key
    · obtain rfl := h.distinct w' hw' w hsub hkey
      have hcell := (h.own w' hw').cell (o := .add (p.prepare w'.vec)) (Or.inl rfl)
      rw [← KeyMap.apply_same] at hcell
      exact hcell
    · rw [KeyMap.apply_ne _ _ hkey]
      exact h.own w' hw'
  · rintro w' (hw' | hw' | hw' | hw')
    · exact h.flight w' (Or.inl hw')
    · exact h.flight w' (Or.inr (Or.inl (List.mem_of_mem_erase hw')))
    · obtain hw' | hw' := hflight w' hw'
      · exact h.flight w' (Or.inr (Or.inr (Or.inl hw')))
      · exact h.flight w' (Or.inr (Or.inl hw'))
    · exact h.flight w' (Or.inr (Or.inr (Or.inr hw')))
  · intro k hk
    show k ∈ (w.call.onIndex s.handle.idx).1.store.keys ∪ keysOf (s.appended.erase w)
    obtain ⟨w', hw', rfl⟩ := mem_keysOf.mp hk
    by_cases heq : w' = w
    · rw [heq, hkeys'']
      simp
    · exact Finset.mem_union_right _ (key_mem_keysOf ((List.mem_erase_of_ne heq).mpr hw'))
  · rintro w' (hw' | hw' | hw')
    · exact Or.inl hw'
    · exact Or.inr (hflight w' hw')
    · exact Or.inr (Or.inr (List.mem_of_mem_erase hw'))
  · rw [hrot]
    exact hopen

theorem Kept.acknowledge (h : Kept cfg p known tombstoned s) {w : Write} (hw : w ∈ s.applied) :
    Kept cfg p known tombstoned
      { s with applied := s.applied.erase w, acked := w :: s.acked } := by
  obtain ⟨hrot, hopen⟩ := h.not_rotating (Or.inr (Or.inr (List.ne_nil_of_mem hw)))
  obtain ⟨f, base, rs, hlog⟩ := h.log
  refine ⟨h.params, h.good, h.keys, h.own, h.room, h.distinct, h.sized, h.fresh, ?_,
    ⟨f, base, rs, hlog.mono rfl rfl rfl (Finset.Subset.refl _) Finset.subset_union_right ?_⟩, ?_⟩
  · rintro w' (hw' | hw' | hw' | (_ | ⟨_, hw'⟩))
    · exact h.flight w' (Or.inl hw')
    · exact h.flight w' (Or.inr (Or.inl hw'))
    · exact h.flight w' (Or.inr (Or.inr (Or.inl (List.mem_of_mem_erase hw'))))
    · exact h.flight w (Or.inr (Or.inr (Or.inl hw)))
    · exact h.flight w' (Or.inr (Or.inr (Or.inr hw')))
  · rintro w' ((_ | ⟨_, hw'⟩) | hw' | hw')
    · exact Or.inr (Or.inl hw)
    · exact Or.inl hw'
    · exact Or.inr (Or.inl (List.mem_of_mem_erase hw'))
    · exact Or.inr (Or.inr hw')
  · rw [hrot]
    exact hopen

/-! ### The steps of Snapshot -/

omit [Platform UInt32] in
/-- One step of `Snapshot`: the index stays, and the two files that `Open` reads only change when
a file that is ready is renamed over them. -/
theorem Rotating.next {d d' : DurableIndex} {t : SnapshotStep} {ts : List SnapshotStep}
    (hstep : t.perform d = .ok d') : ∀ {j : ℕ}, Rotating d j → t :: ts = snapshotSteps.drop j →
      Rotating d' (j + 1) ∧ ts = snapshotSteps.drop (j + 1) ∧ d'.idx = d.idx ∧
        (d'.dir.snapshot = d.dir.snapshot ∨
          d'.dir.snapshot = some (DurableFile.empty.write d.idx.save)) ∧
        (d'.dir.wal = d.dir.wal ∨ d'.dir.wal = some Wal.newLog ∧
          d'.dir.snapshot = some (DurableFile.empty.write d.idx.save))
  | 0, hopen, hts => by
      cases hts
      cases hstep
      exact ⟨⟨rfl, hopen⟩, rfl, rfl, Or.inl rfl, Or.inl rfl⟩
  | 1, ⟨hsaved, hopen⟩, hts => by
      cases hts
      cases hstep
      exact ⟨⟨hsaved, hopen⟩, rfl, rfl, Or.inr hsaved, Or.inl rfl⟩
  | 2, ⟨hrenamed, hopen⟩, hts => by
      cases hts
      cases hnew : d.dir.walNew with
      | some f =>
          simp only [SnapshotStep.perform, hnew] at hstep
          cases hstep
      | none =>
          simp only [SnapshotStep.perform, hnew] at hstep
          cases hstep
          exact ⟨⟨hrenamed, rfl, hopen⟩, rfl, rfl, Or.inl rfl, Or.inl rfl⟩
  | 3, ⟨hrenamed, hnew, hopen⟩, hts => by
      cases hts
      cases hstep
      exact ⟨⟨hrenamed, by rw [hnew]; rfl, hopen⟩, rfl, rfl, Or.inl rfl, Or.inl rfl⟩
  | 4, ⟨hrenamed, hnew, hopen⟩, hts => by
      cases hts
      cases hstep
      exact ⟨⟨hrenamed, by rw [hnew]; rfl, hopen⟩, rfl, rfl, Or.inl rfl, Or.inl rfl⟩
  | 5, ⟨hrenamed, hnew, hopen⟩, hts => by
      cases hts
      cases hstep
      exact ⟨⟨hrenamed, hnew⟩, rfl, rfl, Or.inl rfl, Or.inl rfl⟩
  | 6, ⟨hrenamed, hnew⟩, hts => by
      cases hts
      cases hstep
      exact ⟨⟨hrenamed, hnew⟩, rfl, rfl, Or.inl rfl, Or.inl rfl⟩
  | 7, ⟨hrenamed, hnew⟩, hts => by
      cases hts
      cases hstep
      exact ⟨⟨hrenamed, hnew⟩, rfl, rfl, Or.inl rfl, Or.inr ⟨hnew, hrenamed⟩⟩
  | 8, ⟨hrenamed, hwal⟩, hts => by
      cases hts
      cases hstep
      exact ⟨⟨hrenamed, rfl⟩, rfl, rfl, Or.inl rfl, Or.inl rfl⟩
  | j + 9, _, hts => by
      rw [List.drop_eq_nil_of_le (Nat.le_add_left 9 j)] at hts
      cases hts

omit [Platform UInt32] in
/-- Only the creation of the new log can fail, and then the old one is still open. -/
theorem Rotating.fails {d : DurableIndex} {t : SnapshotStep} {ts : List SnapshotStep}
    {e : SnapshotError} (hstep : t.perform d = .error e) :
    ∀ {j : ℕ}, Rotating d j → t :: ts = snapshotSteps.drop j → d.walOpen = true
  | 0, hopen, _ => hopen
  | 1, ⟨_, hopen⟩, _ => hopen
  | 2, ⟨_, hopen⟩, _ => hopen
  | 3, ⟨_, _, hopen⟩, _ => hopen
  | 4, ⟨_, _, hopen⟩, _ => hopen
  | 5, ⟨_, _, hopen⟩, _ => hopen
  | 6, _, hts | 7, _, hts | 8, _, hts => by
      cases hts
      cases hstep
  | j + 9, _, hts => by
      rw [List.drop_eq_nil_of_le (Nat.le_add_left 9 j)] at hts
      cases hts

/-- A snapshot of the live index, with the log as it was or a new one. -/
theorem Kept.saved (h : Kept cfg p known tombstoned s) (happended : s.appended = [])
    {d : DurableIndex} (hidx : d.idx = s.handle.idx)
    (hsnap : d.dir.snapshot = some (DurableFile.empty.write s.handle.idx.save))
    (hwal : d.dir.wal = s.handle.dir.wal ∨ d.dir.wal = some Wal.newLog)
    {rotating : Option (List SnapshotStep)} :
    ∃ f base rs, Logged cfg p tombstoned { s with handle := d, rotating := rotating } f base rs := by
  obtain ⟨f, base, rs, hlog⟩ := h.log
  have hgood : s.handle.idx.store.Good s.handle.idx.params := by
    rw [h.params]
    exact h.good
  obtain ⟨hgood', hmap, hkeys⟩ := Hnsw.reloaded_store hgood
  rw [h.params] at hgood'
  have hload : loadOrCreateIndex cfg d.dir = .ok s.handle.idx.reloaded :=
    loadOrCreateIndex_saved hgood hsnap rfl
  have hparams : s.handle.idx.reloaded.params = p := h.params
  have hown : ∀ w ∈ s.submitted, w.Own p tombstoned s.handle.idx.reloaded.store.keyMap := by
    rw [hmap]
    exact h.own
  have hsub : s.handle.idx.reloaded.store.keys ⊆ d.idx.store.keys := by
    rw [hkeys, hidx]
  have hlogged : addedKeys (rs.map callOf) ⊆ s.handle.idx.store.keys := by
    have := hlog.logged
    rw [happended] at this
    simpa [keysOf] using this
  have hkept : ∀ w, w ∈ s.acked ∨ w ∈ s.applied ∨ w ∈ s.appended →
      w.key ∈ s.handle.idx.store.keys := fun w hw =>
    Finset.union_subset hlogged hlog.keys (hlog.kept w hw)
  obtain hwal | hwal := hwal
  · refine ⟨f, _, rs, hwal.trans hlog.wal, hlog.holds, hload, hparams, hgood', hown, hsub,
      hlog.benign, hlog.adds, hlog.others, ?_, fun w hw => ?_⟩
    · rw [hidx]
      exact hlog.logged
    · rw [hkeys]
      exact Finset.mem_union_right _ (hkept w hw)
  · refine ⟨_, _, [], hwal, Wal.holds_newLog, hload, hparams, hgood', hown, hsub, nofun, nofun, nofun,
      Finset.empty_subset _, fun w hw => ?_⟩
    rw [hkeys]
    exact Finset.mem_union_right _ (hkept w hw)

theorem Kept.snapshotStep (h : Kept cfg p known tombstoned s) {t : SnapshotStep}
    {ts : List SnapshotStep} {d : DurableIndex} (hts : s.rotating = some (t :: ts))
    (hstep : t.perform s.handle = .ok d) :
    Kept cfg p known tombstoned { s with handle := d, rotating := some ts } := by
  have hlock := h.lock
  rw [hts] at hlock
  obtain ⟨hlocked, happended, happlied, j, -, hdrop, hrot⟩ := hlock
  obtain ⟨hrot', hdrop', hidx, hsnap, hwal⟩ := Rotating.next hstep hrot hdrop
  have hj : j + 1 ≤ snapshotSteps.length := by
    have hlen := congrArg List.length hdrop
    rw [List.length_drop, List.length_cons] at hlen
    omega
  have hlog : ∃ f base rs,
      Logged cfg p tombstoned { s with handle := d, rotating := some ts } f base rs := by
    obtain hsnap | hsnap := hsnap
    · obtain hwal | ⟨hwal, hsaved⟩ := hwal
      · obtain ⟨f, base, rs, hlog⟩ := h.log
        refine ⟨f, base, rs, hlog.mono hwal hsnap rfl ?_ Finset.subset_union_right fun _ => id⟩
        rw [hidx]
      · exact h.saved happended hidx hsaved (Or.inr hwal)
    · exact h.saved happended hidx hsnap (hwal.imp_right And.left)
  refine ⟨by rw [hidx]; exact h.params, by rw [hidx]; exact h.good, by rw [hidx]; exact h.keys,
    by rw [hidx]; exact h.own, h.room, h.distinct, h.sized, h.fresh, h.flight, hlog,
    hlocked, happended, happlied, j + 1, hj, hdrop', hrot'⟩

/-- The lock is released. -/
theorem Kept.unlocked (h : Kept cfg p known tombstoned s) (hopen : s.handle.walOpen = true) :
    Kept cfg p known tombstoned { s with rotating := none } := by
  obtain ⟨f, base, rs, hlog⟩ := h.log
  exact ⟨h.params, h.good, h.keys, h.own, h.room, h.distinct, h.sized, h.fresh, h.flight,
    ⟨f, base, rs, hlog.mono rfl rfl rfl (Finset.Subset.refl _) Finset.subset_union_right
      fun _ => id⟩, hopen⟩

theorem Kept.lockSnapshot (h : Kept cfg p known tombstoned s) (hfree : s.rotating = none)
    (hquiet : s.locked = [] ∧ s.appended = [] ∧ s.applied = []) :
    Kept cfg p known tombstoned { s with rotating := some snapshotSteps } := by
  obtain ⟨f, base, rs, hlog⟩ := h.log
  have hlock := h.lock
  rw [hfree] at hlock
  exact ⟨h.params, h.good, h.keys, h.own, h.room, h.distinct, h.sized, h.fresh, h.flight,
    ⟨f, base, rs, hlog.mono rfl rfl rfl (Finset.Subset.refl _) Finset.subset_union_right
      fun _ => id⟩,
    hquiet.1, hquiet.2.1, hquiet.2.2, 0, Nat.zero_le _, rfl, hlock⟩

/-- The process that `Open` starts after a crash. -/
theorem Kept.crash (h : Kept cfg p known tombstoned s) {d : DurableIndex}
    (hopen : openIndex cfg s.handle.dir = .ok d) :
    Kept cfg p known tombstoned
      { Process.start d with submitted := s.submitted, acked := s.acked } := by
  obtain ⟨f, base, rs, hlog⟩ := h.log
  obtain ⟨idx, hidx, hparams, hgood, hkeys, hsub, hown⟩ := h.opens hlog
  obtain rfl := Except.ok.inj (hidx.symm.trans hopen)
  refine ⟨hparams, hgood, hsub, hown, h.room, h.distinct, h.sized, h.fresh, ?_,
    ⟨f.truncate f.bytes.length, base, rs, rfl, ?_, ?_, hlog.params, hlog.good, hlog.own, ?_,
      hlog.benign, hlog.adds, hlog.others, ?_, ?_⟩, rfl⟩
  · rintro w (hw | hw | hw | hw)
    · cases hw
    · cases hw
    · cases hw
    · exact h.flight w (Or.inr (Or.inr (Or.inr hw)))
  · rw [DurableFile.bytes_truncate, List.take_length]
    exact hlog.holds
  · rw [← hlog.load]
    rfl
  · show base.store.keys ⊆ idx.store.keys
    rw [hkeys]
    exact Finset.subset_union_right
  · show addedKeys (rs.map callOf) ⊆ idx.store.keys ∪ _
    rw [hkeys, Finset.union_assoc]
    exact Finset.subset_union_left
  · rintro w (hw | hw | hw)
    · exact hlog.kept w (Or.inl hw)
    · cases hw
    · cases hw

/-- An index that was full at the start gets no `Add`. -/
theorem Kept.fits (h : Kept cfg p known tombstoned s) (hfits : Fits p.dim ∨ p.room ≤ known.card)
    {w : Write} (hw : w ∈ s.locked) : Fits p.dim := by
  refine hfits.resolve_right fun hfull => ?_
  have hsub := h.flight w (Or.inl hw)
  have hss : known ⊂ known ∪ keysOf s.submitted :=
    (Finset.ssubset_iff_of_subset Finset.subset_union_left).mpr
      ⟨w.key, Finset.mem_union_right _ (key_mem_keysOf hsub), h.fresh w hsub⟩
  have hlt := Finset.card_lt_card hss
  have hroom := h.room
  omega

/-- **One step of the process keeps the invariant**, if the records are within the limit of the
reader or there is no room for another one, and there are ids for all keys. -/
theorem kept_next (hfits : Fits p.dim ∨ p.room ≤ known.card) {s' : Process}
    (h : Kept cfg p known tombstoned s) (hnext : s.Next cfg known s')
    (hids : (known ∪ keysOf s'.submitted).card ≤ 2 ^ 32) : Kept cfg p known tombstoned s' := by
  cases hnext with
  | lock hfree hnew hdim hroom =>
      rw [keysOf_cons, Finset.union_insert] at hids
      exact h.lockAdd hfree hnew hdim (le_min hroom hids)
  | append hw happ => exact (h.append (h.fits hfits hw) hw happ).2
  | appendFails hw happ => exact nomatch (h.append (h.fits hfits hw) hw happ).1
  | applyCall hw hres =>
      exact h.applyCall hw fun w' hw' => List.mem_cons.mp hw'
  | applyFails hw hres => exact h.applyCall hw fun w' hw' => Or.inr hw'
  | acknowledge hw => exact h.acknowledge hw
  | lockSnapshot hfree hquiet => exact h.lockSnapshot hfree hquiet
  | snapshotStep hts hstep => exact h.snapshotStep hts hstep
  | snapshotFails hts hstep =>
      have hlock := h.lock
      rw [hts] at hlock
      obtain ⟨-, -, -, j, -, hdrop, hrot⟩ := hlock
      exact h.unlocked (Rotating.fails hstep hrot hdrop)
  | unlockSnapshot hts =>
      have hlock := h.lock
      rw [hts] at hlock
      obtain ⟨-, -, -, j, hj, hdrop, hrot⟩ := hlock
      obtain rfl : j = snapshotSteps.length :=
        le_antisymm hj (List.drop_eq_nil_iff.mp hdrop.symm)
      exact h.unlocked hrot.2
  | crash hopen => exact h.crash hopen

end

/-! ### Runs -/

omit [Platform UInt32] in
theorem exists_notMem {K : Finset Label} (hK : K.card < 2 ^ 64) : ∃ k, k ∉ K := by
  have hinj : Set.InjOn (fun n => (⟨0, UInt64.ofNat n⟩ : Label)) (Finset.range (K.card + 1)) := by
    intro a ha b hb hab
    have ha : a < 2 ^ 64 := lt_of_lt_of_le (Finset.mem_range.mp ha) hK
    have hb : b < 2 ^ 64 := lt_of_lt_of_le (Finset.mem_range.mp hb) hK
    have := congrArg UInt64.toNat (Label.mk.inj hab).2
    rwa [UInt64.toNat_ofNat', UInt64.toNat_ofNat', Nat.mod_eq_of_lt ha, Nat.mod_eq_of_lt hb] at this
  have hcard : K.card < ((Finset.range (K.card + 1)).image
      fun n => (⟨0, UInt64.ofNat n⟩ : Label)).card := by
    rw [Finset.card_image_of_injOn hinj, Finset.card_range]
    exact Nat.lt_succ_self _
  obtain ⟨k, -, hk⟩ := Finset.exists_mem_notMem_of_card_lt_card hcard
  exact ⟨k, hk⟩

section
variable {cfg : Config} {dir : Dir} {d : DurableIndex}

omit [Platform UInt32] in
/-- A snapshot that `Save` wrote of a good index gives a good one. -/
theorem good_of_loadOrCreateIndex {base : Index UInt32}
    (hload : loadOrCreateIndex cfg dir = .ok base)
    (hsnap : ∀ f, dir.snapshot = some f →
      ∃ idx : Index UInt32, idx.store.Good idx.params ∧ f.bytes = idx.save) :
    base.store.Good base.params := by
  cases hdir : dir.snapshot with
  | none =>
      obtain ⟨p, -, rfl⟩ := loadOrCreateIndex_none hdir hload
      exact Store.Good.empty p
  | some g =>
      obtain ⟨idx, hgood, hbytes⟩ := hsnap g hdir
      obtain rfl := Except.ok.inj ((loadOrCreateIndex_saved hgood hdir hbytes).symm.trans hload)
      exact (Hnsw.reloaded_store hgood).1

/-- Below the id space a call keeps the count within the capacity. -/
theorem count_onStore_le {p : Params} {st : Store UInt32} (hsmall : p.maxElements < 2 ^ 32)
    (hcount : st.count ≤ p.maxElements) (c : Call) : (c.onStore p st).1.count ≤ p.maxElements := by
  cases c with
  | add vec key =>
      cases hk : st.hasLabel key with
      | true =>
          simp only [Call.onStore, Store.add_of_hasLabel p vec hk]
          exact hcount
      | false =>
          obtain hlt | hfull := Nat.lt_or_ge (st.count % 2 ^ 32) p.maxElements
          · simp only [Call.onStore, Store.add_of_lt vec hk hlt]
            show st.count + 1 ≤ _
            omega
          · simp only [Call.onStore, Store.add_of_full vec hk hfull]
            exact hcount
  | markDeleted key => exact (Store.count_markDeleted st key).le.trans hcount
  | unmarkDeleted key => exact (Store.count_unmarkDeleted st key).le.trans hcount

/-- Below the id space replay keeps the count within the capacity. -/
theorem count_le_of_applyAll : ∀ (rs : List Record) {idx idx' : Index UInt32},
    (∀ r ∈ rs, Wal.KnownOp r.op) → idx.params.maxElements < 2 ^ 32 →
      idx.store.count ≤ idx.params.maxElements → applyAll apply idx rs = .ok idx' →
        idx'.store.count ≤ idx.params.maxElements
  | [], _, _, _, _, hcount, happ => by
      cases happ
      exact hcount
  | r :: rs, idx, idx', hop, hsmall, hcount, happ => by
      have hr := hop r List.mem_cons_self
      rw [Wal.applyAll_cons] at happ
      cases h : apply idx r with
      | error e =>
          rw [h] at happ
          cases happ
      | ok idx₁ =>
          rw [h] at happ
          have hsized := sized_of_apply hr h
          rw [apply_of_hasRoom hr hsized (hasRoom_of_apply hr h)] at h
          obtain rfl := Except.ok.inj h
          obtain ⟨hparams, hstore, -⟩ := onIndex_eq hsized
          rw [← hparams] at hsmall ⊢
          refine count_le_of_applyAll rs (fun r' h' => hop r' (List.mem_cons_of_mem _ h')) hsmall ?_
            happ
          rw [hstore, hparams]
          exact count_onStore_le (hparams ▸ hsmall) hcount _

/-- The process that `Open` starts, on a snapshot that `Save` wrote. -/
theorem kept_start (hopen : openIndex cfg dir = .ok d)
    (hsnap : ∀ f, dir.snapshot = some f →
      ∃ idx : Index UInt32, idx.store.Good idx.params ∧ f.bytes = idx.save)
    (hids : d.idx.store.count ≤ 2 ^ 32) :
    Kept cfg d.idx.params d.idx.store.keys dir.tombstoned (Process.start d) := by
  obtain ⟨base, rs, f, hload, happ, hd, hholds, hrs, hnone⟩ := openIndex_wal hopen
  have hbase := good_of_loadOrCreateIndex hload hsnap
  have hop : ∀ r ∈ rs, Wal.KnownOp r.op := fun r hr => (known_fits_of_read hrs hnone r hr).1
  have hparams := params_applyAll happ
  have hcount : d.idx.store.count ≤ min d.idx.params.maxElements (2 ^ 32) := by
    refine le_min ?_ hids
    obtain hsmall | hlarge := Nat.lt_or_ge base.params.maxElements (2 ^ 32)
    · rw [hparams]
      exact count_le_of_applyAll rs hop hsmall (hbase.count_le.trans (min_le_left _ _)) happ
    · rw [hparams]
      exact hids.trans hlarge
  obtain ⟨hbenign, htracks⟩ := tracks_of_applyAll rs hop
    ⟨fun k => hbase.mem_keys.symm, hbase.card_keys.symm⟩ happ
  have hroom : (addedKeys (rs.map callOf) ∪ base.store.keys).card ≤ base.params.room := by
    rw [← htracks.2, ← hparams]
    exact hcount
  obtain ⟨idx', happ', -, hgood', -, hkeys'⟩ := applyAll_good rs hbase hbenign hroom
  obtain rfl := Except.ok.inj (happ'.symm.trans happ)
  have hsnapshot : d.dir.snapshot = dir.snapshot := by rw [hd]
  have hwal : d.dir.wal = some f := by rw [hd]
  have hwalOpen : d.walOpen = true := by rw [hd]
  rw [← hparams] at hgood'
  refine ⟨rfl, hgood', Finset.subset_union_left, nofun, ?_, nofun, nofun, nofun, ?_,
    ⟨f, base, rs, hwal, hholds, ?_, hparams.symm, by rw [hparams]; exact hbase, nofun, ?_,
      by rw [hparams]; exact hbenign, fun _ _ _ => nofun, ?_, ?_, ?_⟩, hwalOpen⟩
  · show (d.idx.store.keys ∪ ∅).card ≤ _
    rw [Finset.union_empty, hgood'.card_keys]
    exact hcount
  · rintro w (hw | hw | hw | hw) <;> cases hw
  · rw [← hload]
    exact loadOrCreateIndex_congr hsnapshot
  · show base.store.keys ⊆ d.idx.store.keys
    rw [hkeys']
    exact Finset.subset_union_right
  · intro r hr hadd
    cases hdir : dir.wal with
    | none =>
        rw [(hnone hdir).1] at hr
        cases hr
    | some g =>
        rw [hrs g hdir] at hr
        simp only [Dir.tombstoned, hdir, List.mem_toFinset, List.mem_map, List.mem_filter]
        exact ⟨r, ⟨hr, by rw [hadd]; rfl⟩, rfl⟩
  · show _ ⊆ d.idx.store.keys ∪ _
    rw [hkeys', Finset.union_assoc]
    exact Finset.subset_union_left
  · rintro w (hw | hw | hw) <;> cases hw

/-- The steps of an `Add` that no other call comes between. -/
theorem lone_add {w : Write} (hnew : w.key ∉ d.idx.store.keys)
    (hdim : w.vec.length = d.idx.params.dim)
    (hroom : (insert w.key d.idx.store.keys).card ≤ d.idx.params.maxElements)
    (hids : d.idx.store.count + 1 ≤ 2 ^ 32) {d₁ : DurableIndex}
    (happ : d.appendWAL w.call.record .done = (d₁, .ok ()))
    (hres : (w.call.onIndex d₁.idx).2 = .ok ()) :
    Relation.ReflTransGen (Process.NextWithin cfg d) (Process.start d)
      ⟨{ d₁ with idx := (w.call.onIndex d₁.idx).1 }, [], [], [], none, [w], [w]⟩ := by
  have herase : [w].erase w = [] := List.erase_cons_head _ _
  have hunion : d.idx.store.keys ∪ keysOf [] = d.idx.store.keys := Finset.union_empty _
  have h₁ : (Process.start d).Next cfg d.idx.store.keys ⟨d, [w], [], [], none, [w], []⟩ := by
    refine .lock rfl (fun hk => hnew (hunion ▸ hk)) hdim ?_
    show (insert w.key (d.idx.store.keys ∪ keysOf [])).card ≤ _
    rwa [hunion]
  have h₂ : Process.Next cfg d.idx.store.keys ⟨d, [w], [], [], none, [w], []⟩
      ⟨d₁, [w].erase w, [w], [], none, [w], []⟩ := .append List.mem_cons_self happ
  have h₃ : Process.Next cfg d.idx.store.keys ⟨d₁, [], [w], [], none, [w], []⟩
      ⟨{ d₁ with idx := (w.call.onIndex d₁.idx).1 }, [], [w].erase w, [w], none, [w], []⟩ :=
    .applyCall List.mem_cons_self hres
  have h₄ : Process.Next cfg d.idx.store.keys
      ⟨{ d₁ with idx := (w.call.onIndex d₁.idx).1 }, [], [], [w], none, [w], []⟩
      ⟨{ d₁ with idx := (w.call.onIndex d₁.idx).1 }, [], [], [w].erase w, none, [w], [w]⟩ :=
    .acknowledge List.mem_cons_self
  rw [herase] at h₂ h₃ h₄
  exact .tail (.tail (.tail (.tail .refl ⟨h₁, hids⟩) ⟨h₂, hids⟩) ⟨h₃, hids⟩) ⟨h₄, hids⟩

/-- An `Add` whose record is above the limit of the reader is acknowledged and lost. -/
theorem exists_not_safe (h : Kept cfg d.idx.params d.idx.store.keys dir.tombstoned (Process.start d))
    (hfits : ¬ Fits d.idx.params.dim)
    (hroom : d.idx.store.count < min d.idx.params.maxElements (2 ^ 32)) :
    ∃ s, Relation.ReflTransGen (Process.NextWithin cfg d) (Process.start d) s ∧
      ¬ s.Safe cfg d.idx.store.keys dir.tombstoned := by
  have hcard : d.idx.store.keys.card = d.idx.store.count := h.good.card_keys
  obtain ⟨key, hkey⟩ := exists_notMem (K := d.idx.store.keys)
    (by rw [hcard]; exact lt_of_lt_of_le hroom ((min_le_right _ _).trans (by decide)))
  obtain ⟨w, hkey, hdim⟩ : ∃ w : Write, w.key ∉ d.idx.store.keys ∧ w.vec.length = d.idx.params.dim :=
    ⟨⟨List.replicate d.idx.params.dim 0, key⟩, hkey, List.length_replicate⟩
  have hsized : w.call.Sized d.idx.params.dim := w.sized hdim
  obtain ⟨f, base, rs, hlog⟩ := h.log
  have hopen : d.walOpen = true := h.lock
  have henc : Wal.encode w.call.record = .ok (Wal.frame (Wal.payload w.call.record)) :=
    (Wal.encode_eq_ok_iff _ _).mpr ⟨rule_record d.idx.params.dim_pos hsized, rfl⟩
  have hlabel : d.idx.store.hasLabel w.key = false := by
    rw [← Bool.not_eq_true]
    exact fun hk => hkey (h.good.mem_keys.mpr hk)
  have hres : (w.call.onIndex d.idx).2 = .ok () := by
    obtain ⟨-, -, hres⟩ := onIndex_eq hsized
    have hstore : d.idx.store.count < d.idx.params.room := hroom
    rw [hres]
    simp only [Write.call, Call.onStore, Store.add_of_room w.vec hlabel hstore]
  have hroom' : (insert w.key d.idx.store.keys).card ≤ d.idx.params.maxElements := by
    rw [Finset.card_insert_of_notMem hkey, hcard]
    exact hroom.trans_le (min_le_left _ _)
  refine ⟨_, lone_add hkey hdim hroom' (hroom.trans_le (min_le_right _ _))
    (appendWAL_done hopen hlog.wal henc) hres, ?_⟩
  rintro ⟨d', hd', hacked, -⟩
  obtain ⟨b, hentry, -⟩ := hacked w List.mem_cons_self
  have hload := (loadOrCreateIndex_congr rfl).trans hlog.load
  have hafter := hasLabel_openIndex hd' hload (by rwa [hlog.params]) w.key
  rw [← Store.isSome_keyMap, hentry] at hafter
  exact hkey (hlog.keys (hlog.good.mem_keys.mpr hafter.symm))

omit [Platform UInt32] in
/-- Keys of the start and submitted ones, counted one by one. -/
theorem card_keys_le (d : DurableIndex) (ws : List Write) :
    (d.idx.store.keys ∪ keysOf ws).card ≤ d.idx.store.count + ws.length := by
  have hknown : d.idx.store.keys.card ≤ d.idx.store.count :=
    Finset.card_image_le.trans (Finset.card_range _).le
  have hws : (keysOf ws).card ≤ ws.length :=
    (List.toFinset_card_le _).trans (List.length_map _).le
  exact (Finset.card_union_le _ _).trans (Nat.add_le_add hknown hws)

/-- **The keys are safe exactly when the records are within the limit of the reader, or there is no
room for another one**: in every run of `Add`s with keys of their own, `Snapshot`s and crashes in
which every vector gets an id of its own, from any index that `Open` returned on a snapshot written by
`Save`. -/
theorem safe_iff (hopen : openIndex cfg dir = .ok d)
    (hsnap : ∀ f, dir.snapshot = some f →
      ∃ idx : Index UInt32, idx.store.Good idx.params ∧ f.bytes = idx.save)
    (hids : d.idx.store.count ≤ 2 ^ 32) :
    (∀ s, Relation.ReflTransGen (Process.NextWithin cfg d) (Process.start d) s →
        s.Safe cfg d.idx.store.keys dir.tombstoned) ↔
      21 + d.idx.params.dim * 4 ≤ Wal.maxPayloadLen ∨
        min d.idx.params.maxElements (2 ^ 32) ≤ d.idx.store.count := by
  have hstart := kept_start hopen hsnap hids
  constructor
  · intro h
    by_contra hno
    rw [not_or, not_le, not_le] at hno
    obtain ⟨s, hrun, hunsafe⟩ := exists_not_safe hstart (not_le.mpr hno.1) hno.2
    exact hunsafe (h s hrun)
  · intro hfits s hrun
    have hkept : Kept cfg d.idx.params d.idx.store.keys dir.tombstoned s := by
      induction hrun with
      | refl => exact hstart
      | tail _ hnext ih =>
          refine kept_next (hfits.imp_right fun hfull => ?_) ih hnext.1
            ((card_keys_le d _).trans hnext.2)
          rw [show d.idx.store.keys.card = d.idx.store.count from hstart.good.card_keys]
          exact hfull
    exact hkept.safe

end

end

section
variable [Platform UInt32] {cfg : Config} {d d₁ d₂ : DurableIndex} {w w' : Write}

variable (cfg w w') in
/-- Two `Add`s whose steps come between each other: both hold the lock before either appends, the
second one appends first, and they return in that order. -/
theorem interleaved_adds (hkey : w.key ∉ d.idx.store.keys)
    (hkey' : w'.key ∉ insert w.key d.idx.store.keys) (hdim : w.vec.length = d.idx.params.dim)
    (hdim' : w'.vec.length = d.idx.params.dim)
    (hroom : (insert w'.key (insert w.key d.idx.store.keys)).card ≤ d.idx.params.maxElements)
    (hids : d.idx.store.count + 2 ≤ 2 ^ 32)
    (happ' : d.appendWAL w'.call.record .done = (d₁, .ok ()))
    (happ : d₁.appendWAL w.call.record .done = (d₂, .ok ()))
    (hres : (w.call.onIndex d₂.idx).2 = .ok ())
    (hres' : (w'.call.onIndex (w.call.onIndex d₂.idx).1).2 = .ok ()) :
    Relation.ReflTransGen (Process.NextWithin cfg d) (Process.start d)
      ⟨{ d₂ with idx := (w'.call.onIndex (w.call.onIndex d₂.idx).1).1 }, [], [], [], none, [w', w],
        [w, w']⟩ := by
  have hne : w' ≠ w := by
    rintro rfl
    exact hkey' (Finset.mem_insert_self _ _)
  have hfirst : d.idx.store.keys ∪ keysOf [] = d.idx.store.keys := Finset.union_empty _
  have hsecond : d.idx.store.keys ∪ keysOf [w] = insert w.key d.idx.store.keys := by
    rw [keysOf_cons, Finset.union_insert, hfirst]
  have hroom₁ : (insert w.key d.idx.store.keys).card ≤ d.idx.params.maxElements :=
    (Finset.card_le_card (Finset.subset_insert _ _)).trans hroom
  have h₁ : (Process.start d).Next cfg d.idx.store.keys ⟨d, [w], [], [], none, [w], []⟩ :=
    .lock rfl (fun hk => hkey (hfirst ▸ hk)) hdim
      (by show (insert w.key (d.idx.store.keys ∪ keysOf [])).card ≤ _; rwa [hfirst])
  have h₂ : Process.Next cfg d.idx.store.keys ⟨d, [w], [], [], none, [w], []⟩
      ⟨d, [w', w], [], [], none, [w', w], []⟩ :=
    .lock rfl (fun hk => hkey' (hsecond ▸ hk)) hdim'
      (by show (insert w'.key (d.idx.store.keys ∪ keysOf [w])).card ≤ _; rwa [hsecond])
  have h₃ : Process.Next cfg d.idx.store.keys ⟨d, [w', w], [], [], none, [w', w], []⟩
      ⟨d₁, [w', w].erase w', [w'], [], none, [w', w], []⟩ := .append List.mem_cons_self happ'
  rw [List.erase_cons_head] at h₃
  have h₄ : Process.Next cfg d.idx.store.keys ⟨d₁, [w], [w'], [], none, [w', w], []⟩
      ⟨d₂, [w].erase w, [w, w'], [], none, [w', w], []⟩ := .append List.mem_cons_self happ
  rw [List.erase_cons_head] at h₄
  have h₅ : Process.Next cfg d.idx.store.keys ⟨d₂, [], [w, w'], [], none, [w', w], []⟩
      ⟨{ d₂ with idx := (w.call.onIndex d₂.idx).1 }, [], [w, w'].erase w, [w], none, [w', w], []⟩ :=
    .applyCall List.mem_cons_self hres
  rw [List.erase_cons_head] at h₅
  have h₆ : Process.Next cfg d.idx.store.keys
      ⟨{ d₂ with idx := (w.call.onIndex d₂.idx).1 }, [], [w'], [w], none, [w', w], []⟩
      ⟨{ d₂ with idx := (w'.call.onIndex (w.call.onIndex d₂.idx).1).1 }, [], [w'].erase w', [w', w],
        none, [w', w], []⟩ := .applyCall List.mem_cons_self hres'
  rw [List.erase_cons_head] at h₆
  have h₇ : Process.Next cfg d.idx.store.keys
      ⟨{ d₂ with idx := (w'.call.onIndex (w.call.onIndex d₂.idx).1).1 }, [], [], [w', w], none,
        [w', w], []⟩
      ⟨{ d₂ with idx := (w'.call.onIndex (w.call.onIndex d₂.idx).1).1 }, [], [], [w', w].erase w',
        none, [w', w], [w']⟩ := .acknowledge List.mem_cons_self
  rw [List.erase_cons_head] at h₇
  have h₈ : Process.Next cfg d.idx.store.keys
      ⟨{ d₂ with idx := (w'.call.onIndex (w.call.onIndex d₂.idx).1).1 }, [], [], [w], none,
        [w', w], [w']⟩
      ⟨{ d₂ with idx := (w'.call.onIndex (w.call.onIndex d₂.idx).1).1 }, [], [], [w].erase w,
        none, [w', w], [w, w']⟩ := .acknowledge List.mem_cons_self
  rw [List.erase_cons_head] at h₈
  have hone : d.idx.store.count + 1 ≤ 2 ^ 32 := by omega
  exact .tail (.tail (.tail (.tail (.tail (.tail (.tail (.tail .refl ⟨h₁, hone⟩) ⟨h₂, hids⟩)
    ⟨h₃, hids⟩) ⟨h₄, hids⟩) ⟨h₅, hids⟩) ⟨h₆, hids⟩) ⟨h₇, hids⟩) ⟨h₈, hids⟩

end

open Hnsw.StandIn in
/-- Two `Add`s interleave and return nil, then a `Snapshot` gets to the end of its first rename and
the process dies: the process that `Open` starts is safe, with both keys. -/
theorem safe_rotated :
    ∃ (s : Process) (d : DurableIndex),
      Relation.ReflTransGen (Process.NextWithin twoConfig (DurableIndex.fresh twoParams 0))
        (Process.start (DurableIndex.fresh twoParams 0)) s ∧
      s.acked = [⟨[5], ⟨1, 1⟩⟩, ⟨[6], ⟨1, 2⟩⟩] ∧ s.rotating = some (snapshotSteps.drop 2) ∧
      openIndex twoConfig s.handle.dir = .ok d ∧
      Process.Safe twoConfig ∅ ∅ { Process.start d with submitted := s.submitted, acked := s.acked } := by
  have hopen : openIndex twoConfig Dir.empty = .ok (DurableIndex.fresh twoParams 0) := rfl
  have hsafe := (safe_iff hopen nofun (Nat.zero_le _)).mpr (Or.inl (by decide))
  have hids : (DurableIndex.fresh twoParams 0).idx.store.count + 2 ≤ 2 ^ 32 := by decide
  have hadds := interleaved_adds twoConfig ⟨[5], ⟨1, 1⟩⟩ ⟨[6], ⟨1, 2⟩⟩
    (d := DurableIndex.fresh twoParams 0) (by decide) (by decide) rfl rfl (by decide) hids rfl rfl
    (by decide +kernel) (by decide +kernel)
  have hrun := ((hadds.tail ⟨.lockSnapshot rfl ⟨rfl, rfl, rfl⟩, hids⟩).tail
    ⟨.snapshotStep rfl rfl, hids⟩).tail ⟨.snapshotStep rfl rfl, hids⟩
  obtain ⟨d, hd, -⟩ := hsafe _ hrun
  exact ⟨_, d, hrun, rfl, rfl, hd, hsafe _ (hrun.tail ⟨.crash hd, hids⟩)⟩

/-- A configuration with one dimension more than a record can have. -/
def longConfig : Config := ⟨.l2, 4194299, 1, 2, 2, 0⟩

def longParams : Params :=
  { smallParams with
    dim := 4194299
    dim_pos := by decide
    dim_lt := by decide }

open Hnsw.StandIn in
/-- `Open` accepts that configuration, and an acknowledged `Add` is lost at the next crash. -/
theorem long_vector_lost :
    openIndex longConfig Dir.empty = .ok (DurableIndex.fresh longParams 0) ∧
      ∃ s, Relation.ReflTransGen (Process.Next longConfig ∅)
        (Process.start (DurableIndex.fresh longParams 0)) s ∧ ¬ s.Safe longConfig ∅ ∅ := by
  have hopen : openIndex longConfig Dir.empty = .ok (DurableIndex.fresh longParams 0) := rfl
  obtain ⟨s, hrun, hunsafe⟩ := exists_not_safe (kept_start hopen nofun (Nat.zero_le _))
    (by unfold Fits; decide) (by decide)
  refine ⟨hopen, s, Relation.ReflTransGen.mono ?_ _ _ hrun, hunsafe⟩
  exact fun _ _ hnext => hnext.1

end VectorSearch.Durable
