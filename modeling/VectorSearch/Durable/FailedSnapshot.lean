import VectorSearch.Durable.Rotation
import VectorSearch.Durable.LogOrder

/-! # Snapshots that fail

Any single file operation of `Snapshot` may fail (`SnapshotStep.fail`), and `Snapshot` then returns
with the files and the handle half way through the rotation (`HalfRotated`).  `Reached` are the
handles that calls, snapshots, failing snapshots and process crashes lead to, and `Serving` is what
holds of all of them: the log on disk, replayed on the snapshot on disk, adds no key that the index
does not have, unless the index is full.

The log is closed before the new one is in place and only the last step opens it again, so a
`Snapshot` that fails in between leaves a handle on which every write fails: `acceptsAdd_iff` says
that an `Add` goes through and is recovered exactly when the failing step comes before the close. -/

open ByteCodec

namespace VectorSearch.Durable

open Wal (Record Loggable Holds applyAll records)
open Hnsw (Label Index Platform Params Store KeyOp KeyMap)

/-! ### Failing steps -/

/-- What is left when the call of a step fails.  A failed `save` leaves any file, a failed header
write and a failed close remove the new log, and a file counts as closed even if `Close` returns an
error. -/
def SnapshotStep.fail (d : DurableIndex) (left : Option DurableFile) : SnapshotStep → DurableIndex
  | save => { d with dir := { d.dir with snapshotTmp := left } }
  | renameSnapshot => d
  | createNew => d
  | writeHeader => { d with dir := { d.dir with walNew := none } }
  | syncHeader => d
  | closeOld => { d with dir := { d.dir with walNew := none }, walOpen := false }
  | closeNew => { d with dir := { d.dir with walNew := none } }
  | renameWAL => d
  | reopen => d

/-- The handle after a `Snapshot` in which the call of step `s` fails, if it gets that far. -/
def DurableIndex.snapshotFailing (d : DurableIndex) (s : SnapshotStep) (left : Option DurableFile) :
    DurableIndex :=
  match DurableIndex.runSteps (snapshotSteps.takeWhile (· ≠ s)) d with
  | (d', .error _) => d'
  | (d', .ok _) => s.fail d' left

/-- The steps in front of the one that closes the log. -/
def beforeClose : List SnapshotStep := snapshotSteps.takeWhile (· ≠ .closeOld)

/-- Part of a `Snapshot` of `d`: the index is as it was, the snapshot on disk is the old one or
that of the index, and only in the second case the log may be a new one. -/
structure HalfRotated (d d' : DurableIndex) : Prop where
  idx : d'.idx = d.idx
  files : d'.dir.snapshot = d.dir.snapshot ∧ d'.dir.wal = d.dir.wal ∨
    d'.dir.snapshot = some (DurableFile.empty.write d.idx.save) ∧
      (d'.dir.wal = d.dir.wal ∨ d'.dir.wal = some Wal.newLog)

theorem halfRotated_interrupted (d : DurableIndex) {j : ℕ} (hj : j ≤ snapshotSteps.length) :
    HalfRotated d (d.interrupted j) := by
  obtain ⟨idx, ⟨snapshot, tmp, wal, new⟩, o⟩ := d
  have hj : j ≤ 9 := hj
  cases new with
  | none =>
      interval_cases j
      · exact ⟨rfl, Or.inl ⟨rfl, rfl⟩⟩
      · exact ⟨rfl, Or.inl ⟨rfl, rfl⟩⟩
      · exact ⟨rfl, Or.inr ⟨rfl, Or.inl rfl⟩⟩
      · exact ⟨rfl, Or.inr ⟨rfl, Or.inl rfl⟩⟩
      · exact ⟨rfl, Or.inr ⟨rfl, Or.inl rfl⟩⟩
      · exact ⟨rfl, Or.inr ⟨rfl, Or.inl rfl⟩⟩
      · exact ⟨rfl, Or.inr ⟨rfl, Or.inl rfl⟩⟩
      · exact ⟨rfl, Or.inr ⟨rfl, Or.inl rfl⟩⟩
      · exact ⟨rfl, Or.inr ⟨rfl, Or.inr rfl⟩⟩
      · exact ⟨rfl, Or.inr ⟨rfl, Or.inr rfl⟩⟩
  | some f =>
      -- the third step fails
      interval_cases j
      · exact ⟨rfl, Or.inl ⟨rfl, rfl⟩⟩
      · exact ⟨rfl, Or.inl ⟨rfl, rfl⟩⟩
      all_goals exact ⟨rfl, Or.inr ⟨rfl, Or.inl rfl⟩⟩

theorem halfRotated_failing (d : DurableIndex) (s : SnapshotStep) (left : Option DurableFile) :
    HalfRotated d (d.snapshotFailing s left) := by
  obtain ⟨idx, ⟨snapshot, tmp, wal, new⟩, o⟩ := d
  cases s with
  | save | renameSnapshot => exact ⟨rfl, Or.inl ⟨rfl, rfl⟩⟩
  | createNew | writeHeader | syncHeader | closeOld | closeNew | renameWAL =>
      cases new <;> exact ⟨rfl, Or.inr ⟨rfl, Or.inl rfl⟩⟩
  | reopen =>
      cases new with
      | none => exact ⟨rfl, Or.inr ⟨rfl, Or.inr rfl⟩⟩
      | some f => exact ⟨rfl, Or.inr ⟨rfl, Or.inl rfl⟩⟩

theorem snapshot_eq_interrupted (d : DurableIndex) :
    d.snapshot.1 = d.interrupted snapshotSteps.length := rfl

/-- The log is still open exactly when the failing step comes before the close, or when a file of
an earlier `Snapshot` stops this one before. -/
theorem walOpen_failing {d : DurableIndex} (hopen : d.walOpen = true) (s : SnapshotStep)
    (left : Option DurableFile) :
    (d.snapshotFailing s left).walOpen = true ↔ s ∈ beforeClose ∨ d.dir.walNew ≠ none := by
  obtain ⟨idx, ⟨snapshot, tmp, wal, new⟩, o⟩ := d
  cases hopen
  cases new with
  | some f =>
      refine iff_of_true ?_ (Or.inr nofun)
      cases s <;> rfl
  | none =>
      cases s with
      | save | renameSnapshot | createNew | writeHeader | syncHeader =>
          exact iff_of_true rfl (Or.inl (by decide))
      | closeOld | closeNew | renameWAL | reopen =>
          refine iff_of_false Bool.false_ne_true (not_or_intro (by decide) (fun h => h rfl))

section
variable [Platform UInt32]

/-! ### Reachable handles -/

/-- A call that the log can hold, and that gives no id twice: a vector of the right dimension within
the limit of the reader, and fewer than `2 ^ 32` vectors in front of a new key. -/
def Call.Sound (idx : Index UInt32) (c : Call) : Prop :=
  c.Sized idx.params.dim ∧
    (21 + idx.params.dim * 4 ≤ Wal.maxPayloadLen ∨ c.isAdd = false) ∧
    (c.isAdd = true → idx.store.hasLabel c.key = true ∨ idx.store.count < 2 ^ 32)

/-- The handles that calls, snapshots and crashes lead to.  Only an open log can be closed without
an error. -/
inductive DurableIndex.Reached (cfg : Config) : DurableIndex → Prop
  | opened {d : DurableIndex} (hopen : openIndex cfg Dir.empty = .ok d) : Reached cfg d
  | call {d : DurableIndex} {c : Call} (h : Reached cfg d) (hc : c.Sound d.idx) :
      Reached cfg (d.perform c .done).1
  | snapshot {d : DurableIndex} (h : Reached cfg d) (hw : d.walOpen = true) :
      Reached cfg d.snapshot.1
  | snapshotFails {d : DurableIndex} {s : SnapshotStep} {left : Option DurableFile}
      (h : Reached cfg d) (hw : d.walOpen = true ∨ s ∈ .closeOld :: beforeClose) :
      Reached cfg (d.snapshotFailing s left)
  /-- the process dies after `j` steps of `Snapshot`, or between calls if `j` is 0 -/
  | crash {d d' : DurableIndex} {j : ℕ} (h : Reached cfg d) (hj : j ≤ snapshotSteps.length)
      (hw : d.walOpen = true ∨ j ≤ beforeClose.length)
      (hopen : openIndex cfg (d.interrupted j).dir = .ok d') : Reached cfg d'
  /-- the process dies while a call appends its record -/
  | crashInAppend {d d' : DurableIndex} {c : Call} {k : ℕ} (h : Reached cfg d)
      (hc : c.Sound d.idx) (hk : k < (Wal.frame (Wal.payload c.record)).length)
      (hopen : openIndex cfg (d.perform c (.writeFails k)).1.dir = .ok d') : Reached cfg d'

/-- An `Add` returns nil, and after a crash `Open` finds its vector, live. -/
def AcceptsAdd (cfg : Config) (d : DurableIndex) (vec : Wal.Vec) (key : Label) : Prop :=
  (d.perform (.add vec key) .done).2 = .ok () ∧
    ∃ d', openIndex cfg (d.perform (.add vec key) .done).1.dir = .ok d' ∧
      d'.idx.store.keyMap key = some (d'.idx.params.prepare vec, false)

/-! ### The invariant -/

/-- The log on disk holds the calls `log`, the snapshot on disk gives `base`, and the keys of both
are in the index, or the index is full. -/
structure Serving (cfg : Config) (p : Params) (base : Index UInt32) (log : List Call)
    (d : DurableIndex) : Prop where
  params : d.idx.params = p
  good : d.idx.store.Good p
  wal : ∃ f, d.dir.wal = some f ∧ Holds f.bytes (log.map Call.record)
  sized : ∀ c ∈ log, c.Sized p.dim
  load : loadOrCreateIndex cfg d.dir = .ok base
  baseParams : base.params = p
  baseGood : base.store.Good p
  keys : addedKeys log ∪ base.store.keys ⊆ d.idx.store.keys ∨
    p.maxElements < 2 ^ 32 ∧ p.maxElements ≤ d.idx.store.count

section
variable {cfg : Config} {p : Params} {base : Index UInt32} {log : List Call} {d d' : DurableIndex}

/-- A sound call on a good index adds its key, unless the index is full. -/
theorem onIndex_sound {idx : Index UInt32} (h : idx.store.Good idx.params) {c : Call}
    (hc : c.Sound idx) :
    (c.onIndex idx).1.store.Good idx.params ∧
      ((c.onIndex idx).1.store.keys = c.added ∪ idx.store.keys ∨
        idx.params.maxElements < 2 ^ 32 ∧ idx.params.maxElements ≤ idx.store.count ∧
          (c.onIndex idx).1.store = idx.store) := by
  obtain ⟨hsized, -, hids⟩ := hc
  by_cases hroom : c.isAdd = true →
      idx.store.hasLabel c.key = true ∨ idx.store.count < idx.params.room
  · obtain ⟨-, hgood, -, hkeys⟩ := onIndex_good h hsized hroom
    exact ⟨hgood, Or.inl hkeys⟩
  · simp only [Classical.not_imp, not_or, not_lt] at hroom
    obtain ⟨hadd, hk, hfull⟩ := hroom
    have hlt : idx.store.count < 2 ^ 32 := (hids hadd).resolve_left hk
    have hmax : idx.params.maxElements ≤ idx.store.count := by
      rw [Params.room] at hfull
      omega
    have hsame : (c.onIndex idx).1.store = idx.store := by
      rw [(onIndex_eq hsized).2.1]
      cases c with
      | add vec key =>
          have hk' : idx.store.hasLabel key = false := Bool.eq_false_iff.mpr hk
          simp only [Call.onStore, Store.add_of_full vec hk' (by
            rw [Nat.mod_eq_of_lt hlt]
            exact hmax)]
      | markDeleted key => cases hadd
      | unmarkDeleted key => cases hadd
    refine ⟨?_, Or.inr ⟨lt_of_le_of_lt hmax hlt, hmax, hsame⟩⟩
    rw [hsame]
    exact h

omit [Platform UInt32] in
theorem serving_fresh
    (hp : Hnsw.mkParams cfg.space cfg.dim cfg.maxElements cfg.M cfg.efConstruction = .ok p) :
    Serving cfg p (Index.new p cfg.seed) [] (DurableIndex.fresh p cfg.seed) where
  params := rfl
  good := Store.Good.empty p
  wal := ⟨Wal.newLog, rfl, Wal.holds_newLog⟩
  sized := nofun
  load := loadOrCreateIndex_empty hp rfl
  baseParams := rfl
  baseGood := Store.Good.empty p
  keys := Or.inl (Finset.Subset.refl _)

/-- A call: its record is appended, and its key is in the index unless that is full. -/
theorem Serving.append (h : Serving cfg p base log d) {c : Call} (hc : c.Sound d.idx)
    {f : DurableFile} (hholds : Holds f.bytes (log.map Call.record)) :
    Serving cfg p base (log ++ [c]) ⟨(c.onIndex d.idx).1, { d.dir with
      wal := some (f.write (Wal.frame (Wal.payload c.record))).sync }, true⟩ := by
  obtain ⟨hgood, hkeys⟩ := onIndex_sound (by rw [h.params]; exact h.good) hc
  obtain ⟨hsized, hfits, -⟩ := hc
  rw [h.params] at hsized hfits hgood hkeys
  refine ⟨(params_onIndex _ _).trans h.params, hgood, ⟨_, rfl, ?_⟩, ?_, ?_, h.baseParams,
    h.baseGood, ?_⟩
  · rw [List.map_append]
    exact hholds.append (loggable_record p.dim_pos hsized hfits)
  · intro c' hc'
    obtain hc' | hc' := List.mem_append.mp hc'
    · exact h.sized c' hc'
    · rwa [List.mem_singleton.mp hc']
  · rw [← h.load]
    rfl
  · rw [addedKeys_append, addedKeys_cons, addedKeys_nil, Finset.union_empty,
      Finset.union_comm _ c.added, Finset.union_assoc]
    obtain hkeys | ⟨hsmall, hfull, hsame⟩ := hkeys
    · refine h.keys.imp (fun hsub => ?_) (fun ⟨hsmall, hfull⟩ => ⟨hsmall, hfull.trans ?_⟩)
      · rw [hkeys]
        exact Finset.union_subset_union (Finset.Subset.refl _) hsub
      · rw [← h.good.card_keys, ← hgood.card_keys, hkeys]
        exact Finset.card_le_card Finset.subset_union_right
    · right
      rw [hsame]
      exact ⟨hsmall, hfull⟩

omit [Platform UInt32] in
/-- Part of a `Snapshot`: which snapshot and which log are on disk then. -/
theorem Serving.rotated (h : Serving cfg p base log d) (hd : HalfRotated d d') :
    Serving cfg p base log d' ∨ Serving cfg p d.idx.reloaded log d' ∨
      Serving cfg p d.idx.reloaded [] d' := by
  have hgood : d.idx.store.Good d.idx.params := by
    rw [h.params]
    exact h.good
  obtain ⟨hgood', -, hkeys⟩ := Hnsw.reloaded_store hgood
  have hparams : d.idx.reloaded.params = p := h.params
  rw [h.params] at hgood'
  have hidx : d'.idx.params = p ∧ d'.idx.store.Good p := by
    rw [hd.idx]
    exact ⟨h.params, h.good⟩
  have hsaved : d.idx.reloaded.store.keys ⊆ d'.idx.store.keys := by
    rw [hd.idx, hkeys]
  obtain ⟨hs, hw⟩ | ⟨hs, hw | hw⟩ := hd.files
  · refine Or.inl ⟨hidx.1, hidx.2, ?_, h.sized, ?_, h.baseParams, h.baseGood, ?_⟩
    · rw [hw]
      exact h.wal
    · rw [loadOrCreateIndex_congr hs, h.load]
    · rw [hd.idx]
      exact h.keys
  · refine Or.inr (Or.inl ⟨hidx.1, hidx.2, ?_, h.sized, loadOrCreateIndex_saved hgood hs rfl,
      hparams, hgood', ?_⟩)
    · rw [hw]
      exact h.wal
    · rw [hd.idx]
      refine h.keys.imp_left fun hsub => ?_
      rw [hkeys]
      exact Finset.union_subset (Finset.subset_union_left.trans hsub) (Finset.Subset.refl _)
  · refine Or.inr (Or.inr ⟨hidx.1, hidx.2, ⟨_, hw, Wal.holds_newLog⟩, nofun,
      loadOrCreateIndex_saved hgood hs rfl, hparams, hgood', Or.inl ?_⟩)
    rwa [addedKeys_nil, Finset.empty_union]

omit [Platform UInt32] in
theorem Serving.halfRotated (h : Serving cfg p base log d) (hd : HalfRotated d d') :
    ∃ base' log', Serving cfg p base' log' d' := by
  obtain h | h | h := h.rotated hd
  · exact ⟨_, _, h⟩
  · exact ⟨_, _, h⟩
  · exact ⟨_, _, h⟩

/-- The keys of log and snapshot fit if replay succeeds or the index has them all. -/
theorem Serving.card_le (h : Serving cfg p base log d)
    (happ : (∃ idx, applyAll apply base (log.map Call.record) = .ok idx) ∨
      d.idx.store.count < p.room) : (addedKeys log ∪ base.store.keys).card ≤ p.room := by
  have hcount := h.good.count_le
  obtain hsub | ⟨hsmall, hfull⟩ := h.keys
  · refine (Finset.card_le_card hsub).trans ?_
    rwa [h.good.card_keys]
  · rw [Params.room] at happ ⊢
    obtain ⟨idx, happ⟩ | hlt := happ
    · have hle := card_le_of_applyAll log (K := base.store.keys) (by rw [h.baseParams]; exact h.sized)
        ⟨fun k => h.baseGood.mem_keys.symm, h.baseGood.card_keys.symm⟩ (by rw [h.baseParams]; exact hsmall)
        (by
          rw [h.baseParams, h.baseGood.card_keys]
          exact h.baseGood.count_le.trans (min_le_left _ _)) happ
      rw [h.baseParams] at hle
      omega
    · omega

/-- `Open` on the snapshot and the log, with at most a torn frame behind the log. -/
theorem Serving.opened (h : Serving cfg p base log d) {dir : Dir} {f : DurableFile} {bs t : Bytes}
    (hload : loadOrCreateIndex cfg dir = .ok base) (hwal : dir.wal = some f)
    (hbytes : f.bytes = bs ++ t) (hholds : Holds bs (log.map Call.record))
    (ht : Wal.readRecord t = none) (hopen : openIndex cfg dir = .ok d') :
    Serving cfg p base log d' := by
  obtain ⟨idx, rs, f', hload', happ, hd', hholds', hrs, -⟩ := openIndex_wal hopen
  obtain rfl : idx = base := Except.ok.inj (hload'.symm.trans hload)
  obtain rfl : rs = log.map Call.record := by
    rw [hrs f hwal, hbytes, hholds.records_drop_torn ht]
  obtain ⟨idx', happ', hparams, hgood, -, hkeys⟩ := applyAll_record idx
    (by rw [h.baseParams]; exact h.baseGood) (by rw [h.baseParams]; exact h.sized)
    (by rw [h.baseParams]; exact h.card_le (Or.inl ⟨_, happ⟩))
  obtain rfl : d'.idx = idx' := Except.ok.inj (happ.symm.trans happ')
  rw [h.baseParams] at hparams hgood
  refine ⟨hparams, hgood, ⟨f', by rw [hd'], hholds'⟩, h.sized, ?_, h.baseParams, h.baseGood,
    Or.inl (by rw [hkeys])⟩
  rw [hd', ← hload]
  rfl

/-- A call on an open handle. -/
theorem Serving.call (h : Serving cfg p base log d) {c : Call} (hc : c.Sound d.idx)
    (hopen : d.walOpen = true) :
    Serving cfg p base (log ++ [c]) (d.perform c .done).1 ∧
      (d.perform c .done).2 = match (c.onIndex d.idx).2 with
        | .ok _ => .ok ()
        | .error e => .error (c.error e) := by
  obtain ⟨f, hwal, hholds⟩ := h.wal
  have henc : Wal.encode c.record = .ok (Wal.frame (Wal.payload c.record)) :=
    (Wal.encode_eq_ok_iff _ _).mpr ⟨rule_record p.dim_pos (by rw [← h.params]; exact hc.1), rfl⟩
  have happ := h.append hc hholds
  rw [perform_done hopen hwal henc, Wal.append_done henc]
  exact ⟨happ, rfl⟩

theorem perform_closed (hclosed : d.walOpen = false) (c : Call) (io : Wal.AppendIO) :
    d.perform c io = (d, .error (.walAppend .write)) := by
  unfold DurableIndex.perform DurableIndex.appendWAL
  rw [hclosed]

/-- A process crash in the middle of an append. -/
theorem Serving.crashInAppend (h : Serving cfg p base log d) {c : Call} (hc : c.Sound d.idx) {k : ℕ}
    (hk : k < (Wal.frame (Wal.payload c.record)).length)
    (hopen : openIndex cfg (d.perform c (.writeFails k)).1.dir = .ok d') :
    Serving cfg p base log d' := by
  obtain ⟨f, hwal, hholds⟩ := h.wal
  cases hw : d.walOpen with
  | false =>
      rw [perform_closed hw] at hopen
      exact h.opened h.load hwal (List.append_nil _).symm hholds Wal.readRecord_nil hopen
  | true =>
      have hlog := loggable_record d.idx.params.dim_pos hc.1 hc.2.1
      have hdir : (d.perform c (.writeFails k)).1.dir = { d.dir with
          wal := some (f.write ((Wal.frame (Wal.payload c.record)).take k)) } := by
        simp only [DurableIndex.perform, DurableIndex.appendWAL, hw, hwal, Wal.append, hlog.encode]
      rw [hdir] at hopen
      refine h.opened ?_ rfl rfl hholds (Wal.readRecord_torn hlog.length_payload_le
        (List.take_prefix _ _) ?_) hopen
      · rw [← h.load]
        rfl
      · rwa [List.length_take, min_eq_left hk.le]

end

/-- **Every reachable handle** keeps the invariant. -/
theorem DurableIndex.Reached.serving {cfg : Config} {d : DurableIndex} (h : d.Reached cfg) :
    ∃ p base log, Serving cfg p base log d := by
  induction h with
  | opened hopen =>
      obtain ⟨p, hp, rfl⟩ := openIndex_empty hopen
      exact ⟨p, _, _, serving_fresh hp⟩
  | @call d c _ hc ih =>
      obtain ⟨p, base, log, ih⟩ := ih
      cases hw : d.walOpen with
      | true => exact ⟨p, base, _, (ih.call hc hw).1⟩
      | false =>
          rw [perform_closed hw]
          exact ⟨p, base, log, ih⟩
  | snapshot _ _ ih =>
      obtain ⟨p, base, log, ih⟩ := ih
      exact ⟨p, ih.halfRotated (halfRotated_interrupted _ le_rfl)⟩
  | snapshotFails _ _ ih =>
      obtain ⟨p, base, log, ih⟩ := ih
      exact ⟨p, ih.halfRotated (halfRotated_failing _ _ _)⟩
  | crash _ hj _ hopen ih =>
      obtain ⟨p, base, log, ih⟩ := ih
      obtain ⟨base', log', hhalf⟩ := ih.halfRotated (halfRotated_interrupted _ hj)
      obtain ⟨f, hwal, hholds⟩ := hhalf.wal
      exact ⟨p, base', log', hhalf.opened hhalf.load hwal (List.append_nil _).symm hholds
        Wal.readRecord_nil hopen⟩
  | crashInAppend _ hc hk hopen ih =>
      obtain ⟨p, base, log, ih⟩ := ih
      exact ⟨p, base, log, ih.crashInAppend hc hk hopen⟩

/-! ### An Add after the failure -/

theorem snapshot_perform (d : DurableIndex) (c : Call) (io : Wal.AppendIO) :
    (d.perform c io).1.dir.snapshot = d.dir.snapshot := by
  unfold DurableIndex.perform DurableIndex.appendWAL
  cases d.walOpen with
  | false => rfl
  | true =>
      cases d.dir.wal with
      | none => rfl
      | some f => cases hres : (Wal.append f c.record io).2 <;> simp only [hres]

section
variable {cfg : Config} {p : Params} {base : Index UInt32} {log : List Call} {d : DurableIndex}
  {vec : Wal.Vec} {key : Label}

omit [Platform UInt32] in
/-- A key that neither the snapshot nor the log adds is not there after replay. -/
theorem Serving.notMem (h : Serving cfg p base log d) (hnew : d.idx.store.hasLabel key = false)
    (hroom : d.idx.store.count < p.room) : key ∉ addedKeys log ∪ base.store.keys := by
  intro hk
  obtain hsub | ⟨-, hfull⟩ := h.keys
  · rw [h.good.mem_keys.mp (hsub hk)] at hnew
    cases hnew
  · rw [Params.room] at hroom
    omega

omit [Platform UInt32] in
/-- With the new key, log and snapshot still fit. -/
theorem Serving.card_add_le (h : Serving cfg p base log d) (hroom : d.idx.store.count < p.room) :
    (addedKeys (log ++ [.add vec key]) ∪ base.store.keys).card ≤ p.room := by
  have hsub : addedKeys log ∪ base.store.keys ⊆ d.idx.store.keys := by
    refine h.keys.resolve_right fun hfull => ?_
    rw [Params.room] at hroom
    omega
  have heq : addedKeys (log ++ [.add vec key]) ∪ base.store.keys =
      insert key (addedKeys log ∪ base.store.keys) := by
    rw [addedKeys_append, Finset.union_right_comm, Finset.union_comm]
    rfl
  have hcard := Finset.card_le_card hsub
  rw [h.good.card_keys] at hcard
  have hinsert := Finset.card_insert_le key (addedKeys log ∪ base.store.keys)
  rw [heq]
  omega

/-- What `Open` makes of the log with the `Add` at its end. -/
theorem Serving.recovers_after (h : Serving cfg p base log d)
    (hnew : d.idx.store.hasLabel key = false) (hroom : d.idx.store.count < p.room)
    (hafter : Serving cfg p base (log ++ [.add vec key]) (d.perform (.add vec key) .done).1) :
    ∃ d', openIndex cfg (d.perform (.add vec key) .done).1.dir = .ok d' ∧
      d'.idx.store.keyMap key = some (d'.idx.params.prepare vec, false) := by
  have hnot := h.notMem hnew hroom
  have hgood : base.store.Good base.params := by
    rw [h.baseParams]
    exact h.baseGood
  have hsized : ∀ c ∈ log, c.Sized base.params.dim := by
    rw [h.baseParams]
    exact h.sized
  have hsized' : ∀ c ∈ log ++ [.add vec key], c.Sized base.params.dim := by
    rw [h.baseParams]
    exact hafter.sized
  have hle : (addedKeys log ∪ base.store.keys).card ≤ base.params.room := by
    rw [h.baseParams]
    exact h.card_le (Or.inr hroom)
  have hle' : (addedKeys (log ++ [.add vec key]) ∪ base.store.keys).card ≤ base.params.room := by
    rw [h.baseParams]
    exact h.card_add_le hroom
  obtain ⟨f, hwal, hholds⟩ := hafter.wal
  obtain ⟨idx, happ, hparams, -, hmap, -⟩ := applyAll_record base hgood hsized' hle'
  refine ⟨_, openIndex_of_holds hafter.load hwal (List.append_nil _).symm hholds Wal.readRecord_nil
    happ, ?_⟩
  obtain ⟨idx₀, -, -, hgood₀, hmap₀, hkeys₀⟩ := applyAll_record base hgood hsized hle
  have hnone : base.store.keyMap.run (log.map (Call.op base.params)) key = none := by
    rw [← hmap₀, ← Option.not_isSome_iff_eq_none, Store.isSome_keyMap, ← hgood₀.mem_keys, hkeys₀]
    exact hnot
  have hlast : base.store.keyMap.run ((log ++ [Call.add vec key]).map (Call.op base.params)) =
      (base.store.keyMap.run (log.map (Call.op base.params))).apply
        (key, .add (base.params.prepare vec)) := by
    rw [List.map_append]
    exact KeyedLog.run_concat _ _ _
  rw [hmap, hparams, hlast, KeyMap.apply_same, hnone]
  rfl

/-- **An `Add` of a new key with room** goes through and is recovered exactly when the log is open
and the record is within the limit of the reader. -/
theorem Serving.accepts_iff (h : Serving cfg p base log d) (hdim : vec.length = p.dim)
    (hnew : d.idx.store.hasLabel key = false) (hroom : d.idx.store.count < p.room) :
    AcceptsAdd cfg d vec key ↔ d.walOpen = true ∧ Fits p.dim := by
  have hsized : (Call.add vec key).Sized d.idx.params.dim := by
    rintro vec' key' ⟨⟩
    rw [hdim, h.params]
  constructor
  · rintro ⟨hok, d', hopen, hentry⟩
    have hw : d.walOpen = true := by
      by_contra hw
      rw [perform_closed (Bool.eq_false_iff.mpr hw)] at hok
      cases hok
    refine ⟨hw, ?_⟩
    by_contra hfits
    have hload : loadOrCreateIndex cfg (d.perform (Call.add vec key) .done).1.dir = .ok base := by
      rw [loadOrCreateIndex_congr (snapshot_perform d (Call.add vec key) .done)]
      exact h.load
    have hlabel := hasLabel_openIndex hopen hload (by rwa [h.baseParams]) key
    rw [← Store.isSome_keyMap, hentry] at hlabel
    exact h.notMem hnew hroom (Finset.mem_union_right _ (h.baseGood.mem_keys.mpr hlabel.symm))
  · rintro ⟨hw, hfits⟩
    have hsound : (Call.add vec key).Sound d.idx := by
      refine ⟨hsized, Or.inl (by rw [h.params]; exact hfits), fun _ => Or.inr ?_⟩
      exact lt_of_lt_of_le hroom (min_le_right _ _)
    obtain ⟨hafter, hres⟩ := h.call hsound hw
    refine ⟨?_, h.recovers_after hnew hroom hafter⟩
    have hroom' : d.idx.store.count < d.idx.params.room := by rwa [h.params]
    have hadd : (Call.onStore d.idx.params d.idx.store (.add vec key)).2 = .ok () := by
      simp only [Call.onStore, Store.add_of_room vec hnew hroom']
    rw [hres, (onIndex_eq hsized).2.2, hadd]

/-- **After a `Snapshot` that failed, the index still takes an `Add` exactly when the failing step
comes before the old log is closed** and the record is within the limit of the reader: on every
handle that accepts writes, whatever the failing step, an `Add` of a new key for which there is room
returns nil and is recovered after a crash, or else it fails because the log is closed. -/
theorem acceptsAdd_iff {cfg : Config} {d : DurableIndex} (h : d.Reached cfg)
    (hw : d.walOpen = true) (s : SnapshotStep) (left : Option DurableFile) {vec : Wal.Vec}
    {key : Label} (hdim : vec.length = d.idx.params.dim)
    (hnew : d.idx.store.hasLabel key = false)
    (hcap : d.idx.store.count < min d.idx.params.maxElements (2 ^ 32)) :
    AcceptsAdd cfg (d.snapshotFailing s left) vec key ↔
      (s ∈ beforeClose ∨ d.dir.walNew ≠ none) ∧ 21 + d.idx.params.dim * 4 ≤ Wal.maxPayloadLen := by
  obtain ⟨p, base, log, hserving⟩ := h.serving
  obtain ⟨base', log', hhalf⟩ := hserving.halfRotated (halfRotated_failing d s left)
  have hidx : (d.snapshotFailing s left).idx = d.idx := (halfRotated_failing d s left).idx
  have hp : d.idx.params = p := hserving.params
  rw [hp] at hdim hcap ⊢
  rw [hhalf.accepts_iff hdim (by rw [hidx]; exact hnew) (by rw [hidx]; exact hcap),
    walOpen_failing hw]
  rfl

end

end

open Hnsw.StandIn in
/-- A `Snapshot` that cannot rename the snapshot leaves an index that takes writes. -/
theorem acceptsAdd_renameSnapshot :
    AcceptsAdd smallConfig ((DurableIndex.fresh smallParams 0).snapshotFailing .renameSnapshot none)
      [5] ⟨1, 1⟩ :=
  (acceptsAdd_iff (d := DurableIndex.fresh smallParams 0) (.opened rfl) rfl .renameSnapshot none rfl
    rfl (by decide)).mpr ⟨Or.inl (by decide), by decide⟩

open Hnsw.StandIn in
/-- A `Snapshot` that cannot rename the new log into place leaves the old one closed, and the next
`Add` fails. -/
theorem add_after_failed_rename :
    (DurableIndex.fresh smallParams 0).Reached smallConfig ∧
      (DurableIndex.fresh smallParams 0).walOpen = true ∧
      (((DurableIndex.fresh smallParams 0).snapshotFailing .renameWAL none).perform
        (.add [5] ⟨1, 1⟩) .done).2 = .error (.walAppend .write) ∧
      ¬ AcceptsAdd smallConfig ((DurableIndex.fresh smallParams 0).snapshotFailing .renameWAL none)
        [5] ⟨1, 1⟩ := by
  have hres : (((DurableIndex.fresh smallParams 0).snapshotFailing .renameWAL none).perform
      (.add [5] ⟨1, 1⟩) .done).2 = .error (.walAppend .write) := by decide +kernel
  refine ⟨.opened rfl, rfl, hres, fun h => ?_⟩
  have hok := h.1
  rw [hres] at hok
  cases hok

end VectorSearch.Durable
