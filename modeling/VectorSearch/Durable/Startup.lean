import VectorSearch.Durable.Rotation
import VectorSearch.Durable.LogOrder

/-! # What a crash leaves for the next start

`Open` removes no temporary file, and a new log is created exclusively.  A process that dies inside
`Snapshot` after it has created the new log and before it has renamed it leaves a file that stops
every later `Snapshot` (`compacts_iff`).

`Open` itself writes: it cuts the torn tail off an existing log, or creates a log in place and
writes its header (`openSteps`, byte by byte).  A crash in front of the last byte of the header
leaves a log that the next `Open` does not read (`reopens_iff`). -/

open ByteCodec

namespace VectorSearch.Durable

open Wal (Record Holds applyAll openForAppend)
open Hnsw (Label Index Platform Params Store KeyMap)

/-! ### Crashes inside Snapshot -/

/-- A `Snapshot` without an I/O failure returns nil and leaves a log that is only the header. -/
def Compacts (d : DurableIndex) : Prop :=
  d.snapshot.2 = .ok () ∧ d.snapshot.1.dir.wal.map DurableFile.bytes = some Wal.header

/-- A `Snapshot` goes through exactly when no new log of an earlier one is there. -/
theorem compacts_iff_walNew (d : DurableIndex) : Compacts d ↔ d.dir.walNew = none := by
  constructor
  · rintro ⟨hres, -⟩
    obtain ⟨idx, ⟨snapshot, tmp, wal, new⟩, o⟩ := d
    cases new with
    | none => rfl
    | some f => cases hres
  · intro hnew
    unfold Compacts
    rw [snapshot_eq hnew]
    exact ⟨rfl, rfl⟩

/-- The new log is there between its creation and its renaming. -/
theorem walNew_interrupted (d : DurableIndex) {j : ℕ} (hj : j ≤ snapshotSteps.length) :
    (d.interrupted j).dir.walNew = none ↔ d.dir.walNew = none ∧ (j < 3 ∨ 8 ≤ j) := by
  obtain ⟨idx, ⟨snapshot, tmp, wal, new⟩, o⟩ := d
  have hj : j ≤ 9 := hj
  cases new with
  | none =>
      interval_cases j
      case «3» | «4» | «5» | «6» | «7» => exact iff_of_false nofun (by omega)
      all_goals exact iff_of_true rfl ⟨rfl, by omega⟩
  | some f => interval_cases j <;> exact iff_of_false nofun nofun

section
variable [Platform UInt32]

/-- `Open` leaves the temporary files alone. -/
theorem walNew_openIndex {cfg : Config} {dir : Dir} {d : DurableIndex}
    (h : openIndex cfg dir = .ok d) : d.dir.walNew = dir.walNew := by
  obtain ⟨_, _, _, -, -, hd, -⟩ := openIndex_wal h
  rw [hd]

/-- `Open` on the snapshot of an index and a new log. -/
theorem opens_rotated (cfg : Config) {idx : Index UInt32} (hgood : idx.store.Good idx.params)
    {dir : Dir} (hsnap : dir.snapshot = some (DurableFile.empty.write idx.save))
    (hwal : dir.wal = some Wal.newLog) : ∃ d', openIndex cfg dir = .ok d' :=
  ⟨_, openIndex_of_holds (loadOrCreateIndex_saved hgood hsnap rfl) hwal (List.append_nil _).symm
    Wal.holds_newLog Wal.readRecord_nil rfl⟩

/-- **After a crash inside `Snapshot`, later snapshots go through exactly when the process did not
die between the creation of the new log and its renaming**, and no new log of an earlier crash was
there: whatever the state of the index and the step, once `Open` has returned. -/
theorem compacts_iff {cfg : Config} {d d' : DurableIndex} {j : ℕ} (hj : j ≤ snapshotSteps.length)
    (hopen : openIndex cfg (d.interrupted j).dir = .ok d') :
    Compacts d' ↔ d.dir.walNew = none ∧ (j < 3 ∨ 8 ≤ j) := by
  rw [compacts_iff_walNew, walNew_openIndex hopen, walNew_interrupted d hj]

end

open Hnsw.StandIn in
/-- A crash between the first rename and the creation of the new log. -/
theorem compacts_after_rename :
    ∃ d', openIndex smallConfig ((DurableIndex.fresh smallParams 0).interrupted 2).dir = .ok d' ∧
      Compacts d' := by
  have hexists : ∃ d', openIndex smallConfig
      ((DurableIndex.fresh smallParams 0).interrupted 2).dir = .ok d' :=
    opens_rotated smallConfig (Store.Good.empty smallParams) rfl rfl
  obtain ⟨d', hopen⟩ := hexists
  exact ⟨d', hopen, (compacts_iff (by decide) hopen).mpr ⟨rfl, by decide⟩⟩

open Hnsw.StandIn in
/-- A crash right after the new log is created: `Open` succeeds, and no `Snapshot` does any more. -/
theorem not_compacts_after_create :
    ∃ d', openIndex smallConfig ((DurableIndex.fresh smallParams 0).interrupted 3).dir = .ok d' ∧
      d'.snapshot.2 = .error (.creating .exists) ∧ ¬ Compacts d' := by
  have hexists : ∃ d', openIndex smallConfig
      ((DurableIndex.fresh smallParams 0).interrupted 3).dir = .ok d' :=
    opens_rotated smallConfig (Store.Good.empty smallParams) rfl rfl
  obtain ⟨d', hopen⟩ := hexists
  have hnew : d'.dir.walNew = some DurableFile.empty := walNew_openIndex hopen
  refine ⟨d', hopen, ?_, fun h => ?_⟩
  · obtain ⟨idx, ⟨snapshot, tmp, wal, new⟩, o⟩ := d'
    cases hnew
    rfl
  · rw [compacts_iff_walNew, hnew] at h
    cases h

/-! ### Crashes inside Open -/

/-- The steps of `Open` on the files. -/
inductive OpenStep where
  /-- `OpenForAppend` of an existing log -/
  | truncate (n : ℕ)
  /-- `Create` of a missing one -/
  | create
  /-- one byte of its header -/
  | writeByte (b : UInt8)
  | sync
deriving DecidableEq, Repr

def OpenStep.perform (wal : Option DurableFile) : OpenStep → Option DurableFile
  | .truncate n => wal.map fun f => openForAppend f (some n)
  | .create => some DurableFile.empty
  | .writeByte b => wal.map fun f => f.write [b]
  | .sync => wal.map DurableFile.sync

/-- What `reopenWAL` does, step by step. -/
def openSteps (wal : Option DurableFile) (lastGoodOffset : ℕ) : List OpenStep :=
  match wal with
  | some _ => [.truncate lastGoodOffset]
  | none => .create :: (Wal.header.map OpenStep.writeByte ++ [.sync])

section
variable [Platform UInt32]

/-- The directory after the first `j` steps of `Open` on the files; it makes none when it cannot
load or replay. -/
def openInterrupted (cfg : Config) (dir : Dir) (j : ℕ) : Dir :=
  match loadOrCreateIndex cfg dir with
  | .error _ => dir
  | .ok idx =>
      let replayed := Wal.replay apply (dir.wal.map DurableFile.bytes) idx
      match replayed.err with
      | some _ => dir
      | none => { dir with
          wal := ((openSteps dir.wal replayed.lastGoodOffset).take j).foldl OpenStep.perform
            dir.wal }

/-- `Open` on what `j` steps of `Open` have left succeeds and gives the same key map. -/
def Reopens (cfg : Config) (dir : Dir) (d : DurableIndex) (j : ℕ) : Prop :=
  RecoversTo cfg (openInterrupted cfg dir j) d.idx.store.keyMap

section
variable {cfg : Config} {dir : Dir} {d : DurableIndex}

/-- The steps of an `Open` that returns. -/
theorem openInterrupted_eq (h : openIndex cfg dir = .ok d) (j : ℕ) : ∃ n,
    d.dir = { dir with wal := some (reopenWAL dir.wal n) } ∧
      openInterrupted cfg dir j = { dir with
        wal := ((openSteps dir.wal n).take j).foldl OpenStep.perform dir.wal } := by
  obtain ⟨idx, hload, herr, hd⟩ := openIndex_ok h
  refine ⟨_, by rw [hd], ?_⟩
  simp only [openInterrupted, hload, herr]

/-- All steps together leave the directory that `Open` returns with. -/
theorem openInterrupted_all (h : openIndex cfg dir = .ok d) {j : ℕ} (hj : 10 ≤ j) :
    openInterrupted cfg dir j = d.dir := by
  obtain ⟨n, hd, heq⟩ := openInterrupted_eq h j
  rw [heq, hd]
  cases hwal : dir.wal with
  | some f =>
      rw [List.take_of_length_le (show (openSteps (some f) n).length ≤ j from by
        exact le_trans (by decide : 1 ≤ 10) hj)]
      rfl
  | none =>
      rw [List.take_of_length_le (show (openSteps none n).length ≤ j from hj)]
      rfl

omit [Platform UInt32] in
/-- A log that is being created holds as many bytes of the header as have been written. -/
theorem bytes_created (n j : ℕ) :
    (((openSteps none n).take (j + 1)).foldl OpenStep.perform none).map DurableFile.bytes =
      some (Wal.header.take j) := by
  obtain hj | hj := Nat.lt_or_ge j 9
  · interval_cases j <;> rfl
  · rw [List.take_of_length_le (show (openSteps none n).length ≤ j + 1 from Nat.succ_le_succ hj),
      List.take_of_length_le (le_trans (by decide : Wal.header.length ≤ 9) hj)]
    rfl

/-- `Open` on its own result gives the same index. -/
theorem openIndex_again (h : openIndex cfg dir = .ok d) {dir' : Dir} {f' : DurableFile}
    (hsnap : dir'.snapshot = dir.snapshot) (hwal : dir'.wal = some f')
    (hbytes : d.dir.wal.map DurableFile.bytes = some f'.bytes) :
    RecoversTo cfg dir' d.idx.store.keyMap := by
  obtain ⟨idx, rs, f, hload, happ, hd, hholds, -, -⟩ := openIndex_wal h
  rw [hd, Option.map_some, Option.some_inj] at hbytes
  rw [hbytes] at hholds
  exact ⟨_, openIndex_of_holds ((loadOrCreateIndex_congr hsnap).trans hload) hwal
    (List.append_nil _).symm hholds Wal.readRecord_nil happ, rfl⟩

/-- A log shorter than its header is not read. -/
theorem not_recovers_of_short {m : KeyMap UInt32} {f : DurableFile} (hwal : dir.wal = some f)
    (hshort : f.bytes.length < Wal.headerSize) : ¬ RecoversTo cfg dir m := by
  rintro ⟨d, hopen, -⟩
  obtain ⟨idx, -, herr, -⟩ := openIndex_ok hopen
  rw [hwal, Option.map_some, Wal.replay] at herr
  simp [hshort] at herr

/-- **A crash inside `Open` is harmless exactly when the log was there before, or the new one has
its whole header or does not exist yet**: for every directory on which `Open` succeeds and every
number of its steps on the files, the next `Open` succeeds and gives the same key map. -/
theorem reopens_iff (h : openIndex cfg dir = .ok d) (j : ℕ) :
    Reopens cfg dir d j ↔ dir.wal ≠ none ∨ j = 0 ∨ 9 ≤ j := by
  obtain ⟨n, hd, heq⟩ := openInterrupted_eq h j
  rw [Reopens, heq]
  cases hwal : dir.wal with
  | some f =>
      refine iff_of_true ?_ (Or.inl nofun)
      cases j with
      | zero =>
          refine ⟨d, ?_, rfl⟩
          rw [← h, ← hwal]
          rfl
      | succ j =>
          refine openIndex_again h rfl
            (show _ = some (openForAppend f (some n)) from ?_) ?_
          · rw [List.take_of_length_le (show (openSteps (some f) n).length ≤ j + 1 from
              Nat.succ_le_succ (Nat.zero_le j))]
            rfl
          · rw [hd, hwal]
            rfl
  | none =>
      rw [or_iff_right (fun hne => hne rfl)]
      cases j with
      | zero =>
          refine iff_of_true ⟨d, ?_, rfl⟩ (Or.inl rfl)
          rw [← h, ← hwal]
          rfl
      | succ j =>
          obtain ⟨f, hf, hbytes⟩ := Option.map_eq_some_iff.mp (bytes_created n j)
          obtain hj | hj := Nat.lt_or_ge j 8
          · refine iff_of_false (not_recovers_of_short hf ?_) (by omega)
            rw [hbytes, List.length_take]
            exact lt_of_le_of_lt (min_le_left _ _) hj
          · refine iff_of_true (openIndex_again h rfl hf ?_) (Or.inr (by omega))
            rw [hd, hwal, hbytes, List.take_of_length_le hj]
            rfl

end

end

open Hnsw.StandIn in
/-- A crash after the last byte of the header. -/
theorem reopens_after_header : Reopens smallConfig Dir.empty (DurableIndex.fresh smallParams 0) 9 :=
  (reopens_iff rfl 9).mpr (Or.inr (Or.inr le_rfl))

open Hnsw.StandIn in
/-- A crash of the first start, right after the log is created: the next start fails. -/
theorem not_reopens_after_create :
    openIndex smallConfig Dir.empty = .ok (DurableIndex.fresh smallParams 0) ∧
      openIndex smallConfig (openInterrupted smallConfig Dir.empty 1) =
        .error (.replaying .header) ∧
      ¬ Reopens smallConfig Dir.empty (DurableIndex.fresh smallParams 0) 1 :=
  ⟨rfl, rfl, not_recovers_of_short (f := DurableFile.empty) rfl (by decide)⟩

end VectorSearch.Durable
