import VectorSearch.Durable.Rotation
import VectorSearch.Lib.OutputStream

/-! # Saving on a disk that gets full

`save` looks at the error state of its stream once, before the stream is closed and its last buffer
flushed.  When that flush is the first to fail, `save` returns normally and the file is cut off;
`Snapshot` then renames it into place and throws the log away (`full_disk_loses_add`).

The size of the file and what the flushes get to the disk say when this happens: `snapshot_complete_iff`
is for every index and every pattern of failures.  An index with more nodes than capacity, whose
arrays `save` reads out of range, is never saved completely. -/

open ByteCodec

namespace VectorSearch.Hnsw

/-- Where a file is written: whether it can be opened, the capacity of a stream's buffer, and how many
bytes each flush gets to the file. -/
structure Disk where
  opens : Bool
  cap : ℕ
  cap_pos : 0 < cap
  room : ℕ → ℕ

inductive SaveError where
  /-- "cannot open %s for writing" -/
  | cannotOpen
  /-- "write failed for %s" -/
  | writeFailed
deriving DecidableEq, Repr

namespace Index

/-- `save` on a disk: the file, if one was opened, and what the call does.  Its writes one after the
other are one write of all their bytes. -/
def saveTo (idx : Index UInt32) (disk : Disk) : Option Bytes × Except SaveError Unit :=
  if disk.opens then
    let f := OutputStream.opened.write disk.room disk.cap idx.save
    (some (f.close disk.room), if f.failed then .error .writeFailed else .ok ())
  else (none, .error .cannotOpen)

/-- The number of bytes that `save` writes: magic, version and header, then for each node its vector,
level, label, flag, lowest links and the length of its upper links, and the upper links. -/
def saveSize (idx : Index UInt32) : ℕ :=
  68 + idx.store.count * (4 * idx.params.dim + 4 + 16 + 1 + 4 * idx.params.strideL0 + 4) +
    4 * ((List.range idx.store.count).map fun i => idx.graph.upperSize i % 2 ^ 32).sum

end Index

theorem length_bytes (h : Header) : h.bytes.length = 60 := by
  simp only [Header.bytes, Sizes.bytes, List.length_append, length_putLE, List.length_nil]

theorem length_upperBytes (idx : Index UInt32) (i : ℕ) :
    (idx.upperBytes i).length = 4 + (idx.graph.upperSize i % 2 ^ 32) * 4 := by
  rw [Index.upperBytes, List.length_append, length_putLE,
    length_flatMap_range fun _ => length_putLE _ _]

/-- **The size of the file.** -/
theorem length_save (idx : Index UInt32) : idx.save.length = idx.saveSize := by
  have hupper : ((List.range idx.store.count).flatMap fun i => idx.upperBytes i).length =
      idx.store.count * 4 +
        4 * ((List.range idx.store.count).map fun i => idx.graph.upperSize i % 2 ^ 32).sum := by
    rw [List.length_flatMap]
    simp only [length_upperBytes, List.sum_map_add, List.map_const', List.sum_replicate,
      List.length_range, smul_eq_mul, List.sum_map_mul_right, Nat.mul_comm 4]
  have hdata : ∀ i, ((List.range idx.params.dim).flatMap fun j =>
      putLE 4 (idx.component i j).toNat).length = idx.params.dim * 4 := fun i =>
    length_flatMap_range (fun _ => length_putLE _ _) _
  have hlinks : ∀ i, ((List.range idx.params.strideL0).flatMap fun w =>
      putLE 4 (idx.graph.linksL0 i w)).length = idx.params.strideL0 * 4 := fun i =>
    length_flatMap_range (fun _ => length_putLE _ _) _
  have hlabel : ∀ i, (putLE 8 (idx.store.labels i).clientId.toNat ++
      (putLE 8 (idx.store.labels i).label.toNat ++ [])).length = 16 := by
    intro i
    simp only [List.length_append, length_putLE, List.length_nil]
  simp only [Index.save, Index.bodyBytes, List.length_append, length_putLE, length_bytes,
    List.length_nil, hupper, length_flatMap_range hdata, length_flatMap_range hlinks,
    length_flatMap_range hlabel, length_flatMap_range fun _ => length_putLE _ _]
  rw [Index.saveSize]
  ring

/-- The disk refuses a file of `n` bytes while `save` still looks: the file is not opened, or a flush
on the way fails. -/
def Disk.Refuses (disk : Disk) (n : ℕ) : Prop :=
  disk.opens = false ∨ ∃ i < OutputStream.flushesOf disk.cap n, disk.room i < disk.cap

/-- The last flush of a file of `n` bytes, made when the stream is closed, gets them all to the disk. -/
def Disk.LastFlushed (disk : Disk) (n : ℕ) : Prop :=
  n ≤ OutputStream.flushesOf disk.cap n * disk.cap +
    disk.room (OutputStream.flushesOf disk.cap n)

/-- When `save` returns normally, the file is complete and `load` accepts it. -/
def Index.SavesComplete (idx : Index UInt32) (disk : Disk) : Prop :=
  (idx.saveTo disk).2 = .ok () →
    ∃ bs, (idx.saveTo disk).1 = some bs ∧ bs = idx.save ∧ load bs = .ok idx.reloaded

section
variable {idx : Index UInt32} {disk : Disk}

theorem saveTo_of_opens (h : disk.opens = true) : idx.saveTo disk =
    (some ((OutputStream.opened.write disk.room disk.cap idx.save).close disk.room),
      if (OutputStream.opened.write disk.room disk.cap idx.save).failed then .error .writeFailed
      else .ok ()) := if_pos h

/-- `save` sees that the disk refuses the file. -/
theorem saveTo_ok_iff : (idx.saveTo disk).2 = .ok () ↔ ¬ disk.Refuses idx.saveSize := by
  unfold Disk.Refuses
  cases hopens : disk.opens with
  | false =>
      have hres : (idx.saveTo disk).2 = .error .cannotOpen := by
        unfold Index.saveTo
        rw [hopens]
        rfl
      rw [hres]
      exact iff_of_false nofun fun h => h (Or.inl rfl)
  | true =>
      have hfailed := OutputStream.failed_iff disk.room disk.cap_pos idx.save
      rw [length_save] at hfailed
      rw [or_iff_right (show ¬ true = false by decide), ← hfailed, saveTo_of_opens hopens]
      cases (OutputStream.opened.write disk.room disk.cap idx.save).failed with
      | true => exact iff_of_false nofun fun h => h rfl
      | false => exact iff_of_true rfl Bool.false_ne_true

theorem savesComplete_iff : idx.SavesComplete disk ↔
    disk.Refuses idx.saveSize ∨
      idx.store.count ≤ idx.params.maxElements ∧ disk.LastFlushed idx.saveSize := by
  unfold Index.SavesComplete
  rw [saveTo_ok_iff]
  by_cases hrefuses : disk.Refuses idx.saveSize
  · exact iff_of_true (fun h => absurd hrefuses h) (Or.inl hrefuses)
  · rw [or_iff_right hrefuses]
    obtain ⟨hopens, hflushed⟩ := not_or.mp hrefuses
    have hfailed := OutputStream.failed_iff disk.room disk.cap_pos idx.save
    rw [length_save] at hfailed
    have hclose := OutputStream.close_eq_iff disk.room disk.cap_pos idx.save
      (Bool.not_eq_true _ ▸ fun h => hflushed (hfailed.mp h))
    rw [length_save] at hclose
    rw [saveTo_of_opens (Bool.not_eq_false _ ▸ hopens)]
    unfold Disk.LastFlushed
    rw [← hclose, ← load_save_iff]
    constructor
    · intro h
      obtain ⟨bs, hbs, hsave, hload⟩ := h hrefuses
      exact ⟨hsave ▸ hload, (Option.some.inj hbs).trans hsave⟩
    · rintro ⟨hload, hsave⟩ -
      exact ⟨_, rfl, hsave, by rw [hsave]; exact hload⟩

end

end VectorSearch.Hnsw

namespace VectorSearch.Durable

open Hnsw (Index Disk SaveError)

inductive SnapshotFailure where
  /-- "durable: saving snapshot: %w" -/
  | saving (e : SaveError)
  | rotating (e : SnapshotError)
deriving DecidableEq, Repr

namespace DurableIndex

/-- `Snapshot` on a disk, up to its step `j`. -/
def snapshotOn (disk : Disk) (d : DurableIndex) (j : ℕ) :
    DurableIndex × Except SnapshotFailure Unit :=
  let tmp := match (d.idx.saveTo disk).1 with
    | some bs => some (DurableFile.empty.write bs)
    | none => d.dir.snapshotTmp
  let d' := { d with dir := { d.dir with snapshotTmp := tmp } }
  match (d.idx.saveTo disk).2 with
  | .error e => (d', .error (.saving e))
  | .ok _ =>
      match runSteps (snapshotSteps.tail.take j) d' with
      | (d'', .error e) => (d'', .error (.rotating e))
      | (d'', .ok _) => (d'', .ok ())

/-- After any number of steps of `Snapshot` the log is the old one, or the snapshot is complete. -/
def KeepsData (disk : Disk) (d : DurableIndex) : Prop :=
  ∀ j, (d.snapshotOn disk j).1.dir.wal = d.dir.wal ∨
    ∃ f, (d.snapshotOn disk j).1.dir.snapshot = some f ∧ f.bytes = d.idx.save

end DurableIndex

section
variable {d : DurableIndex} {disk : Disk}

/-- Only a snapshot that `save` accepted takes the place of the log. -/
theorem files_snapshotOn (d : DurableIndex) (disk : Disk) (j : ℕ) :
    (d.snapshotOn disk j).1.dir.wal = d.dir.wal ∨
      (d.idx.saveTo disk).2 = .ok () ∧ (d.snapshotOn disk j).1.dir.snapshot =
        match (d.idx.saveTo disk).1 with
        | some bs => some (DurableFile.empty.write bs)
        | none => d.dir.snapshotTmp := by
  unfold DurableIndex.snapshotOn
  generalize (match (d.idx.saveTo disk).1 with
    | some bs => some (DurableFile.empty.write bs)
    | none => d.dir.snapshotTmp) = tmp
  cases (d.idx.saveTo disk).2 with
  | error e => exact Or.inl rfl
  | ok _ =>
      obtain ⟨idx, ⟨snapshot, old, wal, new⟩, o⟩ := d
      rw [List.take_eq_take_min]
      have hj : min j snapshotSteps.tail.length ≤ 8 := min_le_right _ _
      generalize min j snapshotSteps.tail.length = j at hj
      cases new with
      | none =>
          interval_cases j
          case «7» | «8» => exact Or.inr ⟨rfl, rfl⟩
          all_goals exact Or.inl rfl
      | some f => interval_cases j <;> exact Or.inl rfl

theorem keepsData_of_savesComplete (h : d.idx.SavesComplete disk) : d.KeepsData disk := by
  intro j
  obtain hwal | ⟨hok, hsnapshot⟩ := files_snapshotOn d disk j
  · exact Or.inl hwal
  · obtain ⟨bs, hbs, hsave, -⟩ := h hok
    rw [hbs] at hsnapshot
    exact Or.inr ⟨_, hsnapshot, hsave⟩

/-- **A successful save means a complete file, and Snapshot keeps the data**, exactly when the disk
refuses the file in time, or gets the last flush of an index within its capacity; for every index and
every pattern of failures. -/
theorem snapshot_complete_iff (d : DurableIndex) (disk : Disk) :
    d.idx.SavesComplete disk ∧ d.KeepsData disk ↔
      disk.Refuses d.idx.saveSize ∨
        d.idx.store.count ≤ d.idx.params.maxElements ∧ disk.LastFlushed d.idx.saveSize := by
  rw [← Hnsw.savesComplete_iff]
  exact ⟨And.left, fun h => ⟨h, keepsData_of_savesComplete h⟩⟩

end

open Hnsw.StandIn

/-- The buffer holds 68 bytes; all flushes succeed but the one with the given number. -/
def diskFailing (n : ℕ) : Disk := ⟨true, 68, by decide, fun i => if i = n then 0 else 68⟩

/-- The index after one addition. -/
def oneAdded : DurableIndex := (DurableIndex.fresh smallParams 0).performAll [.add [5] ⟨1, 1⟩]

/-- A failure of the first flush is reported. -/
theorem snapshot_complete_first :
    (oneAdded.idx.saveTo (diskFailing 0)).2 = .error .writeFailed ∧
      oneAdded.idx.SavesComplete (diskFailing 0) ∧ oneAdded.KeepsData (diskFailing 0) := by
  have hrefuses : (diskFailing 0).Refuses oneAdded.idx.saveSize :=
    Or.inr ⟨0, by decide +kernel, by decide⟩
  exact ⟨by decide +kernel,
    (snapshot_complete_iff oneAdded (diskFailing 0)).mpr (Or.inl hrefuses)⟩

/-- **The last flush fails**: `Snapshot` returns normally, the snapshot is cut off behind its header,
the log with the addition is gone, and opening the directory uses a length that the file does not
have. -/
theorem full_disk_loses_add :
    (oneAdded.snapshotOn (diskFailing 1) 8).2 = .ok () ∧
      ¬ oneAdded.idx.SavesComplete (diskFailing 1) ∧ ¬ oneAdded.KeepsData (diskFailing 1) ∧
        openIndex smallConfig (oneAdded.snapshotOn (diskFailing 1) 8).1.dir =
          .error (.loading .uninitialised) := by
  set dir := (oneAdded.snapshotOn (diskFailing 1) 8).1.dir with hdir
  have hok : (oneAdded.idx.saveTo (diskFailing 1)).2 = .ok () := by decide +kernel
  have hcut : (oneAdded.idx.saveTo (diskFailing 1)).1 = some (oneAdded.idx.save.take 68) := by
    decide +kernel
  have hshort : oneAdded.idx.save.take 68 ≠ oneAdded.idx.save := by decide +kernel
  have hwal : dir.wal ≠ oneAdded.dir.wal := by decide +kernel
  have hsnapshot : dir.snapshot = some (DurableFile.empty.write (oneAdded.idx.save.take 68)) := by
    decide +kernel
  have hload : Hnsw.load (oneAdded.idx.save.take 68) = .error .uninitialised := by
    have hshape : (Hnsw.load (oneAdded.idx.save.take 68)).map (fun _ => ()) =
        .error .uninitialised := by
      decide +kernel
    cases hres : Hnsw.load (oneAdded.idx.save.take 68) with
    | ok idx =>
        rw [hres] at hshape
        cases hshape
    | error e =>
        rw [hres] at hshape
        rw [Except.error.inj hshape]
  refine ⟨by decide +kernel, fun h => ?_, fun h => ?_, ?_⟩
  · obtain ⟨bs, hbs, hsave, -⟩ := h hok
    exact hshort (Option.some.inj (hcut.symm.trans hbs) ▸ hsave)
  · obtain heq | ⟨f, hf, hsave⟩ := h 8
    · exact hwal heq
    · obtain rfl := Option.some.inj (hsnapshot.symm.trans hf)
      exact hshort hsave
  · rw [openIndex, loadOrCreateIndex, hsnapshot]
    simp only [DurableFile.bytes_write, DurableFile.bytes_empty, List.nil_append, hload]

end VectorSearch.Durable
