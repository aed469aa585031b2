import VectorSearch.Wal.Log
import VectorSearch.Hnsw.Snapshot
import VectorSearch.Hnsw.Binding

/-! # The durable index: files, Open, writes and Snapshot

A `Dir` is what the two configured paths, and the temporary names next to them, hold.  `openIndex`
is `Open`; a `DurableIndex` is the handle that it returns together with the directory.  The writes
are `add`, `markDeleted` and `unmarkDeleted`: each appends its record and then applies the call.
`snapshot` is the list `snapshotSteps` of the steps of `Snapshot`, so that a crash can fall between
any two of them. -/

open ByteCodec

namespace VectorSearch.Durable

open Wal (Record opAdd opMarkDeleted opUnmarkDeleted AppendIO AppendError ReplayError Replayed
  newLog openForAppend replay)
open Hnsw (Label Space Index Platform mkParams Err)

/-- `durable.Config`, without the paths. -/
structure Config where
  space : Space
  dim : ℕ
  maxElements : ℕ
  M : ℕ
  efConstruction : ℕ
  seed : UInt64
deriving DecidableEq, Repr

/-- The files at `SnapshotPath` and `WALPath`, and next to them. -/
structure Dir where
  snapshot : Option DurableFile
  /-- `SnapshotPath + ".tmp"` -/
  snapshotTmp : Option DurableFile
  wal : Option DurableFile
  /-- `WALPath + ".new"` -/
  walNew : Option DurableFile
deriving DecidableEq

def Dir.empty : Dir := ⟨none, none, none, none⟩

inductive ApplyError where
  | index (e : Err)
  /-- "durable: unknown WAL op %d" -/
  | unknownOp (op : UInt8)
deriving DecidableEq, Repr

inductive OpenError where
  /-- "durable: loading snapshot %s: %w" -/
  | loading (e : Hnsw.LoadError)
  /-- "durable: creating fresh index: %w" -/
  | creating (e : Hnsw.InvalidArgument)
  /-- "durable: replaying WAL: %w" -/
  | replaying (e : ReplayError ApplyError)
deriving DecidableEq, Repr

/-- The open `durable.Index` and the directory it works on. -/
structure DurableIndex where
  idx : Index UInt32
  dir : Dir
  /-- whether `w` is open -/
  walOpen : Bool

/-- A new index with a new log, in an otherwise empty directory. -/
def DurableIndex.fresh (p : Hnsw.Params) (seed : UInt64) : DurableIndex :=
  ⟨Index.new p seed, { Dir.empty with wal := some newLog }, true⟩

/-- The key a record names. -/
def keyOf (r : Record) : Label := ⟨r.clientID, r.label⟩

section
variable [Platform UInt32]

/-! ### Open -/

/-- `apply`: replay of one record; a duplicate or missing label is no error. -/
def apply (idx : Index UInt32) (r : Record) : Except ApplyError (Index UInt32) :=
  if r.op = opAdd then
    match idx.goAdd r.vector (keyOf r) with
    | (idx', .ok _) => .ok idx'
    | (idx', .error .duplicateLabel) => .ok idx'
    | (_, .error e) => .error (.index e)
  else if r.op = opMarkDeleted then
    match idx.goMarkDeleted (keyOf r) with
    | (idx', .ok _) => .ok idx'
    | (idx', .error .notFound) => .ok idx'
    | (_, .error e) => .error (.index e)
  else if r.op = opUnmarkDeleted then
    match idx.goUnmarkDeleted (keyOf r) with
    | (idx', .ok _) => .ok idx'
    | (idx', .error .notFound) => .ok idx'
    | (_, .error e) => .error (.index e)
  else .error (.unknownOp r.op)

/-- `loadOrCreateIndex` -/
def loadOrCreateIndex (cfg : Config) (dir : Dir) : Except OpenError (Index UInt32) :=
  match dir.snapshot with
  | some f =>
      match Hnsw.load f.bytes with
      | .error e => .error (.loading e)
      | .ok idx => .ok idx
  | none =>
      match mkParams cfg.space cfg.dim cfg.maxElements cfg.M cfg.efConstruction with
      | .error e => .error (.creating e)
      | .ok p => .ok (Index.new p cfg.seed)

/-- `reopenWAL` -/
def reopenWAL (wal : Option DurableFile) (lastGoodOffset : ℕ) : DurableFile :=
  match wal with
  | some f => openForAppend f (some lastGoodOffset)
  | none => newLog

/-- `Open` -/
def openIndex (cfg : Config) (dir : Dir) : Except OpenError DurableIndex :=
  match loadOrCreateIndex cfg dir with
  | .error e => .error e
  | .ok idx =>
      let replayed := replay apply (dir.wal.map DurableFile.bytes) idx
      match replayed.err with
      | some e => .error (.replaying e)
      | none => .ok {
          idx := replayed.state
          dir := { dir with wal := some (reopenWAL dir.wal replayed.lastGoodOffset) }
          walOpen := true }

/-! ### Writes -/

/-- A call of `Add`, `MarkDeleted` or `UnmarkDeleted`. -/
inductive Call where
  | add (vec : Wal.Vec) (key : Label)
  | markDeleted (key : Label)
  | unmarkDeleted (key : Label)
deriving DecidableEq, Repr

def Call.key : Call → Label
  | .add _ key => key
  | .markDeleted key => key
  | .unmarkDeleted key => key

/-- The record the call appends. -/
def Call.record : Call → Record
  | .add vec key => ⟨opAdd, key.clientId, key.label, vec⟩
  | .markDeleted key => ⟨opMarkDeleted, key.clientId, key.label, []⟩
  | .unmarkDeleted key => ⟨opUnmarkDeleted, key.clientId, key.label, []⟩

/-- What the call does to the in-memory index. -/
def Call.onIndex (idx : Index UInt32) : Call → Index UInt32 × Except Err Unit
  | .add vec key => idx.goAdd vec key
  | .markDeleted key => idx.goMarkDeleted key
  | .unmarkDeleted key => idx.goUnmarkDeleted key

inductive WriteError where
  /-- "durable: wal append: %w" -/
  | walAppend (e : AppendError)
  /-- "durable: index add (already logged to WAL): %w" -/
  | indexAdd (e : Err)
  /-- the index's error as it is -/
  | index (e : Err)
deriving DecidableEq, Repr

/-- The error of a call whose record is logged. -/
def Call.error : Call → Err → WriteError
  | .add _ _, e => .indexAdd e
  | .markDeleted _, e => .index e
  | .unmarkDeleted _, e => .index e

namespace DurableIndex

/-- `d.w.Append(r)`; a closed log refuses the write. -/
def appendWAL (d : DurableIndex) (r : Record) (io : AppendIO) :
    DurableIndex × Except AppendError Unit :=
  match d.walOpen, d.dir.wal with
  | true, some f =>
      ({ d with dir := { d.dir with wal := some (Wal.append f r io).1 } }, (Wal.append f r io).2)
  | _, _ => (d, .error .write)

/-- `Add`, `MarkDeleted` and `UnmarkDeleted`: append the record, then apply the call. -/
def perform (d : DurableIndex) (c : Call) (io : AppendIO) : DurableIndex × Except WriteError Unit :=
  match d.appendWAL c.record io with
  | (d, .error e) => (d, .error (.walAppend e))
  | (d, .ok _) =>
      ({ d with idx := (c.onIndex d.idx).1 },
        match (c.onIndex d.idx).2 with
        | .ok _ => .ok ()
        | .error e => .error (c.error e))

/-- A sequence of calls without an I/O error. -/
def performAll (d : DurableIndex) (cs : List Call) : DurableIndex :=
  cs.foldl (fun d c => (d.perform c .done).1) d

end DurableIndex

/-! ### Snapshot -/

/-- The steps of `Snapshot` on the files. -/
inductive SnapshotStep where
  /-- write the index to the temporary snapshot -/
  | save
  /-- rename it into place -/
  | renameSnapshot
  /-- `wal.Create`: create the new log exclusively, -/
  | createNew
  /-- write its header -/
  | writeHeader
  /-- and sync it -/
  | syncHeader
  | closeOld
  | closeNew
  /-- rename the new log into place -/
  | renameWAL
  | reopen
deriving DecidableEq, Repr

inductive SnapshotError where
  /-- "durable: creating new WAL: %w" -/
  | creating (e : Wal.CreateError)
deriving DecidableEq, Repr

namespace SnapshotStep

/-- One step; the only error is that of creating a file that exists. -/
def perform (d : DurableIndex) : SnapshotStep → Except SnapshotError DurableIndex
  | save => .ok { d with
      dir := { d.dir with snapshotTmp := some (DurableFile.empty.write d.idx.save) } }
  | renameSnapshot => .ok { d with
      dir := { d.dir with snapshot := d.dir.snapshotTmp, snapshotTmp := none } }
  | createNew =>
      match d.dir.walNew with
      | some _ => .error (.creating .exists)
      | none => .ok { d with dir := { d.dir with walNew := some DurableFile.empty } }
  | writeHeader => .ok { d with
      dir := { d.dir with walNew := d.dir.walNew.map fun f => f.write Wal.header } }
  | syncHeader => .ok { d with
      dir := { d.dir with walNew := d.dir.walNew.map DurableFile.sync } }
  | closeOld => .ok { d with walOpen := false }
  | closeNew => .ok d
  | renameWAL => .ok { d with dir := { d.dir with wal := d.dir.walNew, walNew := none } }
  | reopen => .ok { d with walOpen := true }

end SnapshotStep

/-- The steps in the order in which `Snapshot` makes them. -/
def snapshotSteps : List SnapshotStep :=
  [.save, .renameSnapshot, .createNew, .writeHeader, .syncHeader, .closeOld, .closeNew, .renameWAL,
    .reopen]

namespace DurableIndex

/-- Steps up to the first that fails. -/
def runSteps : List SnapshotStep → DurableIndex → DurableIndex × Except SnapshotError Unit
  | [], d => (d, .ok ())
  | s :: ss, d =>
      match s.perform d with
      | .error e => (d, .error e)
      | .ok d' => runSteps ss d'

/-- `Snapshot` -/
def snapshot (d : DurableIndex) : DurableIndex × Except SnapshotError Unit :=
  runSteps snapshotSteps d

end DurableIndex

end

end VectorSearch.Durable
