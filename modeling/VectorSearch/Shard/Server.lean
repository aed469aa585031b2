import VectorSearch.Durable.Index
import VectorSearch.Rpc.Messages

/-! # A shard server

The handlers of the shard over its durable index: each checks the request, calls the index and turns
the error into a status.  The outcome of the write to the log is an argument, with the operating
system's message for a write that fails. -/

namespace VectorSearch.Wal

/-- The text of an error of `encode`. -/
def EncodeError.text : EncodeError → String
  | .addWithoutVector => "wal: OpAdd requires a non-empty vector"
  | .vectorWithoutAdd => "wal: only OpAdd carries a vector"

/-- The text of an error of `Append`, with the message of the operating system. -/
def AppendError.text (os : String) : AppendError → String
  | .encode e => e.text
  | .write => "wal: write: " ++ os
  | .fsync => "wal: fsync: " ++ os

end VectorSearch.Wal

namespace VectorSearch.Hnsw

/-- The text of an error of the Go package. -/
def Err.text : Err → String
  | .dims want got => "hnsw: expected " ++ toString want ++ " dims, got " ++ toString got
  | .duplicateLabel => "hnsw: label already exists"
  | .notFound => "hnsw: label not found"
  | .full => "hnsw: index is full"
  | .last msg => "hnsw: " ++ msg

end VectorSearch.Hnsw

namespace VectorSearch.Durable

namespace WriteError

def text (os : String) : WriteError → String
  | walAppend e => "durable: wal append: " ++ e.text os
  | indexAdd e => "durable: index add (already logged to WAL): " ++ e.text
  | index e => e.text

/-- The error of the index in the chain of a write's error. -/
def cause : WriteError → Option Hnsw.Err
  | walAppend _ => none
  | indexAdd e => some e
  | index e => some e

end WriteError

end VectorSearch.Durable

namespace VectorSearch.Shard

open Durable (Call DurableIndex WriteError)
open Hnsw (Label Platform)
open Rpc (Answer DeleteRequest InsertRequest ScoredKey SearchRequest Status)

/-- The outcome of a write to the log, and the message of the operating system if it fails. -/
structure Disk where
  io : Wal.AppendIO
  message : String

/-- A disk that works. -/
def Disk.ok : Disk := ⟨.done, ""⟩

structure Server where
  idx : DurableIndex
  /-- as `New` has set it -/
  defaultEf : ℕ

/-- `toStatus` -/
def toStatus (e : WriteError) (op : String) (disk : Disk) : Status :=
  match e.cause with
  | some .duplicateLabel => ⟨.alreadyExists, op ++ ": key already present"⟩
  | some .notFound => ⟨.notFound, op ++ ": key not found"⟩
  | some .full => ⟨.resourceExhausted, op ++ ": shard is at capacity (maxElements reached)"⟩
  | _ => ⟨.internal, op ++ ": " ++ e.text disk.message⟩

/-- A vector or a query of the wrong length. -/
def wrongDim (what : String) (got want : ℕ) : Status :=
  ⟨.invalidArgument, what ++ " has " ++ toString got ++
    " dimensions, this shard is configured for " ++ toString want⟩

namespace Server

section
variable [Platform UInt32]

/-- A write to the index and the status of its error. -/
def write (s : Server) (c : Call) (op : String) (disk : Disk) : Server × Except Status Unit :=
  ({ s with idx := (s.idx.perform c disk.io).1 },
    match (s.idx.perform c disk.io).2 with
    | .ok _ => .ok ()
    | .error e => .error (toStatus e op disk))

/-- `Insert` -/
def insert (s : Server) (req : InsertRequest) (disk : Disk) : Server × Except Status Unit :=
  match req.key with
  | none => (s, .error ⟨.invalidArgument, "key is required"⟩)
  | some key =>
      if req.vector.length = 0 then (s, .error ⟨.invalidArgument, "vector is required"⟩)
      else if req.vector.length ≠ s.idx.idx.params.dim then
        (s, .error (wrongDim "vector" req.vector.length s.idx.idx.params.dim))
      else s.write (.add req.vector key) "insert" disk

/-- `Delete` -/
def delete (s : Server) (req : DeleteRequest) (disk : Disk) : Server × Except Status Unit :=
  match req.key with
  | none => (s, .error ⟨.invalidArgument, "key is required"⟩)
  | some key => s.write (.markDeleted key) "delete" disk

/-- `Undelete` -/
def undelete (s : Server) (req : DeleteRequest) (disk : Disk) : Server × Except Status Unit :=
  match req.key with
  | none => (s, .error ⟨.invalidArgument, "key is required"⟩)
  | some key => s.write (.unmarkDeleted key) "undelete" disk

/-- `Search`, for a caller that did not give up. -/
def search (s : Server) (req : SearchRequest) : Answer UInt32 :=
  if req.query.length = 0 then .error ⟨.invalidArgument, "query is required"⟩
  else if req.query.length ≠ s.idx.idx.params.dim then
    .error (wrongDim "query" req.query.length s.idx.idx.params.dim)
  else if req.k = 0 then .error ⟨.invalidArgument, "k must be > 0"⟩
  else
    let ef := if req.ef = 0 then s.defaultEf else req.ef.toNat
    match s.idx.idx.goSearch req.query req.k.toNat ef with
    | .error e => .error (toStatus (.index e) "search" .ok)
    | .ok results => .ok (results.map fun r => ⟨r.1, r.2⟩)

end

end Server

end VectorSearch.Shard
