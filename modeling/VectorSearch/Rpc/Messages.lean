import VectorSearch.Hnsw.KeyMap

/-! # Messages and statuses

The messages between the coordinator and the shards, and the gRPC status of a call that failed.  A
message field of message type may be absent, which is `none`; the fields of a number are fixed-width
as in the protocol files.  A vector is the list of the bit patterns of its components. -/

namespace VectorSearch.Rpc

open Hnsw (Label)

/-- The codes of a failed call. -/
inductive Code where
  | canceled
  | unknown
  | invalidArgument
  | deadlineExceeded
  | notFound
  | alreadyExists
  | permissionDenied
  | resourceExhausted
  | failedPrecondition
  | aborted
  | outOfRange
  | unimplemented
  | internal
  | unavailable
  | dataLoss
  | unauthenticated
deriving DecidableEq, Repr

def Code.text : Code → String
  | .canceled => "Canceled"
  | .unknown => "Unknown"
  | .invalidArgument => "InvalidArgument"
  | .deadlineExceeded => "DeadlineExceeded"
  | .notFound => "NotFound"
  | .alreadyExists => "AlreadyExists"
  | .permissionDenied => "PermissionDenied"
  | .resourceExhausted => "ResourceExhausted"
  | .failedPrecondition => "FailedPrecondition"
  | .aborted => "Aborted"
  | .outOfRange => "OutOfRange"
  | .unimplemented => "Unimplemented"
  | .internal => "Internal"
  | .unavailable => "Unavailable"
  | .dataLoss => "DataLoss"
  | .unauthenticated => "Unauthenticated"

/-- The error of a call. -/
structure Status where
  code : Code
  message : String
deriving DecidableEq, Repr

/-- The text of a status as an error. -/
def Status.text (st : Status) : String :=
  "rpc error: code = " ++ st.code.text ++ " desc = " ++ st.message

/-! ### The service of a shard -/

structure InsertRequest where
  key : Option Label
  vector : List UInt32
deriving DecidableEq, Repr

structure DeleteRequest where
  key : Option Label
deriving DecidableEq, Repr

structure SearchRequest where
  query : List UInt32
  k : UInt32
  /-- 0 for the configured default -/
  ef : UInt32
deriving DecidableEq, Repr

/-- A key and its distance from the query. -/
structure ScoredKey (D : Type) where
  key : Label
  distance : D
deriving DecidableEq, Repr

/-- What a call of `Search` on a shard returns. -/
abbrev Answer (D : Type) := Except Status (List (ScoredKey D))

end VectorSearch.Rpc
