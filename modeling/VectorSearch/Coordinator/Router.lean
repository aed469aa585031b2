import VectorSearch.Lib.ByteCodec
import VectorSearch.Hnsw.KeyMap

/-! # Routing

A key belongs to the shard that its hash names.  The hash is FNV-1a over the sixteen bytes of the
client id and the label, each least significant byte first. -/

namespace VectorSearch.Coordinator

open ByteCodec
open Hnsw (Label)

/-- The sum of `fnv.New64a()` after a write. -/
def fnv1a64 (bytes : Bytes) : UInt64 :=
  bytes.foldl (fun h b => (h ^^^ b.toUInt64) * 1099511628211) 14695981039346656037

/-- `HashKey` -/
def hashKey (key : Label) : UInt64 :=
  fnv1a64 (putLE 8 key.clientId.toNat ++ putLE 8 key.label.toNat)

/-- A router that `NewRouter` returns. -/
structure Router where
  numShards : ℕ
  /-- `NewRouter` panics otherwise -/
  pos : 0 < numShards
  /-- an `int` -/
  lt : numShards < 2 ^ 63

/-- `ShardFor` -/
def Router.shardFor (r : Router) (key : Label) : ℕ :=
  (hashKey key % UInt64.ofNat r.numShards).toNat

theorem Router.shardFor_eq (r : Router) (key : Label) :
    r.shardFor key = (hashKey key).toNat % r.numShards := by
  have hlt := r.lt
  rw [shardFor, UInt64.toNat_mod, UInt64.toNat_ofNat', Nat.mod_eq_of_lt (b := 2 ^ 64) (by omega)]

theorem Router.shardFor_lt (r : Router) (key : Label) : r.shardFor key < r.numShards := by
  rw [shardFor_eq]
  exact Nat.mod_lt _ r.pos

end VectorSearch.Coordinator
