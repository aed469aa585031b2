import VectorSearch.Lib.PriorityQueue
import VectorSearch.Lib.TopK
import VectorSearch.Rpc.Messages

/-! # Scatter and gather

`search` is the coordinator's `Search`: every shard is asked for the full `k`, the answers are
gathered in the order in which they arrive, and the candidates are sorted and cut.  The order of
arrival is an argument; `sort.Slice`, which need not be stable, is a parameter with the laws that it
documents. -/

namespace VectorSearch.Coordinator

open Hnsw (Label)
open Rpc (Answer Code ScoredKey Status)

/-! ### sort.Slice -/

/-- An implementation of `sort.Slice`, with the comparison as a function of two elements. -/
structure SortSlice where
  run : {α : Type} → (α → α → Bool) → List α → List α
  perm : ∀ {α : Type} (less : α → α → Bool) (l : List α), (run less l).Perm l
  sorted : ∀ {α : Type} {less : α → α → Bool}, StrictWeak less → ∀ l : List α,
    (run less l).Pairwise fun a b => less b a = false

/-- A merge sort. -/
def SortSlice.merge : SortSlice where
  run less l := l.mergeSort fun a b => !less b a
  perm _ l := List.mergeSort_perm l _
  sorted {α less} h l := by
    have htrans : ∀ a b c : α, (!less b a) = true → (!less c b) = true → (!less c a) = true := by
      intro a b c hab hbc
      simpa using h.negTrans (by simpa using hbc) (by simpa using hab)
    have htotal : ∀ a b : α, (!less b a || !less a b) = true := by
      intro a b
      cases hba : less b a with
      | false => rfl
      | true => simp [h.asymm hba]
    exact (List.pairwise_mergeSort htrans htotal l).imp fun hab => by simpa using hab

/-! ### The answers of the shards -/

/-- One connection for each shard. -/
structure Pool (D : Type) where
  numShards : ℕ
  shard : ℕ → Rpc.SearchRequest → Answer D

/-- A scored key and the shard it came from. -/
structure Candidate (D : Type) where
  key : Label
  distance : D
  shard : ℕ
deriving DecidableEq, Repr

structure GatherResult (D : Type) where
  results : List (Candidate D)
  shardsQueried : ℕ
  shardsFailed : ℕ
deriving DecidableEq, Repr

/-- What the goroutines of `Search` share. -/
structure Gathered (D : Type) where
  all : List (Candidate D)
  failed : ℕ
  /-- the first error of the group, with its shard -/
  err : Option (ℕ × Status)

def Gathered.empty (D : Type) : Gathered D := ⟨[], 0, none⟩

section
variable {D : Type}

def Candidate.scored (c : Candidate D) : ScoredKey D := ⟨c.key, c.distance⟩

/-- The candidates of the answer of shard `s`. -/
def candidates (s : ℕ) : Answer D → List (Candidate D)
  | .ok results => results.map fun r => ⟨r.key, r.distance, s⟩
  | .error _ => []

/-- The goroutine of shard `s` after its call has returned. -/
def Gathered.receive (allowPartial : Bool) (g : Gathered D) (s : ℕ) (answer : Answer D) :
    Gathered D :=
  match answer with
  | .ok _ => { g with all := g.all ++ candidates s answer }
  | .error e =>
      if allowPartial then { g with failed := g.failed + 1 }
      else { g with err := g.err.or (some (s, e)) }

/-- The answers received in some order. -/
def gather (allowPartial : Bool) (answers : ℕ → Answer D) (order : List ℕ) : Gathered D :=
  order.foldl (fun g s => g.receive allowPartial s (answers s)) (Gathered.empty D)

/-! ### Search -/

/-- `toGatherError`, for the error "shard %d: %w" of a call; the code of the call is kept. -/
def toGatherError (s : ℕ) (e : Status) : Status :=
  let text := "shard " ++ toString s ++ ": " ++ e.text
  if e.code ≠ .unknown then ⟨e.code, text⟩ else ⟨.internal, "scatter-gather: " ++ text⟩

/-- What every shard answers. -/
def Pool.answers (pool : Pool D) (query : List UInt32) (k ef : ℕ) : ℕ → Answer D :=
  fun s => pool.shard s ⟨query, UInt32.ofNat k, UInt32.ofNat ef⟩

/-- The merge, after all goroutines are done. -/
def Gathered.finish (sort : SortSlice) (less : D → D → Bool) (numShards k : ℕ) (g : Gathered D) :
    Except Status (GatherResult D) :=
  match g.err with
  | some (s, e) => .error (toGatherError s e)
  | none =>
      let all := sort.run (fun a b => less a.distance b.distance) g.all
      .ok {
        results := if k < all.length then all.take k else all
        shardsQueried := numShards
        shardsFailed := g.failed }

/-- `Search`; `order` lists the shards in the order in which their goroutines get to the mutex or
to the group. -/
def search (sort : SortSlice) (less : D → D → Bool) (pool : Pool D) (query : List UInt32)
    (k ef : ℕ) (allowPartial : Bool) (order : List ℕ) : Except Status (GatherResult D) :=
  (gather allowPartial (pool.answers query k ef) order).finish sort less pool.numShards k

end

end VectorSearch.Coordinator
