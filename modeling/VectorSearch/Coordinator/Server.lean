import VectorSearch.Coordinator.Router
import VectorSearch.Coordinator.Merge

/-! # The coordinator server

The handlers of the public service.  `Insert` and `Delete` check the request and pass it on to the
shard of the key (`routeInsert`, `routeDelete`), whose answer is returned as it is; `Search` checks
the request (`plan`), gathers and replies (`respond`).

`topK_search`: a reply over ranked distances is a selection of the `k` nearest vectors of the shards
that answered, and counts those that did not. -/

namespace VectorSearch.Coordinator

open Hnsw (Label)
open Rpc (Answer DeleteRequest InsertRequest ScoredKey Status)

/-- The public `SearchRequest`. -/
structure SearchRequest where
  query : List UInt32
  k : UInt32
  /-- 0 for the configured default -/
  ef : UInt32
  allowPartial : Bool
deriving DecidableEq, Repr

structure SearchResponse (D : Type) where
  results : List (ScoredKey D)
  shardsQueried : UInt32
  shardsFailed : UInt32
deriving DecidableEq, Repr

structure Server where
  router : Router
  /-- as `NewServer` has set it -/
  defaultEf : ℕ

/-- The reply to a search. -/
def respond {D : Type} (result : GatherResult D) : SearchResponse D where
  results := result.results.map Candidate.scored
  shardsQueried := UInt32.ofNat result.shardsQueried
  shardsFailed := UInt32.ofNat result.shardsFailed

namespace Server

/-- `Insert` up to the call of a shard: the shard and its request. -/
def routeInsert (s : Server) (req : InsertRequest) : Except Status (ℕ × InsertRequest) :=
  match req.key with
  | none => .error ⟨.invalidArgument, "key is required"⟩
  | some key =>
      if req.vector.length = 0 then .error ⟨.invalidArgument, "vector is required"⟩
      else .ok (s.router.shardFor key, ⟨some key, req.vector⟩)

/-- `Delete` up to the call of a shard. -/
def routeDelete (s : Server) (req : DeleteRequest) : Except Status (ℕ × DeleteRequest) :=
  match req.key with
  | none => .error ⟨.invalidArgument, "key is required"⟩
  | some key => .ok (s.router.shardFor key, ⟨some key⟩)

/-- `Search` up to the calls of the shards: `k` and `ef`. -/
def plan (s : Server) (req : SearchRequest) : Except Status (ℕ × ℕ) :=
  if req.query.length = 0 then .error ⟨.invalidArgument, "query is required"⟩
  else if req.k = 0 then .error ⟨.invalidArgument, "k must be > 0"⟩
  else .ok (req.k.toNat, if req.ef = 0 then s.defaultEf else req.ef.toNat)

/-- `Search` -/
def search {D : Type} (sort : SortSlice) (less : D → D → Bool) (s : Server) (pool : Pool D)
    (req : SearchRequest) (order : List ℕ) : Except Status (SearchResponse D) :=
  match s.plan req with
  | .error e => .error e
  | .ok (k, ef) =>
      (Coordinator.search sort less pool req.query k ef req.allowPartial order).map respond

theorem routeInsert_ok {s : Server} {req req' : InsertRequest} {shard : ℕ}
    (h : s.routeInsert req = .ok (shard, req')) :
    req' = req ∧ ∃ key, req.key = some key ∧ shard = s.router.shardFor key := by
  unfold routeInsert at h
  cases hkey : req.key with
  | none =>
    rw [hkey] at h
    cases h
  | some key =>
    simp only [hkey] at h
    split_ifs at h
    cases h
    exact ⟨by rw [← hkey], key, rfl, rfl⟩

theorem routeDelete_ok {s : Server} {req req' : DeleteRequest} {shard : ℕ}
    (h : s.routeDelete req = .ok (shard, req')) :
    req' = req ∧ ∃ key, req.key = some key ∧ shard = s.router.shardFor key := by
  unfold routeDelete at h
  cases hkey : req.key with
  | none =>
    rw [hkey] at h
    cases h
  | some key =>
    simp only [hkey] at h
    cases h
    exact ⟨by rw [← hkey], key, rfl, rfl⟩

/-- **A reply is a selection of the nearest vectors of the shards that answered**, if each of these
answered with such a selection from its own, and it counts the others. -/
theorem topK_search {D E : Type} [DecidableEq D] [LinearOrder E] {rank : D → E}
    {less : D → D → Bool} (hless : ∀ x y, less x y = decide (rank x < rank y)) {sort : SortSlice}
    {s : Server} {pool : Pool D} {req : SearchRequest} {order : List ℕ} {r : SearchResponse D}
    {k ef : ℕ} (horder : order.Perm (List.range pool.numShards)) (hplan : s.plan req = .ok (k, ef))
    (h : s.search sort less pool req order = .ok r) {own : ℕ → Multiset (ScoredKey D)}
    (hown : ∀ i ∈ healthy pool.numShards (pool.answers req.query k ef),
      TopK (fun x => rank x.distance) k (own i) (scoredKeys (pool.answers req.query k ef i))) :
    TopK (fun x => rank x.distance) k
        ((healthy pool.numShards (pool.answers req.query k ef)).map own).sum r.results ∧
      r.shardsFailed = UInt32.ofNat (pool.numShards -
        (healthy pool.numShards (pool.answers req.query k ef)).length) ∧
      (req.allowPartial = false → healthy pool.numShards (pool.answers req.query k ef) =
        List.range pool.numShards) := by
  unfold search at h
  rw [hplan] at h
  simp only at h
  cases hres : Coordinator.search sort less pool req.query k ef req.allowPartial order with
  | error e =>
    rw [hres] at h
    cases h
  | ok result =>
    rw [hres] at h
    cases h
    obtain ⟨hfailed, hall⟩ := search_failed horder hres
    refine ⟨topK_union_ranked rank hless horder hres hown, ?_, hall⟩
    have hcount := numFailed_add_healthy pool.numShards (pool.answers req.query k ef)
    rw [respond, hfailed]
    exact congrArg UInt32.ofNat (by omega)

end Server

end VectorSearch.Coordinator
