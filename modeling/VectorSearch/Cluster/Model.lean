import VectorSearch.Coordinator.Server
import VectorSearch.Shard.Keys

/-! # The cluster

Any number of coordinator processes, all configured with the same shards, and the shards behind
them.  A coordinator keeps nothing between calls, so the state of the coordinators is what is left
to do of each call.  Requests and replies stay in the network once they were sent: a request may be
handled any number of times (it was retried), or never (it was lost), and in any order; the same
holds of the delivery of replies.  A coordinator may give a shard up at any time (`fail`).  A shard
handles one request at a time.

`perform` makes one step and `run` a list of them.  A step that names a message that is not there
does nothing, so every list of steps is a run. -/

namespace VectorSearch.Cluster

open Coordinator (Gathered Router SearchRequest SearchResponse SortSlice)
open Hnsw (FloatOps Label Platform)
open Rpc (Answer DeleteRequest InsertRequest Status)
open Shard (Disk)

/-- What all coordinators are configured with, and the default `ef` of each. -/
structure Config where
  router : Router
  defaultEf : ℕ → ℕ
  sort : SortSlice

/-- A coordinator process. -/
def Config.coordinator (cfg : Config) (i : ℕ) : Coordinator.Server := ⟨cfg.router, cfg.defaultEf i⟩

/-! ### Messages -/

/-- A request of a client to a coordinator. -/
inductive Request where
  | insert (req : InsertRequest)
  | delete (req : DeleteRequest)
  | search (req : SearchRequest)
deriving DecidableEq

/-- A request of a coordinator to a shard. -/
inductive ShardRequest where
  | insert (req : InsertRequest)
  | delete (req : DeleteRequest)
  | search (req : Rpc.SearchRequest)
deriving DecidableEq

/-- What a shard replies. -/
inductive ShardReply where
  | done (result : Except Status Unit)
  | found (answer : Answer UInt32)

/-- A request under way: the client's call that it is for, and the shard it goes to. -/
structure Message where
  call : ℕ
  shard : ℕ
  request : ShardRequest

/-- A reply under way, to a request. -/
structure Reply where
  message : Message
  result : ShardReply

/-! ### Calls -/

/-- What a client is told. -/
inductive Outcome where
  | done (result : Except Status Unit)
  | found (result : Except Status (SearchResponse UInt32))

/-- How far a call has come. -/
inductive Progress where
  /-- for the shard of an `Insert` or a `Delete` -/
  | waiting
  /-- for the answers of the shards in `missing` -/
  | gathering (k : ℕ) (allowPartial : Bool) (missing : List ℕ) (g : Gathered UInt32)
  | finished (outcome : Outcome)

/-- A client's call. -/
structure ClientCall where
  request : Request
  progress : Progress

structure State where
  shards : ℕ → Shard.Server
  calls : List ClientCall
  sent : List Message
  replies : List Reply

/-- No call was made yet. -/
def State.start (shards : ℕ → Shard.Server) : State := ⟨shards, [], [], []⟩

inductive Step where
  /-- a client calls a coordinator -/
  | call (coordinator : ℕ) (request : Request)
  /-- a shard handles request `i` -/
  | handle (i : ℕ) (disk : Disk)
  /-- reply `i` reaches the coordinator -/
  | deliver (i : ℕ)
  /-- the coordinator of a call gives up on a shard -/
  | fail (call shard : ℕ) (e : Status)
  /-- `Undelete`, which only a shard has -/
  | undelete (shard : ℕ) (req : DeleteRequest) (disk : Disk)
  | snapshot (shard : ℕ)

section
variable [Platform UInt32]

/-- A shard handles a request. -/
def handle (s : Shard.Server) (disk : Disk) : ShardRequest → Shard.Server × ShardReply
  | .insert req => ((s.insert req disk).1, .done (s.insert req disk).2)
  | .delete req => ((s.delete req disk).1, .done (s.delete req disk).2)
  | .search req => (s, .found (s.search req))

/-- A coordinator takes call `id`: its progress, and the requests it sends. -/
def begin (cfg : Config) (coordinator id : ℕ) : Request → Progress × List Message
  | .insert req =>
      match (cfg.coordinator coordinator).routeInsert req with
      | .error e => (.finished (.done (.error e)), [])
      | .ok (shard, req) => (.waiting, [⟨id, shard, .insert req⟩])
  | .delete req =>
      match (cfg.coordinator coordinator).routeDelete req with
      | .error e => (.finished (.done (.error e)), [])
      | .ok (shard, req) => (.waiting, [⟨id, shard, .delete req⟩])
  | .search req =>
      match (cfg.coordinator coordinator).plan req with
      | .error e => (.finished (.found (.error e)), [])
      | .ok (k, ef) =>
          (.gathering k req.allowPartial (List.range cfg.router.numShards) (Gathered.empty UInt32),
            (List.range cfg.router.numShards).map fun shard =>
              ⟨id, shard, .search ⟨req.query, UInt32.ofNat k, UInt32.ofNat ef⟩⟩)

namespace Progress

/-- The goroutine of a shard gets its answer; the last one ends the search. -/
def gather (cfg : Config) (k : ℕ) (allowPartial : Bool) (missing : List ℕ) (g : Gathered UInt32)
    (shard : ℕ) (answer : Answer UInt32) : Progress :=
  let g := g.receive allowPartial shard answer
  let missing := missing.erase shard
  if missing = [] then
    .finished (.found
      ((g.finish cfg.sort FloatOps.lt cfg.router.numShards k).map Coordinator.respond))
  else .gathering k allowPartial missing g

/-- A reply reaches the coordinator of a call that still waits for it. -/
def receive (cfg : Config) (p : Progress) (shard : ℕ) (result : ShardReply) : Progress :=
  match p, result with
  | waiting, .done result => finished (.done result)
  | gathering k allowPartial missing g, .found answer =>
      if shard ∈ missing then gather cfg k allowPartial missing g shard answer else p
  | _, _ => p

/-- The coordinator of a call gives up on a shard. -/
def giveUp (cfg : Config) (p : Progress) (shard : ℕ) (e : Status) : Progress :=
  match p with
  | waiting => finished (.done (.error e))
  | gathering k allowPartial missing g =>
      if shard ∈ missing then gather cfg k allowPartial missing g shard (.error e) else p
  | finished _ => p

end Progress

namespace State

/-- Replace a shard. -/
def setShard (σ : State) (i : ℕ) (s : Shard.Server) : State :=
  { σ with shards := Function.update σ.shards i s }

/-- Change how far call `id` has come. -/
def proceed (σ : State) (id : ℕ) (f : Progress → Progress) : State :=
  { σ with calls := σ.calls.modify id fun c => { c with progress := f c.progress } }

/-- One step. -/
def perform (cfg : Config) (σ : State) : Step → State
  | .call coordinator request =>
      let (progress, messages) := begin cfg coordinator σ.calls.length request
      { σ with calls := σ.calls ++ [⟨request, progress⟩], sent := σ.sent ++ messages }
  | .handle i disk =>
      match σ.sent[i]? with
      | none => σ
      | some m =>
          let (s, result) := handle (σ.shards m.shard) disk m.request
          { σ.setShard m.shard s with replies := σ.replies ++ [⟨m, result⟩] }
  | .deliver i =>
      match σ.replies[i]? with
      | none => σ
      | some r => σ.proceed r.message.call fun p => p.receive cfg r.message.shard r.result
  | .fail call shard e => σ.proceed call fun p => p.giveUp cfg shard e
  | .undelete shard req disk => σ.setShard shard ((σ.shards shard).undelete req disk).1
  | .snapshot shard => σ.setShard shard (σ.shards shard).snapshot

/-- What handling a request does, if it is there. -/
theorem perform_handle (cfg : Config) (σ : State) (i : ℕ) (disk : Disk) :
    σ.perform cfg (.handle i disk) = σ ∧ σ.sent[i]? = none ∨
      ∃ m, σ.sent[i]? = some m ∧ σ.perform cfg (.handle i disk) =
        { σ.setShard m.shard (handle (σ.shards m.shard) disk m.request).1 with
          replies := σ.replies ++ [⟨m, (handle (σ.shards m.shard) disk m.request).2⟩] } := by
  cases hi : σ.sent[i]? with
  | none => exact Or.inl ⟨by simp only [perform, hi], rfl⟩
  | some m => exact Or.inr ⟨m, rfl, by simp only [perform, hi]⟩

/-- What delivering a reply does, if it is there. -/
theorem perform_deliver (cfg : Config) (σ : State) (i : ℕ) :
    σ.perform cfg (.deliver i) = σ ∨
      ∃ r ∈ σ.replies, σ.perform cfg (.deliver i) =
        σ.proceed r.message.call fun p => p.receive cfg r.message.shard r.result := by
  cases hi : σ.replies[i]? with
  | none => exact Or.inl (by simp only [perform, hi])
  | some r => exact Or.inr ⟨r, List.mem_of_getElem? hi, by simp only [perform, hi]⟩

/-- A run. -/
def run (cfg : Config) (σ : State) (steps : List Step) : State := steps.foldl (perform cfg) σ

end State

/-! ### What a run shows -/

namespace State

/-- Slot `i` of shard `s` holds a vector of the key. -/
def Copy (σ : State) (key : Label) (s i : ℕ) : Prop :=
  i < (σ.shards s).idx.idx.store.count ∧ (σ.shards s).idx.idx.store.labels i = key

/-- The only copy of the key in the cluster is tombstoned. -/
def Tombstoned (σ : State) (key : Label) : Prop :=
  ∃ s i, (∀ s' i', σ.Copy key s' i' ↔ s' = s ∧ i' = i) ∧
    (σ.shards s).idx.idx.store.deleted i = true

/-- Call `id` is a `Delete` of the key that was acknowledged. -/
def Acked (σ : State) (id : ℕ) (key : Label) : Prop :=
  σ.calls[id]? = some ⟨.delete ⟨some key⟩, .finished (.done (.ok ()))⟩

/-- Call `id` is a `Search` that returned `r`. -/
def Found (σ : State) (id : ℕ) (r : SearchResponse UInt32) : Prop :=
  ∃ req, σ.calls[id]? = some ⟨.search req, .finished (.found (.ok r))⟩

end State

/-- In the step a shard handles a request for call `d`. -/
def Step.Handles (σ : State) (d : ℕ) : Step → Prop
  | handle i _ => ∃ m, σ.sent[i]? = some m ∧ m.call = d
  | _ => False

/-- The step is an `Undelete` of the key. -/
def Step.Undeletes (key : Label) : Step → Prop
  | undelete _ req _ => req.key = some key
  | _ => False

/-- The cluster starts with empty shards. -/
def Fresh (shards : ℕ → Shard.Server) : Prop :=
  ∀ s, ∃ p seed ef, shards s = ⟨Durable.DurableIndex.fresh p seed, ef⟩

/-- **Cluster-wide key identity** in a run. -/
structure KeyIdentity (cfg : Config) (σ : State) (steps : List Step) : Prop where
  /-- a key is stored only on the shard that the router names, -/
  routed : ∀ key s i, (σ.run cfg steps).Copy key s i → s = cfg.router.shardFor key
  /-- and only once; -/
  once : ∀ key s i s' i', (σ.run cfg steps).Copy key s i → (σ.run cfg steps).Copy key s' i' →
    s = s' ∧ i = i'
  /-- an acknowledged `Delete` tombstoned the only copy of its key, which stays so until the key is
  undeleted; -/
  tombstones : ∀ d key, (σ.run cfg steps).Acked d key →
    ∃ x step y, steps = x ++ step :: y ∧ step.Handles (σ.run cfg x) d ∧
      ¬ (σ.run cfg x).Tombstoned key ∧
      ∀ z, z <+: y → (∀ step' ∈ z, ¬ step'.Undeletes key) →
        (σ.run cfg (x ++ step :: z)).Tombstoned key
  /-- no search returns a key twice; -/
  distinct : ∀ q r, (σ.run cfg steps).Found q r → (r.results.map Rpc.ScoredKey.key).Nodup
  /-- and none that was begun after an acknowledged `Delete` returns its key, unless it was undeleted
  after that `Delete` was begun. -/
  gone : ∀ w x y, steps = w ++ x ++ y → ∀ d key, (σ.run cfg w).calls.length ≤ d →
    (σ.run cfg (w ++ x)).Acked d key → (∀ step ∈ x ++ y, ¬ step.Undeletes key) →
    ∀ q r, (σ.run cfg (w ++ x)).calls.length ≤ q → (σ.run cfg steps).Found q r →
      key ∉ r.results.map Rpc.ScoredKey.key

/-- A new key comes to its shard while the ids of the shard, which have 32 bits, are not used up. -/
def Step.HasId (σ : State) : Step → Prop
  | handle i _ => ∀ m req key, σ.sent[i]? = some m → m.request = .insert req → req.key = some key →
      (σ.shards m.shard).idx.idx.store.hasLabel key = true ∨
        (σ.shards m.shard).idx.idx.store.count < 2 ^ 32
  | _ => True

/-- Every step of the run has an id for its key. -/
def HaveIds (cfg : Config) (σ : State) : List Step → Prop
  | [] => True
  | step :: steps => step.HasId σ ∧ HaveIds cfg (σ.perform cfg step) steps

end

end VectorSearch.Cluster
