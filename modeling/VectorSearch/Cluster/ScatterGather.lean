import VectorSearch.Cluster.Reads

/-! # The searches of a run are scatter-gather searches

A search in the cluster sends a request to every shard, takes their answers in the order in which they
come in, gives up on some, and ends with the last.  In between clients write, shards handle other
requests, and replies are late, repeated or lost.

`search_refines` says that all this is one `Search` of the coordinator on a pool of connections: each
connection fails, or it is to a shard as it was at some moment while the search was under way. -/

namespace VectorSearch.Cluster

open Coordinator (Gathered Pool)
open Hnsw (FloatOps Platform)
open Rpc (Answer SearchRequest Status)

section
variable [Platform UInt32] {cfg : Config} {σ : State} {steps : List Step} {step : Step}

/-! ### What the coordinator of a search knows -/

/-- A connection to a shard: how it answers a search. -/
abbrev Connection := SearchRequest → Answer UInt32

/-- The search is one over a pool of connections that all have the property, as far as it has come. -/
def Progress.Scatters (cfg : Config) (coordinator : ℕ) (req : Coordinator.SearchRequest)
    (P : ℕ → Connection → Prop) : Progress → Prop
  | waiting => False
  | gathering k allowPartial missing g => allowPartial = req.allowPartial ∧
      ∃ (ef : ℕ) (pool : Pool UInt32) (order : List ℕ), (cfg.coordinator coordinator).plan req = .ok (k, ef) ∧
        pool.numShards = cfg.router.numShards ∧
        (order ++ missing).Perm (List.range cfg.router.numShards) ∧
        (∀ s ∈ order, P s (pool.shard s)) ∧
        g = Coordinator.gather allowPartial (pool.answers req.query k ef) order
  | finished outcome => ∃ (pool : Pool UInt32) (order : List ℕ), pool.numShards = cfg.router.numShards ∧
      order.Perm (List.range cfg.router.numShards) ∧ (∀ s ∈ order, P s (pool.shard s)) ∧
      outcome = .found ((cfg.coordinator coordinator).search cfg.sort FloatOps.lt pool req order)

namespace Progress

variable {coordinator : ℕ} {req : Coordinator.SearchRequest} {P Q : ℕ → Connection → Prop}
  {p : Progress}

theorem Scatters.imp (h : p.Scatters cfg coordinator req P) (hPQ : ∀ s f, P s f → Q s f) :
    p.Scatters cfg coordinator req Q := by
  cases p with
  | waiting => exact h
  | gathering k allowPartial missing g =>
    obtain ⟨hallow, ef, pool, order, hplan, hnum, hperm, hP, hg⟩ := h
    exact ⟨hallow, ef, pool, order, hplan, hnum, hperm, fun s hs => hPQ _ _ (hP s hs), hg⟩
  | finished outcome =>
    obtain ⟨pool, order, hnum, hperm, hP, houtcome⟩ := h
    exact ⟨pool, order, hnum, hperm, fun s hs => hPQ _ _ (hP s hs), houtcome⟩

/-- **The answer of one more shard.** -/
theorem Scatters.gather {k : ℕ} {allowPartial : Bool} {missing : List ℕ} {g : Gathered UInt32}
    {shard : ℕ} {answer : Answer UInt32}
    (h : (gathering k allowPartial missing g).Scatters cfg coordinator req P)
    (hs : shard ∈ missing) {f : Connection} (hf : P shard f)
    (hanswer : ∀ ef, (cfg.coordinator coordinator).plan req = .ok (k, ef) →
      answer = f ⟨req.query, UInt32.ofNat k, UInt32.ofNat ef⟩) :
    (gather cfg k allowPartial missing g shard answer).Scatters cfg coordinator req P := by
  obtain ⟨hallow, ef, pool, order, hplan, hnum, hperm, hP, rfl⟩ := h
  have hnot : shard ∉ order := fun ho =>
    List.disjoint_of_nodup_append (hperm.nodup_iff.mpr List.nodup_range) ho hs
  let pool' : Pool UInt32 := { pool with shard := Function.update pool.shard shard f }
  have hold : ∀ s ∈ order, pool'.shard s = pool.shard s := fun s ho =>
    Function.update_of_ne (ne_of_mem_of_not_mem ho hnot) _ _
  have hnew : pool'.shard shard = f := Function.update_self _ _ _
  have hP' : ∀ s ∈ order ++ [shard], P s (pool'.shard s) := by
    intro s ho
    obtain ho | ho := List.mem_append.mp ho
    · rw [hold s ho]
      exact hP s ho
    · rw [List.mem_singleton.mp ho, hnew]
      exact hf
  have hperm' : (order ++ [shard] ++ missing.erase shard).Perm (List.range cfg.router.numShards) := by
    rw [List.append_assoc, List.singleton_append]
    exact ((List.perm_cons_erase hs).symm.append_left order).trans hperm
  have hg : (Coordinator.gather allowPartial (pool.answers req.query k ef) order).receive
      allowPartial shard answer =
        Coordinator.gather allowPartial (pool'.answers req.query k ef) (order ++ [shard]) := by
    have hsame : Coordinator.gather allowPartial (pool'.answers req.query k ef) order =
        Coordinator.gather allowPartial (pool.answers req.query k ef) order :=
      Coordinator.gather_congr allowPartial fun s ho => by
        unfold Pool.answers
        rw [hold s ho]
    have hthis : pool'.answers req.query k ef shard = answer := by
      unfold Pool.answers
      rw [hnew, hanswer ef hplan]
    rw [Coordinator.gather_concat, hsame, hthis]
  unfold Progress.gather
  simp only
  rw [hg]
  split_ifs with hlast
  · rw [hlast, List.append_nil] at hperm'
    refine ⟨pool', order ++ [shard], hnum, hperm', hP', ?_⟩
    simp only [Coordinator.Server.search, hplan, Coordinator.search, ← hallow]
    exact congrArg (fun n => Outcome.found (((Coordinator.gather allowPartial _ _).finish cfg.sort
      FloatOps.lt n k).map Coordinator.respond)) hnum.symm
  · exact ⟨hallow, ef, pool', order ++ [shard], hplan, hnum, hperm', hP', rfl⟩

theorem Scatters.receive (h : p.Scatters cfg coordinator req P) {shard : ℕ} {result : ShardReply}
    (hr : ∀ answer, result = .found answer → (∀ o, p ≠ .finished o) → ∃ f, P shard f ∧
      ∀ k ef, (cfg.coordinator coordinator).plan req = .ok (k, ef) →
        answer = f ⟨req.query, UInt32.ofNat k, UInt32.ofNat ef⟩) :
    (p.receive cfg shard result).Scatters cfg coordinator req P := by
  cases p with
  | waiting => exact h.elim
  | finished outcome => cases result <;> exact h
  | gathering k allowPartial missing g =>
    cases result with
    | done r => exact h
    | found answer =>
      simp only [Progress.receive]
      split_ifs with hs
      · obtain ⟨f, hf, hanswer⟩ := hr answer rfl nofun
        exact h.gather hs hf fun ef => hanswer k ef
      · exact h

theorem Scatters.giveUp (h : p.Scatters cfg coordinator req P) (shard : ℕ) {e : Status}
    (he : P shard fun _ => .error e) :
    (p.giveUp cfg shard e).Scatters cfg coordinator req P := by
  cases p with
  | waiting => exact h.elim
  | finished outcome => exact h
  | gathering k allowPartial missing g =>
    simp only [Progress.giveUp]
    split_ifs with hs
    · exact h.gather hs he fun _ _ => rfl
    · exact h

end Progress

/-! ### Runs -/

/-- The connection fails, or it is to the shard as it was at a moment of the run at which call `id`
was under way. -/
def Asked (cfg : Config) (σ : State) (steps : List Step) (id shard : ℕ) (f : Connection) : Prop :=
  (∃ e, f = fun _ => .error e) ∨ ∃ w y c, steps = w ++ y ∧ (σ.run cfg w).calls[id]? = some c ∧
    (∀ o, c.progress ≠ .finished o) ∧ f = ((σ.run cfg w).shards shard).search

/-- The answer was given by the shard of the request at a moment of the run. -/
def Given (cfg : Config) (σ : State) (steps : List Step) (m : Message) (answer : Answer UInt32) :
    Prop :=
  ∃ w y c req, steps = w ++ y ∧ (σ.run cfg w).calls[m.call]? = some c ∧ m.request = .search req ∧
    answer = ((σ.run cfg w).shards m.shard).search req

theorem Asked.append {id shard : ℕ} {f : Connection} (h : Asked cfg σ steps id shard f)
    (step : Step) : Asked cfg σ (steps ++ [step]) id shard f := by
  obtain herr | ⟨w, y, c, rfl, hrest⟩ := h
  · exact Or.inl herr
  · exact Or.inr ⟨w, y ++ [step], c, by simp, hrest⟩

theorem Given.append {m : Message} {answer : Answer UInt32} (h : Given cfg σ steps m answer)
    (step : Step) : Given cfg σ (steps ++ [step]) m answer := by
  obtain ⟨w, y, c, req, rfl, hrest⟩ := h
  exact ⟨w, y ++ [step], c, req, by simp, hrest⟩

/-- The requests for call `id` are those that the coordinator sends for the search. -/
def Sends (cfg : Config) (σ : State) (id coordinator : ℕ) (req : Coordinator.SearchRequest) : Prop :=
  ∀ m ∈ σ.sent, m.call = id → ∀ sreq, m.request = .search sreq →
    ∃ k ef, (cfg.coordinator coordinator).plan req = .ok (k, ef) ∧
      sreq = ⟨req.query, UInt32.ofNat k, UInt32.ofNat ef⟩

/-- Every search is one over connections to the shards, as far as it has come. -/
structure Scattering (cfg : Config) (σ : State) (steps : List Step) : Prop where
  known : ∀ m ∈ (σ.run cfg steps).sent, m.call < (σ.run cfg steps).calls.length
  replies : ∀ r ∈ (σ.run cfg steps).replies, r.message ∈ (σ.run cfg steps).sent ∧
    ∀ answer, r.result = .found answer → Given cfg σ steps r.message answer
  calls : ∀ (id : ℕ) (c : ClientCall) (req : Coordinator.SearchRequest),
    (σ.run cfg steps).calls[id]? = some c → c.request = .search req →
      ∃ coordinator, Sends cfg (σ.run cfg steps) id coordinator req ∧
        c.progress.Scatters cfg coordinator req (Asked cfg σ steps id)

/-- A request that was sent stays sent. -/
theorem mem_sent_perform (cfg : Config) (step : Step) {m : Message} (h : m ∈ σ.sent) :
    m ∈ (σ.perform cfg step).sent := by
  cases step with
  | call coordinator request => exact List.mem_append_left _ h
  | handle i disk =>
    obtain ⟨hsame, -⟩ | ⟨m', -, hstep⟩ := σ.perform_handle cfg i disk
    · rwa [hsame]
    · rwa [hstep]
  | deliver i =>
    obtain hsame | ⟨r, -, hstep⟩ := σ.perform_deliver cfg i
    · rwa [hsame]
    · rwa [hstep]
  | fail call shard e => exact h
  | undelete shard req disk => exact h
  | snapshot shard => exact h

theorem Scattering.known_concat (h : Scattering cfg σ steps) {m : Message}
    (hm : m ∈ (σ.run cfg (steps ++ [step])).sent) :
    m.call < (σ.run cfg (steps ++ [step])).calls.length := by
  rw [run_concat] at hm ⊢
  obtain hm | ⟨coordinator, request, rfl, hnew⟩ := sent_perform hm
  · obtain ⟨c', hc', -⟩ := call_perform cfg step (List.getElem?_eq_getElem (h.known m hm))
    exact (List.getElem?_eq_some_iff.mp hc').1
  · rw [((begin_spec cfg coordinator _ request).2.2 m hnew).1]
    simp only [State.perform]
    rw [List.length_append]
    exact Nat.lt_succ_self _

theorem Scattering.replies_concat (h : Scattering cfg σ steps) {r : Reply}
    (hr : r ∈ (σ.run cfg (steps ++ [step])).replies) :
    r.message ∈ (σ.run cfg (steps ++ [step])).sent ∧
      ∀ answer, r.result = .found answer → Given cfg σ (steps ++ [step]) r.message answer := by
  rw [run_concat] at hr ⊢
  obtain hr | ⟨i, disk, m, rfl, hi, rfl, -⟩ := mem_replies_perform hr
  · obtain ⟨hsent, hgiven⟩ := h.replies r hr
    exact ⟨mem_sent_perform cfg step hsent, fun answer ha => (hgiven answer ha).append step⟩
  · have hm := List.mem_of_getElem? hi
    refine ⟨mem_sent_perform cfg _ hm, fun answer ha => ?_⟩
    have hcall := List.getElem?_eq_getElem (h.known m hm)
    cases hreq : m.request with
    | insert req | delete req =>
      rw [hreq] at ha
      cases ha
    | search req =>
      rw [hreq] at ha
      exact ⟨steps, _, _, req, rfl, hcall, hreq, (ShardReply.found.inj ha).symm⟩

/-- A search that a coordinator takes. -/
theorem begin_scatters (cfg : Config) (coordinator id : ℕ)
    (req : Coordinator.SearchRequest) {P : ℕ → Connection → Prop}
    (hP : ∀ s e, P s fun _ => .error e) :
    (begin cfg coordinator id (.search req)).1.Scatters cfg coordinator req P ∧
      ∀ m ∈ (begin cfg coordinator id (.search req)).2, ∀ sreq, m.request = .search sreq →
        ∃ k ef, (cfg.coordinator coordinator).plan req = .ok (k, ef) ∧
          sreq = ⟨req.query, UInt32.ofNat k, UInt32.ofNat ef⟩ := by
  cases hplan : (cfg.coordinator coordinator).plan req with
  | error e =>
    simp only [begin, hplan]
    refine ⟨⟨⟨cfg.router.numShards, fun _ _ => .error e⟩, List.range cfg.router.numShards, rfl,
      List.Perm.refl _, fun s _ => hP s e, ?_⟩, fun m hm => absurd hm List.not_mem_nil⟩
    simp only [Coordinator.Server.search, hplan]
  | ok x =>
    obtain ⟨k, ef⟩ := x
    simp only [begin, hplan]
    refine ⟨⟨rfl, ef, ⟨cfg.router.numShards, fun _ _ => .error ⟨.unknown, ""⟩⟩, [], hplan, rfl,
      List.Perm.refl _, fun s hs => absurd hs List.not_mem_nil, rfl⟩,
      fun m hm sreq hreq => ⟨k, ef, rfl, ?_⟩⟩
    obtain ⟨shard, -, rfl⟩ := List.mem_map.mp hm
    exact (ShardRequest.search.inj hreq).symm

/-- A reply to a search is from a connection to its shard. -/
theorem Scattering.asked (h : Scattering cfg σ steps) {r : Reply}
    (hr : r ∈ (σ.run cfg steps).replies) {answer : Answer UInt32} (ha : r.result = .found answer)
    {c : ClientCall} (hc : (σ.run cfg steps).calls[r.message.call]? = some c)
    (hopen : ∀ o, c.progress ≠ .finished o) {coordinator : ℕ} {req : Coordinator.SearchRequest}
    (hsends : Sends cfg (σ.run cfg steps) r.message.call coordinator req) :
    ∃ f, Asked cfg σ steps r.message.call r.message.shard f ∧
      ∀ k ef, (cfg.coordinator coordinator).plan req = .ok (k, ef) →
        answer = f ⟨req.query, UInt32.ofNat k, UInt32.ofNat ef⟩ := by
  obtain ⟨hsent, hgiven⟩ := h.replies r hr
  obtain ⟨w, y, c₀, sreq, rfl, hc₀, hreq, rfl⟩ := hgiven answer ha
  obtain ⟨k, ef, hplan, rfl⟩ := hsends _ hsent rfl sreq hreq
  refine ⟨_, Or.inr ⟨w, y, c₀, rfl, hc₀, fun o ho => hopen o ?_, rfl⟩, fun k' ef' hplan' => ?_⟩
  · rw [run_append] at hc
    exact finished_run hc₀ ho hc
  · rw [hplan] at hplan'
    obtain ⟨rfl, rfl⟩ := Prod.mk.inj (Except.ok.inj hplan')
    rfl

/-- Later calls send nothing for this one. -/
theorem Sends.perform {id coordinator : ℕ} {req : Coordinator.SearchRequest}
    (h : Sends cfg σ id coordinator req)
    (hid : id < σ.calls.length) (step : Step) :
    Sends cfg (σ.perform cfg step) id coordinator req := by
  intro m hm hcall sreq hreq
  obtain hm | ⟨coordinator', request, -, hnew⟩ := sent_perform hm
  · exact h m hm hcall sreq hreq
  · have hlast := ((begin_spec cfg coordinator' σ.calls.length request).2.2 m hnew).1
    omega

theorem Scattering.calls_concat (h : Scattering cfg σ steps) {id : ℕ} {c : ClientCall}
    {req : Coordinator.SearchRequest} (hc : (σ.run cfg (steps ++ [step])).calls[id]? = some c)
    (hreq : c.request = .search req) :
    ∃ coordinator, Sends cfg (σ.run cfg (steps ++ [step])) id coordinator req ∧
      c.progress.Scatters cfg coordinator req (Asked cfg σ (steps ++ [step]) id) := by
  -- what held before still holds
  have hold : ∀ {c : ClientCall}, (σ.run cfg steps).calls[id]? = some c → c.request = .search req →
      ∃ coordinator, Sends cfg (σ.run cfg steps) id coordinator req ∧
        Sends cfg (σ.run cfg (steps ++ [step])) id coordinator req ∧
        c.progress.Scatters cfg coordinator req (Asked cfg σ (steps ++ [step]) id) := by
    intro c hc hreq
    obtain ⟨coordinator, hsends, hscatters⟩ := h.calls id c req hc hreq
    refine ⟨coordinator, hsends, ?_, hscatters.imp fun s f hf => hf.append step⟩
    rw [run_concat]
    exact hsends.perform (List.getElem?_eq_some_iff.mp hc).1 step
  have hsame : (σ.run cfg steps).calls[id]? = some c → ∃ coordinator,
      Sends cfg (σ.run cfg (steps ++ [step])) id coordinator req ∧
        c.progress.Scatters cfg coordinator req (Asked cfg σ (steps ++ [step]) id) := fun hc => by
    obtain ⟨coordinator, -, hsends, hscatters⟩ := hold hc hreq
    exact ⟨coordinator, hsends, hscatters⟩
  rw [run_concat] at hc
  cases step with
  | call coordinator request =>
    have hc : ((σ.run cfg steps).calls ++ [(⟨request,
      (begin cfg coordinator (σ.run cfg steps).calls.length request).1⟩ : ClientCall)])[id]? =
        some c := hc
    rw [List.getElem?_append] at hc
    split_ifs at hc with hlt
    · exact hsame hc
    · -- the new call
      have hlen : id = (σ.run cfg steps).calls.length := by
        obtain ⟨hlen, -⟩ := List.getElem?_eq_some_iff.mp hc
        rw [List.length_singleton] at hlen
        omega
      obtain rfl := List.mem_singleton.mp (List.mem_of_getElem? hc)
      obtain rfl : request = .search req := hreq
      obtain ⟨hscatters, hsends⟩ := begin_scatters cfg coordinator (σ.run cfg steps).calls.length req
        (P := Asked cfg σ (steps ++ [.call coordinator (.search req)]) id)
        fun _ e => Or.inl ⟨e, rfl⟩
      refine ⟨coordinator, fun m hm hcall sreq hsreq => ?_, hscatters⟩
      rw [run_concat] at hm
      obtain hm | hm := List.mem_append.mp hm
      · have hlt := h.known m hm
        omega
      · exact hsends m hm sreq hsreq
  | handle i disk =>
    obtain ⟨hstay, -⟩ | ⟨m, -, hstep⟩ := (σ.run cfg steps).perform_handle cfg i disk
    · exact hsame (hstay ▸ hc)
    · rw [hstep] at hc
      exact hsame hc
  | deliver i =>
    obtain hstay | ⟨r, hr, hstep⟩ := (σ.run cfg steps).perform_deliver cfg i
    · exact hsame (hstay ▸ hc)
    · rw [hstep] at hc
      obtain ⟨c', hc', hprogress, hrequest⟩ := getElem?_proceed hc
      obtain ⟨coordinator, hsends, hsends', hscatters⟩ := hold hc' (hrequest ▸ hreq)
      refine ⟨coordinator, hsends', ?_⟩
      rw [hprogress]
      split_ifs with hid
      · subst hid
        refine hscatters.receive fun answer ha hopen => ?_
        obtain ⟨f, hf, hanswer⟩ := h.asked hr ha hc' hopen hsends
        exact ⟨f, hf.append _, hanswer⟩
      · exact hscatters
  | fail call shard e =>
    obtain ⟨c', hc', hprogress, hrequest⟩ := getElem?_proceed hc
    obtain ⟨coordinator, -, hsends', hscatters⟩ := hold hc' (hrequest ▸ hreq)
    refine ⟨coordinator, hsends', ?_⟩
    rw [hprogress]
    split_ifs
    · exact hscatters.giveUp shard (Or.inl ⟨e, rfl⟩)
    · exact hscatters
  | undelete shard req disk => exact hsame hc
  | snapshot shard => exact hsame hc

/-- **Every run scatters and gathers.** -/
theorem scattering_run (cfg : Config) (shards : ℕ → Shard.Server) (steps : List Step) :
    Scattering cfg (State.start shards) steps := by
  induction steps using List.reverseRecOn with
  | nil =>
    exact ⟨fun m hm => absurd hm List.not_mem_nil, fun r hr => absurd hr List.not_mem_nil,
      fun id c req hc => nomatch hc⟩
  | append_singleton steps step ih =>
    exact ⟨fun m hm => ih.known_concat hm, fun r hr => ih.replies_concat hr,
      fun id c req hc hreq => ih.calls_concat hc hreq⟩

/-- **A search in the cluster is a search of the coordinator on a pool of connections**, each of
which fails or is to a shard as it was at some moment while the search was under way. -/
theorem search_refines (shards : ℕ → Shard.Server) {id : ℕ} {req : Coordinator.SearchRequest}
    {o : Outcome} (hc : ((State.start shards).run cfg steps).calls[id]? =
      some ⟨.search req, .finished o⟩) :
    ∃ coordinator pool order, pool.numShards = cfg.router.numShards ∧
      order.Perm (List.range cfg.router.numShards) ∧
      o = .found ((cfg.coordinator coordinator).search cfg.sort FloatOps.lt pool req order) ∧
      ∀ s < cfg.router.numShards, Asked cfg (State.start shards) steps id s (pool.shard s) := by
  obtain ⟨coordinator, -, pool, order, hnum, hperm, hasked, ho⟩ :=
    (scattering_run cfg shards steps).calls id _ req hc rfl
  exact ⟨coordinator, pool, order, hnum, hperm, ho, fun s hs =>
    hasked s (hperm.mem_iff.mpr (List.mem_range.mpr hs))⟩

end

/-- One of two shards answers a search, the other one after the coordinator has given up on it. -/
def partlyDown : List Step := [.call 0 (.insert ⟨some ⟨1, 1⟩, [1]⟩), .handle 0 Shard.Disk.ok,
  .call 0 (.search ⟨[1], 1, 0, true⟩), .handle 1 Shard.Disk.ok, .handle 2 Shard.Disk.ok, .deliver 2,
  .fail 1 0 ⟨.unavailable, "down"⟩, .deliver 1]

open Hnsw.StandIn in
theorem search_refines_down :
    ∃ coordinator pool order, pool.numShards = 2 ∧ order.Perm (List.range 2) ∧
      Outcome.found (.ok ⟨[⟨⟨1, 1⟩, 0⟩], 2, 1⟩) = .found ((twoShards.coordinator coordinator).search
        twoShards.sort FloatOps.lt pool ⟨[1], 1, 0, true⟩ order) ∧
      ∀ s < 2, Asked twoShards (State.start emptyShards) partlyDown 1 s (pool.shard s) := by
  have hfinish : (Gathered.finish twoShards.sort FloatOps.lt 2 1
      ⟨[(⟨⟨1, 1⟩, 0, 1⟩ : Coordinator.Candidate UInt32)], 1, none⟩).map Coordinator.respond =
        .ok ⟨[⟨⟨1, 1⟩, 0⟩], 2, 1⟩ := by
    simp only [Gathered.finish, twoShards, Coordinator.SortSlice.merge, List.mergeSort_singleton]
    rfl
  have hc : ((State.start emptyShards).run twoShards partlyDown).calls[1]? =
      some ⟨.search ⟨[1], 1, 0, true⟩, .finished (.found (.ok ⟨[⟨⟨1, 1⟩, 0⟩], 2, 1⟩))⟩ := by
    rw [← hfinish]
    rfl
  exact search_refines emptyShards hc

end VectorSearch.Cluster
