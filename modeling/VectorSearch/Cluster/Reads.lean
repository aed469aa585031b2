import VectorSearch.Cluster.History

/-! # What a search of the cluster reads

The shards answer a search one after the other while writes go on, so an answer is no picture of one
state.  But each of its results was true at some moment of the search: its key was live then, with a
vector at that distance from the query (`search_results_current`). -/

namespace VectorSearch.Hnsw.Index

open Links

variable {F : Type} [Platform F] {idx : Index F}

/-- Each result of a search is a live node with its distance. -/
theorem Searchable.search_stored (h : idx.Searchable) (query : List F) {k ef : ℕ} (hk : 0 < k) :
    ∀ x ∈ idx.search query k ef, ∃ v, idx.store.keyMap x.1 = some (v, false) ∧
      x.2 = rawDistance idx.params.space (idx.params.prepare query) v := by
  intro x hx
  unfold search at hx
  obtain hzero | hpos := Nat.eq_zero_or_pos idx.store.count
  · rw [if_pos hzero] at hx
    cases hx
  rw [if_neg (Nat.ne_of_gt hpos)] at hx
  split_ifs at hx with hnone
  · cases hx
  set q := idx.params.prepare query
  obtain ⟨-, -, hfound⟩ := Graph.searchLayer_sound idx.params
    (fun id => rawDistance idx.params.space q (idx.store.data id))
    (fun id => ! idx.store.deleted id) idx.graph (idx.landing q) 0
    (lt_of_lt_of_le hk (le_max_right ef k))
  obtain ⟨c, hc, rfl⟩ := List.mem_map.mp hx
  have hsub := (maxHeap F).iterate_tail_subperm (idx.searchBase q (max ef k))
    ((maxHeap F).size (idx.searchBase q (max ef k)) - k)
  have hmem := hsub.subset (((maxHeap F).drain_perm _).mem_iff.mp (List.mem_reverse.mp hc))
  obtain ⟨hreach, hdist, hlive⟩ := hfound c hmem
  have hid : c.2 < idx.store.count := hreach.mem_of_closed
    (fun a _ v hv => h.grounded a v hv) (h.landing_lt hpos q)
  have hdel : idx.store.deleted c.2 = false := by simpa using hlive
  exact ⟨_, (Store.keyMap_of_id (h.wellFormed.store.id_of_label hid)).trans (by rw [hdel]), hdist⟩

end VectorSearch.Hnsw.Index

namespace VectorSearch.Shard.Server

open Hnsw (Platform)
open Rpc (ScoredKey SearchRequest)

variable [Platform UInt32] {s : Server}

/-- The `ef` of a search. -/
def beam (s : Server) (req : SearchRequest) : ℕ := if req.ef = 0 then s.defaultEf else req.ef.toNat

/-- A search that succeeds returns what the index found. -/
theorem search_ok {req : SearchRequest} {l : List (ScoredKey UInt32)} (hl : s.search req = .ok l) :
    0 < req.k.toNat ∧ ∃ results,
      s.idx.idx.goSearch req.query req.k.toNat (s.beam req) = .ok results ∧
        l = results.map fun r => ⟨r.1, r.2⟩ := by
  unfold Server.search at hl
  by_cases hquery : req.query.length = 0
  · rw [if_pos hquery] at hl
    cases hl
  by_cases hdim : req.query.length ≠ s.idx.idx.params.dim
  · rw [if_neg hquery, if_pos hdim] at hl
    cases hl
  by_cases hk : req.k = 0
  · rw [if_neg hquery, if_neg hdim, if_pos hk] at hl
    cases hl
  rw [if_neg hquery, if_neg hdim, if_neg hk] at hl
  refine ⟨Nat.pos_of_ne_zero fun h0 => hk (UInt32.toNat_inj.mp h0), ?_⟩
  unfold beam
  simp only at hl
  cases hres : s.idx.idx.goSearch req.query req.k.toNat
      (if req.ef = 0 then s.defaultEf else req.ef.toNat) with
  | error e =>
    rw [hres] at hl
    cases hl
  | ok results =>
    rw [hres] at hl
    cases hl
    exact ⟨results, rfl, rfl⟩

/-- Each result of a shard is a live key with its distance. -/
theorem Sound.search_stored (h : s.Sound) {req : SearchRequest} {l : List (ScoredKey UInt32)}
    (hl : s.search req = .ok l) : ∀ x ∈ l, ∃ v, s.entry x.key = some (v, false) ∧
      x.distance = Hnsw.rawDistance s.params.space (s.params.prepare req.query) v := by
  obtain ⟨hk, results, hres, rfl⟩ := search_ok hl
  intro x hx
  obtain ⟨r, hr, rfl⟩ := List.mem_map.mp hx
  exact Hnsw.Index.Searchable.search_stored h req.query hk r
    ((Hnsw.Index.goSearch_ok hres).subset hr)

end VectorSearch.Shard.Server

namespace VectorSearch.Cluster

open Coordinator (Candidate Gathered SearchResponse candidates)
open Hnsw (FloatOps Label Platform)
open Rpc (Answer ScoredKey Status)

section
variable [Platform UInt32] {cfg : Config} {σ : State} {steps : List Step} {step : Step}

/-! ### What is gathered -/

/-- What a search has gathered or returned has the property. -/
def Progress.All (P : Label → UInt32 → Prop) : Progress → Prop
  | gathering _ _ _ g => ∀ c ∈ g.all, P c.key c.distance
  | finished (.found (.ok r)) => ∀ x ∈ r.results, P x.key x.distance
  | _ => True

namespace Progress

variable {P Q : Label → UInt32 → Prop} {p : Progress}

omit [Platform UInt32] in
theorem All.imp (h : p.All P) (hPQ : ∀ key d, P key d → Q key d) : p.All Q := by
  cases p with
  | waiting => trivial
  | gathering k allowPartial missing g => exact fun c hc => hPQ _ _ (h c hc)
  | finished outcome =>
    cases outcome with
    | done result => trivial
    | found result =>
      cases result with
      | error e => trivial
      | ok r => exact fun x hx => hPQ _ _ (h x hx)

/-- An answer of a shard comes in. -/
theorem All.gather {k : ℕ} {allowPartial : Bool} {missing : List ℕ} {g : Gathered UInt32}
    {shard : ℕ} {answer : Answer UInt32} (h : (gathering k allowPartial missing g).All P)
    (ha : ∀ l, answer = .ok l → ∀ x ∈ l, P x.key x.distance) :
    (gather cfg k allowPartial missing g shard answer).All P := by
  have hall : ∀ c ∈ (g.receive allowPartial shard answer).all, P c.key c.distance := by
    rw [all_receive]
    intro c hc
    obtain hc | hc := List.mem_append.mp hc
    · exact h c hc
    · cases answer with
      | error e => cases hc
      | ok l =>
        obtain ⟨x, hx, rfl⟩ := List.mem_map.mp hc
        exact ha l rfl x hx
  unfold Progress.gather
  simp only
  split_ifs with hlast
  · cases hres : (g.receive allowPartial shard answer).finish cfg.sort FloatOps.lt
        cfg.router.numShards k with
    | error e => trivial
    | ok result =>
      intro x hx
      obtain ⟨-, rfl⟩ := Coordinator.finish_eq_ok.mp hres
      obtain ⟨c, hc, rfl⟩ := List.mem_map.mp hx
      exact hall c ((cfg.sort.perm _ _).mem_iff.mp (List.mem_of_mem_take hc))
  · exact hall

theorem All.receive (h : p.All P) {shard : ℕ} {result : ShardReply}
    (hr : ∀ l, result = .found (.ok l) → ∀ x ∈ l, (∀ o, p ≠ .finished o) → P x.key x.distance) :
    (p.receive cfg shard result).All P := by
  obtain hsame | ⟨r, -, hdone⟩ | ⟨k, allowPartial, missing, g, answer, rfl, -, rfl, hgather⟩ :=
    receive_cases cfg p shard result
  · rwa [hsame]
  · rw [hdone]
    trivial
  · rw [hgather]
    exact h.gather fun l hl x hx => hr l (congrArg ShardReply.found hl) x hx nofun

theorem All.giveUp (h : p.All P) (shard : ℕ) (e : Status) : (p.giveUp cfg shard e).All P := by
  obtain hsame | hdone | ⟨k, allowPartial, missing, g, rfl, -, hgather⟩ :=
    giveUp_cases cfg p shard e
  · rwa [hsame]
  · rw [hdone]
    trivial
  · rw [hgather]
    exact h.gather fun l hl => nomatch hl

end Progress

/-! ### Runs -/

/-- At some moment of the run call `id` was searching for the query, and the key was live with a
vector at that distance. -/
def Shown (cfg : Config) (σ : State) (steps : List Step) (id : ℕ) (key : Label) (d : UInt32) :
    Prop :=
  ∃ w y req p v, steps = w ++ y ∧ (σ.run cfg w).calls[id]? = some ⟨.search req, p⟩ ∧
    (∀ o, p ≠ .finished o) ∧ (σ.run cfg w).keyMap cfg key = some (v, false) ∧
      d = Hnsw.rawDistance ((σ.run cfg w).shards (cfg.router.shardFor key)).params.space
        (((σ.run cfg w).shards (cfg.router.shardFor key)).params.prepare req.query) v

/-- The same of a request that a shard answered, whether or not the search still waits for it. -/
def Answered (cfg : Config) (σ : State) (steps : List Step) (m : Message) (key : Label)
    (d : UInt32) : Prop :=
  ∃ w y req c v, steps = w ++ y ∧ (σ.run cfg w).calls[m.call]? = some c ∧
    m.request = .search req ∧ (σ.run cfg w).keyMap cfg key = some (v, false) ∧
      d = Hnsw.rawDistance ((σ.run cfg w).shards (cfg.router.shardFor key)).params.space
        (((σ.run cfg w).shards (cfg.router.shardFor key)).params.prepare req.query) v

theorem Shown.append {id : ℕ} {key : Label} {d : UInt32} (h : Shown cfg σ steps id key d)
    (step : Step) : Shown cfg σ (steps ++ [step]) id key d := by
  obtain ⟨w, y, req, p, v, rfl, hrest⟩ := h
  exact ⟨w, y ++ [step], req, p, v, by simp, hrest⟩

theorem Answered.append {m : Message} {key : Label} {d : UInt32}
    (h : Answered cfg σ steps m key d) (step : Step) : Answered cfg σ (steps ++ [step]) m key d := by
  obtain ⟨w, y, req, c, v, rfl, hrest⟩ := h
  exact ⟨w, y ++ [step], req, c, v, by simp, hrest⟩

/-- A call that has finished stays so. -/
theorem finished_run {id : ℕ} {c c' : ClientCall} {o : Outcome} (hc : σ.calls[id]? = some c)
    (ho : c.progress = .finished o) (hc' : (σ.run cfg steps).calls[id]? = some c') :
    c'.progress = .finished o := by
  induction steps generalizing σ c with
  | nil =>
    obtain rfl := Option.some.inj (hc.symm.trans hc')
    exact ho
  | cons step steps ih =>
    have hnext : ∃ c₁, (σ.perform cfg step).calls[id]? = some c₁ ∧ c₁.progress = .finished o := by
      obtain hsame | ⟨coordinator, request, hnew⟩ | ⟨j, f, hstep, hfinished, -, -⟩ :=
        calls_perform cfg σ step
      · exact ⟨c, hsame ▸ hc, ho⟩
      · refine ⟨c, ?_, ho⟩
        rw [hnew, List.getElem?_append_left (List.getElem?_eq_some_iff.mp hc).1, hc]
      · rw [hstep]
        simp only [State.proceed, List.getElem?_modify, hc, Option.map_eq_map, Option.map_some]
        refine ⟨_, rfl, ?_⟩
        split_ifs
        · simp only [ho, hfinished]
        · exact ho
    obtain ⟨c₁, hc₁, ho₁⟩ := hnext
    exact ih hc₁ ho₁ hc'

omit [Platform UInt32] in
/-- What a coordinator begins has gathered nothing, and its searches are for the query. -/
theorem begin_search (cfg : Config) (coordinator id : ℕ) (request : Request)
    (P : Label → UInt32 → Prop) : (begin cfg coordinator id request).1.All P ∧
      ∀ m ∈ (begin cfg coordinator id request).2, ∀ req, m.request = .search req →
        ∃ creq, request = .search creq ∧ req.query = creq.query := by
  cases request with
  | insert req =>
    cases hroute : (cfg.coordinator coordinator).routeInsert req <;>
      simp [begin, hroute, Progress.All]
  | delete req =>
    cases hroute : (cfg.coordinator coordinator).routeDelete req <;>
      simp [begin, hroute, Progress.All]
  | search req =>
    cases hplan : (cfg.coordinator coordinator).plan req with
    | error e => simp [begin, hplan, Progress.All]
    | ok x =>
      simp only [begin, hplan]
      refine ⟨fun c hc => absurd hc List.not_mem_nil, fun m hm req' hreq => ?_⟩
      obtain ⟨shard, -, rfl⟩ := List.mem_map.mp hm
      cases hreq
      exact ⟨req, rfl, rfl⟩

/-- What the replies and the searches of a run have of the map. -/
structure Reading (cfg : Config) (σ : State) (steps : List Step) : Prop where
  asks : ∀ m ∈ (σ.run cfg steps).sent, ∀ req, m.request = .search req →
    ∃ c creq, (σ.run cfg steps).calls[m.call]? = some c ∧ c.request = .search creq ∧
      req.query = creq.query
  replies : ∀ r ∈ (σ.run cfg steps).replies, ∀ l, r.result = .found (.ok l) → ∀ x ∈ l,
    Answered cfg σ steps r.message x.key x.distance
  calls : ∀ (id : ℕ) (c : ClientCall), (σ.run cfg steps).calls[id]? = some c →
    c.progress.All (Shown cfg σ steps id)

/-- A step sends requests only when a call begins. -/
theorem sent_perform {m : Message} (h : m ∈ (σ.perform cfg step).sent) : m ∈ σ.sent ∨
    ∃ coordinator request, step = .call coordinator request ∧
      m ∈ (begin cfg coordinator σ.calls.length request).2 := by
  cases step with
  | call coordinator request =>
    exact (List.mem_append.mp h).imp_right fun h => ⟨coordinator, request, rfl, h⟩
  | handle i disk =>
    obtain ⟨hsame, -⟩ | ⟨m', -, hstep⟩ := σ.perform_handle cfg i disk
    · exact Or.inl (hsame ▸ h)
    · rw [hstep] at h
      exact Or.inl h
  | deliver i =>
    obtain hsame | ⟨r, -, hstep⟩ := σ.perform_deliver cfg i
    · exact Or.inl (hsame ▸ h)
    · rw [hstep] at h
      exact Or.inl h
  | fail call shard e => exact Or.inl h
  | undelete shard req disk => exact Or.inl h
  | snapshot shard => exact Or.inl h

theorem Reading.asks_concat (h : Reading cfg σ steps) {m : Message} (hm : m ∈ (σ.run cfg (steps ++ [step])).sent) {req : Rpc.SearchRequest}
    (hreq : m.request = .search req) :
    ∃ c creq, (σ.run cfg (steps ++ [step])).calls[m.call]? = some c ∧
      c.request = .search creq ∧ req.query = creq.query := by
  rw [run_concat] at hm ⊢
  obtain hm | ⟨coordinator, request, rfl, hnew⟩ := sent_perform hm
  · obtain ⟨c, creq, hc, hcreq, hquery⟩ := h.asks m hm req hreq
    obtain ⟨c', hc', hsame, -⟩ := call_perform cfg step hc
    exact ⟨c', creq, hc', hsame.trans hcreq, hquery⟩
  · obtain ⟨creq, rfl, hquery⟩ := (begin_search cfg coordinator _ request fun _ _ => True).2 m hnew
      req hreq
    have hcall := ((begin_spec cfg coordinator (σ.run cfg steps).calls.length
      (.search creq)).2.2 m hnew).1
    have hlast : ((σ.run cfg steps).perform cfg (.call coordinator (.search creq))).calls[m.call]? =
        some ⟨.search creq, (begin cfg coordinator (σ.run cfg steps).calls.length
          (.search creq)).1⟩ := by
      simp only [State.perform]
      rw [hcall, List.getElem?_concat_length]
    exact ⟨_, creq, hlast, rfl, hquery⟩

/-- A search that a shard answers reads the map as it is. -/
theorem Reading.replies_concat (h : Reading cfg σ steps) (hsound : (σ.run cfg steps).Sound cfg)
    {r : Reply} (hr : r ∈ (σ.run cfg (steps ++ [step])).replies) {l : List (ScoredKey UInt32)}
    (hl : r.result = .found (.ok l)) {x : ScoredKey UInt32} (hx : x ∈ l) :
    Answered cfg σ (steps ++ [step]) r.message x.key x.distance := by
  rw [run_concat] at hr
  obtain hr | ⟨i, disk, m, rfl, hi, rfl, -⟩ := mem_replies_perform hr
  · exact (h.replies r hr l hl x hx).append step
  · obtain ⟨c, hc, -⟩ := hsound.sent m (List.mem_of_getElem? hi)
    cases hreq : m.request with
    | insert req =>
      rw [hreq] at hl
      cases hl
    | delete req =>
      rw [hreq] at hl
      cases hl
    | search req =>
      rw [hreq] at hl
      obtain ⟨v, hv, hd⟩ := (hsound.shards m.shard).search_stored (ShardReply.found.inj hl) x hx
      have hshard := hsound.routed m.shard x.key (hv ▸ rfl)
      rw [hshard] at hv hd
      exact ⟨steps, _, req, c, v, rfl, hc, hreq, hv, hd⟩

omit [Platform UInt32] in
/-- A call that comes further. -/
theorem getElem?_proceed {id j : ℕ} {f : Progress → Progress} {c : ClientCall}
    (hc : (σ.proceed id f).calls[j]? = some c) : ∃ c', σ.calls[j]? = some c' ∧
      c.progress = (if id = j then f c'.progress else c'.progress) ∧ c'.request = c.request := by
  simp only [State.proceed, List.getElem?_modify, Option.map_eq_map, Option.map_eq_some_iff] at hc
  obtain ⟨c', hc', rfl⟩ := hc
  refine ⟨c', hc', ?_, ?_⟩ <;> split_ifs <;> rfl

theorem Reading.calls_concat (h : Reading cfg σ steps) (hsound : (σ.run cfg steps).Sound cfg) {id : ℕ} {c : ClientCall}
    (hc : (σ.run cfg (steps ++ [step])).calls[id]? = some c) :
    c.progress.All (Shown cfg σ (steps ++ [step]) id) := by
  have hold : ∀ {c : ClientCall}, (σ.run cfg steps).calls[id]? = some c →
      c.progress.All (Shown cfg σ (steps ++ [step]) id) := fun hc =>
    (h.calls id _ hc).imp fun _ _ hshown => hshown.append step
  rw [run_concat] at hc
  cases step with
  | call coordinator request =>
    have hc : ((σ.run cfg steps).calls ++ [(⟨request,
      (begin cfg coordinator (σ.run cfg steps).calls.length request).1⟩ : ClientCall)])[id]? =
        some c := hc
    rw [List.getElem?_append] at hc
    split_ifs at hc
    · exact hold hc
    · rw [List.mem_singleton.mp (List.mem_of_getElem? hc)]
      exact (begin_search cfg coordinator _ request _).1
  | handle i disk =>
    obtain ⟨hsame, -⟩ | ⟨m, -, hstep⟩ := (σ.run cfg steps).perform_handle cfg i disk
    · exact hold (hsame ▸ hc)
    · rw [hstep] at hc
      exact hold hc
  | deliver i =>
    obtain hsame | ⟨r, hr, hstep⟩ := (σ.run cfg steps).perform_deliver cfg i
    · exact hold (hsame ▸ hc)
    · rw [hstep] at hc
      obtain ⟨c', hc', hprogress, -⟩ := getElem?_proceed hc
      rw [hprogress]
      split_ifs with hid
      · subst hid
        refine (hold hc').receive fun l hl x hx hopen => ?_
        -- the search waited for this answer all the time
        obtain ⟨w, y, req, c₀, v, rfl, hc₀, hreq, hv, hd⟩ := h.replies r hr l hl x hx
        obtain ⟨c₁, creq, hc₁, hcreq, hquery⟩ := h.asks r.message (hsound.replies r hr).1 req hreq
        obtain ⟨c₂, hc₂, hsame, -⟩ := call_run cfg y hc₀
        rw [← run_append, hc₁] at hc₂
        obtain rfl := Option.some.inj hc₂
        have hc₀' : c₀ = ⟨.search creq, c₀.progress⟩ := by
          cases c₀
          simp only at hsame
          rw [← hsame, hcreq]
        rw [hc₀'] at hc₀
        rw [hquery] at hd
        refine ⟨w, y ++ [.deliver i], creq, c₀.progress, v, by simp, hc₀, fun o ho => hopen o ?_, hv, hd⟩
        rw [run_append] at hc'
        exact finished_run hc₀ ho hc'
      · exact hold hc'
  | fail call shard e =>
    obtain ⟨c', hc', hprogress, -⟩ := getElem?_proceed hc
    rw [hprogress]
    split_ifs
    · exact (hold hc').giveUp shard e
    · exact hold hc'
  | undelete shard req disk => exact hold hc
  | snapshot shard => exact hold hc

theorem State.Sound.reading (h : σ.Sound cfg) (hsent : σ.sent = []) (hreplies : σ.replies = [])
    (hcalls : σ.calls = []) (hids : HaveIds cfg σ steps) : Reading cfg σ steps := by
  induction steps using List.reverseRecOn with
  | nil =>
    refine ⟨fun m hm => ?_, fun r hr => ?_, fun id c hc => ?_⟩
    · have hm : m ∈ σ.sent := hm
      rw [hsent] at hm
      cases hm
    · have hr : r ∈ σ.replies := hr
      rw [hreplies] at hr
      cases hr
    · have hc : σ.calls[id]? = some c := hc
      rw [hcalls] at hc
      cases hc
  | append_singleton steps step ih =>
    have hids' := (haveIds_append.mp hids).1
    have hbefore := ih hids'
    have hsound := h.run hids'
    exact ⟨fun m hm req hreq => hbefore.asks_concat hm hreq,
      fun r hr l hl x hx => hbefore.replies_concat hsound hr hl hx,
      fun id c hc => hbefore.calls_concat hsound hc⟩

/-- **Each result of a search was true at some moment of it**: while the call was under way its key
was live in the map of the cluster, with a vector at that distance from the query. -/
theorem search_results_current {shards : ℕ → Shard.Server} (hfresh : Fresh shards)
    (hids : HaveIds cfg (State.start shards) steps) {id : ℕ} {req : Coordinator.SearchRequest}
    {r : SearchResponse UInt32}
    (hc : ((State.start shards).run cfg steps).calls[id]? =
      some ⟨.search req, .finished (.found (.ok r))⟩) {x : ScoredKey UInt32} (hx : x ∈ r.results) :
    ∃ w y p v, steps = w ++ y ∧
      ((State.start shards).run cfg w).calls[id]? = some ⟨.search req, p⟩ ∧
      (∀ o, p ≠ .finished o) ∧
      ((State.start shards).run cfg w).keyMap cfg x.key = some (v, false) ∧
      x.distance = Hnsw.rawDistance (shards (cfg.router.shardFor x.key)).params.space
        ((shards (cfg.router.shardFor x.key)).params.prepare req.query) v := by
  have hsound := sound_start hfresh cfg
  have hreading := hsound.reading rfl rfl rfl hids
  obtain ⟨w, y, req', p, v, rfl, hw, hopen, hv, hd⟩ := hreading.calls id _ hc x hx
  obtain ⟨c, hc', hsame, -⟩ := call_run cfg y hw
  rw [← run_append, hc] at hc'
  obtain rfl := Option.some.inj hc'
  obtain rfl : req = req' := Request.search.inj hsame
  rw [hsound.params_run (haveIds_append.mp hids).1] at hd
  exact ⟨w, y, p, v, rfl, hw, hopen, hv, hd⟩

end

open Hnsw.StandIn in
/-- A key is inserted, searched for, and deleted before the answer arrives. -/
theorem search_results_current_deleted :
    let steps : List Step := [.call 0 (.insert ⟨some ⟨1, 1⟩, [1]⟩), .handle 0 Shard.Disk.ok,
      .call 1 (.search ⟨[1], 1, 0, false⟩), .handle 1 Shard.Disk.ok,
      .call 0 (.delete ⟨some ⟨1, 1⟩⟩), .handle 2 Shard.Disk.ok, .deliver 1]
    ∃ w y p v, steps = w ++ y ∧ ((State.start emptyShards).run oneShard w).calls[1]? =
        some ⟨.search ⟨[1], 1, 0, false⟩, p⟩ ∧ (∀ o, p ≠ .finished o) ∧
      ((State.start emptyShards).run oneShard w).keyMap oneShard ⟨1, 1⟩ = some (v, false) ∧
      (0 : UInt32) = Hnsw.rawDistance .l2 [1] v := by
  intro steps
  have hids : HaveIds oneShard (State.start emptyShards) steps := by
    have hother : ∀ (σ : State) (i : ℕ) (m : Message), σ.sent[i]? = some m →
        (∀ req, m.request ≠ .insert req) → Step.HasId σ (.handle i Shard.Disk.ok) := by
      intro σ i m hσ hm m' req key hm' hreq _
      obtain rfl := Option.some.inj (hσ.symm.trans hm')
      exact absurd hreq (hm req)
    exact ⟨trivial, fun _ _ _ _ _ _ => Or.inr (Nat.two_pow_pos 32), trivial,
      hother _ _ _ rfl nofun, trivial, hother _ _ _ rfl nofun, trivial, trivial⟩
  have hfinish : (Gathered.finish oneShard.sort FloatOps.lt 1 1
      ⟨[(⟨⟨1, 1⟩, 0, 0⟩ : Candidate UInt32)], 0, none⟩).map Coordinator.respond =
        .ok ⟨[⟨⟨1, 1⟩, 0⟩], 1, 0⟩ := by
    simp only [Gathered.finish, oneShard, Coordinator.SortSlice.merge, List.mergeSort_singleton]
    rfl
  have hc : ((State.start emptyShards).run oneShard steps).calls[1]? =
      some ⟨.search ⟨[1], 1, 0, false⟩, .finished (.found (.ok ⟨[⟨⟨1, 1⟩, 0⟩], 1, 0⟩))⟩ := by
    rw [← hfinish]
    rfl
  have hx : (⟨⟨1, 1⟩, 0⟩ : ScoredKey UInt32) ∈ [(⟨⟨1, 1⟩, 0⟩ : ScoredKey UInt32)] :=
    List.mem_cons_self
  obtain ⟨w, y, p, v, hsteps, hw, hopen, hv, hd⟩ :=
    search_results_current fresh_emptyShards hids hc hx
  exact ⟨w, y, p, v, hsteps, hw, hopen, hv, hd⟩

end VectorSearch.Cluster
