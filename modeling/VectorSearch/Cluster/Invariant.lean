import VectorSearch.Cluster.Model

/-! # The invariant of the cluster

`State.Sound`: every key is on the shard that the router names, every request under way is for the
shard that it was routed to, and every answer, gathered or returned, has different keys.
`Sound.perform` proves it of one step and `Sound.run` of a run. -/

namespace VectorSearch.Cluster

open Coordinator (Candidate Gathered SearchResponse candidates)
open Hnsw (FloatOps Label Platform)
open Rpc (Answer ScoredKey Status)

/-! ### Gathering -/

section
variable {D : Type}

theorem all_receive (g : Gathered D) (allowPartial : Bool) (shard : ℕ) (answer : Answer D) :
    (g.receive allowPartial shard answer).all = g.all ++ candidates shard answer := by
  unfold Gathered.receive
  cases answer with
  | ok results => rfl
  | error e => cases allowPartial <;> exact (List.append_nil _).symm

theorem map_key_candidates (shard : ℕ) (l : List (ScoredKey D)) :
    (candidates shard (.ok l)).map Candidate.key = l.map ScoredKey.key := by
  simp [candidates, Function.comp_def]

/-- The keys of a reply are gathered ones. -/
theorem keys_respond {g : Gathered D} {cfg : Config} {less : D → D → Bool} {n k : ℕ}
    {r : SearchResponse D} (h : (g.finish cfg.sort less n k).map Coordinator.respond = .ok r) :
    (r.results.map ScoredKey.key).Subperm (g.all.map Candidate.key) := by
  cases hres : g.finish cfg.sort less n k with
  | error e =>
    rw [hres] at h
    cases h
  | ok result =>
    rw [hres] at h
    cases h
    obtain ⟨-, rfl⟩ := Coordinator.finish_eq_ok.mp hres
    have hkeys : (Coordinator.respond ⟨(cfg.sort.run (fun a b : Candidate D =>
        less a.distance b.distance) g.all).take k, n, g.failed⟩).results.map ScoredKey.key =
        ((cfg.sort.run (fun a b : Candidate D => less a.distance b.distance) g.all).take k).map
          Candidate.key := by
      simp [Coordinator.respond, Candidate.scored, Function.comp_def]
    rw [hkeys]
    exact ((List.take_sublist _ _).map _).subperm.trans ((cfg.sort.perm _ _).map _).subperm

end

/-! ### The invariant -/

section
variable [Platform UInt32] {cfg : Config} {σ : State} {steps : List Step} {step : Step}
  {key : Label}

/-- What a search has gathered or returned has different keys; gathered keys are from the shards
that the router names, and not from those that are missing. -/
def Progress.Sound (cfg : Config) : Progress → Prop
  | gathering _ _ missing g => missing.Nodup ∧ (g.all.map Candidate.key).Nodup ∧
      ∀ c ∈ g.all, cfg.router.shardFor c.key = c.shard ∧ c.shard ∉ missing
  | finished (.found (.ok r)) => (r.results.map ScoredKey.key).Nodup
  | _ => True

/-- An answer of a shard has different keys, all its own. -/
def SoundAnswer (cfg : Config) (shard : ℕ) (answer : Answer UInt32) : Prop :=
  ∀ l, answer = .ok l →
    (l.map ScoredKey.key).Nodup ∧ ∀ x ∈ l, cfg.router.shardFor x.key = shard

/-- The request to a shard is the routed request of the client. -/
def Message.For (cfg : Config) (m : Message) : Request → Prop
  | .insert req => m.request = .insert req ∧
      ∃ key, req.key = some key ∧ m.shard = cfg.router.shardFor key
  | .delete req => m.request = .delete req ∧
      ∃ key, req.key = some key ∧ m.shard = cfg.router.shardFor key
  | .search _ => ∃ req, m.request = .search req

/-- The key that a request is about. -/
def ShardRequest.routedKey : ShardRequest → Option Label
  | .insert req => req.key
  | .delete req => req.key
  | .search _ => none

omit [Platform UInt32] in
/-- A request is sent to the shard of its key. -/
theorem Message.For.shard_eq {m : Message} {request : Request} {key : Label} (h : m.For cfg request)
    (hkey : m.request.routedKey = some key) : m.shard = cfg.router.shardFor key := by
  cases request with
  | insert req =>
    obtain ⟨hreq, key', hkey', hshard⟩ := h
    rw [hreq] at hkey
    rw [hshard, Option.some.inj (hkey'.symm.trans hkey)]
  | delete req =>
    obtain ⟨hreq, key', hkey', hshard⟩ := h
    rw [hreq] at hkey
    rw [hshard, Option.some.inj (hkey'.symm.trans hkey)]
  | search req =>
    obtain ⟨req', hreq⟩ := h
    rw [hreq] at hkey
    cases hkey

/-- The invariant of the cluster. -/
structure State.Sound (cfg : Config) (σ : State) : Prop where
  shards : ∀ s, (σ.shards s).Sound
  routed : ∀ s key, ((σ.shards s).entry key).isSome → s = cfg.router.shardFor key
  sent : ∀ m ∈ σ.sent, ∃ c, σ.calls[m.call]? = some c ∧ m.For cfg c.request
  replies : ∀ r ∈ σ.replies, r.message ∈ σ.sent ∧
    ∀ answer, r.result = .found answer → SoundAnswer cfg r.message.shard answer
  calls : ∀ c ∈ σ.calls, c.progress.Sound cfg
  acked : ∀ (id : ℕ) c, σ.calls[id]? = some c → c.progress = .finished (.done (.ok ())) →
    ∃ r ∈ σ.replies, r.message.call = id ∧ r.result = .done (.ok ())

omit [Platform UInt32] in
theorem sound_start {shards : ℕ → Shard.Server} (h : Fresh shards) (cfg : Config) :
    (State.start shards).Sound cfg where
  shards s := by
    obtain ⟨p, seed, ef, hs⟩ := h s
    have hstart : (State.start shards).shards s = _ := hs
    rw [hstart]
    exact Hnsw.Index.Searchable.new p seed
  routed s key hkey := by
    obtain ⟨p, seed, ef, hs⟩ := h s
    have hstart : (State.start shards).shards s = _ := hs
    rw [hstart] at hkey
    cases hkey
  sent m hm := absurd hm List.not_mem_nil
  replies r hr := absurd hr List.not_mem_nil
  calls c hc := absurd hc List.not_mem_nil
  acked id c hc := by simp [State.start] at hc

/-! ### Progress -/

/-- What a reply does to a call. -/
theorem receive_cases (cfg : Config) (p : Progress) (shard : ℕ)
    (result : ShardReply) :
    p.receive cfg shard result = p ∨
      (∃ r, result = .done r ∧ p.receive cfg shard result = .finished (.done r)) ∨
      ∃ k allowPartial missing g answer, p = .gathering k allowPartial missing g ∧
        shard ∈ missing ∧ result = .found answer ∧
        p.receive cfg shard result = .gather cfg k allowPartial missing g shard answer := by
  cases p with
  | waiting =>
    cases result with
    | done r => exact Or.inr (Or.inl ⟨r, rfl, rfl⟩)
    | found answer => exact Or.inl rfl
  | gathering k allowPartial missing g =>
    cases result with
    | done r => exact Or.inl rfl
    | found answer =>
      by_cases hs : shard ∈ missing
      · exact Or.inr (Or.inr ⟨k, allowPartial, missing, g, answer, rfl, hs, rfl, if_pos hs⟩)
      · exact Or.inl (if_neg hs)
  | finished outcome => exact Or.inl (by cases result <;> rfl)

/-- What giving up on a shard does to a call. -/
theorem giveUp_cases (cfg : Config) (p : Progress) (shard : ℕ) (e : Status) :
    p.giveUp cfg shard e = p ∨ p.giveUp cfg shard e = .finished (.done (.error e)) ∨
      ∃ k allowPartial missing g, p = .gathering k allowPartial missing g ∧ shard ∈ missing ∧
        p.giveUp cfg shard e = .gather cfg k allowPartial missing g shard (.error e) := by
  cases p with
  | waiting => exact Or.inr (Or.inl rfl)
  | gathering k allowPartial missing g =>
    by_cases hs : shard ∈ missing
    · exact Or.inr (Or.inr ⟨k, allowPartial, missing, g, rfl, hs, if_pos hs⟩)
    · exact Or.inl (if_neg hs)
  | finished outcome => exact Or.inl rfl

theorem Progress.Sound.gather {k : ℕ} {allowPartial : Bool} {missing : List ℕ}
    {g : Gathered UInt32} {shard : ℕ} {answer : Answer UInt32}
    (h : (gathering k allowPartial missing g).Sound cfg) (hs : shard ∈ missing)
    (ha : SoundAnswer cfg shard answer) :
    (gather cfg k allowPartial missing g shard answer).Sound cfg := by
  obtain ⟨hmissing, hkeys, hshards⟩ := h
  have hall := all_receive g allowPartial shard answer
  have hkeys' : ((g.receive allowPartial shard answer).all.map Candidate.key).Nodup := by
    rw [hall]
    cases answer with
    | error e => simpa [candidates] using hkeys
    | ok l =>
      obtain ⟨hl, hown⟩ := ha l rfl
      rw [List.map_append, map_key_candidates]
      refine List.Nodup.append hkeys hl fun key hold hnew => ?_
      obtain ⟨c, hc, rfl⟩ := List.mem_map.mp hold
      obtain ⟨x, hx, heq⟩ := List.mem_map.mp hnew
      -- the old candidate is from another shard, the new one from this
      obtain ⟨hc, hcm⟩ := hshards c hc
      exact hcm (by rwa [← hc, ← heq, hown x hx])
  have hshards' : ∀ c ∈ (g.receive allowPartial shard answer).all,
      cfg.router.shardFor c.key = c.shard ∧ c.shard ∉ missing.erase shard := by
    rw [hall]
    intro c hc
    obtain hc | hc := List.mem_append.mp hc
    · exact ⟨(hshards c hc).1, fun hm => (hshards c hc).2 (List.mem_of_mem_erase hm)⟩
    · cases answer with
      | error e => cases hc
      | ok l =>
        obtain ⟨x, hx, rfl⟩ := List.mem_map.mp hc
        exact ⟨(ha l rfl).2 x hx, hmissing.not_mem_erase⟩
  unfold Progress.gather
  simp only
  split_ifs with hlast
  · generalize hres : ((g.receive allowPartial shard answer).finish cfg.sort FloatOps.lt
      cfg.router.numShards k).map Coordinator.respond = res
    cases res with
    | error e => trivial
    | ok r => exact Hnsw.nodup_of_subperm (keys_respond hres) hkeys'
  · exact ⟨hmissing.erase _, hkeys', hshards'⟩

theorem Progress.Sound.receive {p : Progress} (h : p.Sound cfg) {shard : ℕ} {result : ShardReply}
    (hr : ∀ answer, result = .found answer → SoundAnswer cfg shard answer) :
    (p.receive cfg shard result).Sound cfg := by
  obtain hsame | ⟨r, -, hdone⟩ | ⟨k, allowPartial, missing, g, answer, rfl, hs, rfl, hgather⟩ :=
    receive_cases cfg p shard result
  · rwa [hsame]
  · rw [hdone]
    trivial
  · rw [hgather]
    exact h.gather hs (hr answer rfl)

theorem Progress.Sound.giveUp {p : Progress} (h : p.Sound cfg) (shard : ℕ) (e : Status) :
    (p.giveUp cfg shard e).Sound cfg := by
  obtain hsame | hdone | ⟨k, allowPartial, missing, g, rfl, hs, hgather⟩ :=
    giveUp_cases cfg p shard e
  · rwa [hsame]
  · rw [hdone]
    trivial
  · rw [hgather]
    exact h.gather hs fun l hl => nomatch hl

theorem gather_ne_done (cfg : Config) (k : ℕ) (allowPartial : Bool) (missing : List ℕ)
    (g : Gathered UInt32) (shard : ℕ) (answer : Answer UInt32) (result : Except Status Unit) :
    Progress.gather cfg k allowPartial missing g shard answer ≠ .finished (.done result) := by
  unfold Progress.gather
  simp only
  split_ifs <;> simp

/-- Only a reply acknowledges a call. -/
theorem receive_done {p : Progress} {shard : ℕ} {result : ShardReply}
    (h : p.receive cfg shard result = .finished (.done (.ok ()))) :
    p = .finished (.done (.ok ())) ∨ result = .done (.ok ()) := by
  obtain hsame | ⟨r, rfl, hdone⟩ | ⟨k, allowPartial, missing, g, answer, -, -, -, hgather⟩ :=
    receive_cases cfg p shard result
  · exact Or.inl (hsame.symm.trans h)
  · have hok := Outcome.done.inj (Progress.finished.inj (hdone.symm.trans h))
    exact Or.inr (congrArg ShardReply.done hok)
  · exact absurd (hgather.symm.trans h) (gather_ne_done _ _ _ _ _ _ _ _)

theorem giveUp_done {p : Progress} {shard : ℕ} {e : Status}
    (h : p.giveUp cfg shard e = .finished (.done (.ok ()))) :
    p = .finished (.done (.ok ())) := by
  obtain hsame | hdone | ⟨k, allowPartial, missing, g, -, -, hgather⟩ :=
    giveUp_cases cfg p shard e
  · exact hsame.symm.trans h
  · cases hdone.symm.trans h
  · exact absurd (hgather.symm.trans h) (gather_ne_done _ _ _ _ _ _ _ _)

/-! ### What a shard does to a request -/

theorem handle_kept {s : Shard.Server} (h : s.Sound) (disk : Shard.Disk) {request : ShardRequest}
    (hid : ∀ req key, request = .insert req → req.key = some key →
      s.idx.idx.store.hasLabel key = true ∨ s.idx.idx.store.count < 2 ^ 32) :
    s.Kept (handle s disk request).1 (fun k => ∃ req, request = .insert req ∧ req.key = some k)
      (fun _ => False) := by
  cases request with
  | insert req =>
    exact (h.insert fun key hkey => hid req key rfl hkey).imp (fun k hk => ⟨req, rfl, hk⟩)
      fun _ => id
  | delete req => exact (h.delete req).imp (fun _ => False.elim) fun _ => id
  | search req => exact h.kept _ _

theorem handle_found {s : Shard.Server} (h : s.Sound) {disk : Shard.Disk} {request : ShardRequest}
    {l : List (ScoredKey UInt32)} (hr : (handle s disk request).2 = .found (.ok l)) :
    (l.map ScoredKey.key).Nodup ∧ ∀ x ∈ l, ∃ v, s.entry x.key = some (v, false) := by
  cases request with
  | insert req => cases hr
  | delete req => cases hr
  | search req => exact h.search (ShardReply.found.inj hr)

/-! ### One step -/

omit [Platform UInt32] in
theorem State.Sound.setShard (h : σ.Sound cfg) {i : ℕ} {s : Shard.Server}
    {new revived : Label → Prop} (hk : (σ.shards i).Kept s new revived)
    (hnew : ∀ k, new k → i = cfg.router.shardFor k) : (σ.setShard i s).Sound cfg := by
  refine ⟨fun j => ?_, fun j key hkey => ?_, h.sent, h.replies, h.calls, h.acked⟩
  · simp only [State.setShard]
    by_cases hj : j = i
    · subst hj
      rw [Function.update_self]
      exact hk.sound
    · rw [Function.update_of_ne hj]
      exact h.shards j
  · simp only [State.setShard] at hkey
    by_cases hj : j = i
    · subst hj
      rw [Function.update_self] at hkey
      exact (hk.keys key hkey).elim (h.routed j key) (hnew key)
    · rw [Function.update_of_ne hj] at hkey
      exact h.routed j key hkey

omit [Platform UInt32] in
theorem State.Sound.reply (h : σ.Sound cfg) {r : Reply} (hm : r.message ∈ σ.sent)
    (hr : ∀ answer, r.result = .found answer → SoundAnswer cfg r.message.shard answer) :
    ({ σ with replies := σ.replies ++ [r] } : State).Sound cfg := by
  refine ⟨h.shards, h.routed, h.sent, fun r' hr' => ?_, h.calls, fun id c hc hdone => ?_⟩
  · obtain hr' | hr' := List.mem_append.mp hr'
    · exact h.replies r' hr'
    · rw [List.mem_singleton.mp hr']
      exact ⟨hm, hr⟩
  · obtain ⟨r', hr', hack⟩ := h.acked id c hc hdone
    exact ⟨r', List.mem_append_left _ hr', hack⟩

omit [Platform UInt32] in
/-- A call that comes further. -/
theorem State.Sound.proceed (h : σ.Sound cfg) {id : ℕ} {f : Progress → Progress}
    (hf : ∀ p : Progress, p.Sound cfg → (f p).Sound cfg)
    (hack : ∀ p : Progress, f p = .finished (.done (.ok ())) → p = .finished (.done (.ok ())) ∨
      ∃ r ∈ σ.replies, r.message.call = id ∧ r.result = .done (.ok ())) :
    (σ.proceed id f).Sound cfg := by
  have hget : ∀ (j : ℕ) c, (σ.proceed id f).calls[j]? = some c → ∃ c', σ.calls[j]? = some c' ∧
      c = if id = j then { c' with progress := f c'.progress } else c' := by
    intro j c hc
    simp only [State.proceed, List.getElem?_modify, Option.map_eq_map,
      Option.map_eq_some_iff] at hc
    obtain ⟨c', hc', rfl⟩ := hc
    exact ⟨c', hc', rfl⟩
  refine ⟨h.shards, h.routed, fun m hm => ?_, h.replies, fun c hc => ?_, fun j c hc hdone => ?_⟩
  · obtain ⟨c, hc, hfor⟩ := h.sent m hm
    simp only [State.proceed, List.getElem?_modify, hc, Option.map_eq_map, Option.map_some]
    refine ⟨_, rfl, ?_⟩
    split_ifs <;> exact hfor
  · obtain ⟨j, hj⟩ := List.mem_iff_getElem?.mp hc
    obtain ⟨c', hc', rfl⟩ := hget j c hj
    have hc' := h.calls c' (List.mem_of_getElem? hc')
    split_ifs
    · exact hf _ hc'
    · exact hc'
  · obtain ⟨c', hc', rfl⟩ := hget j c hc
    split_ifs at hdone with hj
    · subst hj
      obtain hsame | hack := hack c'.progress hdone
      · exact h.acked _ c' hc' hsame
      · exact hack
    · exact h.acked j c' hc' hdone

omit [Platform UInt32] in
/-- What a coordinator begins. -/
theorem begin_spec (cfg : Config) (coordinator id : ℕ) (request : Request) :
    (begin cfg coordinator id request).1.Sound cfg ∧
      (begin cfg coordinator id request).1 ≠ .finished (.done (.ok ())) ∧
      ∀ m ∈ (begin cfg coordinator id request).2, m.call = id ∧ m.For cfg request := by
  cases request with
  | insert req =>
    cases hroute : (cfg.coordinator coordinator).routeInsert req with
    | error e =>
      simp only [begin, hroute]
      exact ⟨trivial, by simp, by simp⟩
    | ok x =>
      simp only [begin, hroute]
      obtain ⟨hreq, hkey⟩ := Coordinator.Server.routeInsert_ok hroute
      refine ⟨trivial, by simp, fun m hm => ?_⟩
      rw [List.mem_singleton.mp hm]
      exact ⟨rfl, congrArg ShardRequest.insert hreq, hkey⟩
  | delete req =>
    cases hroute : (cfg.coordinator coordinator).routeDelete req with
    | error e =>
      simp only [begin, hroute]
      exact ⟨trivial, by simp, by simp⟩
    | ok x =>
      simp only [begin, hroute]
      obtain ⟨hreq, hkey⟩ := Coordinator.Server.routeDelete_ok hroute
      refine ⟨trivial, by simp, fun m hm => ?_⟩
      rw [List.mem_singleton.mp hm]
      exact ⟨rfl, congrArg ShardRequest.delete hreq, hkey⟩
  | search req =>
    cases hplan : (cfg.coordinator coordinator).plan req with
    | error e =>
      simp only [begin, hplan]
      exact ⟨trivial, by simp, by simp⟩
    | ok x =>
      simp only [begin, hplan]
      refine ⟨⟨List.nodup_range, List.nodup_nil, nofun⟩, by simp, fun m hm => ?_⟩
      obtain ⟨shard, -, rfl⟩ := List.mem_map.mp hm
      exact ⟨rfl, _, rfl⟩

/-- A call is begun. -/
theorem State.Sound.call (h : σ.Sound cfg) (coordinator : ℕ) (request : Request) :
    (σ.perform cfg (.call coordinator request)).Sound cfg := by
  obtain ⟨hsound, hnot, hsent⟩ := begin_spec cfg coordinator σ.calls.length request
  unfold State.perform
  simp only
  generalize begin cfg coordinator σ.calls.length request = x at hsound hnot hsent
  refine ⟨h.shards, h.routed, fun m hm => ?_, fun r hr => ?_, fun c hc => ?_, fun j c hc hdone => ?_⟩
  · obtain hm | hm := List.mem_append.mp hm
    · obtain ⟨c, hc, hfor⟩ := h.sent m hm
      exact ⟨c, List.getElem?_append_left (List.getElem?_eq_some_iff.mp hc).1 ▸ hc, hfor⟩
    · obtain ⟨hcall, hfor⟩ := hsent m hm
      exact ⟨⟨request, x.1⟩, by simp [hcall], hfor⟩
  · exact ⟨List.mem_append_left _ (h.replies r hr).1, (h.replies r hr).2⟩
  · obtain hc | hc := List.mem_append.mp hc
    · exact h.calls c hc
    · rw [List.mem_singleton.mp hc]
      exact hsound
  · rw [List.getElem?_append] at hc
    split_ifs at hc with hlt
    · exact h.acked j c hc hdone
    · have hmem := List.mem_of_getElem? hc
      rw [List.mem_singleton.mp hmem] at hdone
      exact absurd hdone hnot

/-- A shard handles a request. -/
theorem State.Sound.handle (h : σ.Sound cfg) {m : Message} (hm : m ∈ σ.sent) (disk : Shard.Disk)
    (hid : ∀ req key, m.request = .insert req → req.key = some key →
      (σ.shards m.shard).idx.idx.store.hasLabel key = true ∨
        (σ.shards m.shard).idx.idx.store.count < 2 ^ 32) :
    ({ σ.setShard m.shard (Cluster.handle (σ.shards m.shard) disk m.request).1 with
      replies := σ.replies ++ [⟨m, (Cluster.handle (σ.shards m.shard) disk m.request).2⟩] } :
        State).Sound cfg := by
  obtain ⟨c, -, hfor⟩ := h.sent m hm
  have hshard := h.setShard (handle_kept (h.shards m.shard) disk hid) fun key hkey => by
    obtain ⟨req, hreq, hkey⟩ := hkey
    refine hfor.shard_eq ?_
    rw [hreq]
    exact hkey
  have hmem : m ∈ (σ.setShard m.shard (Cluster.handle (σ.shards m.shard) disk m.request).1).sent :=
    hm
  refine hshard.reply (r := ⟨m, (Cluster.handle (σ.shards m.shard) disk m.request).2⟩) hmem ?_
  rintro answer hans l rfl
  obtain ⟨hnodup, hlive⟩ := handle_found (h.shards m.shard) hans
  refine ⟨hnodup, fun x hx => ?_⟩
  obtain ⟨v, hv⟩ := hlive x hx
  exact (h.routed m.shard x.key (hv ▸ rfl)).symm

/-- **Every step keeps the cluster sound**, if it has an id for its key. -/
theorem State.Sound.perform (h : σ.Sound cfg) (hid : step.HasId σ) :
    (σ.perform cfg step).Sound cfg := by
  cases step with
  | call coordinator request => exact h.call coordinator request
  | handle i disk =>
    obtain ⟨hsame, -⟩ | ⟨m, hi, hstep⟩ := σ.perform_handle cfg i disk
    · rwa [hsame]
    rw [hstep]
    exact h.handle (List.mem_of_getElem? hi) disk fun req key hreq hkey =>
      hid m req key hi hreq hkey
  | deliver i =>
    obtain hsame | ⟨r, hr, hstep⟩ := σ.perform_deliver cfg i
    · rwa [hsame]
    rw [hstep]
    refine h.proceed (fun p hp => hp.receive (h.replies r hr).2) fun p hp => ?_
    exact (receive_done hp).imp_right fun hdone => ⟨r, hr, rfl, hdone⟩
  | fail call shard e =>
    exact h.proceed (fun p hp => hp.giveUp shard e) fun p hp => Or.inl (giveUp_done hp)
  | undelete shard req disk =>
    exact h.setShard ((h.shards shard).undelete req) fun k hk => hk.elim
  | snapshot shard => exact h.setShard (h.shards shard).snapshot fun k hk => hk.elim

/-! ### Runs -/

theorem run_append (cfg : Config) (σ : State) (x y : List Step) :
    σ.run cfg (x ++ y) = (σ.run cfg x).run cfg y := List.foldl_append

theorem run_concat (cfg : Config) (σ : State) (x : List Step) (step : Step) :
    σ.run cfg (x ++ [step]) = (σ.run cfg x).perform cfg step := run_append cfg σ x [step]

theorem haveIds_append {x y : List Step} :
    HaveIds cfg σ (x ++ y) ↔ HaveIds cfg σ x ∧ HaveIds cfg (σ.run cfg x) y := by
  induction x generalizing σ with
  | nil => exact (true_and _).symm.to_iff
  | cons step x ih =>
    rw [List.cons_append, HaveIds, HaveIds, ih, and_assoc]
    rfl

/-- **The invariant holds in every run.** -/
theorem State.Sound.run (h : σ.Sound cfg) (hids : HaveIds cfg σ steps) :
    (σ.run cfg steps).Sound cfg := by
  induction steps generalizing σ with
  | nil => exact h
  | cons step steps ih => exact ih (h.perform hids.1) hids.2

end

end VectorSearch.Cluster
