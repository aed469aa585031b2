import VectorSearch.Cluster.ScatterGather
import VectorSearch.Durable.Lives
import VectorSearch.Hnsw.ExactSearch

/-! # When the answer of the cluster is exact

The index of a shard is one that sequential calls made (`lived_run`), so a search of a small shard is
exact, and so is what the coordinator makes of the answers (`small_shards_exact`), for the shards that
were heard, each as it was when it answered.

If no shard changes while the search is under way, the answer is one that a single index with all the
keys could have given (`matches_monolith`). -/

namespace VectorSearch.Shard.Server

open Durable (Call)
open Hnsw (Platform)
open Rpc (DeleteRequest InsertRequest ScoredKey SearchRequest)

section
variable [Platform UInt32] {s s' : Server} {c : Call} {op : String} {disk : Disk}

/-- What a step does to a shard: at most one call of its index. -/
def Moves (s s' : Server) : Prop :=
  s'.defaultEf = s.defaultEf ∧ (s'.idx.idx = s.idx.idx ∨ ∃ c : Call, c.Sized s.params.dim ∧
    (c.isAdd = true → s.idx.idx.store.hasLabel c.key = true ∨ s.idx.idx.store.count < 2 ^ 32) ∧
    s'.idx.idx = (c.onIndex s.idx.idx).1)

theorem Moves.refl (s : Server) : s.Moves s := ⟨rfl, Or.inl rfl⟩

theorem write_moves (hsized : c.Sized s.params.dim)
    (hid : c.isAdd = true →
      s.idx.idx.store.hasLabel c.key = true ∨ s.idx.idx.store.count < 2 ^ 32) :
    s.Moves (s.write c op disk).1 := by
  obtain ⟨hidx, -⟩ | ⟨hidx, -⟩ := Durable.idx_perform s.idx c disk.io
  · exact ⟨rfl, Or.inl hidx⟩
  · exact ⟨rfl, Or.inr ⟨c, hsized, hid, hidx⟩⟩

/-- `Insert` -/
theorem insert_moves {req : InsertRequest} (hid : ∀ key, req.key = some key →
    s.idx.idx.store.hasLabel key = true ∨ s.idx.idx.store.count < 2 ^ 32) :
    s.Moves (s.insert req disk).1 := by
  unfold Server.insert
  cases hkey : req.key with
  | none => exact .refl s
  | some key =>
    simp only
    split_ifs with hempty hdim
    · exact .refl s
    · exact .refl s
    · refine write_moves ?_ fun _ => hid key hkey
      rintro vec key' ⟨⟩
      exact not_not.mp hdim

/-- `Delete` -/
theorem delete_moves (s : Server) (req : DeleteRequest) (disk : Disk) :
    s.Moves (s.delete req disk).1 := by
  unfold Server.delete
  cases req.key with
  | none => exact .refl s
  | some key => exact write_moves (by rintro vec k ⟨⟩) (by rintro ⟨⟩)

/-- `Undelete` -/
theorem undelete_moves (s : Server) (req : DeleteRequest) (disk : Disk) :
    s.Moves (s.undelete req disk).1 := by
  unfold Server.undelete
  cases req.key with
  | none => exact .refl s
  | some key => exact write_moves (by rintro vec k ⟨⟩) (by rintro ⟨⟩)

omit [Platform UInt32] in
/-- `Snapshot` -/
theorem idx_snapshot (s : Server) : s.snapshot.idx.idx = s.idx.idx := Durable.idx_snapshot s.idx

/-- A step keeps the nodes with their levels, and the parameters. -/
theorem Moves.keeps (h : s.Moves s') : s'.params = s.params ∧
    s.idx.idx.store.count ≤ s'.idx.idx.store.count ∧
    ∀ i < s.idx.idx.store.count, s'.idx.idx.graph.levels i = s.idx.idx.graph.levels i := by
  obtain ⟨-, hsame | ⟨c, hsized, hid, hcall⟩⟩ := h
  · unfold params
    rw [hsame]
    exact ⟨rfl, le_rfl, fun _ _ => rfl⟩
  · have hkept := Hnsw.Index.Op.levels_perform
      (Durable.Call.hasId_onHnsw hid s.idx.idx.randomLevel)
    refine ⟨(congrArg Hnsw.Index.params hcall).trans (Durable.onIndex_eq hsized).1, ?_⟩
    rw [hcall, (Durable.onIndex_rng hsized).2]
    exact hkept

/-- No node of the shard is on a negative level. -/
def Nonneg (s : Server) : Prop := ∀ i < s.idx.idx.store.count, 0 ≤ s.idx.idx.graph.levels i

/-- The index of the shard is one that sequential calls made. -/
def Lived (s : Server) : Prop :=
  Hnsw.Index.Lived s.params {level | s.params.Storable level} s.idx.idx

theorem Moves.nonneg (h : s.Moves s') (hnonneg : s'.Nonneg) : s.Nonneg := by
  obtain ⟨-, hcount, hlevels⟩ := h.keeps
  exact fun i hi => hlevels i hi ▸ hnonneg i (by omega)

theorem Moves.lived (h : s.Moves s') (hlived : s.Lived) : s'.Lived := by
  unfold Lived
  rw [h.keeps.1]
  obtain ⟨-, hsame | ⟨c, hsized, hid, hcall⟩⟩ := h
  · rw [hsame]
    exact hlived
  · rw [hcall]
    exact Durable.lived_onIndex hlived hsized hid

/-! ### Searches -/

/-- The live keys with their distances from a query. -/
def scored (s : Server) (query : List UInt32) : Multiset (ScoredKey UInt32) :=
  (s.idx.idx.scored query).map fun x => ⟨x.1, x.2⟩

/-- They are the live entries of the shard. -/
theorem Sound.mem_scored (h : s.Sound) {query : List UInt32} {x : ScoredKey UInt32} :
    x ∈ s.scored query ↔ ∃ v, s.entry x.key = some (v, false) ∧
      x.distance = Hnsw.rawDistance s.params.space (s.params.prepare query) v := by
  rw [scored, Multiset.mem_map]
  constructor
  · rintro ⟨y, hy, rfl⟩
    exact (Hnsw.Index.mem_scored h.good).mp hy
  · intro hx
    exact ⟨(x.key, x.distance), (Hnsw.Index.mem_scored h.good).mpr hx, rfl⟩

theorem Sound.nodup_scored (h : s.Sound) (query : List UInt32) : (s.scored query).Nodup := by
  refine Multiset.Nodup.map_on (fun x _ y _ heq => ?_) (Hnsw.Index.nodup_scored h.good query)
  obtain ⟨hkey, hdist⟩ := ScoredKey.mk.inj heq
  exact Prod.ext hkey hdist

theorem Lived.sound (h : s.Lived) : s.Sound := Hnsw.Index.Answering.searchable
  (Hnsw.Index.Lived.answering h).2

/-- The beam of the search has room for all live vectors, and the descent lands where all of them can
be reached. -/
structure Thorough (s : Server) (req : SearchRequest) : Prop where
  entry : 0 < s.idx.idx.store.count → s.idx.idx.graph.entryPoint ≠ Hnsw.kNone
  reach : ∀ id ∈ s.idx.idx.store.liveIds, Links.Reach (s.idx.idx.graph.next 0)
    (s.idx.idx.landing (s.params.prepare req.query)) id
  room : s.idx.idx.store.liveIds.card ≤ max (s.beam req) req.k.toNat
  few : s.idx.idx.store.liveIds.card < 2 ^ 31

/-- **A thorough search is exact.** -/
theorem Lived.exact {D : Type} [LinearOrder D] {rank : UInt32 → D} (hrank : Hnsw.Index.Ranks rank)
    (h : s.Lived) {req : SearchRequest} (hthorough : s.Thorough req) {l : List (ScoredKey UInt32)}
    (hl : s.search req = .ok l) :
    TopK (fun x => rank x.distance) req.k.toNat (s.scored req.query) l := by
  obtain ⟨hk, results, hres, rfl⟩ := search_ok hl
  have hexact := Hnsw.Index.search_exact hrank h hthorough.entry req.query hk
    (hthorough.room.trans (le_max_left _ req.k.toNat)) hthorough.reach
  -- there are too few results for their number to overflow
  have hshort := hexact.length
  rw [Hnsw.Index.scored, Multiset.card_map, Finset.card_val] at hshort
  have hfew := hthorough.few
  obtain rfl := Hnsw.Index.goSearch_short hres (by omega)
  exact TopK.map hexact

/-- The shard has few nodes, and the beam is as wide. -/
structure Small (s : Server) (req : SearchRequest) : Prop where
  few : s.idx.idx.store.count ≤ 2 * s.params.M + 1
  room : s.idx.idx.store.count ≤ max (s.beam req) req.k.toNat
  nonneg : s.Nonneg

/-- Every search of a small shard is thorough. -/
theorem Lived.thorough (h : s.Lived) {req : SearchRequest} (hsmall : s.Small req) :
    s.Thorough req := by
  obtain ⟨hentry, hreach⟩ := Hnsw.Index.Lived.small
    (Hnsw.Index.Lived.nonneg (fun _ => id) h hsmall.nonneg) hsmall.few
  have hlive : s.idx.idx.store.liveIds.card ≤ s.idx.idx.store.count := by
    have hcard := s.idx.idx.store.card_flagged_add_live
    omega
  have hM := s.params.M_le
  rw [Hnsw.kMaxDegree] at hM
  have hfew := hsmall.few
  exact ⟨hentry, hreach _, hlive.trans hsmall.room, by omega⟩

end

end VectorSearch.Shard.Server

namespace VectorSearch.Cluster

open Coordinator (SearchResponse)
open Hnsw (FloatOps Platform)

section
variable [Platform UInt32] {cfg : Config} {σ : State} {steps : List Step} {step : Step}
  {shards : ℕ → Shard.Server}

/-- **What a step does to a shard.** -/
theorem moves_perform (cfg : Config) (hid : step.HasId σ) (i : ℕ) :
    (σ.shards i).Moves ((σ.perform cfg step).shards i) := by
  have hset : ∀ {j : ℕ} {s : Shard.Server}, (σ.shards j).Moves s →
      (σ.shards i).Moves ((σ.setShard j s).shards i) := by
    intro j s hs
    unfold State.setShard
    by_cases hij : i = j
    · subst hij
      simpa only [Function.update_self] using hs
    · simpa only [Function.update_of_ne hij] using Shard.Server.Moves.refl _
  cases step with
  | call coordinator request => exact .refl _
  | fail call shard e => exact .refl _
  | deliver j =>
    obtain hsame | ⟨r, -, hstep⟩ := σ.perform_deliver cfg j
    · rw [hsame]
      exact .refl _
    · rw [hstep]
      exact .refl _
  | handle j disk =>
    obtain ⟨hsame, -⟩ | ⟨m, hm, hstep⟩ := σ.perform_handle cfg j disk
    · rw [hsame]
      exact .refl _
    · rw [hstep]
      refine hset ?_
      cases hreq : m.request with
      | insert req =>
        exact Shard.Server.insert_moves fun key hkey => hid m req key hm hreq hkey
      | delete req => exact Shard.Server.delete_moves _ req disk
      | search req => exact .refl _
  | undelete shard req disk => exact hset (Shard.Server.undelete_moves _ req disk)
  | snapshot shard => exact hset ⟨rfl, Or.inl (Shard.Server.idx_snapshot _)⟩

/-- A run keeps what a shard was configured with, and its nodes with their levels. -/
theorem keeps_run (hids : HaveIds cfg σ steps) (i : ℕ) :
    ((σ.run cfg steps).shards i).defaultEf = (σ.shards i).defaultEf ∧
      ((σ.run cfg steps).shards i).params = (σ.shards i).params ∧
      (σ.shards i).idx.idx.store.count ≤ ((σ.run cfg steps).shards i).idx.idx.store.count ∧
      (((σ.run cfg steps).shards i).Nonneg → (σ.shards i).Nonneg) := by
  induction steps generalizing σ with
  | nil => exact ⟨rfl, rfl, le_rfl, id⟩
  | cons step steps ih =>
    obtain ⟨hef, hparams, hcount, hnonneg⟩ := ih hids.2
    have hmoves := moves_perform cfg hids.1 i
    obtain ⟨hparams', hcount', -⟩ := hmoves.keeps
    exact ⟨hef.trans hmoves.1, hparams.trans hparams', hcount'.trans hcount,
      fun h => hmoves.nonneg (hnonneg h)⟩

/-- **The index of a shard is one that sequential calls made.** -/
theorem lived_run (hfresh : Fresh shards) (hids : HaveIds cfg (State.start shards) steps) (i : ℕ) :
    (((State.start shards).run cfg steps).shards i).Lived := by
  induction steps using List.reverseRecOn with
  | nil =>
    obtain ⟨p, seed, ef, hs⟩ := hfresh i
    have hstart : ((State.start shards).run cfg []).shards i = _ := hs
    rw [hstart]
    exact .new seed
  | append_singleton steps step ih =>
    obtain ⟨hbefore, hid, -⟩ := haveIds_append.mp hids
    rw [run_concat]
    exact (moves_perform cfg hid i).lived (ih hbefore)

/-- A shard that is small at the end of a run was small all the time. -/
theorem small_before {y : List Step} (hids : HaveIds cfg σ y) {i : ℕ} {req : Rpc.SearchRequest}
    (h : ((σ.run cfg y).shards i).Small req) : (σ.shards i).Small req := by
  obtain ⟨hef, hparams, hcount, hnonneg⟩ := keeps_run hids i
  refine ⟨hparams ▸ hcount.trans h.few, ?_, hnonneg h.nonneg⟩
  have hroom := hcount.trans h.room
  unfold Shard.Server.beam at hroom ⊢
  rwa [hef] at hroom

/-! ### Searches -/

/-- The search of a shard that coordinator `i` asks for. -/
def shardRequest (cfg : Config) (i : ℕ) (req : Coordinator.SearchRequest) : Rpc.SearchRequest :=
  ⟨req.query, req.k, UInt32.ofNat (if req.ef = 0 then cfg.defaultEf i else req.ef.toNat)⟩

/-- Call `id` was under way after the first steps `w` of the run. -/
def UnderWay (cfg : Config) (σ : State) (steps : List Step) (id : ℕ) (w : List Step) : Prop :=
  ∃ y c, steps = w ++ y ∧ (σ.run cfg w).calls[id]? = some c ∧ ∀ o, c.progress ≠ .finished o

omit [Platform UInt32] in
theorem answers_of_plan {i : ℕ} {req : Coordinator.SearchRequest} {k ef : ℕ}
    (hplan : (cfg.coordinator i).plan req = .ok (k, ef)) (pool : Coordinator.Pool UInt32) (s : ℕ) :
    k = req.k.toNat ∧ pool.answers req.query k ef s = pool.shard s (shardRequest cfg i req) := by
  unfold Coordinator.Server.plan at hplan
  split_ifs at hplan <;> cases hplan <;>
    exact ⟨rfl, by simp [Coordinator.Pool.answers, shardRequest, Config.coordinator, *]⟩

/-- **What a search returns whose searches of the shards are thorough**: the `k` nearest of the live
keys of the shards that were heard, each at some moment while the search was under way.  Without
`allow_partial` these are all shards, and `shards_failed` counts the others. -/
theorem exact_of_thorough {D : Type} [LinearOrder D] {rank : UInt32 → D}
    (hrank : Hnsw.Index.Ranks rank) (hfresh : Fresh shards)
    (hids : HaveIds cfg (State.start shards) steps) {id : ℕ} {req : Coordinator.SearchRequest}
    {r : SearchResponse UInt32} (hc : ((State.start shards).run cfg steps).calls[id]? =
      some ⟨.search req, .finished (.found (.ok r))⟩)
    (hthorough : ∀ i w, UnderWay cfg (State.start shards) steps id w →
      ∀ s < cfg.router.numShards,
        (((State.start shards).run cfg w).shards s).Thorough (shardRequest cfg i req)) :
    ∃ (heard : Finset ℕ) (moment : ℕ → List Step), heard ⊆ Finset.range cfg.router.numShards ∧
      (req.allowPartial = false → heard = Finset.range cfg.router.numShards) ∧
      r.shardsFailed = UInt32.ofNat (cfg.router.numShards - heard.card) ∧
      (∀ s ∈ heard, UnderWay cfg (State.start shards) steps id (moment s)) ∧
      TopK (fun x => rank x.distance) req.k.toNat
        (∑ s ∈ heard, (((State.start shards).run cfg (moment s)).shards s).scored req.query)
        r.results := by
  obtain ⟨i, -, pool, order, hnum, hperm, hasked, ho⟩ :=
    (scattering_run cfg shards steps).calls id _ req hc rfl
  have hsearch := Outcome.found.inj ho
  cases hplan : (cfg.coordinator i).plan req with
  | error e =>
    rw [Coordinator.Server.search, hplan] at hsearch
    cases hsearch
  | ok x =>
    obtain ⟨k, ef⟩ := x
    obtain ⟨rfl, -⟩ := answers_of_plan hplan pool 0
    have hanswers := fun s => (answers_of_plan hplan pool s).2
    set answers := pool.answers req.query req.k.toNat ef with hdef
    -- when each of the shards answered
    have hwhen : ∀ s, ∃ w, s ∈ Coordinator.healthy pool.numShards answers →
        UnderWay cfg (State.start shards) steps id w ∧
          answers s = (((State.start shards).run cfg w).shards s).search (shardRequest cfg i req) := by
      intro s
      by_cases hs : s ∈ Coordinator.healthy pool.numShards answers
      · obtain ⟨hlt, l, hl⟩ := Coordinator.exists_of_mem_healthy hs
        obtain ⟨e, herr⟩ | ⟨w, y, c, hsteps, hc, hopen, hf⟩ :=
          hasked s (hperm.mem_iff.mpr (List.mem_range.mpr (hnum ▸ hlt)))
        · rw [hanswers, herr] at hl
          cases hl
        · exact ⟨w, fun _ => ⟨⟨y, c, hsteps, hc, hopen⟩, by rw [hanswers, hf]⟩⟩
      · exact ⟨[], fun h => absurd h hs⟩
    choose moment hmoment using hwhen
    have hown : ∀ s ∈ Coordinator.healthy pool.numShards answers,
        TopK (fun x => rank x.distance) req.k.toNat
          ((((State.start shards).run cfg (moment s)).shards s).scored req.query)
          (Coordinator.scoredKeys (answers s)) := by
      intro s hs
      obtain ⟨hlt, l, hl⟩ := Coordinator.exists_of_mem_healthy hs
      obtain ⟨hunder, hf⟩ := hmoment s hs
      have hthis := hthorough i _ hunder s (hnum ▸ hlt)
      obtain ⟨y, c, rfl, -⟩ := hunder
      rw [hl, Coordinator.scoredKeys]
      exact (lived_run hfresh (haveIds_append.mp hids).1 s).exact hrank hthis (hf.symm.trans hl)
    obtain ⟨htop, hfailed, hall⟩ := Coordinator.Server.topK_search hrank
      (hnum ▸ hperm) hplan hsearch.symm hown
    have hnodup : (Coordinator.healthy pool.numShards answers).Nodup := List.nodup_range.filter _
    refine ⟨(Coordinator.healthy pool.numShards answers).toFinset, moment, fun s hs => ?_,
      fun hallow => ?_, ?_, fun s hs => (hmoment s (List.mem_toFinset.mp hs)).1, ?_⟩
    · exact Finset.mem_range.mpr (hnum ▸ (Coordinator.exists_of_mem_healthy (List.mem_toFinset.mp hs)).1)
    · rw [hdef, hall hallow, hnum]
      exact List.toFinset_range _
    · rw [List.toFinset_card_of_nodup hnodup, ← hnum]
      exact hfailed
    · rwa [List.sum_toFinset _ hnodup]

/-- **What a search of small shards returns.** -/
theorem small_shards_exact {D : Type} [LinearOrder D] {rank : UInt32 → D}
    (hrank : Hnsw.Index.Ranks rank) (hfresh : Fresh shards)
    (hids : HaveIds cfg (State.start shards) steps) {id : ℕ} {req : Coordinator.SearchRequest}
    {r : SearchResponse UInt32} (hc : ((State.start shards).run cfg steps).calls[id]? =
      some ⟨.search req, .finished (.found (.ok r))⟩)
    (hsmall : ∀ i, ∀ s < cfg.router.numShards,
      (((State.start shards).run cfg steps).shards s).Small (shardRequest cfg i req)) :
    ∃ (heard : Finset ℕ) (moment : ℕ → List Step), heard ⊆ Finset.range cfg.router.numShards ∧
      (req.allowPartial = false → heard = Finset.range cfg.router.numShards) ∧
      r.shardsFailed = UInt32.ofNat (cfg.router.numShards - heard.card) ∧
      (∀ s ∈ heard, UnderWay cfg (State.start shards) steps id (moment s)) ∧
      TopK (fun x => rank x.distance) req.k.toNat
        (∑ s ∈ heard, (((State.start shards).run cfg (moment s)).shards s).scored req.query)
        r.results := by
  refine exact_of_thorough hrank hfresh hids hc fun i w hunder s hs => ?_
  obtain ⟨y, c, rfl, -⟩ := hunder
  obtain ⟨hbefore, hafter⟩ := haveIds_append.mp hids
  have hend := hsmall i s hs
  rw [run_append] at hend
  exact (lived_run hfresh hbefore s).thorough (small_before hafter hend)

/-- The live keys of shards that the router tells apart are those of one index with all the keys. -/
theorem sum_scored (cfg : Config) (parts : ℕ → Shard.Server) (hparts : ∀ s, (parts s).Sound)
    (hrouted : ∀ s key, ((parts s).entry key).isSome → s = cfg.router.shardFor key)
    {mono : Shard.Server} (hmono : mono.Sound)
    (hspace : ∀ s < cfg.router.numShards, (parts s).params.space = mono.params.space)
    (hkeys : ∀ key, mono.entry key = (parts (cfg.router.shardFor key)).entry key)
    (query : List UInt32) :
    ∑ s ∈ Finset.range cfg.router.numShards, (parts s).scored query = mono.scored query := by
  refine Multiset.ext.mpr fun x => ?_
  have hlt := cfg.router.shardFor_lt x.key
  rw [Multiset.count_sum', Finset.sum_eq_single_of_mem _ (Finset.mem_range.mpr hlt)]
  · rw [Multiset.count_eq_of_nodup ((hparts _).nodup_scored query),
      Multiset.count_eq_of_nodup (hmono.nodup_scored query)]
    congr 1
    rw [(hparts _).mem_scored, hmono.mem_scored, hkeys, Hnsw.Params.prepare, Hnsw.Params.prepare,
      hspace _ hlt]
  · intro s hs hne
    refine Multiset.count_eq_zero.mpr fun hx => hne ?_
    obtain ⟨v, hv, -⟩ := (hparts s).mem_scored.mp hx
    exact hrouted s x.key (hv ▸ rfl)

/-- **A quiet cluster answers like one index with all its keys**, up to ties at the cutoff: if the
shards do not change while the search is under way, and its searches of them are thorough, then the
distances are those of a thorough search of the one index, and inside the cutoff so are the keys. -/
theorem matches_monolith {D : Type} [LinearOrder D] {rank : UInt32 → D}
    (hrank : Hnsw.Index.Ranks rank) (hfresh : Fresh shards)
    (hids : HaveIds cfg (State.start shards) steps) {id : ℕ} {req : Coordinator.SearchRequest}
    {r : SearchResponse UInt32} (hc : ((State.start shards).run cfg steps).calls[id]? =
      some ⟨.search req, .finished (.found (.ok r))⟩) (hall : req.allowPartial = false)
    (hthorough : ∀ i w, UnderWay cfg (State.start shards) steps id w →
      ∀ s < cfg.router.numShards,
        (((State.start shards).run cfg w).shards s).Thorough (shardRequest cfg i req))
    {parts : ℕ → Shard.Server} (hquiet : ∀ w, UnderWay cfg (State.start shards) steps id w →
      ((State.start shards).run cfg w).shards = parts)
    {mono : Shard.Server} (hmono : mono.Lived)
    (hspace : ∀ s < cfg.router.numShards, (shards s).params.space = mono.params.space)
    (hkeys : ∀ key, mono.entry key = (parts (cfg.router.shardFor key)).entry key)
    {mreq : Rpc.SearchRequest} (hquery : mreq.query = req.query) (hk : mreq.k = req.k)
    (hone : mono.Thorough mreq) {l : List (Rpc.ScoredKey UInt32)} (hl : mono.search mreq = .ok l) :
    (r.results.map fun x => rank x.distance) = (l.map fun x => rank x.distance) ∧
      ∀ x, Inside req.k.toNat (l.map fun x => rank x.distance) (rank x.distance) →
        r.results.count x = l.count x := by
  obtain ⟨heard, moment, -, hheard, -, hunder, htop⟩ :=
    exact_of_thorough hrank hfresh hids hc hthorough
  have hpos : 0 < req.k.toNat := hk ▸ (Shard.Server.search_ok hl).1
  obtain rfl := hheard hall
  -- some moment while the search was under way
  have hzero := Finset.mem_range.mpr cfg.router.pos
  obtain ⟨y, -, hsteps, -⟩ := hunder 0 hzero
  have hbefore := (haveIds_append.mp (hsteps ▸ hids)).1
  have hsound := (sound_start hfresh cfg).run hbefore
  have hparts := hquiet _ (hunder 0 hzero)
  have hsum := sum_scored cfg parts (fun s => hparts ▸ hsound.shards s)
    (fun s key => hparts ▸ hsound.routed s key) hmono.sound
    (fun s hs => by
      rw [← hparts, (sound_start hfresh cfg).params_run hbefore]
      exact hspace s hs) hkeys req.query
  rw [Finset.sum_congr rfl fun s hs => by rw [hquiet _ (hunder s hs)], hsum] at htop
  have hexact := hmono.exact hrank hone hl
  rw [hquery, hk] at hexact
  have hdist := htop.map_eq.trans hexact.map_eq.symm
  refine ⟨hdist, fun x hx => ?_⟩
  rw [htop.count_eq hpos (hdist ▸ hx), hexact.count_eq hpos hx]

end

section
open Hnsw.StandIn

/-- Three keys are inserted. -/
def insertThree : List Step := [.call 0 (.insert ⟨some ⟨1, 1⟩, [1]⟩), .handle 0 Shard.Disk.ok,
  .call 1 (.insert ⟨some ⟨1, 2⟩, [2]⟩), .handle 1 Shard.Disk.ok,
  .call 0 (.insert ⟨some ⟨1, 3⟩, [5]⟩), .handle 2 Shard.Disk.ok]

/-- The two nearest of them are searched for.  Shard 1 has two of the keys and is the first to
answer. -/
def searchBoth : List Step := [.call 1 (.search ⟨[0], 2, 0, false⟩), .handle 4 Shard.Disk.ok,
  .handle 3 Shard.Disk.ok, .deliver 3, .deliver 4]

theorem haveIds_insertThree :
    HaveIds twoShards (State.start emptyShards) (insertThree ++ searchBoth) := by
  have hfew : ∀ n : ℕ, n ≤ 2 → n < 2 ^ 32 := fun n hn => hn.trans_lt (by norm_num)
  exact ⟨trivial, hasId_handle _ rfl (hfew 0 (by decide)), trivial,
    hasId_handle _ rfl (hfew 0 (by decide)), trivial, hasId_handle _ rfl (hfew 1 (by decide)),
    trivial, hasId_handle _ rfl (hfew 2 le_rfl), hasId_handle _ rfl (hfew 1 (by decide)), trivial,
    trivial, trivial⟩

theorem mergeSort_three {α : Type} {le : α → α → Bool} {a b c : α} (hab : le a b = true)
    (hac : le a c = true) (hbc : le b c = false) : [a, b, c].mergeSort le = [a, c, b] := by
  simp [List.mergeSort, hab, hac, hbc]

/-- The answers are merged, and the farthest key is cut off. -/
theorem found_searchBoth :
    ((State.start emptyShards).run twoShards (insertThree ++ searchBoth)).calls[3]? =
      some ⟨.search ⟨[0], 2, 0, false⟩,
        .finished (.found (.ok ⟨[⟨⟨1, 1⟩, 1⟩, ⟨⟨1, 2⟩, 4⟩], 2, 0⟩))⟩ := by
  have hsorted : [(⟨⟨1, 1⟩, 1, 1⟩ : Coordinator.Candidate UInt32), ⟨⟨1, 3⟩, 25, 1⟩,
      ⟨⟨1, 2⟩, 4, 0⟩].mergeSort (fun a b => !FloatOps.lt b.distance a.distance) =
        [⟨⟨1, 1⟩, 1, 1⟩, ⟨⟨1, 2⟩, 4, 0⟩, ⟨⟨1, 3⟩, 25, 1⟩] := mergeSort_three rfl rfl rfl
  have hfinish : (Coordinator.Gathered.finish twoShards.sort FloatOps.lt 2 2
      ⟨[(⟨⟨1, 1⟩, 1, 1⟩ : Coordinator.Candidate UInt32), ⟨⟨1, 3⟩, 25, 1⟩, ⟨⟨1, 2⟩, 4, 0⟩], 0,
        none⟩).map Coordinator.respond = .ok ⟨[⟨⟨1, 1⟩, 1⟩, ⟨⟨1, 2⟩, 4⟩], 2, 0⟩ := by
    simp only [Coordinator.Gathered.finish, twoShards, Coordinator.SortSlice.merge, hsorted]
    rfl
  rw [← hfinish]
  rfl

theorem small_searchBoth (i : ℕ) : ∀ s < twoShards.router.numShards,
    (((State.start emptyShards).run twoShards (insertThree ++ searchBoth)).shards s).Small
      (shardRequest twoShards i ⟨[0], 2, 0, false⟩) := by
  have hsmall : ∀ s < 2,
      (((State.start emptyShards).run twoShards (insertThree ++ searchBoth)).shards
        s).idx.idx.store.count ≤ 2 ∧
      (((State.start emptyShards).run twoShards (insertThree ++ searchBoth)).shards s).params.M = 2 ∧
      (((State.start emptyShards).run twoShards (insertThree ++ searchBoth)).shards s).Nonneg := by
    unfold Shard.Server.Nonneg
    decide +kernel
  intro s hs
  obtain ⟨hcount, hM, hnonneg⟩ := hsmall s hs
  exact ⟨by omega, hcount.trans (le_max_right _ 2), hnonneg⟩

/-- Each shard has one of the two nearest keys. -/
theorem small_shards_exact_merged :
    ∃ (heard : Finset ℕ) (moment : ℕ → List Step), heard ⊆ Finset.range 2 ∧
      (false = false → heard = Finset.range 2) ∧ 0 = UInt32.ofNat (2 - heard.card) ∧
      (∀ s ∈ heard,
        UnderWay twoShards (State.start emptyShards) (insertThree ++ searchBoth) 3 (moment s)) ∧
      TopK (fun x => x.distance.toNat) 2
        (∑ s ∈ heard, (((State.start emptyShards).run twoShards (moment s)).shards s).scored [0])
        [⟨⟨1, 1⟩, 1⟩, ⟨⟨1, 2⟩, 4⟩] :=
  small_shards_exact Hnsw.Index.ranks_bits fresh_emptyShards haveIds_insertThree found_searchBoth
    small_searchBoth

/-! ### The same keys in one index -/

/-- The shards when all keys are there. -/
def filledShards : ℕ → Shard.Server := ((State.start emptyShards).run twoShards insertThree).shards

/-- Nothing is written while the search is under way. -/
theorem quiet_searchBoth {w : List Step}
    (hw : UnderWay twoShards (State.start emptyShards) (insertThree ++ searchBoth) 3 w) :
    ((State.start emptyShards).run twoShards w).shards = filledShards := by
  obtain ⟨y, c, hsteps, hc, -⟩ := hw
  obtain ⟨n, hn, rfl⟩ : ∃ n ≤ 11, w = (insertThree ++ searchBoth).take n := by
    refine ⟨w.length, ?_, by rw [hsteps, List.take_left]⟩
    have hlength : 11 = (w ++ y).length := congrArg List.length hsteps
    rw [List.length_append] at hlength
    exact Nat.le.intro hlength.symm
  have hbegun : ∀ {c : ClientCall}, (none : Option ClientCall) ≠ some c := nofun
  have hfirst : Function.update filledShards 1 (filledShards 1) = filledShards :=
    Function.update_eq_self 1 _
  have hboth : Function.update (Function.update filledShards 1 (filledShards 1)) 0
      (Function.update filledShards 1 (filledShards 1) 0) = filledShards := by
    rw [hfirst, Function.update_eq_self]
  interval_cases n
  iterate 7 exact absurd hc hbegun
  · rfl
  · exact hfirst
  iterate 3 exact hboth

theorem haveIds_insertOne : HaveIds oneShard (State.start emptyShards) insertThree := by
  have hfew : ∀ n : ℕ, n ≤ 2 → n < 2 ^ 32 := fun n hn => hn.trans_lt (by norm_num)
  exact ⟨trivial, hasId_handle _ rfl (hfew 0 (by decide)), trivial,
    hasId_handle _ rfl (hfew 1 (by decide)), trivial, hasId_handle _ rfl (hfew 2 le_rfl), trivial⟩

/-- One shard that gets the same calls. -/
def monolith : Shard.Server := ((State.start emptyShards).run oneShard insertThree).shards 0

theorem lived_monolith : monolith.Lived := lived_run fresh_emptyShards haveIds_insertOne 0

/-- It has the same entries as the two shards together. -/
theorem entry_monolith (key : Hnsw.Label) :
    monolith.entry key = (filledShards (twoShards.router.shardFor key)).entry key := by
  have hids := (haveIds_append.mp haveIds_insertThree).1
  have hops : ((State.start emptyShards).history oneShard insertThree).map Event.op =
      ((State.start emptyShards).history twoShards insertThree).map Event.op := by
    decide +kernel
  have hone := keyMap_run fresh_emptyShards haveIds_insertOne
  rw [hops, ← keyMap_run fresh_emptyShards hids] at hone
  have hkey := congrFun hone key
  rw [State.keyMap, State.keyMap, shardFor_oneShard] at hkey
  exact hkey

/-- The two shards together answer as the one index does. -/
theorem matches_monolith_merged :
    let found : List (Rpc.ScoredKey UInt32) := [⟨⟨1, 1⟩, 1⟩, ⟨⟨1, 2⟩, 4⟩]
    ∃ l, monolith.search ⟨[0], 2, 0⟩ = .ok l ∧
      (found.map fun x => x.distance.toNat) = (l.map fun x => x.distance.toNat) ∧
      ∀ x, Inside 2 (l.map fun x => x.distance.toNat) x.distance.toNat →
        found.count x = l.count x := by
  intro found
  have hids := haveIds_insertThree
  have hanswer : (monolith.search ⟨[0], 2, 0⟩).toOption = some [⟨⟨1, 1⟩, 1⟩, ⟨⟨1, 2⟩, 4⟩] := by
    decide +kernel
  obtain ⟨l, hl⟩ : ∃ l, monolith.search ⟨[0], 2, 0⟩ = .ok l := by
    cases hres : monolith.search ⟨[0], 2, 0⟩ with
    | ok l => exact ⟨l, rfl⟩
    | error e =>
      rw [hres] at hanswer
      cases hanswer
  have hthorough : monolith.Thorough ⟨[0], 2, 0⟩ := by
    have hcount : monolith.idx.idx.store.count = 3 := by decide +kernel
    refine lived_monolith.thorough ⟨hcount.trans_le (by decide +kernel), ?_, ?_⟩
    · exact hcount.trans_le (by decide +kernel)
    · unfold Shard.Server.Nonneg
      decide +kernel
  exact ⟨l, hl, matches_monolith Hnsw.Index.ranks_bits fresh_emptyShards hids found_searchBoth rfl
    (fun i w hw s hs => by
      obtain ⟨y, -, hsteps, -⟩ := hw
      rw [hsteps] at hids
      have hend := small_searchBoth i s hs
      rw [hsteps, run_append] at hend
      exact (lived_run fresh_emptyShards (haveIds_append.mp hids).1 s).thorough
        (small_before (haveIds_append.mp hids).2 hend))
    (fun w => quiet_searchBoth) lived_monolith (fun _ _ => rfl) entry_monolith rfl rfl hthorough hl⟩

end

end VectorSearch.Cluster
