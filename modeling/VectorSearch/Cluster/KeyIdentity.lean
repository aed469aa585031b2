import VectorSearch.Cluster.Invariant
import VectorSearch.Durable.CrashRecovery

/-! # Key identity across the cluster

What a deletion does to the answers of later searches.

* `tombstone_of_acks`: the step in which a shard acknowledges a deletion tombstones its key.
* `Tombstone.run`: a tombstone stays while its key is not undeleted.
* `Gone.run`: while it does, no answer that was not begun before has the key.
* `keyIdentity`: **cluster-wide key identity**, in every run in which the ids of no shard are used
  up.
* `identity_lost`: one key more than a shard has ids takes the place of the first key, whose deletion
  is acknowledged all the same. -/

namespace VectorSearch.Cluster

open Coordinator (Candidate Gathered SearchResponse)
open Hnsw (FloatOps Label Platform)
open Rpc (Answer ScoredKey Status)

section
variable [Platform UInt32] {cfg : Config} {σ : State} {steps : List Step} {step : Step}
  {key : Label}

/-! ### What a step changes -/

/-- A shard is changed by a request, an `Undelete` or a `Snapshot`. -/
theorem shards_perform (h : σ.Sound cfg) (hid : step.HasId σ) (s : ℕ) :
    (σ.shards s).Kept ((σ.perform cfg step).shards s) (fun _ => True)
      (fun key => step.Undeletes key) := by
  have hset : ∀ {i : ℕ} {t : Shard.Server} {new revived : Label → Prop},
      (σ.shards i).Kept t new revived → (∀ key, revived key → step.Undeletes key) →
      (σ.shards s).Kept ((σ.setShard i t).shards s) (fun _ => True)
        (fun key => step.Undeletes key) := by
    intro i t new revived hk hrev
    unfold State.setShard
    by_cases hi : s = i
    · subst hi
      simp only [Function.update_self]
      exact hk.imp (fun _ _ => trivial) hrev
    · simp only [Function.update_of_ne hi]
      exact (h.shards s).kept _ _
  cases step with
  | call coordinator request => exact (h.shards s).kept _ _
  | handle i disk =>
    obtain ⟨hsame, -⟩ | ⟨m, hi, hstep⟩ := σ.perform_handle cfg i disk
    · rw [hsame]
      exact (h.shards s).kept _ _
    · rw [hstep]
      exact hset (handle_kept (h.shards m.shard) disk fun req key hreq hkey =>
        hid m req key hi hreq hkey) fun _ => False.elim
  | deliver i =>
    obtain hsame | ⟨r, -, hstep⟩ := σ.perform_deliver cfg i
    · rw [hsame]
      exact (h.shards s).kept _ _
    · rw [hstep]
      exact (h.shards s).kept _ _
  | fail call shard e => exact (h.shards s).kept _ _
  | undelete shard req disk => exact hset ((h.shards shard).undelete req) fun key hkey => hkey
  | snapshot shard => exact hset (h.shards shard).snapshot fun _ => False.elim

/-- A new reply is that of the shard that handles a request. -/
theorem mem_replies_perform {r : Reply} (h : r ∈ (σ.perform cfg step).replies) :
    r ∈ σ.replies ∨ ∃ i disk m, step = .handle i disk ∧ σ.sent[i]? = some m ∧
      r = ⟨m, (handle (σ.shards m.shard) disk m.request).2⟩ ∧
      (σ.perform cfg step).shards m.shard = (handle (σ.shards m.shard) disk m.request).1 := by
  cases step with
  | handle i disk =>
    obtain ⟨hsame, -⟩ | ⟨m, hi, hstep⟩ := σ.perform_handle cfg i disk
    · rw [hsame] at h
      exact Or.inl h
    · rw [hstep] at h ⊢
      obtain h | h := List.mem_append.mp h
      · exact Or.inl h
      · exact Or.inr ⟨i, disk, m, rfl, hi, List.mem_singleton.mp h, Function.update_self _ _ _⟩
  | deliver i =>
    obtain hsame | ⟨r', -, hstep⟩ := σ.perform_deliver cfg i
    · rw [hsame] at h
      exact Or.inl h
    · rw [hstep] at h
      exact Or.inl h
  | call coordinator request => exact Or.inl h
  | fail call shard e => exact Or.inl h
  | undelete shard req disk => exact Or.inl h
  | snapshot shard => exact Or.inl h

/-! ### Tombstones -/

/-- The key is tombstoned on its shard. -/
def Tombstone (cfg : Config) (σ : State) (key : Label) : Prop :=
  ∃ v, (σ.shards (cfg.router.shardFor key)).entry key = some (v, true)

theorem Tombstone.perform (ht : Tombstone cfg σ key) (h : σ.Sound cfg) (hid : step.HasId σ)
    (hno : ¬ step.Undeletes key) : Tombstone cfg (σ.perform cfg step) key := by
  obtain ⟨v, hv⟩ := ht
  exact ⟨v, (shards_perform h hid _).tombstones key v hv hno⟩

/-- **A tombstone stays** while its key is not undeleted. -/
theorem Tombstone.run (ht : Tombstone cfg σ key) (h : σ.Sound cfg) (hids : HaveIds cfg σ steps)
    (hno : ∀ step ∈ steps, ¬ step.Undeletes key) : Tombstone cfg (σ.run cfg steps) key := by
  induction steps generalizing σ with
  | nil => exact ht
  | cons step steps ih =>
    rw [List.forall_mem_cons] at hno
    exact ih (ht.perform h hids.1 hno.1) (h.perform hids.1) hids.2 hno.2

omit [Platform UInt32] in
/-- The slots of a key are what its shard has registered. -/
theorem State.Sound.copy_iff (h : σ.Sound cfg) {s i : ℕ} :
    σ.Copy key s i ↔ (σ.shards s).idx.idx.store.labelToId key = some i := by
  have hgood := (h.shards s).good
  constructor
  · rintro ⟨hi, rfl⟩
    exact hgood.id_of_label hi
  · exact fun hi => hgood.label_of_id hi

omit [Platform UInt32] in
theorem State.Sound.routed_copy (h : σ.Sound cfg) {s i : ℕ} (hc : σ.Copy key s i) :
    s = cfg.router.shardFor key := by
  refine h.routed s key ?_
  rw [Shard.Server.isSome_entry, Hnsw.Store.hasLabel, h.copy_iff.mp hc]
  rfl

omit [Platform UInt32] in
/-- The tombstone of a key is that of its only copy. -/
theorem State.Sound.tombstoned_iff (h : σ.Sound cfg) : σ.Tombstoned key ↔ Tombstone cfg σ key := by
  constructor
  · rintro ⟨s, i, hcopy, hdel⟩
    have hc : σ.Copy key s i := (hcopy s i).mpr ⟨rfl, rfl⟩
    refine ⟨(σ.shards s).idx.idx.store.data i, ?_⟩
    rw [← h.routed_copy hc, ← hdel]
    exact Hnsw.Store.keyMap_of_id (h.copy_iff.mp hc)
  · rintro ⟨v, hv⟩
    have hv : ((σ.shards (cfg.router.shardFor key)).idx.idx.store.labelToId key).map
        (fun i => ((σ.shards (cfg.router.shardFor key)).idx.idx.store.data i,
          (σ.shards (cfg.router.shardFor key)).idx.idx.store.deleted i)) = some (v, true) := hv
    obtain ⟨i, hi, hflag⟩ := Option.map_eq_some_iff.mp hv
    refine ⟨cfg.router.shardFor key, i, fun s' i' => ⟨fun hc => ?_, ?_⟩, congrArg Prod.snd hflag⟩
    · have hs := h.routed_copy hc
      subst hs
      exact ⟨rfl, Option.some.inj ((h.copy_iff.mp hc).symm.trans hi)⟩
    · rintro ⟨rfl, rfl⟩
      exact h.copy_iff.mpr hi

/-! ### Acknowledged deletions -/

/-- The shard acknowledged a deletion of the key for call `d`. -/
def Reply.Acks (r : Reply) (d : ℕ) (key : Label) : Prop :=
  r.message.call = d ∧ r.message.request = .delete ⟨some key⟩ ∧ r.result = .done (.ok ())

omit [Platform UInt32] in
theorem State.Sound.acked_reply (h : σ.Sound cfg) {d : ℕ} (ha : σ.Acked d key) :
    ∃ r ∈ σ.replies, r.Acks d key := by
  obtain ⟨r, hr, rfl, hres⟩ := h.acked d _ ha rfl
  obtain ⟨c, hc, hfor⟩ := h.sent r.message (h.replies r hr).1
  obtain rfl := Option.some.inj (ha.symm.trans hc)
  exact ⟨r, hr, rfl, hfor.1, hres⟩

omit [Platform UInt32] in
theorem State.Sound.call_lt (h : σ.Sound cfg) {r : Reply} (hr : r ∈ σ.replies) :
    r.message.call < σ.calls.length := by
  obtain ⟨c, hc, -⟩ := h.sent r.message (h.replies r hr).1
  exact (List.getElem?_eq_some_iff.mp hc).1

/-- **Acknowledging a deletion tombstones** a live key. -/
theorem tombstone_of_acks (h : σ.Sound cfg) {d : ℕ} {r : Reply}
    (hr : r ∈ (σ.perform cfg step).replies) (hnew : r ∉ σ.replies) (ha : r.Acks d key) :
    step.Handles σ d ∧ ¬ Tombstone cfg σ key ∧ Tombstone cfg (σ.perform cfg step) key := by
  obtain hold | ⟨i, disk, m, rfl, hi, rfl, hshard⟩ := mem_replies_perform hr
  · exact absurd hold hnew
  obtain ⟨hcall, hreq, hres⟩ := ha
  simp only at hcall hreq hres
  obtain ⟨c, -, hfor⟩ := h.sent m (List.mem_of_getElem? hi)
  have hm : m.shard = cfg.router.shardFor key := hfor.shard_eq (by rw [hreq]; rfl)
  rw [hreq] at hres hshard
  obtain ⟨v, hlive, hdead⟩ := (h.shards m.shard).delete_ok (ShardReply.done.inj hres)
  refine ⟨⟨m, hi, hcall⟩, ?_, v, ?_⟩
  · rintro ⟨v', hv'⟩
    rw [← hm, hlive] at hv'
    cases hv'
  · rw [← hm, hshard]
    exact hdead

/-- The step that tombstoned the key of an acknowledged deletion. -/
theorem exists_tombstoning (h : σ.Sound cfg) {d : ℕ} (hnone : σ.replies = [])
    (hids : HaveIds cfg σ steps) {r : Reply} (hr : r ∈ (σ.run cfg steps).replies)
    (ha : r.Acks d key) :
    ∃ x step y, steps = x ++ step :: y ∧ step.Handles (σ.run cfg x) d ∧
      ¬ Tombstone cfg (σ.run cfg x) key ∧ Tombstone cfg (σ.run cfg (x ++ [step])) key := by
  induction steps using List.reverseRecOn with
  | nil =>
    have hr : r ∈ σ.replies := hr
    rw [hnone] at hr
    cases hr
  | append_singleton steps step ih =>
    have hids' := (haveIds_append.mp hids).1
    by_cases hold : r ∈ (σ.run cfg steps).replies
    · obtain ⟨x, step', y, rfl, hx⟩ := ih hids' hold
      exact ⟨x, step', y ++ [step], by simp, hx⟩
    · rw [run_concat] at hr
      refine ⟨steps, step, [], rfl, ?_⟩
      rw [run_concat]
      exact tombstone_of_acks (h.run hids') hr hold ha

/-- A deletion for a call from `n` on was acknowledged only if the key is tombstoned now. -/
def Marked (cfg : Config) (n : ℕ) (key : Label) (σ : State) : Prop :=
  ∀ r ∈ σ.replies, ∀ d, n ≤ d → r.Acks d key → Tombstone cfg σ key

theorem Marked.run {n : ℕ} (hm : Marked cfg n key σ) (h : σ.Sound cfg) (hids : HaveIds cfg σ steps)
    (hno : ∀ step ∈ steps, ¬ step.Undeletes key) : Marked cfg n key (σ.run cfg steps) := by
  induction steps generalizing σ with
  | nil => exact hm
  | cons step steps ih =>
    rw [List.forall_mem_cons] at hno
    refine ih (fun r hr d hd ha => ?_) (h.perform hids.1) hids.2 hno.2
    by_cases hold : r ∈ σ.replies
    · exact (hm r hold d hd ha).perform h hids.1 hno.1
    · exact (tombstone_of_acks h hr hold ha).2.2

/-! ### Searches that begin after a deletion -/

/-- The key is neither gathered nor returned. -/
def Progress.Lacks (key : Label) : Progress → Prop
  | gathering _ _ _ g => key ∉ g.all.map Candidate.key
  | finished (.found (.ok r)) => key ∉ r.results.map ScoredKey.key
  | _ => True

theorem Progress.Lacks.gather {k : ℕ} {allowPartial : Bool} {missing : List ℕ}
    {g : Gathered UInt32} {shard : ℕ} {answer : Answer UInt32}
    (h : (gathering k allowPartial missing g).Lacks key)
    (ha : ∀ l, answer = .ok l → key ∉ l.map ScoredKey.key) :
    (gather cfg k allowPartial missing g shard answer).Lacks key := by
  have hall : key ∉ (g.receive allowPartial shard answer).all.map Candidate.key := by
    rw [all_receive, List.map_append, List.mem_append, not_or]
    refine ⟨h, ?_⟩
    cases answer with
    | error e => exact List.not_mem_nil
    | ok l =>
      rw [map_key_candidates]
      exact ha l rfl
  unfold Progress.gather
  simp only
  split_ifs with hlast
  · generalize hres : ((g.receive allowPartial shard answer).finish cfg.sort FloatOps.lt
      cfg.router.numShards k).map Coordinator.respond = res
    cases res with
    | error e => trivial
    | ok r => exact fun hmem => hall ((keys_respond hres).subset hmem)
  · exact hall

theorem Progress.Lacks.receive {p : Progress} (h : p.Lacks key) {shard : ℕ} {result : ShardReply}
    (hr : ∀ l, result = .found (.ok l) → key ∉ l.map ScoredKey.key) :
    (p.receive cfg shard result).Lacks key := by
  obtain hsame | ⟨r, -, hdone⟩ | ⟨k, allowPartial, missing, g, answer, rfl, -, rfl, hgather⟩ :=
    receive_cases cfg p shard result
  · rwa [hsame]
  · rw [hdone]
    trivial
  · rw [hgather]
    exact h.gather fun l hl => hr l (congrArg ShardReply.found hl)

theorem Progress.Lacks.giveUp {p : Progress} (h : p.Lacks key) (shard : ℕ) (e : Status) :
    (p.giveUp cfg shard e).Lacks key := by
  obtain hsame | hdone | ⟨k, allowPartial, missing, g, rfl, -, hgather⟩ :=
    giveUp_cases cfg p shard e
  · rwa [hsame]
  · rw [hdone]
    trivial
  · rw [hgather]
    exact h.gather fun l hl => nomatch hl

omit [Platform UInt32] in
theorem lacks_begin (cfg : Config) (coordinator id : ℕ) (request : Request) (key : Label) :
    (begin cfg coordinator id request).1.Lacks key := by
  cases request with
  | insert req =>
    cases hroute : (cfg.coordinator coordinator).routeInsert req <;> simp [begin, hroute, Progress.Lacks]
  | delete req =>
    cases hroute : (cfg.coordinator coordinator).routeDelete req <;> simp [begin, hroute, Progress.Lacks]
  | search req =>
    cases hplan : (cfg.coordinator coordinator).plan req <;>
      simp [begin, hplan, Progress.Lacks, Gathered.empty]

/-- The key is tombstoned, and no call from `n` on has it in an answer. -/
structure Gone (cfg : Config) (n : ℕ) (key : Label) (σ : State) : Prop where
  tombstone : Tombstone cfg σ key
  replies : ∀ r ∈ σ.replies, n ≤ r.message.call → ∀ l, r.result = .found (.ok l) →
    key ∉ l.map ScoredKey.key
  calls : ∀ (id : ℕ) c, n ≤ id → σ.calls[id]? = some c → c.progress.Lacks key

omit [Platform UInt32] in
/-- Nothing was begun yet from the next call on. -/
theorem Gone.start (ht : Tombstone cfg σ key) (h : σ.Sound cfg) :
    Gone cfg σ.calls.length key σ where
  tombstone := ht
  replies _ hr hn := absurd (h.call_lt hr) (not_lt.mpr hn)
  calls _ _ hn hc := absurd (List.getElem?_eq_some_iff.mp hc).1 (not_lt.mpr hn)

omit [Platform UInt32] in
theorem Gone.proceed {n id : ℕ} (hg : Gone cfg n key σ) {f : Progress → Progress}
    (hf : n ≤ id → ∀ p : Progress, p.Lacks key → (f p).Lacks key) :
    Gone cfg n key (σ.proceed id f) := by
  refine ⟨hg.tombstone, hg.replies, fun j c hn hc => ?_⟩
  simp only [State.proceed, List.getElem?_modify, Option.map_eq_map, Option.map_eq_some_iff] at hc
  obtain ⟨c', hc', rfl⟩ := hc
  split_ifs with hj
  · subst hj
    exact hf hn _ (hg.calls _ c' hn hc')
  · exact hg.calls j c' hn hc'

theorem Gone.perform {n : ℕ} (hg : Gone cfg n key σ) (h : σ.Sound cfg) (hid : step.HasId σ)
    (hno : ¬ step.Undeletes key) : Gone cfg n key (σ.perform cfg step) := by
  have ht := hg.tombstone.perform h hid hno
  cases step with
  | call coordinator request =>
    refine ⟨ht, hg.replies, fun j c hn hc => ?_⟩
    have hc : (σ.calls ++ [(⟨request, (begin cfg coordinator σ.calls.length request).1⟩ :
      ClientCall)])[j]? = some c := hc
    rw [List.getElem?_append] at hc
    split_ifs at hc with hlt
    · exact hg.calls j c hn hc
    · rw [List.mem_singleton.mp (List.mem_of_getElem? hc)]
      exact lacks_begin cfg coordinator _ request key
  | handle i disk =>
    refine ⟨ht, fun r hr hn l hl => ?_, ?_⟩
    · obtain hold | ⟨i', disk', m, -, -, rfl, -⟩ := mem_replies_perform hr
      · exact hg.replies r hold hn l hl
      · -- a live key in the answer of its shard, where it is tombstoned
        intro hmem
        obtain ⟨x, hx, rfl⟩ := List.mem_map.mp hmem
        obtain ⟨v, hv⟩ := (handle_found (h.shards m.shard) hl).2 x hx
        have hshard := h.routed m.shard x.key (hv ▸ rfl)
        obtain ⟨v', hv'⟩ := hg.tombstone
        rw [← hshard, hv] at hv'
        cases hv'
    · obtain ⟨hsame, -⟩ | ⟨m, -, hstep⟩ := σ.perform_handle cfg i disk
      · rw [hsame]
        exact hg.calls
      · rw [hstep]
        exact hg.calls
  | deliver i =>
    obtain hsame | ⟨r, hr, hstep⟩ := σ.perform_deliver cfg i
    · rwa [hsame]
    · rw [hstep]
      exact hg.proceed fun hn p hp => hp.receive (hg.replies r hr hn)
  | fail call shard e => exact hg.proceed fun _ p hp => hp.giveUp shard e
  | undelete shard req disk => exact ⟨ht, hg.replies, hg.calls⟩
  | snapshot shard => exact ⟨ht, hg.replies, hg.calls⟩

/-- **No call that is begun after a deletion gets its key**, while it is not undeleted. -/
theorem Gone.run {n : ℕ} (hg : Gone cfg n key σ) (h : σ.Sound cfg) (hids : HaveIds cfg σ steps)
    (hno : ∀ step ∈ steps, ¬ step.Undeletes key) : Gone cfg n key (σ.run cfg steps) := by
  induction steps generalizing σ with
  | nil => exact hg
  | cons step steps ih =>
    rw [List.forall_mem_cons] at hno
    exact ih (hg.perform h hids.1 hno.1) (h.perform hids.1) hids.2 hno.2

/-! ### Key identity -/

/-- **Cluster-wide key identity** holds in every run in which every new key comes to its shard while
the ids of the shard are not used up. -/
theorem keyIdentity {shards : ℕ → Shard.Server} (hfresh : Fresh shards)
    (hids : HaveIds cfg (State.start shards) steps) :
    KeyIdentity cfg (State.start shards) steps := by
  have hstart := sound_start hfresh cfg
  have hall : ∀ {x y : List Step}, steps = x ++ y → HaveIds cfg (State.start shards) x :=
    fun hxy => (haveIds_append.mp (hxy ▸ hids)).1
  have hsound : ∀ {x y : List Step}, steps = x ++ y →
      ((State.start shards).run cfg x).Sound cfg := fun hxy => hstart.run (hall hxy)
  have hend : ((State.start shards).run cfg steps).Sound cfg := hstart.run hids
  refine ⟨fun key s i hc => hend.routed_copy hc, fun key s i s' i' hc hc' => ?_,
    fun d key ha => ?_, fun q r hq => ?_, ?_⟩
  · have hs := (hend.routed_copy hc).trans (hend.routed_copy hc').symm
    subst hs
    exact ⟨rfl, Option.some.inj ((hend.copy_iff.mp hc).symm.trans (hend.copy_iff.mp hc'))⟩
  · obtain ⟨r, hr, hacks⟩ := hend.acked_reply ha
    obtain ⟨x, step, y, hsteps, hhandles, hlive, hdead⟩ :=
      exists_tombstoning hstart rfl hids hr hacks
    refine ⟨x, step, y, hsteps, hhandles, ?_, fun z hz hno => ?_⟩
    · rwa [(hsound hsteps).tombstoned_iff]
    · obtain ⟨y', rfl⟩ := hz
      have hz : steps = x ++ [step] ++ (z ++ y') := by rw [hsteps]; simp
      have hz' : steps = x ++ step :: z ++ y' := by rw [hsteps]; simp
      have hidz : HaveIds cfg ((State.start shards).run cfg (x ++ [step])) z :=
        (haveIds_append.mp (haveIds_append.mp (hz ▸ hids)).2).1
      have hrun := hdead.run (hsound hz) hidz hno
      rw [(hsound hz').tombstoned_iff]
      rwa [← run_append, List.append_assoc, List.singleton_append] at hrun
  · obtain ⟨req, hreq⟩ := hq
    exact hend.calls _ (List.mem_of_getElem? hreq)
  · intro w x y hsteps d key hd ha hno q r hq hfound
    have hw : steps = w ++ (x ++ y) := by rw [hsteps, List.append_assoc]
    have hidx : HaveIds cfg ((State.start shards).run cfg w) x :=
      (haveIds_append.mp (hall hsteps)).2
    have hidy : HaveIds cfg ((State.start shards).run cfg (w ++ x)) y :=
      (haveIds_append.mp (hsteps ▸ hids)).2
    -- nothing of call `d` was acknowledged after `w`
    have hmarked : Marked cfg ((State.start shards).run cfg w).calls.length key
        ((State.start shards).run cfg w) := by
      rintro r' hr' d' hd' ⟨rfl, -⟩
      exact absurd ((hsound hw).call_lt hr') (not_lt.mpr hd')
    have hmarked := hmarked.run (hsound hw) hidx fun step hstep =>
      hno step (List.mem_append_left _ hstep)
    rw [← run_append] at hmarked
    obtain ⟨r', hr', hacks⟩ := (hsound hsteps).acked_reply ha
    have hgone := (Gone.start (hmarked r' hr' d hd hacks) (hsound hsteps)).run (hsound hsteps) hidy
      fun step hstep => hno step (List.mem_append_right _ hstep)
    obtain ⟨req, hreq⟩ := hfound
    rw [← run_append, ← hsteps] at hgone
    exact hgone.calls q _ hq hreq

end

/-- A cluster of one shard. -/
def oneShard : Config := ⟨⟨1, Nat.one_pos, by decide⟩, fun _ => 100, Coordinator.SortSlice.merge⟩

/-- A cluster of two shards. -/
def twoShards : Config := ⟨⟨2, Nat.two_pos, by decide⟩, fun _ => 100, Coordinator.SortSlice.merge⟩

/-- Shards with one dimension that hold nothing. -/
def emptyShards : ℕ → Shard.Server := fun _ =>
  ⟨Durable.DurableIndex.fresh Hnsw.Index.wideParams 0, 100⟩

theorem fresh_emptyShards : Fresh emptyShards := fun _ => ⟨_, _, _, rfl⟩

/-- A shard that has ids left handles a request. -/
theorem hasId_handle {σ : State} {i : ℕ} {m : Message} (disk : Shard.Disk) (hm : σ.sent[i]? = some m)
    (hcount : (σ.shards m.shard).idx.idx.store.count < 2 ^ 32) : Step.HasId σ (.handle i disk) := by
  intro m' req key hm' _ _
  obtain rfl := Option.some.inj (hm.symm.trans hm')
  exact Or.inr hcount

/-- Two keys are inserted on different shards; one is deleted, and its shard gets the request twice.
After the `Delete` is acknowledged both shards are searched. -/
def deleteThenSearch : List Step := [.call 0 (.insert ⟨some ⟨1, 1⟩, [0]⟩), .handle 0 Shard.Disk.ok,
  .call 1 (.insert ⟨some ⟨1, 2⟩, [3]⟩), .handle 1 Shard.Disk.ok, .call 0 (.delete ⟨some ⟨1, 1⟩⟩),
  .handle 2 Shard.Disk.ok, .handle 2 Shard.Disk.ok, .deliver 2,
  .call 1 (.search ⟨[0], 2, 0, false⟩), .handle 4 Shard.Disk.ok, .handle 3 Shard.Disk.ok,
  .deliver 4, .deliver 5]

open Hnsw.StandIn in
theorem haveIds_deleteThenSearch :
    HaveIds twoShards (State.start emptyShards) deleteThenSearch := by
  have hfew : ∀ n : ℕ, n ≤ 1 → n < 2 ^ 32 := fun n hn => hn.trans_lt (by norm_num)
  exact ⟨trivial, hasId_handle _ rfl (hfew 0 zero_le_one), trivial,
    hasId_handle _ rfl (hfew 0 zero_le_one), trivial, hasId_handle _ rfl (hfew 1 le_rfl),
    hasId_handle _ rfl (hfew 1 le_rfl), trivial, trivial, hasId_handle _ rfl (hfew 1 le_rfl),
    hasId_handle _ rfl (hfew 1 le_rfl), trivial, trivial, trivial⟩

open Hnsw.StandIn in
/-- The key that was deleted is not found again. -/
theorem found_deleteThenSearch :
    ((State.start emptyShards).run twoShards deleteThenSearch).calls[3]? =
      some ⟨.search ⟨[0], 2, 0, false⟩, .finished (.found (.ok ⟨[⟨⟨1, 2⟩, 9⟩], 2, 0⟩))⟩ := by
  have hfinish : (Coordinator.Gathered.finish twoShards.sort Hnsw.FloatOps.lt 2 2
      ⟨[(⟨⟨1, 2⟩, 9, 0⟩ : Coordinator.Candidate UInt32)], 0, none⟩).map Coordinator.respond =
        .ok ⟨[⟨⟨1, 2⟩, 9⟩], 2, 0⟩ := by
    simp only [Coordinator.Gathered.finish, twoShards, Coordinator.SortSlice.merge,
      List.mergeSort_singleton]
    rfl
  rw [← hfinish]
  rfl

open Hnsw.StandIn in
theorem keyIdentity_deleted :
    ((State.start emptyShards).run twoShards deleteThenSearch).Acked 2 ⟨1, 1⟩ ∧
      ((State.start emptyShards).run twoShards deleteThenSearch).Found 3 ⟨[⟨⟨1, 2⟩, 9⟩], 2, 0⟩ ∧
        KeyIdentity twoShards (State.start emptyShards) deleteThenSearch :=
  ⟨by rfl, ⟨_, found_deleteThenSearch⟩, keyIdentity fresh_emptyShards haveIds_deleteThenSearch⟩

section
variable [Platform UInt32] {σ : State}

/-! ### A shard that works -/

/-- The log of the shard is open and all writes to it succeed. -/
structure Works (s : Shard.Server) : Prop where
  open_ : s.idx.walOpen = true
  wal : ∃ f, s.idx.dir.wal = some f

/-- A write that the log takes is the call on the index. -/
theorem Works.write {s : Shard.Server} (h : Works s) {c : Durable.Call}
    (hsized : c.Sized s.idx.idx.params.dim) (op : String) :
    (s.write c op Shard.Disk.ok).1.idx.idx = (c.onIndex s.idx.idx).1 ∧
      Works (s.write c op Shard.Disk.ok).1 ∧
        ((c.onIndex s.idx.idx).2 = .ok () → (s.write c op Shard.Disk.ok).2 = .ok ()) := by
  obtain ⟨f, hf⟩ := h.wal
  have henc : Wal.encode c.record = .ok _ :=
    (Wal.encode_eq_ok_iff _ _).mpr ⟨Durable.rule_record s.idx.idx.params.dim_pos hsized, rfl⟩
  have hperform := Durable.perform_done h.open_ hf henc
  have hio : Shard.Disk.ok.io = .done := rfl
  unfold Shard.Server.write
  rw [hio, hperform]
  refine ⟨rfl, ⟨rfl, _, rfl⟩, fun hok => ?_⟩
  simp only [hok]

/-- The deletion of a live key. -/
theorem Works.delete {s : Shard.Server} (h : Works s) {key : Label} {id : ℕ}
    (hid : s.idx.idx.store.labelToId key = some id)
    (hlive : s.idx.idx.store.deleted id = false) :
    (s.delete ⟨some key⟩ Shard.Disk.ok).2 = .ok () ∧
      (s.delete ⟨some key⟩ Shard.Disk.ok).1.idx.idx.store.count = s.idx.idx.store.count ∧
        (s.delete ⟨some key⟩ Shard.Disk.ok).1.idx.idx.store.labels = s.idx.idx.store.labels := by
  have hmark := Hnsw.Store.markDeleted_some hid
  rw [hlive] at hmark
  have hsized : (Durable.Call.markDeleted key).Sized s.idx.idx.params.dim := nofun
  obtain ⟨hidx, -, hres⟩ := h.write hsized "delete"
  obtain ⟨-, hstore, hres'⟩ := @Durable.onIndex_eq _ s.idx.idx _ hsized
  have hok : ((Durable.Call.markDeleted key).onIndex s.idx.idx).2 = .ok () := by
    rw [hres', Durable.Call.onStore, hmark]
    rfl
  have hdelete : s.delete ⟨some key⟩ Shard.Disk.ok =
      s.write (.markDeleted key) "delete" Shard.Disk.ok := rfl
  have hstore' : (s.delete ⟨some key⟩ Shard.Disk.ok).1.idx.idx.store =
      (s.idx.idx.store.markDeleted key).1 := by
    rw [hdelete, hidx, hstore]
    rfl
  rw [hstore', hmark]
  exact ⟨hres hok, rfl, rfl⟩

theorem insert_eq {s : Shard.Server} (hdim : s.idx.idx.params.dim = 1) (key : Label) :
    s.insert ⟨some key, [0]⟩ Shard.Disk.ok = s.write (.add [0] key) "insert" Shard.Disk.ok := by
  have hlen : ([0] : List UInt32).length = 1 := rfl
  unfold Shard.Server.insert
  simp only
  rw [if_neg (by rw [hlen]; decide), if_neg (fun h => h (hlen.trans hdim.symm))]

/-! ### Ids used up -/

/-- The keys that are inserted. -/
def numbered (i : ℕ) : Label := ⟨0, UInt64.ofNat (i + 1)⟩

omit [Platform UInt32] in
theorem numbered_inj {i j : ℕ} (hi : i < 2 ^ 32) (hj : j < 2 ^ 32) (h : numbered i = numbered j) :
    i = j := by
  have hlabel := congrArg (fun k : Label => k.label.toNat) h
  simp only [numbered, UInt64.toNat_ofNat'] at hlabel
  omega

/-- The shard works and holds the first `n` keys. -/
structure Holding (s : Shard.Server) (n : ℕ) : Prop where
  works : Works s
  params : s.idx.idx.params = Hnsw.Index.wideParams
  good : s.idx.idx.store.Good Hnsw.Index.wideParams
  count : s.idx.idx.store.count = n
  labels : ∀ i < n, s.idx.idx.store.labels i = numbered i
  unused : ∀ i, n ≤ i → s.idx.idx.store.labels i = ⟨0, 0⟩

omit [Platform UInt32] in
theorem holding_fresh (seed : UInt64) (ef : ℕ) :
    Holding ⟨Durable.DurableIndex.fresh Hnsw.Index.wideParams seed, ef⟩ 0 where
  works := ⟨rfl, _, rfl⟩
  params := rfl
  good := Hnsw.Store.Good.empty _
  count := rfl
  labels _ h := absurd h (Nat.not_lt_zero _)
  unused _ _ := rfl

/-- What an insertion does to the store of a shard that holds keys. -/
theorem Holding.insert_store {s : Shard.Server} {n : ℕ} (h : Holding s n) (key : Label) :
    Works (s.insert ⟨some key, [0]⟩ Shard.Disk.ok).1 ∧
      (s.insert ⟨some key, [0]⟩ Shard.Disk.ok).1.idx.idx.params = Hnsw.Index.wideParams ∧
        (s.insert ⟨some key, [0]⟩ Shard.Disk.ok).1.idx.idx.store =
          (s.idx.idx.store.add Hnsw.Index.wideParams [0] key).1 := by
  have hdim : s.idx.idx.params.dim = 1 := congrArg Hnsw.Params.dim h.params
  have hsized : (Durable.Call.add [0] key).Sized s.idx.idx.params.dim := by
    rintro vec key' ⟨⟩
    exact hdim.symm
  obtain ⟨hidx, hworks, -⟩ := h.works.write hsized "insert"
  obtain ⟨hparams, hstore, -⟩ := Durable.onIndex_eq hsized
  rw [insert_eq hdim, hidx]
  refine ⟨hworks, hparams.trans h.params, ?_⟩
  rw [hstore, h.params]
  rfl

/-- The next key. -/
theorem Holding.insert {s : Shard.Server} {n : ℕ} (h : Holding s n) (hn : n < 2 ^ 32) :
    Holding (s.insert ⟨some (numbered n), [0]⟩ Shard.Disk.ok).1 (n + 1) := by
  obtain ⟨hworks, hparams, hstore⟩ := h.insert_store (numbered n)
  have hnew : s.idx.idx.store.hasLabel (numbered n) = false := by
    by_contra hhas
    obtain ⟨i, hi⟩ := Option.isSome_iff_exists.mp (Bool.eq_true_of_not_eq_false hhas)
    obtain ⟨hlt, hlabel⟩ := h.good.label_of_id hi
    rw [h.count] at hlt
    rw [h.labels i hlt] at hlabel
    exact absurd (numbered_inj (by omega) hn hlabel) (by omega)
  have hroom : s.idx.idx.store.count < Hnsw.Index.wideParams.room := by
    rw [h.count, Hnsw.Index.room_wideParams]
    exact hn
  obtain ⟨hgood, -, -⟩ := h.good.add_new
    (rfl : ([0] : List UInt32).length = Hnsw.Index.wideParams.dim) hnew hroom
  have hlabels : (s.idx.idx.store.add Hnsw.Index.wideParams [0] (numbered n)).1.labels =
      Function.update s.idx.idx.store.labels n (numbered n) := by
    rw [Hnsw.Store.add_of_room [0] hnew hroom, h.count]
    rfl
  refine ⟨hworks, hparams, by rwa [hstore], ?_, fun i hi => ?_, fun i hi => ?_⟩
  · rw [hstore, Hnsw.Store.add_of_room [0] hnew hroom]
    exact congrArg (· + 1) h.count
  · rw [hstore, hlabels]
    by_cases hin : i = n
    · rw [hin, Function.update_self]
    · rw [Function.update_of_ne hin]
      exact h.labels i (by omega)
  · rw [hstore, hlabels, Function.update_of_ne (by omega)]
    exact h.unused i (by omega)

omit [Platform UInt32] in
theorem shardFor_oneShard (key : Label) : oneShard.router.shardFor key = 0 := by
  rw [Coordinator.Router.shardFor_eq]
  exact Nat.mod_one _

/-- `n` calls were made and handled, all by shard 0. -/
structure Handled (σ : State) (n : ℕ) : Prop where
  calls : σ.calls.length = n
  sent : σ.sent.length = n
  replies : σ.replies.length = n
  others : ∀ s ≠ 0, (σ.shards s).idx.idx.store.count = 0

/-- The next call is made and handled. -/
theorem Handled.next {n : ℕ} (h : Handled σ n) {request : Request} {toShard : ShardRequest}
    (hbegin : begin oneShard 0 n request = (.waiting, [⟨n, 0, toShard⟩])) :
    let σ' := σ.run oneShard [.call 0 request, .handle n Shard.Disk.ok]
    Handled σ' (n + 1) ∧ σ'.shards 0 = (handle (σ.shards 0) Shard.Disk.ok toShard).1 ∧
      σ'.calls = σ.calls ++ [⟨request, .waiting⟩] ∧
        σ'.replies = σ.replies ++
          [⟨⟨n, 0, toShard⟩, (handle (σ.shards 0) Shard.Disk.ok toShard).2⟩] := by
  intro σ'
  have hmessage : (σ.sent ++ [(⟨n, 0, toShard⟩ : Message)])[n]? = some ⟨n, 0, toShard⟩ := by
    rw [← h.sent]
    exact List.getElem?_concat_length
  have hσ' : σ' = { (σ.setShard 0 (handle (σ.shards 0) Shard.Disk.ok toShard).1) with
      calls := σ.calls ++ [⟨request, .waiting⟩]
      sent := σ.sent ++ [⟨n, 0, toShard⟩]
      replies := σ.replies ++
        [⟨⟨n, 0, toShard⟩, (handle (σ.shards 0) Shard.Disk.ok toShard).2⟩] } := by
    simp only [σ', State.run, List.foldl_cons, List.foldl_nil, State.perform, h.calls, hbegin,
      hmessage]
    rfl
  have hshard : (σ.setShard 0 (handle (σ.shards 0) Shard.Disk.ok toShard).1).shards 0 =
      (handle (σ.shards 0) Shard.Disk.ok toShard).1 := by
    simp only [State.setShard, Function.update_self]
  rw [hσ']
  refine ⟨⟨?_, ?_, ?_, fun s hs => ?_⟩, hshard, rfl, rfl⟩
  · rw [List.length_append, h.calls, List.length_singleton]
  · rw [List.length_append, h.sent, List.length_singleton]
  · rw [List.length_append, h.replies, List.length_singleton]
  · simp only [State.setShard, Function.update_of_ne hs]
    exact h.others s hs

omit [Platform UInt32] in
theorem begin_insert (n : ℕ) (key : Label) : begin oneShard 0 n (.insert ⟨some key, [0]⟩) =
    (.waiting, [⟨n, 0, .insert ⟨some key, [0]⟩⟩]) := by
  have hroute : (oneShard.coordinator 0).routeInsert ⟨some key, [0]⟩ = .ok (0, ⟨some key, [0]⟩) := by
    unfold Coordinator.Server.routeInsert
    simp only
    rw [if_neg (by decide)]
    exact congrArg (fun i => Except.ok (i, _)) (shardFor_oneShard key)
  simp only [begin, hroute]

omit [Platform UInt32] in
theorem begin_delete (n : ℕ) (key : Label) :
    begin oneShard 0 n (.delete ⟨some key⟩) = (.waiting, [⟨n, 0, .delete ⟨some key⟩⟩]) := by
  have hroute : (oneShard.coordinator 0).routeDelete ⟨some key⟩ = .ok (0, ⟨some key⟩) :=
    congrArg (fun i => Except.ok (i, _)) (shardFor_oneShard key)
  simp only [begin, hroute]

/-- Runs that insert the first `n` keys. -/
theorem exists_holding {shards : ℕ → Shard.Server} (hzero : Holding (shards 0) 0)
    (hothers : ∀ s ≠ 0, (shards s).idx.idx.store.count = 0) (n : ℕ) (hn : n ≤ 2 ^ 32) :
    ∃ steps, (∀ step ∈ steps, ∀ key, ¬ step.Undeletes key) ∧
      Handled ((State.start shards).run oneShard steps) n ∧
        Holding (((State.start shards).run oneShard steps).shards 0) n := by
  induction n with
  | zero => exact ⟨[], fun _ h => absurd h List.not_mem_nil, ⟨rfl, rfl, rfl, hothers⟩, hzero⟩
  | succ n ih =>
      obtain ⟨steps, hno, hhandled, hholding⟩ := ih (Nat.le_of_succ_le hn)
      obtain ⟨hnext, hshard, -⟩ := hhandled.next (begin_insert n (numbered n))
      refine ⟨steps ++ [.call 0 (.insert ⟨some (numbered n), [0]⟩), .handle n Shard.Disk.ok],
        fun step hstep key => ?_, ?_, ?_⟩
      · obtain hold | hnew := List.mem_append.mp hstep
        · exact hno step hold key
        · simp only [List.mem_cons, List.not_mem_nil, or_false] at hnew
          obtain rfl | rfl := hnew <;> exact id
      · rw [run_append]
        exact hnext
      · rw [run_append, hshard]
        exact hholding.insert hn

/-- One more key takes the place of the first one, which stays registered. -/
theorem Holding.overwrite {s : Shard.Server} {n : ℕ} (h : Holding s n) (hn : n = 2 ^ 32) :
    let s' := (s.insert ⟨some ⟨1, 0⟩, [0]⟩ Shard.Disk.ok).1
    Works s' ∧ s'.idx.idx.store.labelToId (numbered 0) = some 0 ∧
      s'.idx.idx.store.deleted 0 = false ∧ s'.idx.idx.store.count = n + 1 ∧
        ∀ i < n + 1, s'.idx.idx.store.labels i ≠ numbered 0 := by
  intro s'
  obtain ⟨hworks, -, hstore⟩ := h.insert_store ⟨1, 0⟩
  have hnew : s.idx.idx.store.hasLabel ⟨1, 0⟩ = false := by
    by_contra hhas
    obtain ⟨i, hi⟩ := Option.isSome_iff_exists.mp (Bool.eq_true_of_not_eq_false hhas)
    obtain ⟨hlt, hlabel⟩ := h.good.label_of_id hi
    rw [h.labels i (h.count ▸ hlt)] at hlabel
    exact absurd (congrArg Label.clientId hlabel) (by decide : (0 : UInt64) ≠ 1)
  have hwrapped : s.idx.idx.store.count % 2 ^ 32 = 0 := by rw [h.count, hn, Nat.mod_self]
  obtain ⟨-, hcount, ⟨hlabel, hlabels⟩, hids⟩ :=
    Hnsw.Index.add_of_wrapped (p := Hnsw.Index.wideParams) [0] hnew hwrapped
  have hpos : 0 < n := hn ▸ Nat.two_pow_pos 32
  have hzero := h.good.id_of_label (h.count ▸ hpos : 0 < s.idx.idx.store.count)
  rw [h.labels 0 hpos] at hzero
  have hne : numbered 0 ≠ ⟨1, 0⟩ := fun hkey =>
    absurd (congrArg Label.clientId hkey) (by decide : (0 : UInt64) ≠ 1)
  refine ⟨hworks, ?_, ?_, ?_, fun i hi => ?_⟩
  · rw [hstore, hids _ hne, hzero]
  · rw [hstore, Hnsw.Store.add_of_lt [0] hnew (hwrapped ▸ Hnsw.Index.wideParams.maxElements_pos),
      hwrapped]
    exact Function.update_self 0 false s.idx.idx.store.deleted
  · rw [hstore, hcount, h.count]
  · rw [hstore]
    by_cases hzero : i = 0
    · rw [hzero, hlabel]
      exact hne.symm
    · rw [hlabels i hzero]
      obtain hlt | rfl := Nat.lt_succ_iff_lt_or_eq.mp hi
      · rw [h.labels i hlt]
        exact fun hsame => hzero (numbered_inj (hn ▸ hlt) (Nat.two_pow_pos 32) hsame)
      · rw [h.unused i le_rfl]
        decide

/-- The reply to a deletion reaches its coordinator. -/
theorem deliver_ok {i id : ℕ} (hreply : σ.replies[i]? =
      some ⟨⟨id, 0, .delete ⟨some key⟩⟩, .done (.ok ())⟩)
    (hcall : σ.calls[id]? = some ⟨.delete ⟨some key⟩, .waiting⟩) :
    (σ.perform oneShard (.deliver i)).shards = σ.shards ∧
      (σ.perform oneShard (.deliver i)).Acked id key := by
  have hdeliver : σ.perform oneShard (.deliver i) = σ.proceed id fun p =>
      p.receive oneShard 0 (.done (.ok ())) := by
    simp only [State.perform, hreply]
  rw [hdeliver, State.Acked, State.proceed, List.getElem?_modify_eq, hcall]
  exact ⟨rfl, rfl⟩

/-- One key more than a shard has ids takes the place of the first one, whose deletion is
acknowledged although no copy of it is left. -/
theorem exists_wrapped (shards : ℕ → Shard.Server) (hzero : Holding (shards 0) 0)
    (hothers : ∀ s ≠ 0, (shards s).idx.idx.store.count = 0) {n : ℕ} (hn : n = 2 ^ 32) :
    ∃ steps, (∀ step ∈ steps, ∀ key, ¬ step.Undeletes key) ∧
      ((State.start shards).run oneShard steps).Acked (n + 1) (numbered 0) ∧
        ∀ s i, ¬ ((State.start shards).run oneShard steps).Copy (numbered 0) s i := by
  obtain ⟨steps, hno, hhandled, hholding⟩ := exists_holding hzero hothers n hn.le
  generalize hσ : (State.start shards).run oneShard steps = σ at hhandled hholding
  obtain ⟨hworks, hid, hlive, hcount, hgone⟩ := hholding.overwrite hn
  obtain ⟨hok, hcount', hlabels'⟩ := hworks.delete hid hlive
  obtain ⟨hnext₁, hshard₁, -, -⟩ := hhandled.next (begin_insert n ⟨1, 0⟩)
  generalize hσ₁ : σ.run oneShard [.call 0 (.insert ⟨some ⟨1, 0⟩, [0]⟩), .handle n Shard.Disk.ok] =
    σ₁ at hnext₁ hshard₁
  obtain ⟨hnext₂, hshard₂, hcalls₂, hreplies₂⟩ := hnext₁.next (begin_delete (n + 1) (numbered 0))
  generalize hσ₂ : σ₁.run oneShard [.call 0 (.delete ⟨some (numbered 0)⟩),
    .handle (n + 1) Shard.Disk.ok] = σ₂ at hnext₂ hshard₂ hcalls₂ hreplies₂
  have hreply : σ₂.replies[n + 1]? =
      some ⟨⟨n + 1, 0, .delete ⟨some (numbered 0)⟩⟩, .done (.ok ())⟩ := by
    rw [hreplies₂, ← hnext₁.replies, List.getElem?_concat_length]
    refine congrArg (fun result => some (Reply.mk _ (.done result))) ?_
    rw [hshard₁]
    exact hok
  have hcall : σ₂.calls[n + 1]? = some ⟨.delete ⟨some (numbered 0)⟩, .waiting⟩ := by
    rw [hcalls₂, ← hnext₁.calls, List.getElem?_concat_length]
  obtain ⟨hshards, hacked⟩ := deliver_ok hreply hcall
  have hcopy : ∀ s i, ¬ (σ₂.perform oneShard (.deliver (n + 1))).Copy (numbered 0) s i := by
    rintro s i ⟨hi, hkey⟩
    rw [hshards] at hi hkey
    by_cases hs : s = 0
    · subst hs
      rw [hshard₂, hshard₁] at hi hkey
      exact hgone i (hi.trans_eq (hcount'.trans hcount)) ((congrFun hlabels' i).symm.trans hkey)
    · rw [hnext₂.others s hs] at hi
      exact absurd hi (Nat.not_lt_zero i)
  refine ⟨steps ++ [.call 0 (.insert ⟨some ⟨1, 0⟩, [0]⟩), .handle n Shard.Disk.ok] ++
    [.call 0 (.delete ⟨some (numbered 0)⟩), .handle (n + 1) Shard.Disk.ok] ++ [.deliver (n + 1)],
    fun step hstep key => ?_, ?_⟩
  · simp only [List.mem_append, List.mem_cons, List.not_mem_nil, or_false] at hstep
    obtain ((hold | rfl | rfl) | rfl | rfl) | rfl := hstep
    · exact hno step hold key
    all_goals exact id
  · have hrun : ((((State.start shards).run oneShard steps).run oneShard
        [.call 0 (.insert ⟨some ⟨1, 0⟩, [0]⟩), .handle n Shard.Disk.ok]).run oneShard
        [.call 0 (.delete ⟨some (numbered 0)⟩), .handle (n + 1) Shard.Disk.ok]).run oneShard
        [.deliver (n + 1)] = σ₂.perform oneShard (.deliver (n + 1)) := by
      rw [hσ, hσ₁, hσ₂]
      rfl
    rw [run_append, run_append, run_append, hrun]
    exact ⟨hacked, hcopy⟩

end

open Hnsw.StandIn in
/-- One shard with room for `2 ^ 32 + 1` vectors gets that many keys. -/
theorem identity_lost :
    ∃ (shards : ℕ → Shard.Server) (steps : List Step), Fresh shards ∧
      ¬ KeyIdentity oneShard (State.start shards) steps := by
  -- nothing below computes with the number
  obtain ⟨n, hn⟩ : ∃ n : ℕ, n = 2 ^ 32 := ⟨_, rfl⟩
  obtain ⟨steps, hno, hacked, hcopy⟩ := exists_wrapped
    (fun _ => ⟨Durable.DurableIndex.fresh Hnsw.Index.wideParams 0, 100⟩) (holding_fresh 0 100)
    (fun _ _ => rfl) hn
  refine ⟨fun _ => ⟨Durable.DurableIndex.fresh Hnsw.Index.wideParams 0, 100⟩, steps,
    fun _ => ⟨_, _, _, rfl⟩, fun hident => ?_⟩
  obtain ⟨x, step, y, rfl, -, -, hstays⟩ := hident.tombstones _ _ hacked
  obtain ⟨s, i, hof, -⟩ := hstays y (List.prefix_refl y) fun step' hstep' =>
    hno step' (List.mem_append_right x (List.mem_cons_of_mem step hstep')) _
  exact hcopy s i ((hof s i).mpr ⟨rfl, rfl⟩)

end VectorSearch.Cluster
