import VectorSearch.Cluster.KeyIdentity
import VectorSearch.Shard.Effects

/-! # The cluster is one map of keys

To its clients the cluster is one map from keys to vectors (`State.keyMap`) on which `Insert`,
`Delete` and `Undelete` are atomic.  A write takes effect in the step in which the shard of its key
acknowledges it: `State.event` is that write, and `State.history` are those of a run in their order.

* `linearizable`: in every run the map is what the history makes of the empty map, each write of it
  changes the map, and a call that was acknowledged has its write between its begin and its end.
* `one_insert_acknowledged`: of all calls that insert a key, whatever coordinators they go to and
  however often they are tried, one at most is acknowledged, and the key keeps the vector of that
  one. -/

namespace VectorSearch.Cluster

open Durable (Effect)
open Hnsw (KeyMap KeyOp Label Platform)
open Rpc (DeleteRequest InsertRequest Status)

/-! ### Writes -/

/-- What the cluster stores. -/
def State.keyMap (cfg : Config) (σ : State) : KeyMap UInt32 := fun key =>
  (σ.shards (cfg.router.shardFor key)).entry key

/-- A write that took effect, and the call that it was for; an `Undelete` is for none. -/
structure Event where
  call : Option ℕ
  op : Label × KeyOp UInt32

/-- The reply acknowledges a write. -/
def ShardReply.acknowledges : ShardReply → Bool
  | .done result => result.isOk
  | .found _ => false

section
variable [Platform UInt32]

/-- The operation that a request asks of a shard. -/
def ShardRequest.op (p : Hnsw.Params) : ShardRequest → Option (Label × KeyOp UInt32)
  | .insert req => req.key.map fun key => (key, .add (p.prepare req.vector))
  | .delete req => req.key.map fun key => (key, .mark)
  | .search _ => none

/-- The operation that a client asks for. -/
def Request.op (p : Hnsw.Params) : Request → Option (Label × KeyOp UInt32)
  | .insert req => (ShardRequest.insert req).op p
  | .delete req => (ShardRequest.delete req).op p
  | .search _ => none

/-- The write that takes effect in a step. -/
def State.event (σ : State) : Step → Option Event
  | .handle i disk =>
      (σ.sent[i]?).bind fun m =>
        if (handle (σ.shards m.shard) disk m.request).2.acknowledges then
          (m.request.op (σ.shards m.shard).params).map fun op => ⟨some m.call, op⟩
        else none
  | .undelete shard req disk =>
      if ((σ.shards shard).undelete req disk).2.isOk then
        (req.key.map fun key => (key, .unmark)).map fun op => ⟨none, op⟩
      else none
  | _ => none

/-- The writes that take effect in a run. -/
def State.history (cfg : Config) (σ : State) (steps : List Step) : List Event :=
  History.history (State.perform cfg) State.event σ steps

/-- What a call that is acknowledged ends with. -/
def Progress.acked : Progress := .finished (.done (.ok ()))

/-- **The cluster is one map of keys** in a run. -/
structure Linearizable (cfg : Config) (σ : State) (steps : List Step) : Prop where
  /-- the map is what the writes make of the empty one, -/
  replay : (σ.run cfg steps).keyMap cfg =
    ((σ.history cfg steps).map Event.op).foldl KeyMap.apply fun _ => none
  /-- each of them changes it, -/
  legal : KeyMap.Legal (fun _ => none) ((σ.history cfg steps).map Event.op)
  /-- those of a call are what the client asked for, -/
  origin : ∀ e ∈ σ.history cfg steps, ∀ id, e.call = some id →
    ∃ c, (σ.run cfg steps).calls[id]? = some c ∧
      c.request.op (σ.shards (cfg.router.shardFor e.op.1)).params = some e.op
  /-- and a call that is acknowledged took effect while it was under way. -/
  acked : ∀ id request, (σ.run cfg steps).calls[id]? = some ⟨request, .acked⟩ →
    ∃ x step y e, steps = x ++ step :: y ∧ (σ.run cfg x).event step = some e ∧
      e.call = some id ∧ (σ.run cfg x).calls[id]? = some ⟨request, .waiting⟩

/-! ### One step -/

variable {cfg : Config} {σ : State} {steps : List Step} {step : Step} {key : Label}

omit [Platform UInt32] in
theorem acknowledges_iff (reply : ShardReply) :
    reply.acknowledges = true ↔ reply = .done (.ok ()) := by
  cases reply with
  | done result => cases result <;> simp [ShardReply.acknowledges, Except.isOk, Except.toBool]
  | found answer => simp [ShardReply.acknowledges]

/-- What a shard does to a request. -/
theorem handle_effect {s : Shard.Server} (h : s.Sound) (disk : Shard.Disk) {request : ShardRequest}
    (hid : ∀ req key, request = .insert req → req.key = some key →
      s.idx.idx.store.hasLabel key = true ∨ s.idx.idx.store.count < 2 ^ 32) :
    (handle s disk request).1.params = s.params ∧
      Effect s.entry (handle s disk request).1.entry (request.op s.params)
        ((handle s disk request).2.acknowledges = true) := by
  have hdone : ∀ result, ShardReply.done result = .done (.ok ()) ↔ result = .ok () := by simp
  simp only [acknowledges_iff]
  cases request with
  | insert req =>
    simp only [handle, hdone]
    exact h.insert_effect fun key hkey => hid req key rfl hkey
  | delete req =>
    simp only [handle, hdone]
    exact h.delete_effect req disk
  | search req => exact ⟨rfl, .none nofun⟩

omit [Platform UInt32] in
/-- What a change of a shard does to the map of the cluster. -/
theorem effect_setShard (cfg : Config) {i : ℕ} {s : Shard.Server} {o : Option (Label × KeyOp UInt32)} {ok : Prop}
    (h : Effect (σ.shards i).entry s.entry o ok)
    (ho : ∀ a, o = some a → KeyMap.Takes (σ.shards i).entry a → cfg.router.shardFor a.1 = i) :
    Effect (σ.keyMap cfg) ((σ.setShard i s).keyMap cfg) o ok := by
  have hother : ∀ key, cfg.router.shardFor key ≠ i →
      (σ.setShard i s).keyMap cfg key = σ.keyMap cfg key := fun key hkey => by
    simp only [State.keyMap, State.setShard, Function.update_of_ne hkey]
  have hown : ∀ key, cfg.router.shardFor key = i → (σ.setShard i s).keyMap cfg key = s.entry key ∧
      σ.keyMap cfg key = (σ.shards i).entry key := by
    rintro key rfl
    simp only [State.keyMap, State.setShard, Function.update_self, and_self]
  obtain ⟨⟨k, op⟩, rfl, hok, htakes, hmap⟩ | ⟨hno, hmap⟩ := h
  · have hk : cfg.router.shardFor k = i := ho (k, op) rfl htakes
    refine Or.inl ⟨(k, op), rfl, hok, ?_, funext fun key => ?_⟩
    · rw [KeyMap.takes_iff] at htakes ⊢
      rwa [(hown k hk).2]
    · by_cases hkey : key = k
      · subst hkey
        rw [(hown key hk).1, hmap, KeyMap.apply_same, KeyMap.apply_same, (hown key hk).2]
      · rw [KeyMap.apply_ne _ _ hkey]
        by_cases hi : cfg.router.shardFor key = i
        · rw [(hown key hi).1, hmap, KeyMap.apply_ne _ _ hkey, (hown key hi).2]
        · exact hother key hi
  · refine Or.inr ⟨hno, funext fun key => ?_⟩
    by_cases hi : cfg.router.shardFor key = i
    · rw [(hown key hi).1, hmap, (hown key hi).2]
    · exact hother key hi

omit [Platform UInt32] in
/-- The event of a write: it is what the write does. -/
theorem event_of_effect {m m' : KeyMap UInt32} {o : Option (Label × KeyOp UInt32)} {b : Bool}
    (h : Effect m m' o (b = true)) (call : Option ℕ) :
    m' = (if b then o.map fun op => (⟨call, op⟩ : Event) else none).elim m
        (fun e => m.apply e.op) ∧
      ∀ e, (if b then o.map fun op => (⟨call, op⟩ : Event) else none) = some e →
        m.Takes e.op := by
  obtain ⟨a, rfl, hok, htakes, hm⟩ | ⟨hno, hm⟩ := h
  · rw [if_pos hok]
    refine ⟨hm, fun e he => ?_⟩
    cases he
    exact htakes
  · rw [if_neg hno]
    exact ⟨hm, nofun⟩

theorem routedKey_of_op {request : ShardRequest} {p : Hnsw.Params} {a : Label × KeyOp UInt32}
    (h : request.op p = some a) : request.routedKey = some a.1 := by
  cases request with
  | insert req =>
    obtain ⟨k, hk, rfl⟩ := Option.map_eq_some_iff.mp h
    exact hk
  | delete req =>
    obtain ⟨k, hk, rfl⟩ := Option.map_eq_some_iff.mp h
    exact hk
  | search req => cases h

/-- **What a step does to the map is its event**, and the event takes effect. -/
theorem State.Sound.simulates (h : σ.Sound cfg) (hid : step.HasId σ) :
    History.Simulates (State.perform cfg) State.event (State.keyMap cfg)
        (fun m e => m.apply e.op) σ step ∧
      ∀ e, σ.event step = some e → (σ.keyMap cfg).Takes e.op := by
  unfold History.Simulates
  cases step with
  | call coordinator request => exact ⟨rfl, nofun⟩
  | fail call shard e => exact ⟨rfl, nofun⟩
  | deliver i =>
    refine ⟨?_, nofun⟩
    obtain hsame | ⟨r, -, hstep⟩ := σ.perform_deliver cfg i
    · rw [hsame]
      rfl
    · rw [hstep]
      rfl
  | handle i disk =>
    obtain ⟨hsame, hnone⟩ | ⟨m, hi, hstep⟩ := σ.perform_handle cfg i disk
    · simp only [State.event, hnone, Option.bind_none, hsame]
      exact ⟨rfl, nofun⟩
    · have heffect := (handle_effect (h.shards m.shard) disk fun req key hreq hkey =>
        hid m req key hi hreq hkey).2
      have hmap := effect_setShard cfg heffect fun a ha _ => by
        obtain ⟨c, -, hfor⟩ := h.sent m (List.mem_of_getElem? hi)
        exact (hfor.shard_eq (routedKey_of_op ha)).symm
      simp only [State.event, hi, Option.bind_some, hstep]
      exact event_of_effect hmap (some m.call)
  | undelete shard req disk =>
    have heffect := ((h.shards shard).undelete_effect req disk).2
    have hok : ((σ.shards shard).undelete req disk).2 = .ok () ↔
        ((σ.shards shard).undelete req disk).2.isOk = true := by
      cases ((σ.shards shard).undelete req disk).2 <;> simp [Except.isOk, Except.toBool]
    rw [hok] at heffect
    have hmap := effect_setShard cfg heffect fun a ha htakes => by
      obtain ⟨k, -, rfl⟩ := Option.map_eq_some_iff.mp ha
      -- the key is there, so it is on the shard of the router
      obtain ⟨v, hop, -⟩ | ⟨v, hop, -⟩ | ⟨v, -, hv, -⟩ := Hnsw.KeyMap.takes_cases htakes
      · cases hop
      · cases hop
      · exact (h.routed shard k (hv ▸ rfl)).symm
    simp only [State.event]
    exact event_of_effect hmap none
  | snapshot shard =>
    have hsame := ((σ.shards shard).snapshot_effect).2
    have hmap : Effect (σ.shards shard).entry (σ.shards shard).snapshot.entry none False :=
      Or.inr ⟨id, hsame⟩
    obtain ⟨a, ha, -⟩ | ⟨-, hmap⟩ := effect_setShard cfg hmap nofun
    · cases ha
    · exact ⟨hmap, nofun⟩

/-- The parameters of a shard stay. -/
theorem State.Sound.params_perform (h : σ.Sound cfg) (hid : step.HasId σ) (i : ℕ) :
    ((σ.perform cfg step).shards i).params = (σ.shards i).params := by
  have hset : ∀ {j : ℕ} {s : Shard.Server}, s.params = (σ.shards j).params →
      ((σ.setShard j s).shards i).params = (σ.shards i).params := by
    intro j s hs
    unfold State.setShard
    by_cases hij : i = j
    · subst hij
      simp only [Function.update_self, hs]
    · simp only [Function.update_of_ne hij]
  cases step with
  | call coordinator request => rfl
  | fail call shard e => rfl
  | deliver j =>
    obtain hsame | ⟨r, -, hstep⟩ := σ.perform_deliver cfg j
    · rw [hsame]
    · rw [hstep]
      rfl
  | handle j disk =>
    obtain ⟨hsame, -⟩ | ⟨m, hm, hstep⟩ := σ.perform_handle cfg j disk
    · rw [hsame]
    · rw [hstep]
      exact hset (handle_effect (h.shards m.shard) disk fun req key hreq hkey =>
        hid m req key hm hreq hkey).1
  | undelete shard req disk => exact hset ((h.shards shard).undelete_effect req disk).1
  | snapshot shard => exact hset ((σ.shards shard).snapshot_effect).1

theorem State.Sound.params_run (h : σ.Sound cfg) (hids : HaveIds cfg σ steps) (i : ℕ) :
    ((σ.run cfg steps).shards i).params = (σ.shards i).params := by
  induction steps generalizing σ with
  | nil => rfl
  | cons step steps ih =>
    exact (ih (h.perform hids.1) hids.2).trans (h.params_perform hids.1 i)

/-! ### Calls -/

theorem gather_ne_waiting (cfg : Config) (k : ℕ) (allowPartial : Bool) (missing : List ℕ)
    (g : Coordinator.Gathered UInt32) (shard : ℕ) (answer : Rpc.Answer UInt32) :
    Progress.gather cfg k allowPartial missing g shard answer ≠ .waiting := by
  unfold Progress.gather
  simp only
  split_ifs <;> nofun

/-- A call that waits has waited before. -/
theorem receive_eq_waiting {p : Progress} {shard : ℕ} {result : ShardReply}
    (h : p.receive cfg shard result = .waiting) : p = .waiting := by
  obtain hsame | ⟨r, -, hdone⟩ | ⟨k, allowPartial, missing, g, answer, -, -, -, hgather⟩ :=
    receive_cases cfg p shard result
  · exact hsame.symm.trans h
  · cases hdone.symm.trans h
  · exact absurd (hgather.symm.trans h) (gather_ne_waiting _ _ _ _ _ _ _)

theorem giveUp_eq_waiting {p : Progress} {shard : ℕ} {e : Status}
    (h : p.giveUp cfg shard e = .waiting) : p = .waiting := by
  obtain hsame | hdone | ⟨k, allowPartial, missing, g, -, -, hgather⟩ :=
    giveUp_cases cfg p shard e
  · exact hsame.symm.trans h
  · cases hdone.symm.trans h
  · exact absurd (hgather.symm.trans h) (gather_ne_waiting _ _ _ _ _ _ _)

/-- A reply acknowledges a call that waits. -/
theorem receive_acked {p : Progress} {shard : ℕ} {result : ShardReply}
    (h : p.receive cfg shard result = .acked) :
    p = .acked ∨ p = .waiting ∧ result.acknowledges = true := by
  obtain hsame | hres := receive_done h
  · exact Or.inl hsame
  · subst hres
    cases p with
    | waiting => exact Or.inr ⟨rfl, rfl⟩
    | gathering k allowPartial missing g => cases h
    | finished outcome => exact Or.inl h

/-- What a step does to the calls: nothing, a call is begun, or a call comes further. -/
theorem calls_perform (cfg : Config) (σ : State) (step : Step) :
    (σ.perform cfg step).calls = σ.calls ∨
      (∃ coordinator request, (σ.perform cfg step).calls =
        σ.calls ++ [⟨request, (begin cfg coordinator σ.calls.length request).1⟩]) ∨
      ∃ (id : ℕ) (f : Progress → Progress), (σ.perform cfg step).calls = (σ.proceed id f).calls ∧
        (∀ o, f (.finished o) = .finished o) ∧ (∀ p, f p = .waiting → p = .waiting) ∧
        ∀ p, f p = .acked → p = .acked ∨ p = .waiting ∧
          ∃ r ∈ σ.replies, r.message.call = id ∧ r.result.acknowledges = true := by
  cases step with
  | call coordinator request => exact Or.inr (Or.inl ⟨coordinator, request, rfl⟩)
  | handle i disk =>
    obtain ⟨hsame, -⟩ | ⟨m, -, hstep⟩ := σ.perform_handle cfg i disk
    · exact Or.inl (by rw [hsame])
    · exact Or.inl (by rw [hstep]; rfl)
  | deliver i =>
    obtain hsame | ⟨r, hr, hstep⟩ := σ.perform_deliver cfg i
    · exact Or.inl (by rw [hsame])
    · refine Or.inr (Or.inr ⟨_, _, by rw [hstep], fun o => by cases r.result <;> rfl,
        fun p => receive_eq_waiting, fun p hp => ?_⟩)
      exact (receive_acked hp).imp_right fun h => ⟨h.1, r, hr, rfl, h.2⟩
  | fail call shard e =>
    exact Or.inr (Or.inr ⟨call, _, rfl, fun o => rfl, fun p => giveUp_eq_waiting, fun p hp =>
      Or.inl (giveUp_done hp)⟩)
  | undelete shard req disk => exact Or.inl rfl
  | snapshot shard => exact Or.inl rfl

/-- What a step does to a call. -/
theorem call_perform (cfg : Config) (step : Step) {id : ℕ} {c : ClientCall} (hc : σ.calls[id]? = some c) :
    ∃ c', (σ.perform cfg step).calls[id]? = some c' ∧ c'.request = c.request ∧
      (c'.progress = .waiting → c.progress = .waiting) ∧
      (c'.progress = .acked → c.progress = .acked ∨ c.progress = .waiting ∧
        ∃ r ∈ σ.replies, r.message.call = id ∧ r.result.acknowledges = true) := by
  obtain hsame | ⟨coordinator, request, hnew⟩ | ⟨j, f, hstep, -, hwait, hack⟩ :=
    calls_perform cfg σ step
  · exact ⟨c, hsame ▸ hc, rfl, fun h => h, Or.inl⟩
  · refine ⟨c, ?_, rfl, fun h => h, Or.inl⟩
    rw [hnew, List.getElem?_append_left (List.getElem?_eq_some_iff.mp hc).1, hc]
  · rw [hstep]
    simp only [State.proceed, List.getElem?_modify, hc, Option.map_eq_map, Option.map_some]
    refine ⟨_, rfl, ?_⟩
    split_ifs with hj
    · subst hj
      exact ⟨rfl, hwait _, hack _⟩
    · exact ⟨rfl, fun h => h, Or.inl⟩

/-- A call that begins is not acknowledged yet. -/
theorem call_begun {id : ℕ} {c : ClientCall} (hnone : σ.calls[id]? = none)
    (hc : (σ.perform cfg step).calls[id]? = some c) : c.progress ≠ .acked := by
  obtain hsame | ⟨coordinator, request, hnew⟩ | ⟨j, f, hstep, -, -, -⟩ := calls_perform cfg σ step
  · rw [hsame, hnone] at hc
    cases hc
  · rw [hnew, List.getElem?_append_right (List.getElem?_eq_none_iff.mp hnone)] at hc
    rw [List.mem_singleton.mp (List.mem_of_getElem? hc)]
    exact (begin_spec cfg coordinator σ.calls.length request).2.1
  · rw [hstep, State.proceed, List.getElem?_modify, hnone] at hc
    cases hc

/-! ### Acknowledgements -/

section
variable {A : Type} {perform : State → A → State} {event : State → A → Option Event} {as : List A}

/-- A machine whose calls keep their requests, and in which a reply acknowledges a call that waits. -/
structure Replying (perform : State → A → State) : Prop where
  call : ∀ {σ : State} {a : A} {id : ℕ} {c : ClientCall}, σ.calls[id]? = some c →
    ∃ c', (perform σ a).calls[id]? = some c' ∧ c'.request = c.request ∧
      (c'.progress = .waiting → c.progress = .waiting) ∧
      (c'.progress = .acked → c.progress = .acked ∨ c.progress = .waiting ∧
        ∃ r ∈ σ.replies, r.message.call = id ∧ r.result.acknowledges = true)
  begun : ∀ {σ : State} {a : A} {id : ℕ} {c : ClientCall}, σ.calls[id]? = none →
    (perform σ a).calls[id]? = some c → c.progress ≠ .acked

/-- A new reply that acknowledges is given in a step in which a write takes effect. -/
def Effective (perform : State → A → State) (event : State → A → Option Event) (σ : State) (a : A) :
    Prop :=
  ∀ r ∈ (perform σ a).replies, r ∉ σ.replies → r.result.acknowledges = true →
    ∃ e, event σ a = some e ∧ e.call = some r.message.call ∧ (σ.calls[r.message.call]?).isSome

omit [Platform UInt32] in
/-- A call keeps its request, and one that waits at the end of a run waited all along. -/
theorem Replying.call_foldl (h : Replying perform) (as : List A) {id : ℕ} {c : ClientCall}
    (hc : σ.calls[id]? = some c) :
    ∃ c', (as.foldl perform σ).calls[id]? = some c' ∧ c'.request = c.request ∧
      (c'.progress = .waiting → c.progress = .waiting) := by
  induction as generalizing σ c with
  | nil => exact ⟨c, hc, rfl, fun h => h⟩
  | cons a as ih =>
    obtain ⟨c₁, hc₁, hreq₁, hwait₁, -⟩ := h.call hc
    obtain ⟨c₂, hc₂, hreq₂, hwait₂⟩ := ih hc₁
    exact ⟨c₂, hc₂, hreq₂.trans hreq₁, fun h => hwait₁ (hwait₂ h)⟩

/-- In the run a shard acknowledged a write for the call. -/
def TookEffect (perform : State → A → State) (event : State → A → Option Event) (σ : State)
    (as : List A) (id : ℕ) : Prop :=
  ∃ x a y e, as = x ++ a :: y ∧ event (x.foldl perform σ) a = some e ∧ e.call = some id ∧
    ((x.foldl perform σ).calls[id]?).isSome

omit [Platform UInt32] in
/-- **A reply that acknowledges** was given in a step in which a write took effect. -/
theorem tookEffect_of_reply
    (h : ∀ x a y, as = x ++ a :: y → Effective perform event (x.foldl perform σ) a)
    (hnone : σ.replies = []) {r : Reply} (hr : r ∈ (as.foldl perform σ).replies)
    (hack : r.result.acknowledges = true) : TookEffect perform event σ as r.message.call := by
  induction as using List.reverseRecOn with
  | nil =>
    have hr : r ∈ σ.replies := hr
    rw [hnone] at hr
    cases hr
  | append_singleton as a ih =>
    by_cases hold : r ∈ (as.foldl perform σ).replies
    · obtain ⟨x, b, y, e, rfl, he⟩ :=
        ih (fun x b y has => h x b (y ++ [a]) (by rw [has]; simp)) hold
      exact ⟨x, b, y ++ [a], e, by simp, he⟩
    · rw [List.foldl_append] at hr
      obtain ⟨e, he, hcall⟩ := h as a [] rfl r hr hold hack
      exact ⟨as, a, [], e, rfl, he, hcall⟩

omit [Platform UInt32] in
/-- **A call that is acknowledged** took effect while it was waiting. -/
theorem Replying.waiting_of_acked (hcalls : Replying perform)
    (h : ∀ x a y, as = x ++ a :: y → Effective perform event (x.foldl perform σ) a)
    (hnone : σ.replies = []) (hnew : σ.calls = []) {id : ℕ} {request : Request}
    (hc : (as.foldl perform σ).calls[id]? = some ⟨request, .acked⟩) :
    ∃ x a y e, as = x ++ a :: y ∧ event (x.foldl perform σ) a = some e ∧
      e.call = some id ∧ (x.foldl perform σ).calls[id]? = some ⟨request, .waiting⟩ := by
  induction as using List.reverseRecOn with
  | nil =>
    have hc : σ.calls[id]? = _ := hc
    rw [hnew] at hc
    cases hc
  | append_singleton as a ih =>
    have hbefore : ∀ x b y, as = x ++ b :: y → Effective perform event (x.foldl perform σ) b :=
      fun x b y has => h x b (y ++ [a]) (by rw [has]; simp)
    rw [List.foldl_append] at hc
    cases hthen : (as.foldl perform σ).calls[id]? with
    | none => exact absurd rfl (hcalls.begun hthen hc)
    | some c =>
      obtain ⟨c', hc', hreq, -, hack⟩ := hcalls.call (a := a) hthen
      obtain rfl := Option.some.inj (hc.symm.trans hc')
      obtain hacked | ⟨hwaits, r, hr, rfl, hres⟩ := hack rfl
      · have hsame : c = ⟨request, .acked⟩ := by
          cases c
          simp only at hreq hacked
          rw [← hreq, hacked]
        obtain ⟨x, b, y, e, rfl, he⟩ := ih hbefore (hsame ▸ hthen)
        exact ⟨x, b, y ++ [a], e, by simp, he⟩
      · obtain ⟨x, b, y, e, rfl, he, hcall, hbegun⟩ := tookEffect_of_reply hbefore hnone hr hres
        obtain ⟨c₀, hc₀⟩ := Option.isSome_iff_exists.mp hbegun
        obtain ⟨c₁, hc₁, hreq₁, hwait₁⟩ := hcalls.call_foldl (b :: y) hc₀
        rw [← List.foldl_append, hthen] at hc₁
        obtain rfl := Option.some.inj hc₁
        refine ⟨x, b, y ++ [a], e, by simp, he, hcall, hc₀.trans (congrArg some ?_)⟩
        cases c₀
        simp only at hreq hreq₁ hwait₁
        rw [← hreq₁, ← hreq, hwait₁ hwaits]

end

theorem replying (cfg : Config) : Replying (State.perform cfg) :=
  ⟨call_perform cfg _, call_begun⟩

theorem call_run (cfg : Config) (steps : List Step) {id : ℕ} {c : ClientCall}
    (hc : σ.calls[id]? = some c) :
    ∃ c', (σ.run cfg steps).calls[id]? = some c' ∧ c'.request = c.request ∧
      (c'.progress = .waiting → c.progress = .waiting) := (replying cfg).call_foldl steps hc

/-- A shard that acknowledges a write has been asked for one. -/
theorem op_of_acknowledges {m : Message} (h : σ.Sound cfg) (hm : m ∈ σ.sent) {disk : Shard.Disk}
    (hack : (handle (σ.shards m.shard) disk m.request).2.acknowledges = true)
    (p : Hnsw.Params) : ∃ op, m.request.op p = some op := by
  obtain ⟨c, -, hfor⟩ := h.sent m hm
  cases hc : c.request with
  | insert req =>
    rw [hc] at hfor
    obtain ⟨hreq, key, hkey, -⟩ := hfor
    exact ⟨_, by rw [hreq, ShardRequest.op, hkey]; rfl⟩
  | delete req =>
    rw [hc] at hfor
    obtain ⟨hreq, key, hkey, -⟩ := hfor
    exact ⟨_, by rw [hreq, ShardRequest.op, hkey]; rfl⟩
  | search req =>
    rw [hc] at hfor
    obtain ⟨req', hreq⟩ := hfor
    rw [hreq] at hack
    cases hack

/-- A shard that is asked for a write acknowledges it when the write takes effect. -/
theorem State.Sound.effective (h : σ.Sound cfg) (step : Step) :
    Effective (State.perform cfg) State.event σ step := by
  intro r hr hnew hack
  obtain hold | ⟨i, disk, m, rfl, hi, rfl, -⟩ := mem_replies_perform hr
  · exact absurd hold hnew
  have hm := List.mem_of_getElem? hi
  obtain ⟨c, hc, -⟩ := h.sent m hm
  obtain ⟨op, hop⟩ := op_of_acknowledges h hm hack (σ.shards m.shard).params
  refine ⟨⟨some m.call, op⟩, ?_, rfl, by rw [hc]; rfl⟩
  simp only [State.event, hi, Option.bind_some, if_pos hack, hop, Option.map_some]

/-- **A call that is acknowledged** took effect while it was waiting. -/
theorem tookEffect_of_acked (h : σ.Sound cfg) (hnone : σ.replies = []) (hcalls : σ.calls = [])
    (hids : HaveIds cfg σ steps) {id : ℕ} {request : Request}
    (hc : (σ.run cfg steps).calls[id]? = some ⟨request, .acked⟩) :
    ∃ x step y e, steps = x ++ step :: y ∧ (σ.run cfg x).event step = some e ∧
      e.call = some id ∧ (σ.run cfg x).calls[id]? = some ⟨request, .waiting⟩ := by
  refine (replying cfg).waiting_of_acked ?_ hnone hcalls hc
  rintro x step y rfl
  exact (h.run (haveIds_append.mp hids).1).effective step

/-- The write of a call is what its client asked for. -/
theorem op_of_event (h : σ.Sound cfg) {e : Event} (he : σ.event step = some e) {id : ℕ}
    (hid : e.call = some id) : ∃ c, σ.calls[id]? = some c ∧
      c.request.op (σ.shards (cfg.router.shardFor e.op.1)).params = some e.op := by
  cases step with
  | call | deliver | fail | snapshot => cases he
  | undelete shard req disk =>
    simp only [State.event] at he
    split_ifs at he
    obtain ⟨a, -, rfl⟩ := Option.map_eq_some_iff.mp he
    cases hid
  | handle i disk =>
    simp only [State.event] at he
    obtain ⟨m, hi, he⟩ := Option.bind_eq_some_iff.mp he
    split_ifs at he
    obtain ⟨a, hop, rfl⟩ := Option.map_eq_some_iff.mp he
    obtain rfl := Option.some.inj hid
    obtain ⟨c, hc, hfor⟩ := h.sent m (List.mem_of_getElem? hi)
    have hshard := hfor.shard_eq (routedKey_of_op hop)
    refine ⟨c, hc, ?_⟩
    rw [← hshard, ← hop]
    cases hreq : c.request with
    | insert req =>
      rw [hreq] at hfor
      rw [hfor.1, Request.op]
    | delete req =>
      rw [hreq] at hfor
      rw [hfor.1, Request.op]
    | search req =>
      rw [hreq] at hfor
      obtain ⟨req', hm⟩ := hfor
      rw [hm] at hop
      cases hop

/-! ### Runs -/

section
variable {shards : ℕ → Shard.Server}

omit [Platform UInt32] in
theorem keyMap_start (hfresh : Fresh shards) (cfg : Config) :
    (State.start shards).keyMap cfg = fun _ => none := by
  funext key
  obtain ⟨p, seed, ef, hs⟩ := hfresh (cfg.router.shardFor key)
  have hstart : (State.start shards).shards (cfg.router.shardFor key) = _ := hs
  rw [State.keyMap, hstart]
  rfl

/-- Every step of a run does to the map what its event says, and the event takes effect. -/
theorem State.Sound.simulates_run (h : σ.Sound cfg) (hids : HaveIds cfg σ steps) :
    ∀ x step y, steps = x ++ step :: y →
      History.Simulates (State.perform cfg) State.event (State.keyMap cfg)
          (fun m e => m.apply e.op) (σ.run cfg x) step ∧
        ∀ e, (σ.run cfg x).event step = some e → ((σ.run cfg x).keyMap cfg).Takes e.op := by
  rintro x step y rfl
  obtain ⟨hx, hy⟩ := haveIds_append.mp hids
  exact (h.run hx).simulates hy.1

/-- The map after a run is that of its history. -/
theorem keyMap_run (hfresh : Fresh shards) (hids : HaveIds cfg (State.start shards) steps) :
    ((State.start shards).run cfg steps).keyMap cfg =
      (((State.start shards).history cfg steps).map Event.op).foldl KeyMap.apply fun _ => none := by
  have hsim := (sound_start hfresh cfg).simulates_run hids
  have hrun := History.abs_run fun x step y hxy => (hsim x step y hxy).1
  rw [keyMap_start hfresh] at hrun
  rw [List.foldl_map]
  exact hrun

/-- Each write of a history changes the map. -/
theorem legal_run (hfresh : Fresh shards) (hids : HaveIds cfg (State.start shards) steps) :
    KeyMap.Legal (fun _ => none) (((State.start shards).history cfg steps).map Event.op) := by
  have hsim := (sound_start hfresh cfg).simulates_run hids
  have htakes : ∀ x step y e, steps = x ++ step :: y →
      ((State.start shards).run cfg x).event step = some e →
        (((State.start shards).run cfg x).keyMap cfg).Takes e.op := fun x step y e hxy =>
    (hsim x step y hxy).2 e
  have hlegal : History.Legal (fun m e => m.apply e.op) (fun m e => m.Takes e.op)
      ((State.start shards).keyMap cfg) ((State.start shards).history cfg steps) :=
    History.legal_history (fun x step y hxy => (hsim x step y hxy).1) htakes
  rw [keyMap_start hfresh] at hlegal
  exact (History.legal_map Event.op).mp hlegal

/-- The writes of a history are what the clients asked for. -/
theorem op_of_mem_history (h : σ.Sound cfg) (hids : HaveIds cfg σ steps) {e : Event}
    (he : e ∈ σ.history cfg steps) {id : ℕ} (hid : e.call = some id) :
    ∃ c, (σ.run cfg steps).calls[id]? = some c ∧
      c.request.op (σ.shards (cfg.router.shardFor e.op.1)).params = some e.op := by
  obtain ⟨x, step, y, rfl, hshown⟩ := History.mem_history.mp he
  have hx := (haveIds_append.mp hids).1
  obtain ⟨c, hc, hop⟩ := op_of_event (h.run hx) hshown hid
  obtain ⟨c', hc', hreq, -⟩ := call_run cfg (step :: y) hc
  rw [← run_append] at hc'
  refine ⟨c', hc', ?_⟩
  rw [hreq, ← hop, h.params_run hx]

/-- **The cluster is one map of keys**, in every run in which the ids of no shard are used up. -/
theorem linearizable (hfresh : Fresh shards) (hids : HaveIds cfg (State.start shards) steps) :
    Linearizable cfg (State.start shards) steps where
  replay := keyMap_run hfresh hids
  legal := legal_run hfresh hids
  origin _ he _ hid := op_of_mem_history (sound_start hfresh cfg) hids he hid
  acked _ _ hc := tookEffect_of_acked (sound_start hfresh cfg) rfl rfl hids hc

/-- **One call that inserts a key is acknowledged** at most, and the key keeps its vector. -/
theorem one_insert_acknowledged (hfresh : Fresh shards)
    (hids : HaveIds cfg (State.start shards) steps) {id id' : ℕ} {vec vec' : List UInt32}
    (hc : ((State.start shards).run cfg steps).calls[id]? =
      some ⟨.insert ⟨some key, vec⟩, .acked⟩)
    (hc' : ((State.start shards).run cfg steps).calls[id']? =
      some ⟨.insert ⟨some key, vec'⟩, .acked⟩) :
    id = id' ∧ ∃ b, ((State.start shards).run cfg steps).keyMap cfg key =
      some ((shards (cfg.router.shardFor key)).params.prepare vec, b) := by
  have hsound := sound_start hfresh cfg
  have hop : ∀ {e : Event} {i : ℕ} {v : List UInt32},
      ((State.start shards).run cfg steps).calls[i]? = some ⟨.insert ⟨some key, v⟩, .acked⟩ →
      e ∈ (State.start shards).history cfg steps → e.call = some i →
        e.op = (key, .add ((shards (cfg.router.shardFor key)).params.prepare v)) := by
    intro e i v hcall he hi
    obtain ⟨c, hc, hop⟩ := op_of_mem_history hsound hids he hi
    obtain rfl := Option.some.inj (hcall.symm.trans hc)
    simp only [Request.op, ShardRequest.op, Option.map_some, Option.some.injEq] at hop
    have hk : e.op.1 = key := by rw [← hop]
    rw [hk] at hop
    exact hop.symm
  have hmem : ∀ {i : ℕ} {v : List UInt32},
      ((State.start shards).run cfg steps).calls[i]? = some ⟨.insert ⟨some key, v⟩, .acked⟩ →
      ∃ x step y e, steps = x ++ step :: y ∧ ((State.start shards).run cfg x).event step = some e ∧
        e ∈ (State.start shards).history cfg steps ∧ e.call = some i := by
    intro i v hcall
    obtain ⟨x, step, y, e, hxy, he, hi, -⟩ := tookEffect_of_acked hsound rfl rfl hids hcall
    exact ⟨x, step, y, e, hxy, he, History.mem_history.mpr ⟨x, step, y, hxy, he⟩, hi⟩
  obtain ⟨x, step, y, e, rfl, he, hin, hi⟩ := hmem hc
  obtain ⟨-, -, -, e', -, -, hin', hi'⟩ := hmem hc'
  have hsplit : (State.start shards).history cfg (x ++ step :: y) = _ := History.history_split he
  have hlegal := legal_run hfresh hids
  have hmap := keyMap_run hfresh hids
  rw [hsplit, List.map_append, List.map_cons, hop hc hin hi] at hlegal hmap
  obtain ⟨hno, hlast⟩ := KeyMap.Legal.add_once hlegal
  refine ⟨?_, hmap ▸ hlast⟩
  -- another write that adds the key would be one of the history
  have hother := hop hc' hin' hi'
  rw [hsplit] at hin'
  obtain hx | rfl | hy : e' ∈ _ ∨ e' = e ∨ e' ∈ _ :=
    (List.mem_append.mp hin').imp_right List.mem_cons.mp
  · exact absurd (List.mem_append_left _ (List.mem_map.mpr ⟨e', hx, hother⟩)) (hno _)
  · exact Option.some.inj (hi.symm.trans hi')
  · exact absurd (List.mem_append_right _ (List.mem_map.mpr ⟨e', hy, hother⟩)) (hno _)

end

end

/-- Two coordinators insert one key, and the shard gets the second request before the first. -/
def racing : List Step := [.call 0 (.insert ⟨some ⟨1, 1⟩, [0]⟩), .call 1 (.insert ⟨some ⟨1, 1⟩, [1]⟩),
  .handle 1 Shard.Disk.ok, .handle 0 Shard.Disk.ok, .handle 1 Shard.Disk.ok, .deliver 0]

open Hnsw.StandIn in
theorem haveIds_racing : HaveIds oneShard (State.start emptyShards) racing := by
  have hfew : ∀ n : ℕ, n ≤ 1 → n < 2 ^ 32 := fun n hn => hn.trans_lt (by norm_num)
  exact ⟨trivial, trivial, hasId_handle _ rfl (hfew 0 zero_le_one),
    hasId_handle _ rfl (hfew 1 le_rfl), hasId_handle _ rfl (hfew 1 le_rfl), trivial, trivial⟩

open Hnsw.StandIn in
theorem linearizable_racing : Linearizable oneShard (State.start emptyShards) racing :=
  linearizable fresh_emptyShards haveIds_racing

open Hnsw.StandIn in
/-- The second call is acknowledged, and the key has its vector. -/
theorem one_insert_acknowledged_racing :
    ∃ b, ((State.start emptyShards).run oneShard racing).keyMap oneShard ⟨1, 1⟩ = some ([1], b) := by
  have hacked : ((State.start emptyShards).run oneShard racing).calls[1]? =
      some ⟨.insert ⟨some ⟨1, 1⟩, [1]⟩, .acked⟩ := rfl
  exact (one_insert_acknowledged fresh_emptyShards haveIds_racing hacked hacked).2

end VectorSearch.Cluster
