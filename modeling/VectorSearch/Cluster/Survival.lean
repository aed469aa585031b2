import VectorSearch.Cluster.Restarts

/-! # What survives

The clients of a cluster whose shards die and are started again.

* `survives_restarts`: the map of the cluster is what the acknowledged writes make of the empty one,
  but for a tombstone on a key of which a `Delete` was refused before the key was there.
* `acknowledged_lasts`: an `Insert` that was acknowledged is the only one of its key, and its vector
  is there from then on, live if no client deletes the key; a key of which a `Delete` was acknowledged
  has its tombstone from then on, if it is not undeleted.
* `always_restarts`: while no shard has said that it is full, every shard that dies can be started
  again, with its entries. -/

namespace VectorSearch.Cluster

open Durable (Answer DurableIndex openIndex)
open Hnsw (KeyMap KeyOp Label Platform)
open Hnsw.KeyOp (Buried)

section
variable [Platform UInt32] {disks : ℕ → Durable.Config} {cfg : Config} {σ : State}
  {hs x y : List Happening} {h : Happening} {key : Label} {e : Event}

/-- **What survives** in a run. -/
structure Survives (cfg : Config) (σ : State) (hs : List Happening) : Prop where
  /-- every entry is what the writes that took effect make of it, or it has a tombstone more, -/
  kept : ∀ key, Buried (σ.recorded cfg hs key) ((σ.after cfg hs).keyMap cfg key)
  /-- which it has not unless a `Delete` of the key came before the key; -/
  exact : ∀ key, ¬ DeletedEarly cfg σ hs key →
    (σ.after cfg hs).keyMap cfg key = σ.recorded cfg hs key
  /-- the writes of a call are what the client asked for, -/
  origin : ∀ e ∈ σ.writes cfg hs, ∀ id, e.call = some id →
    ∃ c, (σ.after cfg hs).calls[id]? = some c ∧
      c.request.op (σ.shards (cfg.router.shardFor e.op.1)).params = some e.op
  /-- and a call that is acknowledged took effect while it was under way. -/
  acked : ∀ id request, (σ.after cfg hs).calls[id]? = some ⟨request, .acked⟩ →
    ∃ x h y e, hs = x ++ h :: y ∧ (σ.after cfg x).effect h = some e ∧ e.call = some id ∧
      (σ.after cfg x).calls[id]? = some ⟨request, .waiting⟩

/-! ### Calls -/

theorem replying_happen (cfg : Config) : Replying (State.happen cfg) where
  call {σ h _ c} hc := by
    cases h with
    | step step => exact call_perform cfg step hc
    | snapshotFails i s left => exact ⟨c, hc, rfl, fun h => h, Or.inl⟩
    | restart i s => exact ⟨c, hc, rfl, fun h => h, Or.inl⟩
  begun {σ h _ c} hnone hc := by
    cases h with
    | step step => exact call_begun hnone hc
    | snapshotFails i s left => exact absurd (hnone.symm.trans hc) nofun
    | restart i s => exact absurd (hnone.symm.trans hc) nofun

theorem State.Sound.effective_happen (hσ : σ.Sound cfg) (h : Happening) :
    Effective (State.happen cfg) State.effect σ h := by
  cases h with
  | step step => exact hσ.effective step
  | snapshotFails i s left => exact fun r hr hnew => absurd hr hnew
  | restart i s => exact fun r hr hnew => absurd hr hnew

/-- A call keeps its request. -/
theorem call_after (cfg : Config) (hs : List Happening) {id : ℕ} {c : ClientCall}
    (hc : σ.calls[id]? = some c) :
    ∃ c', (σ.after cfg hs).calls[id]? = some c' ∧ c'.request = c.request ∧
      (c'.progress = .waiting → c.progress = .waiting) := (replying_happen cfg).call_foldl hs hc

theorem after_append (cfg : Config) (σ : State) (x y : List Happening) :
    σ.after cfg (x ++ y) = (σ.after cfg x).after cfg y := List.foldl_append

/-- The key of a request. -/
theorem key_of_op {request : Request} {p p' : Hnsw.Params} {a a' : Label × KeyOp UInt32}
    (h : request.op p = some a) (h' : request.op p' = some a') : a.1 = a'.1 := by
  have hkey : ∀ request : ShardRequest, request.op p = some a → request.op p' = some a' → a.1 = a'.1 :=
    fun request h h' => Option.some.inj ((routedKey_of_op h).symm.trans (routedKey_of_op h'))
  cases request with
  | insert req => exact hkey (.insert req) h h'
  | delete req => exact hkey (.delete req) h h'
  | search req => cases h

/-- A write is for a call, or it is an `Undelete`. -/
theorem effect_cases (he : σ.effect h = some e) :
    (∃ id, e.call = some id) ∧ e.op.2 ≠ .unmark ∨ e.op.2 = .unmark ∧ h.Undeletes e.op.1 := by
  cases h with
  | snapshotFails i s left => cases he
  | restart i s => cases he
  | step step =>
    cases step with
    | call | deliver | fail | snapshot => cases he
    | undelete shard req disk =>
      simp only [State.effect, State.event] at he
      split_ifs at he
      obtain ⟨op, hop, rfl⟩ := Option.map_eq_some_iff.mp he
      obtain ⟨k, hk, rfl⟩ := Option.map_eq_some_iff.mp hop
      exact Or.inr ⟨rfl, hk⟩
    | handle i disk =>
      simp only [State.effect, State.event] at he
      obtain ⟨m, -, he⟩ := Option.bind_eq_some_iff.mp he
      split_ifs at he
      obtain ⟨op, hop, rfl⟩ := Option.map_eq_some_iff.mp he
      refine Or.inl ⟨⟨_, rfl⟩, ?_⟩
      cases hreq : m.request with
      | search req =>
        rw [hreq] at hop
        cases hop
      | insert req | delete req =>
        rw [hreq] at hop
        obtain ⟨k, -, rfl⟩ := Option.map_eq_some_iff.mp hop
        intro hunmark
        cases hunmark

omit [Platform UInt32] in
/-- The operations on a key are those of writes. -/
theorem mem_opsOn {es : List Event} {op : KeyOp UInt32}
    (h : op ∈ KeyMap.opsOn key (es.map Event.op)) : ∃ e ∈ es, e.op = (key, op) := by
  obtain ⟨⟨k, op'⟩, hmem, rfl⟩ := List.mem_map.mp h
  obtain ⟨hmem, hkey⟩ := List.mem_filter.mp hmem
  obtain ⟨e, he, heq⟩ := List.mem_map.mp hmem
  have hk : k = key := of_decide_eq_true hkey
  exact ⟨e, he, by rw [heq, hk]⟩

/-- What becomes of an entry after a write. -/
theorem recorded_of_write {call : Option ℕ} {op : KeyOp UInt32}
    (he : (σ.after cfg x).effect h = some ⟨call, (key, op)⟩) (y : List Happening) :
    σ.recorded cfg (x ++ h :: y) key =
      (KeyMap.opsOn key (((σ.after cfg (x ++ [h])).writes cfg y).map Event.op)).foldl KeyOp.cell
        (op.cell (σ.recorded cfg x key)) := by
  rw [recorded_split he, KeyMap.run_at, KeyMap.apply_same]

/-- One write of two that insert a key on nothing is the other. -/
theorem inserted_once {x' y' : List Happening} {h' : Happening} {id id' : ℕ} {v v' : List UInt32}
    (he : (σ.after cfg x).effect h = some ⟨some id, (key, .add v)⟩)
    (hx : σ.recorded cfg x key = none)
    (he' : (σ.after cfg x').effect h' = some ⟨some id', (key, .add v')⟩)
    (hx' : σ.recorded cfg x' key = none) (heq : x ++ h :: y = x' ++ h' :: y') : id = id' := by
  -- the entry of the earlier one is there from then on
  have hthere : ∀ {x z : List Happening} {h : Happening} {id : ℕ} {v : List UInt32},
      (σ.after cfg x).effect h = some ⟨some id, (key, .add v)⟩ → σ.recorded cfg x key = none →
        σ.recorded cfg (x ++ h :: z) key ≠ none := by
    intro x z h id v he hx
    rw [recorded_of_write he, hx, KeyOp.cell, Hnsw.KeyOp.foldl_cell_some]
    exact Option.some_ne_none _
  obtain ⟨z, rfl, hz⟩ | ⟨z, rfl, hz⟩ := List.append_eq_append_iff.mp heq
  · cases z with
    | nil =>
      obtain ⟨rfl, -⟩ := List.cons.inj hz
      rw [List.append_nil, he] at he'
      exact Option.some.inj (Event.mk.inj (Option.some.inj he')).1
    | cons a z =>
      obtain ⟨rfl, -⟩ := List.cons.inj hz
      exact absurd hx' (hthere he hx)
  · cases z with
    | nil =>
      obtain ⟨rfl, -⟩ := List.cons.inj hz
      rw [List.append_nil, he'] at he
      exact (Option.some.inj (Event.mk.inj (Option.some.inj he)).1).symm
    | cons a z =>
      obtain ⟨rfl, -⟩ := List.cons.inj hz
      exact absurd hx (hthere he' hx')

/-- A write changes the entry of its key. -/
theorem State.Sound.takes_effect (hσ : σ.Sound cfg) (hh : h.Possible disks σ)
    (he : σ.effect h = some e) : (σ.keyMap cfg).Takes e.op := by
  cases h with
  | step step => exact (hσ.simulates hh.hasId).2 e he
  | snapshotFails i s left => cases he
  | restart i s => cases he

/-! ### Runs -/

section
variable {shards : ℕ → Shard.Server}

/-- The run up to a happening. -/
theorem Deployed.told_before (hdep : Deployed disks shards)
    (hall : AllPossible disks cfg (State.start shards) (x ++ h :: y)) :
    ((State.start shards).after cfg x).Sound cfg ∧ h.Possible disks ((State.start shards).after cfg x) ∧
      ∀ i, ∃ answers, Told disks cfg (State.start shards) x i answers := by
  obtain ⟨hx, hh, -⟩ := allPossible_append.mp hall
  obtain ⟨hsound, ht⟩ := hdep.told hx
  exact ⟨hsound, hh, ht⟩

/-- The writes of a call are what its client asked for. -/
theorem Deployed.op_of_mem_writes (hdep : Deployed disks shards)
    (hall : AllPossible disks cfg (State.start shards) hs)
    (he : e ∈ (State.start shards).writes cfg hs) {id : ℕ} (hid : e.call = some id) :
    ∃ c, ((State.start shards).after cfg hs).calls[id]? = some c ∧
      c.request.op (shards (cfg.router.shardFor e.op.1)).params = some e.op := by
  obtain ⟨x, h, y, rfl, hshown⟩ := History.mem_history.mp he
  obtain ⟨hsound, -, ht⟩ := hdep.told_before hall
  cases h with
  | snapshotFails i s left => cases hshown
  | restart i s => cases hshown
  | step step =>
    obtain ⟨c, hc, hop⟩ := op_of_event hsound hshown hid
    obtain ⟨c', hc', hreq, -⟩ := call_after cfg (.step step :: y) hc
    rw [← after_append] at hc'
    refine ⟨c', hc', ?_⟩
    obtain ⟨answers, ht⟩ := ht (cfg.router.shardFor e.op.1)
    have hparams := ht.params
    rw [hreq, ← hop]
    exact congrArg (fun p => c.request.op p) hparams.symm

/-- A call that is acknowledged took effect while it was waiting. -/
theorem Deployed.write_of_acked (hdep : Deployed disks shards)
    (hall : AllPossible disks cfg (State.start shards) hs) {id : ℕ} {request : Request}
    (hc : ((State.start shards).after cfg hs).calls[id]? = some ⟨request, .acked⟩) :
    ∃ x h y e, hs = x ++ h :: y ∧ ((State.start shards).after cfg x).effect h = some e ∧
      e.call = some id ∧ ((State.start shards).after cfg x).calls[id]? = some ⟨request, .waiting⟩ := by
  refine (replying_happen cfg).waiting_of_acked ?_ rfl rfl hc
  rintro x h y rfl
  exact (hdep.told_before hall).1.effective_happen h

/-- What is recorded of a key. -/
theorem Deployed.entry (hdep : Deployed disks shards)
    (hall : AllPossible disks cfg (State.start shards) hs) (key : Label) :
    Buried ((State.start shards).recorded cfg hs key)
        (((State.start shards).after cfg hs).keyMap cfg key) ∧
      (¬ DeletedEarly cfg (State.start shards) hs key →
        ((State.start shards).after cfg hs).keyMap cfg key =
          (State.start shards).recorded cfg hs key) := by
  obtain ⟨answers, ht⟩ := (hdep.told hall).2 (cfg.router.shardFor key)
  exact ht.entry rfl

/-- **What was acknowledged survives**, however often the shards die. -/
theorem survives_restarts (hdep : Deployed disks shards)
    (hall : AllPossible disks cfg (State.start shards) hs) :
    Survives cfg (State.start shards) hs where
  kept key := (hdep.entry hall key).1
  exact key := (hdep.entry hall key).2
  origin _ he _ hid := hdep.op_of_mem_writes hall he hid
  acked _ _ hc := hdep.write_of_acked hall hc

/-! ### What a client may rely on -/

/-- The write of an acknowledged call: it took effect on what was recorded. -/
theorem Deployed.effect_of_acked (hdep : Deployed disks shards)
    (hall : AllPossible disks cfg (State.start shards) hs) {id : ℕ} {request : Request}
    {op : KeyOp UInt32} (hc : ((State.start shards).after cfg hs).calls[id]? = some ⟨request, .acked⟩)
    (hop : request.op (shards (cfg.router.shardFor key)).params = some (key, op)) :
    ∃ x h y, hs = x ++ h :: y ∧
      ((State.start shards).after cfg x).effect h = some ⟨some id, (key, op)⟩ ∧
      (((State.start shards).after cfg x).keyMap cfg).Takes (key, op) ∧
      Buried ((State.start shards).recorded cfg x key)
        (((State.start shards).after cfg x).keyMap cfg key) := by
  obtain ⟨x, h, y, e, rfl, he, hid, -⟩ := hdep.write_of_acked hall hc
  obtain ⟨hsound, hh, -⟩ := hdep.told_before hall
  obtain ⟨c, hc', hop'⟩ := hdep.op_of_mem_writes hall (History.mem_history.mpr ⟨x, h, y, rfl, he⟩) hid
  obtain rfl := Option.some.inj (hc.symm.trans hc')
  have hkey : e.op.1 = key := key_of_op hop' hop
  rw [hkey] at hop'
  have heop : e.op = (key, op) := Option.some.inj (hop'.symm.trans hop)
  obtain ⟨call, op'⟩ := e
  obtain rfl : call = some id := hid
  obtain rfl : op' = (key, op) := heop
  exact ⟨x, h, y, rfl, he, hsound.takes_effect hh he,
    (hdep.entry (allPossible_append.mp hall).1 key).1⟩

/-- A write that marks the key is for a client that asks for its deletion. -/
theorem Deployed.delete_of_mark (hdep : Deployed disks shards)
    (hall : AllPossible disks cfg (State.start shards) hs)
    (he : e ∈ (State.start shards).writes cfg hs) (hop : e.op = (key, .mark)) :
    ∃ c ∈ ((State.start shards).after cfg hs).calls, c.request = .delete ⟨some key⟩ := by
  obtain ⟨x, h, y, -, hshown⟩ := History.mem_history.mp he
  obtain ⟨⟨id, hid⟩, -⟩ | ⟨hunmark, -⟩ := effect_cases hshown
  · obtain ⟨c, hc, hcop⟩ := hdep.op_of_mem_writes hall he hid
    refine ⟨c, List.mem_of_getElem? hc, ?_⟩
    rw [hop] at hcop
    cases hreq : c.request with
    | insert req =>
      rw [hreq] at hcop
      obtain ⟨k, -, hk⟩ := Option.map_eq_some_iff.mp hcop
      cases hk
    | delete req =>
      rw [hreq] at hcop
      obtain ⟨k, hkey, hk⟩ := Option.map_eq_some_iff.mp hcop
      obtain ⟨rfl, -⟩ := Prod.mk.inj hk
      cases req
      exact congrArg (fun key => Request.delete ⟨key⟩) hkey
    | search req =>
      rw [hreq] at hcop
      cases hcop
  · rw [hop] at hunmark
    cases hunmark

/-- So is a deletion that came too early. -/
theorem Deployed.delete_of_early (hdep : Deployed disks shards)
    (hall : AllPossible disks cfg (State.start shards) hs)
    (hearly : DeletedEarly cfg (State.start shards) hs key) :
    ∃ c ∈ ((State.start shards).after cfg hs).calls, c.request = .delete ⟨some key⟩ := by
  obtain ⟨x, i, disk, y, m, rfl, hi, hm, -⟩ := hearly
  obtain ⟨hsound, -⟩ := hdep.told_before hall
  obtain ⟨c, hc, hfor⟩ := hsound.sent m (List.mem_of_getElem? hi)
  obtain ⟨c', hc', hreq, -⟩ := call_after cfg (.step (.handle i disk) :: y) hc
  rw [← after_append] at hc'
  refine ⟨c', List.mem_of_getElem? hc', hreq.trans ?_⟩
  cases hcreq : c.request with
  | insert req =>
    rw [hcreq] at hfor
    exact absurd (hm.symm.trans hfor.1) nofun
  | delete req =>
    rw [hcreq] at hfor
    rw [ShardRequest.delete.inj (hm.symm.trans hfor.1)]
  | search req =>
    rw [hcreq] at hfor
    obtain ⟨req', hm'⟩ := hfor
    exact absurd (hm.symm.trans hm') nofun

/-- An `Insert` that was acknowledged. -/
theorem Deployed.inserted (hdep : Deployed disks shards)
    (hall : AllPossible disks cfg (State.start shards) hs) {id : ℕ} {vec : List UInt32}
    (hc : ((State.start shards).after cfg hs).calls[id]? =
      some ⟨.insert ⟨some key, vec⟩, .acked⟩) :
    ∃ x h y v, hs = x ++ h :: y ∧ v = (shards (cfg.router.shardFor key)).params.prepare vec ∧
      ((State.start shards).after cfg x).effect h = some ⟨some id, (key, .add v)⟩ ∧
      (State.start shards).recorded cfg x key = none := by
  obtain ⟨x, h, y, rfl, he, htakes, hburied⟩ := hdep.effect_of_acked hall hc rfl
  refine ⟨x, h, y, _, rfl, rfl, he, ?_⟩
  obtain ⟨v, -, hnone, -⟩ | ⟨v, hop, -⟩ | ⟨v, hop, -⟩ := KeyMap.takes_cases htakes
  · rw [hnone] at hburied
    exact Hnsw.KeyOp.buried_none_right hburied
  · cases hop
  · cases hop

/-- **What a client was told stays true**: an acknowledged `Insert` is the only one of its key, and
its vector stays, live if no client deletes the key; after an acknowledged `Delete` the tombstone
stays, if the key is not undeleted. -/
theorem acknowledged_lasts (hdep : Deployed disks shards)
    (hall : AllPossible disks cfg (State.start shards) hs) (id : ℕ) (key : Label) :
    (∀ vec, ((State.start shards).after cfg hs).calls[id]? =
        some ⟨.insert ⟨some key, vec⟩, .acked⟩ →
      (∀ id' vec', ((State.start shards).after cfg hs).calls[id']? =
        some ⟨.insert ⟨some key, vec'⟩, .acked⟩ → id = id') ∧
      ∃ b, ((State.start shards).after cfg hs).keyMap cfg key =
          some ((shards (cfg.router.shardFor key)).params.prepare vec, b) ∧
        ((∀ c ∈ ((State.start shards).after cfg hs).calls, c.request ≠ .delete ⟨some key⟩) →
          b = false)) ∧
    (((State.start shards).after cfg hs).calls[id]? = some ⟨.delete ⟨some key⟩, .acked⟩ →
      (∀ h ∈ hs, ¬ h.Undeletes key) →
        ∃ v, ((State.start shards).after cfg hs).keyMap cfg key = some (v, true)) := by
  obtain ⟨hburied, hexact⟩ := hdep.entry hall key
  refine ⟨fun vec hc => ⟨fun id' vec' hc' => ?_, ?_⟩, fun hc hno => ?_⟩
  · obtain ⟨x, h, y, v, hx, -, he, hnone⟩ := hdep.inserted hall hc
    obtain ⟨x', h', y', v', hx', -, he', hnone'⟩ := hdep.inserted hall hc'
    exact inserted_once he hnone he' hnone' (hx.symm.trans hx')
  · obtain ⟨x, h, y, v, rfl, rfl, he, hnone⟩ := hdep.inserted hall hc
    have hrecorded := recorded_of_write he y
    rw [hnone, KeyOp.cell] at hrecorded
    by_cases hdel : ∃ c ∈ ((State.start shards).after cfg (x ++ h :: y)).calls,
        c.request = .delete ⟨some key⟩
    · obtain ⟨c, hc, hreq⟩ := hdel
      rw [hrecorded, Hnsw.KeyOp.foldl_cell_some] at hburied
      obtain heq | ⟨v, hv, heq⟩ := hburied
      · exact ⟨_, heq, fun hnone => absurd hreq (hnone c hc)⟩
      · rw [heq, ← (Prod.mk.inj (Option.some.inj hv)).1]
        exact ⟨true, rfl, fun hnone => absurd hreq (hnone c hc)⟩
    · refine ⟨false, ?_, fun _ => rfl⟩
      rw [hexact fun hearly => hdel (hdep.delete_of_early hall hearly), hrecorded]
      refine Hnsw.KeyOp.foldl_cell_live _ fun hmark => ?_
      obtain ⟨e, hmem, hop⟩ := mem_opsOn hmark
      refine hdel (hdep.delete_of_mark hall ?_ hop)
      have hsplit : (State.start shards).writes cfg (x ++ h :: y) = _ := History.history_split he
      rw [hsplit]
      exact List.mem_append_right _ (List.mem_cons_of_mem _ hmem)
  · obtain ⟨x, h, y, rfl, he, htakes, hthen⟩ := hdep.effect_of_acked hall hc rfl
    obtain ⟨v, hop, -⟩ | ⟨v, -, hlive, -⟩ | ⟨v, hop, -⟩ := KeyMap.takes_cases htakes
    · cases hop
    · have hbefore : (State.start shards).recorded cfg x key = some (v, false) := by
        rw [hlive] at hthen
        obtain heq | ⟨w, -, heq⟩ := hthen
        · exact heq.symm
        · cases heq
      have hrecorded := recorded_of_write he y
      rw [hbefore, KeyOp.cell, Hnsw.KeyOp.foldl_cell_dead] at hrecorded
      · rw [hrecorded] at hburied
        obtain heq | ⟨w, heq, -⟩ := hburied
        · exact ⟨v, heq⟩
        · cases heq
      · intro hunmark
        obtain ⟨e, hmem, hop⟩ := mem_opsOn hunmark
        obtain ⟨x', h', y', rfl, hshown⟩ := History.mem_history.mp hmem
        obtain ⟨-, hne⟩ | ⟨-, hundeletes⟩ := effect_cases hshown
        · exact hne (congrArg Prod.snd hop)
        · rw [hop] at hundeletes
          exact hno h' (by simp) hundeletes
    · cases hop

/-- **A shard that dies can be started again** while none has said that it is full, and it has its
entries. -/
theorem always_restarts (hdep : Deployed disks shards)
    (hall : AllPossible disks cfg (State.start shards) hs)
    (hroomy : ((State.start shards).after cfg hs).Roomy) (i : ℕ) {dir : Durable.Dir}
    (hcrash : (((State.start shards).after cfg hs).shards i).idx.Crash dir) :
    ∃ s : Shard.Server, openIndex (disks i) dir = .ok s.idx ∧ s.Sound ∧
      ∀ key, cfg.router.shardFor key = i →
        Buried ((State.start shards).recorded cfg hs key) (s.entry key) := by
  obtain ⟨answers, ht⟩ := (hdep.told hall).2 i
  obtain ⟨p, base, log, hfaithful, -⟩ := ht.lifetime.faithful
  obtain ⟨base', log', d₁, h', hholding⟩ := hfaithful.crash hcrash
  obtain ⟨d, hopen⟩ := h'.opens (ht.roomy hroomy) hholding
  let s : Shard.Server := ⟨d, (shards i).defaultEf⟩
  have hposs : (Happening.restart i s).Possible disks ((State.start shards).after cfg hs) :=
    ⟨dir, hcrash, hopen⟩
  have hall' : AllPossible disks cfg (State.start shards) (hs ++ [.restart i s]) :=
    allPossible_append.mpr ⟨hall, hposs, trivial⟩
  have hshard : ((State.start shards).after cfg (hs ++ [.restart i s])).shards i = s := by
    rw [after_concat]
    exact setShard_self _ _ _
  have hsound := (hdep.told hall').1.shards i
  rw [hshard] at hsound
  refine ⟨s, hopen, hsound, fun key hkey => ?_⟩
  have hentry := (hdep.entry hall' key).1
  rw [recorded_concat] at hentry
  have hmap : ((State.start shards).after cfg (hs ++ [.restart i s])).keyMap cfg key = s.entry key := by
    rw [State.keyMap, hkey, hshard]
  rwa [hmap] at hentry

end

end

/-! ### A shard that dies -/

/-- Empty shards with room for one vector. -/
def smallShards : ℕ → Shard.Server := fun _ =>
  ⟨DurableIndex.fresh Durable.smallParams 0, 100⟩

/-- A key is inserted, and a snapshot cannot rename the new log into place. -/
def insertThenFail : List Happening :=
  [.step (.call 0 (.insert ⟨some ⟨1, 1⟩, [5]⟩)), .step (.handle 0 Shard.Disk.ok), .step (.deliver 0),
    .snapshotFails 0 .renameWAL none]

section
open Hnsw.StandIn

theorem deployed_small : Deployed (fun _ => Durable.smallConfig) smallShards where
  opened _ := rfl
  fits _ := by
    rw [Durable.Fits]
    decide

theorem allPossible_insertThenFail : AllPossible (fun _ => Durable.smallConfig) oneShard
    (State.start smallShards) insertThenFail := by
  refine ⟨trivial, ⟨rfl, fun m req key hm _ _ => ?_⟩, trivial, Or.inl rfl, trivial⟩
  cases hm
  exact Or.inr (by decide)

/-- The shard, and the next process on its directory. -/
theorem restart_insertThenFail :
    let σ := (State.start smallShards).after oneShard insertThenFail
    (σ.shards 0).idx.Crash (σ.shards 0).idx.dir ∧
      ∃ s, openIndex Durable.smallConfig (σ.shards 0).idx.dir = .ok s := by
  intro σ
  refine ⟨.inSnapshot (j := 0) (Nat.zero_le _) (Or.inr (Nat.zero_le _)), ?_⟩
  have hbool : (openIndex Durable.smallConfig (σ.shards 0).idx.dir).toBool = true := by
    decide +kernel
  cases hres : openIndex Durable.smallConfig (σ.shards 0).idx.dir with
  | error e =>
    rw [hres] at hbool
    cases hbool
  | ok d => exact ⟨d, rfl⟩

/-- It can happen. -/
theorem allPossible_restart : ∃ s, AllPossible (fun _ => Durable.smallConfig) oneShard
    (State.start smallShards) (insertThenFail ++ [.restart 0 s]) := by
  obtain ⟨hcrash, d, hopen⟩ := restart_insertThenFail
  exact ⟨⟨d, 100⟩, allPossible_append.mpr
    ⟨allPossible_insertThenFail, ⟨_, hcrash, hopen⟩, trivial⟩⟩

theorem survives_restarts_small : ∃ s, Survives oneShard (State.start smallShards)
    (insertThenFail ++ [.restart 0 s]) := by
  obtain ⟨s, hall⟩ := allPossible_restart
  exact ⟨s, survives_restarts deployed_small hall⟩

theorem acknowledged_lasts_small : ∃ s, ((State.start smallShards).after oneShard
    (insertThenFail ++ [.restart 0 s])).keyMap oneShard ⟨1, 1⟩ = some ([5], false) := by
  obtain ⟨s, hall⟩ := allPossible_restart
  have hcalls : ((State.start smallShards).after oneShard (insertThenFail ++ [.restart 0 s])).calls =
      [⟨.insert ⟨some ⟨1, 1⟩, [5]⟩, .acked⟩] := rfl
  obtain ⟨-, b, hentry, hlive⟩ :=
    (acknowledged_lasts deployed_small hall 0 ⟨1, 1⟩).1 [5] (by rw [hcalls]; rfl)
  refine ⟨s, ?_⟩
  rw [hlive fun c hc => ?_] at hentry
  · exact hentry
  · rw [hcalls] at hc
    rw [List.mem_singleton.mp hc]
    nofun

theorem always_restarts_small :
    let σ := (State.start smallShards).after oneShard insertThenFail
    ∃ s : Shard.Server, openIndex Durable.smallConfig (σ.shards 0).idx.dir = .ok s.idx ∧ s.Sound := by
  intro σ
  have hroomy : σ.Roomy := by
    rintro r hr res hres ⟨e, rfl, -⟩
    have hreplies : σ.replies = [⟨⟨0, 0, .insert ⟨some ⟨1, 1⟩, [5]⟩⟩, .done (.ok ())⟩] := rfl
    rw [hreplies] at hr
    rw [List.mem_singleton.mp hr] at hres
    cases hres
  obtain ⟨s, hopen, hsound, -⟩ := always_restarts deployed_small allPossible_insertThenFail hroomy 0
    restart_insertThenFail.1
  exact ⟨s, hopen, hsound⟩

end

end VectorSearch.Cluster
