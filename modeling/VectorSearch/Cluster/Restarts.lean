import VectorSearch.Cluster.History
import VectorSearch.Durable.Lives
import VectorSearch.Hnsw.SearchAnswers

/-! # Shards that die and are started again

A run in which, beside the steps of the cluster, snapshots fail, and shards die at any moment, also in
the middle of a snapshot or an append, and are started again on what they left on disk
(`Happening`).  The disks work: what a process writes and syncs while it lives is there.

`State.recorded` is the map that the acknowledged writes make.  A shard that was started again has the
entries that were recorded, but for a tombstone on a key of which a `Delete` was refused before the
key was there (`survives_restarts`), and what a client was told stays true (`acknowledged_lasts`).
While no shard was full, each that dies can be started again (`always_restarts`). -/

namespace VectorSearch.Durable

/-- Only an `Add` can find the index full. -/
theorem isAdd_of_indexAdd [Hnsw.Platform UInt32] {d : DurableIndex} {c : Call} {io : Wal.AppendIO}
    {e : Hnsw.Err} (h : (d.perform c io).2 = .error (.indexAdd e)) : c.isAdd = true := by
  unfold DurableIndex.perform at h
  cases hd : d.appendWAL c.record io with
  | mk d' res =>
    cases res with
    | error e' =>
      rw [hd] at h
      cases h
    | ok u =>
      rw [hd] at h
      cases hres : (c.onIndex d'.idx).2 with
      | ok u => simp [hres] at h
      | error e' =>
        cases c with
        | add vec key => rfl
        | markDeleted key | unmarkDeleted key => simp [hres, Call.error] at h

end VectorSearch.Durable

namespace VectorSearch.Shard.Server

open Durable (Call)
open Hnsw (KeyOp Label Platform)
open Rpc (DeleteRequest InsertRequest Status)

section
variable [Platform UInt32] {s : Server} {c : Call} {op : String} {disk : Disk}

/-- From `s` to `s'` the index was not called, or it was called and the disk worked; `ok` says that
the write was acknowledged and `full` that there was no room. -/
def Makes (s s' : Server) (o : Option (Label × KeyOp UInt32)) (ok full : Prop) : Prop :=
  s'.idx = s.idx ∧ ¬ ok ∨ ∃ c : Call, c.Sound s.idx.idx ∧ s'.idx = (s.idx.perform c .done).1 ∧
    o = some (c.op s.params) ∧ (ok ↔ (s.idx.perform c .done).2 = .ok ()) ∧
    ((s.idx.perform c .done).2 = .error (.indexAdd .full) → full)

theorem Makes.imp {s' : Server} {o : Option (Label × KeyOp UInt32)}
    {ok ok' full full' : Prop} (h : s.Makes s' o ok full) (hok : ok ↔ ok') (hfull : full → full') :
    s.Makes s' o ok' full' := by
  obtain ⟨hsame, hno⟩ | ⟨c, hc, hidx, ho, hres, hroom⟩ := h
  · exact Or.inl ⟨hsame, fun h => hno (hok.mpr h)⟩
  · exact Or.inr ⟨c, hc, hidx, ho, hok.symm.trans hres, fun h => hfull (hroom h)⟩

/-- The shard has no room for a new key. -/
def Refuses (res : Except Status Unit) : Prop :=
  ∃ e, res = .error e ∧ e.code = .resourceExhausted

theorem write_makes (hc : c.Sound s.idx.idx) (hdisk : disk.io = .done) :
    s.Makes (s.write c op disk).1 (some (c.op s.params)) ((s.write c op disk).2 = .ok ())
      (c.isAdd = true ∧ Refuses (s.write c op disk).2) := by
  refine Or.inr ⟨c, hc, ?_, rfl, ?_, fun hfull => ⟨Durable.isAdd_of_indexAdd hfull, ?_⟩⟩
  · rw [write, hdisk]
  · unfold write
    rw [hdisk]
    cases (s.idx.perform c .done).2 <;> simp
  · unfold write
    rw [hdisk, hfull]
    exact ⟨_, rfl, rfl⟩

/-- `Insert` -/
theorem insert_makes {req : InsertRequest} (hfits : Durable.Fits s.params.dim)
    (hdisk : disk.io = .done) (hid : ∀ key, req.key = some key →
      s.idx.idx.store.hasLabel key = true ∨ s.idx.idx.store.count < 2 ^ 32) :
    s.Makes (s.insert req disk).1 (req.key.map fun key => (key, .add (s.params.prepare req.vector)))
      ((s.insert req disk).2 = .ok ()) (Refuses (s.insert req disk).2) := by
  unfold insert
  cases hkey : req.key with
  | none => exact Or.inl ⟨rfl, nofun⟩
  | some key =>
    simp only
    split_ifs with hempty hdim
    · exact Or.inl ⟨rfl, nofun⟩
    · exact Or.inl ⟨rfl, nofun⟩
    · have hsized : (Call.add req.vector key).Sized s.params.dim := by
        rintro vec key' ⟨⟩
        exact not_not.mp hdim
      exact (write_makes ⟨hsized, Or.inl hfits, fun _ => hid key hkey⟩ hdisk).imp Iff.rfl And.right

/-- `Delete` -/
theorem delete_makes (s : Server) (req : DeleteRequest) (hdisk : disk.io = .done) :
    s.Makes (s.delete req disk).1 (req.key.map fun key => (key, .mark))
      ((s.delete req disk).2 = .ok ()) False := by
  unfold delete
  cases req.key with
  | none => exact Or.inl ⟨rfl, nofun⟩
  | some key =>
    exact (write_makes ⟨by rintro vec k ⟨⟩, Or.inr rfl, by rintro ⟨⟩⟩ hdisk).imp Iff.rfl
      fun hfull => nomatch hfull.1

/-- `Undelete` -/
theorem undelete_makes (s : Server) (req : DeleteRequest) (hdisk : disk.io = .done) :
    s.Makes (s.undelete req disk).1 (req.key.map fun key => (key, .unmark))
      ((s.undelete req disk).2 = .ok ()) False := by
  unfold undelete
  cases req.key with
  | none => exact Or.inl ⟨rfl, nofun⟩
  | some key =>
    exact (write_makes ⟨by rintro vec k ⟨⟩, Or.inr rfl, by rintro ⟨⟩⟩ hdisk).imp Iff.rfl
      fun hfull => nomatch hfull.1

end

end VectorSearch.Shard.Server

namespace VectorSearch.Cluster

open Durable (Answer Call DurableIndex NoneFull RefusedEarly SnapshotStep openIndex promised)
open Hnsw (KeyMap KeyOp Label Platform)
open Hnsw.KeyOp (Buried)
open Rpc (InsertRequest Status)

/-! ### Runs -/

/-- A step of the cluster, a `Snapshot` that fails in a step and may leave a file, or the death of a
shard and the start of the next process. -/
inductive Happening where
  | step (step : Step)
  | snapshotFails (shard : ℕ) (s : SnapshotStep) (left : Option DurableFile)
  | restart (shard : ℕ) (s : Shard.Server)

section
variable [Platform UInt32]

def State.happen (cfg : Config) (σ : State) : Happening → State
  | .step step => σ.perform cfg step
  | .snapshotFails i s left =>
      σ.setShard i { σ.shards i with idx := (σ.shards i).idx.snapshotFailing s left }
  | .restart i s => σ.setShard i s

@[simp] theorem happen_step (cfg : Config) (σ : State) (step : Step) :
    σ.happen cfg (.step step) = σ.perform cfg step := rfl

/-- A run. -/
def State.after (cfg : Config) (σ : State) (hs : List Happening) : State :=
  hs.foldl (State.happen cfg) σ

/-- The disks work until a process dies, and what it leaves is opened.  A log that a `Snapshot` has
closed is not written. -/
def Happening.Possible (disks : ℕ → Durable.Config) (σ : State) : Happening → Prop
  | .step (.handle i disk) => disk.io = .done ∧ Step.HasId σ (.handle i disk)
  | .step (.undelete _ _ disk) => disk.io = .done
  | .step (.snapshot i) => (σ.shards i).idx.walOpen = true
  | .step _ => True
  | .snapshotFails i s _ => (σ.shards i).idx.walOpen = true ∨ s ∈ .closeOld :: Durable.beforeClose
  | .restart i s => ∃ dir, (σ.shards i).idx.Crash dir ∧ openIndex (disks i) dir = .ok s.idx

/-- Each of them can happen in its turn. -/
def AllPossible (disks : ℕ → Durable.Config) (cfg : Config) (σ : State) : List Happening → Prop
  | [] => True
  | h :: hs => h.Possible disks σ ∧ AllPossible disks cfg (σ.happen cfg h) hs

/-- The shards are started in empty directories, with vectors that the log can hold. -/
structure Deployed (disks : ℕ → Durable.Config) (shards : ℕ → Shard.Server) : Prop where
  opened : ∀ i, openIndex (disks i) Durable.Dir.empty = .ok (shards i).idx
  fits : ∀ i, Durable.Fits (disks i).dim

/-! ### What is recorded -/

/-- The write that takes effect. -/
def State.effect (σ : State) : Happening → Option Event
  | .step step => σ.event step
  | _ => none

/-- The writes that take effect in a run. -/
def State.writes (cfg : Config) (σ : State) (hs : List Happening) : List Event :=
  History.history (State.happen cfg) State.effect σ hs

/-- The map that they make of the empty one. -/
def State.recorded (cfg : Config) (σ : State) (hs : List Happening) : KeyMap UInt32 :=
  KeyMap.run (fun _ => none) ((σ.writes cfg hs).map Event.op)

/-- The key is undeleted. -/
def Happening.Undeletes (key : Label) : Happening → Prop
  | .step s => s.Undeletes key
  | _ => False

/-- A `Delete` of the key reached its shard before the key was there. -/
def DeletedEarly (cfg : Config) (σ : State) (hs : List Happening) (key : Label) : Prop :=
  ∃ x i disk y m, hs = x ++ .step (.handle i disk) :: y ∧ (σ.after cfg x).sent[i]? = some m ∧
    m.request = .delete ⟨some key⟩ ∧ (σ.after cfg x).keyMap cfg key = none

/-- No shard has said that it has no room. -/
def State.Roomy (σ : State) : Prop :=
  ∀ r ∈ σ.replies, ∀ res, r.result = .done res → ¬ Shard.Server.Refuses res

section
variable {cfg : Config} {σ : State} {hs : List Happening} {h : Happening} {key : Label}

theorem after_concat (cfg : Config) (σ : State) (hs : List Happening) (h : Happening) :
    σ.after cfg (hs ++ [h]) = (σ.after cfg hs).happen cfg h := List.foldl_append

theorem allPossible_append {disks : ℕ → Durable.Config} {x y : List Happening} :
    AllPossible disks cfg σ (x ++ y) ↔
      AllPossible disks cfg σ x ∧ AllPossible disks cfg (σ.after cfg x) y := by
  induction x generalizing σ with
  | nil => exact (true_and _).symm.to_iff
  | cons h x ih =>
    rw [List.cons_append, AllPossible, AllPossible, ih, and_assoc]
    rfl

/-- What is recorded after a write, and later. -/
theorem recorded_split {x y : List Happening} {e : Event} (he : (σ.after cfg x).effect h = some e) :
    σ.recorded cfg (x ++ h :: y) = ((σ.recorded cfg x).apply e.op).run
      (((σ.after cfg (x ++ [h])).writes cfg y).map Event.op) := by
  have hsplit : σ.writes cfg (x ++ h :: y) =
      σ.writes cfg x ++ e :: (σ.after cfg (x ++ [h])).writes cfg y := History.history_split he
  rw [State.recorded, hsplit, List.map_append, List.map_cons]
  exact List.foldl_append

theorem recorded_concat (cfg : Config) (σ : State) (hs : List Happening) (h : Happening) :
    σ.recorded cfg (hs ++ [h]) = ((σ.after cfg hs).effect h).elim (σ.recorded cfg hs)
      fun e => (σ.recorded cfg hs).apply e.op := by
  cases he : (σ.after cfg hs).effect h with
  | none =>
    have hwrites : σ.writes cfg (hs ++ [h]) = σ.writes cfg hs ++ _ := History.history_concat _ _ _
    have he : (hs.foldl (State.happen cfg) σ).effect h = none := he
    rw [State.recorded, hwrites, he, Option.toList_none, List.append_nil]
    rfl
  | some e => exact recorded_split he

theorem DeletedEarly.append (h : DeletedEarly cfg σ hs key) (h' : Happening) :
    DeletedEarly cfg σ (hs ++ [h']) key := by
  obtain ⟨x, i, disk, y, m, rfl, hm⟩ := h
  exact ⟨x, i, disk, y ++ [h'], m, by simp, hm⟩

/-- Replies stay. -/
theorem mem_replies_happen (cfg : Config) (h : Happening) {r : Reply} (hr : r ∈ σ.replies) :
    r ∈ (σ.happen cfg h).replies := by
  cases h with
  | snapshotFails i s left => exact hr
  | restart i s => exact hr
  | step step =>
    rw [happen_step]
    cases step with
    | handle i disk =>
      obtain ⟨hsame, -⟩ | ⟨m, -, hstep⟩ := σ.perform_handle cfg i disk
      · rwa [hsame]
      · rw [hstep]
        exact List.mem_append_left _ hr
    | deliver i =>
      obtain hsame | ⟨r', -, hstep⟩ := σ.perform_deliver cfg i
      · rwa [hsame]
      · rw [hstep]
        exact hr
    | call coordinator request => exact hr
    | fail call shard e => exact hr
    | undelete shard req disk => exact hr
    | snapshot shard => exact hr

/-! ### What the callers of a shard were told -/

variable {disks : ℕ → Durable.Config} {i : ℕ} {answers : List Answer} {o : Option (Label × KeyOp UInt32)}
  {call : Option ℕ} {ok : Bool} {full : Prop}

/-- The calls that shard `i` made on its index were answered so, and they are what was recorded of
its keys. -/
structure Told (disks : ℕ → Durable.Config) (cfg : Config) (σ : State) (hs : List Happening) (i : ℕ)
    (answers : List Answer) : Prop where
  lifetime : DurableIndex.Lifetime (disks i) answers ((σ.after cfg hs).shards i).idx
  params : ((σ.after cfg hs).shards i).params = (σ.shards i).params
  promised : ∀ key, cfg.router.shardFor key = i →
    promised (σ.shards i).params answers key = σ.recorded cfg hs key
  early : ∀ key, cfg.router.shardFor key = i →
    RefusedEarly (σ.shards i).params answers key → DeletedEarly cfg σ hs key
  roomy : (σ.after cfg hs).Roomy → NoneFull answers

theorem State.Roomy.of_happen (hroomy : (σ.happen cfg h).Roomy) : σ.Roomy :=
  fun r hr => hroomy r (mem_replies_happen cfg h hr)

/-- The shard has the entries that were recorded, but for a tombstone. -/
theorem Told.entry (ht : Told disks cfg σ hs i answers) (hkey : cfg.router.shardFor key = i) :
    Buried (σ.recorded cfg hs key) ((σ.after cfg hs).keyMap cfg key) ∧
      (¬ DeletedEarly cfg σ hs key →
        (σ.after cfg hs).keyMap cfg key = σ.recorded cfg hs key) := by
  obtain ⟨p, base, log, hfaithful, -⟩ := ht.lifetime.faithful
  have hp : p = (σ.shards i).params := hfaithful.serving.params.symm.trans ht.params
  have hentry : (σ.after cfg hs).keyMap cfg key =
      ((σ.after cfg hs).shards i).idx.idx.store.keyMap key := by rw [State.keyMap, hkey]; rfl
  have hfollows := hfaithful.follows key
  rw [hp, ht.promised key hkey, ← hentry] at hfollows
  exact ⟨hfollows.expected, fun hno => (hfollows.exact fun h => hno (ht.early key hkey h)).1⟩

/-- Nothing was told, and no key of the shard was written. -/
theorem Told.quiet (ht : Told disks cfg σ hs i answers)
    (hlife : DurableIndex.Lifetime (disks i) answers (((σ.after cfg hs).happen cfg h).shards i).idx)
    (heffect : ∀ e, (σ.after cfg hs).effect h = some e → cfg.router.shardFor e.op.1 ≠ i) :
    Told disks cfg σ (hs ++ [h]) i answers := by
  refine ⟨?_, ?_, fun key hkey => ?_, fun key hkey he => (ht.early key hkey he).append h, ?_⟩
  · rwa [after_concat]
  · rw [after_concat, ← ht.params]
    exact hlife.params_eq ht.lifetime
  · rw [ht.promised key hkey, recorded_concat]
    cases he : (σ.after cfg hs).effect h with
    | none => rfl
    | some e =>
      refine (KeyMap.apply_ne _ e.op.2 ?_).symm
      rintro rfl
      exact heffect e he hkey
  · rw [after_concat]
    exact fun hroomy => ht.roomy hroomy.of_happen

/-- A write to the shard. -/
theorem Told.makes (ht : Told disks cfg σ hs i answers) (call : Option ℕ)
    (hmakes : ((σ.after cfg hs).shards i).Makes (((σ.after cfg hs).happen cfg h).shards i) o
      (ok = true) full)
    (heffect : (σ.after cfg hs).effect h =
      if ok then o.map fun op => (⟨call, op⟩ : Event) else none)
    (hfull : full → ¬ ((σ.after cfg hs).happen cfg h).Roomy)
    (hmark : ∀ key, o = some (key, .mark) → (σ.after cfg hs).keyMap cfg key = none →
      DeletedEarly cfg σ (hs ++ [h]) key) :
    ∃ answers', Told disks cfg σ (hs ++ [h]) i answers' := by
  obtain ⟨hsame, hno⟩ | ⟨c, hc, hidx, rfl, hok, hroom⟩ := hmakes
  · refine ⟨answers, ht.quiet (by rw [hsame]; exact ht.lifetime) fun e he => ?_⟩
    rw [heffect, if_neg hno] at he
    cases he
  have hlife := ht.lifetime.call hc
  rw [← hidx] at hlife
  refine ⟨_, by rwa [after_concat], ?_, fun key hkey => ?_, fun key hkey he => ?_, ?_⟩
  · rw [after_concat, ← ht.params]
    exact hlife.params_eq ht.lifetime
  · rw [Durable.promised_append, recorded_concat, heffect, ht.promised key hkey, ht.params]
    by_cases hres : ok = true
    · rw [if_pos hres, Option.map_some, Option.elim_some]
      by_cases hk : c.key = key
      · rw [if_pos ⟨hok.mp hres, hk⟩, ← hk]
        exact (KeyMap.apply_same _ _ _).symm
      · rw [if_neg fun h => hk h.2]
        exact (KeyMap.apply_ne _ _ (Ne.symm hk)).symm
    · rw [if_neg hres, if_neg fun h => hres (hok.mpr h.1)]
      rfl
  · obtain hold | ⟨heq, hnone⟩ := he.of_append
    · exact (ht.early key hkey hold).append h
    · obtain ⟨rfl, -⟩ := Prod.mk.inj heq
      refine hmark key rfl ?_
      -- what is not recorded is not there
      have hburied := (ht.entry hkey).1
      rw [← ht.promised key hkey, hnone] at hburied
      exact Hnsw.KeyOp.buried_none_left hburied
  · rw [after_concat]
    intro hroomy a ha
    obtain ha | ha := List.mem_append.mp ha
    · exact ht.roomy hroomy.of_happen a ha
    · rw [List.mem_singleton.mp ha]
      exact fun hres => hfull (hroom hres) hroomy

/-- What a shard does to a request. -/
theorem handle_makes (s : Shard.Server) {disk : Shard.Disk} (request : ShardRequest)
    (hfits : Durable.Fits s.params.dim) (hdisk : disk.io = .done)
    (hid : ∀ req key, request = .insert req → req.key = some key →
      s.idx.idx.store.hasLabel key = true ∨ s.idx.idx.store.count < 2 ^ 32) :
    s.Makes (handle s disk request).1 (request.op s.params)
      ((handle s disk request).2.acknowledges = true)
      (∃ res, (handle s disk request).2 = .done res ∧ Shard.Server.Refuses res) := by
  have hdone : ∀ result, result = .ok () ↔ (ShardReply.done result).acknowledges = true := by
    simp [acknowledges_iff]
  cases request with
  | insert req =>
    exact (Shard.Server.insert_makes hfits hdisk fun key hkey => hid req key rfl hkey).imp
      (hdone _) fun hfull => ⟨_, rfl, hfull⟩
  | delete req => exact (s.delete_makes req hdisk).imp (hdone _) False.elim
  | search req => exact Or.inl ⟨rfl, nofun⟩

/-! ### One happening -/

omit [Platform UInt32] in
theorem setShard_self (σ : State) (i : ℕ) (s : Shard.Server) : (σ.setShard i s).shards i = s :=
  Function.update_self _ _ _

omit [Platform UInt32] in
theorem setShard_ne (σ : State) {i j : ℕ} (s : Shard.Server) (h : j ≠ i) :
    (σ.setShard i s).shards j = σ.shards j := Function.update_of_ne h _ _

/-- The key of a write is one of the shard that handled the request. -/
theorem State.Sound.shardFor_handle (h : σ.Sound cfg) {j : ℕ} {disk : Shard.Disk} {m : Message}
    (hj : σ.sent[j]? = some m) {e : Event} (he : σ.event (.handle j disk) = some e) :
    cfg.router.shardFor e.op.1 = m.shard := by
  simp only [State.event, hj, Option.bind_some] at he
  split_ifs at he
  obtain ⟨op, hop, rfl⟩ := Option.map_eq_some_iff.mp he
  obtain ⟨c, -, hfor⟩ := h.sent m (List.mem_of_getElem? hj)
  exact (hfor.shard_eq (routedKey_of_op hop)).symm

/-- The key that is undeleted is one of the shard. -/
theorem State.Sound.shardFor_undelete (h : σ.Sound cfg) {j : ℕ} {req : Rpc.DeleteRequest}
    {disk : Shard.Disk} {e : Event} (he : σ.event (.undelete j req disk) = some e) :
    cfg.router.shardFor e.op.1 = j := by
  simp only [State.event] at he
  split_ifs at he with hok
  obtain ⟨op, hop, rfl⟩ := Option.map_eq_some_iff.mp he
  obtain ⟨key, -, rfl⟩ := Option.map_eq_some_iff.mp hop
  obtain ⟨a, ha, -, htakes, -⟩ | ⟨hno, -⟩ := ((h.shards j).undelete_effect req disk).2
  · obtain rfl := Option.some.inj (hop.symm.trans ha)
    obtain ⟨v, hop, -⟩ | ⟨v, hop, -⟩ | ⟨v, -, hv, -⟩ := KeyMap.takes_cases htakes
    · cases hop
    · cases hop
    · exact (h.routed j key (hv ▸ rfl)).symm
  · refine absurd ?_ hno
    cases hres : ((σ.shards j).undelete req disk).2 with
    | ok u => rfl
    | error e =>
      rw [hres] at hok
      cases hok

omit [Platform UInt32] in
theorem no_effect {w : Option Event} (hw : w = none) :
    ∀ e, w = some e → cfg.router.shardFor e.op.1 ≠ i := by
  intro e he
  rw [hw] at he
  cases he

/-- What the callers of each shard were told, after one more happening. -/
theorem Told.happen (hsound : (σ.after cfg hs).Sound cfg)
    (ht : ∀ i, ∃ answers, Told disks cfg σ hs i answers)
    (hfits : ∀ i, Durable.Fits (σ.shards i).params.dim) (hh : h.Possible disks (σ.after cfg hs))
    (i : ℕ) : ∃ answers, Told disks cfg σ (hs ++ [h]) i answers := by
  obtain ⟨answers, ht⟩ := ht i
  -- a shard that stays as it is, without a write to its keys
  have hother : ((σ.after cfg hs).happen cfg h).shards i = (σ.after cfg hs).shards i →
      (∀ e, (σ.after cfg hs).effect h = some e → cfg.router.shardFor e.op.1 ≠ i) →
        ∃ answers, Told disks cfg σ (hs ++ [h]) i answers := fun hsame heffect =>
    ⟨answers, ht.quiet (by rw [hsame]; exact ht.lifetime) heffect⟩
  cases h with
  | snapshotFails j s left =>
    by_cases hij : i = j
    · subst hij
      refine ⟨answers, ht.quiet ?_ (no_effect rfl)⟩
      rw [State.happen, setShard_self]
      exact ht.lifetime.snapshotFails hh
    · exact hother (setShard_ne _ _ hij) (no_effect rfl)
  | restart j s =>
    by_cases hij : i = j
    · subst hij
      obtain ⟨dir, hcrash, hopen⟩ := hh
      refine ⟨answers, ht.quiet ?_ (no_effect rfl)⟩
      rw [State.happen, setShard_self]
      exact ht.lifetime.crash hcrash hopen
    · exact hother (setShard_ne _ _ hij) (no_effect rfl)
  | step step =>
    cases step with
    | call coordinator request => exact hother rfl (no_effect rfl)
    | fail call shard e => exact hother rfl (no_effect rfl)
    | deliver j =>
      refine hother ?_ (no_effect rfl)
      obtain hsame | ⟨r, -, hstep⟩ := (σ.after cfg hs).perform_deliver cfg j
      · rw [happen_step, hsame]
      · rw [happen_step, hstep]
        rfl
    | handle j disk =>
      obtain ⟨hdisk, hid⟩ := hh
      obtain ⟨hsame, hnone⟩ | ⟨m, hj, hstep⟩ := (σ.after cfg hs).perform_handle cfg j disk
      · refine hother (by rw [happen_step, hsame]) fun e he => ?_
        simp only [State.effect, State.event, hnone, Option.bind_none] at he
        cases he
      have hshards : ((σ.after cfg hs).happen cfg (.step (.handle j disk))).shards =
          ((σ.after cfg hs).setShard m.shard
            (handle ((σ.after cfg hs).shards m.shard) disk m.request).1).shards := by
        rw [happen_step, hstep]
      by_cases hij : i = m.shard
      · subst hij
        have hmakes := handle_makes ((σ.after cfg hs).shards m.shard) m.request
          (by rw [ht.params]; exact hfits _) hdisk
          fun req key hreq hkey => hid m req key hj hreq hkey
        refine ht.makes (some m.call) (by rwa [hshards, setShard_self]) ?_ ?_ ?_
        · simp only [State.effect, State.event, hj, Option.bind_some]
        · rintro ⟨res, hres, hfull⟩ hroomy
          refine hroomy ⟨m, _⟩ ?_ res hres hfull
          rw [happen_step, hstep]
          exact List.mem_append_right _ (List.mem_singleton_self _)
        · intro key hop hkey
          refine ⟨hs, j, disk, [], m, rfl, hj, ?_, hkey⟩
          cases hreq : m.request with
          | insert req =>
            rw [hreq] at hop
            obtain ⟨k, -, hk⟩ := Option.map_eq_some_iff.mp hop
            cases hk
          | delete req =>
            rw [hreq] at hop
            obtain ⟨k, hkey, hk⟩ := Option.map_eq_some_iff.mp hop
            obtain ⟨rfl, -⟩ := Prod.mk.inj hk
            cases req
            simp only at hkey
            rw [hkey]
          | search req =>
            rw [hreq] at hop
            cases hop
      · refine hother (by rw [hshards, setShard_ne _ _ hij]) fun e he => ?_
        rw [hsound.shardFor_handle hj he]
        exact Ne.symm hij
    | undelete j req disk =>
      by_cases hij : i = j
      · subst hij
        have hok : ∀ res : Except Status Unit, res = .ok () ↔ res.isOk = true := by
          rintro (e | u) <;> simp [Except.isOk, Except.toBool]
        have hmakes := (((σ.after cfg hs).shards i).undelete_makes req hh).imp (hok _) id
        refine ht.makes none (by rwa [happen_step, State.perform, setShard_self]) rfl
          False.elim ?_
        intro key hop
        obtain ⟨k, -, hk⟩ := Option.map_eq_some_iff.mp hop
        cases hk
      · refine hother (setShard_ne _ _ hij) fun e he => ?_
        rw [hsound.shardFor_undelete he]
        exact Ne.symm hij
    | snapshot j =>
      by_cases hij : i = j
      · subst hij
        refine ⟨answers, ht.quiet ?_ (no_effect rfl)⟩
        rw [happen_step, State.perform, setShard_self]
        exact ht.lifetime.snapshot hh
      · exact hother (setShard_ne _ _ hij) (no_effect rfl)

theorem Happening.Possible.hasId {step : Step} (h : (Happening.step step).Possible disks σ) :
    step.HasId σ := by
  cases step with
  | handle i disk => exact h.2
  | call | deliver | fail | undelete | snapshot => trivial

/-- A shard with the answers of another has its keys. -/
theorem kept_of_lifetime {dcfg : Durable.Config} {s s' : Shard.Server}
    (hlife : DurableIndex.Lifetime dcfg answers s.idx)
    (hlife' : DurableIndex.Lifetime dcfg answers s'.idx) :
    s.Kept s' (fun _ => False) fun _ => True where
  sound := (Hnsw.Index.Lived.answering hlife'.lived).2.searchable
  keys k hk := by
    refine Or.inl ?_
    by_contra hnone
    rw [Option.not_isSome_iff_eq_none] at hnone
    obtain ⟨p, _, _, hfaithful, -⟩ := hlife.faithful
    obtain ⟨p', _, _, hfaithful', -⟩ := hlife'.faithful
    obtain rfl : p = p' := by
      rw [← hfaithful.serving.params, ← hfaithful'.serving.params]
      exact hlife.params_eq hlife'
    have hexpected := (hfaithful.follows k).expected
    have hentry : s.idx.idx.store.keyMap k = none := hnone
    have hexpected' := (hfaithful'.follows k).expected
    rw [hentry] at hexpected
    rw [Hnsw.KeyOp.buried_none_right hexpected] at hexpected'
    have hentry' : s'.entry k = none := Hnsw.KeyOp.buried_none_left hexpected'
    rw [hentry'] at hk
    cases hk
  tombstones _ _ _ hno := absurd trivial hno

/-- **The cluster stays sound**, whatever happens. -/
theorem State.Sound.happen (hsound : (σ.after cfg hs).Sound cfg)
    (ht : ∀ i, ∃ answers, Told disks cfg σ hs i answers)
    (hh : h.Possible disks (σ.after cfg hs)) : ((σ.after cfg hs).happen cfg h).Sound cfg := by
  cases h with
  | step step => exact hsound.perform hh.hasId
  | snapshotFails i s left =>
    obtain ⟨answers, ht⟩ := ht i
    exact hsound.setShard (kept_of_lifetime ht.lifetime (ht.lifetime.snapshotFails hh)) fun _ => False.elim
  | restart i s =>
    obtain ⟨answers, ht⟩ := ht i
    obtain ⟨dir, hcrash, hopen⟩ := hh
    exact hsound.setShard (kept_of_lifetime ht.lifetime (ht.lifetime.crash hcrash hopen))
      fun _ => False.elim

section
variable {shards : ℕ → Shard.Server}

theorem Deployed.fresh (hdep : Deployed disks shards) : Fresh shards := by
  intro i
  obtain ⟨p, -, hidx⟩ := Durable.openIndex_empty (hdep.opened i)
  refine ⟨p, (disks i).seed, (shards i).defaultEf, ?_⟩
  rw [← hidx]

theorem Deployed.fits_params (hdep : Deployed disks shards) (i : ℕ) :
    Durable.Fits (shards i).params.dim := by
  have hparams := (DurableIndex.Lifetime.opened (hdep.opened i)).mkParams_eq
  have hdim : (shards i).params.dim = (disks i).dim := (Hnsw.mkParams_ok hparams).2.1
  rw [hdim]
  exact hdep.fits i

theorem told_nil (hdep : Deployed disks shards) (cfg : Config) (i : ℕ) :
    Told disks cfg (State.start shards) [] i [] where
  lifetime := .opened (hdep.opened i)
  params := rfl
  promised _ _ := rfl
  early _ _ he := by
    obtain ⟨before, after, heq, -⟩ := he
    exact absurd heq.symm (by simp)
  roomy _ a ha := absurd ha List.not_mem_nil

/-- **In every run** the cluster is sound, and what the callers of the shards were told is recorded. -/
theorem Deployed.told (hdep : Deployed disks shards)
    (hall : AllPossible disks cfg (State.start shards) hs) :
    ((State.start shards).after cfg hs).Sound cfg ∧
      ∀ i, ∃ answers, Told disks cfg (State.start shards) hs i answers := by
  induction hs using List.reverseRecOn with
  | nil => exact ⟨sound_start hdep.fresh cfg, fun i => ⟨[], told_nil hdep cfg i⟩⟩
  | append_singleton hs h ih =>
    obtain ⟨hbefore, hh, -⟩ := allPossible_append.mp hall
    obtain ⟨hsound, ht⟩ := ih hbefore
    refine ⟨?_, Told.happen hsound ht hdep.fits_params hh⟩
    rw [after_concat]
    exact hsound.happen ht hh

end

end

end

end VectorSearch.Cluster
