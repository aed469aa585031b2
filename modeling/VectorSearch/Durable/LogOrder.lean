import VectorSearch.Durable.CrashRecovery

/-! # Concurrent writers

Any number of `Add`, `MarkDeleted` and `UnmarkDeleted` calls run under the shared lock, so the two
steps of each of them, appending its record and applying it, interleave freely with those of the
others (`Writers.Step`).  `Snapshot` has the lock to itself.

Nothing makes the calls on one key apply in the order in which their records were appended.  While
they do (`Event.Orderly`), the log and the index are in step (`InStep`, an instance of
`KeyedLog.Lag`), and whenever no call is in progress replaying the log on the last snapshot gives
the live map (`recovers_of_orderly`).  `swapped_calls_diverge` is a run in which two calls overtake
each other. -/

open ByteCodec

namespace VectorSearch.Durable

open Wal (Record Loggable Holds applyAll)
open Hnsw (Label Index Platform Params Store KeyOp KeyMap)

/-- The handle, and the calls whose records are appended and that have not been applied yet, in the
order of their records. -/
structure Writers where
  handle : DurableIndex
  pending : List Call

inductive Event where
  /-- a call appends its record -/
  | append (c : Call)
  /-- a call whose record is appended changes the index and returns -/
  | applyCall (c : Call)
  | snapshot

section
variable [Platform UInt32]

/-- The steps of the writers.  A call whose record cannot be encoded returns an error and leaves no
trace; `Snapshot` waits until no call is in progress. -/
inductive Writers.Step (s : Writers) : Event → Writers → Prop
  | append {c : Call} {d : DurableIndex} (h : s.handle.appendWAL c.record .done = (d, .ok ())) :
      Step s (.append c) ⟨d, s.pending ++ [c]⟩
  | refuse {c : Call} {d : DurableIndex} {e : Wal.AppendError}
      (h : s.handle.appendWAL c.record .done = (d, .error e)) : Step s (.append c) ⟨d, s.pending⟩
  | applyCall {c : Call} (h : c ∈ s.pending) :
      Step s (.applyCall c)
        ⟨{ s.handle with idx := (c.onIndex s.handle.idx).1 }, s.pending.erase c⟩
  | snapshot (h : s.pending = []) : Step s .snapshot ⟨s.handle.snapshot.1, []⟩

/-- The steps that keep log and index together: vectors of the right dimension and within the limit
of the reader, calls on one key in the order of their records, and no `Add` on a full index. -/
def Event.Orderly (s : Writers) : Event → Prop
  | .append c => c.Sized s.handle.idx.params.dim ∧
      (21 + s.handle.idx.params.dim * 4 ≤ Wal.maxPayloadLen ∨ c.isAdd = false)
  | .applyCall c => (∀ c' ∈ (s.pending.filter fun c' => c'.key = c.key).head?, c' = c) ∧
      (c.isAdd = true → s.handle.idx.store.hasLabel c.key = true ∨
        s.handle.idx.store.count < min s.handle.idx.params.maxElements (2 ^ 32))
  | .snapshot => True

/-- One step with any event. -/
def Writers.Next (s s' : Writers) : Prop := ∃ e, s.Step e s'

/-- One step with an event that keeps log and index together. -/
def Writers.OrderlyNext (s s' : Writers) : Prop := ∃ e, e.Orderly s ∧ s.Step e s'

/-! ### The invariant -/

/-- A log of calls as a keyed log. -/
theorem run_calls (p : Params) (m : KeyMap UInt32) (cs : List Call) :
    m.run (cs.map (Call.op p)) =
      KeyedLog.run Call.key (fun e c => (c.op p).2.cell e) m cs := by
  unfold KeyMap.run KeyedLog.run
  rw [List.foldl_map]
  rfl

/-- The log holds the calls since the last snapshot, the pending ones among them, and the others
have been applied key by key in the order of the log. -/
structure InStep (cfg : Config) (p : Params) (s : Writers) : Prop where
  walOpen : s.handle.walOpen = true
  walNew : s.handle.dir.walNew = none
  params : s.handle.idx.params = p
  good : s.handle.idx.store.Good p
  logged : ∃ f base log, s.handle.dir.wal = some f ∧ Holds f.bytes (log.map Call.record) ∧
    loadOrCreateIndex cfg s.handle.dir = .ok base ∧ base.params = p ∧ base.store.Good p ∧
    (∀ c ∈ log, c.Sized p.dim) ∧
    KeyedLog.Lag Call.key (fun e c => (c.op p).2.cell e) base.store.keyMap log s.pending
      s.handle.idx.store.keyMap ∧
    addedKeys log ∪ base.store.keys ⊆ addedKeys s.pending ∪ s.handle.idx.store.keys

theorem inStep_fresh {cfg : Config} {p : Params}
    (hp : Hnsw.mkParams cfg.space cfg.dim cfg.maxElements cfg.M cfg.efConstruction = .ok p) :
    InStep cfg p ⟨DurableIndex.fresh p cfg.seed, []⟩ where
  walOpen := rfl
  walNew := rfl
  params := rfl
  good := Store.Good.empty p
  logged := ⟨Wal.newLog, Index.new p cfg.seed, [], rfl, Wal.holds_newLog,
    loadOrCreateIndex_empty hp rfl, rfl, Store.Good.empty p, nofun, KeyedLog.Lag.replayed _ _,
    Finset.Subset.refl _⟩

omit [Platform UInt32] in
theorem appendWAL_done {d : DurableIndex} {f : DurableFile} (hopen : d.walOpen = true)
    (hwal : d.dir.wal = some f) {c : Call} {b : Bytes} (henc : Wal.encode c.record = .ok b) :
    d.appendWAL c.record .done =
      ({ d with dir := { d.dir with
        wal := some (f.write (Wal.frame (Wal.payload c.record))).sync } }, .ok ()) := by
  simp only [DurableIndex.appendWAL, hopen, hwal, Wal.append_done henc]

omit [Platform UInt32] in
/-- `Snapshot` when nothing is left of an earlier one. -/
theorem snapshot_eq {d : DurableIndex} (hnew : d.dir.walNew = none) :
    d.snapshot = (⟨d.idx, ⟨some (DurableFile.empty.write d.idx.save), none, some Wal.newLog, none⟩,
      true⟩, .ok ()) := by
  obtain ⟨idx, ⟨snapshot, tmp, wal, new⟩, o⟩ := d
  cases hnew
  rfl

omit [Platform UInt32] in
theorem addedKeys_append (cs cs' : List Call) :
    addedKeys (cs ++ cs') = addedKeys cs ∪ addedKeys cs' := by
  unfold addedKeys
  rw [List.filter_append, List.map_append, List.toFinset_append]

omit [Platform UInt32] in
theorem addedKeys_erase {cs : List Call} {c : Call} (h : c ∈ cs) :
    addedKeys cs = c.added ∪ addedKeys (cs.erase c) := by
  rw [← addedKeys_cons]
  unfold addedKeys
  exact List.toFinset_eq_of_perm _ _ (((List.perm_cons_erase h).filter _).map _)

/-- Appending a record. -/
theorem InStep.append {cfg : Config} {p : Params} {s : Writers} (h : InStep cfg p s) {c : Call}
    {d : DurableIndex} {res : Except Wal.AppendError Unit}
    (happ : s.handle.appendWAL c.record .done = (d, res)) (hord : (Event.append c).Orderly s) :
    res = .ok () ∧ InStep cfg p ⟨d, s.pending ++ [c]⟩ := by
  obtain ⟨hsized, hfits⟩ := hord
  rw [h.params] at hsized hfits
  obtain ⟨f, base, log, hwal, hholds, hload, hbase, hgood, hlog, hlag, hkeys⟩ := h.logged
  have hloggable := loggable_record p.dim_pos hsized hfits
  rw [appendWAL_done h.walOpen hwal hloggable.encode] at happ
  cases happ
  refine ⟨rfl, ⟨h.walOpen, h.walNew, h.params, h.good, _, base, log ++ [c], rfl, ?_, ?_, hbase, hgood,
    ?_, hlag.append c, ?_⟩⟩
  · rw [List.map_append]
    exact hholds.append hloggable
  · rw [← hload]
    rfl
  · intro c' hc'
    obtain hc' | hc' := List.mem_append.mp hc'
    · exact hlog c' hc'
    · rwa [List.mem_singleton.mp hc']
  · rw [addedKeys_append, addedKeys_append, Finset.union_right_comm,
      Finset.union_right_comm (addedKeys s.pending)]
    exact Finset.union_subset_union hkeys (Finset.Subset.refl _)

/-- Applying the first pending call on its key. -/
theorem InStep.applyCall {cfg : Config} {p : Params} {s : Writers} (h : InStep cfg p s) {c : Call}
    (hmem : c ∈ s.pending) (hord : (Event.applyCall c).Orderly s) :
    InStep cfg p ⟨{ s.handle with idx := (c.onIndex s.handle.idx).1 }, s.pending.erase c⟩ := by
  obtain ⟨hfirst, hroom⟩ := hord
  obtain ⟨f, base, log, hwal, hholds, hload, hbase, hgood, hlog, hlag, hkeys⟩ := h.logged
  have hin : c ∈ KeyedLog.on Call.key c.key s.pending :=
    List.mem_filter.mpr ⟨hmem, decide_eq_true rfl⟩
  obtain ⟨rest, hrest⟩ : ∃ rest, KeyedLog.on Call.key c.key s.pending = c :: rest := by
    cases hon : KeyedLog.on Call.key c.key s.pending with
    | nil =>
        rw [hon] at hin
        cases hin
    | cons c' rest =>
        have hhead : c' = c := hfirst c' (by
          show c' ∈ (KeyedLog.on Call.key c.key s.pending).head?
          rw [hon]
          rfl)
        exact ⟨rest, by rw [hhead]⟩
  have hsized : c.Sized s.handle.idx.params.dim := by
    rw [h.params]
    obtain ⟨done, hdone, -⟩ := hlag c.key
    refine hlog c (List.mem_filter.mp (?_ : c ∈ KeyedLog.on Call.key c.key log)).1
    rw [hdone]
    exact List.mem_append_right _ hin
  obtain ⟨hparams', hgood', hmap', hkeys'⟩ :=
    onIndex_good (by rw [h.params]; exact h.good) hsized hroom
  rw [h.params] at hparams' hgood' hmap'
  refine ⟨h.walOpen, h.walNew, hparams', hgood', f, base, log, hwal, hholds, hload, hbase, hgood,
    hlog, ?_, ?_⟩
  · have hstep := hlag.apply hrest
    rw [hmap']
    exact hstep
  · rw [hkeys', ← Finset.union_assoc, Finset.union_comm _ c.added, ← addedKeys_erase hmem]
    exact hkeys

/-- `Snapshot` with no call in progress. -/
theorem InStep.snapshot {cfg : Config} {p : Params} {s : Writers} (h : InStep cfg p s) :
    InStep cfg p ⟨s.handle.snapshot.1, []⟩ := by
  have hgood : s.handle.idx.store.Good s.handle.idx.params := by
    rw [h.params]
    exact h.good
  obtain ⟨hgood', hmap, hkeys⟩ := Hnsw.reloaded_store hgood
  have hparams : s.handle.idx.reloaded.params = p := h.params
  rw [snapshot_eq h.walNew]
  refine ⟨rfl, rfl, h.params, h.good, Wal.newLog, s.handle.idx.reloaded, [], rfl, Wal.holds_newLog,
    loadOrCreateIndex_saved hgood rfl rfl, hparams, ?_, nofun, ?_, ?_⟩
  · rw [← hparams]
    exact hgood'
  · rw [hmap]
    exact KeyedLog.Lag.replayed _ _
  · rw [hkeys]

/-- **One orderly step keeps log and index together.** -/
theorem InStep.next {cfg : Config} {p : Params} {s s' : Writers} (h : InStep cfg p s)
    (hnext : s.OrderlyNext s') : InStep cfg p s' := by
  obtain ⟨e, hord, hstep⟩ := hnext
  cases hstep with
  | append happ => exact (h.append happ hord).2
  | refuse happ => exact nomatch (h.append happ hord).1
  | applyCall hmem => exact h.applyCall hmem hord
  | snapshot hquiet => exact h.snapshot

/-- With nothing in progress, replay gives the live map. -/
theorem InStep.recovers {cfg : Config} {p : Params} {s : Writers} (h : InStep cfg p s)
    (hquiet : s.pending = []) : Recovers cfg s.handle := by
  obtain ⟨f, base, log, hwal, hholds, hload, hbase, hgood, hlog, hlag, hkeys⟩ := h.logged
  rw [hquiet] at hlag hkeys
  have hroom : (addedKeys log ∪ base.store.keys).card ≤ p.room := by
    refine (Finset.card_le_card hkeys).trans ?_
    rw [addedKeys_nil, Finset.empty_union, h.good.card_keys]
    exact h.good.count_le
  obtain ⟨idx', happ, -, -, hmap, -⟩ := applyAll_record base (by rw [hbase]; exact hgood)
    (by rw [hbase]; exact hlog) (by rw [hbase]; exact hroom)
  refine ⟨_, openIndex_of_holds hload hwal (List.append_nil _).symm hholds Wal.readRecord_nil happ,
    ?_⟩
  rw [hbase, run_calls, hlag.quiescent] at hmap
  exact hmap

/-- **While the calls on each key are applied in the order of their records**, and every appended
`Add` has a vector of the right dimension, is within the limit of the reader and finds room: in
every state of every run in which no call is in progress, replaying the log on the last snapshot
gives the live key map. -/
theorem recovers_of_orderly {cfg : Config} {d : DurableIndex}
    (hopen : openIndex cfg Dir.empty = .ok d) {s : Writers}
    (hrun : Relation.ReflTransGen Writers.OrderlyNext ⟨d, []⟩ s) (hquiet : s.pending = []) :
    Recovers cfg s.handle := by
  obtain ⟨p, hp, rfl⟩ := openIndex_empty hopen
  have hin : InStep cfg p s := by
    clear hquiet
    induction hrun with
    | refl => exact inStep_fresh hp
    | tail _ hnext ih => exact ih.next hnext
  exact hin.recovers hquiet

end

/-! ### Two calls -/

/-- The handle after two calls, the second of which was applied first. -/
def DurableIndex.overtaken [Platform UInt32] (d : DurableIndex) (c c' : Call) : DurableIndex :=
  { d.performAll [c, c'] with idx := (c.onIndex (c'.onIndex d.idx).1).1 }

section
variable [Platform UInt32] {d : DurableIndex} {f : DurableFile}

/-- Two calls append their records one after the other; the log is then that of the two calls made
one after the other. -/
theorem append_pair (hopen : d.walOpen = true) (hwal : d.dir.wal = some f) {c c' : Call}
    {b b' : Bytes} (henc : Wal.encode c.record = .ok b) (henc' : Wal.encode c'.record = .ok b') :
    ∃ f₁ f₂, d.performAll [c, c'] = ⟨(c'.onIndex (c.onIndex d.idx).1).1,
        { d.dir with wal := some f₂ }, d.walOpen⟩ ∧
      Writers.Step ⟨d, []⟩ (.append c) ⟨{ d with dir := { d.dir with wal := some f₁ } }, [c]⟩ ∧
      Writers.Step ⟨{ d with dir := { d.dir with wal := some f₁ } }, [c]⟩ (.append c')
        ⟨{ d with dir := { d.dir with wal := some f₂ } }, [c, c']⟩ := by
  let f₁ := (f.write (Wal.frame (Wal.payload c.record))).sync
  let f₂ := (f₁.write (Wal.frame (Wal.payload c'.record))).sync
  refine ⟨f₁, f₂, ?_, .append (appendWAL_done hopen hwal henc), .append
    (appendWAL_done (d := { d with dir := { d.dir with wal := some f₁ } }) hopen rfl henc')⟩
  unfold DurableIndex.performAll
  rw [List.foldl_cons, perform_done hopen hwal henc, List.foldl_cons,
    perform_done rfl rfl henc', Wal.append_done henc, Wal.append_done henc', List.foldl_nil, hopen]

/-- Two calls may both append their records before the first of them is applied. -/
theorem next_interleaved (hopen : d.walOpen = true) (hwal : d.dir.wal = some f) {c c' : Call}
    {b b' : Bytes} (henc : Wal.encode c.record = .ok b) (henc' : Wal.encode c'.record = .ok b')
    (happ : (Event.append c).Orderly ⟨d, []⟩) (happ' : (Event.append c').Orderly ⟨d, []⟩)
    (hroom : c.isAdd = true → d.idx.store.hasLabel c.key = true ∨
      d.idx.store.count < min d.idx.params.maxElements (2 ^ 32))
    (hroom' : c'.isAdd = true → (c.onIndex d.idx).1.store.hasLabel c'.key = true ∨
      (c.onIndex d.idx).1.store.count < min (c.onIndex d.idx).1.params.maxElements (2 ^ 32)) :
    Relation.ReflTransGen Writers.OrderlyNext ⟨d, []⟩ ⟨d.performAll [c, c'], []⟩ := by
  obtain ⟨f₁, f₂, hboth, h₁, h₂⟩ := append_pair hopen hwal henc henc'
  rw [hboth]
  have h₃ := Writers.Step.applyCall (c := c) (s := ⟨{ d with dir := { d.dir with wal := some f₂ } },
    [c, c']⟩) List.mem_cons_self
  rw [List.erase_cons_head] at h₃
  have h₄ := Writers.Step.applyCall (c := c') (s := ⟨{ d with
    idx := (c.onIndex d.idx).1, dir := { d.dir with wal := some f₂ } }, [c']⟩) List.mem_cons_self
  rw [List.erase_cons_head] at h₄
  have hfirst : ∀ c₀ ∈ ([c, c'].filter fun c₀ => c₀.key = c.key).head?, c₀ = c := by
    intro c₀ hc₀
    simpa [eq_comm] using hc₀
  have hsecond : ∀ c₀ ∈ ([c'].filter fun c₀ => c₀.key = c'.key).head?, c₀ = c' := by
    intro c₀ hc₀
    simpa [eq_comm] using hc₀
  exact .tail (.tail (.tail (.tail .refl ⟨.append c, happ, h₁⟩) ⟨.append c', happ', h₂⟩)
    ⟨.applyCall c, ⟨hfirst, hroom⟩, h₃⟩) ⟨.applyCall c', ⟨hsecond, hroom'⟩, h₄⟩

/-- Two calls may be applied in the other order. -/
theorem next_overtaken (hopen : d.walOpen = true) (hwal : d.dir.wal = some f) {c c' : Call}
    {b b' : Bytes} (henc : Wal.encode c.record = .ok b) (henc' : Wal.encode c'.record = .ok b') :
    Relation.ReflTransGen Writers.Next ⟨d, []⟩ ⟨d.overtaken c c', []⟩ := by
  obtain ⟨f₁, f₂, hlog, h₁, h₂⟩ := append_pair hopen hwal henc henc'
  rw [DurableIndex.overtaken, hlog]
  have h₃ := Writers.Step.applyCall (c := c') (s := ⟨{ d with dir := { d.dir with wal := some f₂ } },
    [c, c']⟩) (by simp)
  have hc : c ∈ [c, c'].erase c' := by
    by_cases heq : c = c'
    · rw [heq, List.erase_cons_head]
      exact List.mem_singleton_self _
    · rw [List.erase_cons_tail (by simpa using heq)]
      exact List.mem_cons_self
  have h₄ := Writers.Step.applyCall (s := ⟨{ d with
    idx := (c'.onIndex d.idx).1, dir := { d.dir with wal := some f₂ } }, [c, c'].erase c'⟩) hc
  have hnil : ([c, c'].erase c').erase c = [] := by
    rw [List.erase_comm, List.erase_cons_head, List.erase_cons_head]
  rw [hnil] at h₄
  exact .tail (.tail (.tail (.tail .refl ⟨_, h₁⟩) ⟨_, h₂⟩) ⟨_, h₃⟩) ⟨_, h₄⟩

end

open Hnsw.StandIn in
/-- An `Add` and a `MarkDeleted` of its key, both in the log before the `Add` is applied. -/
theorem recovers_interleaved :
    ∃ s : Writers, Relation.ReflTransGen Writers.OrderlyNext ⟨DurableIndex.fresh smallParams 0, []⟩ s ∧
      s.pending = [] ∧ s.handle.idx.store.keyMap ⟨1, 1⟩ = some ([5], true) ∧
      Recovers smallConfig s.handle := by
  have hopen : openIndex smallConfig Dir.empty = .ok (DurableIndex.fresh smallParams 0) := rfl
  have hadd : (Call.add [5] ⟨1, 1⟩).Sized 1 := by
    rintro vec key ⟨⟩
    rfl
  have hmark : (Call.markDeleted ⟨1, 1⟩).Sized 1 := nofun
  have henc : Wal.encode (Call.add [5] ⟨1, 1⟩).record =
      .ok (Wal.frame (Wal.payload (Call.add [5] ⟨1, 1⟩).record)) := rfl
  have henc' : Wal.encode (Call.markDeleted ⟨1, 1⟩).record =
      .ok (Wal.frame (Wal.payload (Call.markDeleted ⟨1, 1⟩).record)) := rfl
  have hrun := next_interleaved (d := DurableIndex.fresh smallParams 0) rfl rfl henc henc'
    ⟨hadd, Or.inl (by decide)⟩ ⟨hmark, Or.inr rfl⟩ (by decide) nofun
  exact ⟨_, hrun, rfl, by decide +kernel, recovers_of_orderly hopen hrun rfl⟩

open Hnsw.StandIn in
/-- The `Add` whose record came second is applied first and returns nil, the other one is a
duplicate; replay keeps the vector of the other one. -/
theorem swapped_calls_diverge :
    ∃ s : Writers, Relation.ReflTransGen Writers.Next ⟨DurableIndex.fresh smallParams 0, []⟩ s ∧
      s.pending = [] ∧ s.handle.idx.store.keyMap ⟨1, 1⟩ = some ([6], false) ∧
      ¬ Recovers smallConfig s.handle := by
  have hlive : ((DurableIndex.fresh smallParams 0).overtaken (.add [5] ⟨1, 1⟩)
      (.add [6] ⟨1, 1⟩)).idx.store.keyMap ⟨1, 1⟩ = some ([6], false) := by decide +kernel
  have hopen : ((openIndex smallConfig ((DurableIndex.fresh smallParams 0).overtaken
      (.add [5] ⟨1, 1⟩) (.add [6] ⟨1, 1⟩)).dir).toOption.map
        fun d => d.idx.store.keyMap ⟨1, 1⟩) = some (some ([5], false)) := by decide +kernel
  have henc : ∀ x : UInt32, Wal.encode (Call.add [x] ⟨1, 1⟩).record =
      .ok (Wal.frame (Wal.payload (Call.add [x] ⟨1, 1⟩).record)) := fun x => rfl
  refine ⟨_, next_overtaken rfl rfl (henc 5) (henc 6), rfl, hlive, ?_⟩
  rintro ⟨d', hd', hmap⟩
  rw [hd'] at hopen
  have hrec : d'.idx.store.keyMap ⟨1, 1⟩ = some ([5], false) := Option.some.inj hopen
  rw [hmap, hlive] at hrec
  cases hrec

end VectorSearch.Durable
