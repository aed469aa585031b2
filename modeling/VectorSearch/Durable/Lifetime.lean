import VectorSearch.Durable.FailedSnapshot
import VectorSearch.Hnsw.KeyReplay
import VectorSearch.Shard.Effects

/-! # What was acknowledged, over a lifetime

A directory is opened, and from then on calls are made, snapshots are written, snapshots fail at any
of their steps, the process dies inside a snapshot or inside an append, and `Open` starts the next
one, any number of times (`DurableIndex.Lifetime`).  What the callers were told is the list of the
answers, and `promised` is the key map that the acknowledged calls make.

`Faithful` relates the snapshot, the log, the index and the answers at every moment.  The index holds
what was promised, with the one exception that a deletion which was refused because its key was not
there may come true later (`Lifetime.durable`).  While no `Add` was answered `ErrFull`, every crash
leaves files that `Open` accepts (`Lifetime.reopens`). -/

open ByteCodec

namespace VectorSearch.Durable

open Wal (Holds applyAll)
open Hnsw (Label Index Platform Params Store KeyOp KeyMap)
open Hnsw.KeyOp (Buried Follows)

/-- A call and what it returned. -/
abbrev Answer := Call × Except WriteError Unit

/-- The calls that returned nil. -/
def acked (answers : List Answer) : List Call :=
  (answers.filter fun a => a.2.toBool).map Prod.fst

/-- No `Add` has found the index full. -/
def NoneFull (answers : List Answer) : Prop :=
  ∀ a ∈ answers, a.2 ≠ .error (.indexAdd .full)

theorem NoneFull.of_append {answers : List Answer} {a : Answer} (h : NoneFull (answers ++ [a])) :
    NoneFull answers ∧ a.2 ≠ .error (.indexAdd .full) :=
  ⟨fun b hb => h b (List.mem_append_left _ hb),
    h a (List.mem_append_right _ (List.mem_singleton_self _))⟩

section
variable [Platform UInt32]

/-- The key map that the acknowledged calls make of an empty one. -/
def promised (p : Params) (answers : List Answer) : KeyMap UInt32 :=
  KeyMap.run (fun _ => none) ((acked answers).map (Call.op p))

/-- A `MarkDeleted` of the key was refused before the key was there. -/
def RefusedEarly (p : Params) (answers : List Answer) (k : Label) : Prop :=
  ∃ before after, answers = before ++ (.markDeleted k, .error (.index .notFound)) :: after ∧
    promised p before k = none

section
variable {p : Params} {answers : List Answer} {c : Call} {k : Label} {r : Except WriteError Unit}

theorem promised_ok : promised p (answers ++ [(c, .ok ())]) =
    (promised p answers).apply (c.op p) := by
  have hacked : acked (answers ++ [(c, .ok ())]) = acked answers ++ [c] := by
    simp [acked, Except.toBool]
  rw [promised, hacked, List.map_append]
  exact KeyedLog.run_concat _ _ _

theorem promised_error {e : WriteError} :
    promised p (answers ++ [(c, .error e)]) = promised p answers := by
  have hacked : acked (answers ++ [(c, .error e)]) = acked answers := by
    simp [acked, Except.toBool]
  rw [promised, hacked, promised]

theorem RefusedEarly.append (h : RefusedEarly p answers k) (a : Answer) :
    RefusedEarly p (answers ++ [a]) k := by
  obtain ⟨before, after, rfl, hnone⟩ := h
  exact ⟨before, after ++ [a], by simp, hnone⟩

theorem RefusedEarly.of_append {a : Answer} (h : RefusedEarly p (answers ++ [a]) k) :
    RefusedEarly p answers k ∨
      a = (.markDeleted k, .error (.index .notFound)) ∧ promised p answers k = none := by
  obtain ⟨before, after, heq, hnone⟩ := h
  obtain rfl | ⟨after, b, rfl⟩ := List.eq_nil_or_concat after
  · obtain ⟨rfl, hlast⟩ := List.append_inj' heq rfl
    exact Or.inr ⟨List.head_eq_of_cons_eq hlast, hnone⟩
  · rw [List.concat_eq_append, ← List.cons_append, ← List.append_assoc] at heq
    obtain ⟨rfl, -⟩ := List.append_inj' heq rfl
    exact Or.inl ⟨before, after, rfl, hnone⟩

end

/-! ### Lifetimes -/

/-- What a process crash may leave of the directory.  A crash behind the append of a record and in
front of the answer is one behind the call. -/
inductive DurableIndex.Crash (d : DurableIndex) : Dir → Prop
  /-- after `j` steps of `Snapshot`, or between calls if `j` is 0 -/
  | inSnapshot {j : ℕ} (hj : j ≤ snapshotSteps.length)
      (hw : d.walOpen = true ∨ j ≤ beforeClose.length) : Crash d (d.interrupted j).dir
  /-- with a part of a frame appended -/
  | inAppend {c : Call} {n : ℕ} (hc : c.Sound d.idx)
      (hn : n < (Wal.frame (Wal.payload c.record)).length) :
      Crash d (d.perform c (.writeFails n)).1.dir

/-- The handles on one directory, one after the other, and the answers that their callers got.  Only
an open log can be closed without an error. -/
inductive DurableIndex.Lifetime (cfg : Config) : List Answer → DurableIndex → Prop
  | opened {d : DurableIndex} (hopen : openIndex cfg Dir.empty = .ok d) : Lifetime cfg [] d
  | call {answers : List Answer} {d : DurableIndex} {c : Call} (h : Lifetime cfg answers d)
      (hc : c.Sound d.idx) :
      Lifetime cfg (answers ++ [(c, (d.perform c .done).2)]) (d.perform c .done).1
  | snapshot {answers : List Answer} {d : DurableIndex} (h : Lifetime cfg answers d)
      (hw : d.walOpen = true) : Lifetime cfg answers d.snapshot.1
  | snapshotFails {answers : List Answer} {d : DurableIndex} {s : SnapshotStep}
      {left : Option DurableFile} (h : Lifetime cfg answers d)
      (hw : d.walOpen = true ∨ s ∈ .closeOld :: beforeClose) :
      Lifetime cfg answers (d.snapshotFailing s left)
  | crash {answers : List Answer} {d d' : DurableIndex} {dir : Dir} (h : Lifetime cfg answers d)
      (hcrash : d.Crash dir) (hopen : openIndex cfg dir = .ok d') : Lifetime cfg answers d'

/-! ### The invariant -/

/-- The operations on a key in the log. -/
abbrev logOn (p : Params) (log : List Call) (k : Label) : List (KeyOp UInt32) :=
  KeyMap.opsOn k (log.map (Call.op p))

/-- The snapshot gives `base`, the log holds `log`, and every entry of the index is what they and the
acknowledged calls say. -/
structure Faithful (cfg : Config) (p : Params) (base : Index UInt32) (log : List Call)
    (answers : List Answer) (d : DurableIndex) : Prop where
  serving : Serving cfg p base log d
  roomy : NoneFull answers → addedKeys log ∪ base.store.keys ⊆ d.idx.store.keys
  follows : ∀ k, Follows (RefusedEarly p answers k) (base.store.keyMap k) (logOn p log k)
    (d.idx.store.keyMap k) (promised p answers k)

section
variable {cfg : Config} {p : Params} {base : Index UInt32} {log : List Call}
  {answers : List Answer} {d d' : DurableIndex} {c : Call} {k : Label}

theorem logOn_append (p : Params) (log : List Call) (c : Call) (k : Label) :
    logOn p (log ++ [c]) k = logOn p log k ++ if c.key = k then [(c.op p).2] else [] := by
  rw [logOn, KeyMap.opsOn, List.map_append, KeyedLog.on_append, List.map_append]
  congr 1
  by_cases hk : c.key = k
  · have hkey : (c.op p).1 = k := hk
    rw [if_pos hk, List.map_singleton, KeyedLog.on_cons_same hkey]
    rfl
  · have hkey : (c.op p).1 ≠ k := hk
    rw [if_neg hk, List.map_singleton, KeyedLog.on_cons_ne hkey]
    rfl

theorem faithful_fresh
    (hp : Hnsw.mkParams cfg.space cfg.dim cfg.maxElements cfg.M cfg.efConstruction = .ok p) :
    Faithful cfg p (Index.new p cfg.seed) [] [] (DurableIndex.fresh p cfg.seed) where
  serving := serving_fresh hp
  roomy _ := Finset.Subset.refl _
  follows _ := Hnsw.KeyOp.follows_nil _ _

/-- A key that is not in the index is not in the log or the snapshot either. -/
theorem Serving.foldl_none (h : Serving cfg p base log d)
    (hkeys : addedKeys log ∪ base.store.keys ⊆ d.idx.store.keys)
    (hk : d.idx.store.keyMap k = none) :
    (logOn p log k).foldl KeyOp.cell (base.store.keyMap k) = none := by
  have hnot : k ∉ addedKeys log ∪ base.store.keys := fun hmem => by
    have hsome := (h.good.mem_keys.mp (hkeys hmem))
    rw [← Store.isSome_keyMap, hk] at hsome
    cases hsome
  rw [Finset.mem_union, not_or] at hnot
  have hbase : base.store.keyMap k = none := by
    rw [← Option.not_isSome_iff_eq_none, Store.isSome_keyMap, ← h.baseGood.mem_keys]
    exact hnot.2
  rw [hbase]
  refine Hnsw.KeyOp.foldl_cell_none fun o ho => ?_
  obtain ⟨⟨k', o'⟩, hmem, rfl⟩ := List.mem_map.mp ho
  obtain ⟨hmem, hkey⟩ := List.mem_filter.mp hmem
  obtain ⟨c, hc, heq⟩ := List.mem_map.mp hmem
  by_contra hadd
  refine hnot.1 (List.mem_toFinset.mpr (List.mem_map.mpr ⟨c, List.mem_filter.mpr ⟨hc, ?_⟩, ?_⟩))
  · rw [← isAdd_op p, heq]
    exact (Bool.not_eq_false _).mp hadd
  · have hck : (c.op p).1 = k := by
      rw [heq]
      exact of_decide_eq_true hkey
    exact hck

/-- There is room for the key of the call, if it adds one. -/
def HasSpace (idx : Index UInt32) (c : Call) : Prop :=
  c.isAdd = true → idx.store.hasLabel c.key = true ∨ idx.store.count < idx.params.room

/-- A call on an open handle is the call on its index. -/
theorem Serving.idx_perform (h : Serving cfg p base log d) (hc : c.Sound d.idx)
    (hopen : d.walOpen = true) : (d.perform c .done).1.idx = (c.onIndex d.idx).1 := by
  obtain ⟨f, hwal, -⟩ := h.wal
  have henc : Wal.encode c.record = .ok (Wal.frame (Wal.payload c.record)) :=
    (Wal.encode_eq_ok_iff _ _).mpr ⟨rule_record d.idx.params.dim_pos hc.1, rfl⟩
  rw [perform_done hopen hwal henc, Wal.append_done henc]

/-- With room it does what its operation says, and its answer tells whether it took effect. -/
theorem Serving.call_space (h : Serving cfg p base log d) (hc : c.Sound d.idx)
    (hopen : d.walOpen = true) (hspace : HasSpace d.idx c) :
    (d.perform c .done).1.idx.store.keyMap = d.idx.store.keyMap.apply (c.op p) ∧
      (d.perform c .done).1.idx.store.keys = c.added ∪ d.idx.store.keys ∧
      ((d.perform c .done).2 = .ok () ∧ d.idx.store.keyMap.Takes (c.op p) ∨
        (d.perform c .done).2 = .error (c.error c.tolerated) ∧
          ¬ d.idx.store.keyMap.Takes (c.op p)) := by
  have hgood : d.idx.store.Good d.idx.params := by
    rw [h.params]
    exact h.good
  obtain ⟨-, -, hmap, hkeys⟩ := onIndex_good hgood hc.1 hspace
  have heffect := onIndex_effect hgood hc.1 hc.2.2
  rw [h.params] at hmap heffect
  rw [h.idx_perform hc hopen, (h.call hc hopen).2]
  refine ⟨hmap, hkeys, ?_⟩
  cases hres : (c.onIndex d.idx).2 with
  | ok u =>
    obtain ⟨a, ha, -, htakes, -⟩ | ⟨hno, -⟩ := heffect
    · obtain rfl := Option.some.inj ha
      exact Or.inl ⟨rfl, htakes⟩
    · exact absurd hres hno
  | error e =>
    have htolerated : e = c.tolerated := by
      rw [(onIndex_eq hc.1).2.2] at hres
      refine (onStore_error hres).resolve_right fun hfull => hfull.2 fun hadd => ?_
      refine (hspace hadd).imp_right fun hlt => lt_of_le_of_lt (Nat.mod_le _ _) ?_
      exact lt_of_lt_of_le hlt (min_le_left _ _)
    obtain ⟨a, -, hok, -⟩ | ⟨-, hsame⟩ := heffect
    · rw [hres] at hok
      cases hok
    · rw [htolerated]
      exact Or.inr ⟨rfl, not_not.mpr (hmap.symm.trans hsame)⟩

/-- Without room it is an `Add` of a new key, and nothing but the log changes. -/
theorem Serving.call_full (h : Serving cfg p base log d) (hc : c.Sound d.idx)
    (hopen : d.walOpen = true) (hfull : ¬ HasSpace d.idx c) :
    (d.perform c .done).1.idx.store = d.idx.store ∧
      (d.perform c .done).2 = .error (.indexAdd .full) ∧ d.idx.store.keyMap c.key = none := by
  have hfull' := hfull
  simp only [HasSpace, Classical.not_imp, not_or, not_lt] at hfull'
  obtain ⟨hadd, hlabel, hroom⟩ := hfull'
  have hlt := (hc.2.2 hadd).resolve_left hlabel
  have hno : ¬ c.HasRoom d.idx.params d.idx.store := by
    intro hroom'
    have hmod := (hroom' hadd).resolve_left hlabel
    rw [Nat.mod_eq_of_lt hlt] at hmod
    rw [Params.room] at hroom
    omega
  obtain ⟨-, hstore, hres⟩ := onIndex_eq hc.1
  rw [h.idx_perform hc hopen, (h.call hc hopen).2, hstore, hres, onStore_full hno]
  refine ⟨?_, ?_, ?_⟩
  · cases c with
    | add vec key =>
      simp only [Call.HasRoom, Classical.not_imp, not_or, not_lt] at hno
      have hnew : d.idx.store.hasLabel key = false := Bool.eq_false_iff.mpr hlabel
      simp only [Call.onStore, Store.add_of_full vec hnew hno.2.2]
    | markDeleted key | unmarkDeleted key => cases hadd
  · cases c with
    | add vec key => rfl
    | markDeleted key | unmarkDeleted key => cases hadd
  · rw [← Option.not_isSome_iff_eq_none, Store.isSome_keyMap]
    exact hlabel

/-! ### Steps -/

/-- The promise after an answer. -/
theorem promised_append (p : Params) (answers : List Answer) (c : Call) (k : Label)
    (r : Except WriteError Unit) : promised p (answers ++ [(c, r)]) k =
      if r = .ok () ∧ c.key = k then (c.op p).2.cell (promised p answers k)
      else promised p answers k := by
  cases r with
  | error e =>
    rw [promised_error, if_neg (by rintro ⟨⟨⟩, -⟩)]
  | ok u =>
    rw [promised_ok]
    by_cases hk : c.key = k
    · rw [if_pos ⟨rfl, hk⟩, ← hk]
      exact KeyMap.apply_same _ _ _
    · rw [if_neg fun h => hk h.2]
      exact KeyMap.apply_ne _ _ (Ne.symm hk)

/-- A call for which there is room. -/
theorem Faithful.call_space (h : Faithful cfg p base log answers d) (hc : c.Sound d.idx)
    (hopen : d.walOpen = true) (hspace : HasSpace d.idx c) :
    Faithful cfg p base (log ++ [c]) (answers ++ [(c, (d.perform c .done).2)])
      (d.perform c .done).1 := by
  obtain ⟨hmap, hkeys, hres⟩ := h.serving.call_space hc hopen hspace
  refine ⟨(h.serving.call hc hopen).1, fun hroomy => ?_, fun k => ?_⟩
  · rw [hkeys, addedKeys_append, addedKeys_cons, addedKeys_nil, Finset.union_empty,
      Finset.union_comm _ c.added, Finset.union_assoc]
    exact Finset.union_subset_union (Finset.Subset.refl _) (h.roomy hroomy.of_append.1)
  · have hearly : RefusedEarly p answers k → RefusedEarly p
        (answers ++ [(c, (d.perform c .done).2)]) k := fun h => h.append _
    rw [hmap, logOn_append, promised_append]
    by_cases hk : c.key = k
    · subst hk
      have hsame : d.idx.store.keyMap.apply (c.op p) c.key =
          (c.op p).2.cell (d.idx.store.keyMap c.key) := KeyMap.apply_same _ _ _
      rw [hsame, if_pos rfl]
      obtain ⟨hok, htakes⟩ | ⟨herr, hno⟩ := hres
      · rw [if_pos ⟨hok, rfl⟩]
        have htakes : (c.op p).2.cell (d.idx.store.keyMap c.key) ≠ d.idx.store.keyMap c.key :=
          KeyMap.takes_iff.mp htakes
        refine ((h.follows c.key).performed htakes fun hnone => ?_).imp hearly
        -- an add: its key is neither in the snapshot nor in the log
        refine h.serving.foldl_none (h.serving.keys.resolve_right fun hfull => ?_) hnone
        have hadd : c.isAdd = true := by
          rw [hnone] at htakes
          rw [← isAdd_op p]
          cases hop : (c.op p).2 with
          | add v => rfl
          | mark | unmark =>
            rw [hop] at htakes
            exact absurd rfl htakes
        obtain hlabel | hlt := hspace hadd
        · rw [← Store.isSome_keyMap, hnone] at hlabel
          cases hlabel
        · rw [h.serving.params, Params.room] at hlt
          omega
      · have hno : (c.op p).2.cell (d.idx.store.keyMap c.key) = d.idx.store.keyMap c.key :=
          not_not.mp (mt KeyMap.takes_iff.mpr hno)
        rw [hno, if_neg (by rw [herr]; rintro ⟨⟨⟩, -⟩)]
        refine (h.follows c.key).refused hno hearly fun hop hw => ?_
        cases c with
        | add vec key | unmarkDeleted key => cases hop
        | markDeleted key => exact ⟨answers, [], by rw [herr]; rfl, hw⟩
    · have hsame : d.idx.store.keyMap.apply (c.op p) k = d.idx.store.keyMap k :=
        KeyMap.apply_ne _ _ (Ne.symm hk)
      rw [hsame, if_neg hk, if_neg fun h => hk h.2, List.append_nil]
      exact (h.follows k).imp hearly

/-- An `Add` that finds the index full. -/
theorem Faithful.call_full (h : Faithful cfg p base log answers d) (hc : c.Sound d.idx)
    (hopen : d.walOpen = true) (hfull : ¬ HasSpace d.idx c) :
    Faithful cfg p base (log ++ [c]) (answers ++ [(c, (d.perform c .done).2)])
      (d.perform c .done).1 := by
  obtain ⟨hstore, hres, hnone⟩ := h.serving.call_full hc hopen hfull
  refine ⟨(h.serving.call hc hopen).1, fun hroomy => absurd hres hroomy.of_append.2, fun k => ?_⟩
  have hearly : RefusedEarly p answers k → RefusedEarly p
      (answers ++ [(c, (d.perform c .done).2)]) k := fun h => h.append _
  rw [hres] at hearly ⊢
  rw [hstore, logOn_append, promised_error]
  by_cases hk : c.key = k
  · subst hk
    have hfollows := h.follows c.key
    rw [hnone] at hfollows
    rw [hnone, if_pos rfl]
    cases c with
    | add vec key => exact (hfollows.full _).imp hearly
    | markDeleted key | unmarkDeleted key => exact absurd nofun hfull
  · rw [if_neg hk, List.append_nil]
    exact (h.follows k).imp hearly

/-- **A call**, whatever its answer. -/
theorem Faithful.call (h : Faithful cfg p base log answers d) (hc : c.Sound d.idx) :
    ∃ log', Faithful cfg p base log' (answers ++ [(c, (d.perform c .done).2)])
      (d.perform c .done).1 := by
  cases hopen : d.walOpen with
  | true =>
    by_cases hspace : HasSpace d.idx c
    · exact ⟨_, h.call_space hc hopen hspace⟩
    · exact ⟨_, h.call_full hc hopen hspace⟩
  | false =>
    rw [perform_closed hopen]
    refine ⟨log, h.serving, fun hroomy => h.roomy hroomy.of_append.1, fun k => ?_⟩
    rw [promised_error]
    exact (h.follows k).imp fun hearly => hearly.append _

/-- Part of a `Snapshot`. -/
theorem Faithful.rotated (h : Faithful cfg p base log answers d) (hd : HalfRotated d d') :
    ∃ base' log', Faithful cfg p base' log' answers d' := by
  have hgood : d.idx.store.Good d.idx.params := by
    rw [h.serving.params]
    exact h.serving.good
  obtain ⟨-, hmap, hkeys⟩ := Hnsw.reloaded_store hgood
  obtain hserving | hserving | hserving := h.serving.rotated hd
  · refine ⟨base, log, hserving, ?_, ?_⟩
    · rw [hd.idx]
      exact h.roomy
    · rw [hd.idx]
      exact h.follows
  · refine ⟨d.idx.reloaded, log, hserving, fun hroomy => ?_, fun k => ?_⟩
    · rw [hd.idx, hkeys]
      exact Finset.union_subset (Finset.subset_union_left.trans (h.roomy hroomy))
        (Finset.Subset.refl _)
    · rw [hd.idx, hmap]
      exact (h.follows k).saved
  · refine ⟨d.idx.reloaded, [], hserving, fun _ => ?_, fun k => ?_⟩
    · rw [hd.idx, hkeys, addedKeys_nil, Finset.empty_union]
    · rw [hd.idx, hmap]
      exact (h.follows k).rotated

/-! ### Open -/

/-- `Open` will load `base` and find the log `log`, with at most a torn frame behind it. -/
def Holding (cfg : Config) (dir : Dir) (base : Index UInt32) (log : List Call) : Prop :=
  loadOrCreateIndex cfg dir = .ok base ∧ ∃ f bs t, dir.wal = some f ∧ f.bytes = bs ++ t ∧
    Holds bs (log.map Call.record) ∧ Wal.readRecord t = none

omit [Platform UInt32] in
theorem Serving.holding (h : Serving cfg p base log d) : Holding cfg d.dir base log := by
  obtain ⟨f, hwal, hholds⟩ := h.wal
  exact ⟨h.load, f, _, [], hwal, (List.append_nil _).symm, hholds, Wal.readRecord_nil⟩

/-- A process that dies in the middle of an append. -/
theorem Serving.holding_torn (h : Serving cfg p base log d) (hc : c.Sound d.idx) {n : ℕ}
    (hn : n < (Wal.frame (Wal.payload c.record)).length) :
    Holding cfg (d.perform c (.writeFails n)).1.dir base log := by
  cases hw : d.walOpen with
  | false =>
    rw [perform_closed hw]
    exact h.holding
  | true =>
    obtain ⟨f, hwal, hholds⟩ := h.wal
    have hlog := loggable_record d.idx.params.dim_pos hc.1 hc.2.1
    have hdir : (d.perform c (.writeFails n)).1.dir = { d.dir with
        wal := some (f.write ((Wal.frame (Wal.payload c.record)).take n)) } := by
      simp only [DurableIndex.perform, DurableIndex.appendWAL, hw, hwal, Wal.append, hlog.encode]
    rw [hdir]
    refine ⟨?_, _, f.bytes, _, rfl, rfl, hholds, ?_⟩
    · rw [← h.load]
      rfl
    · refine Wal.readRecord_torn hlog.length_payload_le (List.take_prefix _ _) ?_
      rwa [List.length_take, min_eq_left hn.le]

/-- What a crash leaves belongs to the same answers. -/
theorem Faithful.crash (h : Faithful cfg p base log answers d) {dir : Dir} (hcrash : d.Crash dir) :
    ∃ base' log' d', Faithful cfg p base' log' answers d' ∧ Holding cfg dir base' log' := by
  cases hcrash with
  | inSnapshot hj hw =>
    obtain ⟨base', log', h'⟩ := h.rotated (halfRotated_interrupted d hj)
    exact ⟨base', log', _, h', h'.serving.holding⟩
  | inAppend hc hn => exact ⟨base, log, d, h, h.serving.holding_torn hc hn⟩

/-- Replay of the log on the snapshot. -/
theorem Faithful.applyAll (h : Faithful cfg p base log answers d)
    (hle : (addedKeys log ∪ base.store.keys).card ≤ p.room) :
    ∃ idx, applyAll apply base (log.map Call.record) = .ok idx ∧
      idx.store.keyMap = base.store.keyMap.run (log.map (Call.op p)) ∧
      idx.store.keys = addedKeys log ∪ base.store.keys := by
  have hbase := h.serving.baseParams
  obtain ⟨idx, happ, -, -, hmap, hkeys⟩ := applyAll_record base
    (by rw [hbase]; exact h.serving.baseGood) (by rw [hbase]; exact h.serving.sized)
    (by rw [hbase]; exact hle)
  rw [hbase] at hmap
  exact ⟨idx, happ, hmap, hkeys⟩

/-- **After an `Open`** that succeeds. -/
theorem Faithful.opened (h : Faithful cfg p base log answers d) {dir : Dir}
    (hholding : Holding cfg dir base log) (hopen : openIndex cfg dir = .ok d') :
    Faithful cfg p base log answers d' := by
  obtain ⟨hload, f, bs, t, hwal, hbytes, hholds, ht⟩ := hholding
  have hserving := h.serving.opened hload hwal hbytes hholds ht hopen
  obtain ⟨idx, rs, f', hload', happ, -, -, hrs, -⟩ := openIndex_wal hopen
  obtain rfl : idx = base := Except.ok.inj (hload'.symm.trans hload)
  obtain rfl : rs = log.map Call.record := by
    rw [hrs f hwal, hbytes, hholds.records_drop_torn ht]
  have hle := h.serving.card_le (Or.inl ⟨_, happ⟩)
  obtain ⟨idx', happ', hmap, hkeys⟩ := h.applyAll hle
  obtain rfl : d'.idx = idx' := Except.ok.inj (happ.symm.trans happ')
  refine ⟨hserving, fun _ => by rw [hkeys], fun k => ?_⟩
  rw [hmap, KeyMap.run_at]
  refine (h.follows k).replayed fun hnone => h.serving.foldl_none ?_ hnone
  -- the index has all its keys from the snapshot and the log; if it is full these have no others
  have hsub : d.idx.store.keys ⊆ addedKeys log ∪ idx.store.keys := by
    intro k hk
    rw [← hkeys, hserving.good.mem_keys, ← Store.isSome_keyMap, hmap, KeyMap.run_at]
    rw [h.serving.good.mem_keys, ← Store.isSome_keyMap, Option.isSome_iff_ne_none] at hk
    rw [Option.isSome_iff_ne_none]
    intro hno
    refine hk (Hnsw.KeyOp.buried_none_right ?_)
    rw [← hno]
    exact (h.follows k).replays.replayed hk
  refine h.serving.keys.elim id fun hfull => (Finset.eq_of_subset_of_card_le hsub ?_).ge
  rw [h.serving.good.card_keys]
  rw [Params.room] at hle
  omega

/-- If no `Add` has found the index full, `Open` succeeds. -/
theorem Faithful.opens (h : Faithful cfg p base log answers d) (hroomy : NoneFull answers) {dir : Dir}
    (hholding : Holding cfg dir base log) : ∃ d', openIndex cfg dir = .ok d' := by
  obtain ⟨hload, f, bs, t, hwal, hbytes, hholds, ht⟩ := hholding
  have hle : (addedKeys log ∪ base.store.keys).card ≤ p.room := by
    refine (Finset.card_le_card (h.roomy hroomy)).trans ?_
    rw [h.serving.good.card_keys]
    exact h.serving.good.count_le
  obtain ⟨idx, happ, -⟩ := h.applyAll hle
  exact ⟨_, openIndex_of_holds hload hwal hbytes hholds ht happ⟩

end

/-! ### The results -/

theorem DurableIndex.Lifetime.faithful {cfg : Config} {answers : List Answer} {d : DurableIndex}
    (h : Lifetime cfg answers d) : ∃ p base log, Faithful cfg p base log answers d ∧
      Hnsw.mkParams cfg.space cfg.dim cfg.maxElements cfg.M cfg.efConstruction = .ok p := by
  induction h with
  | opened hopen =>
    obtain ⟨p, hp, rfl⟩ := openIndex_empty hopen
    exact ⟨p, _, _, faithful_fresh hp, hp⟩
  | call _ hc ih =>
    obtain ⟨p, base, log, ih, hp⟩ := ih
    obtain ⟨log', h'⟩ := ih.call hc
    exact ⟨p, base, log', h', hp⟩
  | snapshot _ _ ih =>
    obtain ⟨p, base, log, ih, hp⟩ := ih
    obtain ⟨base', log', h'⟩ := ih.rotated (halfRotated_interrupted _ le_rfl)
    exact ⟨p, base', log', h', hp⟩
  | snapshotFails _ _ ih =>
    obtain ⟨p, base, log, ih, hp⟩ := ih
    obtain ⟨base', log', h'⟩ := ih.rotated (halfRotated_failing _ _ _)
    exact ⟨p, base', log', h', hp⟩
  | crash _ hcrash hopen ih =>
    obtain ⟨p, base, log, ih, hp⟩ := ih
    obtain ⟨base', log', d₁, h', hholding⟩ := ih.crash hcrash
    exact ⟨p, base', log', h'.opened hholding hopen, hp⟩

/-- The parameters are those of the configuration. -/
theorem DurableIndex.Lifetime.mkParams_eq {cfg : Config} {answers : List Answer} {d : DurableIndex}
    (h : Lifetime cfg answers d) :
    Hnsw.mkParams cfg.space cfg.dim cfg.maxElements cfg.M cfg.efConstruction = .ok d.idx.params := by
  obtain ⟨p, base, log, hfaithful, hp⟩ := h.faithful
  rwa [hfaithful.serving.params]

/-- Two handles of one configuration have the same parameters. -/
theorem DurableIndex.Lifetime.params_eq {cfg : Config} {answers answers' : List Answer}
    {d d' : DurableIndex} (h : Lifetime cfg answers d) (h' : Lifetime cfg answers' d') :
    d.idx.params = d'.idx.params := Except.ok.inj (h.mkParams_eq.symm.trans h'.mkParams_eq)

/-- **What was acknowledged is kept for good**: over any number of calls, snapshots, failing
snapshots, crashes and restarts the index has the entries that the acknowledged calls make, but for
a tombstone on a key of which a deletion was refused before the key was there. -/
theorem DurableIndex.Lifetime.keeps_promises {cfg : Config} {answers : List Answer}
    {d : DurableIndex} (h : Lifetime cfg answers d) (k : Label) :
    Buried (promised d.idx.params answers k) (d.idx.store.keyMap k) ∧
      (¬ RefusedEarly d.idx.params answers k →
        d.idx.store.keyMap k = promised d.idx.params answers k) := by
  obtain ⟨p, base, log, hfaithful, -⟩ := h.faithful
  rw [hfaithful.serving.params]
  exact ⟨(hfaithful.follows k).expected, fun hearly => ((hfaithful.follows k).exact hearly).1⟩

/-- **Every crash can be recovered from** while no `Add` has found the index full: `Open` succeeds on
what the crash leaves, and the index has what was promised. -/
theorem DurableIndex.Lifetime.reopens {cfg : Config} {answers : List Answer} {d : DurableIndex}
    (h : Lifetime cfg answers d) (hroomy : NoneFull answers) {dir : Dir} (hcrash : d.Crash dir) :
    ∃ d', openIndex cfg dir = .ok d' ∧ d'.idx.params = d.idx.params ∧ ∀ k,
      Buried (promised d.idx.params answers k) (d'.idx.store.keyMap k) ∧
      (¬ RefusedEarly d.idx.params answers k →
        d'.idx.store.keyMap k = promised d.idx.params answers k) := by
  obtain ⟨p, base, log, hfaithful, -⟩ := h.faithful
  obtain ⟨base', log', d₁, h', hholding⟩ := hfaithful.crash hcrash
  obtain ⟨d', hopen⟩ := h'.opens hroomy hholding
  have hopened := h'.opened hholding hopen
  rw [hfaithful.serving.params]
  exact ⟨d', hopen, hopened.serving.params, fun k => ⟨(hopened.follows k).expected,
    fun hearly => ((hopened.follows k).exact hearly).1⟩⟩

end

open Hnsw.StandIn in
/-- A small index after an `Add`. -/
theorem lifetime_add : DurableIndex.Lifetime smallConfig [(.add [5] ⟨1, 1⟩, .ok ())]
    ((DurableIndex.fresh smallParams 0).perform (.add [5] ⟨1, 1⟩) .done).1 := by
  have hok : ((DurableIndex.fresh smallParams 0).perform (.add [5] ⟨1, 1⟩) .done).2 = .ok () := by
    decide +kernel
  have hsound : (Call.add [5] ⟨1, 1⟩).Sound (DurableIndex.fresh smallParams 0).idx := by
    refine ⟨?_, Or.inl (by decide), fun _ => Or.inr (by decide)⟩
    rintro vec key ⟨⟩
    rfl
  have hopened : DurableIndex.Lifetime smallConfig [] (DurableIndex.fresh smallParams 0) :=
    .opened rfl
  have hcall := hopened.call hsound
  rwa [hok] at hcall

open Hnsw.StandIn in
/-- An `Add`, a `Snapshot` that cannot rename the new log into place, and a restart. -/
theorem keeps_promises_restart :
    let d := ((DurableIndex.fresh smallParams 0).perform (.add [5] ⟨1, 1⟩) .done).1
    ∃ d', openIndex smallConfig (d.snapshotFailing .renameWAL none).dir = .ok d' ∧
      d'.idx.store.keyMap ⟨1, 1⟩ = some ([5], false) := by
  intro d
  have hfailed : DurableIndex.Lifetime smallConfig [(.add [5] ⟨1, 1⟩, .ok ())]
      (d.snapshotFailing .renameWAL none) := .snapshotFails lifetime_add (Or.inl rfl)
  have hcrash : (d.snapshotFailing .renameWAL none).Crash (d.snapshotFailing .renameWAL none).dir :=
    .inSnapshot (j := 0) (Nat.zero_le _) (Or.inr (Nat.zero_le _))
  have hopen : ∃ d', openIndex smallConfig (d.snapshotFailing .renameWAL none).dir = .ok d' := by
    have hbool : (openIndex smallConfig (d.snapshotFailing .renameWAL none).dir).toBool = true := by
      decide +kernel
    cases hres : openIndex smallConfig (d.snapshotFailing .renameWAL none).dir with
    | error e =>
      rw [hres] at hbool
      cases hbool
    | ok d' => exact ⟨d', rfl⟩
  obtain ⟨d', hopen⟩ := hopen
  have h := hfailed.crash hcrash hopen
  have hparams : smallParams = d'.idx.params := Except.ok.inj h.mkParams_eq
  have hkeeps := (h.keeps_promises ⟨1, 1⟩).2
  rw [← hparams] at hkeeps
  refine ⟨d', hopen, hkeeps ?_⟩
  rintro ⟨before, after, heq, -⟩
  have hmem : (Call.markDeleted ⟨1, 1⟩, Except.error (WriteError.index .notFound)) ∈
      [(Call.add [5] ⟨1, 1⟩, (Except.ok () : Except WriteError Unit))] := by
    rw [heq]
    exact List.mem_append_right _ List.mem_cons_self
  cases List.mem_singleton.mp hmem

open Hnsw.StandIn in
/-- The same, with the process dying in the middle of another append. -/
theorem reopens_torn :
    let d := ((DurableIndex.fresh smallParams 0).perform (.add [5] ⟨1, 1⟩) .done).1
    ∃ d', openIndex smallConfig (d.perform (.markDeleted ⟨1, 1⟩) (.writeFails 3)).1.dir = .ok d' ∧
      Buried (some ([5], false)) (d'.idx.store.keyMap ⟨1, 1⟩) := by
  intro d
  have hroomy : NoneFull [(Call.add [5] ⟨1, 1⟩, .ok ())] := by
    intro a ha
    rw [List.mem_singleton.mp ha]
    nofun
  have hcrash : d.Crash (d.perform (.markDeleted ⟨1, 1⟩) (.writeFails 3)).1.dir :=
    .inAppend ⟨nofun, Or.inr rfl, nofun⟩ (by decide)
  obtain ⟨d', hopen, -, hk⟩ := lifetime_add.reopens hroomy hcrash
  exact ⟨d', hopen, (hk ⟨1, 1⟩).1⟩

end VectorSearch.Durable
