import VectorSearch.Hnsw.FailedOps
import VectorSearch.Durable.LogOrder

/-! # Writes that fail and come back

An `Append` may return an error although its whole record is in the file: the fsync failed.  The
index has not performed the call, and the caller may try again, with another vector or another
operation.  A run is a list of calls, each with the outcome of its fsync, and of snapshots.

Replay does not tell such records from the others.  `Tried` says what index, log and snapshot hold:
the index has performed the synced calls (`performedCalls`), the log has all calls since the last
snapshot.  `ackedKept_iff` says when what was acknowledged after the last failure of its key comes
back. -/

open ByteCodec

namespace VectorSearch.Durable

open Wal (Record Holds applyAll AppendIO)
open Hnsw (Label Index Platform Params Store KeyOp KeyMap Err)

/-- A call, of which the fsync may fail when the record is in the file, or a `Snapshot`. -/
inductive Move where
  | call (c : Call) (synced : Bool)
  | snapshot
deriving DecidableEq, Repr

/-- The outcome of the file operations of a call. -/
def ioOf (synced : Bool) : AppendIO := if synced then .done else .syncFails

/-- The calls up to the last `Snapshot` and those since. -/
def splitMove (s : List (Call × Bool) × List (Call × Bool)) :
    Move → List (Call × Bool) × List (Call × Bool)
  | .call c synced => (s.1, s.2 ++ [(c, synced)])
  | .snapshot => (s.1 ++ s.2, [])

def splitMoves (ms : List Move) : List (Call × Bool) × List (Call × Bool) :=
  ms.foldl splitMove ([], [])

/-- All calls. -/
def callsOf (ms : List Move) : List (Call × Bool) := (splitMoves ms).1 ++ (splitMoves ms).2

/-- The calls that the index has performed. -/
def performedCalls (ts : List (Call × Bool)) : List Call := (ts.filter Prod.snd).map Prod.fst

/-- The keys of the last snapshot. -/
def snapshotKeys (ms : List Move) : Finset Label := addedKeys (performedCalls (splitMoves ms).1)

/-- These and the keys of the log. -/
def recoverableKeys (ms : List Move) : Finset Label :=
  addedKeys ((splitMoves ms).2.map Prod.fst) ∪ snapshotKeys ms

/-- The reader takes the `Add` records of the log, if there are any. -/
def Readable (dim : ℕ) (ts : List (Call × Bool)) : Prop :=
  Fits dim ∨ ∀ t ∈ ts, t.1.isAdd = false

theorem Readable.of_append {dim : ℕ} {ts ts' : List (Call × Bool)}
    (h : Readable dim (ts ++ ts')) : Readable dim ts :=
  h.imp_right fun hall t ht => hall t (List.mem_append_left _ ht)

theorem Readable.of_concat {dim : ℕ} {ts : List (Call × Bool)} {c : Call} {synced : Bool}
    (h : Readable dim (ts ++ [(c, synced)])) : Fits dim ∨ c.isAdd = false :=
  h.imp_right fun hall => hall _ (List.mem_append_right _ (List.mem_singleton_self _))

section
variable [Platform UInt32]

namespace DurableIndex

def move (d : DurableIndex) : Move → DurableIndex
  | .call c synced => (d.perform c (ioOf synced)).1
  | .snapshot => d.snapshot.1

/-- The handle after a run. -/
def moves (d : DurableIndex) (ms : List Move) : DurableIndex := ms.foldl move d

/-- The calls that have returned nil. -/
def acknowledged : DurableIndex → List Move → List Call
  | _, [] => []
  | d, .call c synced :: ms =>
      match (d.perform c (ioOf synced)).2 with
      | .ok _ => c :: acknowledged (d.move (.call c synced)) ms
      | .error _ => acknowledged (d.move (.call c synced)) ms
  | d, .snapshot :: ms => acknowledged (d.move .snapshot) ms

end DurableIndex

/-- A call on the key returned nil, and none on it has failed since. -/
def AckedLast (d : DurableIndex) (ms : List Move) (k : Label) : Prop :=
  ∃ pre c post, ms = pre ++ .call c true :: post ∧ c.key = k ∧
    ((d.moves pre).perform c .done).2 = .ok () ∧ ∀ c', .call c' false ∈ post → c'.key ≠ k

/-- After a crash `Open` succeeds, and every key with an acknowledged call after its last failed one
has the entry that the acknowledged calls have given it. -/
def AckedKept (cfg : Config) (d : DurableIndex) (ms : List Move) : Prop :=
  ∃ d', openIndex cfg (d.moves ms).dir = .ok d' ∧ ∀ k, AckedLast d ms k →
    d'.idx.store.keyMap k =
      KeyMap.run (fun _ => none) ((d.acknowledged ms).map (Call.op d.idx.params)) k

/-- The operations on a key, with the outcome of their fsync. -/
def triesOn (p : Params) (k : Label) (ts : List (Call × Bool)) : List (KeyOp UInt32 × Bool) :=
  (ts.filter fun t => t.1.key = k).map fun t => ((t.1.op p).2, t.2)

/-! ### The invariant -/

structure Tried (cfg : Config) (p : Params) (before since : List (Call × Bool)) (d : DurableIndex) :
    Prop where
  walOpen : d.walOpen = true
  walNew : d.dir.walNew = none
  params : d.idx.params = p
  good : d.idx.store.Good p
  keyMap : d.idx.store.keyMap =
    KeyMap.run (fun _ => none) ((performedCalls (before ++ since)).map (Call.op p))
  keys : d.idx.store.keys = addedKeys (performedCalls (before ++ since))
  wal : ∃ f, d.dir.wal = some f ∧
    (Readable p.dim since → Holds f.bytes ((since.map Prod.fst).map Call.record))
  base : ∃ base, loadOrCreateIndex cfg d.dir = .ok base ∧ base.params = p ∧ base.store.Good p ∧
    base.store.keyMap = KeyMap.run (fun _ => none) ((performedCalls before).map (Call.op p)) ∧
    base.store.keys = addedKeys (performedCalls before)

omit [Platform UInt32] in
theorem performedCalls_append (ts ts' : List (Call × Bool)) :
    performedCalls (ts ++ ts') = performedCalls ts ++ performedCalls ts' := by
  rw [performedCalls, List.filter_append, List.map_append]
  rfl

section
variable {cfg : Config} {p : Params} {before since : List (Call × Bool)} {d : DurableIndex}

theorem tried_fresh
    (hp : Hnsw.mkParams cfg.space cfg.dim cfg.maxElements cfg.M cfg.efConstruction = .ok p) :
    Tried cfg p [] [] (DurableIndex.fresh p cfg.seed) where
  walOpen := rfl
  walNew := rfl
  params := rfl
  good := Store.Good.empty p
  keyMap := rfl
  keys := rfl
  wal := ⟨Wal.newLog, rfl, fun _ => Wal.holds_newLog⟩
  base := ⟨Index.new p cfg.seed, loadOrCreateIndex_empty hp rfl, rfl, Store.Good.empty p, rfl, rfl⟩

/-- A call that the index has room for. -/
structure Tolerable (p : Params) (s : Store UInt32) (c : Call) : Prop where
  sized : c.Sized p.dim
  room : c.isAdd = true → s.hasLabel c.key = true ∨ s.count < p.room

omit [Platform UInt32] in
theorem markDeleted_result (s : Store UInt32) (k : Label) :
    (s.markDeleted k).2 = KeyOp.accepted (s.keyMap k) .mark := by
  cases hi : s.labelToId k with
  | none => rw [Store.markDeleted_none hi, Store.keyMap, hi]; rfl
  | some i =>
      rw [Store.markDeleted_some hi, Store.keyMap_of_id hi]
      cases s.deleted i <;> rfl

omit [Platform UInt32] in
theorem unmarkDeleted_result (s : Store UInt32) (k : Label) :
    (s.unmarkDeleted k).2 = KeyOp.accepted (s.keyMap k) .unmark := by
  cases hi : s.labelToId k with
  | none => rw [Store.unmarkDeleted_none hi, Store.keyMap, hi]; rfl
  | some i =>
      rw [Store.unmarkDeleted_some hi, Store.keyMap_of_id hi]
      cases s.deleted i <;> rfl

omit [Platform UInt32] in
theorem result_ok_iff {b : Bool} :
    (if b then (.ok () : Except Err Unit) else .error .notFound) = .ok () ↔ b = true := by
  cases b <;> simp

/-- What a call returns. -/
theorem result_iff {idx : Index UInt32} {c : Call} (hc : Tolerable idx.params idx.store c) :
    (c.onIndex idx).2 = .ok () ↔
      KeyOp.accepted (idx.store.keyMap c.key) (c.op idx.params).2 = true := by
  rw [(onIndex_eq hc.sized).2.2]
  cases c with
  | add vec key =>
      have hsome := Store.isSome_keyMap idx.store key
      cases hk : idx.store.hasLabel key with
      | true =>
          rw [hk, Option.isSome_iff_exists] at hsome
          obtain ⟨e, he⟩ := hsome
          rw [Call.onStore, Store.add_of_hasLabel idx.params vec hk]
          simp only [Call.key, Call.op, he]
          exact iff_of_false (by rintro ⟨⟩) (by cases e; simp [KeyOp.accepted])
      | false =>
          rw [hk, Option.isSome_eq_false_iff, Option.isNone_iff_eq_none] at hsome
          have hroom : idx.store.count < idx.params.room :=
            (hc.room rfl).resolve_left (by rw [Call.key, hk]; exact Bool.false_ne_true)
          rw [Call.onStore, Store.add_of_room vec hk hroom]
          simp only [Call.key, Call.op, hsome]
          exact iff_of_true trivial rfl
  | markDeleted key =>
      simp only [Call.onStore, Call.key, Call.op, result_ok_iff, markDeleted_result]
  | unmarkDeleted key =>
      simp only [Call.onStore, Call.key, Call.op, result_ok_iff, unmarkDeleted_result]

omit [Platform UInt32] in
/-- The log that a record has been written to. -/
theorem holds_concat {f : DurableFile} {c : Call} {synced : Bool} (hsized : c.Sized p.dim)
    (hholds : Readable p.dim since → Holds f.bytes ((since.map Prod.fst).map Call.record))
    (hread : Readable p.dim (since ++ [(c, synced)])) :
    Holds (f.bytes ++ Wal.frame (Wal.payload c.record))
      (((since ++ [(c, synced)]).map Prod.fst).map Call.record) := by
  rw [List.map_append, List.map_append]
  exact (hholds hread.of_append).append (loggable_record p.dim_pos hsized hread.of_concat)

/-- A synced call. -/
theorem Tried.performed (h : Tried cfg p before since d) {c : Call}
    (hc : Tolerable p d.idx.store c) :
    Tried cfg p before (since ++ [(c, true)]) (d.perform c .done).1 ∧
      ((d.perform c .done).2 = .ok () ↔
        KeyOp.accepted (d.idx.store.keyMap c.key) (c.op p).2 = true) := by
  obtain ⟨f, hwal, hholds⟩ := h.wal
  have henc : Wal.encode c.record = .ok (Wal.frame (Wal.payload c.record)) :=
    (Wal.encode_eq_ok_iff _ _).mpr ⟨rule_record p.dim_pos hc.sized, rfl⟩
  have hc' : Tolerable d.idx.params d.idx.store c := by rwa [h.params]
  obtain ⟨hparams, hgood, hmap, hkeys⟩ := onIndex_good (by rw [h.params]; exact h.good) hc'.sized
    hc'.room
  have hres := result_iff hc'
  rw [h.params] at hparams hgood hmap hres
  rw [perform_done h.walOpen hwal henc, Wal.append_done henc]
  refine ⟨⟨rfl, h.walNew, hparams, hgood, ?_, ?_, ⟨_, rfl, ?_⟩, ?_⟩, ?_⟩
  · rw [← List.append_assoc, performedCalls_append, List.map_append, hmap, h.keyMap]
    exact (KeyedLog.run_concat _ _ _).symm
  · rw [← List.append_assoc, performedCalls_append, addedKeys_append, hkeys, h.keys,
      Finset.union_comm]
    show _ = _ ∪ addedKeys [c]
    rw [addedKeys_cons, addedKeys_nil, Finset.union_empty]
  · exact holds_concat hc.sized hholds
  · exact h.base
  · rw [← hres]
    cases (c.onIndex d.idx).2 <;> simp

/-- A call of which the fsync fails. -/
theorem Tried.failed (h : Tried cfg p before since d) {c : Call}
    (hsized : c.Sized p.dim) :
    Tried cfg p before (since ++ [(c, false)]) (d.perform c .syncFails).1 ∧
      (d.perform c .syncFails).2 = .error (.walAppend .fsync) := by
  obtain ⟨f, hwal, hholds⟩ := h.wal
  have henc : Wal.encode c.record = .ok (Wal.frame (Wal.payload c.record)) :=
    (Wal.encode_eq_ok_iff _ _).mpr ⟨rule_record p.dim_pos hsized, rfl⟩
  have hperform : d.perform c .syncFails = ({ d with
      dir := { d.dir with wal := some (f.write (Wal.frame (Wal.payload c.record))) } },
        .error (.walAppend .fsync)) := by
    simp only [DurableIndex.perform, DurableIndex.appendWAL, h.walOpen, hwal, Wal.append, henc]
  have hsame : performedCalls (before ++ (since ++ [(c, false)])) =
      performedCalls (before ++ since) := by
    rw [← List.append_assoc, performedCalls_append]
    exact List.append_nil _
  rw [hperform]
  refine ⟨⟨h.walOpen, h.walNew, h.params, h.good, ?_, ?_, ⟨_, rfl, ?_⟩, h.base⟩, rfl⟩
  · rw [hsame]
    exact h.keyMap
  · rw [hsame]
    exact h.keys
  · exact holds_concat hsized hholds

theorem Tried.snapshot (h : Tried cfg p before since d) :
    Tried cfg p (before ++ since) [] d.snapshot.1 := by
  have hgood : d.idx.store.Good d.idx.params := by
    rw [h.params]
    exact h.good
  obtain ⟨hgood', hmap, hkeys⟩ := Hnsw.reloaded_store hgood
  rw [snapshot_eq h.walNew]
  refine ⟨rfl, rfl, h.params, h.good, ?_, ?_, ⟨_, rfl, fun _ => Wal.holds_newLog⟩, d.idx.reloaded,
    loadOrCreateIndex_saved hgood rfl rfl, h.params, ?_, ?_, ?_⟩
  · rw [List.append_nil]
    exact h.keyMap
  · rw [List.append_nil]
    exact h.keys
  · rw [← h.params]
    exact hgood'
  · rw [hmap, h.keyMap]
  · rw [hkeys, h.keys]

/-! ### Runs -/

omit [Platform UInt32] in
theorem splitMoves_concat (ms : List Move) (m : Move) :
    splitMoves (ms ++ [m]) = splitMove (splitMoves ms) m := by
  rw [splitMoves, List.foldl_append]
  rfl

omit [Platform UInt32] in
theorem callsOf_call (ms : List Move) (c : Call) (synced : Bool) :
    callsOf (ms ++ [.call c synced]) = callsOf ms ++ [(c, synced)] := by
  rw [callsOf, splitMoves_concat]
  exact (List.append_assoc _ _ _).symm

omit [Platform UInt32] in
theorem callsOf_snapshot (ms : List Move) : callsOf (ms ++ [.snapshot]) = callsOf ms := by
  rw [callsOf, splitMoves_concat]
  exact List.append_nil _

omit [Platform UInt32] in
theorem callsOf_prefix_append (ms ms' : List Move) : callsOf ms <+: callsOf (ms ++ ms') := by
  induction ms' using List.reverseRecOn with
  | nil => rw [List.append_nil]
  | append_singleton ms' m ih =>
      rw [← List.append_assoc]
      cases m with
      | snapshot =>
          rw [callsOf_snapshot]
          exact ih
      | call c synced =>
          rw [callsOf_call]
          exact ih.trans (List.prefix_append _ _)

theorem moves_concat (d : DurableIndex) (ms : List Move) (m : Move) :
    d.moves (ms ++ [m]) = (d.moves ms).move m := by
  rw [DurableIndex.moves, List.foldl_append]
  rfl

theorem acknowledged_append : ∀ (ms ms' : List Move) (d : DurableIndex),
    d.acknowledged (ms ++ ms') = d.acknowledged ms ++ (d.moves ms).acknowledged ms'
  | [], _, _ => rfl
  | .call c synced :: ms, ms', d => by
      have ih := acknowledged_append ms ms' (d.move (.call c synced))
      rw [List.cons_append, DurableIndex.acknowledged, DurableIndex.acknowledged, ih]
      cases (d.perform c (ioOf synced)).2 <;> rfl
  | .snapshot :: ms, ms', d => acknowledged_append ms ms' (d.move .snapshot)

/-- A run in which no `Add` finds the index full. -/
structure Roomy (p : Params) (ms : List Move) : Prop where
  sized : ∀ t ∈ callsOf ms, t.1.Sized p.dim
  room : (addedKeys (performedCalls (callsOf ms))).card ≤ p.room

omit [Platform UInt32] in
theorem Roomy.of_append {ms ms' : List Move} (h : Roomy p (ms ++ ms')) : Roomy p ms := by
  obtain ⟨rest, hrest⟩ := callsOf_prefix_append ms ms'
  obtain ⟨hsized, hroom⟩ := h
  rw [← hrest] at hsized hroom
  refine ⟨fun t ht => hsized t (List.mem_append_left _ ht), le_trans ?_ hroom⟩
  rw [performedCalls_append, addedKeys_append]
  exact Finset.card_le_card Finset.subset_union_left

/-- The next call of a run finds room. -/
theorem Roomy.tolerable {ms : List Move} {c : Call} (h : Roomy p (ms ++ [.call c true]))
    (htried : Tried cfg p (splitMoves ms).1 (splitMoves ms).2 d) :
    Tolerable p d.idx.store c := by
  obtain ⟨hsized, hroom⟩ := h
  rw [callsOf_call] at hsized hroom
  have hmem : (c, true) ∈ callsOf ms ++ [(c, true)] :=
    List.mem_append_right _ (List.mem_singleton_self _)
  refine ⟨hsized _ hmem, fun hadd => ?_⟩
  rw [performedCalls_append, addedKeys_append, callsOf, ← htried.keys] at hroom
  refine htried.good.has_or_room Finset.subset_union_left hroom (Finset.mem_union_right _ ?_)
  show c.key ∈ addedKeys [c]
  rw [addedKeys_cons, Call.added, if_pos hadd]
  simp

/-- What a synced call changes in the key map. -/
theorem Tried.keyMap_performed {c : Call} {d' : DurableIndex} (h : Tried cfg p before since d)
    (h' : Tried cfg p before (since ++ [(c, true)]) d') :
    d'.idx.store.keyMap = d.idx.store.keyMap.apply (c.op p) := by
  rw [h'.keyMap, h.keyMap, ← List.append_assoc, performedCalls_append, List.map_append]
  exact KeyedLog.run_concat _ _ _

/-- **The invariant holds in every run**, and the index holds what has been acknowledged. -/
theorem tried_moves
    (hp : Hnsw.mkParams cfg.space cfg.dim cfg.maxElements cfg.M cfg.efConstruction = .ok p)
    {ms : List Move} (h : Roomy p ms) :
    Tried cfg p (splitMoves ms).1 (splitMoves ms).2 ((DurableIndex.fresh p cfg.seed).moves ms) ∧
      KeyMap.run (fun _ => none)
          (((DurableIndex.fresh p cfg.seed).acknowledged ms).map (Call.op p)) =
        ((DurableIndex.fresh p cfg.seed).moves ms).idx.store.keyMap := by
  induction ms using List.reverseRecOn with
  | nil => exact ⟨tried_fresh hp, rfl⟩
  | append_singleton ms m ih =>
      rw [splitMoves_concat, moves_concat, acknowledged_append, List.map_append]
      cases m with
      | snapshot =>
          obtain ⟨htried, hacked⟩ := ih h.of_append
          refine ⟨htried.snapshot, ?_⟩
          rw [DurableIndex.move, snapshot_eq htried.walNew, ← hacked]
          exact congrArg _ (List.append_nil _)
      | call c synced =>
          obtain ⟨htried, hacked⟩ := ih h.of_append
          set d := (DurableIndex.fresh p cfg.seed).moves ms
          cases synced with
          | false =>
              obtain ⟨hsized, -⟩ := h
              rw [callsOf_call] at hsized
              obtain ⟨hnext, hres⟩ := htried.failed
                (hsized (c, false) (List.mem_append_right _ (List.mem_singleton_self _)))
              have hnone : d.acknowledged [.call c false] = [] := by
                simp only [DurableIndex.acknowledged, ioOf, Bool.false_eq_true, if_false, hres]
              refine ⟨hnext, ?_⟩
              rw [hnone, List.map_nil, List.append_nil, hacked, htried.keyMap]
              refine (Eq.trans hnext.keyMap ?_).symm
              rw [← List.append_assoc, performedCalls_append]
              exact congrArg _ (congrArg _ (List.append_nil _))
          | true =>
              obtain ⟨hnext, hres⟩ := htried.performed (h.tolerable htried)
              refine ⟨hnext, ?_⟩
              have hmap := htried.keyMap_performed hnext
              cases hacc : KeyOp.accepted (d.idx.store.keyMap c.key) (c.op p).2 with
              | true =>
                  have hone : d.acknowledged [.call c true] = [c] := by
                    simp only [DurableIndex.acknowledged, ioOf, if_true, hres.mpr hacc]
                  refine Eq.trans ?_ hmap.symm
                  rw [hone, ← hacked]
                  exact KeyedLog.run_concat _ _ _
              | false =>
                  have hnone : d.acknowledged [.call c true] = [] := by
                    cases hr : (d.perform c .done).2 with
                    | ok u =>
                        rw [hres.mp hr] at hacc
                        cases hacc
                    | error e =>
                        simp only [DurableIndex.acknowledged, ioOf, if_true, hr]
                  refine Eq.trans ?_ hmap.symm
                  rw [hnone, List.map_nil, List.append_nil, hacked]
                  exact (KeyMap.apply_of_cell_eq (KeyOp.cell_of_not_accepted hacc)).symm

/-! ### One key -/

theorem triesOn_append (p : Params) (k : Label) (ts ts' : List (Call × Bool)) :
    triesOn p k (ts ++ ts') = triesOn p k ts ++ triesOn p k ts' := by
  rw [triesOn, List.filter_append, List.map_append]
  rfl

theorem triesOn_same (p : Params) {c : Call} {k : Label} (h : c.key = k) (b : Bool) :
    triesOn p k [(c, b)] = [((c.op p).2, b)] := by
  rw [triesOn, List.filter_cons_of_pos (by simpa using h)]
  rfl

theorem triesOn_ne (p : Params) {c : Call} {k : Label} (h : c.key ≠ k) (b : Bool) :
    triesOn p k [(c, b)] = [] := by
  rw [triesOn, List.filter_cons_of_neg (by simpa using h)]
  rfl

theorem opsOn_all (p : Params) (k : Label) (ts : List (Call × Bool)) :
    KeyMap.opsOn k ((ts.map Prod.fst).map (Call.op p)) = (triesOn p k ts).map Prod.fst := by
  rw [KeyMap.opsOn, KeyedLog.on, List.map_map, List.filter_map, List.map_map, triesOn, List.map_map]
  rfl

theorem opsOn_performed (p : Params) (k : Label) (ts : List (Call × Bool)) :
    KeyMap.opsOn k ((performedCalls ts).map (Call.op p)) = KeyOp.performed (triesOn p k ts) := by
  rw [performedCalls, opsOn_all, triesOn, triesOn, KeyOp.performed, List.filter_map,
    List.filter_comm]
  rfl

/-- A key that has been acknowledged last has been settled since the last snapshot, or no call on it
has failed since. -/
theorem settled_of_ackedLast
    (hp : Hnsw.mkParams cfg.space cfg.dim cfg.maxElements cfg.M cfg.efConstruction = .ok p)
    {ms : List Move} (h : Roomy p ms) {k : Label}
    (hk : AckedLast (DurableIndex.fresh p cfg.seed) ms k) :
    (∀ t ∈ triesOn p k (splitMoves ms).2, t.2 = true) ∨
      KeyOp.Settled (KeyMap.run (fun _ => none)
        ((performedCalls (splitMoves ms).1).map (Call.op p)) k) (triesOn p k (splitMoves ms).2) := by
  obtain ⟨pre, c, post, rfl, hkey, hres, hpost⟩ := hk
  induction post using List.reverseRecOn with
  | nil =>
      right
      obtain ⟨htried, -⟩ := tried_moves hp h.of_append
      have hacc := (htried.performed (h.tolerable htried)).2.mp hres
      rw [htried.keyMap, performedCalls_append, List.map_append] at hacc
      rw [splitMoves_concat, splitMove, triesOn_append, triesOn_same p hkey]
      refine ⟨_, _, [], rfl, nofun, ?_⟩
      rw [← opsOn_performed, ← KeyMap.run_at, ← hkey]
      have hrun : ∀ os os' : List (Label × KeyOp UInt32),
          KeyMap.run (fun _ => none) (os ++ os') = (KeyMap.run (fun _ => none) os).run os' :=
        fun os os' => KeyedLog.run_append _ _ _
      rwa [hrun] at hacc
  | append_singleton post m ih =>
      have hassoc : pre ++ .call c true :: (post ++ [m]) = (pre ++ .call c true :: post) ++ [m] := by
        simp
      have hpost' : ∀ c', .call c' false ∈ post → c'.key ≠ k := fun c' hc' =>
        hpost c' (List.mem_append_left _ hc')
      rw [hassoc] at h ⊢
      rw [splitMoves_concat]
      cases m with
      | snapshot => exact Or.inl nofun
      | call c' synced =>
          have hlater := ih h.of_append hpost'
          rw [splitMove, triesOn_append]
          by_cases hk : c'.key = k
          · cases synced with
            | false => exact absurd hk (hpost c' (by simp))
            | true =>
                rw [triesOn_same p hk]
                refine hlater.imp (fun hall t ht => ?_) fun hs => hs.concat _
                obtain ht | ht := List.mem_append.mp ht
                · exact hall t ht
                · rw [List.mem_singleton.mp ht]
          · rw [triesOn_ne p hk, List.append_nil]
            exact hlater

omit [Platform UInt32] in
theorem addedKeys_performed_subset (ts : List (Call × Bool)) :
    addedKeys (performedCalls ts) ⊆ addedKeys (ts.map Prod.fst) := by
  intro k hk
  obtain ⟨c, hc, rfl⟩ := List.mem_map.mp (List.mem_toFinset.mp hk)
  obtain ⟨hmem, hadd⟩ := List.mem_filter.mp hc
  obtain ⟨t, ht, rfl⟩ := List.mem_map.mp hmem
  exact List.mem_toFinset.mpr (List.mem_map_of_mem (List.mem_filter.mpr
    ⟨List.mem_map_of_mem (List.mem_filter.mp ht).1, hadd⟩))

/-! ### Recovery -/

/-- What `Open` makes of the files, when it can read the log and the keys of log and snapshot fit. -/
theorem Tried.opens (h : Tried cfg p before since d)
    (hsized : ∀ t ∈ since, t.1.Sized p.dim) (hread : Readable p.dim since)
    (hroom : (addedKeys (since.map Prod.fst) ∪ addedKeys (performedCalls before)).card ≤ p.room) :
    ∃ d', openIndex cfg d.dir = .ok d' ∧ ∀ k, d'.idx.store.keyMap k =
      ((triesOn p k since).map Prod.fst).foldl KeyOp.cell
        (KeyMap.run (fun _ => none) ((performedCalls before).map (Call.op p)) k) := by
  obtain ⟨base, hload, hparams, hgood, hmap, hkeys⟩ := h.base
  obtain ⟨f, hwal, hholds⟩ := h.wal
  obtain ⟨idx, happ, -, -, hmap', -⟩ := applyAll_record base (by rw [hparams]; exact hgood)
    (fun c hc => by
      obtain ⟨t, ht, rfl⟩ := List.mem_map.mp hc
      rw [hparams]
      exact hsized t ht)
    (by rw [hparams, hkeys]; exact hroom)
  refine ⟨_, openIndex_of_holds hload hwal (List.append_nil _).symm (hholds hread)
    Wal.readRecord_nil happ, fun k => ?_⟩
  rw [hmap', hparams, hmap, KeyMap.run_at, opsOn_all]

/-- An `Open` that succeeds has found room for the keys of log and snapshot. -/
theorem Tried.card_le (h : Tried cfg p before since d) (hsized : ∀ t ∈ since, t.1.Sized p.dim)
    (hread : Readable p.dim since) (hsmall : p.maxElements < 2 ^ 32) {d' : DurableIndex}
    (hopen : openIndex cfg d.dir = .ok d') :
    (addedKeys (since.map Prod.fst) ∪ addedKeys (performedCalls before)).card ≤ p.maxElements := by
  obtain ⟨base, hload, hparams, hgood, -, hkeys⟩ := h.base
  obtain ⟨f, hwal, hholds⟩ := h.wal
  obtain ⟨idx, rs, _, hload', happ, -, -, hrs, -⟩ := openIndex_wal hopen
  obtain rfl : idx = base := Except.ok.inj (hload'.symm.trans hload)
  rw [hrs f hwal, (hholds hread).records_drop] at happ
  have hle := card_le_of_applyAll (since.map Prod.fst)
    (fun c hc => by
      obtain ⟨t, ht, rfl⟩ := List.mem_map.mp hc
      rw [hparams]
      exact hsized t ht)
    ⟨fun k => hgood.mem_keys.symm, hgood.card_keys.symm⟩ (by rw [hparams]; exact hsmall)
    (by
      rw [hparams, hgood.card_keys]
      exact hgood.count_le.trans (min_le_left _ _)) happ
  rwa [hparams, hkeys] at hle

/-- An `Open` that cannot read the log finds the keys of the snapshot only. -/
theorem Tried.isSome_openIndex (h : Tried cfg p before since d) (hread : ¬ Readable p.dim since)
    {d' : DurableIndex} (hopen : openIndex cfg d.dir = .ok d') (k : Label) :
    (d'.idx.store.keyMap k).isSome = true ↔ k ∈ addedKeys (performedCalls before) := by
  obtain ⟨base, hload, hparams, hgood, -, hkeys⟩ := h.base
  have hfits : ¬ Fits base.params.dim := by
    rw [hparams]
    exact fun hfits => hread (Or.inl hfits)
  rw [Store.isSome_keyMap, hasLabel_openIndex hopen hload hfits k, ← hkeys, hgood.mem_keys]

/-- The keys that the performed calls have added are there. -/
theorem isSome_run_iff (h : Tried cfg p before since d) (k : Label) :
    (KeyMap.run (fun _ => none) ((performedCalls before).map (Call.op p)) k).isSome = true ↔
      k ∈ addedKeys (performedCalls before) := by
  obtain ⟨base, -, -, hgood, hmap, hkeys⟩ := h.base
  rw [← hmap, Store.isSome_keyMap, ← hkeys, hgood.mem_keys]

omit [Platform UInt32] in
/-- The keys of the index are in the log or the snapshot. -/
theorem performedKeys_subset (ms : List Move) :
    addedKeys (performedCalls (callsOf ms)) ⊆ recoverableKeys ms := by
  rw [callsOf, performedCalls_append, addedKeys_append, recoverableKeys, Finset.union_comm]
  exact Finset.union_subset_union (addedKeys_performed_subset _) (Finset.Subset.refl _)

/-- A key with an acknowledged call is there. -/
theorem mem_of_ackedLast
    (hp : Hnsw.mkParams cfg.space cfg.dim cfg.maxElements cfg.M cfg.efConstruction = .ok p)
    {ms : List Move} (h : Roomy p ms) {k : Label}
    (hk : AckedLast (DurableIndex.fresh p cfg.seed) ms k) :
    k ∈ addedKeys (performedCalls (callsOf ms)) := by
  obtain ⟨pre, c, post, rfl, rfl, hres, -⟩ := hk
  have hassoc : pre ++ .call c true :: post = (pre ++ [.call c true]) ++ post := by simp
  rw [hassoc] at h ⊢
  obtain ⟨rest, hrest⟩ := callsOf_prefix_append (pre ++ [.call c true]) post
  have h' : Roomy p (pre ++ [.call c true]) := h.of_append
  obtain ⟨htried, -⟩ := tried_moves hp h'.of_append
  obtain ⟨hnext, hacc⟩ := htried.performed (h'.tolerable htried)
  have hthere : c.key ∈ addedKeys (performedCalls (callsOf (pre ++ [.call c true]))) := by
    rw [callsOf_call, callsOf, List.append_assoc, ← hnext.keys, hnext.good.mem_keys,
      ← Store.isSome_keyMap, htried.keyMap_performed hnext]
    refine Eq.trans (congrArg Option.isSome (KeyMap.apply_same _ _ _)) ?_
    exact KeyOp.isSome_cell_of_accepted (hacc.mp hres)
  rw [← hrest, performedCalls_append, addedKeys_append]
  exact Finset.mem_union_left _ hthere

/-- What comes back of a key that has been acknowledged last, when `Open` reads all of the log. -/
theorem ackedKept_iff_of_readable
    (hp : Hnsw.mkParams cfg.space cfg.dim cfg.maxElements cfg.M cfg.efConstruction = .ok p)
    {ms : List Move} (h : Roomy p ms) (hread : Readable p.dim (splitMoves ms).2)
    (hle : (recoverableKeys ms).card ≤ p.room) :
    AckedKept cfg (DurableIndex.fresh p cfg.seed) ms ↔
      ∀ k, AckedLast (DurableIndex.fresh p cfg.seed) ms k → k ∈ snapshotKeys ms ∨
        ¬ KeyOp.Overridden (triesOn p k (splitMoves ms).2) := by
  obtain ⟨htried, hacked⟩ := tried_moves hp h
  obtain ⟨d', hopen', hmap⟩ := htried.opens
    (fun t ht => h.sized t (List.mem_append_right _ ht)) hread hle
  have hentry : ∀ k, KeyMap.run (fun _ => none)
      (((DurableIndex.fresh p cfg.seed).acknowledged ms).map (Call.op p)) k =
        (KeyOp.performed (triesOn p k (splitMoves ms).2)).foldl KeyOp.cell
          (KeyMap.run (fun _ => none) ((performedCalls (splitMoves ms).1).map (Call.op p)) k) := by
    intro k
    rw [hacked, htried.keyMap, performedCalls_append, List.map_append, ← opsOn_performed,
      ← KeyMap.run_at]
    exact congrFun (KeyedLog.run_append _ _ _) k
  have hkey : ∀ k, AckedLast (DurableIndex.fresh p cfg.seed) ms k →
      (d'.idx.store.keyMap k = KeyMap.run (fun _ => none)
          (((DurableIndex.fresh p cfg.seed).acknowledged ms).map (Call.op p)) k ↔
        k ∈ snapshotKeys ms ∨ ¬ KeyOp.Overridden (triesOn p k (splitMoves ms).2)) := fun k hk => by
    rw [hmap k, hentry k, snapshotKeys, ← isSome_run_iff htried k]
    exact KeyOp.replay_eq_iff (settled_of_ackedLast hp h hk)
  constructor
  · rintro ⟨d'', hopen'', hkept⟩ k hk
    obtain rfl : d'' = d' := Except.ok.inj (hopen''.symm.trans hopen')
    exact (hkey k hk).mp (hkept k hk)
  · intro hnot
    exact ⟨d', hopen', fun k hk => (hkey k hk).mpr (hnot k hk)⟩

end

/-- **What is acknowledged after the last failure of its key comes back exactly when the keys of log
and snapshot fit in the index, the failed ones included, the reader takes the `Add` records of the
log, and no failed `Add` is the first in the log to add such a key**, with another vector or a
tombstone that stays: in every run of calls and snapshots in which any fsync may fail, every vector
has the right dimension and no `Add` finds the index full.  Two kinds of runs are left open, in which
a key can come back by chance: there are more keys than ids, or the log has an `Add` that the reader
does not take and every acknowledged key is in the snapshot. -/
theorem ackedKept_iff {cfg : Config} {d : DurableIndex} (hopen : openIndex cfg Dir.empty = .ok d)
    {ms : List Move} (hsized : ∀ t ∈ callsOf ms, t.1.Sized cfg.dim)
    (hroom : (addedKeys (performedCalls (callsOf ms))).card ≤ cfg.maxElements) :
    (AckedKept cfg d ms ∧ (recoverableKeys ms).card ≤ 2 ^ 32 ∧
        (Readable cfg.dim (splitMoves ms).2 ∨ ∃ k, AckedLast d ms k ∧ k ∉ snapshotKeys ms)) ↔
      (recoverableKeys ms).card ≤ cfg.maxElements ∧ (recoverableKeys ms).card ≤ 2 ^ 32 ∧
        Readable cfg.dim (splitMoves ms).2 ∧
        ∀ k, AckedLast d ms k → k ∈ snapshotKeys ms ∨
          ¬ KeyOp.Overridden (triesOn d.idx.params k (splitMoves ms).2) := by
  obtain ⟨p, hp, rfl⟩ := openIndex_empty hopen
  obtain ⟨-, hdim, hmax, -⟩ := Hnsw.mkParams_ok hp
  rw [← hdim] at hsized ⊢
  rw [← hmax] at hroom ⊢
  have hfresh : (DurableIndex.fresh p cfg.seed).idx.params = p := rfl
  rw [hfresh]
  have hroomy : (recoverableKeys ms).card ≤ 2 ^ 32 → Roomy p ms := fun hids =>
    ⟨hsized, le_min hroom (le_trans (Finset.card_le_card (performedKeys_subset ms)) hids)⟩
  have hsince : ∀ t ∈ (splitMoves ms).2, t.1.Sized p.dim := fun t ht =>
    hsized t (List.mem_append_right _ ht)
  constructor
  · rintro ⟨hkept, hids, hdecided⟩
    obtain ⟨htried, -⟩ := tried_moves hp (hroomy hids)
    have hread : Readable p.dim (splitMoves ms).2 := by
      refine hdecided.elim id fun ⟨k, hk, hnew⟩ => by_contra fun hread => hnew ?_
      obtain ⟨d', hopen', hmap⟩ := hkept
      rw [snapshotKeys, ← htried.isSome_openIndex hread hopen' k, hmap k hk, hfresh,
        (tried_moves hp (hroomy hids)).2, Store.isSome_keyMap, ← htried.good.mem_keys, htried.keys]
      exact mem_of_ackedLast hp (hroomy hids) hk
    have hle : (recoverableKeys ms).card ≤ p.maxElements := by
      obtain hsmall | hbig := Nat.lt_or_ge p.maxElements (2 ^ 32)
      · obtain ⟨d', hopen', -⟩ := hkept
        exact htried.card_le hsince hread hsmall hopen'
      · exact hids.trans hbig
    exact ⟨hle, hids, hread, (ackedKept_iff_of_readable hp (hroomy hids) hread
      (le_min hle hids)).mp hkept⟩
  · rintro ⟨hle, hids, hread, hnot⟩
    exact ⟨(ackedKept_iff_of_readable hp (hroomy hids) hread (le_min hle hids)).mpr hnot, hids,
      Or.inl hread⟩

end

open Hnsw.StandIn in
/-- An `Add` fails, is repeated with the same vector, and is acknowledged. -/
theorem ackedKept_same_vector :
    AckedKept smallConfig (DurableIndex.fresh smallParams 0)
      [.call (.add [5] ⟨1, 1⟩) false, .call (.add [5] ⟨1, 1⟩) true] :=
  ((ackedKept_iff (d := DurableIndex.fresh smallParams 0) rfl (by
    intro t ht
    rcases List.mem_pair.mp ht with rfl | rfl <;> rintro vec key ⟨⟩ <;> rfl) (by decide)).mpr
    ⟨by decide, by decide, Or.inl (by unfold Fits; decide), by
      rintro k ⟨pre, c, post, hms, rfl, -⟩
      have hmem : Move.call c true ∈
          [Move.call (.add [5] ⟨1, 1⟩) false, .call (.add [5] ⟨1, 1⟩) true] := by
        rw [hms]
        simp
      obtain rfl : c = .add [5] ⟨1, 1⟩ := by simpa using hmem
      exact Or.inr (by decide +kernel)⟩).1

open Hnsw.StandIn in
/-- An `Add` fails, the caller tries again with another vector, and this time it is acknowledged:
after a crash the key has the vector of the failed call. -/
theorem failed_add_comes_back :
    ((DurableIndex.fresh smallParams 0).perform (.add [5] ⟨1, 1⟩) .syncFails).2 =
        .error (.walAppend .fsync) ∧
      AckedLast (DurableIndex.fresh smallParams 0)
        [.call (.add [5] ⟨1, 1⟩) false, .call (.add [6] ⟨1, 1⟩) true] ⟨1, 1⟩ ∧
      ¬ AckedKept smallConfig (DurableIndex.fresh smallParams 0)
        [.call (.add [5] ⟨1, 1⟩) false, .call (.add [6] ⟨1, 1⟩) true] := by
  have hlast : AckedLast (DurableIndex.fresh smallParams 0)
      [.call (.add [5] ⟨1, 1⟩) false, .call (.add [6] ⟨1, 1⟩) true] ⟨1, 1⟩ :=
    ⟨[.call (.add [5] ⟨1, 1⟩) false], .add [6] ⟨1, 1⟩, [], rfl, rfl, by decide +kernel, nofun⟩
  have hopen : ((openIndex smallConfig ((DurableIndex.fresh smallParams 0).moves
      [.call (.add [5] ⟨1, 1⟩) false, .call (.add [6] ⟨1, 1⟩) true]).dir).toOption.map
        fun d => d.idx.store.keyMap ⟨1, 1⟩) = some (some ([5], false)) := by
    decide +kernel
  refine ⟨by decide +kernel, hlast, ?_⟩
  rintro ⟨d', hd', hkept⟩
  rw [hd'] at hopen
  have hvec : d'.idx.store.keyMap ⟨1, 1⟩ = some ([5], false) := Option.some.inj hopen
  rw [hkept _ hlast] at hvec
  have hacked : KeyMap.run (fun _ => none) (((DurableIndex.fresh smallParams 0).acknowledged
      [.call (.add [5] ⟨1, 1⟩) false, .call (.add [6] ⟨1, 1⟩) true]).map (Call.op smallParams))
        ⟨1, 1⟩ = some ([6], false) := by decide +kernel
  have hsix := hacked.symm.trans hvec
  cases hsix

end VectorSearch.Durable
