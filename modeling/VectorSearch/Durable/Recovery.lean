import VectorSearch.Durable.Index

/-! # Calls, their records and Open

What a call does to an index is what it does to the key store (`onIndex_eq`), and replaying its
record does the same unless the index is full (`apply_record`).  `openIndex_of_holds` opens a
directory whose log holds given records, and `openIndex_ok` recovers the log and the replay from an
`Open` that returned. -/

open ByteCodec

namespace VectorSearch.Durable

open Wal (Record opAdd opMarkDeleted opUnmarkDeleted KnownOp Loggable Holds applyAll records header
  recordReader)
open Hnsw (Label Index Platform Params Store Err addErr KeyOp KeyMap)

/-- The vector of an `Add` has dimension `dim`. -/
def Call.Sized (dim : ℕ) (c : Call) : Prop := ∀ vec key, c = .add vec key → vec.length = dim

/-- The call is an `Add`. -/
def Call.isAdd : Call → Bool
  | .add _ _ => true
  | _ => false

/-- The call a record is replayed as. -/
def callOf (r : Record) : Call :=
  if r.op = opAdd then .add r.vector (keyOf r)
  else if r.op = opMarkDeleted then .markDeleted (keyOf r)
  else .unmarkDeleted (keyOf r)

@[simp] theorem key_callOf (r : Record) : (callOf r).key = keyOf r := by
  unfold callOf
  split_ifs <;> rfl

@[simp] theorem callOf_record : ∀ c : Call, callOf c.record = c
  | .add _ _ => rfl
  | .markDeleted _ => rfl
  | .unmarkDeleted _ => rfl

@[simp] theorem keyOf_record : ∀ c : Call, keyOf c.record = c.key
  | .add _ _ => rfl
  | .markDeleted _ => rfl
  | .unmarkDeleted _ => rfl

theorem known_record : ∀ c : Call, KnownOp c.record.op
  | .add _ _ => Or.inl rfl
  | .markDeleted _ => Or.inr (Or.inl rfl)
  | .unmarkDeleted _ => Or.inr (Or.inr rfl)

theorem length_record {dim : ℕ} {c : Call} (h : c.Sized dim) :
    c.record.vector.length = if c.isAdd then dim else 0 := by
  cases c with
  | add vec key => exact h vec key rfl
  | markDeleted key => rfl
  | unmarkDeleted key => rfl

/-- A record is encoded without an error when the dimension is positive. -/
theorem rule_record {dim : ℕ} (hdim : 0 < dim) {c : Call} (h : c.Sized dim) :
    c.record.op = opAdd ↔ c.record.vector ≠ [] := by
  cases c with
  | add vec key =>
      have hlen := h vec key rfl
      refine iff_of_true rfl ?_
      rintro (rfl : vec = [])
      rw [List.length_nil] at hlen
      omega
  | markDeleted key =>
      exact iff_of_false (show ¬ opMarkDeleted = opAdd by decide) (fun h => h rfl)
  | unmarkDeleted key =>
      exact iff_of_false (show ¬ opUnmarkDeleted = opAdd by decide) (fun h => h rfl)

/-- The payload of an `Add` is within the limit of the reader. -/
def Fits (dim : ℕ) : Prop := 21 + dim * 4 ≤ Wal.maxPayloadLen

theorem loggable_record {dim : ℕ} (hdim : 0 < dim) {c : Call} (h : c.Sized dim)
    (hfits : Fits dim ∨ c.isAdd = false) : Loggable c.record := by
  refine ⟨rule_record hdim h, known_record c, ?_⟩
  rw [length_record h]
  obtain hfits | hadd := hfits
  · rw [Fits] at hfits
    split_ifs
    · exact hfits
    · exact le_trans (by omega) hfits
  · rw [hadd]
    simp [Wal.maxPayloadLen]

/-- The store has room for the key of a call that adds one. -/
def Call.HasRoom (p : Params) (s : Store UInt32) (c : Call) : Prop :=
  c.isAdd = true → s.hasLabel c.key = true ∨ s.count % 2 ^ 32 < p.maxElements

theorem result_mark (b : Bool) (e : Err) :
    (if b then (.ok () : Except Err Unit) else .error .notFound) = .error e → e = .notFound := by
  cases b
  · rintro ⟨⟩
    rfl
  · nofun

section
variable [Platform UInt32]

/-! ### Calls on the key store -/

/-- What a call does to a key store. -/
def Call.onStore (p : Params) (s : Store UInt32) : Call → Store UInt32 × Except Err Unit
  | .add vec key => ((s.add p vec key).1,
      match (s.add p vec key).2 with
      | .ok _ => .ok ()
      | .error e => .error (addErr e))
  | .markDeleted key => ((s.markDeleted key).1,
      if (s.markDeleted key).2 then .ok () else .error .notFound)
  | .unmarkDeleted key => ((s.unmarkDeleted key).1,
      if (s.unmarkDeleted key).2 then .ok () else .error .notFound)

/-- **A call on an index is the call on its key store.** -/
theorem onIndex_eq {idx : Index UInt32} {c : Call} (h : c.Sized idx.params.dim) :
    (c.onIndex idx).1.params = idx.params ∧
      (c.onIndex idx).1.store = (c.onStore idx.params idx.store).1 ∧
      (c.onIndex idx).2 = (c.onStore idx.params idx.store).2 := by
  cases c with
  | add vec key =>
      obtain ⟨hstore, hres⟩ := idx.store_addPoint vec key
      have hgo := Index.goAdd_of_length (h vec key rfl)
      simp only [Call.onIndex, Call.onStore, hgo, hres]
      refine ⟨Index.params_addPoint _ _ _, hstore, ?_⟩
      cases (idx.store.add idx.params vec key).2 <;> simp only
  | markDeleted key =>
      simp only [Call.onIndex, Call.onStore, Index.goMarkDeleted_eq, and_self]
  | unmarkDeleted key =>
      simp only [Call.onIndex, Call.onStore, Index.goUnmarkDeleted_eq, and_self]

/-- The error that replay of a call tolerates. -/
def Call.tolerated : Call → Err
  | .add _ _ => .duplicateLabel
  | .markDeleted _ => .notFound
  | .unmarkDeleted _ => .notFound

/-- Replay of a record with a known op is the call, with one error tolerated. -/
theorem apply_eq {idx : Index UInt32} {r : Record} (h : KnownOp r.op) :
    apply idx r =
      match ((callOf r).onIndex idx).2 with
      | .ok _ => .ok ((callOf r).onIndex idx).1
      | .error e => if e = (callOf r).tolerated then .ok ((callOf r).onIndex idx).1
          else .error (.index e) := by
  obtain h | h | h := h
  · simp only [apply, callOf, h, if_true, Call.onIndex, Call.tolerated]
    obtain ⟨idx', _ | _⟩ := idx.goAdd r.vector (keyOf r)
    · rename_i e
      cases e <;> simp
    · rfl
  · have hne : ¬ opMarkDeleted = opAdd := by decide
    simp only [apply, callOf, h, if_true, if_neg hne, Call.onIndex, Call.tolerated]
    obtain ⟨idx', _ | _⟩ := idx.goMarkDeleted (keyOf r)
    · rename_i e
      cases e <;> simp
    · rfl
  · have hne : ¬ opUnmarkDeleted = opAdd := by decide
    have hne' : ¬ opUnmarkDeleted = opMarkDeleted := by decide
    simp only [apply, callOf, h, if_true, if_neg hne, if_neg hne', Call.onIndex, Call.tolerated]
    obtain ⟨idx', _ | _⟩ := idx.goUnmarkDeleted (keyOf r)
    · rename_i e
      cases e <;> simp
    · rfl

/-- The errors of a call on a key store: the tolerated one, or a full index. -/
theorem onStore_error {p : Params} {s : Store UInt32} {c : Call} {e : Err}
    (h : (c.onStore p s).2 = .error e) : e = c.tolerated ∨ e = .full ∧ ¬ c.HasRoom p s := by
  cases c with
  | add vec key =>
      simp only [Call.onStore] at h
      cases hk : s.hasLabel key with
      | true =>
          rw [Store.add_of_hasLabel p vec hk] at h
          cases h
          exact Or.inl rfl
      | false =>
          obtain hlt | hfull := Nat.lt_or_ge (s.count % 2 ^ 32) p.maxElements
          · rw [Store.add_of_lt vec hk hlt] at h
            cases h
          · rw [Store.add_of_full vec hk hfull] at h
            cases h
            refine Or.inr ⟨rfl, fun hroom => ?_⟩
            obtain h | h := hroom rfl
            · exact Bool.false_ne_true (hk.symm.trans h)
            · omega
  | markDeleted key => exact Or.inl (result_mark _ _ h)
  | unmarkDeleted key => exact Or.inl (result_mark _ _ h)

/-- A call without room is answered `ErrFull`. -/
theorem onStore_full {p : Params} {s : Store UInt32} {c : Call} (h : ¬ c.HasRoom p s) :
    (c.onStore p s).2 = .error .full := by
  simp only [Call.HasRoom, Classical.not_imp, not_or, not_lt] at h
  obtain ⟨hadd, hk, hfull⟩ := h
  cases c with
  | add vec key =>
      have hk' : s.hasLabel key = false := Bool.eq_false_iff.mpr hk
      simp only [Call.onStore, Store.add_of_full vec hk' hfull, addErr]
  | markDeleted key => cases hadd
  | unmarkDeleted key => cases hadd

/-- **Replaying a record does what its call does**, if the call has room. -/
theorem apply_of_hasRoom {idx : Index UInt32} {r : Record} (hop : KnownOp r.op)
    (h : (callOf r).Sized idx.params.dim) (hroom : (callOf r).HasRoom idx.params idx.store) :
    apply idx r = .ok ((callOf r).onIndex idx).1 := by
  rw [apply_eq hop]
  obtain ⟨-, -, hres⟩ := onIndex_eq h
  cases hc : ((callOf r).onIndex idx).2 with
  | ok u => rfl
  | error e =>
      rw [hc] at hres
      obtain he | ⟨-, hno⟩ := onStore_error hres.symm
      · simp only [he, if_true]
      · exact absurd hroom hno

theorem apply_record {idx : Index UInt32} {c : Call} (h : c.Sized idx.params.dim)
    (hroom : c.HasRoom idx.params idx.store) :
    apply idx c.record = .ok (c.onIndex idx).1 := by
  have happ := apply_of_hasRoom (r := c.record) (known_record c) (by rwa [callOf_record])
    (by rwa [callOf_record])
  rwa [callOf_record] at happ

/-- The vector of a replayed `Add` has the dimension of the index. -/
theorem sized_of_apply {idx idx' : Index UInt32} {r : Record} (hop : KnownOp r.op)
    (happ : apply idx r = .ok idx') : (callOf r).Sized idx.params.dim := by
  intro vec key hcall
  by_contra hne
  have hres : (callOf r).onIndex idx = (idx, .error (.dims idx.params.dim vec.length)) := by
    rw [hcall, Call.onIndex, Index.goAdd, if_pos hne]
  rw [apply_eq hop, hres, hcall] at happ
  simp [Call.tolerated] at happ

/-- A replayed record had room. -/
theorem hasRoom_of_apply {idx idx' : Index UInt32} {r : Record} (hop : KnownOp r.op)
    (happ : apply idx r = .ok idx') : (callOf r).HasRoom idx.params idx.store := by
  by_contra hno
  obtain ⟨-, -, hres⟩ := onIndex_eq (sized_of_apply hop happ)
  rw [apply_eq hop, hres, onStore_full hno] at happ
  cases hc : callOf r <;> simp [hc, Call.tolerated] at happ

theorem params_onIndex (idx : Index UInt32) (c : Call) :
    (c.onIndex idx).1.params = idx.params := by
  by_cases hsized : c.Sized idx.params.dim
  · exact (onIndex_eq hsized).1
  · cases c with
    | add vec key =>
        have hne : vec.length ≠ idx.params.dim := by
          intro heq
          refine hsized ?_
          rintro vec' key' ⟨⟩
          exact heq
        rw [Call.onIndex, Index.goAdd, if_pos hne]
    | markDeleted key => rw [Call.onIndex, Index.goMarkDeleted_eq]
    | unmarkDeleted key => rw [Call.onIndex, Index.goUnmarkDeleted_eq]

/-- Replay keeps the parameters of the index. -/
theorem params_apply {idx idx' : Index UInt32} {r : Record} (h : apply idx r = .ok idx') :
    idx'.params = idx.params := by
  by_cases hop : KnownOp r.op
  · rw [apply_eq hop] at h
    split at h
    · cases h
      exact params_onIndex idx _
    · split_ifs at h
      cases h
      exact params_onIndex idx _
  · simp only [KnownOp, not_or] at hop
    rw [apply, if_neg hop.1, if_neg hop.2.1, if_neg hop.2.2] at h
    cases h

theorem params_applyAll : ∀ {rs : List Record} {idx idx' : Index UInt32},
    applyAll apply idx rs = .ok idx' → idx'.params = idx.params
  | [], _, _, h => by
      cases h
      rfl
  | r :: rs, idx, idx', h => by
      rw [Wal.applyAll_cons] at h
      cases h₁ : apply idx r with
      | error e =>
          rw [h₁] at h
          cases h
      | ok idx₁ =>
          rw [h₁] at h
          rw [params_applyAll h, params_apply h₁]

/-! ### Open -/

theorem openIndex_ok {cfg : Config} {dir : Dir} {d : DurableIndex}
    (h : openIndex cfg dir = .ok d) :
    ∃ idx, loadOrCreateIndex cfg dir = .ok idx ∧
      (Wal.replay apply (dir.wal.map DurableFile.bytes) idx).err = none ∧
      d = ⟨(Wal.replay apply (dir.wal.map DurableFile.bytes) idx).state,
        { dir with wal := some (reopenWAL dir.wal
          (Wal.replay apply (dir.wal.map DurableFile.bytes) idx).lastGoodOffset) }, true⟩ := by
  unfold openIndex at h
  cases hload : loadOrCreateIndex cfg dir with
  | error e =>
      rw [hload] at h
      cases h
  | ok idx =>
      rw [hload] at h
      simp only at h
      refine ⟨idx, rfl, ?_⟩
      cases herr : (Wal.replay apply (dir.wal.map DurableFile.bytes) idx).err with
      | some e =>
          rw [herr] at h
          cases h
      | none =>
          rw [herr] at h
          cases h
          exact ⟨rfl, rfl⟩

omit [Platform UInt32] in
theorem loadOrCreateIndex_none {cfg : Config} {dir : Dir} (hdir : dir.snapshot = none)
    {idx : Index UInt32} (h : loadOrCreateIndex cfg dir = .ok idx) :
    ∃ p, Hnsw.mkParams cfg.space cfg.dim cfg.maxElements cfg.M cfg.efConstruction = .ok p ∧
      idx = Index.new p cfg.seed := by
  simp only [loadOrCreateIndex, hdir] at h
  split at h
  · cases h
  · rename_i p hp
    cases h
    exact ⟨p, hp, rfl⟩

omit [Platform UInt32] in
theorem load_of_loadOrCreateIndex {cfg : Config} {dir : Dir} {f : DurableFile}
    (hdir : dir.snapshot = some f) {idx : Index UInt32} (h : loadOrCreateIndex cfg dir = .ok idx) :
    Hnsw.load f.bytes = .ok idx := by
  simp only [loadOrCreateIndex, hdir] at h
  split at h
  · cases h
  · next hload =>
      cases h
      exact hload

omit [Platform UInt32] in
theorem loadOrCreateIndex_empty {cfg : Config} {p : Params}
    (hp : Hnsw.mkParams cfg.space cfg.dim cfg.maxElements cfg.M cfg.efConstruction = .ok p)
    {dir : Dir} (hdir : dir.snapshot = none) :
    loadOrCreateIndex cfg dir = .ok (Index.new p cfg.seed) := by
  simp only [loadOrCreateIndex, hdir, hp]

omit [Platform UInt32] in
theorem loadOrCreateIndex_congr {cfg : Config} {dir dir' : Dir}
    (h : dir'.snapshot = dir.snapshot) :
    loadOrCreateIndex cfg dir' = (loadOrCreateIndex cfg dir : Except OpenError (Index UInt32)) := by
  unfold loadOrCreateIndex
  rw [h]

omit [Platform UInt32] in
/-- The snapshot of a good index is loaded. -/
theorem loadOrCreateIndex_saved {cfg : Config} {dir : Dir} {idx : Index UInt32}
    (hgood : idx.store.Good idx.params) {f : DurableFile} (hdir : dir.snapshot = some f)
    (hbytes : f.bytes = idx.save) : loadOrCreateIndex cfg dir = .ok idx.reloaded := by
  have hload : Hnsw.load f.bytes = .ok idx.reloaded := by
    rw [hbytes]
    exact Hnsw.load_save idx (hgood.count_le.trans (min_le_left _ _))
  simp only [loadOrCreateIndex, hdir, hload]

theorem openIndex_of_replay {cfg : Config} {dir : Dir} {idx idx' : Index UInt32} {n offset : ℕ}
    (hload : loadOrCreateIndex cfg dir = .ok idx)
    (hrep : Wal.replay apply (dir.wal.map DurableFile.bytes) idx = ⟨idx', n, offset, none⟩) :
    openIndex cfg dir =
      .ok ⟨idx', { dir with wal := some (reopenWAL dir.wal offset) }, true⟩ := by
  simp only [openIndex, hload, hrep]

/-- A log that ends in a torn frame is opened as the log in front of it. -/
theorem openIndex_of_holds {cfg : Config} {dir : Dir} {f : DurableFile} {bs t : Bytes}
    {rs : List Record} {idx idx' : Index UInt32} (hload : loadOrCreateIndex cfg dir = .ok idx)
    (hwal : dir.wal = some f) (hbytes : f.bytes = bs ++ t) (hlog : Holds bs rs)
    (ht : Wal.readRecord t = none) (happ : applyAll apply idx rs = .ok idx') :
    openIndex cfg dir =
      .ok ⟨idx', { dir with wal := some (f.truncate bs.length) }, true⟩ := by
  have hrep : Wal.replay apply (dir.wal.map DurableFile.bytes) idx =
      ⟨idx', rs.length, bs.length, none⟩ := by
    rw [hwal, Option.map_some, hbytes]
    exact hlog.replay_torn ht happ
  rw [openIndex_of_replay hload hrep, hwal]
  rfl

/-- What an `Open` that returned found in the log, and what it left there. -/
theorem openIndex_wal {cfg : Config} {dir : Dir} {d : DurableIndex}
    (h : openIndex cfg dir = .ok d) :
    ∃ idx rs f, loadOrCreateIndex cfg dir = .ok idx ∧ applyAll apply idx rs = .ok d.idx ∧
      d = ⟨d.idx, { dir with wal := some f }, true⟩ ∧ Holds f.bytes rs ∧
      (∀ g, dir.wal = some g → rs = records (g.bytes.drop Wal.headerSize)) ∧
      (dir.wal = none → rs = [] ∧ f = Wal.newLog) := by
  obtain ⟨idx, hload, herr, hd⟩ := openIndex_ok h
  cases hwal : dir.wal with
  | none =>
      rw [hwal] at hd
      refine ⟨idx, [], Wal.newLog, hload, ?_, ?_, Wal.holds_newLog, nofun, fun _ => ⟨rfl, rfl⟩⟩
      · rw [hd]
        rfl
      · rw [hd]
        rfl
  | some g =>
      rw [hwal, Option.map_some] at herr hd
      obtain ⟨hg, idx', happ⟩ := Wal.eq_header_append_of_replay apply herr
      have hrep := Wal.replay_ok apply happ
      rw [← hg] at hrep
      rw [hrep] at hd
      refine ⟨idx, records (g.bytes.drop Wal.headerSize),
        g.truncate (Wal.headerSize + recordReader.span (g.bytes.drop Wal.headerSize)), hload, ?_,
        ?_, ?_, ?_, nofun⟩
      · rw [hd]
        exact happ
      · rw [hd]
        rfl
      · rw [DurableFile.bytes_truncate]
        conv_lhs => rw [hg]
        exact Wal.holds_take_span _
      · intro g' hg'
        rw [Option.some.inj hg']

omit [Platform UInt32] in
/-- The records that `Open` replays have passed the checks of the reader. -/
theorem known_fits_of_read {dir : Dir} {rs : List Record} {f : DurableFile}
    (hrs : ∀ g, dir.wal = some g → rs = records (g.bytes.drop Wal.headerSize))
    (hnone : dir.wal = none → rs = [] ∧ f = Wal.newLog) :
    ∀ r ∈ rs, KnownOp r.op ∧ 21 + r.vector.length * 4 ≤ Wal.maxPayloadLen := by
  intro r hr
  cases hwal : dir.wal with
  | none =>
      rw [(hnone hwal).1] at hr
      cases hr
  | some g =>
      rw [hrs g hwal] at hr
      exact Wal.known_fits_of_mem_records hr

/-- `Open` in an empty directory. -/
theorem openIndex_empty {cfg : Config} {d : DurableIndex} (h : openIndex cfg Dir.empty = .ok d) :
    ∃ p, Hnsw.mkParams cfg.space cfg.dim cfg.maxElements cfg.M cfg.efConstruction = .ok p ∧
      d = DurableIndex.fresh p cfg.seed := by
  obtain ⟨idx, rs, f, hload, happ, hd, -, -, hnone⟩ := openIndex_wal h
  obtain ⟨rfl, rfl⟩ := hnone rfl
  obtain ⟨p, hp, rfl⟩ := loadOrCreateIndex_none rfl hload
  refine ⟨p, hp, ?_⟩
  rw [hd, ← Except.ok.inj happ]
  rfl

end

end VectorSearch.Durable
