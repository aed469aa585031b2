import VectorSearch.Durable.Lifetime
import VectorSearch.Durable.SameGraph

/-! # The index of a handle

Whatever happens to a directory, the index of the handle is one that sequential calls, `save` and
`load` lead to (`Lifetime.lived`): `Open` loads an index that was saved and repeats calls on it.  So
it can be searched as an index can that was never saved. -/

namespace VectorSearch.Durable

open Hnsw (Index Label Params Platform)
open Wal (applyAll)

section
variable [Platform UInt32] {p : Params} {idx : Index UInt32} {c : Call}

omit [Platform UInt32] in
/-- The ids that a call of the durable index needs. -/
theorem Call.hasId_onHnsw
    (hid : c.isAdd = true → idx.store.hasLabel c.key = true ∨ idx.store.count < 2 ^ 32) (level : ℤ) :
    (c.onHnsw level).HasId idx := by
  cases c with
  | add vec key => exact hid rfl
  | markDeleted key => trivial
  | unmarkDeleted key => trivial

/-- **A call of the durable index** keeps the index one that sequential calls made. -/
theorem lived_onIndex (h : Index.Lived p {level | p.Storable level} idx)
    (hsized : c.Sized idx.params.dim)
    (hid : c.isAdd = true → idx.store.hasLabel c.key = true ∨ idx.store.count < 2 ^ 32) :
    Index.Lived p {level | p.Storable level} (c.onIndex idx).1 := by
  obtain ⟨rfl, -⟩ := h.stored fun _ => id
  rw [(onIndex_rng hsized).2]
  cases c with
  | add vec key =>
    exact h.call (.addPoint vec key idx.randomLevel) _ (hsized vec key rfl) (hid rfl)
      (idx.params.storable_levelDraw _ _)
  | markDeleted key => exact h.call (.markDeleted key) _ trivial trivial trivial
  | unmarkDeleted key => exact h.call (.unmarkDeleted key) _ trivial trivial trivial

/-- Calls whose keys all fit. -/
theorem lived_live {cs : List Call} (h : Index.Lived p {level | p.Storable level} idx)
    (hsized : ∀ c ∈ cs, c.Sized p.dim) (hroom : (addedKeys cs ∪ idx.store.keys).card ≤ p.room) :
    Index.Lived p {level | p.Storable level} (live idx cs) := by
  induction cs generalizing idx with
  | nil => exact h
  | cons c cs ih =>
    obtain ⟨hparams, hstored⟩ := h.stored fun _ => id
    have hgood := hstored.counted.good
    have hc := hsized c List.mem_cons_self
    rw [← hparams] at hc hroom
    have hspace : HasSpace idx c := by
      intro hadd
      refine hgood.has_or_room Finset.subset_union_right hroom ?_
      rw [addedKeys_cons, Call.added, if_pos hadd]
      simp
    obtain ⟨-, -, -, hkeys⟩ := onIndex_good hgood hc hspace
    have hid : c.isAdd = true → idx.store.hasLabel c.key = true ∨ idx.store.count < 2 ^ 32 :=
      fun hadd => (hspace hadd).imp_right fun hlt => hlt.trans_le (min_le_right _ _)
    refine ih (lived_onIndex h hc hid) (fun c' hc' => hsized c' (List.mem_cons_of_mem _ hc')) ?_
    rwa [hkeys, ← Finset.union_assoc, Finset.union_comm (addedKeys cs), ← addedKeys_cons, ← hparams]

end

section
variable [Platform UInt32] {cfg : Config} {p : Params} {base : Index UInt32} {log : List Call}
  {answers : List Answer} {d d' : DurableIndex}

/-- The index that `Snapshot` saves, loaded again. -/
theorem Serving.lived_reloaded (h : Serving cfg p base log d)
    (hlived : Index.Lived p {level | p.Storable level} d.idx) :
    Index.Lived p {level | p.Storable level} d.idx.reloaded := by
  have hcount : d.idx.store.count ≤ d.idx.params.maxElements := by
    rw [h.params]
    exact h.good.count_le.trans (min_le_left _ _)
  exact hlived.reload (Hnsw.load_save d.idx hcount)

/-- The index that `Open` returns. -/
theorem Serving.lived_opened (h : Serving cfg p base log d)
    (hbase : Index.Lived p {level | p.Storable level} base) {dir : Dir}
    (hholding : Holding cfg dir base log) (hopen : openIndex cfg dir = .ok d') :
    Index.Lived p {level | p.Storable level} d'.idx := by
  obtain ⟨hload, f, bs, t, hwal, hbytes, hholds, ht⟩ := hholding
  obtain ⟨idx, rs, f', hload', happ, -, -, hrs, -⟩ := openIndex_wal hopen
  obtain rfl : idx = base := Except.ok.inj (hload'.symm.trans hload)
  obtain rfl : rs = log.map Call.record := by
    rw [hrs f hwal, hbytes, hholds.records_drop_torn ht]
  have hle := h.card_le (Or.inl ⟨_, happ⟩)
  have hgood := h.baseGood
  have hlive : applyAll apply idx (log.map Call.record) = .ok (live idx log) := by
    refine applyAll_live log ?_ ⟨fun k => hgood.mem_keys.symm, hgood.card_keys.symm⟩ (Or.inl ?_)
    · rw [h.baseParams]
      exact h.sized
    · rw [h.baseParams]
      exact hle.trans (min_le_left _ _)
  rw [Except.ok.inj (happ.symm.trans hlive)]
  exact lived_live hbase h.sized hle

/-- A handle whose index and whose snapshot sequential calls made. -/
def Serving.Lived (cfg : Config) (p : Params) (d : DurableIndex) : Prop :=
  ∃ base log, Serving cfg p base log d ∧ Index.Lived p {level | p.Storable level} base ∧
    Index.Lived p {level | p.Storable level} d.idx

theorem Serving.Lived.rotated (h : Lived cfg p d) (hd : HalfRotated d d') : Lived cfg p d' := by
  obtain ⟨base, log, hserving, hbase, hlived⟩ := h
  have hreloaded := hserving.lived_reloaded hlived
  have hidx := hd.idx
  obtain h | h | h := hserving.rotated hd
  · exact ⟨_, _, h, hbase, hidx ▸ hlived⟩
  · exact ⟨_, _, h, hreloaded, hidx ▸ hlived⟩
  · exact ⟨_, _, h, hreloaded, hidx ▸ hlived⟩

theorem Serving.Lived.opened (h : Lived cfg p d) {dir : Dir} (hcrash : d.Crash dir)
    (hopen : openIndex cfg dir = .ok d') : Lived cfg p d' := by
  have hopened : ∀ {base log d₁}, Serving cfg p base log d₁ →
      Index.Lived p {level | p.Storable level} base → Holding cfg dir base log → Lived cfg p d' := by
    intro base log d₁ hserving hbase hholding
    have hlived := hserving.lived_opened hbase hholding hopen
    obtain ⟨hload, f, bs, t, hwal, hbytes, hholds, ht⟩ := hholding
    exact ⟨base, log, hserving.opened hload hwal hbytes hholds ht hopen, hbase, hlived⟩
  cases hcrash with
  | inSnapshot hj hw =>
    obtain ⟨base, log, hserving, hbase, -⟩ := h.rotated (halfRotated_interrupted d hj)
    exact hopened hserving hbase hserving.holding
  | inAppend hc hn =>
    obtain ⟨base, log, hserving, hbase, -⟩ := h
    exact hopened hserving hbase (hserving.holding_torn hc hn)

/-- **The index of a handle is one that sequential calls made**, over calls, snapshots, crashes and
restarts. -/
theorem DurableIndex.Lifetime.lived (h : Lifetime cfg answers d) :
    Index.Lived d.idx.params {level | d.idx.params.Storable level} d.idx := by
  have hserving : ∃ p, Serving.Lived cfg p d := by
    induction h with
    | opened hopen =>
      obtain ⟨p, hp, rfl⟩ := openIndex_empty hopen
      exact ⟨p, _, _, serving_fresh hp, .new _, .new _⟩
    | @call answers d c _ hc ih =>
      obtain ⟨p, base, log, hserving, hbase, hlived⟩ := ih
      cases hw : d.walOpen with
      | true =>
        refine ⟨p, base, _, (hserving.call hc hw).1, hbase, ?_⟩
        rw [hserving.idx_perform hc hw]
        exact lived_onIndex hlived hc.1 hc.2.2
      | false =>
        rw [perform_closed hw]
        exact ⟨p, base, log, hserving, hbase, hlived⟩
    | snapshot _ _ ih =>
      obtain ⟨p, ih⟩ := ih
      exact ⟨p, ih.rotated (halfRotated_interrupted _ le_rfl)⟩
    | snapshotFails _ _ ih =>
      obtain ⟨p, ih⟩ := ih
      exact ⟨p, ih.rotated (halfRotated_failing _ _ _)⟩
    | crash _ hcrash hopen ih =>
      obtain ⟨p, ih⟩ := ih
      exact ⟨p, ih.opened hcrash hopen⟩
  obtain ⟨p, base, log, hserving, -, hlived⟩ := hserving
  rwa [hserving.params]

end

end VectorSearch.Durable
