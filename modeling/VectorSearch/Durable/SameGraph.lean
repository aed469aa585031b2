import VectorSearch.Hnsw.SaveLoad
import VectorSearch.Durable.FailedSnapshot

/-! # Recovery of the graph

Replay inserts the vectors again, into the graph of the snapshot.  Where an insertion draws the
level that it drew the first time, it does the same again, and a call that is refused draws nothing
and takes no id either time (`onIndex_rng`).  So replay goes through the states of the live run up
to the generator (`live_rng`).

`Mirrored` relates the live index to the snapshot and the log, and `recovers_graph` says that after
a crash `Open` gives the live index field by field, and every search the same answer. -/

open ByteCodec

namespace VectorSearch.Durable

open Wal (Record Holds applyAll)
open Hnsw (Label Index Platform Params Store Rng)

section
variable [Platform UInt32]

/-! ### Calls and level draws -/

theorem rng_addPointAt (idx : Index UInt32) (vec : Wal.Vec) (label : Label) (level : ℤ) :
    (idx.addPointAt vec label level).1.rng = idx.rng := by
  unfold Index.addPointAt
  simp only
  split_ifs <;> rfl

/-- An insertion draws a level, and one that fails changes nothing. -/
theorem addPoint_rng (idx : Index UInt32) (vec : Wal.Vec) (label : Label) :
    idx.store.count ≤ (idx.addPoint vec label).1.store.count ∧
      (idx.addPoint vec label).1 = { (idx.addPointAt vec label idx.randomLevel).1 with
        rng := ⟨idx.rng.seed, idx.rng.drawn +
          ((idx.addPoint vec label).1.store.count - idx.store.count)⟩ } := by
  have hrng := rng_addPointAt idx vec label idx.randomLevel
  cases hpair : idx.addPointAt vec label idx.randomLevel with
  | mk idx' res =>
      replace hrng : idx'.rng = idx.rng := by
        rwa [hpair] at hrng
      cases res with
      | error e =>
          have hsame := Index.addPointAt_of_error (congrArg Prod.snd hpair)
          rw [hpair] at hsame
          simp only [Index.addPoint, hpair]
          obtain rfl : idx' = idx := hsame
          rw [Nat.sub_self]
          exact ⟨le_rfl, rfl⟩
      | ok id =>
          obtain ⟨hlabel, hlt, -, hstore, -⟩ := Index.addPointAt_of_ok (congrArg Prod.snd hpair)
          have hcount : idx'.store.count = idx.store.count + 1 := by
            rw [hpair, Store.add_of_lt vec hlabel hlt] at hstore
            rw [hstore]
            rfl
          simp only [Index.addPoint, hpair, hcount, Nat.add_sub_cancel_left]
          rw [hrng]
          exact ⟨Nat.le_succ _, rfl⟩

/-- The call on the index, with the level that an insertion draws. -/
def Call.onHnsw (level : ℤ) : Call → Index.Op UInt32
  | .add vec key => .addPoint vec key level
  | .markDeleted key => .markDeleted key
  | .unmarkDeleted key => .unmarkDeleted key

/-- The number of nodes that a call adds. -/
def Call.grows (idx : Index UInt32) (c : Call) : ℕ :=
  (c.onIndex idx).1.store.count - idx.store.count

/-- **A call draws as many levels as it adds nodes.** -/
theorem onIndex_rng {idx : Index UInt32} {c : Call} (hsized : c.Sized idx.params.dim) :
    idx.store.count ≤ (c.onIndex idx).1.store.count ∧
      (c.onIndex idx).1 = { (((c.onHnsw idx.randomLevel).perform idx).1 : Index UInt32) with
        rng := ⟨idx.rng.seed, idx.rng.drawn + c.grows idx⟩ } := by
  unfold Call.grows
  cases c with
  | add vec key =>
      simp only [Call.onIndex, Index.goAdd_of_length (hsized vec key rfl), Call.onHnsw,
        Index.Op.perform]
      exact addPoint_rng idx vec key
  | markDeleted key =>
      simp only [Call.onIndex, Index.goMarkDeleted_eq, Call.onHnsw, Index.Op.perform,
        Index.markDeleted, Store.count_markDeleted, Nat.sub_self]
      exact ⟨le_rfl, rfl⟩
  | unmarkDeleted key =>
      simp only [Call.onIndex, Index.goUnmarkDeleted_eq, Call.onHnsw, Index.Op.perform,
        Index.unmarkDeleted, Store.count_unmarkDeleted, Nat.sub_self]
      exact ⟨le_rfl, rfl⟩

/-- A call that adds no node does the same with any level. -/
theorem perform_level {idx : Index UInt32} {c : Call} (hsized : c.Sized idx.params.dim)
    (h : c.grows idx = 0) (level level' : ℤ) :
    ((c.onHnsw level).perform idx).1 = ((c.onHnsw level').perform idx).1 := by
  cases c with
  | add vec key =>
      have hfail : ∀ level, (idx.addPointAt vec key level).1 = idx := by
        intro level
        cases hres : (idx.addPointAt vec key level).2 with
        | error e => exact Index.addPointAt_of_error hres
        | ok id =>
            obtain ⟨hlabel, hlt, -⟩ := Index.addPointAt_of_ok hres
            rw [Call.grows, (onIndex_eq hsized).2.1, Call.onStore, Store.add_of_lt vec hlabel hlt] at h
            have hone : idx.store.count + 1 - idx.store.count = 0 := h
            omega
      exact (hfail level).trans (hfail level').symm
  | markDeleted key => rfl
  | unmarkDeleted key => rfl

/-- **A call with another generator**, which gives the level that the call draws. -/
theorem onIndex_withRng {idx : Index UInt32} {rng : Rng} {c : Call}
    (hsized : c.Sized idx.params.dim)
    (hlevel : c.grows idx ≠ 0 →
      Platform.levelDraw UInt32 rng.seed idx.params.M rng.drawn = idx.randomLevel) :
    (c.onIndex { idx with rng }).1 =
      { (c.onIndex idx).1 with rng := ⟨rng.seed, rng.drawn + c.grows idx⟩ } := by
  have hsized' : c.Sized ({ idx with rng } : Index UInt32).params.dim := hsized
  have hstore : (c.onIndex { idx with rng }).1.store = (c.onIndex idx).1.store := by
    rw [(onIndex_eq hsized').2.1, (onIndex_eq hsized).2.1]
  have hgrows : c.grows { idx with rng } = c.grows idx := by
    rw [Call.grows, Call.grows, hstore]
  have hperform : ((c.onHnsw (Index.randomLevel { idx with rng })).perform idx).1 =
      ((c.onHnsw idx.randomLevel).perform idx).1 := by
    by_cases hzero : c.grows idx = 0
    · exact perform_level hsized hzero _ _
    · rw [← hlevel hzero]
      rfl
  rw [(onIndex_rng hsized').2, (onIndex_rng hsized).2, Index.Op.perform_rng, hperform, hgrows]

/-- The level draws that two generators make for the next `n` nodes are the same. -/
def SameLevels (M : ℕ) (rng rng' : Rng) (n : ℕ) : Prop :=
  ∀ j < n, Platform.levelDraw UInt32 rng.seed M (rng.drawn + j) =
    Platform.levelDraw UInt32 rng'.seed M (rng'.drawn + j)

theorem count_le_live : ∀ (cs : List Call) {idx : Index UInt32},
    (∀ c ∈ cs, c.Sized idx.params.dim) → idx.store.count ≤ (live idx cs).store.count
  | [], _, _ => le_rfl
  | c :: cs, idx, hsized => by
      have hc := hsized c List.mem_cons_self
      refine (onIndex_rng hc).1.trans (count_le_live cs fun c' h => ?_)
      rw [(onIndex_eq hc).1]
      exact hsized c' (List.mem_cons_of_mem _ h)

/-- **The same calls with another generator** that draws the same levels. -/
theorem live_rng : ∀ (cs : List Call) {idx : Index UInt32} {rng : Rng},
    (∀ c ∈ cs, c.Sized idx.params.dim) →
      SameLevels idx.params.M rng idx.rng ((live idx cs).store.count - idx.store.count) →
        ∃ rng', live { idx with rng } cs = { live idx cs with rng := rng' }
  | [], _, rng, _, _ => ⟨rng, rfl⟩
  | c :: cs, idx, rng, hsized, hsame => by
      have hc := hsized c List.mem_cons_self
      obtain ⟨hle, hrng⟩ := onIndex_rng hc
      obtain ⟨hparams, -, -⟩ := onIndex_eq hc
      have hsized' : ∀ c' ∈ cs, c'.Sized (c.onIndex idx).1.params.dim := by
        intro c' h
        rw [hparams]
        exact hsized c' (List.mem_cons_of_mem _ h)
      have hlater := count_le_live cs hsized'
      have hgrows : c.grows idx = (c.onIndex idx).1.store.count - idx.store.count := rfl
      have hdrawn : (c.onIndex idx).1.rng = ⟨idx.rng.seed, idx.rng.drawn + c.grows idx⟩ :=
        congrArg Index.rng hrng
      have hlive : (live idx (c :: cs)).store.count = (live (c.onIndex idx).1 cs).store.count := rfl
      have hstep : (c.onIndex { idx with rng }).1 =
          { (c.onIndex idx).1 with rng := ⟨rng.seed, rng.drawn + c.grows idx⟩ } :=
        onIndex_withRng hc fun hne => hsame 0 (by omega)
      have ih : ∃ rng', live { (c.onIndex idx).1 with
            rng := ⟨rng.seed, rng.drawn + c.grows idx⟩ } cs =
          { live (c.onIndex idx).1 cs with rng := rng' } := by
        refine live_rng cs hsized' fun j hj => ?_
        have hnext := hsame (c.grows idx + j) (by omega)
        rw [hparams, hdrawn]
        rwa [← Nat.add_assoc, ← Nat.add_assoc] at hnext
      rw [← hstep] at ih
      exact ih

/-! ### Histories -/

/-- What sequential calls and completed snapshots on a fresh directory lead to.  Every call is one
that the log can hold, and no `Add` is answered `ErrFull`. -/
inductive DurableIndex.Ran (cfg : Config) : DurableIndex → Prop
  | opened {d : DurableIndex} (hopen : openIndex cfg Dir.empty = .ok d) : Ran cfg d
  | call {d : DurableIndex} {c : Call} (h : Ran cfg d) (hc : c.Sound d.idx)
      (hfull : (d.perform c .done).2 ≠ .error (.indexAdd .full)) : Ran cfg (d.perform c .done).1
  | snapshot {d : DurableIndex} (h : Ran cfg d) : Ran cfg d.snapshot.1

/-- The live index is what the calls of the log make of the index `base` of the snapshot, drawing
levels from where the live run was when the snapshot was taken. -/
structure Mirrored (cfg : Config) (base : Index UInt32) (log : List Call) (d : DurableIndex) :
    Prop where
  walOpen : d.walOpen = true
  walNew : d.dir.walNew = none
  stored : d.idx.Stored
  rng : d.idx.rng = ⟨cfg.seed, d.idx.store.count⟩
  wal : ∃ f, d.dir.wal = some f ∧ Holds f.bytes (log.map Call.record)
  load : loadOrCreateIndex cfg d.dir = .ok base
  baseStored : base.Stored
  fresh : base.rng.drawn = 0
  sized : ∀ c ∈ log, c.Sized base.params.dim
  keys : addedKeys log ∪ base.store.keys ⊆ d.idx.store.keys
  live : live { base with rng := ⟨cfg.seed, base.store.count⟩ } log = d.idx

section
variable {cfg : Config} {base : Index UInt32} {log : List Call} {d : DurableIndex}

/-- A call keeps the index as `load` can restore it. -/
theorem stored_onIndex {idx : Index UInt32} (h : idx.Stored) {c : Call}
    (hsized : c.Sized idx.params.dim)
    (hids : c.isAdd = true → idx.store.hasLabel c.key = true ∨ idx.store.count < 2 ^ 32) :
    (c.onIndex idx).1.Stored := by
  rw [(onIndex_rng hsized).2]
  refine Index.Stored.with_rng (h.perform ?_ ?_ ?_) _
  · cases c with
    | add vec key => exact hsized vec key rfl
    | markDeleted key => trivial
    | unmarkDeleted key => trivial
  · cases c with
    | add vec key => exact hids rfl
    | markDeleted key => trivial
    | unmarkDeleted key => trivial
  · cases c with
    | add vec key => exact idx.params.storable_levelDraw _ _
    | markDeleted key => trivial
    | unmarkDeleted key => trivial

theorem mirrored_fresh {p : Params}
    (hp : Hnsw.mkParams cfg.space cfg.dim cfg.maxElements cfg.M cfg.efConstruction = .ok p) :
    Mirrored cfg (Index.new p cfg.seed) [] (DurableIndex.fresh p cfg.seed) where
  walOpen := rfl
  walNew := rfl
  stored := Index.Stored.new p cfg.seed
  rng := rfl
  wal := ⟨Wal.newLog, rfl, Wal.holds_newLog⟩
  load := loadOrCreateIndex_empty hp rfl
  baseStored := Index.Stored.new p cfg.seed
  fresh := rfl
  sized := nofun
  keys := Finset.Subset.refl _
  live := rfl

theorem live_concat (idx : Index UInt32) (cs : List Call) (c : Call) :
    Durable.live idx (cs ++ [c]) = (c.onIndex (Durable.live idx cs)).1 := by
  rw [Durable.live, List.foldl_append]
  rfl

theorem params_live : ∀ (cs : List Call) (idx : Index UInt32),
    (Durable.live idx cs).params = idx.params
  | [], _ => rfl
  | c :: cs, idx => (params_live cs (c.onIndex idx).1).trans (params_onIndex idx c)

theorem Mirrored.params (h : Mirrored cfg base log d) : base.params = d.idx.params := by
  rw [← h.live, params_live]

/-- A sound call that is not answered `ErrFull` had room. -/
theorem room_of_not_full {idx : Index UInt32} {c : Call} (hc : c.Sound idx)
    (hfull : (c.onIndex idx).2 ≠ .error .full) :
    c.isAdd = true → idx.store.hasLabel c.key = true ∨ idx.store.count < idx.params.room := by
  intro hadd
  by_contra hno
  refine hfull ?_
  rw [(onIndex_eq hc.1).2.2]
  rw [not_or, not_lt] at hno
  obtain ⟨hk, hroom⟩ := hno
  have hlt : idx.store.count < 2 ^ 32 := (hc.2.2 hadd).resolve_left hk
  refine onStore_full fun hhas => ?_
  obtain h | h := hhas hadd
  · exact hk h
  · rw [Nat.mod_eq_of_lt hlt] at h
    rw [Params.room] at hroom
    omega

/-- A call on the live index. -/
theorem Mirrored.call (h : Mirrored cfg base log d) {c : Call} (hc : c.Sound d.idx)
    (hfull : (d.perform c .done).2 ≠ .error (.indexAdd .full)) :
    Mirrored cfg base (log ++ [c]) (d.perform c .done).1 := by
  obtain ⟨f, hwal, hholds⟩ := h.wal
  have hlog := loggable_record d.idx.params.dim_pos hc.1 hc.2.1
  rw [perform_done h.walOpen hwal hlog.encode] at hfull ⊢
  have hnot : c.isAdd = true → (c.onIndex d.idx).2 ≠ .error .full := by
    intro hadd hres
    refine hfull ?_
    rw [hres]
    cases c with
    | add vec key => rfl
    | markDeleted key => cases hadd
    | unmarkDeleted key => cases hadd
  have hroom : c.isAdd = true →
      d.idx.store.hasLabel c.key = true ∨ d.idx.store.count < d.idx.params.room :=
    fun hadd => room_of_not_full hc (hnot hadd) hadd
  obtain ⟨-, -, -, hkeys⟩ := onIndex_good h.stored.counted.good hc.1 hroom
  obtain ⟨hle, hrng⟩ := onIndex_rng hc.1
  rw [Wal.append_done hlog.encode]
  refine ⟨rfl, h.walNew, stored_onIndex h.stored hc.1 hc.2.2, ?_, ⟨_, rfl, ?_⟩, ?_, h.baseStored, h.fresh,
    ?_, ?_, ?_⟩
  · have hgrows : c.grows d.idx = (c.onIndex d.idx).1.store.count - d.idx.store.count := rfl
    have hdrawn := congrArg Index.rng hrng
    rw [h.rng] at hdrawn
    refine hdrawn.trans ?_
    rw [hgrows, Nat.add_sub_cancel' hle]
  · rw [List.map_append]
    exact hholds.append hlog
  · rw [← h.load]
    rfl
  · intro c' hc'
    obtain hc' | hc' := List.mem_append.mp hc'
    · exact h.sized c' hc'
    · rw [List.mem_singleton.mp hc', h.params]
      exact hc.1
  · rw [addedKeys_append, addedKeys_cons, addedKeys_nil, Finset.union_empty, Finset.union_comm _
      c.added, Finset.union_assoc, hkeys]
    exact Finset.union_subset_union (Finset.Subset.refl _) h.keys
  · rw [live_concat, h.live]

/-- A completed `Snapshot`. -/
theorem Mirrored.snapshot (h : Mirrored cfg base log d) :
    Mirrored cfg d.idx.reloaded [] d.snapshot.1 := by
  have hgood := h.stored.counted.good
  have heq := Index.reloaded_eq h.stored
  rw [snapshot_eq h.walNew]
  refine ⟨rfl, rfl, h.stored, h.rng, ⟨_, rfl, Wal.holds_newLog⟩, loadOrCreateIndex_saved hgood rfl rfl,
    ?_, rfl, nofun, ?_, ?_⟩
  · rw [heq]
    exact h.stored.with_rng _
  · rw [addedKeys_nil, Finset.empty_union, heq]
  · rw [heq]
    show ({ d.idx with rng := ⟨cfg.seed, d.idx.store.count⟩ } : Index UInt32) = d.idx
    rw [← h.rng]

end

/-- **The invariant holds in every history.** -/
theorem DurableIndex.Ran.mirrored {cfg : Config} {d : DurableIndex} (h : d.Ran cfg) :
    ∃ base log, Mirrored cfg base log d := by
  induction h with
  | opened hopen =>
      obtain ⟨p, hp, rfl⟩ := openIndex_empty hopen
      exact ⟨_, _, mirrored_fresh hp⟩
  | call _ hc hfull ih =>
      obtain ⟨base, log, ih⟩ := ih
      exact ⟨_, _, ih.call hc hfull⟩
  | snapshot _ ih =>
      obtain ⟨base, log, ih⟩ := ih
      exact ⟨_, _, ih.snapshot⟩

/-- **After a crash `Open` rebuilds the live index**: its keys, vectors, tombstones, levels, links
and entry point, everything but the generator, so that every search gives the same answer.  This
holds after every history of calls and snapshots, if the insertions since the last snapshot are
given the levels that they were given in the live run. -/
theorem recovers_graph {cfg : Config} {d : DurableIndex} (h : d.Ran cfg)
    (hlevels : ∀ base : Index UInt32, loadOrCreateIndex cfg d.dir = .ok base →
      SameLevels d.idx.params.M base.rng ⟨cfg.seed, base.store.count⟩
        (d.idx.store.count - base.store.count)) :
    ∃ d', openIndex cfg d.dir = .ok d' ∧ (∃ rng, d'.idx = { d.idx with rng }) ∧
      ∀ query k ef, d'.idx.search query k ef = d.idx.search query k ef := by
  obtain ⟨base, log, hm⟩ := h.mirrored
  obtain ⟨f, hwal, hholds⟩ := hm.wal
  have hgood := hm.baseStored.counted.good
  have hcap : Capacity base.params.maxElements (addedKeys log ∪ base.store.keys) := by
    left
    refine (Finset.card_le_card hm.keys).trans ?_
    rw [hm.stored.counted.good.card_keys, hm.params]
    exact hm.stored.counted.good.count_le.trans (min_le_left _ _)
  have happ : applyAll apply base (log.map Call.record) = .ok (live base log) :=
    applyAll_live log hm.sized ⟨fun k => hgood.mem_keys.symm, hgood.card_keys.symm⟩ hcap
  have hsame := hlevels base hm.load
  rw [← hm.params] at hsame
  obtain ⟨rng, hlive⟩ : ∃ rng, live base log = { d.idx with rng } := by
    have hstart : ∃ rng, live { ({ base with rng := ⟨cfg.seed, base.store.count⟩ } :
          Index UInt32) with rng := base.rng } log =
        { live { base with rng := ⟨cfg.seed, base.store.count⟩ } log with rng := rng } :=
      live_rng log hm.sized (by rw [hm.live]; exact hsame)
    rw [hm.live] at hstart
    exact hstart
  refine ⟨_, openIndex_of_holds hm.load hwal (List.append_nil _).symm hholds Wal.readRecord_nil happ,
    ⟨rng, hlive⟩, fun query k ef => ?_⟩
  show (live base log).search query k ef = d.idx.search query k ef
  rw [hlive]
  rfl

end

open Hnsw.StandIn in
/-- An addition, a snapshot, and behind it in the log a second addition, which replay links to the
first, and a deletion. -/
theorem recovers_graph_small :
    let d := ((((DurableIndex.fresh twoParams 0).perform (.add [5] ⟨1, 1⟩) .done).1.snapshot.1.perform
      (.add [6] ⟨1, 2⟩) .done).1.perform (.markDeleted ⟨1, 1⟩) .done).1
    ∃ d', openIndex twoConfig d.dir = .ok d' ∧ (∃ rng, d'.idx = { d.idx with rng }) ∧
      ∀ query k ef, d'.idx.search query k ef = d.idx.search query k ef := by
  intro d
  have hfresh : (DurableIndex.fresh twoParams 0).Ran twoConfig := .opened rfl
  have hfirst := hfresh.call (c := .add [5] ⟨1, 1⟩)
    ⟨by rintro vec key ⟨⟩; rfl, by decide, fun _ => Or.inr (by decide)⟩ (by decide +kernel)
  have hsecond := hfirst.snapshot.call (c := .add [6] ⟨1, 2⟩)
    ⟨by rintro vec key ⟨⟩; rfl, by decide, fun _ => Or.inr (by decide +kernel)⟩ (by decide +kernel)
  have hmark := hsecond.call (c := .markDeleted ⟨1, 1⟩)
    ⟨by rintro vec key ⟨⟩, Or.inr rfl, fun h => nomatch h⟩ (by decide +kernel)
  exact recovers_graph hmark fun base _ j _ => rfl

/-! ### An Add above the limit of the reader -/

section
variable [Platform UInt32]

/-- A single `Add` above the limit is not recovered. -/
theorem not_recovers_of_oversized {cfg : Config} {p : Params}
    (hp : Hnsw.mkParams cfg.space cfg.dim cfg.maxElements cfg.M cfg.efConstruction = .ok p)
    {c : Call} (hsized : c.Sized p.dim) (hadd : c.isAdd = true) (hfits : ¬ Fits p.dim) :
    ¬ Recovers cfg ((DurableIndex.fresh p cfg.seed).perform c .done).1 := by
  intro hrec
  have hall : ∀ c' ∈ [c], c'.Sized p.dim := List.forall_mem_singleton.mpr hsized
  have hempty := (fits_of_recovers hp hall hrec).resolve_left hfits
  rw [addedKeys_cons, addedKeys_nil, Finset.union_empty, Call.added, if_pos hadd] at hempty
  exact Finset.singleton_ne_empty _ hempty

/-- The first `Add` of an index returns nil. -/
theorem first_add_ok (p : Params) (seed : UInt64) {vec : Wal.Vec} (hlen : vec.length = p.dim)
    (key : Label) : ((DurableIndex.fresh p seed).perform (.add vec key) .done).2 = .ok () := by
  have hsized : (Call.add vec key).Sized p.dim := by
    rintro vec' key' ⟨⟩
    exact hlen
  have henc : Wal.encode (Call.add vec key).record = .ok _ :=
    (Wal.encode_eq_ok_iff _ _).mpr ⟨rule_record p.dim_pos hsized, rfl⟩
  have hroom : (Index.new p seed : Index UInt32).store.count < p.room :=
    lt_min p.maxElements_pos (Nat.two_pow_pos 32)
  have hadd : (Call.onStore p (Index.new p seed : Index UInt32).store (.add vec key)).2 = .ok () := by
    simp only [Call.onStore, Store.add_of_room vec rfl hroom]
  have hres : ((Call.add vec key).onIndex (DurableIndex.fresh p seed).idx).2 = .ok () :=
    (onIndex_eq hsized).2.2.trans hadd
  rw [perform_done rfl rfl henc, hres]

/-- An index that differs only in its generator has the same keys. -/
theorem not_same_of_not_recovers {cfg : Config} {d : DurableIndex} (h : ¬ Recovers cfg d) :
    ¬ ∃ d' rng, openIndex cfg d.dir = .ok d' ∧ d'.idx = { d.idx with rng } := by
  rintro ⟨d', rng, hd', hidx⟩
  exact h ⟨d', hd', by rw [hidx]⟩

end

/-- A configuration in which the record of an `Add` is above the limit of the reader, and the
parameters it gives. -/
def hugeConfig : Config := ⟨.l2, 2 ^ 22, 1, 2, 2, 0⟩

def hugeParams : Params :=
  { Params.smallest with
    dim := 2 ^ 22
    dim_pos := by decide
    dim_lt := by decide }

theorem mkParams_huge : Hnsw.mkParams hugeConfig.space hugeConfig.dim hugeConfig.maxElements
    hugeConfig.M hugeConfig.efConstruction = .ok hugeParams := rfl

open Hnsw.StandIn in
/-- In an index of dimension `2 ^ 22` an `Add` returns nil, and no recovered index has its vector. -/
theorem wide_vector_lost :
    openIndex hugeConfig Dir.empty = .ok (DurableIndex.fresh hugeParams 0) ∧
      ((DurableIndex.fresh hugeParams 0).perform
        (.add (List.replicate (2 ^ 22) 0) ⟨1, 1⟩) .done).2 = .ok () ∧
      ¬ ∃ d' rng, openIndex hugeConfig ((DurableIndex.fresh hugeParams 0).perform
            (.add (List.replicate (2 ^ 22) 0) ⟨1, 1⟩) .done).1.dir = .ok d' ∧
          d'.idx = { ((DurableIndex.fresh hugeParams 0).perform
            (.add (List.replicate (2 ^ 22) 0) ⟨1, 1⟩) .done).1.idx with rng } := by
  have hlen : (List.replicate (2 ^ 22) (0 : UInt32)).length = hugeParams.dim :=
    List.length_replicate
  refine ⟨openIndex_of_replay (loadOrCreateIndex_empty mkParams_huge rfl) rfl,
    first_add_ok hugeParams 0 hlen ⟨1, 1⟩, not_same_of_not_recovers ?_⟩
  refine not_recovers_of_oversized mkParams_huge ?_ rfl ?_
  · rintro vec key ⟨⟩
    exact hlen
  · have hdim : hugeParams.dim = 2 ^ 22 := rfl
    rw [Fits, hdim, Wal.maxPayloadLen]
    omega

end VectorSearch.Durable
