import VectorSearch.Durable.CrashRecovery

/-! # Crashes inside Snapshot

A history of calls on a fresh directory, then `Snapshot`, cut off after any of its steps.
`interrupted_files` says which snapshot and which log a crash leaves: the old ones up to the first
rename, the new snapshot and the old log between the two renames, and the new ones afterwards.

Between the renames `Open` replays the whole log on a store that already has all its effects.
`survivesRotation_iff` says that this is harmless unless some key has a ghost deletion
(`GhostDelete`): a `MarkDeleted` that was refused because the key had not been added yet.  More keys
than 32-bit ids do not survive either: the labels behind the last id are never written, and the file
has only the labels. -/

open ByteCodec

namespace VectorSearch.Durable

open Wal (Record KnownOp Holds applyAll appendAll)
open Hnsw (Label Index Platform Params Store KeyOp KeyMap)

/-- The handle after the first `j` steps of `Snapshot`. -/
def DurableIndex.interrupted (d : DurableIndex) (j : ℕ) : DurableIndex :=
  (DurableIndex.runSteps (snapshotSteps.take j) d).1

/-- The calls on `k` end with a `MarkDeleted` in front of the first `Add` and nothing but `Add`s
behind it. -/
def GhostDelete (cs : List Call) (k : Label) : Prop :=
  ∃ pre post, (cs.filter fun c => c.key = k) = pre ++ .markDeleted k :: post ∧
    (∀ c ∈ pre, c.isAdd = false) ∧ post ≠ [] ∧ ∀ c ∈ post, c.isAdd = true

/-- The files a crash inside `Snapshot` leaves at the two paths. -/
theorem interrupted_files {d : DurableIndex} (hnew : d.dir.walNew = none) {j : ℕ}
    (hj : j ≤ snapshotSteps.length) :
    (d.interrupted j).dir.snapshot =
        (if j < 2 then d.dir.snapshot else some (DurableFile.empty.write d.idx.save)) ∧
      (d.interrupted j).dir.wal = if j < 8 then d.dir.wal else some Wal.newLog := by
  obtain ⟨idx, ⟨snapshot, tmp, wal, walNew⟩, o⟩ := d
  cases hnew
  have hj : j ≤ 9 := hj
  interval_cases j <;> exact ⟨rfl, rfl⟩

section
variable [Platform UInt32]

/-- `Open` on the directory succeeds and gives the key map `m`. -/
def RecoversTo (cfg : Config) (dir : Dir) (m : KeyMap UInt32) : Prop :=
  ∃ d', openIndex cfg dir = .ok d' ∧ d'.idx.store.keyMap = m

/-- A process crash between any two steps of `Snapshot` leaves the data as they were when it
started. -/
def SurvivesRotation (cfg : Config) (d : DurableIndex) : Prop :=
  ∀ j ≤ snapshotSteps.length, RecoversTo cfg (d.interrupted j).dir d.idx.store.keyMap

/-! ### Ghost deletions -/

/-- Ghost deletions, as the calls and as the operations on the key map show them. -/
theorem ghostDelete_iff (p : Params) (cs : List Call) (k : Label) :
    GhostDelete cs k ↔ KeyOp.Ghost (KeyMap.opsOn k (cs.map (Call.op p))) := by
  have hops : KeyMap.opsOn k (cs.map (Call.op p)) =
      (cs.filter fun c => c.key = k).map fun c => (c.op p).2 := by
    rw [KeyMap.opsOn, KeyedLog.on, List.filter_map, List.map_map]
    rfl
  rw [hops]
  constructor
  · rintro ⟨pre, post, hcs, hpre, hne, hpost⟩
    refine ⟨pre.map fun c => (c.op p).2, post.map fun c => (c.op p).2, ?_, ?_, ?_, ?_⟩
    · rw [hcs, List.map_append, List.map_cons]
      rfl
    · intro o ho
      obtain ⟨c, hc, rfl⟩ := List.mem_map.mp ho
      rw [isAdd_op]
      exact hpre c hc
    · rwa [ne_eq, List.map_eq_nil_iff]
    · intro o ho
      obtain ⟨c, hc, rfl⟩ := List.mem_map.mp ho
      rw [isAdd_op]
      exact hpost c hc
  · rintro ⟨pre, post, hcs, hpre, hne, hpost⟩
    obtain ⟨pre, rest, hcs', rfl, hrest⟩ := List.map_eq_append_iff.mp hcs
    obtain ⟨c, post, rfl, hc, rfl⟩ := List.map_eq_cons_iff.mp hrest
    have hkey : c.key = k := by
      have : c ∈ cs.filter fun c => c.key = k := by
        rw [hcs']
        simp
      simpa using (List.mem_filter.mp this).2
    obtain rfl : c = .markDeleted k := by
      cases c with
      | add vec key => cases hc
      | unmarkDeleted key => cases hc
      | markDeleted key =>
          rw [← hkey]
          rfl
    refine ⟨pre, post, hcs', fun c hc => ?_, ?_, fun c hc => ?_⟩
    · rw [← isAdd_op p]
      exact hpre _ (List.mem_map_of_mem hc)
    · rintro rfl
      exact hne rfl
    · rw [← isAdd_op p]
      exact hpost _ (List.mem_map_of_mem hc)

/-! ### Recovery -/

/-- The live index after a history that fits. -/
theorem live_good {p : Params} (seed : UInt64) {history : List Call}
    (hsized : ∀ c ∈ history, c.Sized p.dim) (hcap : (addedKeys history).card ≤ p.room) :
    (live (Index.new p seed) history).params = p ∧
      (live (Index.new p seed) history).store.Good p ∧
      (live (Index.new p seed) history).store.keyMap =
        KeyMap.run (fun _ => none) (history.map (Call.op p)) ∧
      (live (Index.new p seed) history).store.keys = addedKeys history := by
  have hroom : (addedKeys history ∪ (Index.new p seed : Index UInt32).store.keys).card ≤ p.room :=
    (Finset.union_empty (addedKeys history)).symm ▸ hcap
  obtain ⟨idx', happ, hparams, hgood, hmap, hkeys⟩ := applyAll_record (Index.new p seed)
    (Store.Good.empty p) hsized hroom
  have hlive := applyAll_history seed hsized (Or.inl (hcap.trans (min_le_left _ _)))
  obtain rfl := Except.ok.inj (happ.symm.trans hlive)
  exact ⟨hparams, hgood, hmap, hkeys.trans (Finset.union_empty _)⟩

/-- Replaying a history on the snapshot of the index that it led to. -/
theorem applyAll_reloaded {p : Params} (seed : UInt64) {history : List Call}
    (hsized : ∀ c ∈ history, c.Sized p.dim) (hcap : (addedKeys history).card ≤ p.room) :
    ∃ idx', applyAll apply (live (Index.new p seed) history).reloaded
        (history.map Call.record) = .ok idx' ∧
      idx'.store.keyMap =
        ((live (Index.new p seed) history).store.keyMap).run (history.map (Call.op p)) := by
  obtain ⟨hparams, hgood, hmap, hkeys⟩ := live_good seed hsized hcap
  have hgood₁ : (live (Index.new p seed) history).store.Good
      (live (Index.new p seed) history).params := by
    rw [hparams]
    exact hgood
  obtain ⟨hgood', hmap', hkeys'⟩ := Hnsw.reloaded_store hgood₁
  have hp : (live (Index.new p seed) history).reloaded.params = p := hparams
  obtain ⟨idx', happ, -, -, hmap'', -⟩ := applyAll_record
    (live (Index.new p seed) history).reloaded hgood' (by rw [hp]; exact hsized)
    (by rw [hp, hkeys', hkeys, Finset.union_self]; exact hcap)
  exact ⟨idx', happ, by rw [hmap'', hmap', hp]⟩

/-- With an id for every key a crash changes no data exactly when no key has a ghost deletion and the
`Add` records are within the limit of the reader. -/
theorem survives_iff_of_ids {cfg : Config} {p : Params}
    (hp : Hnsw.mkParams cfg.space cfg.dim cfg.maxElements cfg.M cfg.efConstruction = .ok p)
    {history : List Call} (hsized : ∀ c ∈ history, c.Sized p.dim)
    (hcap : (addedKeys history).card ≤ p.room) :
    SurvivesRotation cfg ((DurableIndex.fresh p cfg.seed).performAll history) ↔
      (Fits p.dim ∨ addedKeys history = ∅) ∧ ∀ k, ¬ GhostDelete history k := by
  obtain ⟨hparams, hgood, hmap, hkeys⟩ := live_good cfg.seed hsized hcap
  obtain ⟨idx', happ, hmap'⟩ := applyAll_reloaded cfg.seed hsized hcap
  set d₁ := (DurableIndex.fresh p cfg.seed).performAll history with hd₁
  have heq := performAll_fresh cfg.seed hsized
  rw [← hd₁] at heq
  have hidx : d₁.idx = live (Index.new p cfg.seed) history := by rw [heq]
  have hwal : d₁.dir.wal = some (appendAll Wal.newLog (history.map Call.record)) := by rw [heq]
  have hsnap : d₁.dir.snapshot = none := by rw [heq]; rfl
  have hfiles := fun {j : ℕ} (hj : j ≤ snapshotSteps.length) =>
    interrupted_files (d := d₁) (by rw [heq]; rfl) hj
  rw [← hidx] at hparams hgood hmap happ hmap'
  have hload : ∀ {dir : Dir}, dir.snapshot = some (DurableFile.empty.write d₁.idx.save) →
      loadOrCreateIndex cfg dir = .ok d₁.idx.reloaded := fun hdir =>
    loadOrCreateIndex_saved (by rw [hparams]; exact hgood) hdir rfl
  have hagain : d₁.idx.store.keyMap.run (history.map (Call.op p)) = d₁.idx.store.keyMap ↔
      ∀ k, ¬ GhostDelete history k := by
    simp only [ghostDelete_iff p]
    rw [hmap]
    exact KeyMap.run_twice _
  constructor
  · intro h
    have hfits := fits_of_recovers hp hsized (h 0 (Nat.zero_le _))
    refine ⟨hfits, hagain.mp ?_⟩
    -- after the first rename
    obtain ⟨hs, hw⟩ := hfiles (j := 2) (by decide)
    obtain ⟨d', hd', hmapd⟩ := h 2 (by decide)
    obtain ⟨idx, rs, f, hload', happ', -, -, hrs, -⟩ := openIndex_wal hd'
    obtain rfl : idx = d₁.idx.reloaded := Except.ok.inj (hload'.symm.trans (hload hs))
    rw [hrs _ (hw.trans hwal), (holds_history hsized hfits).records_drop, happ] at happ'
    rw [← hmap', Except.ok.inj happ', hmapd]
  · rintro ⟨hfits, hghost⟩ j hj
    obtain ⟨hs, hw⟩ := hfiles hj
    have hholds := holds_history hsized hfits
    obtain h2 | h2 := Nat.lt_or_ge j 2
    · rw [if_pos h2, hsnap] at hs
      rw [if_pos (by omega), hwal] at hw
      refine ⟨_, openIndex_of_holds (loadOrCreateIndex_empty hp hs) hw (List.append_nil _).symm
        hholds Wal.readRecord_nil
        (applyAll_history cfg.seed hsized (Or.inl (hcap.trans (min_le_left _ _)))), ?_⟩
      rw [hidx]
    · rw [if_neg (by omega)] at hs
      obtain h8 | h8 := Nat.lt_or_ge j 8
      · rw [if_pos h8, hwal] at hw
        refine ⟨_, openIndex_of_holds (hload hs) hw (List.append_nil _).symm hholds
          Wal.readRecord_nil happ, ?_⟩
        rw [← hagain.mpr hghost]
        exact hmap'
      · rw [if_neg (by omega)] at hw
        refine ⟨_, openIndex_of_holds (hload hs) hw (List.append_nil _).symm Wal.holds_newLog
          Wal.readRecord_nil rfl, ?_⟩
        exact (Hnsw.reloaded_store (by rw [hparams]; exact hgood)).2.1

/-! ### More keys than ids -/

omit [Platform UInt32] in
/-- The labels that no `idx_t` reaches are those of a new array. -/
def Unreached (s : Store UInt32) : Prop := ∀ i, 2 ^ 32 ≤ i → s.labels i = ⟨0, 0⟩

theorem Unreached.onStore {p : Params} {s : Store UInt32} (h : Unreached s) (c : Call) :
    Unreached (c.onStore p s).1 := by
  intro i hi
  cases c with
  | add vec key =>
      cases hk : s.hasLabel key with
      | true =>
          simp only [Call.onStore, Store.add_of_hasLabel p vec hk]
          exact h i hi
      | false =>
          obtain hlt | hfull := Nat.lt_or_ge (s.count % 2 ^ 32) p.maxElements
          · simp only [Call.onStore, Store.add_of_lt vec hk hlt]
            have hne : i ≠ s.count % 2 ^ 32 := by
              have := Nat.mod_lt s.count (Nat.two_pow_pos 32)
              omega
            exact (Function.update_of_ne hne _ _).trans (h i hi)
          · simp only [Call.onStore, Store.add_of_full vec hk hfull]
            exact h i hi
  | markDeleted key => exact (congrFun (Store.labels_markDeleted s key) i).trans (h i hi)
  | unmarkDeleted key => exact (congrFun (Store.labels_unmarkDeleted s key) i).trans (h i hi)

theorem Unreached.live : ∀ (cs : List Call) {idx : Index UInt32},
    (∀ c ∈ cs, c.Sized idx.params.dim) → Unreached idx.store → Unreached (live idx cs).store
  | [], _, _, h => h
  | c :: cs, idx, hsized, h => by
      obtain ⟨hparams, hstore, -⟩ := onIndex_eq (hsized c List.mem_cons_self)
      refine Unreached.live cs (fun c' hc => ?_) ?_
      · rw [hparams]
        exact hsized c' (List.mem_cons_of_mem _ hc)
      · rw [hstore]
        exact h.onStore c

omit [Platform UInt32] in
/-- The keys that come back from the file of an index are among the labels that its ids reach, and
the label of a new array. -/
theorem card_le_of_load {idx idx' : Index UInt32} {K : Finset Label} (htracks : Tracks idx.store K)
    (hunreached : Unreached idx.store) (hload : Hnsw.load idx.save = .ok idx')
    (hmap : idx'.store.keyMap = idx.store.keyMap) : K.card ≤ 2 ^ 32 + 1 := by
  have hlabel : ∀ k ∈ K, ∃ j < idx'.store.count, idx'.store.labels j = k := by
    intro k hk
    have hsome := (htracks.1 k).mpr hk
    rw [← Store.isSome_keyMap, ← hmap, Store.isSome_keyMap, Store.hasLabel,
      Option.isSome_iff_exists] at hsome
    obtain ⟨i, hi⟩ := hsome
    obtain ⟨-, -, -, hmap'⟩ := Hnsw.loadFields_eq_ok (Hnsw.load_save_eq idx ▸ hload)
    rw [hmap'] at hi
    exact Hnsw.label_of_labelMap hi
  have hcount : idx.store.count ≤ idx.params.maxElements := by
    obtain ⟨-, hle, -⟩ := Hnsw.loadFields_eq_ok (Hnsw.load_save_eq idx ▸ hload)
    rw [Hnsw.params_load_save hload] at hle
    have hsub : K ⊆ (Finset.range idx'.store.count).image idx'.store.labels := by
      intro k hk
      obtain ⟨j, hj, hjk⟩ := hlabel k hk
      exact Finset.mem_image.mpr ⟨j, Finset.mem_range.mpr hj, hjk⟩
    have hcard := (Finset.card_le_card hsub).trans Finset.card_image_le
    rw [Finset.card_range] at hcard
    rw [htracks.2]
    exact hcard.trans hle
  obtain rfl : idx' = idx.reloaded :=
    Except.ok.inj (hload.symm.trans (Hnsw.load_save idx hcount))
  have hsub : K ⊆ insert ⟨0, 0⟩ ((Finset.range (2 ^ 32)).image idx.store.labels) := by
    intro k hk
    obtain ⟨j, hj, rfl⟩ := hlabel k hk
    rw [Hnsw.count_reloaded_of_le hcount] at hj
    rw [Hnsw.labels_reloaded hj]
    obtain hlt | hge := Nat.lt_or_ge j (2 ^ 32)
    · exact Finset.mem_insert_of_mem
        (Finset.mem_image_of_mem _ (Finset.mem_range.mpr hlt))
    · rw [hunreached j hge]
      exact Finset.mem_insert_self _ _
  have himage := Finset.card_image_le (s := Finset.range (2 ^ 32)) (f := idx.store.labels)
  rw [Finset.card_range] at himage
  exact (Finset.card_le_card hsub).trans
    ((Finset.card_insert_le _ _).trans (Nat.succ_le_succ himage))

omit [Platform UInt32] in
theorem capacity_room {p : Params} {K : Finset Label} (hcap : Capacity p.maxElements K)
    (hids : K.card ≤ 2 ^ 32) : K.card ≤ p.room := by
  refine le_min ?_ hids
  obtain hle | hlarge := hcap
  · exact hle
  · exact hids.trans hlarge

/-- What survives a snapshot that is complete has at most one key more than there are ids. -/
theorem card_le_of_survives {cfg : Config} {p : Params} {history : List Call}
    (hsized : ∀ c ∈ history, c.Sized p.dim) (hcap : Capacity p.maxElements (addedKeys history))
    (h : SurvivesRotation cfg ((DurableIndex.fresh p cfg.seed).performAll history)) :
    (addedKeys history).card ≤ 2 ^ 32 + 1 := by
  have heq := performAll_fresh cfg.seed hsized
  set d₁ := (DurableIndex.fresh p cfg.seed).performAll history with hd₁
  obtain ⟨hs, hw⟩ := interrupted_files (d := d₁) (by rw [heq]; rfl) (le_refl snapshotSteps.length)
  obtain ⟨d', hd', hmap⟩ := h _ le_rfl
  obtain ⟨idx, rs, f, hload, happ, -, -, hrs, -⟩ := openIndex_wal hd'
  -- the new log is empty, so what is loaded is what comes back
  rw [hrs _ hw, Wal.holds_newLog.records_drop] at happ
  obtain rfl : idx = d'.idx := Except.ok.inj happ
  have hidx : d₁.idx = live (Index.new p cfg.seed) history := by rw [heq]
  have hsaved : Hnsw.load d₁.idx.save = .ok d'.idx := load_of_loadOrCreateIndex hs hload
  refine card_le_of_load ?_ ?_ hsaved hmap
  · have hknown : ∀ r ∈ history.map Call.record, KnownOp r.op := by
      intro r hr
      obtain ⟨c, -, rfl⟩ := List.mem_map.mp hr
      exact known_record c
    have hcalls : (history.map Call.record).map callOf = history := by
      rw [List.map_map]
      exact List.map_id'' callOf_record history
    obtain ⟨-, htracks⟩ := tracks_of_applyAll _ hknown tracks_empty
      (applyAll_history (p := p) cfg.seed hsized hcap)
    rw [hcalls, Finset.union_empty] at htracks
    rw [hidx]
    exact htracks
  · rw [hidx]
    exact Unreached.live history hsized fun _ _ => rfl

/-- **A crash inside Snapshot changes no data exactly when there are ids for all keys, no key has a
ghost deletion and the `Add` records are within the limit of the reader**: after any history on a
fresh directory that never finds the index full, `Open` recovers the key map that the index had when
`Snapshot` started, whatever the step after which the process died.  The exception are histories with
`2 ^ 32 + 1` keys, where the label of a new array can happen to be the key that is missing. -/
theorem survivesRotation_iff {cfg : Config} {d : DurableIndex}
    (hopen : openIndex cfg Dir.empty = .ok d) {history : List Call}
    (hsized : ∀ c ∈ history, c.Sized cfg.dim)
    (hcap : Capacity cfg.maxElements (addedKeys history)) :
    SurvivesRotation cfg (d.performAll history) ∧ (addedKeys history).card ≠ 2 ^ 32 + 1 ↔
      (addedKeys history).card ≤ 2 ^ 32 ∧
        (21 + cfg.dim * 4 ≤ Wal.maxPayloadLen ∨ addedKeys history = ∅) ∧
          ∀ k, ¬ GhostDelete history k := by
  obtain ⟨p, hp, rfl⟩ := openIndex_empty hopen
  obtain ⟨-, hdim, hmax, -⟩ := Hnsw.mkParams_ok hp
  rw [← hdim] at hsized ⊢
  rw [← hmax] at hcap
  constructor
  · rintro ⟨h, hne⟩
    have hids : (addedKeys history).card ≤ 2 ^ 32 := by
      have := card_le_of_survives hsized hcap h
      omega
    exact ⟨hids, (survives_iff_of_ids hp hsized (capacity_room hcap hids)).mp h⟩
  · rintro ⟨hids, h⟩
    exact ⟨(survives_iff_of_ids hp hsized (capacity_room hcap hids)).mpr h, by omega⟩

end

open Hnsw.StandIn in
/-- An addition, a refused revival and a refused addition survive a crash at every step. -/
theorem survivesRotation_refused :
    SurvivesRotation smallConfig ((DurableIndex.fresh smallParams 0).performAll
      [.add [5] ⟨1, 1⟩, .unmarkDeleted ⟨1, 1⟩, .add [6] ⟨1, 1⟩]) :=
  (survivesRotation_iff (d := DurableIndex.fresh smallParams 0) rfl (by
    intro c hc vec key heq
    subst heq
    simp only [List.mem_cons, Call.add.injEq, reduceCtorEq, List.not_mem_nil, or_false] at hc
    obtain ⟨rfl, -⟩ | h | ⟨rfl, -⟩ := hc
    · rfl
    · cases h
    · rfl) (Or.inl (by decide))).mpr ⟨by decide, by decide, by
    rintro k ⟨pre, post, hcs, -⟩
    have hmem : Call.markDeleted k ∈
        [Call.add [5] ⟨1, 1⟩, .unmarkDeleted ⟨1, 1⟩, .add [6] ⟨1, 1⟩].filter
          fun c => c.key = k := by
      rw [hcs]
      simp
    simpa using (List.mem_filter.mp hmem).1⟩ |>.1

open Hnsw.StandIn in
/-- A deletion that is refused because its key is not there, then the addition of the key: after a
crash between the two renames the key comes back deleted. -/
theorem refused_delete_comes_back :
    (((DurableIndex.fresh smallParams 0).perform (.markDeleted ⟨1, 1⟩) .done).2 =
        .error (.index .notFound)) ∧
      ((DurableIndex.fresh smallParams 0).performAll
        [.markDeleted ⟨1, 1⟩, .add [5] ⟨1, 1⟩]).idx.store.keyMap ⟨1, 1⟩ = some ([5], false) ∧
      ¬ SurvivesRotation smallConfig ((DurableIndex.fresh smallParams 0).performAll
        [.markDeleted ⟨1, 1⟩, .add [5] ⟨1, 1⟩]) := by
  have hlive : ((DurableIndex.fresh smallParams 0).performAll
      [.markDeleted ⟨1, 1⟩, .add [5] ⟨1, 1⟩]).idx.store.keyMap ⟨1, 1⟩ = some ([5], false) := by
    decide +kernel
  have hopen : ((openIndex smallConfig (((DurableIndex.fresh smallParams 0).performAll
      [.markDeleted ⟨1, 1⟩, .add [5] ⟨1, 1⟩]).interrupted 2).dir).toOption.map
        fun d => d.idx.store.keyMap ⟨1, 1⟩) = some (some ([5], true)) := by
    decide +kernel
  refine ⟨by decide +kernel, hlive, fun h => ?_⟩
  obtain ⟨d', hd', hmap⟩ := h 2 (by decide)
  rw [hd'] at hopen
  have hdel : d'.idx.store.keyMap ⟨1, 1⟩ = some ([5], true) := Option.some.inj hopen
  rw [hmap, hlive] at hdel
  cases hdel

end VectorSearch.Durable
