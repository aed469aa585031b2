import VectorSearch.Wal.RoundTrip
import VectorSearch.Durable.Refinement

/-! # Process crashes between calls

A history of calls on a fresh directory, without an I/O error and without a snapshot.  Every call
is logged before the index has accepted it, so the log holds the records of all of them
(`performAll_eq`), the refused ones included.

Replay goes through the same stores as the live run as long as no `Add` finds the index full
(`applyAll_live`), and stops with an error at the first that does (`card_le_of_applyAll`).  When
the payload of an `Add` is above the limit of the reader, replay registers no key at all
(`hasLabel_of_applyAll`).  So `recovers_iff` says exactly which histories come back. -/

open ByteCodec

namespace VectorSearch.Durable

open Wal (Record opAdd opMarkDeleted opUnmarkDeleted KnownOp AppendIO Loggable Holds applyAll
  appendAll records)
open Hnsw (Label Index Platform Params Store)

/-! ### Counting keys -/

/-- The registered labels are exactly those of `K`, and each has raised the count by one. -/
def Tracks (s : Store UInt32) (K : Finset Label) : Prop :=
  (∀ k, s.hasLabel k = true ↔ k ∈ K) ∧ s.count = K.card

theorem tracks_empty : Tracks (Store.empty UInt32) ∅ :=
  ⟨fun k => iff_of_false Bool.false_ne_true (Finset.notMem_empty k), rfl⟩

/-- The keys of `K` can all be there: they fit in the index, or ids wrap round below its size. -/
def Capacity (maxElements : ℕ) (K : Finset Label) : Prop :=
  K.card ≤ maxElements ∨ 2 ^ 32 ≤ maxElements

theorem Tracks.hasRoom {p : Params} {s : Store UInt32} {K : Finset Label} (h : Tracks s K)
    {c : Call} (hcap : Capacity p.maxElements (c.added ∪ K)) : c.HasRoom p s := by
  intro hadd
  by_cases hk : c.key ∈ K
  · exact Or.inl ((h.1 _).mpr hk)
  · right
    obtain hcap | hcap := hcap
    · rw [Call.added, if_pos hadd, Finset.singleton_union, Finset.card_insert_of_notMem hk,
        ← h.2] at hcap
      exact lt_of_le_of_lt (Nat.mod_le _ _) hcap
    · exact lt_of_lt_of_le (Nat.mod_lt _ (by decide)) hcap

/-- In an index smaller than the id space, room means that the capacity is not exceeded. -/
theorem Tracks.card_le {p : Params} {s : Store UInt32} {K : Finset Label} (h : Tracks s K)
    (hsmall : p.maxElements < 2 ^ 32) (hK : K.card ≤ p.maxElements) {c : Call}
    (hroom : c.HasRoom p s) : (c.added ∪ K).card ≤ p.maxElements := by
  by_cases hadd : c.isAdd = true
  · rw [Call.added, if_pos hadd, Finset.singleton_union]
    obtain hk | hlt := hroom hadd
    · rw [Finset.insert_eq_self.mpr ((h.1 _).mp hk)]
      exact hK
    · rw [Nat.mod_eq_of_lt (by rw [h.2]; omega), h.2] at hlt
      exact (Finset.card_insert_le _ _).trans hlt
  · rw [Call.added, if_neg hadd, Finset.empty_union]
    exact hK

section
variable [Platform UInt32]

/-! ### What a history logs -/

/-- The index after a sequence of calls. -/
def live (idx : Index UInt32) (cs : List Call) : Index UInt32 :=
  cs.foldl (fun idx c => (c.onIndex idx).1) idx

/-- `Open` succeeds on what a crash leaves, and gives back the map of the live index. -/
def Recovers (cfg : Config) (d : DurableIndex) : Prop :=
  ∃ d', openIndex cfg d.dir = .ok d' ∧ d'.idx.store.keyMap = d.idx.store.keyMap

theorem perform_done {d : DurableIndex} {f : DurableFile} (hopen : d.walOpen = true)
    (hwal : d.dir.wal = some f) {c : Call} {b : Bytes} (henc : Wal.encode c.record = .ok b) :
    d.perform c .done =
      (⟨(c.onIndex d.idx).1, { d.dir with wal := some (Wal.append f c.record .done).1 }, true⟩,
        match (c.onIndex d.idx).2 with
        | .ok _ => .ok ()
        | .error e => .error (c.error e)) := by
  have happ : (Wal.append f c.record .done).2 = .ok () := by rw [Wal.append_done henc]
  cases hres : (c.onIndex d.idx).2 <;>
    simp only [DurableIndex.perform, DurableIndex.appendWAL, hopen, hwal, happ, hres]

/-- The index and the log after a history. -/
theorem performAll_eq {dim : ℕ} (hdim : 0 < dim) : ∀ (cs : List Call) {d : DurableIndex}
    {f : DurableFile}, (∀ c ∈ cs, c.Sized dim) → d.walOpen = true → d.dir.wal = some f →
      d.performAll cs =
        ⟨live d.idx cs, { d.dir with wal := some (appendAll f (cs.map Call.record)) }, true⟩
  | [], d, f, _, hopen, hwal => by
      obtain ⟨idx, dir, o⟩ := d
      obtain ⟨_, _, _, _⟩ := dir
      cases hopen
      cases hwal
      rfl
  | c :: cs, d, f, hsized, hopen, hwal => by
      have hc := hsized c List.mem_cons_self
      have henc : Wal.encode c.record = .ok _ :=
        (Wal.encode_eq_ok_iff _ _).mpr ⟨rule_record hdim hc, rfl⟩
      have ih := performAll_eq hdim cs (d := (d.perform c .done).1)
        (f := (Wal.append f c.record .done).1) (fun c' h => hsized c' (List.mem_cons_of_mem _ h))
        (by rw [perform_done hopen hwal henc]) (by rw [perform_done hopen hwal henc])
      rw [perform_done hopen hwal henc] at ih
      rw [DurableIndex.performAll, List.foldl_cons, ← DurableIndex.performAll,
        perform_done hopen hwal henc, ih]
      rfl

/-! ### Replaying a history -/

/-- One call: with room its key is there afterwards, without room nothing changes. -/
theorem Tracks.onStore {p : Params} {s : Store UInt32} {K : Finset Label} (h : Tracks s K)
    (c : Call) :
    (c.HasRoom p s → Tracks (c.onStore p s).1 (c.added ∪ K)) ∧
      (¬ c.HasRoom p s → Tracks (c.onStore p s).1 K) := by
  obtain ⟨hmem, hcount⟩ := h
  cases c with
  | add vec key =>
      have hadded : (Call.add vec key).added ∪ K = insert key K := rfl
      rw [hadded]
      cases hk : s.hasLabel key with
      | true =>
          have hin : insert key K = K := Finset.insert_eq_self.mpr ((hmem key).mp hk)
          simp only [Call.onStore, Store.add_of_hasLabel p vec hk, hin]
          exact ⟨fun _ => ⟨hmem, hcount⟩, fun _ => ⟨hmem, hcount⟩⟩
      | false =>
          have hnot : key ∉ K := fun h => Bool.false_ne_true (hk.symm.trans ((hmem key).mpr h))
          obtain hlt | hfull := Nat.lt_or_ge (s.count % 2 ^ 32) p.maxElements
          · refine ⟨fun _ => ?_, fun hno => absurd (fun _ => Or.inr hlt) hno⟩
            simp only [Call.onStore, Store.add_of_lt vec hk hlt]
            refine ⟨fun k => ?_, ?_⟩
            · rw [Finset.mem_insert, ← hmem k]
              exact Store.hasLabel_registerLabel _ _
            · rw [Finset.card_insert_of_notMem hnot, ← hcount]
              rfl
          · refine ⟨fun hroom => ?_, fun _ => ?_⟩
            · obtain h | h := hroom rfl
              · exact absurd (hk.symm.trans h) Bool.false_ne_true
              · omega
            · simp only [Call.onStore, Store.add_of_full vec hk hfull]
              exact ⟨hmem, hcount⟩
  | markDeleted key =>
      have hsame : Tracks (s.markDeleted key).1 K :=
        ⟨fun k => by rw [Store.hasLabel_markDeleted]; exact hmem k,
          by rw [Store.count_markDeleted, hcount]⟩
      exact ⟨fun _ => (Finset.empty_union K).symm ▸ hsame, fun _ => hsame⟩
  | unmarkDeleted key =>
      have hsame : Tracks (s.unmarkDeleted key).1 K :=
        ⟨fun k => by rw [Store.hasLabel_unmarkDeleted]; exact hmem k,
          by rw [Store.count_unmarkDeleted, hcount]⟩
      exact ⟨fun _ => (Finset.empty_union K).symm ▸ hsame, fun _ => hsame⟩

/-- Without a full index, replay goes through the states of the live run. -/
theorem applyAll_live : ∀ (cs : List Call) {idx : Index UInt32} {K : Finset Label},
    (∀ c ∈ cs, c.Sized idx.params.dim) → Tracks idx.store K →
      Capacity idx.params.maxElements (addedKeys cs ∪ K) →
        applyAll apply idx (cs.map Call.record) = .ok (live idx cs)
  | [], _, _, _, _, _ => rfl
  | c :: cs, idx, K, hsized, htracks, hcap => by
      have hc := hsized c List.mem_cons_self
      obtain ⟨hparams, hstore, -⟩ := onIndex_eq hc
      have hle : c.added ∪ K ⊆ addedKeys (c :: cs) ∪ K := by
        rw [addedKeys_cons]
        exact Finset.union_subset_union Finset.subset_union_left (Finset.Subset.refl K)
      have hroom : c.HasRoom idx.params idx.store := htracks.hasRoom
        (hcap.imp (fun h => (Finset.card_le_card hle).trans h) id)
      have hnext : addedKeys (c :: cs) ∪ K = addedKeys cs ∪ (c.added ∪ K) := by
        rw [addedKeys_cons, Finset.union_comm c.added, Finset.union_assoc]
      rw [List.map_cons, Wal.applyAll_cons, apply_record hc hroom]
      refine applyAll_live cs (K := c.added ∪ K) ?_ ?_ ?_
      · intro c' h
        rw [hparams]
        exact hsized c' (List.mem_cons_of_mem _ h)
      · rw [hstore]
        exact (htracks.onStore c).1 hroom
      · rw [hparams, ← hnext]
        exact hcap

/-- A replay that succeeds has not run into a full index. -/
theorem card_le_of_applyAll : ∀ (cs : List Call) {idx idx' : Index UInt32} {K : Finset Label},
    (∀ c ∈ cs, c.Sized idx.params.dim) → Tracks idx.store K → idx.params.maxElements < 2 ^ 32 →
      K.card ≤ idx.params.maxElements → applyAll apply idx (cs.map Call.record) = .ok idx' →
        (addedKeys cs ∪ K).card ≤ idx.params.maxElements
  | [], _, _, K, _, _, _, hK, _ => by rwa [addedKeys_nil, Finset.empty_union]
  | c :: cs, idx, idx', K, hsized, htracks, hsmall, hK, happ => by
      have hc := hsized c List.mem_cons_self
      obtain ⟨hparams, hstore, -⟩ := onIndex_eq hc
      have hroom : c.HasRoom idx.params idx.store := by
        cases h : apply idx c.record with
        | error e =>
            rw [List.map_cons, Wal.applyAll_cons, h] at happ
            cases happ
        | ok idx₁ =>
            have hroom := hasRoom_of_apply (known_record c) h
            rwa [callOf_record] at hroom
      rw [List.map_cons, Wal.applyAll_cons, apply_record hc hroom] at happ
      have hnext : addedKeys (c :: cs) ∪ K = addedKeys cs ∪ (c.added ∪ K) := by
        rw [addedKeys_cons, Finset.union_comm c.added, Finset.union_assoc]
      have ih := card_le_of_applyAll cs (K := c.added ∪ K)
        (fun c' h => by rw [hparams]; exact hsized c' (List.mem_cons_of_mem _ h))
        (by rw [hstore]; exact (htracks.onStore c).1 hroom) (by rw [hparams]; exact hsmall)
        (by rw [hparams]; exact htracks.card_le hsmall hK hroom) happ
      rw [hparams] at ih
      rwa [hnext]

/-- A replay that succeeds has found room for every key, and vectors of the right dimension. -/
theorem tracks_of_applyAll : ∀ (rs : List Record) {idx idx' : Index UInt32} {K : Finset Label},
    (∀ r ∈ rs, KnownOp r.op) → Tracks idx.store K → applyAll apply idx rs = .ok idx' →
      (∀ r ∈ rs, Benign idx.params r) ∧ Tracks idx'.store (addedKeys (rs.map callOf) ∪ K)
  | [], idx, idx', K, _, htracks, happ => by
      cases happ
      exact ⟨nofun, by rwa [List.map_nil, addedKeys_nil, Finset.empty_union]⟩
  | r :: rs, idx, idx', K, hop, htracks, happ => by
      have hr := hop r List.mem_cons_self
      rw [Wal.applyAll_cons] at happ
      cases h : apply idx r with
      | error e =>
          rw [h] at happ
          cases happ
      | ok idx₁ =>
          rw [h] at happ
          have hsized := sized_of_apply hr h
          have hroom := hasRoom_of_apply hr h
          rw [apply_of_hasRoom hr hsized hroom] at h
          obtain rfl := Except.ok.inj h
          obtain ⟨hparams, hstore, -⟩ := onIndex_eq hsized
          obtain ⟨hbenign, htracks'⟩ := tracks_of_applyAll rs
            (fun r' h' => hop r' (List.mem_cons_of_mem _ h'))
            (by rw [hstore]; exact (htracks.onStore _).1 hroom) happ
          rw [hparams] at hbenign
          refine ⟨fun r' h' => ?_, ?_⟩
          · obtain rfl | h' := List.mem_cons.mp h'
            · exact ⟨hr, hsized⟩
            · exact hbenign r' h'
          · rwa [List.map_cons, addedKeys_cons, Finset.union_comm (callOf r).added,
              Finset.union_assoc]

/-- When no `Add` fits in a record, a record that the reader lets through registers nothing. -/
theorem hasLabel_apply {idx idx' : Index UInt32} {r : Record} (hfits : ¬ Fits idx.params.dim)
    (hop : KnownOp r.op) (hlen : 21 + r.vector.length * 4 ≤ Wal.maxPayloadLen)
    (happ : apply idx r = .ok idx') (k : Label) :
    idx'.store.hasLabel k = idx.store.hasLabel k := by
  have hsized := sized_of_apply hop happ
  have hadd : r.op ≠ opAdd := by
    intro hadd
    have hcall : callOf r = .add r.vector (keyOf r) := if_pos hadd
    rw [hsized _ _ hcall] at hlen
    exact hfits hlen
  rw [apply_of_hasRoom hop hsized (hasRoom_of_apply hop happ)] at happ
  obtain rfl := Except.ok.inj happ
  obtain ⟨-, hstore, -⟩ := onIndex_eq hsized
  rw [hstore, callOf, if_neg hadd]
  split_ifs
  · exact Store.hasLabel_markDeleted _ _ _
  · exact Store.hasLabel_unmarkDeleted _ _ _

/-- A replay of such records neither. -/
theorem hasLabel_of_applyAll {dim : ℕ} (hfits : ¬ Fits dim) :
    ∀ (rs : List Record) {idx idx' : Index UInt32}, idx.params.dim = dim →
      (∀ r ∈ rs, KnownOp r.op ∧ 21 + r.vector.length * 4 ≤ Wal.maxPayloadLen) →
        applyAll apply idx rs = .ok idx' → ∀ k, idx'.store.hasLabel k = idx.store.hasLabel k
  | [], _, _, _, _, happ => by
      cases happ
      exact fun k => rfl
  | r :: rs, idx, idx', hdim, hrs, happ => by
      obtain ⟨hop, hlen⟩ := hrs r List.mem_cons_self
      rw [Wal.applyAll_cons] at happ
      cases h : apply idx r with
      | error e =>
          rw [h] at happ
          cases happ
      | ok idx₁ =>
          rw [h] at happ
          intro k
          have hrest := hasLabel_of_applyAll hfits rs (by rw [params_apply h, hdim])
            (fun r' h' => hrs r' (List.mem_cons_of_mem _ h')) happ k
          exact hrest.trans (hasLabel_apply (hdim ▸ hfits) hop hlen h k)

/-- Then `Open` finds the labels of the snapshot. -/
theorem hasLabel_openIndex {cfg : Config} {dir : Dir} {d : DurableIndex} {base : Index UInt32}
    (hopen : openIndex cfg dir = .ok d) (hload : loadOrCreateIndex cfg dir = .ok base)
    (hfits : ¬ Fits base.params.dim) (k : Label) :
    d.idx.store.hasLabel k = base.store.hasLabel k := by
  obtain ⟨idx, rs, f, hload', happ, -, -, hrs, hnone⟩ := openIndex_wal hopen
  obtain rfl : idx = base := Except.ok.inj (hload'.symm.trans hload)
  exact hasLabel_of_applyAll hfits rs rfl (known_fits_of_read hrs hnone) happ k

/-- The live run keeps the labels it has, and an `Add` leaves at least one. -/
theorem exists_tracks_live : ∀ (cs : List Call) (idx : Index UInt32) {K : Finset Label},
    (∀ c ∈ cs, c.Sized idx.params.dim) → Tracks idx.store K →
      ∃ K', Tracks (live idx cs).store K' ∧ K ⊆ K' ∧ (addedKeys cs ≠ ∅ → K' ≠ ∅)
  | [], _, K, _, htracks => ⟨K, htracks, Finset.Subset.refl K, fun h => absurd rfl h⟩
  | c :: cs, idx, K, hsized, htracks => by
      have hc := hsized c List.mem_cons_self
      obtain ⟨hparams, hstore, -⟩ := onIndex_eq hc
      obtain ⟨hwith, hwithout⟩ := htracks.onStore (p := idx.params) c
      have hstep : ∃ K₁, Tracks (c.onIndex idx).1.store K₁ ∧ K ⊆ K₁ ∧ (c.isAdd = true → K₁ ≠ ∅) := by
        rw [hstore]
        by_cases hroom : c.HasRoom idx.params idx.store
        · refine ⟨_, hwith hroom, Finset.subset_union_right, fun hadd => ?_⟩
          rw [Call.added, if_pos hadd, Finset.singleton_union]
          exact Finset.insert_ne_empty _ _
        · refine ⟨K, hwithout hroom, Finset.Subset.refl K, fun _ => ?_⟩
          -- a full index is not empty
          rintro rfl
          refine hroom fun _ => Or.inr ?_
          rw [htracks.2, Finset.card_empty, Nat.zero_mod]
          exact idx.params.maxElements_pos
      obtain ⟨K₁, htracks₁, hsub₁, hne₁⟩ := hstep
      obtain ⟨K', htracks', hsub, hne⟩ := exists_tracks_live cs _
        (fun c' h => by rw [hparams]; exact hsized c' (List.mem_cons_of_mem _ h)) htracks₁
      refine ⟨K', htracks', hsub₁.trans hsub, fun hadded => ?_⟩
      rw [addedKeys_cons] at hadded
      by_cases hadd : c.isAdd = true
      · intro h0
        exact hne₁ hadd (Finset.subset_empty.mp (h0 ▸ hsub))
      · rw [Call.added, if_neg hadd, Finset.empty_union] at hadded
        exact hne hadded

/-! ### Recovery -/

omit [Platform UInt32] in
/-- The log of a history, when every record is within the limit of the reader. -/
theorem holds_history {p : Params} {history : List Call} (hsized : ∀ c ∈ history, c.Sized p.dim)
    (hfits : Fits p.dim ∨ addedKeys history = ∅) :
    Holds (appendAll Wal.newLog (history.map Call.record)).bytes (history.map Call.record) := by
  refine Wal.appendAll_loggable Wal.holds_newLog ?_
  intro r hr
  obtain ⟨c, hc, rfl⟩ := List.mem_map.mp hr
  exact loggable_record p.dim_pos (hsized c hc)
    (hfits.imp_right fun h => isAdd_of_addedKeys_eq_empty h hc)

/-- The handle after a history on a fresh directory. -/
theorem performAll_fresh {p : Params} (seed : UInt64) {history : List Call}
    (hsized : ∀ c ∈ history, c.Sized p.dim) :
    (DurableIndex.fresh p seed).performAll history =
      ⟨live (Index.new p seed) history,
        { Dir.empty with wal := some (appendAll Wal.newLog (history.map Call.record)) }, true⟩ :=
  performAll_eq p.dim_pos history hsized rfl rfl

/-- A recovered history had no `Add` record above the limit of the reader. -/
theorem fits_of_recovers {cfg : Config} {p : Params}
    (hp : Hnsw.mkParams cfg.space cfg.dim cfg.maxElements cfg.M cfg.efConstruction = .ok p)
    {history : List Call} (hsized : ∀ c ∈ history, c.Sized p.dim)
    (h : Recovers cfg ((DurableIndex.fresh p cfg.seed).performAll history)) :
    Fits p.dim ∨ addedKeys history = ∅ := by
  by_contra hno
  rw [not_or] at hno
  rw [performAll_fresh cfg.seed hsized] at h
  obtain ⟨d', hd', hmap⟩ := h
  obtain ⟨K, htracks, -, hne⟩ := exists_tracks_live history (Index.new p cfg.seed) hsized
    tracks_empty
  obtain ⟨k, hk⟩ := Finset.nonempty_iff_ne_empty.mpr (hne hno.2)
  have hrec := hasLabel_openIndex hd' (loadOrCreateIndex_empty hp rfl) hno.1 k
  have hlive := (htracks.1 k).mpr hk
  rw [← Store.isSome_keyMap] at hrec hlive
  rw [hmap] at hrec
  exact Bool.false_ne_true (hrec.symm.trans hlive)

/-- Replaying a history that fits on a fresh index. -/
theorem applyAll_history {p : Params} (seed : UInt64) {history : List Call}
    (hsized : ∀ c ∈ history, c.Sized p.dim) (hcap : Capacity p.maxElements (addedKeys history)) :
    applyAll apply (Index.new p seed) (history.map Call.record) =
      .ok (live (Index.new p seed) history) := by
  refine applyAll_live history hsized tracks_empty ?_
  rw [Finset.union_empty]
  exact hcap

/-- A history that fits is recovered. -/
theorem recovers_of_capacity {cfg : Config} {p : Params}
    (hp : Hnsw.mkParams cfg.space cfg.dim cfg.maxElements cfg.M cfg.efConstruction = .ok p)
    {history : List Call} (hsized : ∀ c ∈ history, c.Sized p.dim)
    (hcap : Capacity p.maxElements (addedKeys history))
    (hfits : Fits p.dim ∨ addedKeys history = ∅) :
    Recovers cfg ((DurableIndex.fresh p cfg.seed).performAll history) := by
  rw [performAll_fresh cfg.seed hsized]
  exact ⟨_, openIndex_of_holds (loadOrCreateIndex_empty hp rfl) rfl (List.append_nil _).symm
    (holds_history hsized hfits) Wal.readRecord_nil (applyAll_history cfg.seed hsized hcap), rfl⟩

/-- **A history is recovered exactly when no `Add` was answered `ErrFull` and the `Add` records
are within the limit of the reader**: on a fresh directory, `Open` after a crash succeeds and gives
back the live map if and only if the added keys fit in the index (or ids wrap round before they
could exceed it), and the payload of an `Add` is at most `maxPayloadLen` (or nothing is added). -/
theorem recovers_iff {cfg : Config} {d : DurableIndex} (hopen : openIndex cfg Dir.empty = .ok d)
    {history : List Call} (hsized : ∀ c ∈ history, c.Sized cfg.dim) :
    Recovers cfg (d.performAll history) ↔
      ((addedKeys history).card ≤ cfg.maxElements ∨ 2 ^ 32 ≤ cfg.maxElements) ∧
        (21 + cfg.dim * 4 ≤ Wal.maxPayloadLen ∨ addedKeys history = ∅) := by
  obtain ⟨p, hp, rfl⟩ := openIndex_empty hopen
  obtain ⟨-, hdim, hmax, -⟩ := Hnsw.mkParams_ok hp
  rw [← hdim] at hsized ⊢
  rw [← hmax]
  constructor
  · intro h
    have hfits := fits_of_recovers hp hsized h
    refine ⟨?_, hfits⟩
    obtain hsmall | hbig := Nat.lt_or_ge p.maxElements (2 ^ 32)
    · left
      rw [performAll_fresh cfg.seed hsized] at h
      obtain ⟨d', hd', -⟩ := h
      obtain ⟨idx, rs, f, hload, happ, -, -, hrs, -⟩ := openIndex_wal hd'
      obtain rfl : idx = Index.new p cfg.seed :=
        Except.ok.inj (hload.symm.trans (loadOrCreateIndex_empty hp rfl))
      rw [hrs _ rfl, (holds_history hsized hfits).records_drop] at happ
      have := card_le_of_applyAll history hsized tracks_empty hsmall (Nat.zero_le _) happ
      rwa [Finset.union_empty] at this
    · exact Or.inr hbig
  · rintro ⟨hcap, hfits⟩
    exact recovers_of_capacity hp hsized hcap hfits

end

/-- A configuration for concrete runs, and the parameters it gives. -/
def smallConfig : Config := ⟨.l2, 1, 1, 2, 2, 0⟩

def smallParams : Params := .smallest

/-- The same for two vectors. -/
def twoConfig : Config := ⟨.l2, 1, 2, 2, 2, 0⟩

def twoParams : Params :=
  { Params.smallest with
    maxElements := 2
    maxElements_pos := Params.smallest.M_pos
    maxElements_lt := Params.smallest.ef_lt }

open Hnsw.StandIn in
/-- An addition, its repetition and two deletions, of which the second is refused, come back. -/
theorem recovers_refused :
    Recovers smallConfig ((DurableIndex.fresh smallParams 0).performAll
      [.add [5] ⟨1, 1⟩, .add [6] ⟨1, 1⟩, .markDeleted ⟨1, 1⟩, .markDeleted ⟨1, 1⟩]) :=
  (recovers_iff (d := DurableIndex.fresh smallParams 0) rfl (by
    intro c hc vec key heq
    subst heq
    simp only [List.mem_cons, Call.add.injEq, reduceCtorEq, List.not_mem_nil, or_false] at hc
    rcases hc with ⟨rfl, -⟩ | ⟨rfl, -⟩ <;> rfl)).mpr (by decide)

open Hnsw.StandIn in
/-- In an index for one vector the second `Add` is answered `ErrFull`, but its record is in the
log, and every later `Open` stops at it. -/
theorem full_add_blocks_open :
    ((DurableIndex.fresh smallParams 0).perform (.add [5] ⟨1, 1⟩) .done).2 = .ok () ∧
      (((DurableIndex.fresh smallParams 0).performAll [.add [5] ⟨1, 1⟩]).perform
        (.add [6] ⟨1, 2⟩) .done).2 = .error (.indexAdd .full) ∧
      ¬ Recovers smallConfig ((DurableIndex.fresh smallParams 0).performAll
        [.add [5] ⟨1, 1⟩, .add [6] ⟨1, 2⟩]) := by
  refine ⟨by decide +kernel, by decide +kernel, ?_⟩
  have herr : (openIndex smallConfig ((DurableIndex.fresh smallParams 0).performAll
      [.add [5] ⟨1, 1⟩, .add [6] ⟨1, 2⟩]).dir).isOk = false := by decide +kernel
  rintro ⟨d', hd', -⟩
  rw [hd'] at herr
  cases herr

end VectorSearch.Durable
