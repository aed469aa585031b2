import VectorSearch.Hnsw.SearchSound
import VectorSearch.Durable.Refinement
import VectorSearch.Shard.Server

/-! # The keys of a shard

What the handlers of a shard do to the entries of its keys.  A write that is refused, by the checks,
the log or the index, changes no entry; a write that goes through changes the entry of its key.

* `Sound.write`, and from it a lemma for each handler: a write adds at most its own key, and a
  tombstone stays unless its key is undeleted (`Kept`).
* `Sound.write_mark`: a deletion that is acknowledged finds a live entry and tombstones it.
* `Sound.search`: an answer has different keys, all with live entries. -/

namespace VectorSearch.Durable

open Hnsw (Index Label Platform)

section
variable [Platform UInt32]

/-- A call that is not applied leaves the index as it was. -/
theorem idx_perform (d : DurableIndex) (c : Call) (io : Wal.AppendIO) :
    ((d.perform c io).1.idx = d.idx ∧ (d.perform c io).2 ≠ .ok ()) ∨
      (d.perform c io).1.idx = (c.onIndex d.idx).1 ∧
        ((d.perform c io).2 = .ok () ↔ (c.onIndex d.idx).2 = .ok ()) := by
  have hidx : (d.appendWAL c.record io).1.idx = d.idx := by
    unfold DurableIndex.appendWAL
    split <;> rfl
  unfold DurableIndex.perform
  cases happ : d.appendWAL c.record io with
  | mk d' res =>
    rw [happ] at hidx
    cases res with
    | error e => exact Or.inl ⟨hidx, nofun⟩
    | ok u =>
      right
      rw [← hidx]
      refine ⟨rfl, ?_⟩
      simp only
      cases (c.onIndex d'.idx).2 with
      | ok u => exact iff_of_true rfl rfl
      | error e => exact iff_of_false (by simp) (by simp)

omit [Platform UInt32] in
theorem idx_runSteps : ∀ (ss : List SnapshotStep) (d : DurableIndex),
    (DurableIndex.runSteps ss d).1.idx = d.idx
  | [], _ => rfl
  | s :: ss, d => by
      unfold DurableIndex.runSteps
      cases h : s.perform d with
      | error e => rfl
      | ok d' =>
        have hstep : d'.idx = d.idx := by
          cases s <;> simp only [SnapshotStep.perform] at h
          case createNew =>
            split at h <;> cases h
            rfl
          all_goals
            cases h
            rfl
        exact (idx_runSteps ss d').trans hstep

omit [Platform UInt32] in
theorem idx_snapshot (d : DurableIndex) : d.snapshot.1.idx = d.idx := idx_runSteps snapshotSteps d

/-- A call changes nothing, or it is the operation on the entry of its key. -/
theorem onIndex_cases {idx : Index UInt32} (h : idx.store.Good idx.params) {c : Call}
    (hsized : c.Sized idx.params.dim)
    (hid : c.isAdd = true → idx.store.hasLabel c.key = true ∨ idx.store.count < 2 ^ 32) :
    (c.onIndex idx).1.store = idx.store ∨
      (c.onIndex idx).1.store.keyMap = idx.store.keyMap.apply (c.op idx.params) ∧
        (c.onIndex idx).1.store.keys = c.added ∪ idx.store.keys := by
  by_cases hroom : c.isAdd = true →
      idx.store.hasLabel c.key = true ∨ idx.store.count < idx.params.room
  · exact Or.inr (onIndex_good h hsized hroom).2.2
  · left
    obtain ⟨hadd, hno⟩ := Classical.not_imp.mp hroom
    obtain ⟨hlabel, hfull⟩ := not_or.mp hno
    cases c with
    | add vec key =>
      have hlt := (hid hadd).resolve_left hlabel
      have hmax : idx.params.maxElements ≤ idx.store.count % 2 ^ 32 := by
        rw [Hnsw.Params.room] at hfull
        rw [Nat.mod_eq_of_lt hlt]
        omega
      have hnew : idx.store.hasLabel key = false := Bool.eq_false_iff.mpr hlabel
      rw [(onIndex_eq hsized).2.1, Call.onStore, Hnsw.Store.add_of_full vec hnew hmax]
    | markDeleted key => cases hadd
    | unmarkDeleted key => cases hadd

theorem searchable_onIndex {idx : Index UInt32} (h : idx.Searchable) {c : Call}
    (hsized : c.Sized idx.params.dim)
    (hid : c.isAdd = true → idx.store.hasLabel c.key = true ∨ idx.store.count < 2 ^ 32) :
    (c.onIndex idx).1.Searchable := by
  cases c with
  | add vec key =>
    rw [Call.onIndex, Index.goAdd_of_length (hsized vec key rfl)]
    exact h.addPoint (hsized vec key rfl) (hid rfl)
  | markDeleted key =>
    rw [Call.onIndex, Index.goMarkDeleted_eq]
    exact h.with_store (h.wellFormed.store.markDeleted key).1 (Hnsw.Store.count_markDeleted _ _)
  | unmarkDeleted key =>
    rw [Call.onIndex, Index.goUnmarkDeleted_eq]
    exact h.with_store (h.wellFormed.store.unmarkDeleted key).1 (Hnsw.Store.count_unmarkDeleted _ _)

end

end VectorSearch.Durable

namespace VectorSearch.Hnsw

/-- What the Go package returns of a search. -/
theorem Index.goSearch_ok {F : Type} [Platform F] {idx : Index F} {query : List F} {k ef : ℕ}
    {results : List (Label × F)} (h : idx.goSearch query k ef = .ok results) :
    results.Sublist (idx.search query k (max ef k)) := by
  unfold goSearch hnswSearch at h
  simp only at h
  split_ifs at h
  cases h
  exact List.take_sublist _ _

/-- It returns everything if the number of results is an `int`. -/
theorem Index.goSearch_short {F : Type} [Platform F] {idx : Index F} {query : List F} {k ef : ℕ}
    {results : List (Label × F)} (h : idx.goSearch query k ef = .ok results)
    (hlt : (idx.search query k (max ef k)).length < 2 ^ 31) :
    results = idx.search query k (max ef k) := by
  unfold goSearch hnswSearch at h
  simp only at h
  split_ifs at h
  cases h
  rw [Int32.toInt_ofNat_of_lt hlt, Int.toNat_natCast, List.take_length]

end VectorSearch.Hnsw

namespace VectorSearch.Shard

open Durable (Call)
open Hnsw (Label Platform)
open Rpc (DeleteRequest InsertRequest ScoredKey SearchRequest)

namespace Server

/-- The vector and the tombstone of a key. -/
def entry (s : Server) (key : Label) : Option (List UInt32 × Bool) := s.idx.idx.store.keyMap key

/-- The index of the shard is in order. -/
def Sound (s : Server) : Prop := s.idx.idx.Searchable

/-- `Snapshot` -/
def snapshot (s : Server) : Server := { s with idx := s.idx.snapshot.1 }

section
variable [Platform UInt32] {s : Server} {c : Call} {op : String} {disk : Disk} {key : Label}

omit [Platform UInt32] in
theorem Sound.good (h : s.Sound) : s.idx.idx.store.Good s.idx.idx.params := h.wellFormed.store

omit [Platform UInt32] in
theorem isSome_entry (s : Server) (key : Label) :
    (s.entry key).isSome = s.idx.idx.store.hasLabel key := s.idx.idx.store.isSome_keyMap key

/-- From `s` to `s'` the shard stays in order, every new key is one of `new`, and every tombstone
stays but those of `revived`. -/
structure Kept (s s' : Server) (new revived : Label → Prop) : Prop where
  sound : s'.Sound
  keys : ∀ k, (s'.entry k).isSome → (s.entry k).isSome ∨ new k
  tombstones : ∀ k v, s.entry k = some (v, true) → ¬ revived k → s'.entry k = some (v, true)

omit [Platform UInt32] in
theorem Sound.kept (h : s.Sound) (new revived : Label → Prop) : Kept s s new revived :=
  ⟨h, fun _ hk => Or.inl hk, fun _ _ hv _ => hv⟩

omit [Platform UInt32] in
theorem Kept.imp {s' : Server} {new new' revived revived' : Label → Prop}
    (h : Kept s s' new revived) (hnew : ∀ k, new k → new' k)
    (hrev : ∀ k, revived k → revived' k) : Kept s s' new' revived' :=
  ⟨h.sound, fun k hk => (h.keys k hk).imp_right (hnew k), fun k v hv hno =>
    h.tombstones k v hv fun hr => hno (hrev k hr)⟩

/-- **A write** adds at most its own key and revives at most the key that it undeletes. -/
theorem Sound.write (h : s.Sound) (hsized : c.Sized s.idx.idx.params.dim)
    (hid : c.isAdd = true →
      s.idx.idx.store.hasLabel c.key = true ∨ s.idx.idx.store.count < 2 ^ 32) :
    Kept s (s.write c op disk).1 (fun k => c.isAdd = true ∧ k = c.key)
      (fun k => c = .unmarkDeleted k) := by
  have hidx : (s.write c op disk).1.idx.idx = s.idx.idx ∨
      (s.write c op disk).1.idx.idx = (c.onIndex s.idx.idx).1 :=
    (Durable.idx_perform s.idx c disk.io).imp And.left And.left
  obtain hidx | hidx := hidx
  · have hsame : (s.write c op disk).1.entry = s.entry := by
      unfold entry
      rw [hidx]
    refine ⟨?_, fun k hk => Or.inl (hsame ▸ hk), fun k v hv _ => hsame ▸ hv⟩
    unfold Sound
    rwa [hidx]
  have hsound : (s.write c op disk).1.Sound := by
    unfold Sound
    rw [hidx]
    exact Durable.searchable_onIndex h hsized hid
  obtain hstore | ⟨hmap, hkeys⟩ := Durable.onIndex_cases h.good hsized hid
  · have hsame : (s.write c op disk).1.entry = s.entry := by
      unfold entry
      rw [hidx, hstore]
    exact ⟨hsound, fun k hk => Or.inl (hsame ▸ hk), fun k v hv _ => hsame ▸ hv⟩
  have hop : c.op s.idx.idx.params = (c.key, (c.op s.idx.idx.params).2) := by cases c <;> rfl
  rw [← hidx, hop] at hmap
  have hentry : ∀ k, (s.write c op disk).1.entry k =
      s.idx.idx.store.keyMap.apply (c.key, (c.op s.idx.idx.params).2) k := congrFun hmap
  refine ⟨hsound, fun k hk => ?_, fun k v hv hne => ?_⟩
  · rw [isSome_entry, ← hsound.good.mem_keys, hidx, hkeys, Finset.mem_union,
      Durable.Call.added] at hk
    rw [isSome_entry, ← h.good.mem_keys]
    split_ifs at hk with hadd
    · exact hk.symm.imp_right fun hk => ⟨hadd, Finset.mem_singleton.mp hk⟩
    · exact hk.symm.imp_right fun hk => absurd hk (Finset.notMem_empty k)
  · rw [hentry]
    unfold entry at hv
    by_cases hkey : k = c.key
    · subst hkey
      rw [Hnsw.KeyMap.apply_same, hv]
      cases c with
      | add vec key => rfl
      | markDeleted key => rfl
      | unmarkDeleted key => exact absurd rfl hne
    · rw [Hnsw.KeyMap.apply_ne _ _ hkey, hv]

/-- **A deletion that is acknowledged** finds a live entry and tombstones it. -/
theorem Sound.write_mark (h : s.Sound) (hok : (s.write (.markDeleted key) op disk).2 = .ok ()) :
    ∃ v, s.entry key = some (v, false) ∧
      (s.write (.markDeleted key) op disk).1.entry key = some (v, true) := by
  have hwrite : (s.idx.perform (.markDeleted key) disk.io).2 = .ok () := by
    unfold Server.write at hok
    cases hres : (s.idx.perform (.markDeleted key) disk.io).2 with
    | ok u => rfl
    | error e =>
      rw [hres] at hok
      cases hok
  obtain ⟨-, hno⟩ | ⟨hidx, hiff⟩ := Durable.idx_perform s.idx (.markDeleted key) disk.io
  · exact absurd hwrite hno
  have hmark : (s.idx.idx.store.markDeleted key).2 = true := by
    have hres := hiff.mp hwrite
    rw [Call.onIndex, Hnsw.Index.goMarkDeleted_eq] at hres
    by_contra hfalse
    simp only [hfalse] at hres
    cases hres
  have hmap : (s.write (.markDeleted key) op disk).1.idx.idx.store.keyMap =
      s.idx.idx.store.keyMap.apply (key, .mark) := by
    have hstore : (s.write (.markDeleted key) op disk).1.idx.idx.store =
        (s.idx.idx.store.markDeleted key).1 := by
      rw [Server.write, hidx, Call.onIndex, Hnsw.Index.goMarkDeleted_eq]
    rw [hstore]
    exact (h.good.markDeleted key).2.1
  unfold entry
  rw [hmap, Hnsw.KeyMap.apply_same]
  cases hi : s.idx.idx.store.labelToId key with
  | none =>
    rw [Hnsw.Store.markDeleted_none hi] at hmark
    cases hmark
  | some i =>
    rw [Hnsw.Store.markDeleted_some hi] at hmark
    have hlive : s.idx.idx.store.deleted i = false := by
      by_contra hdel
      rw [if_pos (by simpa using hdel)] at hmark
      cases hmark
    rw [Hnsw.Store.keyMap_of_id hi, hlive]
    exact ⟨_, rfl, rfl⟩

/-- **An answer has different keys, all with live entries.** -/
theorem Sound.search (h : s.Sound) {req : SearchRequest} {l : List (ScoredKey UInt32)}
    (hl : s.search req = .ok l) :
    (l.map ScoredKey.key).Nodup ∧ ∀ x ∈ l, ∃ v, s.entry x.key = some (v, false) := by
  unfold Server.search at hl
  by_cases hquery : req.query.length = 0
  · rw [if_pos hquery] at hl
    cases hl
  by_cases hdim : req.query.length ≠ s.idx.idx.params.dim
  · rw [if_neg hquery, if_pos hdim] at hl
    cases hl
  by_cases hk : req.k = 0
  · rw [if_neg hquery, if_neg hdim, if_pos hk] at hl
    cases hl
  rw [if_neg hquery, if_neg hdim, if_neg hk] at hl
  have hpos : 0 < req.k.toNat := Nat.pos_of_ne_zero fun h0 => hk (UInt32.toNat_inj.mp h0)
  simp only at hl
  cases hres : s.idx.idx.goSearch req.query req.k.toNat
      (if req.ef = 0 then s.defaultEf else req.ef.toNat) with
  | error e =>
    rw [hres] at hl
    cases hl
  | ok results =>
    rw [hres] at hl
    cases hl
    have hsub := Hnsw.Index.goSearch_ok hres
    obtain ⟨hnodup, hlive⟩ := h.search_sound req.query hpos
    constructor
    · rw [List.map_map]
      exact hnodup.sublist (hsub.map _)
    · intro x hx
      obtain ⟨r, hr, rfl⟩ := List.mem_map.mp hx
      obtain ⟨id, hid, hlabel, hdel⟩ := hlive r (hsub.subset hr)
      have hreg := h.good.id_of_label hid
      rw [hlabel] at hreg
      exact ⟨_, (Hnsw.Store.keyMap_of_id hreg).trans (by rw [hdel])⟩

/-! ### The handlers -/

/-- `Insert`: the only new key is that of the request. -/
theorem Sound.insert (h : s.Sound) {req : InsertRequest}
    (hid : ∀ key, req.key = some key →
      s.idx.idx.store.hasLabel key = true ∨ s.idx.idx.store.count < 2 ^ 32) :
    Kept s (s.insert req disk).1 (fun k => req.key = some k) (fun _ => False) := by
  unfold Server.insert
  cases hkey : req.key with
  | none => exact h.kept _ _
  | some key =>
    simp only
    split_ifs with hempty hdim
    · exact h.kept _ _
    · exact h.kept _ _
    · have hsized : (Call.add req.vector key).Sized s.idx.idx.params.dim := by
        rintro vec key' ⟨⟩
        exact not_not.mp hdim
      refine (h.write hsized fun _ => hid key hkey).imp ?_ ?_
      · rintro k ⟨-, rfl⟩
        rfl
      · rintro k ⟨⟩

/-- `Delete` -/
theorem Sound.delete (h : s.Sound) (req : DeleteRequest) :
    Kept s (s.delete req disk).1 (fun _ => False) (fun _ => False) := by
  unfold Server.delete
  cases req.key with
  | none => exact h.kept _ _
  | some key =>
    refine (h.write (by rintro vec key' ⟨⟩) (by rintro ⟨⟩)).imp ?_ ?_
    · rintro k ⟨⟨⟩, -⟩
    · rintro k ⟨⟩

/-- `Undelete` revives at most the key of the request. -/
theorem Sound.undelete (h : s.Sound) (req : DeleteRequest) :
    Kept s (s.undelete req disk).1 (fun _ => False) (fun k => req.key = some k) := by
  unfold Server.undelete
  cases req.key with
  | none => exact h.kept _ _
  | some key =>
    refine (h.write (by rintro vec key' ⟨⟩) (by rintro ⟨⟩)).imp ?_ ?_
    · rintro k ⟨⟨⟩, -⟩
    · rintro k ⟨⟩
      rfl

omit [Platform UInt32] in
/-- `Snapshot` changes no entry. -/
theorem Sound.snapshot (h : s.Sound) :
    Kept s s.snapshot (fun _ => False) (fun _ => False) := by
  have hidx := Durable.idx_snapshot s.idx
  have hsame : s.snapshot.entry = s.entry := by
    unfold entry Server.snapshot
    rw [hidx]
  refine ⟨?_, fun k hk => Or.inl (hsame ▸ hk), fun k v hv _ => hsame ▸ hv⟩
  unfold Sound Server.snapshot
  rwa [hidx]

/-- A `Delete` that is acknowledged. -/
theorem Sound.delete_ok (h : s.Sound) (hok : (s.delete ⟨some key⟩ disk).2 = .ok ()) :
    ∃ v, s.entry key = some (v, false) ∧
      (s.delete ⟨some key⟩ disk).1.entry key = some (v, true) := h.write_mark hok

end

end Server

end VectorSearch.Shard
