import VectorSearch.Durable.Recovery

/-! # Calls and logs on key maps

On a good key store a call acts on the key map as the operation `Call.op`, provided that its key is
there or has room (`onIndex_good`).  So does the replay of its record, and the replay of a log is
the run of its operations (`applyAll_good`).  `Benign` are the records for which this holds: a
known op, and for an `Add` a vector of the dimension of the index. -/

open ByteCodec

namespace VectorSearch.Durable

open Wal (Record KnownOp Loggable applyAll)
open Hnsw (Label Index Platform Params Store KeyOp KeyMap)

/-! ### The keys that calls add -/

/-- The key of a call that adds. -/
def Call.added (c : Call) : Finset Label := if c.isAdd then {c.key} else ∅

/-- The keys of the `Add` calls. -/
def addedKeys (cs : List Call) : Finset Label := ((cs.filter Call.isAdd).map Call.key).toFinset

@[simp] theorem addedKeys_nil : addedKeys [] = ∅ := rfl

theorem addedKeys_cons (c : Call) (cs : List Call) :
    addedKeys (c :: cs) = c.added ∪ addedKeys cs := by
  unfold addedKeys Call.added
  by_cases h : c.isAdd = true
  · rw [List.filter_cons_of_pos h, List.map_cons, List.toFinset_cons, if_pos h,
      Finset.singleton_union]
  · rw [List.filter_cons_of_neg h, if_neg h, Finset.empty_union]

theorem isAdd_of_addedKeys_eq_empty {cs : List Call} (h : addedKeys cs = ∅) {c : Call}
    (hc : c ∈ cs) : c.isAdd = false := by
  by_contra hadd
  have hmem : c.key ∈ addedKeys cs := List.mem_toFinset.mpr
    (List.mem_map.mpr ⟨c, List.mem_filter.mpr ⟨hc, by simpa using hadd⟩, rfl⟩)
  rw [h] at hmem
  exact Finset.notMem_empty _ hmem

theorem map_callOf_record (cs : List Call) : (cs.map Call.record).map callOf = cs := by
  rw [List.map_map, Function.comp_def]
  simp only [callOf_record, List.map_id']

section
variable [Platform UInt32]

/-- The operation of a call on the key map. -/
def Call.op (p : Params) (c : Call) : Label × KeyOp UInt32 :=
  (c.key, match c with
    | .add vec _ => .add (p.prepare vec)
    | .markDeleted _ => .mark
    | .unmarkDeleted _ => .unmark)

theorem isAdd_op (p : Params) (c : Call) : (c.op p).2.isAdd = c.isAdd := by
  cases c <;> rfl

/-- **A call on a good index**, with room for its key. -/
theorem onIndex_good {idx : Index UInt32} (h : idx.store.Good idx.params) {c : Call}
    (hsized : c.Sized idx.params.dim)
    (hroom : c.isAdd = true → idx.store.hasLabel c.key = true ∨ idx.store.count < idx.params.room) :
    (c.onIndex idx).1.params = idx.params ∧
      (c.onIndex idx).1.store.Good idx.params ∧
      (c.onIndex idx).1.store.keyMap = idx.store.keyMap.apply (c.op idx.params) ∧
      (c.onIndex idx).1.store.keys = c.added ∪ idx.store.keys := by
  obtain ⟨hparams, hstore, -⟩ := onIndex_eq hsized
  rw [hparams, hstore]
  refine ⟨rfl, ?_⟩
  cases c with
  | add vec key =>
      obtain ⟨hgood, hmap, hkeys, -⟩ := h.add (hsized vec key rfl) (hroom rfl)
      exact ⟨hgood, hmap, hkeys⟩
  | markDeleted key =>
      obtain ⟨hgood, hmap, hkeys⟩ := h.markDeleted key
      exact ⟨hgood, hmap, hkeys.trans (Finset.empty_union _).symm⟩
  | unmarkDeleted key =>
      obtain ⟨hgood, hmap, hkeys⟩ := h.unmarkDeleted key
      exact ⟨hgood, hmap, hkeys.trans (Finset.empty_union _).symm⟩

omit [Platform UInt32] in
/-- Room for the key of a call, as replay and the live call look at it. -/
theorem hasRoom_of_lt_room {p : Params} {s : Store UInt32} {c : Call}
    (h : c.isAdd = true → s.hasLabel c.key = true ∨ s.count < p.room) : c.HasRoom p s := by
  intro hadd
  refine (h hadd).imp_right fun hlt => ?_
  rw [Params.room] at hlt
  rw [Nat.mod_eq_of_lt (by omega)]
  omega

/-! ### Logs -/

/-- A record that replay can apply to an index with parameters `p`. -/
def Benign (p : Params) (r : Record) : Prop := KnownOp r.op ∧ (callOf r).Sized p.dim

omit [Platform UInt32] in
theorem benign_record {p : Params} {c : Call} (h : c.Sized p.dim) : Benign p c.record :=
  ⟨known_record c, by rwa [callOf_record]⟩

/-- **Replaying a log on a good index**, when its keys and those it adds fit. -/
theorem applyAll_good : ∀ (rs : List Record) {idx : Index UInt32},
    idx.store.Good idx.params → (∀ r ∈ rs, Benign idx.params r) →
      (addedKeys (rs.map callOf) ∪ idx.store.keys).card ≤ idx.params.room →
        ∃ idx', applyAll apply idx rs = .ok idx' ∧ idx'.params = idx.params ∧
          idx'.store.Good idx.params ∧
          idx'.store.keyMap =
            idx.store.keyMap.run ((rs.map callOf).map (Call.op idx.params)) ∧
          idx'.store.keys = addedKeys (rs.map callOf) ∪ idx.store.keys
  | [], idx, hgood, _, _ => ⟨idx, rfl, rfl, hgood, rfl, (Finset.empty_union _).symm⟩
  | r :: rs, idx, hgood, hrs, hK => by
      have hr := hrs r List.mem_cons_self
      have hnext : addedKeys ((r :: rs).map callOf) ∪ idx.store.keys =
          addedKeys (rs.map callOf) ∪ ((callOf r).added ∪ idx.store.keys) := by
        rw [List.map_cons, addedKeys_cons, Finset.union_comm (callOf r).added, Finset.union_assoc]
      have hroom : (callOf r).isAdd = true →
          idx.store.hasLabel (callOf r).key = true ∨ idx.store.count < idx.params.room := by
        intro hadd
        refine hgood.has_or_room Finset.subset_union_right hK ?_
        rw [List.map_cons, addedKeys_cons, Call.added, if_pos hadd]
        simp
      obtain ⟨hparams, hgood₁, hmap₁, hkeys₁⟩ := onIndex_good hgood hr.2 hroom
      obtain ⟨idx', happ, hparams', hgood', hmap', hkeys'⟩ := applyAll_good rs
        (by rw [hparams]; exact hgood₁)
        (fun r' h' => by rw [hparams]; exact hrs r' (List.mem_cons_of_mem _ h'))
        (by rw [hparams, hkeys₁, ← hnext]; exact hK)
      rw [hparams] at hparams' hgood' hmap'
      refine ⟨idx', ?_, hparams', hgood', ?_, ?_⟩
      · rw [Wal.applyAll_cons, apply_of_hasRoom hr.1 hr.2 (hasRoom_of_lt_room hroom)]
        exact happ
      · rw [hmap', hmap₁, List.map_cons, List.map_cons, KeyMap.run_cons]
      · rw [hkeys', hkeys₁, hnext]

/-- Replaying the records of calls on a good index. -/
theorem applyAll_record (idx : Index UInt32) {cs : List Call} (hgood : idx.store.Good idx.params)
    (hsized : ∀ c ∈ cs, c.Sized idx.params.dim)
    (hroom : (addedKeys cs ∪ idx.store.keys).card ≤ idx.params.room) :
    ∃ idx', applyAll apply idx (cs.map Call.record) = .ok idx' ∧ idx'.params = idx.params ∧
      idx'.store.Good idx.params ∧
      idx'.store.keyMap = idx.store.keyMap.run (cs.map (Call.op idx.params)) ∧
      idx'.store.keys = addedKeys cs ∪ idx.store.keys := by
  have h := applyAll_good (cs.map Call.record) hgood
    (fun r hr => by
      obtain ⟨c, hc, rfl⟩ := List.mem_map.mp hr
      exact benign_record (hsized c hc))
    (by rwa [map_callOf_record])
  rwa [map_callOf_record] at h

end

end VectorSearch.Durable
