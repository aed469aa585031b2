import VectorSearch.Hnsw.Operations

/-! # The key store as a key map

`Store.Good` is the invariant of the key store: the label map and the labels of the allocated ids
are inverse to each other, and there are no more ids than a node can have.  As long as a call has
room for its key, a good store stays good and its key map changes as `KeyOp.cell` says
(`Good.add`, `Good.markDeleted`, `Good.unmarkDeleted`). -/

namespace VectorSearch.Hnsw

/-- The number of vectors that get an id of their own: the capacity, and what an `idx_t` counts. -/
def Params.room (p : Params) : ℕ := min p.maxElements (2 ^ 32)

namespace Store
variable {F : Type} {p : Params} {s : Store F} {k : Label}

/-- Labels and label map are inverse to each other on the allocated ids, which are all in range,
and every vector has the dimension of the index. -/
structure Good (p : Params) (s : Store F) : Prop where
  count_le : s.count ≤ p.room
  label_of_id : ∀ {k i}, s.labelToId k = some i → i < s.count ∧ s.labels i = k
  id_of_label : ∀ {i}, i < s.count → s.labelToId (s.labels i) = some i
  length_data : ∀ {i}, i < s.count → (s.data i).length = p.dim

/-- The keys of the allocated ids. -/
def keys (s : Store F) : Finset Label := (Finset.range s.count).image s.labels

theorem Good.empty (p : Params) : Good p (Store.empty F) where
  count_le := Nat.zero_le _
  label_of_id h := nomatch h
  id_of_label h := absurd h (Nat.not_lt_zero _)
  length_data h := absurd h (Nat.not_lt_zero _)

@[simp] theorem keyMap_empty : (Store.empty F).keyMap = fun _ => none := rfl

@[simp] theorem keys_empty : (Store.empty F).keys = ∅ := rfl

theorem isSome_keyMap (s : Store F) (k : Label) : (s.keyMap k).isSome = s.hasLabel k :=
  Option.isSome_map

/-! ### Keys and room -/

theorem Good.mem_keys (h : Good p s) : k ∈ s.keys ↔ s.hasLabel k = true := by
  simp only [keys, Finset.mem_image, Finset.mem_range, hasLabel, Option.isSome_iff_exists]
  constructor
  · rintro ⟨i, hi, rfl⟩
    exact ⟨i, h.id_of_label hi⟩
  · rintro ⟨i, hi⟩
    exact ⟨i, h.label_of_id hi⟩

theorem Good.card_keys (h : Good p s) : s.keys.card = s.count := by
  have hinj : Set.InjOn s.labels (Finset.range s.count) := by
    intro i hi j hj hij
    have hi' := h.id_of_label (Finset.mem_range.mp hi)
    rw [hij, h.id_of_label (Finset.mem_range.mp hj)] at hi'
    exact (Option.some.inj hi').symm
  rw [keys, Finset.card_image_of_injOn hinj, Finset.card_range]

/-- A key of a set that fits in the index is there, or there is room for it. -/
theorem Good.has_or_room (h : Good p s) {K : Finset Label} (hsub : s.keys ⊆ K)
    (hK : K.card ≤ p.room) (hk : k ∈ K) : s.hasLabel k = true ∨ s.count < p.room := by
  by_cases hmem : k ∈ s.keys
  · exact Or.inl (h.mem_keys.mp hmem)
  · right
    have hss : s.keys ⊂ K := (Finset.ssubset_iff_of_subset hsub).mpr ⟨k, hk, hmem⟩
    have hlt := Finset.card_lt_card hss
    rw [h.card_keys] at hlt
    omega

/-! ### Adding -/

section add
variable [Platform F] {vec : List F}

theorem add_of_hasLabel (p : Params) (vec : List F) (h : s.hasLabel k = true) :
    s.add p vec k = (s, .error .duplicate) := by
  rw [add, if_pos h]

theorem add_of_full (vec : List F) (h : s.hasLabel k = false)
    (hfull : p.maxElements ≤ s.count % 2 ^ 32) : s.add p vec k = (s, .error .full) := by
  have hid : p.maxElements ≤ s.fetchAdd.1 := hfull
  rw [add, if_neg (by rw [h]; exact Bool.false_ne_true)]
  exact if_pos hid

theorem add_of_lt (vec : List F) (h : s.hasLabel k = false)
    (hlt : s.count % 2 ^ 32 < p.maxElements) :
    s.add p vec k =
      ((({ s with count := s.count + 1 } : Store F).writeSlot (s.count % 2 ^ 32) (p.prepare vec)
        k).registerLabel k (s.count % 2 ^ 32), .ok (s.count % 2 ^ 32)) := by
  have hid : ¬ p.maxElements ≤ s.fetchAdd.1 := not_le.mpr hlt
  rw [add, if_neg (by rw [h]; exact Bool.false_ne_true)]
  exact if_neg hid

/-- A new key with room gets the next id. -/
theorem add_of_room (vec : List F) (h : s.hasLabel k = false) (hroom : s.count < p.room) :
    s.add p vec k =
      ((({ s with count := s.count + 1 } : Store F).writeSlot s.count (p.prepare vec) k).registerLabel
        k s.count, .ok s.count) := by
  have hlt : s.count < p.maxElements ∧ s.count < 2 ^ 32 := by
    rw [Params.room] at hroom
    omega
  have hid : s.count % 2 ^ 32 = s.count := Nat.mod_eq_of_lt hlt.2
  rw [add_of_lt vec h (by rw [hid]; exact hlt.1), hid]

theorem Good.add_new (h : Good p s) (hlen : vec.length = p.dim) (hk : s.hasLabel k = false)
    (hroom : s.count < p.room) :
    Good p (s.add p vec k).1 ∧
      (s.add p vec k).1.keyMap = Function.update s.keyMap k (some (p.prepare vec, false)) ∧
      (s.add p vec k).1.keys = insert k s.keys := by
  have hnone : s.labelToId k = none := by simpa [hasLabel] using hk
  rw [add_of_room vec hk hroom]
  have hold : ∀ {k' i}, s.labelToId k' = some i → i ≠ s.count := fun hi =>
    Nat.ne_of_lt (h.label_of_id hi).1
  refine ⟨⟨hroom, ?_, ?_, ?_⟩, ?_, ?_⟩
  · intro k' i hi
    simp only [registerLabel, writeSlot] at hi ⊢
    by_cases hkk : k' = k
    · subst hkk
      rw [Function.update_self] at hi
      cases hi
      exact ⟨Nat.lt_succ_self _, Function.update_self _ _ _⟩
    · rw [Function.update_of_ne hkk] at hi
      rw [Function.update_of_ne (hold hi)]
      exact ⟨Nat.lt_succ_of_lt (h.label_of_id hi).1, (h.label_of_id hi).2⟩
  · intro i hi
    simp only [registerLabel, writeSlot] at hi ⊢
    by_cases hic : i = s.count
    · rw [hic, Function.update_self, Function.update_self]
    · have hi' : s.labelToId (s.labels i) = some i := h.id_of_label (by omega)
      have hne : s.labels i ≠ k := by
        intro heq
        rw [heq, hnone] at hi'
        cases hi'
      rw [Function.update_of_ne hic, Function.update_of_ne hne, hi']
  · intro i hi
    simp only [registerLabel, writeSlot] at hi ⊢
    by_cases hic : i = s.count
    · rw [hic, Function.update_self, Params.length_prepare, hlen]
    · rw [Function.update_of_ne hic]
      exact h.length_data (by omega)
  · funext k'
    simp only [keyMap, registerLabel, writeSlot]
    by_cases hkk : k' = k
    · subst hkk
      rw [Function.update_self, Function.update_self, Option.map_some, Function.update_self,
        Function.update_self]
    · rw [Function.update_of_ne hkk, Function.update_of_ne hkk]
      cases hi : s.labelToId k' with
      | none => rw [keyMap, hi, Option.map_none, Option.map_none]
      | some i =>
          rw [keyMap, hi, Option.map_some, Option.map_some, Function.update_of_ne (hold hi),
            Function.update_of_ne (hold hi)]
  · simp only [keys, registerLabel, writeSlot, Finset.range_add_one, Finset.image_insert,
      Function.update_self]
    congr 1
    apply Finset.image_congr
    intro i hi
    exact Function.update_of_ne (Nat.ne_of_lt (Finset.mem_range.mp hi)) _ _

/-- **Adding to a good store** whose key is there or has room. -/
theorem Good.add (h : Good p s) (hlen : vec.length = p.dim)
    (hroom : s.hasLabel k = true ∨ s.count < p.room) :
    Good p (s.add p vec k).1 ∧
      (s.add p vec k).1.keyMap = s.keyMap.apply (k, .add (p.prepare vec)) ∧
      (s.add p vec k).1.keys = insert k s.keys ∧
      (s.add p vec k).2 = if s.hasLabel k then .error .duplicate else .ok s.count := by
  by_cases hk : s.hasLabel k = true
  · rw [add_of_hasLabel p vec hk, if_pos hk]
    refine ⟨h, ?_, (Finset.insert_eq_self.mpr (h.mem_keys.mpr hk)).symm, rfl⟩
    obtain ⟨e, he⟩ := Option.isSome_iff_exists.mp ((s.isSome_keyMap k).trans hk)
    rw [KeyMap.apply, KeyedLog.apply, he, KeyOp.cell, ← he]
    exact (Function.update_eq_self _ _).symm
  · have hk' : s.hasLabel k = false := by simpa using hk
    have hroom' := hroom.resolve_left hk
    obtain ⟨hgood, hmap, hkeys⟩ := h.add_new hlen hk' hroom'
    refine ⟨hgood, ?_, hkeys, ?_⟩
    · have he : s.keyMap k = none := by
        rw [← Option.not_isSome_iff_eq_none, s.isSome_keyMap, hk']
        simp
      rw [hmap, KeyMap.apply, KeyedLog.apply, he]
      rfl
    · rw [add_of_room vec hk' hroom', if_neg hk]

end add

/-! ### Tombstones -/

/-- Setting the tombstone of a registered key. -/
theorem Good.setFlag (h : Good p s) {i : ℕ} (hi : s.labelToId k = some i) (b : Bool) (n : ℕ) :
    Good p { s with deleted := Function.update s.deleted i b, numDeleted := n } ∧
      ({ s with deleted := Function.update s.deleted i b, numDeleted := n } : Store F).keyMap =
        Function.update s.keyMap k (some (s.data i, b)) := by
  refine ⟨⟨h.count_le, h.label_of_id, h.id_of_label, h.length_data⟩, ?_⟩
  funext k'
  by_cases hkk : k' = k
  · subst hkk
    simp only [keyMap, hi, Option.map_some, Function.update_self]
  · rw [Function.update_of_ne hkk]
    simp only [keyMap]
    cases hj : s.labelToId k' with
    | none => rfl
    | some j =>
        have hne : j ≠ i := by
          rintro rfl
          exact hkk ((h.label_of_id hj).2.symm.trans (h.label_of_id hi).2)
        rw [Option.map_some, Option.map_some, Function.update_of_ne hne]

theorem keyMap_of_id {i : ℕ} (hi : s.labelToId k = some i) :
    s.keyMap k = some (s.data i, s.deleted i) := by
  rw [keyMap, hi, Option.map_some]

theorem markDeleted_none (hi : s.labelToId k = none) : s.markDeleted k = (s, false) := by
  simp only [Store.markDeleted, hi]

theorem markDeleted_some {i : ℕ} (hi : s.labelToId k = some i) :
    s.markDeleted k = if s.deleted i then (s, false)
      else ({ s with
        deleted := Function.update s.deleted i true
        numDeleted := (s.numDeleted + 1) % 2 ^ 64 }, true) := by
  simp only [Store.markDeleted, hi]

theorem unmarkDeleted_none (hi : s.labelToId k = none) : s.unmarkDeleted k = (s, false) := by
  simp only [Store.unmarkDeleted, hi]

theorem unmarkDeleted_some {i : ℕ} (hi : s.labelToId k = some i) :
    s.unmarkDeleted k = if ! s.deleted i then (s, false)
      else ({ s with
        deleted := Function.update s.deleted i false
        numDeleted := (s.numDeleted + (2 ^ 64 - 1)) % 2 ^ 64 }, true) := by
  simp only [Store.unmarkDeleted, hi]

theorem count_markDeleted (s : Store F) (k : Label) : (s.markDeleted k).1.count = s.count := by
  cases hi : s.labelToId k with
  | none => rw [markDeleted_none hi]
  | some i =>
      rw [markDeleted_some hi]
      split_ifs <;> rfl

theorem count_unmarkDeleted (s : Store F) (k : Label) : (s.unmarkDeleted k).1.count = s.count := by
  cases hi : s.labelToId k with
  | none => rw [unmarkDeleted_none hi]
  | some i =>
      rw [unmarkDeleted_some hi]
      split_ifs <;> rfl

theorem labels_markDeleted (s : Store F) (k : Label) : (s.markDeleted k).1.labels = s.labels := by
  cases hi : s.labelToId k with
  | none => rw [markDeleted_none hi]
  | some i =>
      rw [markDeleted_some hi]
      split_ifs <;> rfl

theorem labels_unmarkDeleted (s : Store F) (k : Label) :
    (s.unmarkDeleted k).1.labels = s.labels := by
  cases hi : s.labelToId k with
  | none => rw [unmarkDeleted_none hi]
  | some i =>
      rw [unmarkDeleted_some hi]
      split_ifs <;> rfl

theorem hasLabel_markDeleted (s : Store F) (key k : Label) :
    (s.markDeleted key).1.hasLabel k = s.hasLabel k := by
  cases hi : s.labelToId key with
  | none => rw [markDeleted_none hi]
  | some i =>
      rw [markDeleted_some hi]
      split_ifs <;> rfl

theorem hasLabel_unmarkDeleted (s : Store F) (key k : Label) :
    (s.unmarkDeleted key).1.hasLabel k = s.hasLabel k := by
  cases hi : s.labelToId key with
  | none => rw [unmarkDeleted_none hi]
  | some i =>
      rw [unmarkDeleted_some hi]
      split_ifs <;> rfl

/-- **Tombstoning in a good store**. -/
theorem Good.markDeleted (h : Good p s) (k : Label) :
    Good p (s.markDeleted k).1 ∧
      (s.markDeleted k).1.keyMap = s.keyMap.apply (k, .mark) ∧
      (s.markDeleted k).1.keys = s.keys := by
  cases hi : s.labelToId k with
  | none =>
      rw [markDeleted_none hi]
      refine ⟨h, (KeyMap.apply_of_cell_eq ?_).symm, rfl⟩
      rw [keyMap, hi]
      rfl
  | some i =>
      rw [markDeleted_some hi]
      by_cases hd : s.deleted i = true
      · rw [if_pos hd]
        refine ⟨h, (KeyMap.apply_of_cell_eq ?_).symm, rfl⟩
        rw [keyMap_of_id hi, hd]
        rfl
      · rw [if_neg hd]
        obtain ⟨hgood, hmap⟩ := h.setFlag hi true ((s.numDeleted + 1) % 2 ^ 64)
        refine ⟨hgood, ?_, rfl⟩
        rw [KeyMap.apply, KeyedLog.apply, keyMap_of_id hi]
        exact hmap

/-- **Reviving in a good store**. -/
theorem Good.unmarkDeleted (h : Good p s) (k : Label) :
    Good p (s.unmarkDeleted k).1 ∧
      (s.unmarkDeleted k).1.keyMap = s.keyMap.apply (k, .unmark) ∧
      (s.unmarkDeleted k).1.keys = s.keys := by
  cases hi : s.labelToId k with
  | none =>
      rw [unmarkDeleted_none hi]
      refine ⟨h, (KeyMap.apply_of_cell_eq ?_).symm, rfl⟩
      rw [keyMap, hi]
      rfl
  | some i =>
      rw [unmarkDeleted_some hi]
      by_cases hd : s.deleted i = true
      · rw [if_neg (by simpa using hd)]
        obtain ⟨hgood, hmap⟩ := h.setFlag hi false ((s.numDeleted + (2 ^ 64 - 1)) % 2 ^ 64)
        refine ⟨hgood, ?_, rfl⟩
        rw [KeyMap.apply, KeyedLog.apply, keyMap_of_id hi]
        exact hmap
      · rw [if_pos (by simpa using hd)]
        refine ⟨h, (KeyMap.apply_of_cell_eq ?_).symm, rfl⟩
        rw [keyMap_of_id hi, Bool.eq_false_iff.mpr hd]
        rfl

end Store

end VectorSearch.Hnsw
