import VectorSearch.Hnsw.KeyMap

/-! # Replaying the operations on a key, any number of times

A snapshot and a log lie on disk, and the entry of a key in memory was made by the operations in the
log.  Replay performs them on the entry of the snapshot, and a snapshot may be written while the log
stays as it is, so that the operations are performed on their own result, any number of times.

`Replays` relates the three entries of a key that is there.  It comes with the relation in which the
replayed entry stands to the one in memory: in general a tombstone may have appeared (`Buried`), and
without a deletion in front of the add they are equal.  `Follows` puts both together with the entry
that the caller of the operations expects, and it is kept by every operation, snapshot and replay. -/

namespace VectorSearch.Hnsw.KeyOp
variable {F : Type} {e e' b m : Option (List F × Bool)} {o : KeyOp F} {os : List (KeyOp F)}

/-- The second entry is the first, but for a tombstone that it may have more. -/
def Buried (e e' : Option (List F × Bool)) : Prop :=
  e' = e ∨ ∃ v, e = some (v, false) ∧ e' = some (v, true)

theorem Buried.refl (e : Option (List F × Bool)) : Buried e e := Or.inl rfl

theorem Buried.trans {e'' : Option (List F × Bool)} (h : Buried e e') (h' : Buried e' e'') :
    Buried e e'' := by
  obtain rfl | ⟨v, rfl, rfl⟩ := h
  · exact h'
  · obtain rfl | ⟨w, hw, -⟩ := h'
    · exact Or.inr ⟨v, rfl, rfl⟩
    · cases hw

theorem Buried.cell (h : Buried e e') (o : KeyOp F) : Buried (o.cell e) (o.cell e') := by
  obtain rfl | ⟨v, rfl, rfl⟩ := h
  · exact Or.inl rfl
  · cases o with
    | add w => exact Or.inr ⟨v, rfl, rfl⟩
    | mark | unmark => exact Or.inl rfl

theorem buried_none_right (h : Buried e none) : e = none := by
  obtain h | ⟨v, -, h⟩ := h
  · exact h.symm
  · cases h

theorem buried_none_left (h : Buried none e) : e = none := by
  obtain h | ⟨v, h, -⟩ := h
  · exact h
  · cases h

/-- A live entry, after any operations. -/
theorem buried_foldl_some (v : List F) (os : List (KeyOp F)) :
    Buried (some (v, false)) (os.foldl KeyOp.cell (some (v, false))) := by
  rw [foldl_cell_some]
  cases os.foldl flag false with
  | false => exact Or.inl rfl
  | true => exact Or.inr ⟨v, rfl, rfl⟩

/-- Operations that have left a tombstone leave one where one was. -/
theorem flag_of_buried {v : List F} (h : os.foldl KeyOp.cell e = some (v, true)) :
    os.foldl flag true = true := by
  induction os using List.reverseRecOn with
  | nil => rfl
  | append_singleton os o ih =>
    rw [List.foldl_append] at h ⊢
    cases o with
    | add w =>
      cases hos : os.foldl KeyOp.cell e with
      | none =>
        rw [hos] at h
        cases h
      | some x =>
        rw [hos] at h
        exact ih (hos.trans h)
    | mark => rfl
    | unmark =>
      cases hos : os.foldl KeyOp.cell e <;> rw [hos] at h <;> cases h

/-- **Performing the operations on their own result** can only add a tombstone. -/
theorem buried_refold (e : Option (List F × Bool)) (os : List (KeyOp F)) :
    Buried (os.foldl KeyOp.cell e) (os.foldl KeyOp.cell (os.foldl KeyOp.cell e)) := by
  cases hres : os.foldl KeyOp.cell e with
  | none =>
    -- then nothing was there before either
    cases e with
    | none =>
      rw [hres]
      exact Buried.refl _
    | some x =>
      rw [foldl_cell_some] at hres
      cases hres
  | some x =>
    obtain ⟨v, - | -⟩ := x
    · exact buried_foldl_some v os
    · rw [foldl_cell_some, flag_of_buried hres]
      exact Buried.refl _

/-! ### The entries of a key -/

variable {R : Option (List F × Bool) → Option (List F × Bool) → Prop}

/-- A relation between entries that every operation keeps. -/
structure Kept (R : Option (List F × Bool) → Option (List F × Bool) → Prop) : Prop where
  refl : ∀ e, R e e
  cell : ∀ {e e'}, R e e' → ∀ o : KeyOp F, R (o.cell e) (o.cell e')

theorem kept_buried : Kept (F := F) Buried := ⟨Buried.refl, fun h o => h.cell o⟩

theorem kept_eq : Kept (F := F) Eq := ⟨fun _ => rfl, fun h _ => h ▸ rfl⟩

/-- `b` is the entry of the snapshot, `os` are the operations in the log, and `m` is the entry in
memory, if there is one: what replay makes of the snapshot, and what it would make of a snapshot
that is taken now. -/
structure Replays (R : Option (List F × Bool) → Option (List F × Bool) → Prop)
    (b : Option (List F × Bool)) (os : List (KeyOp F)) (m : Option (List F × Bool)) : Prop where
  replayed : m ≠ none → R m (os.foldl KeyOp.cell b)
  again : m ≠ none → R m (os.foldl KeyOp.cell m)

theorem replays_none : Replays R b os none := ⟨fun h => absurd rfl h, fun h => absurd rfl h⟩

/-- A new log. -/
theorem replays_nil (hR : Kept R) : Replays R m [] m := ⟨fun _ => hR.refl m, fun _ => hR.refl m⟩

/-- A new snapshot. -/
theorem Replays.saved (h : Replays R b os m) : Replays R m os m := ⟨h.again, h.again⟩

/-- An operation on a key that is there is logged and performed. -/
theorem Replays.concat (hR : Kept R) (h : Replays R b os m) (hm : m ≠ none) (o : KeyOp F) :
    Replays R b (os ++ [o]) (o.cell m) := by
  obtain ⟨⟨v, c⟩, rfl⟩ := Option.ne_none_iff_exists'.mp hm
  refine ⟨fun _ => ?_, fun _ => ?_⟩
  · rw [List.foldl_append]
    exact hR.cell (h.replayed hm) o
  · rw [List.foldl_append]
    cases o with
    | add w => exact hR.cell (h.again hm) (.add w)
    | mark =>
      rw [show KeyOp.mark.cell (some (v, c)) = some (v, true) from rfl, foldl_cell_some]
      exact hR.refl _
    | unmark =>
      rw [show KeyOp.unmark.cell (some (v, c)) = some (v, false) from rfl, foldl_cell_some]
      exact hR.refl _

/-- A key is added that neither the snapshot nor the log has. -/
theorem replays_added (hR : Kept R) {v : List F} (hb : os.foldl KeyOp.cell b = none)
    (hagain : R (some (v, false)) (os.foldl KeyOp.cell (some (v, false)))) :
    Replays R b (os ++ [.add v]) (some (v, false)) := by
  refine ⟨fun _ => ?_, fun _ => ?_⟩
  · rw [List.foldl_append, hb]
    exact hR.refl _
  · rw [List.foldl_append]
    exact hR.cell hagain (.add v)

/-- Without a mark among them the operations leave a live entry live. -/
theorem foldl_cell_live (v : List F) (h : KeyOp.mark ∉ os) :
    os.foldl KeyOp.cell (some (v, false)) = some (v, false) := by
  induction os with
  | nil => rfl
  | cons o os ih =>
    obtain ⟨hne, hos⟩ := not_or.mp (mt List.mem_cons.mpr h)
    cases o with
    | add w => exact ih hos
    | mark => exact absurd rfl hne
    | unmark => exact ih hos

/-- Without an unmark among them they leave a tombstone where it is. -/
theorem foldl_cell_dead (v : List F) (h : KeyOp.unmark ∉ os) :
    os.foldl KeyOp.cell (some (v, true)) = some (v, true) := by
  induction os with
  | nil => rfl
  | cons o os ih =>
    obtain ⟨hne, hos⟩ := not_or.mp (mt List.mem_cons.mpr h)
    cases o with
    | add w => exact ih hos
    | mark => exact ih hos
    | unmark => exact absurd rfl hne

/-! ### The entry that is expected -/

/-- `w` is the entry that the caller expects: the one in memory, but for a tombstone, and without
the exception unless `early` holds. -/
structure Follows (early : Prop) (b : Option (List F × Bool)) (os : List (KeyOp F))
    (m w : Option (List F × Bool)) : Prop where
  replays : Replays Buried b os m
  expected : Buried w m
  exact : ¬ early → m = w ∧ (m = none → KeyOp.mark ∉ os) ∧ Replays Eq b os m

section
variable {early early' : Prop} {w : Option (List F × Bool)}

theorem follows_nil (early : Prop) (m : Option (List F × Bool)) : Follows early m [] m m :=
  ⟨replays_nil kept_buried, Buried.refl m, fun _ => ⟨rfl, fun _ => List.not_mem_nil, replays_nil kept_eq⟩⟩

/-- A new snapshot and a new log. -/
theorem Follows.rotated (h : Follows early b os m w) : Follows early m [] m w :=
  ⟨replays_nil kept_buried, h.expected, fun hearly =>
    ⟨(h.exact hearly).1, fun _ => List.not_mem_nil, replays_nil kept_eq⟩⟩

/-- A new snapshot and the old log. -/
theorem Follows.saved (h : Follows early b os m w) : Follows early m os m w :=
  ⟨h.replays.saved, h.expected, fun hearly =>
    ⟨(h.exact hearly).1, (h.exact hearly).2.1, (h.exact hearly).2.2.saved⟩⟩

/-- The log is replayed on the snapshot, and adds no key. -/
theorem Follows.replayed (h : Follows early b os m w) (hnone : m = none → os.foldl KeyOp.cell b = none) :
    Follows early b os (os.foldl KeyOp.cell b) w := by
  by_cases hm : m = none
  · have hold := h
    rw [hm] at hold
    rwa [hnone hm]
  · refine ⟨⟨fun _ => Buried.refl _, fun _ => buried_refold b os⟩,
      h.expected.trans (h.replays.replayed hm), fun hearly => ?_⟩
    obtain ⟨hw, hmark, heq⟩ := h.exact hearly
    rw [← heq.replayed hm]
    exact ⟨hw, hmark, heq⟩

/-- An operation takes effect. -/
theorem Follows.performed (h : Follows early b os m w) (htakes : o.cell m ≠ m)
    (hnone : m = none → os.foldl KeyOp.cell b = none) :
    Follows early b (os ++ [o]) (o.cell m) (o.cell w) := by
  cases m with
  | some e =>
    have hthere : o.cell (some e) ≠ none := by
      obtain ⟨v, c⟩ := e
      cases o <;> nofun
    refine ⟨h.replays.concat kept_buried nofun o, h.expected.cell o, fun hearly => ?_⟩
    obtain ⟨hw, -, heq⟩ := h.exact hearly
    exact ⟨by rw [hw], fun hno => absurd hno hthere, heq.concat kept_eq nofun o⟩
  | none =>
    cases o with
    | mark | unmark => exact absurd rfl htakes
    | add v =>
      have hw := buried_none_right h.expected
      rw [hw]
      refine ⟨replays_added kept_buried (hnone rfl) (buried_foldl_some v os), Buried.refl _,
        fun hearly => ⟨rfl, nofun, replays_added kept_eq (hnone rfl) ?_⟩⟩
      exact (foldl_cell_live v ((h.exact hearly).2.1 rfl)).symm

/-- An operation is refused. -/
theorem Follows.refused (h : Follows early b os m w) (hsame : o.cell m = m)
    (hearly : early → early') (hmark : o = .mark → w = none → early') :
    Follows early' b (os ++ [o]) m w := by
  cases m with
  | some e =>
    have hconcat := h.replays.concat kept_buried nofun o
    rw [hsame] at hconcat
    refine ⟨hconcat, h.expected, fun hno => ?_⟩
    obtain ⟨hw, -, heq⟩ := h.exact (mt hearly hno)
    have hconcat := heq.concat kept_eq nofun o
    rw [hsame] at hconcat
    exact ⟨hw, nofun, hconcat⟩
  | none =>
    refine ⟨replays_none, h.expected, fun hno => ?_⟩
    obtain ⟨hw, hos, -⟩ := h.exact (mt hearly hno)
    refine ⟨hw, fun _ hmem => ?_, replays_none⟩
    obtain hmem | hmem := List.mem_append.mp hmem
    · exact hos rfl hmem
    · exact hno (hmark (List.mem_singleton.mp hmem).symm hw.symm)

/-- An add finds no room. -/
theorem Follows.full (h : Follows early b os none w) (v : List F) :
    Follows early b (os ++ [.add v]) none w := by
  refine ⟨replays_none, h.expected, fun hno => ?_⟩
  obtain ⟨hw, hos, -⟩ := h.exact hno
  refine ⟨hw, fun _ hmem => ?_, replays_none⟩
  obtain hmem | hmem := List.mem_append.mp hmem
  · exact hos rfl hmem
  · cases List.mem_singleton.mp hmem

theorem Follows.imp (h : Follows early b os m w) (hearly : early → early') :
    Follows early' b os m w := ⟨h.replays, h.expected, fun hno => h.exact (mt hearly hno)⟩

end

end VectorSearch.Hnsw.KeyOp
