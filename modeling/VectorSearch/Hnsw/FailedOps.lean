import VectorSearch.Hnsw.KeyMap

/-! # Logs with operations that were not performed

A log may hold operations that failed: the key map never performed them, but whoever replays the log
does.  The operations of one key are given with a flag that says whether they were performed.

When an operation on the key has been acknowledged after the last one that failed (`Settled`), the
replayed entry is that of the key map unless the first add in the log is a failed one
(`Overridden`): it decides the vector, and the marks and unmarks behind it, which the key map
refused, decide the tombstone (`replay_eq_iff`). -/

namespace VectorSearch.Hnsw
namespace KeyOp
variable {F : Type}

/-- The operation is acknowledged: a new key is added, or a tombstone changes. -/
def accepted : Option (List F × Bool) → KeyOp F → Bool
  | none, .add _ => true
  | some (_, false), .mark => true
  | some (_, true), .unmark => true
  | _, _ => false

/-- The operations of a log that were performed; the others are only logged. -/
def performed (ts : List (KeyOp F × Bool)) : List (KeyOp F) := (ts.filter Prod.snd).map Prod.fst

/-- An operation is acknowledged and no later one fails. -/
def Settled (e : Option (List F × Bool)) (ts : List (KeyOp F × Bool)) : Prop :=
  ∃ pre o post, ts = pre ++ (o, true) :: post ∧ (∀ t ∈ post, t.2 = true) ∧
    accepted ((performed pre).foldl cell e) o = true

/-- The key was added by a failed add of `w`, and its tombstone is `b` by now: the entry that the
first performed add of the key finds is another one than it makes itself, for good. -/
def Claimed (w : List F) : Bool → List (KeyOp F × Bool) → Prop
  | _, [] => False
  | b, (.add v, true) :: ts => w ≠ v ∨ b = true ∧ ∀ t ∈ ts, t.2 = true → t.1.isAdd = true
  | b, (o, _) :: ts => Claimed w (o.flag b) ts

/-- The first add in the log is a failed one, and it matters. -/
def Overridden : List (KeyOp F × Bool) → Prop
  | [] => False
  | (.add w, false) :: ts => Claimed w false ts
  | (.add _, true) :: _ => False
  | (_, _) :: ts => Overridden ts

instance Claimed.decidable [DecidableEq F] (w : List F) :
    ∀ (b : Bool) (ts : List (KeyOp F × Bool)), Decidable (Claimed w b ts)
  | _, [] => inferInstanceAs (Decidable False)
  | b, (.add v, true) :: ts =>
      inferInstanceAs (Decidable (w ≠ v ∨ b = true ∧ ∀ t ∈ ts, t.2 = true → t.1.isAdd = true))
  | b, (.add _, false) :: ts => Claimed.decidable w b ts
  | _, (.mark, _) :: ts => Claimed.decidable w true ts
  | _, (.unmark, _) :: ts => Claimed.decidable w false ts

instance Overridden.decidable [DecidableEq F] :
    ∀ ts : List (KeyOp F × Bool), Decidable (Overridden ts)
  | [] => inferInstanceAs (Decidable False)
  | (.add w, false) :: ts => Claimed.decidable w false ts
  | (.add _, true) :: _ => inferInstanceAs (Decidable False)
  | (.mark, _) :: ts => Overridden.decidable ts
  | (.unmark, _) :: ts => Overridden.decidable ts

theorem performed_cons_true (o : KeyOp F) (ts : List (KeyOp F × Bool)) :
    performed ((o, true) :: ts) = o :: performed ts := rfl

theorem performed_append (ts ts' : List (KeyOp F × Bool)) :
    performed (ts ++ ts') = performed ts ++ performed ts' := by
  rw [performed, List.filter_append, List.map_append]
  rfl

theorem cell_of_not_accepted {e : Option (List F × Bool)} {o : KeyOp F}
    (h : accepted e o = false) : cell e o = e := by
  rcases e with - | ⟨v, - | -⟩ <;> cases o <;> first | rfl | cases h

theorem isSome_cell_of_accepted {e : Option (List F × Bool)} {o : KeyOp F}
    (h : accepted e o = true) : (cell e o).isSome = true := by
  rcases e with - | ⟨v, - | -⟩ <;> cases o <;> first | rfl | cases h

theorem performed_of_all {ts : List (KeyOp F × Bool)} (h : ∀ t ∈ ts, t.2 = true) :
    performed ts = ts.map Prod.fst := by
  rw [performed, List.filter_eq_self.mpr h]

/-- Behind the first operation: it is the acknowledged one, or the others settle the key. -/
theorem Settled.cons {e : Option (List F × Bool)} {o : KeyOp F} {b : Bool}
    {ts : List (KeyOp F × Bool)} (h : Settled e ((o, b) :: ts)) :
    (b = true ∧ accepted e o = true ∧ ∀ t ∈ ts, t.2 = true) ∨
      Settled (if b then cell e o else e) ts := by
  obtain ⟨pre, o', post, heq, hpost, hacc⟩ := h
  cases pre with
  | nil =>
      obtain ⟨⟨rfl, rfl⟩, rfl⟩ : (o = o' ∧ b = true) ∧ ts = post := by simpa using heq
      exact Or.inl ⟨rfl, hacc, hpost⟩
  | cons t pre =>
      obtain ⟨rfl, rfl⟩ : (o, b) = t ∧ ts = pre ++ (o', true) :: post := by simpa using heq
      right
      refine ⟨pre, o', post, rfl, hpost, ?_⟩
      cases b with
      | true => exact hacc
      | false => exact hacc

theorem Settled.concat {e : Option (List F × Bool)} {ts : List (KeyOp F × Bool)}
    (h : Settled e ts) (o : KeyOp F) : Settled e (ts ++ [(o, true)]) := by
  obtain ⟨pre, o', post, rfl, hpost, hacc⟩ := h
  refine ⟨pre, o', post ++ [(o, true)], by simp, fun t ht => ?_, hacc⟩
  obtain ht | ht := List.mem_append.mp ht
  · exact hpost t ht
  · rw [List.mem_singleton.mp ht]

/-- When the key is there, what settles it is a mark or an unmark, and then the log leaves the same
tombstone. -/
theorem Settled.flag_eq {v : List F} {b : Bool} {ts : List (KeyOp F × Bool)}
    (h : Settled (some (v, b)) ts) (b' b'' : Bool) :
    (ts.map Prod.fst).foldl flag b' = (performed ts).foldl flag b'' ∧
      ∃ t ∈ ts, t.2 = true ∧ t.1.isAdd = false := by
  obtain ⟨pre, o, post, rfl, hpost, hacc⟩ := h
  have hadd : o.isAdd = false := by
    rw [foldl_cell_some] at hacc
    cases o with
    | add w => cases h : (performed pre).foldl flag b <;> rw [h] at hacc <;> cases hacc
    | mark | unmark => rfl
  refine ⟨?_, (o, true), by simp, rfl, hadd⟩
  rw [List.map_append, List.foldl_append, performed_append, List.foldl_append, List.map_cons,
    performed_cons_true, performed_of_all hpost]
  exact foldl_flag_congr _ _ ⟨o, List.mem_cons_self, hadd⟩

/-- A performed add finds an entry that a failed one has made. -/
theorem claimed_iff {w : List F} : ∀ {ts : List (KeyOp F × Bool)} {b : Bool},
    Settled none ts →
      ((ts.map Prod.fst).foldl cell (some (w, b)) = (performed ts).foldl cell none ↔
        ¬ Claimed w b ts)
  | [], b, h => by
      obtain ⟨pre, o, post, heq, -⟩ := h
      simp at heq
  | (.add v, true) :: ts, b, h => by
      have hlive : (performed ((.add v, true) :: ts)).foldl cell none =
          some (v, (performed ts).foldl flag false) := foldl_cell_some v (performed ts) false
      have hlog : (((.add v, true) :: ts).map Prod.fst).foldl cell (some (w, b)) =
          some (w, (ts.map Prod.fst).foldl flag b) := foldl_cell_some w (ts.map Prod.fst) b
      have hflag : (ts.map Prod.fst).foldl flag b = (performed ts).foldl flag false ↔
          ¬ (b = true ∧ ∀ t ∈ ts, t.2 = true → t.1.isAdd = true) := by
        obtain ⟨-, -, hall⟩ | hs := h.cons
        · rw [performed_of_all hall]
          by_cases hadds : ∀ t ∈ ts, t.2 = true → t.1.isAdd = true
          · have hadds' : ∀ o ∈ ts.map Prod.fst, o.isAdd = true := by
              intro o ho
              obtain ⟨t, ht, rfl⟩ := List.mem_map.mp ho
              exact hadds t ht (hall t ht)
            rw [foldl_flag_adds b hadds', foldl_flag_adds false hadds', and_iff_left hadds,
              Bool.not_eq_true]
          · refine iff_of_true (foldl_flag_congr _ _ ?_) fun h => hadds h.2
            push Not at hadds
            obtain ⟨t, ht, -, hadd⟩ := hadds
            exact ⟨t.1, List.mem_map_of_mem ht, Bool.eq_false_iff.mpr hadd⟩
        · obtain ⟨heq, t, ht, htrue, hadd⟩ := hs.flag_eq b false
          refine iff_of_true heq fun ⟨_, hadds⟩ => ?_
          rw [hadds t ht htrue] at hadd
          cases hadd
      rw [hlive, hlog, Option.some_inj, Prod.mk.injEq, hflag, Claimed, not_or, not_not]
  | (.add v, false) :: ts, b, h => by
      obtain ⟨hb, -⟩ | hs := h.cons
      · cases hb
      · have ih := claimed_iff (w := w) (b := b) (show Settled none ts from hs)
        exact ih
  | (.mark, b₀) :: ts, b, h => by
      obtain ⟨-, hacc, -⟩ | hs := h.cons
      · cases hacc
      · have hs : Settled none ts := by cases b₀ <;> exact hs
        have ih := claimed_iff (w := w) (b := true) hs
        cases b₀ <;> exact ih
  | (.unmark, b₀) :: ts, b, h => by
      obtain ⟨-, hacc, -⟩ | hs := h.cons
      · cases hacc
      · have hs : Settled none ts := by cases b₀ <;> exact hs
        have ih := claimed_iff (w := w) (b := false) hs
        cases b₀ <;> exact ih

/-- Replay on an absent key. -/
theorem overridden_iff : ∀ {ts : List (KeyOp F × Bool)}, Settled none ts →
    ((ts.map Prod.fst).foldl cell none = (performed ts).foldl cell none ↔ ¬ Overridden ts)
  | [], h => by
      obtain ⟨pre, o, post, heq, -⟩ := h
      simp at heq
  | (.add v, true) :: ts, h => by
      refine iff_of_true ?_ not_false
      have hlog : (((.add v, true) :: ts).map Prod.fst).foldl cell none =
          some (v, (ts.map Prod.fst).foldl flag false) := foldl_cell_some v (ts.map Prod.fst) false
      have hlive : (performed ((.add v, true) :: ts)).foldl cell none =
          some (v, (performed ts).foldl flag false) := foldl_cell_some v (performed ts) false
      rw [hlog, hlive]
      obtain ⟨-, -, hall⟩ | hs := h.cons
      · rw [performed_of_all hall]
      · rw [(hs.flag_eq false false).1]
  | (.add w, false) :: ts, h => by
      obtain ⟨hb, -⟩ | hs := h.cons
      · cases hb
      · have hclaimed := claimed_iff (w := w) (b := false) (show Settled none ts from hs)
        exact hclaimed
  | (.mark, b₀) :: ts, h => by
      obtain ⟨-, hacc, -⟩ | hs := h.cons
      · cases hacc
      · have ih := overridden_iff (show Settled none ts by cases b₀ <;> exact hs)
        cases b₀ <;> exact ih
  | (.unmark, b₀) :: ts, h => by
      obtain ⟨-, hacc, -⟩ | hs := h.cons
      · cases hacc
      · have ih := overridden_iff (show Settled none ts by cases b₀ <;> exact hs)
        cases b₀ <;> exact ih

theorem not_overridden_of_all : ∀ {ts : List (KeyOp F × Bool)}, (∀ t ∈ ts, t.2 = true) →
    ¬ Overridden ts
  | [], _ => not_false
  | (.add v, true) :: ts, _ => not_false
  | (.add v, false) :: ts, h => nomatch h _ List.mem_cons_self
  | (.mark, b) :: ts, h => by
      have ih := not_overridden_of_all fun t ht => h t (List.mem_cons_of_mem _ ht)
      cases b <;> exact ih
  | (.unmark, b) :: ts, h => by
      have ih := not_overridden_of_all fun t ht => h t (List.mem_cons_of_mem _ ht)
      cases b <;> exact ih

/-- **A log with failed operations in it**, on a key that has been settled: it leaves the entry that
the performed ones leave exactly when the key was there before or is not overridden. -/
theorem replay_eq_iff {e : Option (List F × Bool)} {ts : List (KeyOp F × Bool)}
    (h : (∀ t ∈ ts, t.2 = true) ∨ Settled e ts) :
    (ts.map Prod.fst).foldl cell e = (performed ts).foldl cell e ↔
      e.isSome = true ∨ ¬ Overridden ts := by
  obtain hall | hs := h
  · rw [performed_of_all hall]
    exact iff_of_true rfl (Or.inr (not_overridden_of_all hall))
  · obtain - | ⟨v, b⟩ := e
    · rw [or_iff_right (by simp)]
      exact overridden_iff hs
    · refine iff_of_true ?_ (Or.inl rfl)
      rw [foldl_cell_some, foldl_cell_some, (hs.flag_eq b b).1]

end KeyOp
end VectorSearch.Hnsw
