import VectorSearch.Lib.KeyedLog

/-! # Key maps

What the index is for: a map from keys to vectors with tombstones, and three operations on it.
`KeyMap.apply` performs an operation on the entry of its key and `KeyMap.run` a log of them, as a
keyed store.

A log may be performed a second time on its own result.  On the entry of one key this changes
nothing unless the operations on the key end with a deletion followed by nothing but its adds
(`refold_eq`, `refold_ne`): a deletion that did nothing the first time, because the key was not
there yet, and that finds the key the second time (`KeyMap.run_twice`). -/

namespace VectorSearch.Hnsw

/-- A label is scoped to the client that chose it. -/
structure Label where
  clientId : UInt64
  label : UInt64
deriving DecidableEq, Repr

/-- A vector and whether it is tombstoned, for each key that is there. -/
abbrev KeyMap (F : Type) := Label → Option (List F × Bool)

/-- An operation on a key map. -/
inductive KeyOp (F : Type) where
  | add (vec : List F)
  | mark
  | unmark
deriving DecidableEq

/-- What an operation makes of the entry of its key: a second add, and a mark or unmark of a key
that is not there, change nothing. -/
def KeyOp.cell {F : Type} : Option (List F × Bool) → KeyOp F → Option (List F × Bool)
  | none, .add vec => some (vec, false)
  | some e, .add _ => some e
  | none, .mark => none
  | some (v, _), .mark => some (v, true)
  | none, .unmark => none
  | some (v, _), .unmark => some (v, false)

namespace KeyOp
variable {F : Type}

def isAdd : KeyOp F → Bool
  | .add _ => true
  | _ => false

/-- What an operation makes of the tombstone of a key that is there. -/
def flag (b : Bool) : KeyOp F → Bool
  | .add _ => b
  | .mark => true
  | .unmark => false

theorem foldl_cell_some (v : List F) : ∀ (os : List (KeyOp F)) (b : Bool),
    os.foldl cell (some (v, b)) = some (v, os.foldl flag b)
  | [], _ => rfl
  | .add _ :: os, b => foldl_cell_some v os b
  | .mark :: os, _ => foldl_cell_some v os true
  | .unmark :: os, _ => foldl_cell_some v os false

theorem foldl_cell_none : ∀ {os : List (KeyOp F)}, (∀ o ∈ os, o.isAdd = false) →
    os.foldl cell none = none
  | [], _ => rfl
  | .add _ :: os, h => nomatch h _ List.mem_cons_self
  | .mark :: os, h => by
      have ih : os.foldl cell none = none :=
        foldl_cell_none fun o ho => h o (List.mem_cons_of_mem _ ho)
      exact ih
  | .unmark :: os, h => by
      have ih : os.foldl cell none = none :=
        foldl_cell_none fun o ho => h o (List.mem_cons_of_mem _ ho)
      exact ih

/-- Adds leave the tombstone alone. -/
theorem foldl_flag_adds : ∀ {os : List (KeyOp F)} (b : Bool), (∀ o ∈ os, o.isAdd = true) →
    os.foldl flag b = b
  | [], _, _ => rfl
  | .add _ :: os, b, h => by
      have ih : os.foldl flag b = b :=
        foldl_flag_adds b fun o ho => h o (List.mem_cons_of_mem _ ho)
      exact ih
  | .mark :: os, b, h => nomatch h _ List.mem_cons_self
  | .unmark :: os, b, h => nomatch h _ List.mem_cons_self

/-- Any other operation makes the tombstone before it irrelevant. -/
theorem foldl_flag_congr : ∀ {os : List (KeyOp F)} (b b' : Bool), (∃ o ∈ os, o.isAdd = false) →
    os.foldl flag b = os.foldl flag b'
  | [], _, _, h => by
      obtain ⟨o, ho, -⟩ := h
      cases ho
  | .add v :: os, b, b', h => by
      obtain ⟨o, ho, hadd⟩ := h
      obtain rfl | ho := List.mem_cons.mp ho
      · cases hadd
      · have ih : os.foldl flag b = os.foldl flag b' := foldl_flag_congr b b' ⟨o, ho, hadd⟩
        exact ih
  | .mark :: os, _, _, _ => rfl
  | .unmark :: os, _, _, _ => rfl

theorem exists_first_add : ∀ {os : List (KeyOp F)}, (∃ o ∈ os, o.isAdd = true) →
    ∃ pre v post, os = pre ++ .add v :: post ∧ ∀ o ∈ pre, o.isAdd = false
  | [], h => by
      obtain ⟨o, ho, -⟩ := h
      cases ho
  | o :: os, h => by
      cases o with
      | add v => exact ⟨[], v, os, rfl, nofun⟩
      | mark | unmark =>
          obtain ⟨o', ho', hadd⟩ := h
          have ho' := (List.mem_cons.mp ho').resolve_left (by rintro rfl; cases hadd)
          obtain ⟨pre, v, post, rfl, hpre⟩ := exists_first_add ⟨o', ho', hadd⟩
          refine ⟨_ :: pre, v, post, rfl, fun o ho => ?_⟩
          obtain rfl | ho := List.mem_cons.mp ho
          · rfl
          · exact hpre o ho

/-- A deletion that comes before the first add of its key and is the last word on its tombstone. -/
def Ghost (os : List (KeyOp F)) : Prop :=
  ∃ pre post, os = pre ++ .mark :: post ∧ (∀ o ∈ pre, o.isAdd = false) ∧ post ≠ [] ∧
    ∀ o ∈ post, o.isAdd = true

/-- A ghost deletion takes effect when the operations are performed a second time. -/
theorem refold_ne {os : List (KeyOp F)} (h : Ghost os) :
    os.foldl cell (os.foldl cell none) ≠ os.foldl cell none := by
  obtain ⟨pre, post, rfl, hpre, hne, hpost⟩ := h
  obtain ⟨o, post, rfl⟩ := List.exists_cons_of_ne_nil hne
  obtain ⟨v, rfl⟩ : ∃ v, o = .add v := by
    cases o with
    | add v => exact ⟨v, rfl⟩
    | mark | unmark => exact nomatch hpost _ List.mem_cons_self
  have hrest : ∀ o ∈ post, o.isAdd = true := fun o ho => hpost o (List.mem_cons_of_mem _ ho)
  have hlive : (pre ++ .mark :: .add v :: post).foldl cell none = some (v, false) := by
    rw [List.foldl_append, foldl_cell_none hpre]
    exact (foldl_cell_some v post false).trans (by rw [foldl_flag_adds _ hrest])
  have hagain : (pre ++ .mark :: .add v :: post).foldl flag false = true := by
    have htail : post.foldl flag true = true := foldl_flag_adds true hrest
    rw [List.foldl_append]
    exact htail
  rw [hlive, foldl_cell_some, hagain]
  simp

/-- Without one, the second time changes nothing. -/
theorem refold_eq {os : List (KeyOp F)} (h : ¬ Ghost os) :
    os.foldl cell (os.foldl cell none) = os.foldl cell none := by
  by_cases hadd : ∃ o ∈ os, o.isAdd = true
  · obtain ⟨pre, v, post, rfl, hpre⟩ := exists_first_add hadd
    have hlive : (pre ++ .add v :: post).foldl cell none = some (v, post.foldl flag false) := by
      rw [List.foldl_append, foldl_cell_none hpre]
      exact foldl_cell_some v post false
    have hagain : (pre ++ .add v :: post).foldl flag (post.foldl flag false) =
        post.foldl flag (pre.foldl flag (post.foldl flag false)) := List.foldl_append
    rw [hlive, foldl_cell_some, hagain]
    by_cases hpost : ∀ o ∈ post, o.isAdd = true
    · -- only adds follow, so the tombstone is what the operations before them left
      rw [foldl_flag_adds _ hpost, foldl_flag_adds _ hpost]
      obtain rfl | ⟨pre', o, rfl⟩ := List.eq_nil_or_concat pre
      · rfl
      · cases o with
        | add w => exact nomatch hpre (.add w) (by simp)
        | mark =>
            refine absurd ⟨pre', .add v :: post, by simp, fun o ho => hpre o (by simp [ho]), by simp,
              fun o ho => ?_⟩ h
            obtain rfl | ho := List.mem_cons.mp ho
            · rfl
            · exact hpost o ho
        | unmark =>
            rw [List.concat_eq_append, List.foldl_append]
            rfl
    · push Not at hpost
      obtain ⟨o, ho, hne⟩ := hpost
      rw [foldl_flag_congr _ false ⟨o, ho, Bool.eq_false_iff.mpr hne⟩]
  · push Not at hadd
    have hnone := foldl_cell_none fun o ho => Bool.eq_false_iff.mpr (hadd o ho)
    rw [hnone, hnone]

end KeyOp

namespace KeyOp
variable {F : Type} {v : List F} {q : Prop}

/-- If the key is there, its vector is `v`; and it is live when `q` holds. -/
def Own (v : List F) (q : Prop) (e : Option (List F × Bool)) : Prop :=
  ∀ u b, e = some (u, b) → u = v ∧ (q → b = false)

theorem own_none : Own v q none := nofun

/-- Adding `v`, and tombstoning when `q` does not hold, keep an entry of one's own. -/
theorem Own.cell {e : Option (List F × Bool)} (he : Own v q e) {o : KeyOp F}
    (ho : o = .add v ∨ o.isAdd = false ∧ ¬ q) : Own v q (o.cell e) := by
  obtain - | ⟨u, b⟩ := e
  · obtain rfl | ⟨hadd, hq⟩ := ho
    · rintro u b ⟨⟩
      exact ⟨rfl, fun _ => rfl⟩
    · cases o with
      | add w => cases hadd
      | mark | unmark => exact own_none
  · obtain ⟨rfl, hb⟩ := he u b rfl
    obtain rfl | ⟨hadd, hq⟩ := ho
    · exact he
    · cases o with
      | add w => cases hadd
      | mark | unmark =>
          rintro u' b' ⟨⟩
          exact ⟨rfl, fun h => absurd h hq⟩

theorem Own.foldl {os : List (KeyOp F)} {e : Option (List F × Bool)} (he : Own v q e)
    (hos : ∀ o ∈ os, o = .add v ∨ o.isAdd = false ∧ ¬ q) : Own v q (os.foldl KeyOp.cell e) := by
  induction os generalizing e with
  | nil => exact he
  | cons o os ih =>
      exact ih (he.cell (hos o List.mem_cons_self)) fun o' h => hos o' (List.mem_cons_of_mem _ h)

end KeyOp

namespace KeyMap
variable {F : Type}

/-- Perform an operation on the entry of its key. -/
def apply (m : KeyMap F) (o : Label × KeyOp F) : KeyMap F :=
  KeyedLog.apply Prod.fst (fun e o => o.2.cell e) m o

/-- Perform a log. -/
def run (m : KeyMap F) (os : List (Label × KeyOp F)) : KeyMap F :=
  KeyedLog.run Prod.fst (fun e o => o.2.cell e) m os

@[simp] theorem run_nil (m : KeyMap F) : m.run [] = m := rfl

theorem run_cons (m : KeyMap F) (o : Label × KeyOp F) (os : List (Label × KeyOp F)) :
    m.run (o :: os) = (m.apply o).run os := rfl

/-- The operations on a key, without the key. -/
def opsOn (k : Label) (os : List (Label × KeyOp F)) : List (KeyOp F) :=
  (KeyedLog.on Prod.fst k os).map Prod.snd

theorem run_at (m : KeyMap F) (os : List (Label × KeyOp F)) (k : Label) :
    m.run os k = (opsOn k os).foldl KeyOp.cell (m k) := by
  rw [run, KeyedLog.run_at, opsOn, List.foldl_map]

theorem apply_same (m : KeyMap F) (k : Label) (op : KeyOp F) :
    m.apply (k, op) k = op.cell (m k) := KeyedLog.apply_same m (k, op)

theorem apply_ne (m : KeyMap F) {k k' : Label} (op : KeyOp F) (h : k' ≠ k) :
    m.apply (k, op) k' = m k' := KeyedLog.apply_ne m h

theorem apply_of_cell_eq {m : KeyMap F} {k : Label} {op : KeyOp F} (h : op.cell (m k) = m k) :
    m.apply (k, op) = m := by
  rw [apply, KeyedLog.apply, h]
  exact Function.update_eq_self _ _

/-- **Performing a log again** changes nothing exactly when no key has a ghost deletion. -/
theorem run_twice (os : List (Label × KeyOp F)) :
    (run (fun _ => none) os).run os = run (fun _ => none) os ↔
      ∀ k, ¬ KeyOp.Ghost (opsOn k os) := by
  constructor
  · intro h k hghost
    have hk := congrFun h k
    rw [run_at, run_at] at hk
    exact KeyOp.refold_ne hghost hk
  · intro h
    funext k
    rw [run_at, run_at]
    exact KeyOp.refold_eq (h k)

end KeyMap

end VectorSearch.Hnsw
