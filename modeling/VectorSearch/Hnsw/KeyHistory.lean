import VectorSearch.Hnsw.KeyMap
import VectorSearch.Lib.History

/-! # Key maps whose operations all take effect

An operation takes effect on a key map when it changes it: an add of a key that is not there, a
deletion of a live key, an undeletion of a tombstoned one (`takes_cases`).  In a log whose operations
all take effect a key is added at most once, and keeps that vector (`Legal.add_once`). -/

namespace VectorSearch.Hnsw

namespace KeyMap
variable {F : Type} {m : KeyMap F} {k : Label} {op : KeyOp F}

/-- The operation changes the map. -/
def Takes (m : KeyMap F) (o : Label × KeyOp F) : Prop := m.apply o ≠ m

/-- All operations of a log take effect, one after the other. -/
abbrev Legal (m : KeyMap F) (os : List (Label × KeyOp F)) : Prop := History.Legal apply Takes m os

theorem takes_iff : m.Takes (k, op) ↔ op.cell (m k) ≠ m k := by
  refine not_congr ⟨fun h => ?_, apply_of_cell_eq⟩
  rw [← apply_same m k op, h]

/-- What the entry of a key is when an operation on it takes effect, and what it becomes. -/
theorem takes_cases (h : m.Takes (k, op)) :
    (∃ v, op = .add v ∧ m k = none ∧ m.apply (k, op) k = some (v, false)) ∨
      (∃ v, op = .mark ∧ m k = some (v, false) ∧ m.apply (k, op) k = some (v, true)) ∨
      ∃ v, op = .unmark ∧ m k = some (v, true) ∧ m.apply (k, op) k = some (v, false) := by
  rw [takes_iff] at h
  rw [apply_same]
  cases hk : m k with
  | none =>
      rw [hk] at h
      cases op with
      | add v => exact Or.inl ⟨v, rfl, rfl, rfl⟩
      | mark | unmark => exact absurd rfl h
  | some e =>
      obtain ⟨v, b⟩ := e
      rw [hk] at h
      cases op with
      | add w => exact absurd rfl h
      | mark =>
          cases b with
          | false => exact Or.inr (Or.inl ⟨v, rfl, rfl, rfl⟩)
          | true => exact absurd rfl h
      | unmark =>
          cases b with
          | false => exact absurd rfl h
          | true => exact Or.inr (Or.inr ⟨v, rfl, rfl, rfl⟩)

/-- An operation that takes effect leaves the vector of a key alone. -/
theorem apply_some {o : Label × KeyOp F} {v : List F} {b : Bool} (hk : m k = some (v, b)) :
    ∃ b', m.apply o k = some (v, b') := by
  obtain ⟨k', op⟩ := o
  by_cases hkk : k = k'
  · subst hkk
    rw [apply_same, hk]
    cases op with
    | add w => exact ⟨b, rfl⟩
    | mark => exact ⟨true, rfl⟩
    | unmark => exact ⟨false, rfl⟩
  · exact ⟨b, (apply_ne m op hkk).trans hk⟩

/-- A key that is there is not added, and keeps its vector. -/
theorem Legal.no_add : ∀ {os : List (Label × KeyOp F)} {m : KeyMap F} {v : List F} {b : Bool},
    m.Legal os → m k = some (v, b) →
      (∀ w, (k, KeyOp.add w) ∉ os) ∧ ∃ b', os.foldl apply m k = some (v, b')
  | [], _, _, b, _, hk => ⟨fun _ => List.not_mem_nil, b, hk⟩
  | o :: os, m, v, b, h, hk => by
      obtain ⟨htakes, hrest⟩ := h
      obtain ⟨b', hk'⟩ := apply_some (o := o) hk
      obtain ⟨hno, hlast⟩ := Legal.no_add hrest hk'
      refine ⟨fun w hw => ?_, hlast⟩
      obtain rfl | hw := List.mem_cons.mp hw
      · rw [takes_iff, hk] at htakes
        exact htakes rfl
      · exact hno w hw

/-- **A key is added once**, and keeps the vector that it was added with. -/
theorem Legal.add_once {os os' : List (Label × KeyOp F)} {v : List F}
    (h : m.Legal (os ++ (k, .add v) :: os')) :
    (∀ w, (k, KeyOp.add w) ∉ os ++ os') ∧
      ∃ b, (os ++ (k, .add v) :: os').foldl apply m k = some (v, b) := by
  obtain ⟨hbefore, htakes, hafter⟩ := History.legal_append.mp h
  have hnone : os.foldl apply m k = none ∧
      (os.foldl apply m).apply (k, .add v) k = some (v, false) := by
    obtain ⟨w, hop, hnone, hsome⟩ | ⟨w, hop, -⟩ | ⟨w, hop, -⟩ := takes_cases htakes
    · cases hop
      exact ⟨hnone, hsome⟩
    · cases hop
    · cases hop
  obtain ⟨hno, hlast⟩ := Legal.no_add hafter hnone.2
  refine ⟨fun w hw => ?_, ?_⟩
  · obtain hw | hw := List.mem_append.mp hw
    · -- after an add the key would be there
      obtain ⟨pre, post, rfl⟩ := List.append_of_mem hw
      obtain ⟨-, htakes', hpost⟩ := History.legal_append.mp hbefore
      obtain ⟨w', hop, -, hsome⟩ | ⟨w', hop, -⟩ | ⟨w', hop, -⟩ := takes_cases htakes'
      · obtain ⟨b, hb⟩ := (Legal.no_add hpost hsome).2
        rw [List.foldl_append, List.foldl_cons, hb] at hnone
        cases hnone.1
      · cases hop
      · cases hop
    · exact hno w hw
  · rw [List.foldl_append, List.foldl_cons]
    exact hlast

end KeyMap

end VectorSearch.Hnsw
