import Mathlib.Data.Finset.Basic

/-! # Reader-writer locks

An `RwLock` records which threads hold it in shared mode and which one in exclusive mode.  It is
given in exclusive mode when nobody holds it, and in shared mode when nobody holds it in exclusive
mode (`acquire`); a thread that is not given it stays where it is.

`Tracks lock mode` says that the lock knows in which mode each thread holds it, and that a thread
that holds it in exclusive mode is the only one.  Acquiring and releasing keep it
(`Tracks.acquire`, `Tracks.release`). -/

structure RwLock (ι : Type) where
  readers : Finset ι
  writer : Option ι

namespace RwLock

inductive Mode where
  | shared
  | exclusive
deriving DecidableEq, Repr

variable {ι : Type} [DecidableEq ι]

def free (ι : Type) : RwLock ι := ⟨∅, none⟩

/-- Give the lock to thread `t`, if that is possible. -/
def acquire (lock : RwLock ι) (t : ι) : Mode → Option (RwLock ι)
  | .shared =>
      if lock.writer.isNone then some { lock with readers := insert t lock.readers } else none
  | .exclusive =>
      if lock.writer.isNone ∧ lock.readers = ∅ then some { lock with writer := some t } else none

def release (lock : RwLock ι) (t : ι) : Mode → RwLock ι
  | .shared => { lock with readers := lock.readers.erase t }
  | .exclusive => { lock with writer := none }

/-- The lock knows the mode of every thread. -/
structure Tracks (lock : RwLock ι) (mode : ι → Option Mode) : Prop where
  reader : ∀ t, t ∈ lock.readers ↔ mode t = some .shared
  writer : ∀ t, lock.writer = some t ↔ mode t = some .exclusive
  alone : ∀ t, lock.writer = some t → lock.readers = ∅

omit [DecidableEq ι] in
theorem Tracks.free : Tracks (free ι) fun _ => none := by
  refine ⟨fun t => ?_, fun t => ?_, fun t h => nomatch h⟩
  · exact iff_of_false (Finset.notMem_empty t) nofun
  · exact iff_of_false nofun nofun

variable {lock lock' : RwLock ι} {mode mode' : ι → Option Mode} {t : ι} {m : Mode}

omit [DecidableEq ι] in
theorem Tracks.congr (h : Tracks lock mode) (hmode : mode' = mode) : Tracks lock mode' := hmode ▸ h

omit [DecidableEq ι] in
/-- Nobody holds the lock next to a thread in exclusive mode. -/
theorem Tracks.eq_none (h : Tracks lock mode) (ht : mode t = some .exclusive) {u : ι} (hu : u ≠ t) :
    mode u = none := by
  have hwriter := (h.writer t).mpr ht
  cases hm : mode u with
  | none => rfl
  | some m =>
      cases m with
      | shared =>
          have hmem := (h.reader u).mpr hm
          rw [h.alone t hwriter] at hmem
          exact absurd hmem (Finset.notMem_empty u)
      | exclusive =>
          have huw := (h.writer u).mpr hm
          rw [hwriter] at huw
          exact absurd (Option.some.inj huw).symm hu

/-- What it takes to be given the lock. -/
theorem acquire_eq_some (hacq : lock.acquire t m = some lock') :
    lock.writer = none ∧ (m = .shared ∧ lock' = { lock with readers := insert t lock.readers } ∨
      m = .exclusive ∧ lock.readers = ∅ ∧ lock' = { lock with writer := some t }) := by
  cases m with
  | shared =>
      simp only [acquire] at hacq
      split_ifs at hacq with hnone
      exact ⟨Option.isNone_iff_eq_none.mp hnone, Or.inl ⟨rfl, (Option.some.inj hacq).symm⟩⟩
  | exclusive =>
      simp only [acquire] at hacq
      split_ifs at hacq with hnone
      exact ⟨Option.isNone_iff_eq_none.mp hnone.1,
        Or.inr ⟨rfl, hnone.2, (Option.some.inj hacq).symm⟩⟩

/-- **A thread is given the lock.** -/
theorem Tracks.acquire (h : Tracks lock mode) (hacq : lock.acquire t m = some lock') :
    Tracks lock' (Function.update mode t (some m)) := by
  obtain ⟨hwriter, ⟨rfl, rfl⟩ | ⟨rfl, hempty, rfl⟩⟩ := acquire_eq_some hacq
  · refine ⟨fun u => ?_, fun u => ?_, fun u hu => ?_⟩
    · by_cases hut : u = t
      · simp [hut]
      · simp [hut, h.reader u]
    · by_cases hut : u = t
      · simp [hut, hwriter]
      · simp only [Function.update_of_ne hut]
        exact h.writer u
    · rw [hwriter] at hu
      cases hu
  · refine ⟨fun u => ?_, fun u => ?_, fun u _ => hempty⟩
    · by_cases hut : u = t
      · simp [hut, hempty]
      · simp only [Function.update_of_ne hut]
        exact h.reader u
    · by_cases hut : u = t
      · simp [hut]
      · have hnot := h.writer u
        rw [hwriter] at hnot
        simp only [Function.update_of_ne hut, Option.some.injEq, Ne.symm hut, false_iff]
        exact fun hu => nomatch hnot.mpr hu

/-- **A thread gives the lock back.** -/
theorem Tracks.release (h : Tracks lock mode) (ht : mode t = some m) :
    Tracks (lock.release t m) (Function.update mode t none) := by
  cases m with
  | shared =>
      have hwriter : ∀ u, lock.writer = some u → u ≠ t := by
        rintro u hu rfl
        rw [(h.writer u).mp hu] at ht
        cases ht
      refine ⟨fun u => ?_, fun u => ?_, fun u hu => ?_⟩
      · by_cases hut : u = t
        · simp [RwLock.release, hut]
        · simp [RwLock.release, hut, h.reader u]
      · by_cases hut : u = t
        · simp only [RwLock.release, hut, Function.update_self]
          exact iff_of_false (fun hu => hwriter t hu rfl) nofun
        · simp only [RwLock.release, Function.update_of_ne hut]
          exact h.writer u
      · have hempty := h.alone u hu
        simp [RwLock.release, hempty]
  | exclusive =>
      have hempty := h.alone t ((h.writer t).mpr ht)
      have hothers : ∀ u ≠ t, mode u = none := fun u hu => h.eq_none ht hu
      refine ⟨fun u => ?_, fun u => ?_, fun u hu => nomatch hu⟩
      · by_cases hut : u = t
        · simp [RwLock.release, hut, hempty]
        · simp [RwLock.release, hempty, hut, hothers u hut]
      · by_cases hut : u = t
        · simp [RwLock.release, hut]
        · simp [RwLock.release, hut, hothers u hut]

end RwLock
