import Mathlib.Order.Basic
import Mathlib.Data.List.Basic
import Mathlib.Data.List.TakeDrop
import Mathlib.Data.Nat.Basic

/-! # Buffered output streams

An `OutputStream` collects what is written to it in a buffer of a fixed capacity.  It flushes the
buffer to the file when the next item does not fit, and once more when it is closed.  The `i`-th flush
finds room for `room i` items; one that does not get everything to the file sets the error state, and
then nothing more is written.

The error state is lost with the stream: one who asks before closing does not learn of the last flush
(`close_eq_iff`). -/

structure OutputStream (α : Type) where
  file : List α
  buffer : List α
  /-- how many times the buffer was flushed -/
  flushes : ℕ
  failed : Bool
deriving DecidableEq

namespace OutputStream

variable {α : Type} (room : ℕ → ℕ) (cap : ℕ)

/-- A stream on a new file. -/
def opened : OutputStream α := ⟨[], [], 0, false⟩

def flush (f : OutputStream α) : OutputStream α where
  file := f.file ++ f.buffer.take (room f.flushes)
  buffer := []
  flushes := f.flushes + 1
  failed := f.failed || decide (room f.flushes < f.buffer.length)

/-- Add an item, after a flush if the buffer is full. -/
def put (f : OutputStream α) (a : α) : OutputStream α :=
  if f.failed then f
  else if f.buffer.length < cap then { f with buffer := f.buffer ++ [a] }
  else if (f.flush room).failed then f.flush room
  else { f.flush room with buffer := [a] }

def write (f : OutputStream α) (as : List α) : OutputStream α := as.foldl (put room cap) f

/-- What the file holds when the stream is gone. -/
def close (f : OutputStream α) : List α := (f.flush room).file

/-- How often the buffer is flushed while `n` items are written. -/
def flushesOf (n : ℕ) : ℕ := (n - 1) / cap

theorem flushesOf_mono {m n : ℕ} (h : m ≤ n) : flushesOf cap m ≤ flushesOf cap n :=
  Nat.div_le_div_right (Nat.sub_le_sub_right h 1)

/-! ### The invariant -/

/-- Without an error `as` is in the file and the buffer. -/
structure Running (f : OutputStream α) (as : List α) : Prop where
  failed : f.failed = false
  items : f.file ++ f.buffer = as
  length_file : f.file.length = f.flushes * cap
  length_buffer : f.buffer.length ≤ cap
  pending : as ≠ [] → f.buffer ≠ []
  room : ∀ i < f.flushes, cap ≤ room i

/-- With an error a flush on the way has failed. -/
structure Stopped (f : OutputStream α) (as : List α) : Prop where
  failed : f.failed = true
  room : ∃ i < flushesOf cap as.length, room i < cap

variable {room cap} {f : OutputStream α} {as : List α}

theorem Running.opened : Running room cap (opened : OutputStream α) [] where
  failed := rfl
  items := rfl
  length_file := (Nat.zero_mul cap).symm
  length_buffer := Nat.zero_le cap
  pending h := absurd rfl h
  room _ hi := absurd hi (Nat.not_lt_zero _)

theorem Running.length_eq (h : Running room cap f as) :
    as.length = f.flushes * cap + f.buffer.length := by
  rw [← h.items, List.length_append, h.length_file]

theorem Running.flushes_eq (h : Running room cap f as) (hcap : 0 < cap) :
    f.flushes = flushesOf cap as.length := by
  have hlen := h.length_eq
  have hle := h.length_buffer
  rw [flushesOf, eq_comm, Nat.div_eq_iff hcap]
  by_cases has : as = []
  · rw [has, List.length_nil] at hlen ⊢
    omega
  · have hpos := List.length_pos_of_ne_nil (h.pending has)
    omega

/-- An item is added, or the buffer is full and does not get to the file. -/
theorem Running.put (h : Running room cap f as) (hcap : 0 < cap) (a : α) :
    Running room cap (f.put room cap a) (as ++ [a]) ∨
      Stopped room cap (f.put room cap a) (as ++ [a]) := by
  have hlen := h.length_eq
  unfold OutputStream.put
  rw [if_neg (by rw [h.failed]; exact Bool.false_ne_true)]
  by_cases hfits : f.buffer.length < cap
  · rw [if_pos hfits]
    left
    refine ⟨h.failed, ?_, h.length_file, ?_, fun _ => List.concat_ne_nil a f.buffer, h.room⟩
    · rw [← h.items, List.append_assoc]
    · rw [List.length_append, List.length_singleton]
      exact hfits
  · have hfull : f.buffer.length = cap := le_antisymm h.length_buffer (not_lt.mp hfits)
    have hfailed : (f.flush room).failed = decide (room f.flushes < cap) := by
      rw [flush, h.failed, hfull, Bool.false_or]
    rw [if_neg hfits, hfailed]
    by_cases hroom : room f.flushes < cap
    · rw [if_pos (decide_eq_true hroom)]
      right
      refine ⟨by rw [hfailed, decide_eq_true hroom], f.flushes, ?_, hroom⟩
      have hmul : f.flushes * cap + cap = (f.flushes + 1) * cap := (Nat.succ_mul _ _).symm
      rw [flushesOf, List.length_append, List.length_singleton, Nat.add_sub_cancel, hlen, hfull,
        hmul, Nat.mul_div_cancel _ hcap]
      exact Nat.lt_succ_self _
    · rw [if_neg (by rw [decide_eq_false hroom]; exact Bool.false_ne_true)]
      left
      have htake : f.buffer.take (room f.flushes) = f.buffer :=
        List.take_of_length_le (hfull.le.trans (not_lt.mp hroom))
      refine ⟨by rw [hfailed, decide_eq_false hroom], ?_, ?_, hcap, fun _ => List.cons_ne_nil a [],
        fun i hi => ?_⟩
      · rw [← h.items, flush, htake]
      · rw [flush, htake, List.length_append, h.length_file, hfull, Nat.succ_mul]
      · obtain hlt | rfl := Nat.lt_succ_iff_lt_or_eq.mp hi
        · exact h.room i hlt
        · exact not_lt.mp hroom

theorem Stopped.put (h : Stopped room cap f as) (a : α) :
    Stopped room cap (f.put room cap a) (as ++ [a]) := by
  obtain ⟨i, hi, hroom⟩ := h.room
  unfold OutputStream.put
  rw [if_pos h.failed]
  refine ⟨h.failed, i, ?_, hroom⟩
  exact lt_of_lt_of_le hi (flushesOf_mono cap (by rw [List.length_append]; omega))

theorem write_spec (hcap : 0 < cap) : ∀ (bs : List α) {f : OutputStream α} {as : List α},
    Running room cap f as ∨ Stopped room cap f as →
      Running room cap (f.write room cap bs) (as ++ bs) ∨
        Stopped room cap (f.write room cap bs) (as ++ bs)
  | [], f, as, h => by
      rw [List.append_nil]
      exact h
  | b :: bs, f, as, h => by
      have hput : Running room cap (f.put room cap b) (as ++ [b]) ∨
          Stopped room cap (f.put room cap b) (as ++ [b]) := by
        obtain hrun | hstop := h
        · exact hrun.put hcap b
        · exact Or.inr (hstop.put b)
      have hrest := write_spec hcap bs hput
      rw [List.append_assoc, List.singleton_append] at hrest
      exact hrest

/-! ### What is written -/

section
variable (room) (hcap : 0 < cap) (as : List α)
include hcap

theorem written : Running room cap (opened.write room cap as) as ∨
    Stopped room cap (opened.write room cap as) as :=
  write_spec hcap as (Or.inl Running.opened)

/-- The error state is set when a flush on the way fails. -/
theorem failed_iff : (opened.write room cap as).failed = true ↔
    ∃ i < flushesOf cap as.length, room i < cap := by
  obtain hrun | hstop := written room hcap as
  · refine iff_of_false (by rw [hrun.failed]; exact Bool.false_ne_true) ?_
    rintro ⟨i, hi, hlt⟩
    exact absurd (hrun.room i (hrun.flushes_eq hcap ▸ hi)) (not_le.mpr hlt)
  · exact iff_of_true hstop.failed hstop.room

/-- Without an error so far the file is complete when the last flush succeeds. -/
theorem close_eq_iff (hok : (opened.write room cap as).failed = false) :
    (opened.write room cap as).close room = as ↔
      as.length ≤ flushesOf cap as.length * cap + room (flushesOf cap as.length) := by
  obtain hrun | hstop := written room hcap as
  · have hflushes := hrun.flushes_eq hcap
    have hlen := hrun.length_eq
    have hfile : (opened.write room cap as).close room = as ↔
        (opened.write room cap as).buffer.length ≤ room (flushesOf cap as.length) := by
      rw [close, flush, hflushes]
      conv_lhs =>
        rhs
        rw [← hrun.items]
      rw [List.append_right_inj, List.take_eq_self_iff]
    rw [hfile, ← hflushes]
    omega
  · rw [hstop.failed] at hok
    cases hok

end

end OutputStream
