import Mathlib.Tactic
import Mathlib.Data.List.Basic

/-! # Logs over a keyed store

A keyed store is a family of cells indexed by keys.  An operation names the key it acts on
(`key`) and changes that key's cell by a step function (`cell`); `apply` performs it on the store
and `run` performs a log of them.  Only the operations on a key matter for its cell (`run_at`).

`Lag` relates a log, the operations of the log that are still pending, and the store they are
applied to one at a time: for each key, the pending operations on it come last in the log and the
store has performed all the others.  Logging an operation keeps it (`Lag.append`), and so does
applying the first pending operation of a key (`Lag.apply`); when nothing is pending the store is
the replay of the log (`Lag.quiescent`). -/

namespace KeyedLog

variable {K S O : Type} [DecidableEq K] (key : O → K) (cell : S → O → S)

/-- Perform one operation on the cell of its key. -/
def apply (m : K → S) (o : O) : K → S := Function.update m (key o) (cell (m (key o)) o)

/-- Perform a log from left to right. -/
def run (m : K → S) (os : List O) : K → S := os.foldl (apply key cell) m

/-- The operations on key `k`. -/
def on (k : K) (os : List O) : List O := os.filter (fun o => key o = k)

variable {key cell}

@[simp] theorem run_nil (m : K → S) : run key cell m [] = m := rfl

theorem run_cons (m : K → S) (o : O) (os : List O) :
    run key cell m (o :: os) = run key cell (apply key cell m o) os := rfl

theorem run_append (m : K → S) (os os' : List O) :
    run key cell m (os ++ os') = run key cell (run key cell m os) os' := List.foldl_append

theorem run_concat (m : K → S) (os : List O) (o : O) :
    run key cell m (os ++ [o]) = apply key cell (run key cell m os) o := by
  rw [run_append]; rfl

theorem apply_same (m : K → S) (o : O) : apply key cell m o (key o) = cell (m (key o)) o :=
  Function.update_self _ _ _

theorem apply_ne (m : K → S) {o : O} {k : K} (h : k ≠ key o) : apply key cell m o k = m k :=
  Function.update_of_ne h _ _

@[simp] theorem on_nil (k : K) : on key k ([] : List O) = [] := rfl

theorem on_append (k : K) (os os' : List O) : on key k (os ++ os') = on key k os ++ on key k os' :=
  List.filter_append _ _

theorem on_cons_same {o : O} {k : K} (h : key o = k) (os : List O) :
    on key k (o :: os) = o :: on key k os := List.filter_cons_of_pos (by simpa using h)

theorem on_cons_ne {o : O} {k : K} (h : key o ≠ k) (os : List O) :
    on key k (o :: os) = on key k os := List.filter_cons_of_neg (by simpa using h)

/-- The cell of `k` after a log is what the operations on `k` make of it. -/
theorem run_at (m : K → S) (k : K) (os : List O) :
    run key cell m os k = (on key k os).foldl cell (m k) := by
  induction os generalizing m with
  | nil => rfl
  | cons o os ih =>
      rw [run_cons, ih]
      by_cases h : key o = k
      · subst h
        rw [apply_same, on_cons_same rfl, List.foldl_cons]
      · rw [apply_ne _ (Ne.symm h), on_cons_ne h]

/-! ### Operations in flight -/

variable (key cell) in
/-- Every operation of `log` that is not in `pending` has been performed on `store`, and the
pending operations on a key are the last ones on it in the log, in the same order. -/
def Lag (base : K → S) (log pending : List O) (store : K → S) : Prop :=
  ∀ k, ∃ done, on key k log = done ++ on key k pending ∧ store k = done.foldl cell (base k)

theorem Lag.replayed (base : K → S) (log : List O) :
    Lag key cell base log [] (run key cell base log) :=
  fun k => ⟨on key k log, by rw [on_nil, List.append_nil], run_at base k log⟩

theorem Lag.append {base store : K → S} {log pending : List O}
    (h : Lag key cell base log pending store) (o : O) :
    Lag key cell base (log ++ [o]) (pending ++ [o]) store := by
  intro k
  obtain ⟨done, hlog, hstore⟩ := h k
  exact ⟨done, by rw [on_append, on_append, hlog, List.append_assoc], hstore⟩

section erase
variable [DecidableEq O]

theorem on_erase_ne {o : O} {k : K} (h : key o ≠ k) (os : List O) :
    on key k (os.erase o) = on key k os := by
  induction os with
  | nil => rfl
  | cons a os ih =>
      by_cases ha : a = o
      · subst ha
        rw [List.erase_cons_head, on_cons_ne h]
      · rw [List.erase_cons_tail (by simpa using ha)]
        by_cases hk : key a = k
        · rw [on_cons_same hk, on_cons_same hk, ih]
        · rw [on_cons_ne hk, on_cons_ne hk, ih]

theorem on_erase_head {o : O} {os rest : List O} (h : on key (key o) os = o :: rest) :
    on key (key o) (os.erase o) = rest := by
  induction os generalizing rest with
  | nil => rw [on_nil] at h; cases h
  | cons a os ih =>
      by_cases ha : a = o
      · subst ha
        rw [on_cons_same rfl] at h
        rw [List.erase_cons_head]
        exact (List.cons.inj h).2
      · rw [List.erase_cons_tail (by simpa using ha)]
        by_cases hk : key a = key o
        · rw [on_cons_same hk] at h
          exact absurd (List.cons.inj h).1 ha
        · rw [on_cons_ne hk] at h ⊢
          exact ih h

/-- Performing the first pending operation of its key. -/
theorem Lag.apply {base store : K → S} {log pending rest : List O} {o : O}
    (h : Lag key cell base log pending store) (hfirst : on key (key o) pending = o :: rest) :
    Lag key cell base log (pending.erase o) (KeyedLog.apply key cell store o) := by
  intro k
  obtain ⟨done, hlog, hstore⟩ := h k
  by_cases hk : key o = k
  · subst hk
    refine ⟨done ++ [o], ?_, ?_⟩
    · rw [hlog, hfirst, on_erase_head hfirst, List.append_assoc]; rfl
    · rw [apply_same, hstore, List.foldl_append]; rfl
  · exact ⟨done, by rw [hlog, on_erase_ne hk], by rw [apply_ne _ (Ne.symm hk), hstore]⟩

end erase

/-- **Nothing in flight**: the store is the replay of the log. -/
theorem Lag.quiescent {base store : K → S} {log : List O}
    (h : Lag key cell base log [] store) : run key cell base log = store := by
  funext k
  obtain ⟨done, hlog, hstore⟩ := h k
  rw [on_nil, List.append_nil] at hlog
  rw [run_at, hlog, hstore]

end KeyedLog
