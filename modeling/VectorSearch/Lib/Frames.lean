import Mathlib.Tactic
import Mathlib.Data.List.Basic

/-! # Streams cut into frames

A `FrameReader` reads one frame off the front of a list of symbols: it answers with the frame's
content and the number of symbols the frame took, or refuses.  Its three laws say that a frame is
not empty, lies inside the list, and depends on nothing behind it.

`scan` reads frames until the first refusal.  `span` is the number of symbols the frames took, and
a list is `Whole` when they took all of it.  The rules used with it:

* what follows a whole list is scanned on its own (`scan_append_of_whole`), so a whole list
  extended by a frame is whole (`Whole.snoc`);
* the frames of a list are a prefix of the frames of any extension (`scan_prefix`);
* cutting a list at its span leaves a whole list with the same frames (`whole_take_span`);
* a frame is found exactly where a prefix ends if and only if that prefix is whole
  (`whole_of_mem_starts`). -/

variable {β ρ : Type}

/-- Reads one frame off the front of a list: its content and its length. -/
structure FrameReader (β ρ : Type) where
  read : List β → Option (ρ × ℕ)
  pos : ∀ {bs r n}, read bs = some (r, n) → 0 < n
  le_length : ∀ {bs r n}, read bs = some (r, n) → n ≤ bs.length
  local_read : ∀ {bs r n}, read bs = some (r, n) → ∀ more, read (bs.take n ++ more) = some (r, n)

namespace FrameReader

variable (R : FrameReader β ρ)

/-- At most `fuel` frames off the front of `bs`, with their lengths. -/
def scanFuel : ℕ → List β → List (ρ × ℕ)
  | 0, _ => []
  | fuel + 1, bs =>
      match R.read bs with
      | none => []
      | some (r, n) => (r, n) :: scanFuel fuel (bs.drop n)

/-- All frames of `bs` up to the first refusal. -/
def scan (bs : List β) : List (ρ × ℕ) := R.scanFuel bs.length bs

/-- The number of symbols the frames of `bs` take. -/
def span (bs : List β) : ℕ := ((R.scan bs).map Prod.snd).sum

/-- Every symbol of `bs` belongs to a frame. -/
def Whole (bs : List β) : Prop := R.span bs = bs.length

variable {R}

theorem read_append {bs : List β} {r : ρ} {n : ℕ} (h : R.read bs = some (r, n)) (more : List β) :
    R.read (bs ++ more) = some (r, n) := by
  have hsplit : bs ++ more = bs.take n ++ (bs.drop n ++ more) := by
    rw [← List.append_assoc, List.take_append_drop]
  rw [hsplit]
  exact R.local_read h _

theorem read_nil : R.read [] = none := by
  cases h : R.read [] with
  | none => rfl
  | some p =>
      have hpos := R.pos h
      have hle := R.le_length h
      simp only [List.length_nil] at hle
      omega

/-- A frame of an extension that ends inside the original list is a frame of that list. -/
theorem read_of_append {bs more : List β} {r : ρ} {n : ℕ} (h : R.read (bs ++ more) = some (r, n))
    (hn : n ≤ bs.length) : R.read bs = some (r, n) := by
  have hlocal := R.local_read h (bs.drop n)
  rwa [List.take_append_of_le_length hn, List.take_append_drop] at hlocal

theorem scanFuel_eq_scan : ∀ {fuel : ℕ} {bs : List β}, bs.length ≤ fuel →
    R.scanFuel fuel bs = R.scan bs
  | fuel, [], _ => by
      cases fuel with
      | zero => rfl
      | succ fuel => simp [scanFuel, scan, read_nil]
  | 0, b :: bs, h => by simp at h
  | fuel + 1, b :: bs, h => by
      rw [scan, List.length_cons, scanFuel, scanFuel]
      cases hr : R.read (b :: bs) with
      | none => rfl
      | some p =>
          obtain ⟨r, n⟩ := p
          have hpos := R.pos hr
          have hle : ((b :: bs).drop n).length ≤ bs.length := by
            rw [List.length_drop, List.length_cons]
            omega
          have hlen : bs.length ≤ fuel := by simpa using h
          simp only [scanFuel_eq_scan (hle.trans hlen), scanFuel_eq_scan hle]
termination_by fuel => fuel

theorem scan_none {bs : List β} (h : R.read bs = none) : R.scan bs = [] := by
  cases bs with
  | nil => rfl
  | cons b bs => rw [scan, List.length_cons, scanFuel, h]

theorem scan_some {bs : List β} {r : ρ} {n : ℕ} (h : R.read bs = some (r, n)) :
    R.scan bs = (r, n) :: R.scan (bs.drop n) := by
  cases bs with
  | nil => rw [read_nil] at h; cases h
  | cons b bs =>
      have hpos := R.pos h
      have hle : ((b :: bs).drop n).length ≤ bs.length := by
        rw [List.length_drop, List.length_cons]
        omega
      rw [scan, List.length_cons, scanFuel, h]
      simp only [scanFuel_eq_scan hle]

theorem span_none {bs : List β} (h : R.read bs = none) : R.span bs = 0 := by
  rw [span, scan_none h]; rfl

theorem span_some {bs : List β} {r : ρ} {n : ℕ} (h : R.read bs = some (r, n)) :
    R.span bs = n + R.span (bs.drop n) := by
  rw [span, scan_some h]; rfl

/-- Induction over the frames of a list: a list whose front is refused, or a frame followed by
the rest. -/
theorem scan_induction {motive : List β → Prop} (refused : ∀ bs, R.read bs = none → motive bs)
    (frame : ∀ bs r n, R.read bs = some (r, n) → motive (bs.drop n) → motive bs) :
    ∀ bs, motive bs := by
  intro bs
  induction hk : bs.length using Nat.strong_induction_on generalizing bs with
  | _ k ih =>
      cases hr : R.read bs with
      | none => exact refused bs hr
      | some p =>
          obtain ⟨r, n⟩ := p
          have hpos := R.pos hr
          have hle := R.le_length hr
          exact frame bs r n hr (ih _ (by rw [List.length_drop]; omega) _ rfl)

theorem span_le_length (bs : List β) : R.span bs ≤ bs.length := by
  induction bs using scan_induction (R := R) with
  | refused bs h => rw [span_none h]; exact Nat.zero_le _
  | frame bs r n h ih =>
      have hle := R.le_length h
      rw [span_some h]
      rw [List.length_drop] at ih
      omega

theorem whole_nil : R.Whole [] := by rw [Whole, span_none read_nil]; rfl

theorem whole_some {bs : List β} {r : ρ} {n : ℕ} (h : R.read bs = some (r, n)) :
    R.Whole bs ↔ R.Whole (bs.drop n) := by
  have hle := R.le_length h
  rw [Whole, Whole, span_some h, List.length_drop]
  omega

theorem Whole.eq_nil {bs : List β} (h : R.Whole bs) (hr : R.read bs = none) : bs = [] := by
  rw [Whole, span_none hr] at h
  exact List.length_eq_zero_iff.mp h.symm

/-! ### Extensions -/

theorem scan_append_of_whole {bs : List β} (h : R.Whole bs) (more : List β) :
    R.scan (bs ++ more) = R.scan bs ++ R.scan more := by
  induction bs using scan_induction (R := R) with
  | refused bs hr =>
      rw [h.eq_nil hr, List.nil_append, scan_none read_nil, List.nil_append]
  | frame bs r n hr ih =>
      rw [scan_some (read_append hr more), scan_some hr,
        List.drop_append_of_le_length (R.le_length hr), ih ((whole_some hr).mp h),
        List.cons_append]

theorem span_append_of_whole {bs : List β} (h : R.Whole bs) (more : List β) :
    R.span (bs ++ more) = bs.length + R.span more := by
  rw [span, scan_append_of_whole h, List.map_append, List.sum_append]
  congr 1

theorem Whole.append {bs cs : List β} (h : R.Whole bs) (h' : R.Whole cs) : R.Whole (bs ++ cs) := by
  rw [Whole, span_append_of_whole h, h', List.length_append]

/-- A frame of exactly the length of the list makes it whole. -/
theorem whole_of_read {bs : List β} {r : ρ} (h : R.read bs = some (r, bs.length)) :
    R.Whole bs ∧ R.scan bs = [(r, bs.length)] := by
  have hdrop : bs.drop bs.length = [] := List.drop_length
  refine ⟨(whole_some h).mpr (hdrop ▸ whole_nil), ?_⟩
  rw [scan_some h, hdrop, scan_none read_nil]

theorem Whole.snoc {bs cs : List β} {r : ρ} (h : R.Whole bs)
    (hr : R.read cs = some (r, cs.length)) :
    R.Whole (bs ++ cs) ∧ R.scan (bs ++ cs) = R.scan bs ++ [(r, cs.length)] := by
  obtain ⟨hw, hs⟩ := whole_of_read hr
  exact ⟨h.append hw, by rw [scan_append_of_whole h, hs]⟩

/-- A refused tail behind a whole list adds no frame. -/
theorem scan_append_torn {bs tail : List β} (h : R.Whole bs) (ht : R.read tail = none) :
    R.scan (bs ++ tail) = R.scan bs ∧ R.span (bs ++ tail) = bs.length := by
  refine ⟨by rw [scan_append_of_whole h, scan_none ht, List.append_nil], ?_⟩
  rw [span_append_of_whole h, span_none ht, Nat.add_zero]

theorem scan_prefix (bs more : List β) : R.scan bs <+: R.scan (bs ++ more) := by
  induction bs using scan_induction (R := R) with
  | refused bs hr => rw [scan_none hr]; exact List.nil_prefix
  | frame bs r n hr ih =>
      rw [scan_some hr, scan_some (read_append hr more),
        List.drop_append_of_le_length (R.le_length hr)]
      exact (List.prefix_cons_inj _).mpr ih

theorem whole_take_span (bs : List β) :
    R.Whole (bs.take (R.span bs)) ∧ R.scan (bs.take (R.span bs)) = R.scan bs := by
  induction bs using scan_induction (R := R) with
  | refused bs hr =>
      rw [span_none hr, List.take_zero, scan_none hr, scan_none read_nil]
      exact ⟨whole_nil, rfl⟩
  | frame bs r n hr ih =>
      have hcut : bs.take (R.span bs) = bs.take n ++ (bs.drop n).take (R.span (bs.drop n)) := by
        rw [span_some hr, List.take_add]
      have hlen : (bs.take n).length = n := by
        rw [List.length_take, Nat.min_eq_left (R.le_length hr)]
      have hread : R.read (bs.take n) = some (r, (bs.take n).length) := by
        rw [hlen]
        simpa using R.local_read hr []
      obtain ⟨hw, hs⟩ := whole_of_read hread
      rw [hcut, scan_append_of_whole hw, hs, ih.2, scan_some hr, hlen]
      exact ⟨hw.append ih.1, rfl⟩

/-! ### Where frames start -/

/-- The frames of `bs` with the offsets at which they start, counted from `o`. -/
def starts : ℕ → List (ρ × ℕ) → List (ℕ × ρ)
  | _, [] => []
  | o, (r, n) :: fs => (o, r) :: starts (o + n) fs

theorem starts_append : ∀ (o : ℕ) (fs gs : List (ρ × ℕ)),
    starts o (fs ++ gs) = starts o fs ++ starts (o + (fs.map Prod.snd).sum) gs
  | o, [], gs => by simp [starts]
  | o, (r, n) :: fs, gs => by
      simp only [List.cons_append, starts, List.map_cons, List.sum_cons]
      rw [starts_append (o + n) fs gs, Nat.add_assoc]

theorem map_snd_starts : ∀ (o : ℕ) (fs : List (ρ × ℕ)),
    (starts o fs).map Prod.snd = fs.map Prod.fst
  | _, [] => rfl
  | o, (r, n) :: fs => by simp only [starts, List.map_cons, map_snd_starts (o + n) fs]

theorem le_of_mem_starts : ∀ {o : ℕ} {fs : List (ρ × ℕ)} {x : ℕ × ρ}, x ∈ starts o fs → o ≤ x.1
  | _, [], _, h => by cases h
  | o, (r, n) :: fs, x, h => by
      obtain rfl | h := List.mem_cons.mp h
      · exact le_rfl
      · exact (Nat.le_add_right o n).trans (le_of_mem_starts h)

/-- **A frame starts where a prefix ends only if the prefix is whole.** -/
theorem whole_of_mem_starts {o : ℕ} {bs more : List β} {r : ρ}
    (h : (o + bs.length, r) ∈ starts o (R.scan (bs ++ more))) : R.Whole bs := by
  induction bs using scan_induction (R := R) generalizing o with
  | refused bs hr =>
      -- a frame that reaches past the refused prefix leaves no start at its end
      cases hr' : R.read (bs ++ more) with
      | none => rw [scan_none hr'] at h; cases h
      | some p =>
          obtain ⟨r', n⟩ := p
          have hlong : bs.length < n := by
            by_contra hn
            rw [read_of_append hr' (by omega)] at hr
            cases hr
          rw [scan_some hr'] at h
          obtain heq | h := List.mem_cons.mp h
          · have hzero : bs.length = 0 := by
              have := congrArg Prod.fst heq
              simp only at this
              omega
            rw [List.length_eq_zero_iff.mp hzero]
            exact whole_nil
          · have := le_of_mem_starts h
            simp only at this
            omega
  | frame bs r' n hr ih =>
      have hle := R.le_length hr
      rw [scan_some (read_append hr more), List.drop_append_of_le_length hle] at h
      obtain heq | h := List.mem_cons.mp h
      · have hpos := R.pos hr
        have := congrArg Prod.fst heq
        simp only at this
        omega
      · have hlen : o + bs.length = o + n + (bs.drop n).length := by rw [List.length_drop]; omega
        rw [hlen] at h
        exact (whole_some hr).mpr (ih h)

/-- What is read behind a whole list starts where the list ends. -/
theorem starts_append_of_whole {bs : List β} (h : R.Whole bs) (o : ℕ) (more : List β) :
    starts o (R.scan (bs ++ more)) =
      starts o (R.scan bs) ++ starts (o + bs.length) (R.scan more) := by
  rw [scan_append_of_whole h, starts_append, ← span, h]

end FrameReader
