import VectorSearch.Lib.ByteCodec

/-! # Reading a byte stream field by field

A `Reader α` takes a value off the front of a byte stream, or fails when the stream is too short.
`Reads r bs a` says that `r` reads `bs` as `a` whatever follows, so it composes: a sequence of
readers reads the concatenation of what each of them reads (`Reads.bind`, `Reads.many`).

`Exact r enc P` says more: `r` takes the value `a` off exactly the streams that begin with `enc a`,
for the values in `P` and no others.

A loop that does not ask whether its reads fail is `unchecked`: it goes on with lengths that were
never read.  `unchecked_eq` says how it ends by what the checked readers do. -/

namespace ByteCodec

/-- Take a value off the front of a byte stream. -/
abbrev Reader (α : Type) := StateT Bytes Option α

namespace Reader
variable {α β : Type}

/-- The next `w` bytes as a number. -/
def le (w : ℕ) : Reader ℕ := fun bs =>
  if w ≤ bs.length then some (getLE (bs.take w), bs.drop w) else none

/-- `n` values, the `i`-th read by `r i`. -/
def many (r : ℕ → Reader α) : ℕ → Reader (List α)
  | 0 => pure []
  | n + 1 => do
      let as ← many r n
      let a ← r n
      pure (as ++ [a])

/-- `r` reads `bs` as `a` and leaves the rest of the stream alone. -/
def Reads (r : Reader α) (bs : Bytes) (a : α) : Prop :=
  ∀ rest, r.run (bs ++ rest) = some (a, rest)

theorem Reads.pure (a : α) : Reads (pure a) [] a := fun _ => rfl

theorem Reads.bind {r : Reader α} {f : α → Reader β} {bs cs : Bytes} {a : α} {b : β}
    (hr : Reads r bs a) (hf : Reads (f a) cs b) : Reads (r >>= f) (bs ++ cs) b := by
  intro rest
  rw [List.append_assoc, StateT.run_bind, hr]
  exact hf rest

/-- A mapped reader reads what the reader does. -/
theorem Reads.map {r : Reader α} {bs : Bytes} {a : α} (h : Reads r bs a) (f : α → β) :
    Reads (f <$> r) bs (f a) := by
  intro rest
  rw [StateT.run_map, h]
  rfl

theorem reads_le (w n : ℕ) : Reads (le w) (putLE w n) (n % 256 ^ w) := by
  intro rest
  have hlen : w ≤ (putLE w n ++ rest).length := by
    rw [List.length_append, length_putLE]
    exact Nat.le_add_right _ _
  change le w (putLE w n ++ rest) = _
  rw [le, if_pos hlen, List.take_left' (length_putLE w n), List.drop_left' (length_putLE w n),
    getLE_putLE]

theorem reads_le_of_lt {w n : ℕ} (h : n < 256 ^ w) : Reads (le w) (putLE w n) n := by
  have := reads_le w n
  rwa [Nat.mod_eq_of_lt h] at this

theorem Reads.many {r : ℕ → Reader α} {bs : ℕ → Bytes} {a : ℕ → α} : ∀ {n : ℕ},
    (∀ i < n, Reads (r i) (bs i) (a i)) →
      Reads (many r n) ((List.range n).flatMap bs) ((List.range n).map a)
  | 0, _ => Reads.pure []
  | n + 1, h => by
      have ih := Reads.many fun i hi => h i (Nat.lt_succ_of_lt hi)
      rw [List.range_succ, List.flatMap_append, List.map_append, List.flatMap_singleton]
      have hlast := (h n (Nat.lt_succ_self n)).bind
        (f := fun x => Pure.pure ((List.range n).map a ++ [x])) (Reads.pure _)
      rw [List.append_nil] at hlast
      exact ih.bind hlast

theorem length_many {r : ℕ → Reader α} : ∀ {n : ℕ} {bs : Bytes} {x : List α × Bytes},
    (Reader.many r n).run bs = some x → x.1.length = n
  | 0, _, _, h => by
      cases h
      rfl
  | n + 1, _, _, h => by
      obtain ⟨init, hinit, hlast⟩ := Option.bind_eq_some_iff.mp h
      obtain ⟨a, -, hpure⟩ := Option.bind_eq_some_iff.mp hlast
      cases hpure
      rw [List.length_append, length_many hinit, List.length_singleton]

/-- The bytes are there as a number. -/
theorem reads_getLE {w : ℕ} {bs : Bytes} (h : bs.length = w) : Reads (le w) bs (getLE bs) := by
  intro rest
  have hlen : w ≤ (bs ++ rest).length := by
    rw [List.length_append, h]
    exact Nat.le_add_right _ _
  change le w (bs ++ rest) = _
  rw [le, if_pos hlen, List.take_left' h, List.drop_left' h]

/-- A reader of items of width `w` reads an array of them item by item. -/
theorem Reads.chunks {r : Reader α} {w : ℕ} {f : Bytes → α}
    (hr : ∀ c, c.length = w → Reads r c (f c)) {n : ℕ} {bs : Bytes} (h : bs.length = n * w) :
    Reads (Reader.many (fun _ => r) n) bs
      ((List.range n).map fun i => f (slice bs (i * w) (i * w + w))) := by
  have hitem : ∀ i < n, (slice bs (i * w) (i * w + w)).length = w := by
    intro i hi
    have hle : (i + 1) * w ≤ n * w := Nat.mul_le_mul_right w hi
    rw [Nat.succ_mul] at hle
    rw [length_slice (h ▸ hle), Nat.add_sub_cancel_left]
  have hall := Reads.many (r := fun _ => r) fun i hi => hr _ (hitem i hi)
  rwa [flatMap_slice, ← h, slice, List.drop_zero, Nat.sub_zero, List.take_length] at hall

/-! ### Exact readers -/

/-- The next `n` bytes as they are. -/
def bytes (n : ℕ) : Reader Bytes := fun bs =>
  if n ≤ bs.length then some (bs.take n, bs.drop n) else none

/-- `r` takes `a` off the streams that begin with `enc a`, if `a` is in `P`, and off no others. -/
def Exact (r : Reader α) (enc : α → Bytes) (P : α → Prop) : Prop :=
  ∀ bs a rest, r.run bs = some (a, rest) ↔ P a ∧ bs = enc a ++ rest

theorem exact_bytes (n : ℕ) : Exact (bytes n) (fun bs => bs) (·.length = n) := by
  intro bs a rest
  change bytes n bs = _ ↔ _
  unfold bytes
  constructor
  · intro h
    split_ifs at h with hle
    cases h
    exact ⟨List.length_take_of_le hle, (List.take_append_drop n bs).symm⟩
  · rintro ⟨rfl, rfl⟩
    rw [if_pos (by rw [List.length_append]; exact Nat.le_add_right _ _), List.take_left,
      List.drop_left]

theorem exact_le (w : ℕ) : Exact (le w) (putLE w) (· < 256 ^ w) := by
  intro bs n rest
  constructor
  · intro h
    change le w bs = some (n, rest) at h
    unfold le at h
    split_ifs at h with hle
    cases h
    have hlen : (bs.take w).length = w := List.length_take_of_le hle
    refine ⟨?_, ?_⟩
    · have hlt := getLE_lt (bs.take w)
      rwa [hlen] at hlt
    · have hput := putLE_getLE (bs.take w)
      rw [hlen] at hput
      rw [hput, List.take_append_drop]
  · rintro ⟨hlt, rfl⟩
    exact reads_le_of_lt hlt rest

theorem Exact.reads {r : Reader α} {enc : α → Bytes} {P : α → Prop} (h : Exact r enc P) {a : α}
    (ha : P a) : Reads r (enc a) a := fun _ => (h _ _ _).mpr ⟨ha, rfl⟩

theorem Exact.many {r : Reader α} {enc : α → Bytes} {P : α → Prop} (h : Exact r enc P) : ∀ n : ℕ,
    Exact (Reader.many (fun _ => r) n) (·.flatMap enc) (fun as => as.length = n ∧ ∀ a ∈ as, P a)
  | 0 => by
      intro bs as rest
      constructor
      · rintro ⟨⟩
        exact ⟨⟨rfl, fun _ ha => absurd ha List.not_mem_nil⟩, rfl⟩
      · rintro ⟨⟨hlen, -⟩, rfl⟩
        rw [List.length_eq_zero_iff.mp hlen]
        rfl
  | n + 1 => by
      intro bs as rest
      have ih := Exact.many h n
      change (Reader.many (fun _ => r) n >>= fun as => r >>= fun a =>
        Pure.pure (as ++ [a])).run bs = some (as, rest) ↔ _
      rw [StateT.run_bind]
      constructor
      · intro hrun
        obtain ⟨⟨init, mid⟩, hinit, hlast⟩ := Option.bind_eq_some_iff.mp hrun
        obtain ⟨⟨a, last⟩, ha, hpure⟩ := Option.bind_eq_some_iff.mp hlast
        cases hpure
        obtain ⟨⟨hlen, hall⟩, rfl⟩ := (ih _ _ _).mp hinit
        obtain ⟨hP, rfl⟩ := (h _ _ _).mp ha
        refine ⟨⟨?_, fun b hb => ?_⟩, ?_⟩
        · rw [List.length_append, hlen, List.length_singleton]
        · obtain hb | hb := List.mem_append.mp hb
          · exact hall b hb
          · rwa [List.mem_singleton.mp hb]
        · simp only [List.flatMap_append, List.flatMap_singleton, List.append_assoc]
      · rintro ⟨⟨hlen, hall⟩, rfl⟩
        obtain rfl | ⟨init, a, rfl⟩ := List.eq_nil_or_concat as
        · exact absurd hlen (Nat.succ_ne_zero n).symm
        rw [List.concat_eq_append] at hlen hall ⊢
        rw [List.length_append, List.length_singleton, Nat.add_right_cancel_iff] at hlen
        have hinit := (ih (init.flatMap enc ++ (enc a ++ rest)) init (enc a ++ rest)).mpr
          ⟨⟨hlen, fun b hb => hall b (List.mem_append_left _ hb)⟩, rfl⟩
        have hlast := (h (enc a ++ rest) a rest).mpr
          ⟨hall a (List.mem_append_right _ (List.mem_singleton_self a)), rfl⟩
        simp only [List.flatMap_append, List.flatMap_singleton, List.append_assoc, hinit,
          Option.bind_eq_bind, Option.bind_some, StateT.run_bind, hlast]
        rfl

/-! ### Longer streams -/

/-- What `r` reads does not depend on how the stream goes on. -/
def Extends (r : Reader α) : Prop :=
  ∀ bs a rest more, r.run bs = some (a, rest) → r.run (bs ++ more) = some (a, rest ++ more)

theorem Extends.pure (a : α) : Extends (pure a) := by
  rintro bs _ _ more ⟨⟩
  rfl

theorem Extends.bind {r : Reader α} {f : α → Reader β} (hr : Extends r) (hf : ∀ a, Extends (f a)) :
    Extends (r >>= f) := by
  intro bs b rest more h
  obtain ⟨⟨a, mid⟩, ha, hb⟩ := Option.bind_eq_some_iff.mp h
  rw [StateT.run_bind, hr _ _ _ _ ha]
  exact hf a _ _ _ _ hb

theorem Extends.many {r : ℕ → Reader α} (hr : ∀ i, Extends (r i)) : ∀ n, Extends (many r n)
  | 0 => Extends.pure []
  | n + 1 => (Extends.many hr n).bind fun _ => (hr n).bind fun _ => Extends.pure _

theorem Exact.extends {r : Reader α} {enc : α → Bytes} {P : α → Prop} (h : Exact r enc P) :
    Extends r := by
  intro bs a rest more hrun
  obtain ⟨ha, rfl⟩ := (h _ _ _).mp hrun
  rw [List.append_assoc]
  exact h.reads ha _

/-- A stream that breaks off in the middle of a value is too short. -/
theorem Extends.breaks_off {r : Reader α} (h : Extends r) {whole : Bytes} {a : α}
    (hreads : Reads r whole a) {bs more : Bytes} (hbs : bs ++ more = whole) (hmore : more ≠ []) :
    r.run bs = none := by
  cases hrun : r.run bs with
  | none => rfl
  | some ar =>
      obtain ⟨a', rest⟩ := ar
      have hpart := h _ _ _ more hrun
      have hwhole := hreads []
      rw [List.append_nil, ← hbs, hpart] at hwhole
      obtain ⟨-, hnil⟩ := Prod.mk.inj (Option.some.inj hwhole)
      exact absurd (List.append_eq_nil_iff.mp hnil).2 hmore

/-- A part of a stream is long enough for a value if it has the bytes of that value. -/
theorem Extends.isSome_run_iff {r : Reader α} (h : Extends r) {whole : Bytes} {a : α}
    (hreads : Reads r whole a) {bs more rest : Bytes} (hbs : bs ++ more = whole ++ rest) :
    (r.run bs).isSome ↔ whole.length ≤ bs.length := by
  rw [List.append_eq_append_iff] at hbs
  obtain ⟨missing, hwhole, -⟩ | ⟨behind, rfl, -⟩ := hbs
  · by_cases hmissing : missing = []
    · rw [hwhole, hmissing, List.append_nil] at hreads ⊢
      refine iff_of_true ?_ le_rfl
      rw [← List.append_nil bs, hreads]
      rfl
    · refine iff_of_false ?_ (not_le.mpr ?_)
      · rw [h.breaks_off hreads hwhole.symm hmissing]
        exact Bool.false_ne_true
      · rw [hwhole, List.length_append]
        exact Nat.lt_add_of_pos_right (List.length_pos_of_ne_nil hmissing)
  · refine iff_of_true ?_ (List.prefix_append whole behind).length_le
    rw [hreads]
    rfl

/-! ### Reads that are not checked -/

theorem many_succ (r : Reader α) : ∀ n : ℕ, many (fun _ => r) (n + 1) = (do
      let a ← r
      let as ← many (fun _ => r) n
      pure (a :: as))
  | 0 => by simp only [many, pure_bind, List.nil_append]
  | n + 1 => by
      calc many (fun _ => r) (n + 2)
          = (do
              let as ← many (fun _ => r) (n + 1)
              let b ← r
              pure (as ++ [b])) := rfl
        _ = (do
              let a ← r
              let as ← many (fun _ => r) n
              let b ← r
              pure (a :: (as ++ [b]))) := by
            rw [many_succ r n]
            simp only [bind_assoc, pure_bind, List.cons_append]
        _ = _ := by simp only [many, bind_assoc, pure_bind]

section unchecked
variable {ε : Type} (short unread : ε) (len : Reader ℕ) (item : ℕ → Reader α)

/-- The loop behind a failed read, with so many items to come: the next length is not read. -/
def afterFailure : ℕ → ε
  | 0 => short
  | _ + 1 => unread

/-- For each of the items its length and then so many words, and no look at the stream: `short` if a
read fails and no length is read any more, `unread` if a length is used that was not read. -/
def unchecked : ℕ → Bytes → Except ε (List α × Bytes)
  | 0, bs => .ok ([], bs)
  | n + 1, bs =>
      match len.run bs with
      | none => .error unread
      | some (k, bs) =>
          match (item k).run bs with
          | none => .error (afterFailure short unread n)
          | some (a, bs) => (unchecked n bs).map fun x => (a :: x.1, x.2)

/-- The items up to the length of the last one. -/
def untilLast : ℕ → Reader Unit
  | 0 => pure ()
  | n + 1 => do
      let _ ← many (fun _ => len >>= item) n
      let _ ← len
      pure ()

variable {len item}

theorem Extends.untilLast (hlen : Extends len) (hitem : ∀ k, Extends (item k)) :
    ∀ n, Extends (untilLast len item n)
  | 0 => Extends.pure ()
  | n + 1 => (Extends.many (fun _ => hlen.bind hitem) n).bind fun _ => hlen.bind fun _ =>
      Extends.pure ()

/-- What gets to the end gets to the last length. -/
theorem untilLast_of_many : ∀ {n : ℕ} {bs : Bytes} {x : List α × Bytes},
    (many (fun _ => len >>= item) n).run bs = some x → ((untilLast len item n).run bs).isSome
  | 0, _, _, _ => rfl
  | n + 1, bs, x, h => by
      obtain ⟨init, hinit, hlast⟩ := Option.bind_eq_some_iff.mp h
      obtain ⟨last, hlast, -⟩ := Option.bind_eq_some_iff.mp hlast
      obtain ⟨k, hlen, -⟩ := Option.bind_eq_some_iff.mp hlast
      have hrun : (untilLast len item (n + 1)).run bs = some ((), k.2) :=
        Option.bind_eq_some_iff.mpr ⟨init, hinit, Option.bind_eq_some_iff.mpr ⟨k, hlen, rfl⟩⟩
      rw [hrun]
      rfl

theorem untilLast_succ (len : Reader ℕ) (item : ℕ → Reader α) (n : ℕ) :
    untilLast len item (n + 2) = (do
      let _ ← len >>= item
      untilLast len item (n + 1)) := by
  rw [untilLast, many_succ]
  simp only [untilLast, bind_assoc, pure_bind]

/-- **The loop ends as the checked readers do**, and where they fail it depends on whether they get
to the last length. -/
theorem unchecked_eq : ∀ (n : ℕ) (bs : Bytes), unchecked short unread len item n bs =
    match (many (fun _ => len >>= item) n).run bs with
    | some x => .ok x
    | none =>
        match (untilLast len item n).run bs with
        | some _ => .error short
        | none => .error unread
  | 0, _ => rfl
  | 1, bs => by
      rw [many_succ]
      simp only [unchecked, untilLast, many, pure_bind, StateT.run_bind, Option.bind_eq_bind]
      cases hlen : len.run bs with
      | none => rfl
      | some x =>
          cases hitem : (item x.1).run x.2 with
          | none =>
              simp only [hitem, Option.bind_some]
              rfl
          | some y =>
              simp only [hitem, Option.bind_some]
              rfl
  | n + 2, bs => by
      rw [unchecked, many_succ, untilLast_succ]
      simp only [StateT.run_bind, Option.bind_eq_bind]
      cases hlen : len.run bs with
      | none => rfl
      | some x =>
          simp only [Option.bind_some]
          cases hitem : (item x.1).run x.2 with
          | none => rfl
          | some y =>
              simp only [Option.bind_some, unchecked_eq (n + 1) y.2]
              cases (many (fun _ => len >>= item) (n + 1)).run y.2 with
              | none => cases (untilLast len item (n + 1)).run y.2 <;> rfl
              | some z => rfl

end unchecked

end Reader

end ByteCodec
