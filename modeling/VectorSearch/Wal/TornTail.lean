import VectorSearch.Wal.RoundTrip

/-! # Torn tails over any number of crashes

A `Session` is a log file, the length it had when it was last reopened, and the list of the
records whose encodings make up its body.  It evolves by successful appends and by crashes that
cut the file at or after the reopened length, each followed by `Replay` and
`OpenForAppend(lastGoodOffset)`.

`encodings_take` splits a cut body into the encodings that lie wholly inside the cut and a piece
of the next one, which the reader refuses (`readRecord_torn`); so the recovered file is again a
header and whole records (`Session.Ok`), and every replay of a reached session applies exactly the
records inside the cut (`replay_reached`). -/

open ByteCodec

namespace VectorSearch.Wal

/-- The bytes of the records, one encoding after the other. -/
def encodings (rs : List Record) : Bytes := rs.flatMap fun r => frame (payload r)

/-- The records whose encodings, laid out from offset `o` on, lie wholly inside the first `n`
bytes. -/
def insideFrom (n : ℕ) : ℕ → List Record → List Record
  | _, [] => []
  | o, r :: rs =>
      let o' := o + (frame (payload r)).length
      if o' ≤ n then r :: insideFrom n o' rs else insideFrom n o' rs

/-- A log file with the history of its current contents. -/
structure Session where
  file : DurableFile
  /-- the length of the file when it was last reopened -/
  reopened : ℕ
  /-- the records appended to the file and not cut off since -/
  appended : List Record

/-- The log just created. -/
def Session.create : Session := ⟨newLog, headerSize, []⟩

def Session.append (s : Session) (r : Record) : Session :=
  { s with file := (Wal.append s.file r .done).1, appended := s.appended ++ [r] }

/-- The offset `Replay` returns for the file cut after `n` bytes. -/
def Session.lastGood (s : Session) (n : ℕ) : ℕ :=
  (replay collect (some (s.file.truncate n).bytes) []).lastGoodOffset

/-- Cut the file after `n` bytes, replay it and reopen it at the offset the replay returned. -/
def Session.recover (s : Session) (n : ℕ) : Session where
  file := openForAppend (s.file.truncate n) (some (s.lastGood n))
  reopened := (openForAppend (s.file.truncate n) (some (s.lastGood n))).bytes.length
  appended := insideFrom n headerSize s.appended

/-- The sessions reached from a new log by appends and crashes. -/
inductive Session.Reached : Session → Prop
  | create : Reached .create
  | append {s : Session} {r : Record} : Reached s → Loggable r → Reached (s.append r)
  | recover {s : Session} {n : ℕ} : Reached s → s.reopened ≤ n → n ≤ s.file.bytes.length →
      Reached (s.recover n)

/-! ### Cutting a body -/

theorem encodings_cons (r : Record) (rs : List Record) :
    encodings (r :: rs) = frame (payload r) ++ encodings rs := rfl

theorem encodings_concat (rs : List Record) (r : Record) :
    encodings (rs ++ [r]) = encodings rs ++ frame (payload r) := by
  simp [encodings]

theorem length_encodings (rs : List Record) :
    (encodings rs).length = (rs.map fun r => (frame (payload r)).length).sum := by
  rw [encodings, List.length_flatMap]

theorem whole_encodings {rs : List Record} (h : ∀ r ∈ rs, Loggable r) :
    recordReader.Whole (encodings rs) ∧ records (encodings rs) = rs := by
  induction rs with
  | nil => exact ⟨FrameReader.whole_nil, rfl⟩
  | cons r rs ih =>
      obtain ⟨hw, hrec⟩ := ih fun r' h' => h r' (List.mem_cons_of_mem _ h')
      obtain ⟨hw₁, hs₁⟩ := FrameReader.whole_of_read (R := recordReader)
        (readRecord_frame (h r List.mem_cons_self))
      rw [encodings_cons]
      refine ⟨hw₁.append hw, ?_⟩
      rw [records, FrameReader.scan_append_of_whole hw₁, hs₁, List.map_append, ← records, hrec]
      rfl

/-- Once a record ends behind the cut, so does everything after it. -/
theorem insideFrom_of_lt {n : ℕ} : ∀ {o : ℕ} (rs : List Record), n < o → insideFrom n o rs = []
  | _, [], _ => rfl
  | o, r :: rs, h => by
      simp only [insideFrom]
      rw [if_neg (by omega), insideFrom_of_lt rs (by omega)]

theorem insideFrom_sublist {n : ℕ} : ∀ {o : ℕ} (rs : List Record),
    List.Sublist (insideFrom n o rs) rs
  | _, [] => List.Sublist.refl _
  | o, r :: rs => by
      simp only [insideFrom]
      split_ifs
      · exact (insideFrom_sublist rs).cons_cons r
      · exact (insideFrom_sublist rs).cons r

/-- A cut body is the encodings inside the cut and a piece the reader refuses. -/
theorem encodings_take {n : ℕ} : ∀ {o : ℕ} {rs : List Record}, o ≤ n → (∀ r ∈ rs, Loggable r) →
    ∃ t, (encodings rs).take (n - o) = encodings (insideFrom n o rs) ++ t ∧ readRecord t = none
  | o, [], _, _ => ⟨[], by simp [encodings, insideFrom], rfl⟩
  | o, r :: rs, ho, h => by
      have hr := h r List.mem_cons_self
      simp only [insideFrom]
      by_cases hn : o + (frame (payload r)).length ≤ n
      · obtain ⟨t, ht, hnone⟩ := encodings_take hn fun r' h' => h r' (List.mem_cons_of_mem _ h')
        refine ⟨t, ?_, hnone⟩
        rw [if_pos hn, encodings_cons, encodings_cons, List.take_append,
          List.take_of_length_le (by omega), Nat.sub_sub, ht, List.append_assoc]
      · refine ⟨(frame (payload r)).take (n - o), ?_, ?_⟩
        · rw [if_neg hn, insideFrom_of_lt _ (by omega), encodings_cons,
            List.take_append_of_le_length (by omega)]
          rfl
        · refine readRecord_torn hr.length_payload_le (List.take_prefix _ _) ?_
          rw [List.length_take]
          omega

theorem insideFrom_all {n : ℕ} : ∀ {o : ℕ} {rs : List Record}, o + (encodings rs).length ≤ n →
    insideFrom n o rs = rs
  | _, [], _ => rfl
  | o, r :: rs, h => by
      rw [encodings_cons, List.length_append] at h
      simp only [insideFrom]
      rw [if_pos (by omega), insideFrom_all (by omega)]

/-! ### Reached sessions -/

/-- The file is the header and the encodings of the appended records, all loggable. -/
structure Session.Ok (s : Session) : Prop where
  loggable : ∀ r ∈ s.appended, Loggable r
  bytes : s.file.bytes = header ++ encodings s.appended
  reopened : headerSize ≤ s.reopened

/-- What `Replay` answers on a cut file, for any callback that succeeds. -/
theorem Session.Ok.replay_truncate {s : Session} (hs : s.Ok) {n : ℕ} (hn : headerSize ≤ n)
    {σ : Type} (apply : σ → Record → σ) (s₀ : σ) :
    replay (fun x r => (.ok (apply x r) : Except Empty σ)) (some (s.file.truncate n).bytes) s₀ =
      ⟨(insideFrom n headerSize s.appended).foldl apply s₀,
        (insideFrom n headerSize s.appended).length,
        headerSize + ((insideFrom n headerSize s.appended).map
          fun r => (frame (payload r)).length).sum, none⟩ := by
  obtain ⟨t, ht, hnone⟩ := encodings_take hn hs.loggable
  have hin : ∀ r ∈ insideFrom n headerSize s.appended, Loggable r := fun r hr =>
    hs.loggable r ((insideFrom_sublist _).subset hr)
  obtain ⟨hw, hrec⟩ := whole_encodings hin
  have hcut : (s.file.truncate n).bytes =
      header ++ (encodings (insideFrom n headerSize s.appended) ++ t) := by
    rw [DurableFile.bytes_truncate, hs.bytes, List.take_append,
      List.take_of_length_le (by rw [length_header]; exact hn), length_header, ht]
  obtain ⟨hscan, hspan⟩ := FrameReader.scan_append_torn (R := recordReader) hw hnone
  have hrecords : records (encodings (insideFrom n headerSize s.appended) ++ t) =
      insideFrom n headerSize s.appended := by
    rw [records, hscan]
    exact hrec
  have hfold : ∀ (rs : List Record) (x : σ),
      applyAll (fun x r => (.ok (apply x r) : Except Empty σ)) x rs = .ok (rs.foldl apply x) := by
    intro rs
    induction rs with
    | nil => exact fun x => rfl
    | cons r rs ih => exact fun x => by rw [applyAll_cons, Except.bind, ih, List.foldl_cons]
  rw [hcut, replay_ok _ (hfold _ _), hrecords, hspan, length_encodings]

theorem Session.Ok.recover {s : Session} (hs : s.Ok) {n : ℕ} (hn : headerSize ≤ n) :
    (s.recover n).Ok := by
  have hlast : s.lastGood n =
      headerSize + (encodings (insideFrom n headerSize s.appended)).length := by
    rw [Session.lastGood]
    have := hs.replay_truncate hn (fun rs r => rs ++ [r]) []
    rw [length_encodings]
    exact congrArg Replayed.lastGoodOffset this
  obtain ⟨t, ht, -⟩ := encodings_take hn hs.loggable
  have hcut : s.file.bytes.take n =
      header ++ (encodings (insideFrom n headerSize s.appended) ++ t) := by
    rw [hs.bytes, List.take_append, List.take_of_length_le (by rw [length_header]; exact hn),
      length_header, ht]
  have hkept : (s.recover n).file.bytes =
      header ++ encodings (insideFrom n headerSize s.appended) := by
    simp only [Session.recover, openForAppend, DurableFile.bytes_truncate, hlast, hcut]
    rw [← List.append_assoc, List.take_left' (by rw [List.length_append, length_header])]
  refine ⟨fun r hr => hs.loggable r ((insideFrom_sublist _).subset hr), hkept, ?_⟩
  change headerSize ≤ (s.recover n).file.bytes.length
  rw [hkept, List.length_append, length_header]
  exact Nat.le_add_right _ _

theorem Session.Reached.ok {s : Session} (h : s.Reached) : s.Ok := by
  induction h with
  | create => exact ⟨fun r hr => by simp [Session.create] at hr, rfl, le_rfl⟩
  | @append s r _ hr ih =>
      refine ⟨?_, ?_, ih.reopened⟩
      · intro r' hr'
        obtain h | h := List.mem_append.mp hr'
        · exact ih.loggable r' h
        · rw [List.mem_singleton.mp h]
          exact hr
      · simp only [Session.append, append_done hr.encode, DurableFile.bytes_sync,
          DurableFile.bytes_write]
        rw [ih.bytes, encodings_concat, List.append_assoc]
  | recover _ hn _ ih => exact ih.recover (ih.reopened.trans hn)

/-- **Torn tails are cut exactly at the last complete record**: in every session reached by
appends and crashes, and for every cut at or after the reopened length, `Replay` raises no error,
applies the records whose encodings lie wholly inside the cut, in append order, and returns the
end of the last of them; a file that is not cut gives back every record it received. -/
theorem replay_reached {s : Session} (h : s.Reached) {n : ℕ} (hn : s.reopened ≤ n)
    (hlen : n ≤ s.file.bytes.length) {σ : Type} (apply : σ → Record → σ) (s₀ : σ) :
    replay (fun x r => (.ok (apply x r) : Except Empty σ)) (some (s.file.truncate n).bytes) s₀ =
        ⟨(insideFrom n headerSize s.appended).foldl apply s₀,
          (insideFrom n headerSize s.appended).length,
          headerSize + ((insideFrom n headerSize s.appended).map
            fun r => (frame (payload r)).length).sum, none⟩ ∧
      (n = s.file.bytes.length → insideFrom n headerSize s.appended = s.appended) := by
  have hok := h.ok
  refine ⟨hok.replay_truncate (hok.reopened.trans hn) apply s₀, ?_⟩
  rintro rfl
  apply insideFrom_all
  rw [hok.bytes, List.length_append, length_header]

/-- A record of 33 bytes torn after 20 of them, then a record appended behind the recovery: only
the second one is replayed. -/
theorem replay_reached_torn :
    replay (fun ls r => (.ok (ls ++ [r.label]) : Except Empty (List UInt64)))
      (some (((((Session.create.append ⟨opAdd, 1, 5, [7]⟩).recover 28).append
        ⟨opMarkDeleted, 1, 6, []⟩).file.truncate 37).bytes)) [] = ⟨[6], 1, 37, none⟩ :=
  (replay_reached
    (((Session.Reached.create.append (r := ⟨opAdd, 1, 5, [7]⟩)
      ⟨by decide, by decide, by decide⟩).recover (n := 28) (by decide) (by decide)).append
      (r := ⟨opMarkDeleted, 1, 6, []⟩) ⟨by decide, by decide, by decide⟩)
    (n := 37) (by decide +kernel) (by decide +kernel) (fun ls r => ls ++ [r.label]) []).1.trans
    (by decide +kernel)

end VectorSearch.Wal
