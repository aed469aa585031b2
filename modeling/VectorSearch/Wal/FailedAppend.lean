import VectorSearch.Wal.RoundTrip

/-! # Appends after a failed append

A run is a list of `Append` calls on one log, each with the outcome of its file operations; a
write that fails leaves the bytes it managed to write in the file, and the next call writes behind
them.  `acked` lists the calls that returned nil with the offset at which their record was written,
and `appliedAt` the records `Replay` applies with the offset at which it read them, so a record
counts as replayed only where it was written.

`kept_iff` says exactly when no acknowledged record is lost: when every successful call found the
file ending at a record boundary.  A fragment of a failed write in front of a successful one breaks
this unless it happens to spell whole records (`fragment_hides_record`). -/

open ByteCodec

namespace VectorSearch.Wal

/-- One `Append` call: its record and the outcome of its file operations. -/
abbrev Attempt := Record × AppendIO

/-- A record with a known op and a payload within the limit, and a write that either succeeds or
stops inside the record. -/
def Attempt.Valid (a : Attempt) : Prop :=
  KnownOp a.1.op ∧ 21 + a.1.vector.length * 4 ≤ maxPayloadLen ∧
    (a.2 = .done ∨ ∃ k < (frame (payload a.1)).length, a.2 = .writeFails k)

/-- The log after a run of calls. -/
def afterRun (f : DurableFile) (run : List Attempt) : DurableFile :=
  run.foldl (fun f a => (append f a.1 a.2).1) f

/-- The calls that returned nil, with the offsets at which their records were written. -/
def acked : DurableFile → List Attempt → List (ℕ × Record)
  | _, [] => []
  | f, (r, io) :: run =>
      match append f r io with
      | (f', .ok _) => (f.bytes.length, r) :: acked f' run
      | (f', .error _) => acked f' run

/-- The records `Replay` applies, with the offsets at which it read them. -/
def appliedAt (bs : Bytes) : List (ℕ × Record) :=
  FrameReader.starts headerSize (recordReader.scan (bs.drop headerSize))

/-- After a crash no acknowledged record is lost: `Replay` succeeds, it applies the acknowledged
records in order, each of them where it was written, and `OpenForAppend` at the returned offset
keeps all of their bytes. -/
structure Kept (run : List Attempt) : Prop where
  noError : (replay collect (some (afterRun newLog run).bytes) []).err = none
  inOrder : ((acked newLog run).map Prod.snd).Sublist
    (replay collect (some (afterRun newLog run).bytes) []).state
  inPlace : (acked newLog run).Sublist (appliedAt (afterRun newLog run).bytes)
  notCut : ∀ a ∈ acked newLog run,
    a.1 + (frame (payload a.2)).length ≤
      (openForAppend (afterRun newLog run)
        (some (replay collect (some (afterRun newLog run).bytes) []).lastGoodOffset)).bytes.length

/-- Every call that succeeds finds a file that consists of the header and whole records. -/
def AtBoundaries (run : List Attempt) : Prop :=
  ∀ pre r post, run = pre ++ (r, .done) :: post → (∃ b, encode r = .ok b) →
    recordReader.Whole ((afterRun newLog pre).bytes.drop headerSize)

/-! ### What a run leaves in the file -/

theorem afterRun_cons (f : DurableFile) (a : Attempt) (run : List Attempt) :
    afterRun f (a :: run) = afterRun (append f a.1 a.2).1 run := rfl

theorem afterRun_append (f : DurableFile) (run run' : List Attempt) :
    afterRun f (run ++ run') = afterRun (afterRun f run) run' := List.foldl_append

/-- A call never touches the bytes that are already in the file. -/
theorem prefix_append (f : DurableFile) (r : Record) (io : AppendIO) :
    f.bytes <+: (append f r io).1.bytes := by
  unfold append
  cases encode r with
  | error e => exact List.prefix_rfl
  | ok b => cases io <;> exact List.prefix_append _ _

theorem prefix_afterRun : ∀ (run : List Attempt) (f : DurableFile),
    f.bytes <+: (afterRun f run).bytes
  | [], _ => List.prefix_rfl
  | a :: run, f => (prefix_append f a.1 a.2).trans (prefix_afterRun run _)

theorem acked_append : ∀ (run run' : List Attempt) (f : DurableFile),
    acked f (run ++ run') = acked f run ++ acked (afterRun f run) run'
  | [], _, _ => rfl
  | (r, io) :: run, run', f => by
      rw [List.cons_append, acked, acked, afterRun_cons]
      cases h : append f r io with
      | mk f' res =>
          cases res with
          | error e => exact acked_append run run' f'
          | ok u => exact congrArg (_ :: ·) (acked_append run run' f')

/-- The body of a log: everything behind the header. -/
theorem afterRun_eq_header_append (run : List Attempt) :
    (afterRun newLog run).bytes =
      header ++ (afterRun newLog run).bytes.drop headerSize := by
  obtain ⟨body, hbody⟩ := prefix_afterRun run newLog
  rw [bytes_newLog] at hbody
  rw [← hbody, List.drop_left' length_header]

theorem replay_afterRun (run : List Attempt) :
    replay collect (some (afterRun newLog run).bytes) [] =
      ⟨records ((afterRun newLog run).bytes.drop headerSize),
        (records ((afterRun newLog run).bytes.drop headerSize)).length,
        headerSize + recordReader.span ((afterRun newLog run).bytes.drop headerSize), none⟩ := by
  conv_lhs => rw [afterRun_eq_header_append run]
  exact replay_collect _

/-- With `Replay`'s own record list: forgetting the offsets of `appliedAt`. -/
theorem map_snd_appliedAt (run : List Attempt) :
    (appliedAt (afterRun newLog run).bytes).map Prod.snd =
      (replay collect (some (afterRun newLog run).bytes) []).state := by
  rw [appliedAt, FrameReader.map_snd_starts, replay_afterRun]
  rfl

/-! ### Both directions -/

/-- One call at a record boundary: the frames of the file stay, and an acknowledged record is the
next of them. -/
theorem appliedAt_snoc (pre : List Attempt) {r : Record} {io : AppendIO}
    (hv : Attempt.Valid (r, io))
    (hw : (∃ b, encode r = .ok b) → io = .done →
      recordReader.Whole ((afterRun newLog pre).bytes.drop headerSize)) :
    (appliedAt (afterRun newLog pre).bytes ++ acked (afterRun newLog pre) [(r, io)]) <+:
      appliedAt (afterRun newLog (pre ++ [(r, io)])).bytes := by
  rw [afterRun_append]
  set f := afterRun newLog pre with hf
  have hbody : f.bytes = header ++ f.bytes.drop headerSize := afterRun_eq_header_append pre
  have hscan : ∀ more, appliedAt f.bytes <+: appliedAt (f.bytes ++ more) := fun more => by
    rw [appliedAt, appliedAt, List.drop_append_of_le_length (by
      rw [hbody, List.length_append, length_header]; omega)]
    obtain ⟨gs, hgs⟩ := FrameReader.scan_prefix (R := recordReader) (f.bytes.drop headerSize) more
    rw [← hgs, FrameReader.starts_append]
    exact List.prefix_append _ _
  simp only [afterRun, List.foldl_cons, List.foldl_nil]
  cases hb : encode r with
  | error e =>
      simp only [acked, append, hb, List.append_nil]
      exact List.prefix_rfl
  | ok b =>
      obtain ⟨hrule, rfl⟩ := (encode_eq_ok_iff r b).mp hb
      cases io with
      | done =>
          have hr : Loggable r := ⟨hrule, hv.1, hv.2.1⟩
          have hwf := hw ⟨_, hb⟩ rfl
          have hlen : headerSize + (f.bytes.drop headerSize).length = f.bytes.length := by
            conv_rhs => rw [hbody, List.length_append, length_header]
          simp only [acked, append, hb, DurableFile.bytes_sync, DurableFile.bytes_write]
          rw [appliedAt, appliedAt, List.drop_append_of_le_length (by omega),
            FrameReader.starts_append_of_whole hwf, hlen,
            (FrameReader.whole_of_read (R := recordReader) (readRecord_frame hr)).2]
          exact List.prefix_rfl
      | writeFails k =>
          simp only [acked, append, hb, List.append_nil, DurableFile.bytes_write]
          exact hscan _
      | syncFails =>
          simp only [acked, append, hb, List.append_nil, DurableFile.bytes_write]
          exact hscan _

/-- Calls that succeed at record boundaries only are replayed where they were written. -/
theorem acked_sublist_appliedAt {run : List Attempt} (hv : ∀ a ∈ run, Attempt.Valid a)
    (hb : AtBoundaries run) : (acked newLog run).Sublist (appliedAt (afterRun newLog run).bytes) := by
  induction run using List.reverseRecOn with
  | nil => exact List.nil_sublist _
  | append_singleton run a ih =>
      obtain ⟨r, io⟩ := a
      have hpre : AtBoundaries run := fun pre r' post h hacc =>
        hb pre r' (post ++ [(r, io)]) (by rw [h]; simp) hacc
      have hstep := appliedAt_snoc run (hv (r, io) (by simp)) fun hacc hio =>
        hb run r [] (by rw [hio]) hacc
      rw [acked_append]
      exact ((ih (fun a ha => hv a (List.mem_append_left _ ha)) hpre).append
        (List.Sublist.refl _)).trans hstep.sublist

/-- A record applied at some offset ends at or before the last good offset. -/
theorem end_le_of_mem_starts {r : Record} {x : ℕ} : ∀ {o : ℕ} {bs : Bytes},
    (x, r) ∈ FrameReader.starts o (recordReader.scan bs) →
      x + (frame (payload r)).length ≤ o + recordReader.span bs := by
  intro o bs h
  induction bs using FrameReader.scan_induction (R := recordReader) generalizing o with
  | refused bs hr => rw [FrameReader.scan_none hr] at h; cases h
  | frame bs r' n hr ih =>
      rw [FrameReader.scan_some hr] at h
      rw [FrameReader.span_some hr]
      obtain heq | h := List.mem_cons.mp h
      · obtain ⟨rfl, rfl⟩ := Prod.mk.inj heq
        obtain ⟨p, rest, -, -, -, hd, rfl⟩ := readRecord_eq_some_iff.mp hr
        obtain ⟨-, -, rfl⟩ := (decode_eq_ok_iff _ _).mp hd
        omega
      · have := ih h
        omega

/-- **No acknowledged record is lost exactly when every successful call started at a record
boundary.** -/
theorem kept_iff (run : List Attempt) (hv : ∀ a ∈ run, Attempt.Valid a) :
    Kept run ↔ AtBoundaries run := by
  constructor
  · rintro h pre r post rfl hacc
    obtain ⟨b, hb⟩ := hacc
    have hmem : ((afterRun newLog pre).bytes.length, r) ∈
        acked newLog (pre ++ (r, .done) :: post) := by
      rw [acked_append]
      refine List.mem_append_right _ ?_
      rw [acked, append_done hb]
      exact List.mem_cons_self
    have hstart := h.inPlace.subset hmem
    obtain ⟨more, hmore⟩ : (afterRun newLog pre).bytes <+:
        (afterRun newLog (pre ++ (r, .done) :: post)).bytes := by
      rw [afterRun_append]
      exact prefix_afterRun _ _
    have hlen : (afterRun newLog pre).bytes.length =
        headerSize + ((afterRun newLog pre).bytes.drop headerSize).length := by
      conv_lhs => rw [afterRun_eq_header_append pre, List.length_append, length_header]
    rw [appliedAt, ← hmore, List.drop_append_of_le_length (by omega), hlen] at hstart
    exact FrameReader.whole_of_mem_starts hstart
  · intro hb
    have hsub := acked_sublist_appliedAt hv hb
    refine ⟨by rw [replay_afterRun], ?_, hsub, ?_⟩
    · rw [← map_snd_appliedAt]
      exact hsub.map _
    · intro a ha
      have hend := end_le_of_mem_starts (hsub.subset ha)
      have hspan := FrameReader.span_le_length (R := recordReader)
        ((afterRun newLog run).bytes.drop headerSize)
      have hlen : (afterRun newLog run).bytes.length =
          headerSize + ((afterRun newLog run).bytes.drop headerSize).length := by
        conv_lhs => rw [afterRun_eq_header_append run, List.length_append, length_header]
      rw [replay_afterRun, openForAppend, DurableFile.bytes_truncate, List.length_take]
      simp only
      omega

/-- A write that fails without leaving a byte does no harm. -/
theorem kept_after_empty_failure :
    Kept [(⟨opAdd, 1, 1, [1]⟩, .writeFails 0), (⟨opAdd, 1, 1, [1]⟩, .done)] :=
  (kept_iff _ (by
    rintro a ha
    obtain rfl | ha := List.mem_cons.mp ha
    · exact ⟨by decide, by decide, Or.inr ⟨0, by decide, rfl⟩⟩
    · rw [List.mem_singleton.mp ha]
      exact ⟨by decide, by decide, Or.inl rfl⟩)).mpr (by
    intro pre r post h _
    have hcut : (afterRun newLog pre).bytes = header := by
      obtain _ | ⟨a, _ | ⟨b, pre⟩⟩ := pre
      · rfl
      · obtain ⟨rfl, -⟩ := List.cons.inj h
        decide +kernel
      · have := congrArg List.length h
        simp at this
    rw [hcut]
    exact FrameReader.whole_nil)

/-- One byte left behind by a failed call hides the record of the next call, which returned
nil. -/
theorem fragment_hides_record :
    acked newLog [(⟨opAdd, 1, 1, [1]⟩, .writeFails 1), (⟨opAdd, 1, 1, [1]⟩, .done)] =
        [(9, ⟨opAdd, 1, 1, [1]⟩)] ∧
      (replay collect (some (afterRun newLog
        [(⟨opAdd, 1, 1, [1]⟩, .writeFails 1), (⟨opAdd, 1, 1, [1]⟩, .done)]).bytes) []).state = [] ∧
      ¬ Kept [(⟨opAdd, 1, 1, [1]⟩, .writeFails 1), (⟨opAdd, 1, 1, [1]⟩, .done)] := by
  have hacked : acked newLog [(⟨opAdd, 1, 1, [1]⟩, .writeFails 1), (⟨opAdd, 1, 1, [1]⟩, .done)] =
      [(9, ⟨opAdd, 1, 1, [1]⟩)] := by decide +kernel
  have hstate : (replay collect (some (afterRun newLog
      [(⟨opAdd, 1, 1, [1]⟩, .writeFails 1), (⟨opAdd, 1, 1, [1]⟩, .done)]).bytes) []).state = [] := by
    decide +kernel
  refine ⟨hacked, hstate, fun h => ?_⟩
  have := h.inOrder
  rw [hacked, hstate] at this
  exact absurd (List.sublist_nil.mp this) (by simp)

end VectorSearch.Wal
