import VectorSearch.Lib.Frames
import VectorSearch.Lib.DurableFile
import VectorSearch.Wal.Record

/-! # The log file: Create, Append, Replay, OpenForAppend

A log file is an eight-byte header followed by frames.  `readRecord` is an instance of
`FrameReader` (`recordReader`): `readRecord_eq_some_iff` says that it accepts exactly the framed
payloads of length `1` to `maxPayloadLen` that `decode` accepts, so the rules of
`Lib/Frames.lean` apply to the body of a log.

`replay_header_append` reduces `Replay` to a fold of the callback over the records scanned off the
body, and `eq_header_append_of_replay` recovers the header from a replay that raised no error.  A
record is `Loggable` when the writer accepts it and the reader reads it back
(`readRecord_frame`). -/

open ByteCodec

namespace VectorSearch.Wal

/-! ### Reading one record -/

/-- `io.ReadFull`: the next `n` bytes and the rest of the stream. -/
def readFull (r : Bytes) (n : ℕ) : Option (Bytes × Bytes) :=
  if n ≤ r.length then some (r.take n, r.drop n) else none

/-- `readRecord`: the next record and the number of bytes it took. -/
def readRecord (r : Bytes) : Option (Record × ℕ) := do
  let (lenBuf, r) ← readFull r 4
  let payloadLen := getLE lenBuf
  if payloadLen = 0 ∨ maxPayloadLen < payloadLen then none
  else
    let (payload, r) ← readFull r payloadLen
    let (crcBuf, _) ← readFull r 4
    if (checksumIEEE payload).toNat ≠ getLE crcBuf then none
    else
      match decode payload with
      | .error _ => none
      | .ok rec => some (rec, 4 + payloadLen + 4)

theorem readFull_eq_some_iff {r a b : Bytes} {n : ℕ} :
    readFull r n = some (a, b) ↔ r = a ++ b ∧ a.length = n := by
  unfold readFull
  constructor
  · intro h
    split_ifs at h with hn
    simp only [Option.some.injEq, Prod.mk.injEq] at h
    obtain ⟨rfl, rfl⟩ := h
    exact ⟨(List.take_append_drop n r).symm, by rw [List.length_take]; omega⟩
  · rintro ⟨rfl, rfl⟩
    rw [if_pos (by simp)]
    simp

theorem frame_append (p rest : Bytes) :
    frame p ++ rest = putLE 4 p.length ++ (p ++ (putLE 4 (checksumIEEE p).toNat ++ rest)) := by
  simp only [frame, List.append_assoc]

/-- **The frames the reader accepts.** -/
theorem readRecord_eq_some_iff {bs : Bytes} {r : Record} {n : ℕ} :
    readRecord bs = some (r, n) ↔ ∃ p rest, bs = frame p ++ rest ∧ p.length ≠ 0 ∧
      p.length ≤ maxPayloadLen ∧ decode p = .ok r ∧ n = (frame p).length := by
  constructor
  · intro h
    simp only [readRecord, Option.bind_eq_bind, Option.bind_eq_some_iff, Prod.exists] at h
    obtain ⟨lenBuf, r₁, h₁, h⟩ := h
    split_ifs at h with hlen
    simp only [Option.bind_eq_some_iff, Prod.exists] at h
    obtain ⟨p, r₂, h₂, crcBuf, r₃, h₃, h⟩ := h
    split_ifs at h with hcrc
    obtain ⟨rfl, hl₁⟩ := readFull_eq_some_iff.mp h₁
    obtain ⟨rfl, hl₂⟩ := readFull_eq_some_iff.mp h₂
    obtain ⟨rfl, hl₃⟩ := readFull_eq_some_iff.mp h₃
    have hbuf : putLE 4 p.length = lenBuf := by
      have := putLE_getLE lenBuf
      rwa [hl₁, ← hl₂] at this
    have hsum : putLE 4 (checksumIEEE p).toNat = crcBuf := by
      have := putLE_getLE crcBuf
      rwa [hl₃, ← not_not.mp hcrc] at this
    cases hd : decode p with
    | error e => rw [hd] at h; cases h
    | ok rec =>
        rw [hd] at h
        simp only [Option.some.injEq, Prod.mk.injEq] at h
        obtain ⟨rfl, rfl⟩ := h
        refine ⟨p, r₃, by rw [frame_append, hbuf, hsum], ?_, ?_, hd, by rw [length_frame, hl₂]⟩
        · intro h0
          exact hlen (Or.inl (by omega))
        · by_contra hmax
          exact hlen (Or.inr (by omega))
  · rintro ⟨p, rest, rfl, hpos, hmax, hd, rfl⟩
    have hfield : getLE (putLE 4 p.length) = p.length :=
      getLE_putLE_of_lt (lt_of_le_of_lt hmax (by decide))
    have hsum : getLE (putLE 4 (checksumIEEE p).toNat) = (checksumIEEE p).toNat :=
      getLE_putLE_of_lt (by simpa using (checksumIEEE p).toNat_lt)
    have h₁ : readFull (frame p ++ rest) 4 =
        some (putLE 4 p.length, p ++ (putLE 4 (checksumIEEE p).toNat ++ rest)) :=
      readFull_eq_some_iff.mpr ⟨frame_append p rest, length_putLE _ _⟩
    have h₂ : readFull (p ++ (putLE 4 (checksumIEEE p).toNat ++ rest)) p.length =
        some (p, putLE 4 (checksumIEEE p).toNat ++ rest) :=
      readFull_eq_some_iff.mpr ⟨rfl, rfl⟩
    have h₃ : readFull (putLE 4 (checksumIEEE p).toNat ++ rest) 4 =
        some (putLE 4 (checksumIEEE p).toNat, rest) :=
      readFull_eq_some_iff.mpr ⟨rfl, length_putLE _ _⟩
    have hok : ¬ (p.length = 0 ∨ maxPayloadLen < p.length) := by omega
    simp only [readRecord, h₁, Option.bind_eq_bind, Option.bind_some, hfield, if_neg hok, h₂, h₃,
      hsum, ne_eq, not_true_eq_false, if_false, hd, length_frame]

/-- `readRecord` reads frames. -/
def recordReader : FrameReader UInt8 Record where
  read := readRecord
  pos := by
    intro bs r n h
    obtain ⟨p, rest, -, -, -, -, rfl⟩ := readRecord_eq_some_iff.mp h
    rw [length_frame]
    omega
  le_length := by
    intro bs r n h
    obtain ⟨p, rest, rfl, -, -, -, rfl⟩ := readRecord_eq_some_iff.mp h
    rw [List.length_append]
    exact Nat.le_add_right _ _
  local_read := by
    intro bs r n h more
    obtain ⟨p, rest, rfl, hpos, hmax, hd, rfl⟩ := readRecord_eq_some_iff.mp h
    rw [List.take_left]
    exact readRecord_eq_some_iff.mpr ⟨p, more, rfl, hpos, hmax, hd, rfl⟩

@[simp] theorem recordReader_read (bs : Bytes) : recordReader.read bs = readRecord bs := rfl

/-- The records of a log body. -/
def records (body : Bytes) : List Record := (recordReader.scan body).map Prod.fst

/-- A cut-off frame is not read. -/
theorem readRecord_torn {p t : Bytes} (hmax : p.length ≤ maxPayloadLen) (ht : t <+: frame p)
    (hlt : t.length < (frame p).length) : readRecord t = none := by
  cases h : readRecord t with
  | none => rfl
  | some x =>
      obtain ⟨p', rest, rfl, -, hmax', -, -⟩ := readRecord_eq_some_iff.mp h
      obtain ⟨u, hu⟩ := ht
      rw [List.append_assoc, frame_append, frame] at hu
      have hlen : putLE 4 p'.length = putLE 4 p.length := (List.append_inj hu (by simp)).1
      have hval := congrArg getLE hlen
      rw [getLE_putLE_of_lt (lt_of_le_of_lt hmax' (by decide)),
        getLE_putLE_of_lt (lt_of_le_of_lt hmax (by decide))] at hval
      rw [List.length_append, length_frame, length_frame] at hlt
      omega

/-! ### Records that come back -/

/-- The writer accepts the record, and the reader knows its op and takes its length. -/
structure Loggable (r : Record) : Prop where
  rule : r.op = opAdd ↔ r.vector ≠ []
  known : KnownOp r.op
  fits : 21 + r.vector.length * 4 ≤ maxPayloadLen

theorem Loggable.encode {r : Record} (h : Loggable r) : encode r = .ok (frame (payload r)) :=
  (encode_eq_ok_iff r _).mpr ⟨h.rule, rfl⟩

theorem Loggable.length_payload_le {r : Record} (h : Loggable r) :
    (payload r).length ≤ maxPayloadLen := by
  rw [length_payload]
  exact h.fits

theorem Loggable.length_lt {r : Record} (h : Loggable r) : r.vector.length < 2 ^ 32 := by
  have := h.fits
  rw [maxPayloadLen] at this
  omega

theorem readRecord_frame {r : Record} (h : Loggable r) :
    readRecord (frame (payload r)) = some (r, (frame (payload r)).length) :=
  readRecord_eq_some_iff.mpr ⟨payload r, [], (List.append_nil _).symm,
    by rw [length_payload]; omega, h.length_payload_le,
    (decode_eq_ok_iff _ _).mpr ⟨h.known, h.length_lt, rfl⟩, rfl⟩

/-- Whatever is read off a log has a known op and a payload within the limit. -/
theorem known_fits_of_readRecord {bs : Bytes} {r : Record} {n : ℕ}
    (h : readRecord bs = some (r, n)) :
    KnownOp r.op ∧ 21 + r.vector.length * 4 ≤ maxPayloadLen := by
  obtain ⟨p, rest, -, -, hmax, hd, -⟩ := readRecord_eq_some_iff.mp h
  obtain ⟨hop, -, rfl⟩ := (decode_eq_ok_iff _ _).mp hd
  rw [length_payload] at hmax
  exact ⟨hop, hmax⟩

theorem known_fits_of_mem_records {body : Bytes} {r : Record} (h : r ∈ records body) :
    KnownOp r.op ∧ 21 + r.vector.length * 4 ≤ maxPayloadLen := by
  induction body using FrameReader.scan_induction (R := recordReader) with
  | refused bs hr =>
      rw [records, FrameReader.scan_none hr] at h
      cases h
  | frame bs r' n hr ih =>
      rw [records, FrameReader.scan_some hr, List.map_cons] at h
      obtain rfl | h := List.mem_cons.mp h
      · exact known_fits_of_readRecord hr
      · exact ih h

/-- Framing a loggable record behind a whole body. -/
theorem whole_snoc {body : Bytes} (hw : recordReader.Whole body) {r : Record} (hr : Loggable r) :
    recordReader.Whole (body ++ frame (payload r)) ∧
      records (body ++ frame (payload r)) = records body ++ [r] := by
  obtain ⟨h, hs⟩ := hw.snoc (readRecord_frame hr)
  exact ⟨h, by rw [records, hs, List.map_append]; rfl⟩

/-! ### The file operations -/

/-- The eight bytes every log starts with. -/
def header : Bytes := putLE 4 magic ++ putLE 4 version

@[simp] theorem length_header : header.length = headerSize := rfl

/-- What `Create` leaves behind when the file did not exist. -/
def newLog : DurableFile := (DurableFile.empty.write header).sync

@[simp] theorem bytes_newLog : newLog.bytes = header := rfl

inductive CreateError where
  /-- "wal: create %s: %w", from `O_EXCL` on an existing file -/
  | exists
deriving DecidableEq, Repr

/-- How the file operations of one `Append` go. -/
inductive AppendIO where
  /-- the write and the fsync succeed -/
  | done
  /-- the write fails after `k` bytes of the record -/
  | writeFails (k : ℕ)
  /-- the write succeeds and the fsync fails -/
  | syncFails
deriving DecidableEq, Repr

inductive AppendError where
  | encode (e : EncodeError)
  /-- "wal: write: %w" -/
  | write
  /-- "wal: fsync: %w" -/
  | fsync
deriving DecidableEq, Repr

/-- `Append`. -/
def append (f : DurableFile) (r : Record) (io : AppendIO) : DurableFile × Except AppendError Unit :=
  match encode r with
  | .error e => (f, .error (.encode e))
  | .ok buf =>
      match io with
      | .done => ((f.write buf).sync, .ok ())
      | .writeFails k => (f.write (buf.take k), .error .write)
      | .syncFails => (f.write buf, .error .fsync)

/-- `OpenForAppend` of an existing file; a negative offset (`none`) does not truncate. -/
def openForAppend (f : DurableFile) (truncateTo : Option ℕ) : DurableFile :=
  match truncateTo with
  | none => f
  | some n => f.truncate n

theorem append_done {f : DurableFile} {r : Record} {b : Bytes} (h : encode r = .ok b) :
    append f r .done = ((f.write (frame (payload r))).sync, .ok ()) := by
  obtain ⟨-, rfl⟩ := (encode_eq_ok_iff r b).mp h
  rw [append, h]

/-! ### Replay -/

inductive ReplayError (ε : Type) where
  /-- "wal: %s: reading header: %w" -/
  | header
  /-- "wal: %s: bad magic 0x%x -- not a WAL file" -/
  | badMagic (got : ℕ)
  /-- "wal: %s: version %d, this code expects %d (...)" -/
  | badVersion (got : ℕ)
  /-- "wal: applying record %d (op=%d clientId=%d label=%d): %w" -/
  | applying (n : ℕ) (rec : Record) (err : ε)
deriving DecidableEq, Repr

/-- What `Replay` returns, with the state its callback built up. -/
structure Replayed (σ ε : Type) where
  state : σ
  recordsApplied : ℕ
  lastGoodOffset : ℕ
  err : Option (ReplayError ε)
deriving DecidableEq, Repr

section replay
variable {σ ε : Type} (apply : σ → Record → Except ε σ)

/-- The loop of `Replay`; every round takes at least one byte, so `fuel` bytes of fuel do. -/
def replayLoop : ℕ → Bytes → σ → ℕ → ℕ → Replayed σ ε
  | 0, _, s, n, offset => ⟨s, n, offset, none⟩
  | fuel + 1, br, s, n, offset =>
      match readRecord br with
      | none => ⟨s, n, offset, none⟩
      | some (rec, k) =>
          match apply s rec with
          | .error e => ⟨s, n, offset, some (.applying n rec e)⟩
          | .ok s' => replayLoop fuel (br.drop k) s' (n + 1) (offset + k)

/-- `Replay` of the file at a path, if there is one. -/
def replay (path : Option Bytes) (s : σ) : Replayed σ ε :=
  match path with
  | none => ⟨s, 0, 0, none⟩
  | some bs =>
      if bs.length < headerSize then ⟨s, 0, 0, some .header⟩
      else if getLE (slice bs 0 4) ≠ magic then
        ⟨s, 0, 0, some (.badMagic (getLE (slice bs 0 4)))⟩
      else if getLE (slice bs 4 8) ≠ version then
        ⟨s, 0, 0, some (.badVersion (getLE (slice bs 4 8)))⟩
      else replayLoop apply bs.length (bs.drop headerSize) s 0 headerSize

/-- Fold the callback over a list of records. -/
def applyAll (s : σ) (rs : List Record) : Except ε σ := rs.foldlM apply s

@[simp] theorem applyAll_nil (s : σ) : applyAll apply s [] = .ok s := rfl

theorem applyAll_cons (s : σ) (r : Record) (rs : List Record) :
    applyAll apply s (r :: rs) = (apply s r).bind fun s' => applyAll apply s' rs := by
  simp only [applyAll, List.foldlM_cons]
  rfl

theorem applyAll_append (s : σ) (rs rs' : List Record) :
    applyAll apply s (rs ++ rs') = (applyAll apply s rs).bind fun s' => applyAll apply s' rs' := by
  simp only [applyAll, List.foldlM_append]
  rfl

/-- The loop applies exactly the records that the scan of the stream finds. -/
theorem replayLoop_eq (br : Bytes) : ∀ (fuel : ℕ) (s : σ) (n offset : ℕ), br.length ≤ fuel →
    match applyAll apply s (records br) with
    | .ok s' => replayLoop apply fuel br s n offset =
        ⟨s', n + (records br).length, offset + recordReader.span br, none⟩
    | .error _ => (replayLoop apply fuel br s n offset).err ≠ none := by
  induction br using FrameReader.scan_induction (R := recordReader) with
  | refused br hr =>
      intro fuel s n offset _
      rw [recordReader_read] at hr
      have hrec : records br = [] := by rw [records, FrameReader.scan_none hr]; rfl
      rw [hrec, applyAll_nil, FrameReader.span_none hr]
      cases fuel with
      | zero => rfl
      | succ fuel => simp only [replayLoop, hr, List.length_nil, Nat.add_zero]
  | frame br r k hr ih =>
      intro fuel s n offset hfuel
      have hpos := recordReader.pos hr
      have hle := recordReader.le_length hr
      have hrec : records br = r :: records (br.drop k) := by
        rw [records, FrameReader.scan_some hr]; rfl
      rw [recordReader_read] at hr
      cases fuel with
      | zero => omega
      | succ fuel =>
          rw [hrec, applyAll_cons, FrameReader.span_some (R := recordReader) hr]
          simp only [replayLoop, hr]
          cases happ : apply s r with
          | error e => simp [Except.bind]
          | ok s' =>
              have := ih fuel s' (n + 1) (offset + k) (by rw [List.length_drop]; omega)
              simp only [Except.bind]
              cases hall : applyAll apply s' (records (br.drop k)) with
              | error e =>
                  rw [hall] at this
                  exact this
              | ok s'' =>
                  rw [hall] at this
                  simp only at this ⊢
                  rw [this, List.length_cons, Nat.add_assoc offset, Nat.add_assoc n, Nat.add_comm 1]

theorem replay_header (body : Bytes) (s : σ) :
    replay apply (some (header ++ body)) s =
      replayLoop apply (header ++ body).length body s 0 headerSize := by
  have hmagic : getLE (slice (header ++ body) 0 4) = magic := by
    have h := slice_middle [] (putLE 4 magic) (putLE 4 version ++ body) (a := 0) (b := 4) rfl rfl
    rw [List.nil_append, ← List.append_assoc] at h
    rw [header, h]
    exact getLE_putLE_of_lt (by decide)
  have hversion : getLE (slice (header ++ body) 4 8) = version := by
    rw [header, List.append_assoc,
      slice_middle (a := 4) (b := 8) (putLE 4 magic) (putLE 4 version) body rfl rfl]
    exact getLE_putLE_of_lt (by decide)
  simp only [replay, hmagic, hversion]
  rw [if_neg (by rw [List.length_append, length_header]; omega), if_neg (by simp), if_neg (by simp),
    List.drop_left' length_header]

/-- **Replay of a log with a header.** -/
theorem replay_header_append (body : Bytes) (s : σ) :
    match applyAll apply s (records body) with
    | .ok s' => replay apply (some (header ++ body)) s =
        ⟨s', (records body).length, headerSize + recordReader.span body, none⟩
    | .error _ => (replay apply (some (header ++ body)) s).err ≠ none := by
  have h := replayLoop_eq apply body (header ++ body).length s 0 headerSize
    (by rw [List.length_append]; omega)
  rw [← replay_header apply body s, Nat.zero_add] at h
  exact h

theorem replay_ok {body : Bytes} {s s' : σ} (h : applyAll apply s (records body) = .ok s') :
    replay apply (some (header ++ body)) s =
      ⟨s', (records body).length, headerSize + recordReader.span body, none⟩ := by
  have := replay_header_append apply body s
  rwa [h] at this

/-- A replay without an error started with the header and applied every record it read. -/
theorem eq_header_append_of_replay {bs : Bytes} {s : σ}
    (h : (replay apply (some bs) s).err = none) :
    bs = header ++ bs.drop headerSize ∧
      ∃ s', applyAll apply s (records (bs.drop headerSize)) = .ok s' := by
  have hbs : bs = header ++ bs.drop headerSize := by
    simp only [replay] at h
    split_ifs at h with hlen hmagic hversion
    have hlen : 8 ≤ bs.length := by rw [headerSize] at hlen; omega
    have h₁ : putLE 4 magic = slice bs 0 4 := by
      rw [← not_not.mp hmagic]
      exact putLE_getLE_slice (p := bs) (a := 0) (b := 4) (by omega)
    have h₂ : putLE 4 version = slice bs 4 8 := by
      rw [← not_not.mp hversion]
      exact putLE_getLE_slice (p := bs) (a := 4) (b := 8) (by omega)
    rw [header, h₁, h₂, slice_append_slice bs (by omega) (by omega), slice, List.drop_zero]
    exact (List.take_append_drop _ _).symm
  refine ⟨hbs, ?_⟩
  have := replay_header_append apply (bs.drop headerSize) s
  rw [← hbs] at this
  cases hall : applyAll apply s (records (bs.drop headerSize)) with
  | ok s' => exact ⟨s', rfl⟩
  | error e =>
      rw [hall] at this
      exact absurd h this

end replay

/-- The callback that collects the records. -/
def collect (rs : List Record) (r : Record) : Except Empty (List Record) := .ok (rs ++ [r])

theorem applyAll_collect : ∀ (rs acc : List Record), applyAll collect acc rs = .ok (acc ++ rs)
  | [], acc => by rw [applyAll_nil, List.append_nil]
  | r :: rs, acc => by
      rw [applyAll_cons, collect, Except.bind, applyAll_collect rs, List.append_assoc]
      rfl

theorem replay_collect (body : Bytes) :
    replay collect (some (header ++ body)) [] =
      ⟨records body, (records body).length, headerSize + recordReader.span body, none⟩ :=
  replay_ok collect (applyAll_collect (records body) [])

/-! ### What a log holds -/

/-- The file is a header and whole frames, which hold the records `rs`. -/
def Holds (bs : Bytes) (rs : List Record) : Prop :=
  ∃ body, bs = header ++ body ∧ recordReader.Whole body ∧ records body = rs

theorem holds_newLog : Holds newLog.bytes [] :=
  ⟨[], (List.append_nil _).symm, FrameReader.whole_nil, rfl⟩

theorem Holds.records_drop {bs : Bytes} {rs : List Record} (h : Holds bs rs) :
    records (bs.drop headerSize) = rs := by
  obtain ⟨body, rfl, -, hrec⟩ := h
  rw [List.drop_left' length_header, hrec]

/-- Appending a loggable record. -/
theorem Holds.append {f : DurableFile} {rs : List Record} (h : Holds f.bytes rs) {r : Record}
    (hr : Loggable r) : Holds (f.bytes ++ frame (payload r)) (rs ++ [r]) := by
  obtain ⟨body, hbytes, hw, rfl⟩ := h
  obtain ⟨hw', hrec⟩ := whole_snoc hw hr
  exact ⟨body ++ frame (payload r), by rw [hbytes, List.append_assoc], hw', hrec⟩

theorem Holds.replay {bs : Bytes} {rs : List Record} (h : Holds bs rs) {σ ε : Type}
    {apply : σ → Record → Except ε σ} {s s' : σ} (happ : applyAll apply s rs = .ok s') :
    replay apply (some bs) s = ⟨s', rs.length, bs.length, none⟩ := by
  obtain ⟨body, rfl, hw, rfl⟩ := h
  rw [replay_ok apply happ, hw, List.length_append, length_header]

/-- Cutting a log at the end of its last whole frame. -/
theorem holds_take_span (body : Bytes) :
    Holds ((header ++ body).take (headerSize + recordReader.span body)) (records body) := by
  obtain ⟨hw, hscan⟩ := FrameReader.whole_take_span (R := recordReader) body
  refine ⟨body.take (recordReader.span body), ?_, hw, by rw [records, hscan]; rfl⟩
  rw [List.take_append, length_header, List.take_of_length_le (by rw [length_header]; omega),
    Nat.add_sub_cancel_left]

theorem readRecord_nil : readRecord [] = none := rfl

/-- A torn frame behind a log is no record. -/
theorem Holds.records_drop_torn {bs t : Bytes} {rs : List Record} (h : Holds bs rs)
    (ht : readRecord t = none) : records ((bs ++ t).drop headerSize) = rs := by
  obtain ⟨body, rfl, hw, rfl⟩ := h
  obtain ⟨hscan, -⟩ := FrameReader.scan_append_torn (R := recordReader) hw ht
  rw [List.append_assoc, List.drop_left' length_header, records, hscan]
  rfl

/-- A log with a torn frame behind it is read like the log. -/
theorem Holds.replay_torn {bs t : Bytes} {rs : List Record} (h : Holds bs rs)
    (ht : readRecord t = none) {σ ε : Type} {apply : σ → Record → Except ε σ} {s s' : σ}
    (happ : applyAll apply s rs = .ok s') :
    Wal.replay apply (some (bs ++ t)) s = ⟨s', rs.length, bs.length, none⟩ := by
  obtain ⟨body, rfl, hw, rfl⟩ := h
  obtain ⟨hscan, hspan⟩ := FrameReader.scan_append_torn (R := recordReader) hw ht
  have hrec : records (body ++ t) = records body := by rw [records, hscan]; rfl
  rw [List.append_assoc, replay_ok apply (by rw [hrec]; exact happ), hrec, hspan,
    List.length_append, length_header]

end VectorSearch.Wal
