import VectorSearch.Lib.ByteCodec

/-! # WAL records and their encoding

The record type of `go/wal`, the payload layout `op(1) clientId(8) label(8) dim(4) vector(dim*4)`
and the frame `length(4) payload crc32(4)` around it, all little-endian.  A `float32` is its bit
pattern (`math.Float32bits`).

`encode` and `decode` are the writer's and the reader's rules; they are not the same.
`decode_eq_ok_iff` gives the payloads that `decode` accepts: those that spell a record with a known
op and fewer than `2 ^ 32` components, whatever the op.  `encode_eq_ok_iff` gives the records that
`encode` accepts: those that carry a vector exactly when they add, whatever the op byte and the
length. -/

open ByteCodec

namespace VectorSearch.Wal

/-- A `[]float32`, each component by its 32 bits. -/
abbrev Vec := List UInt32

/-- `wal.Record`. -/
structure Record where
  op : UInt8
  clientID : UInt64
  label : UInt64
  vector : Vec
deriving DecidableEq, Repr

def opAdd : UInt8 := 1
def opMarkDeleted : UInt8 := 2
def opUnmarkDeleted : UInt8 := 3

def magic : ℕ := 0x57414C31
def version : ℕ := 2
def headerSize : ℕ := 8
def maxPayloadLen : ℕ := 2 ^ 24

/-! ### CRC-32 -/

/-- One bit of the reflected CRC-32 with the IEEE polynomial. -/
def crcBit (c : ℕ) : ℕ := if c % 2 = 1 then (c / 2) ^^^ 0xEDB88320 else c / 2

def crcByte (c : ℕ) (b : UInt8) : ℕ := crcBit^[8] (c ^^^ b.toNat)

/-- `crc32.ChecksumIEEE`. -/
def checksumIEEE (p : Bytes) : UInt32 :=
  UInt32.ofNat (p.foldl crcByte 0xFFFFFFFF ^^^ 0xFFFFFFFF)

-- the check value of CRC-32/IEEE: the checksum of the digits 1 to 9
example : checksumIEEE [0x31, 0x32, 0x33, 0x34, 0x35, 0x36, 0x37, 0x38, 0x39] = 0xCBF43926 := by
  decide +kernel

/-! ### Writing -/

/-- The fixed part of a payload: op, client, label and the declared dimension. -/
def fixedHeader (r : Record) : Bytes :=
  r.op :: (putLE 8 r.clientID.toNat ++ (putLE 8 r.label.toNat ++ putLE 4 r.vector.length))

/-- The payload of a record. -/
def payload (r : Record) : Bytes := fixedHeader r ++ putWords 4 (r.vector.map UInt32.toNat)

/-- Length, payload and checksum. -/
def frame (p : Bytes) : Bytes :=
  putLE 4 p.length ++ (p ++ putLE 4 (checksumIEEE p).toNat)

inductive EncodeError where
  /-- "wal: OpAdd requires a non-empty vector" -/
  | addWithoutVector
  /-- "wal: only OpAdd carries a vector" -/
  | vectorWithoutAdd
deriving DecidableEq, Repr

/-- `encode`: the bytes `Append` writes for a record. -/
def encode (r : Record) : Except EncodeError Bytes :=
  if r.op = opAdd ∧ r.vector.length = 0 then .error .addWithoutVector
  else if r.op ≠ opAdd ∧ r.vector.length ≠ 0 then .error .vectorWithoutAdd
  else .ok (frame (payload r))

/-! ### Reading -/

inductive DecodeError where
  /-- "wal: payload shorter than fixed header" -/
  | short
  /-- "wal: payload length does not match declared dim" -/
  | dimMismatch
  /-- "wal: unknown op byte %d" -/
  | unknownOp (op : UInt8)
deriving DecidableEq, Repr

/-- The ops `decode` accepts. -/
def KnownOp (op : UInt8) : Prop := op = opAdd ∨ op = opMarkDeleted ∨ op = opUnmarkDeleted

instance (op : UInt8) : Decidable (KnownOp op) :=
  inferInstanceAs (Decidable (_ ∨ _ ∨ _))

/-- The dimension field of a payload. -/
def declaredDim (p : Bytes) : ℕ := getLE (slice p 17 21)

/-- The record read off a payload, field by field. -/
def readFields (p : Bytes) : Record where
  op := p.headD 0
  clientID := UInt64.ofNat (getLE (slice p 1 9))
  label := UInt64.ofNat (getLE (slice p 9 17))
  vector := (List.range (declaredDim p)).map fun i =>
    UInt32.ofNat (getLE (slice p (21 + i * 4) (25 + i * 4)))

/-- `decode`: the record a payload spells. -/
def decode (p : Bytes) : Except DecodeError Record :=
  if p.length < 21 then .error .short
  else if p.length ≠ 21 + declaredDim p * 4 then .error .dimMismatch
  else if ¬ KnownOp (p.headD 0) then .error (.unknownOp (p.headD 0))
  else .ok (readFields p)

/-! ### Lengths and windows of a payload -/

@[simp] theorem length_fixedHeader (r : Record) : (fixedHeader r).length = 21 := by
  simp [fixedHeader]

theorem length_payload (r : Record) : (payload r).length = 21 + r.vector.length * 4 := by
  rw [payload, List.length_append, length_fixedHeader, length_putWords, List.length_map]

theorem length_frame (p : Bytes) : (frame p).length = 4 + p.length + 4 := by
  simp only [frame, List.length_append, length_putLE]
  omega

theorem slice_clientID (r : Record) : slice (payload r) 1 9 = putLE 8 r.clientID.toNat := by
  have h := slice_middle [r.op] (putLE 8 r.clientID.toNat)
    (putLE 8 r.label.toNat ++ (putLE 4 r.vector.length ++ putWords 4 (r.vector.map UInt32.toNat)))
    (a := 1) (b := 9) (by simp) (by simp)
  simpa only [payload, fixedHeader, List.cons_append, List.nil_append, List.append_assoc] using h

theorem slice_label (r : Record) : slice (payload r) 9 17 = putLE 8 r.label.toNat := by
  have h := slice_middle (r.op :: putLE 8 r.clientID.toNat) (putLE 8 r.label.toNat)
    (putLE 4 r.vector.length ++ putWords 4 (r.vector.map UInt32.toNat))
    (a := 9) (b := 17) (by simp) (by simp)
  simpa only [payload, fixedHeader, List.cons_append, List.append_assoc] using h

theorem slice_dim (r : Record) : slice (payload r) 17 21 = putLE 4 r.vector.length := by
  have h := slice_middle (r.op :: (putLE 8 r.clientID.toNat ++ putLE 8 r.label.toNat))
    (putLE 4 r.vector.length) (putWords 4 (r.vector.map UInt32.toNat))
    (a := 17) (b := 21) (by simp) (by simp)
  simpa only [payload, fixedHeader, List.cons_append, List.append_assoc] using h

theorem drop_payload (r : Record) :
    (payload r).drop 21 = putWords 4 (r.vector.map UInt32.toNat) :=
  List.drop_left' (length_fixedHeader r)

theorem declaredDim_payload {r : Record} (h : r.vector.length < 2 ^ 32) :
    declaredDim (payload r) = r.vector.length := by
  rw [declaredDim, slice_dim, getLE_putLE_of_lt (by simpa using h)]

theorem declaredDim_lt {p : Bytes} (h : 21 ≤ p.length) : declaredDim p < 2 ^ 32 := by
  have := getLE_lt (slice p 17 21)
  rw [length_slice h] at this
  simpa [declaredDim] using this

/-- The components read off a payload are the words behind the fixed part. -/
theorem readFields_vector (p : Bytes) :
    (readFields p).vector = (getWords 4 (declaredDim p) (p.drop 21)).map UInt32.ofNat := by
  simp only [readFields, getWords, List.map_map]
  apply List.map_congr_left
  intro i _
  have hend : 21 + (i * 4 + 4) = 25 + i * 4 := by omega
  simp only [Function.comp, slice_drop, hend]

theorem length_readFields_vector (p : Bytes) : (readFields p).vector.length = declaredDim p := by
  simp [readFields]

/-- Reading the fields of a written payload. -/
theorem readFields_payload {r : Record} (h : r.vector.length < 2 ^ 32) :
    readFields (payload r) = r := by
  have hc : UInt64.ofNat (getLE (slice (payload r) 1 9)) = r.clientID := by
    rw [slice_clientID, getLE_putLE_of_lt (by simpa using r.clientID.toNat_lt), UInt64.ofNat_toNat]
  have hl : UInt64.ofNat (getLE (slice (payload r) 9 17)) = r.label := by
    rw [slice_label, getLE_putLE_of_lt (by simpa using r.label.toNat_lt), UInt64.ofNat_toNat]
  have hvec : (readFields (payload r)).vector = r.vector := by
    have hbound : ∀ n ∈ r.vector.map UInt32.toNat, n < 256 ^ 4 := by
      intro n hn
      obtain ⟨x, -, rfl⟩ := List.mem_map.mp hn
      simpa using x.toNat_lt
    have hget := getWords_putWords hbound
    rw [List.length_map] at hget
    rw [readFields_vector, declaredDim_payload h, drop_payload, hget, List.map_map]
    simp [Function.comp_def]
  calc readFields (payload r)
      = ⟨(payload r).headD 0, UInt64.ofNat (getLE (slice (payload r) 1 9)),
          UInt64.ofNat (getLE (slice (payload r) 9 17)), (readFields (payload r)).vector⟩ := rfl
    _ = ⟨r.op, r.clientID, r.label, r.vector⟩ := by rw [hc, hl, hvec]; rfl

/-- A record whose payload is `p`, if `p` has room for `n` components and declares as many. -/
def recordOf (p : Bytes) (n : ℕ) : Record where
  op := p.headD 0
  clientID := UInt64.ofNat (getLE (slice p 1 9))
  label := UInt64.ofNat (getLE (slice p 9 17))
  vector := (getWords 4 n (p.drop 21)).map UInt32.ofNat

theorem length_recordOf_vector (p : Bytes) (n : ℕ) : (recordOf p n).vector.length = n := by
  simp [recordOf, getWords]

theorem payload_recordOf {p : Bytes} {n : ℕ} (hlen : p.length = 21 + n * 4)
    (hdim : declaredDim p = n % 2 ^ 32) : payload (recordOf p n) = p := by
  have hc : putLE 8 (recordOf p n).clientID.toNat = slice p 1 9 := by
    have hlt := getLE_lt (slice p 1 9)
    rw [length_slice (by omega)] at hlt
    rw [← putLE_getLE_slice (p := p) (a := 1) (b := 9) (by omega), recordOf,
      UInt64.toNat_ofNat_of_lt' (by simpa using hlt)]
  have hl : putLE 8 (recordOf p n).label.toNat = slice p 9 17 := by
    have hlt := getLE_lt (slice p 9 17)
    rw [length_slice (by omega)] at hlt
    rw [← putLE_getLE_slice (p := p) (a := 9) (b := 17) (by omega), recordOf,
      UInt64.toNat_ofNat_of_lt' (by simpa using hlt)]
  have hd : putLE 4 (recordOf p n).vector.length = slice p 17 21 := by
    rw [length_recordOf_vector, ← putLE_getLE_slice (p := p) (a := 17) (b := 21) (by omega),
      show getLE (slice p 17 21) = n % 2 ^ 32 from hdim]
    have hput := putLE_getLE (putLE 4 n)
    rw [length_putLE, getLE_putLE] at hput
    simpa using hput.symm
  have hwords : putWords 4 ((recordOf p n).vector.map UInt32.toNat) = p.drop 21 := by
    have hid : ((recordOf p n).vector.map UInt32.toNat) = getWords 4 n (p.drop 21) := by
      rw [recordOf, List.map_map]
      refine (List.map_congr_left ?_).trans (List.map_id _)
      intro m hm
      simp only [getWords, List.mem_map, List.mem_range] at hm
      obtain ⟨i, hi, rfl⟩ := hm
      have hlt := getLE_lt (slice (p.drop 21) (i * 4) (i * 4 + 4))
      rw [length_slice (by rw [List.length_drop]; omega)] at hlt
      simp only [Function.comp, id]
      exact UInt32.toNat_ofNat_of_lt' (by simpa using hlt)
    rw [hid, putWords_getWords (by rw [List.length_drop]; omega)]
  have hop : (recordOf p n).op :: slice p 1 21 = p.take 21 := by
    cases p with
    | nil =>
        rw [List.length_nil] at hlen
        omega
    | cons b bs => rfl
  rw [payload, fixedHeader, hc, hl, hd, hwords, slice_append_slice p (by omega) (by omega),
    slice_append_slice p (by omega) (by omega), hop, List.take_append_drop]

/-- Writing the fields read off a payload whose length matches its dimension. -/
theorem payload_readFields {p : Bytes} (hlen : 21 ≤ p.length)
    (hdim : p.length = 21 + declaredDim p * 4) : payload (readFields p) = p := by
  have hfields : readFields p = recordOf p (declaredDim p) := by
    have hvec := readFields_vector p
    rw [recordOf, ← hvec]
    rfl
  rw [hfields, payload_recordOf hdim (Nat.mod_eq_of_lt (declaredDim_lt hlen)).symm]

/-! ### What the two sides accept -/

theorem encode_eq_ok_iff (r : Record) (b : Bytes) :
    encode r = .ok b ↔ (r.op = opAdd ↔ r.vector ≠ []) ∧ b = frame (payload r) := by
  rw [← List.length_pos_iff_ne_nil]
  unfold encode
  split_ifs with h₁ h₂
  · refine iff_of_false nofun ?_
    rintro ⟨h, -⟩
    have := h.mp h₁.1
    omega
  · refine iff_of_false nofun ?_
    rintro ⟨h, -⟩
    exact h₂.1 (h.mpr (Nat.pos_of_ne_zero h₂.2))
  · have hrule : r.op = opAdd ↔ 0 < r.vector.length := by
      constructor
      · intro h
        exact Nat.pos_of_ne_zero fun h0 => h₁ ⟨h, h0⟩
      · intro h
        by_contra hop
        exact h₂ ⟨hop, by omega⟩
    simp only [Except.ok.injEq, hrule, iff_self, true_and, eq_comm]

/-- **What the reader accepts**: the payload of a record with a known op and a dimension that fits
its field. -/
theorem decode_eq_ok_iff (p : Bytes) (r : Record) :
    decode p = .ok r ↔ KnownOp r.op ∧ r.vector.length < 2 ^ 32 ∧ p = payload r := by
  unfold decode
  constructor
  · intro h
    split_ifs at h with hlen hdim hop
    simp only [Except.ok.injEq] at h
    subst h
    have hlen' : 21 ≤ p.length := by omega
    refine ⟨hop, ?_, (payload_readFields hlen' (not_not.mp hdim)).symm⟩
    rw [length_readFields_vector]
    exact declaredDim_lt hlen'
  · rintro ⟨hop, hlen, rfl⟩
    have hhead : (payload r).headD 0 = r.op := rfl
    rw [if_neg (by rw [length_payload]; omega),
      if_neg (by rw [length_payload, declaredDim_payload hlen]; simp), hhead,
      if_neg (by simpa using hop), readFields_payload hlen]

end VectorSearch.Wal
