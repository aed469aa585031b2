import VectorSearch.Wal.Log

/-! # What the two sides of the codec accept

`encode` looks at the op and at whether there is a vector, `decode` at the op byte and at the
declared dimension.  `agree_iff` says for which payloads the two rules come to the same: the ones
on which they differ are the payloads of `OpAdd` without a vector and of a deletion with one, which
only `decode` takes, and those of an unknown op without a vector and of a vector of `2 ^ 32` or more
components, which only `encode` makes. -/

open ByteCodec

namespace VectorSearch.Wal

/-- `buf[4 : 4+payloadLen]` -/
def payloadPart (buf : Bytes) : Bytes := slice buf 4 (buf.length - 4)

theorem payloadPart_frame (p : Bytes) : payloadPart (frame p) = p := by
  rw [payloadPart, length_frame, frame]
  exact slice_middle _ _ _ (by simp) (by omega)

/-- The payload is that of a record which `encode` accepts. -/
theorem encode_payloadPart_iff (r : Record) (p : Bytes) :
    (∃ buf, encode r = .ok buf ∧ payloadPart buf = p) ↔
      (r.op = opAdd ↔ r.vector ≠ []) ∧ p = payload r := by
  simp only [encode_eq_ok_iff]
  constructor
  · rintro ⟨buf, ⟨hrule, rfl⟩, rfl⟩
    exact ⟨hrule, payloadPart_frame _⟩
  · rintro ⟨hrule, rfl⟩
    exact ⟨_, ⟨hrule, rfl⟩, payloadPart_frame _⟩

theorem declaredDim_payload_mod (r : Record) :
    declaredDim (payload r) = r.vector.length % 2 ^ 32 := by
  have hfield : (256 : ℕ) ^ 4 = 2 ^ 32 := by norm_num
  rw [declaredDim, slice_dim, getLE_putLE, hfield]

/-- A framed payload within the limit is what the reader decodes. -/
theorem decode_of_readRecord {p rest : Bytes} {r : Record} {n : ℕ}
    (hmax : p.length ≤ maxPayloadLen) (h : readRecord (frame p ++ rest) = some (r, n)) :
    decode p = .ok r := by
  obtain ⟨p', rest', heq, -, hmax', hdecode, -⟩ := readRecord_eq_some_iff.mp h
  rw [frame_append, frame_append] at heq
  obtain ⟨hfield, htail⟩ := List.append_inj heq (by simp)
  have hlen := congrArg getLE hfield
  rw [getLE_putLE_of_lt (lt_of_le_of_lt hmax (by decide)),
    getLE_putLE_of_lt (lt_of_le_of_lt hmax' (by decide))] at hlen
  rw [(List.append_inj htail hlen).1]
  exact hdecode

/-- The reader takes a payload as a record exactly if the writer makes it from that record. -/
def Agree (p : Bytes) : Prop :=
  (∀ r, decode p = .ok r ↔ ∃ buf, encode r = .ok buf ∧ payloadPart buf = p) ∧
    ∀ rest r n, p.length ≤ maxPayloadLen → readRecord (frame p ++ rest) = some (r, n) →
      ∃ r', encode r' = .ok (frame p)

/-- The payload has room for `n` components and declares as many, as far as the field goes. -/
def Shaped (p : Bytes) (n : ℕ) : Prop := p.length = 21 + n * 4 ∧ declaredDim p = n % 2 ^ 32

/-- **Reader and writer agree on a payload** if and only if their rules give the same for its op and
its number of components. -/
theorem agree_iff (p : Bytes) :
    Agree p ↔ ∀ n, Shaped p n →
      ((KnownOp (p.headD 0) ∧ n < 2 ^ 32) ↔ (p.headD 0 = opAdd ↔ n ≠ 0)) := by
  have hshaped : ∀ r, p = payload r → Shaped p r.vector.length ∧ p.headD 0 = r.op := by
    rintro r rfl
    exact ⟨⟨length_payload r, declaredDim_payload_mod r⟩, rfl⟩
  unfold Agree
  simp only [decode_eq_ok_iff, encode_payloadPart_iff]
  constructor
  · rintro ⟨h, -⟩ n ⟨hlen, hdim⟩
    have hpayload := payload_recordOf hlen hdim
    have hn := length_recordOf_vector p n
    have hrule := h (recordOf p n)
    rw [hn, ← List.length_pos_iff_ne_nil, hn, hpayload] at hrule
    simpa [recordOf, Nat.pos_iff_ne_zero] using hrule
  · intro h
    have hsame : ∀ r, (KnownOp r.op ∧ r.vector.length < 2 ^ 32 ∧ p = payload r) ↔
        (r.op = opAdd ↔ r.vector ≠ []) ∧ p = payload r := by
      intro r
      rw [← and_assoc]
      refine and_congr_left fun hp => ?_
      obtain ⟨hr, hop⟩ := hshaped r hp
      have hrule := h _ hr
      rwa [hop, ← Nat.pos_iff_ne_zero, List.length_pos_iff_ne_nil] at hrule
    refine ⟨hsame, fun rest r n hmax hread => ?_⟩
    have hdecode := (decode_eq_ok_iff p r).mp (decode_of_readRecord hmax hread)
    obtain ⟨hrule, rfl⟩ := (hsame r).mp hdecode
    exact ⟨r, (encode_eq_ok_iff r _).mpr ⟨hrule, rfl⟩⟩

/-- A deletion with a vector has a valid checksum and is read, and `encode` does not make it; a
record with the unknown op 7 is written, and `decode` does not take it. -/
theorem decode_deletion_with_vector :
    (readRecord (frame (payload ⟨opMarkDeleted, 1, 1, [5]⟩)) =
        some (⟨opMarkDeleted, 1, 1, [5]⟩, 33) ∧
      encode ⟨opMarkDeleted, 1, 1, [5]⟩ = .error .vectorWithoutAdd ∧
      ¬ Agree (payload ⟨opMarkDeleted, 1, 1, [5]⟩)) ∧
    (encode ⟨7, 1, 1, []⟩ = .ok (frame (payload ⟨7, 1, 1, []⟩)) ∧
      decode (payload ⟨7, 1, 1, []⟩) = .error (.unknownOp 7) ∧
      ¬ Agree (payload ⟨7, 1, 1, []⟩)) := by
  refine ⟨⟨by decide +kernel, rfl, fun h => ?_⟩, rfl, rfl, fun h => ?_⟩
  · have hread : decode (payload ⟨opMarkDeleted, 1, 1, [5]⟩) = .ok ⟨opMarkDeleted, 1, 1, [5]⟩ := by
      decide +kernel
    obtain ⟨buf, hbuf, -⟩ := (h.1 _).mp hread
    cases hbuf
  · have hwrite : ∃ buf, encode ⟨7, 1, 1, []⟩ = .ok buf ∧
        payloadPart buf = payload ⟨7, 1, 1, []⟩ := ⟨_, rfl, payloadPart_frame _⟩
    have hread := (h.1 _).mpr hwrite
    cases hread

end VectorSearch.Wal
