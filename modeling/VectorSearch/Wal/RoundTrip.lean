import VectorSearch.Wal.Log

/-! # Replaying what was appended

`appendAll` fills a log by successful `Append`s.  A log of loggable records is whole and holds
exactly those records (`appendAll_loggable`), and conversely everything `Replay` hands to its
callback has a known op and a payload within `maxPayloadLen`.  So a list of accepted records comes
back from `Replay` if and only if the reader's two extra rules hold of every one of them
(`replay_appendAll_iff`): `encode` checks neither the op byte nor the length. -/

open ByteCodec

namespace VectorSearch.Wal

/-- `Append` every record in turn, each write and fsync succeeding. -/
def appendAll (f : DurableFile) (rs : List Record) : DurableFile :=
  rs.foldl (fun f r => (append f r .done).1) f

theorem appendAll_cons (f : DurableFile) (r : Record) (rs : List Record) :
    appendAll f (r :: rs) = appendAll (append f r .done).1 rs := rfl

/-- Appending only adds bytes behind the ones that are there. -/
theorem prefix_appendAll : ∀ (rs : List Record) (f : DurableFile),
    f.bytes <+: (appendAll f rs).bytes
  | [], _ => List.prefix_rfl
  | r :: rs, f => by
      rw [appendAll_cons]
      refine List.IsPrefix.trans ?_ (prefix_appendAll rs _)
      cases h : encode r with
      | error e => rw [append, h]
      | ok b =>
          rw [append_done h]
          exact List.prefix_append _ _

/-- Appending loggable records to a log. -/
theorem appendAll_loggable : ∀ {rs rs₀ : List Record} {f : DurableFile}, Holds f.bytes rs₀ →
    (∀ r ∈ rs, Loggable r) → Holds (appendAll f rs).bytes (rs₀ ++ rs)
  | [], rs₀, f, hf, _ => by rwa [List.append_nil]
  | r :: rs, rs₀, f, hf, hrs => by
      have hr := hrs r List.mem_cons_self
      have hf' : Holds (append f r .done).1.bytes (rs₀ ++ [r]) := by
        rw [append_done hr.encode]
        exact hf.append hr
      have := appendAll_loggable hf' fun r' h => hrs r' (List.mem_cons_of_mem _ h)
      rwa [List.append_assoc] at this

/-- **Replay undoes Append exactly on the records with a known op and a payload within the
limit.** -/
theorem replay_appendAll_iff (rs : List Record) (haccepted : ∀ r ∈ rs, ∃ b, encode r = .ok b) :
    replay collect (some (appendAll newLog rs).bytes) [] =
        ⟨rs, rs.length, (appendAll newLog rs).bytes.length, none⟩ ↔
      ∀ r ∈ rs, KnownOp r.op ∧ 21 + r.vector.length * 4 ≤ maxPayloadLen := by
  constructor
  · intro h r hr
    obtain ⟨body, hbody⟩ : header <+: (appendAll newLog rs).bytes := prefix_appendAll rs newLog
    rw [← hbody, replay_collect] at h
    have hstate : records body = rs := congrArg Replayed.state h
    exact known_fits_of_mem_records (hstate ▸ hr)
  · intro h
    have hlog : ∀ r ∈ rs, Loggable r := fun r hr => by
      obtain ⟨b, hb⟩ := haccepted r hr
      exact ⟨((encode_eq_ok_iff r b).mp hb).1, (h r hr).1, (h r hr).2⟩
    have hholds : Holds (appendAll newLog rs).bytes rs := appendAll_loggable holds_newLog hlog
    have happ := applyAll_collect rs []
    rw [List.nil_append] at happ
    exact hholds.replay happ

/-- The four records of the package's own test come back. -/
theorem replay_appendAll_test :
    replay collect (some (appendAll newLog [⟨opAdd, 1, 1, [1, 2, 3]⟩, ⟨opAdd, 1, 2, [4, 5, 6]⟩,
        ⟨opMarkDeleted, 1, 1, []⟩, ⟨opAdd, 2, 1, [7, 8, 9]⟩]).bytes) [] =
      ⟨[⟨opAdd, 1, 1, [1, 2, 3]⟩, ⟨opAdd, 1, 2, [4, 5, 6]⟩, ⟨opMarkDeleted, 1, 1, []⟩,
        ⟨opAdd, 2, 1, [7, 8, 9]⟩], 4,
        (appendAll newLog [⟨opAdd, 1, 1, [1, 2, 3]⟩, ⟨opAdd, 1, 2, [4, 5, 6]⟩,
          ⟨opMarkDeleted, 1, 1, []⟩, ⟨opAdd, 2, 1, [7, 8, 9]⟩]).bytes.length, none⟩ :=
  (replay_appendAll_iff _ (by
    simp only [List.forall_mem_cons, encode_eq_ok_iff]
    simp [opAdd, opMarkDeleted])).mpr (by decide)

/-- A record with op byte 7 and no vector is appended without an error, and replay takes it for
the torn end of the log. -/
theorem unknown_op_lost :
    (append newLog ⟨7, 1, 1, []⟩ .done).2 = .ok () ∧
      replay collect (some (appendAll newLog [⟨7, 1, 1, []⟩]).bytes) [] = ⟨[], 0, 8, none⟩ := by
  decide +kernel

end VectorSearch.Wal
