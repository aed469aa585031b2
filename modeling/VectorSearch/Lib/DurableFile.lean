import VectorSearch.Lib.ByteCodec

/-! # Files, fsync and power loss

A `DurableFile` is a byte string together with the number of leading bytes that an `fsync` has
covered since they were written; bytes are only ever appended or cut off at the end.  A
`FileSystem` says what may be left of a file after a power loss: the synced bytes are kept
(`FileSystem.eq_of_stable`, `FileSystem.append_of_write`), and the others may all be lost.
`FileSystem.ordered` is the one that writes appended bytes in their order, so that a prefix of the
file is left. -/

open ByteCodec

/-- A file's bytes, of which the first `synced` are on stable storage. -/
structure DurableFile where
  bytes : Bytes
  synced : ℕ
  synced_le : synced ≤ bytes.length
deriving DecidableEq

namespace DurableFile

/-- A freshly created file. -/
def empty : DurableFile := ⟨[], 0, Nat.zero_le _⟩

/-- Append bytes at the end; they are not synced yet. -/
def write (f : DurableFile) (bs : Bytes) : DurableFile :=
  ⟨f.bytes ++ bs, f.synced, by rw [List.length_append]; exact f.synced_le.trans (Nat.le_add_right _ _)⟩

/-- `fsync`: every byte of the file is on stable storage. -/
def sync (f : DurableFile) : DurableFile := ⟨f.bytes, f.bytes.length, le_rfl⟩

/-- Cut the file after `n` bytes. -/
def truncate (f : DurableFile) (n : ℕ) : DurableFile :=
  ⟨f.bytes.take n, min f.synced n, by
    rw [List.length_take]
    have := f.synced_le
    omega⟩

@[simp] theorem bytes_empty : empty.bytes = [] := rfl
@[simp] theorem bytes_write (f : DurableFile) (bs : Bytes) : (f.write bs).bytes = f.bytes ++ bs := rfl
@[simp] theorem bytes_sync (f : DurableFile) : f.sync.bytes = f.bytes := rfl
@[simp] theorem bytes_truncate (f : DurableFile) (n : ℕ) :
    (f.truncate n).bytes = f.bytes.take n := rfl
@[simp] theorem synced_write (f : DurableFile) (bs : Bytes) : (f.write bs).synced = f.synced := rfl

/-- Every byte is on stable storage. -/
def Stable (f : DurableFile) : Prop := f.synced = f.bytes.length

theorem stable_sync (f : DurableFile) : f.sync.Stable := rfl

theorem Stable.truncate {f : DurableFile} (h : f.Stable) (n : ℕ) : (f.truncate n).Stable := by
  show min f.synced n = (f.bytes.take n).length
  rw [List.length_take, h, Nat.min_comm]

end DurableFile

/-- What may be left of a file after a power loss. -/
structure FileSystem where
  leaves : DurableFile → Bytes → Prop
  keeps : ∀ {f bs}, leaves f bs → f.bytes.take f.synced <+: bs
  length_le : ∀ {f bs}, leaves f bs → bs.length ≤ f.bytes.length
  loses : ∀ f, leaves f (f.bytes.take f.synced)

namespace FileSystem
variable {fs : FileSystem} {f : DurableFile} {bs cs : Bytes}

/-- Nothing of a synced file is lost. -/
theorem eq_of_stable (hf : f.Stable) (h : fs.leaves f bs) : bs = f.bytes := by
  have hpre := fs.keeps h
  rw [hf, List.take_length] at hpre
  exact (hpre.eq_of_length_le (fs.length_le h)).symm

/-- A synced file that was then written to keeps its old bytes. -/
theorem append_of_write (hf : f.Stable) (h : fs.leaves (f.write cs) bs) :
    ∃ t, bs = f.bytes ++ t ∧ t.length ≤ cs.length := by
  have hpre := fs.keeps h
  rw [DurableFile.bytes_write, DurableFile.synced_write, hf, List.take_left] at hpre
  obtain ⟨t, rfl⟩ := hpre
  have hlen := fs.length_le h
  rw [DurableFile.bytes_write, List.length_append, List.length_append] at hlen
  exact ⟨t, rfl, by omega⟩

/-- Appended bytes reach the disk in their order. -/
def ordered : FileSystem where
  leaves f bs := bs <+: f.bytes ∧ f.synced ≤ bs.length
  keeps {f bs} h := by
    refine List.prefix_of_prefix_length_le (List.take_prefix _ _) h.1 ?_
    rw [List.length_take]
    exact (min_le_left _ _).trans h.2
  length_le h := h.1.length_le
  loses f := ⟨List.take_prefix _ _, by
    rw [List.length_take]
    exact le_min le_rfl f.synced_le⟩

end FileSystem
