import VectorSearch.Hnsw.KeyHistory
import VectorSearch.Shard.Keys

/-! # What the status of a write says

The map of keys to vectors that a shard stores is changed by the writes that it acknowledges and by
no others, whatever the log and the index do: a write with the status OK takes effect on the entry of
its key, and any other status means that nothing was changed (`Sound.write_effect`, and from it a
lemma for each handler). -/

namespace VectorSearch.Durable

open Hnsw (Index KeyMap KeyOp Label Platform Store)

section
variable {F : Type} {s : Store F} {p : Hnsw.Params}

/-- The flag that `markDeleted` returns. -/
theorem markDeleted_takes (s : Store F) (key : Label) :
    (s.markDeleted key).2 = true ↔ s.keyMap.Takes (key, .mark) := by
  rw [KeyMap.takes_iff]
  cases hi : s.labelToId key with
  | none =>
    rw [Store.markDeleted_none hi, Store.keyMap, hi]
    simp [KeyOp.cell]
  | some i =>
    rw [Store.markDeleted_some hi, Store.keyMap_of_id hi]
    cases hd : s.deleted i <;> simp [KeyOp.cell]

/-- The flag that `unmarkDeleted` returns. -/
theorem unmarkDeleted_takes (s : Store F) (key : Label) :
    (s.unmarkDeleted key).2 = true ↔ s.keyMap.Takes (key, .unmark) := by
  rw [KeyMap.takes_iff]
  cases hi : s.labelToId key with
  | none =>
    rw [Store.unmarkDeleted_none hi, Store.keyMap, hi]
    simp [KeyOp.cell]
  | some i =>
    rw [Store.unmarkDeleted_some hi, Store.keyMap_of_id hi]
    cases hd : s.deleted i <;> simp [KeyOp.cell]

/-- An add takes effect when its key is not there. -/
theorem add_takes (s : Store F) (key : Label) (vec : List F) :
    s.keyMap.Takes (key, .add vec) ↔ s.hasLabel key = false := by
  rw [KeyMap.takes_iff, ← s.isSome_keyMap]
  cases s.keyMap key <;> simp [KeyOp.cell]

end

section
variable [Platform UInt32]

/-- From `m` to `m'` the operation took effect, or nothing was done and nothing was changed. -/
def Effect (m m' : KeyMap UInt32) (o : Option (Label × KeyOp UInt32)) (ok : Prop) : Prop :=
  (∃ a, o = some a ∧ ok ∧ m.Takes a ∧ m' = m.apply a) ∨ ¬ ok ∧ m' = m

omit [Platform UInt32] in
/-- An operation that does what `apply` says takes effect when it changes the map. -/
theorem Effect.of_apply {m m' : KeyMap UInt32} {a : Label × KeyOp UInt32} {ok : Prop}
    (hm : m' = m.apply a) (hok : ok ↔ m.Takes a) : Effect m m' (some a) ok := by
  by_cases h : m.Takes a
  · exact Or.inl ⟨a, rfl, hok.mpr h, h, hm⟩
  · exact Or.inr ⟨fun ho => h (hok.mp ho), hm.trans (not_not.mp h)⟩

omit [Platform UInt32] in
theorem Effect.none {m : KeyMap UInt32} {o : Option (Label × KeyOp UInt32)} {ok : Prop}
    (hno : ¬ ok) : Effect m m o ok := Or.inr ⟨hno, rfl⟩

/-- **What a call does to the keys of an index**, whether it finds room or not. -/
theorem onIndex_effect {idx : Index UInt32} (h : idx.store.Good idx.params) {c : Call}
    (hsized : c.Sized idx.params.dim)
    (hid : c.isAdd = true → idx.store.hasLabel c.key = true ∨ idx.store.count < 2 ^ 32) :
    Effect idx.store.keyMap (c.onIndex idx).1.store.keyMap (some (c.op idx.params))
      ((c.onIndex idx).2 = .ok ()) := by
  obtain ⟨-, hstore, hres⟩ := onIndex_eq hsized
  rw [hstore, hres]
  cases c with
  | add vec key =>
    by_cases hlabel : idx.store.hasLabel key = true
    · refine .of_apply (h.add (hsized vec key rfl) (Or.inl hlabel)).2.1 ?_
      rw [Call.op, add_takes]
      simp only [Call.onStore, Store.add_of_hasLabel _ _ hlabel, Call.key, hlabel]
      simp
    · have hnew := Bool.eq_false_iff.mpr hlabel
      have hlt := (hid rfl).resolve_left hlabel
      by_cases hroom : idx.store.count < idx.params.room
      · refine .of_apply (h.add (hsized vec key rfl) (Or.inr hroom)).2.1 ?_
        rw [Call.op, add_takes]
        simp only [Call.onStore, Store.add_of_room vec hnew hroom, Call.key, hnew]
      · have hfull : idx.params.maxElements ≤ idx.store.count % 2 ^ 32 := by
          rw [Hnsw.Params.room] at hroom
          rw [Nat.mod_eq_of_lt hlt]
          omega
        right
        simp only [Call.onStore, Store.add_of_full vec hnew hfull]
        exact ⟨by simp, trivial⟩
  | markDeleted key =>
    refine .of_apply (h.markDeleted key).2.1 ?_
    rw [Call.op, ← markDeleted_takes]
    simp only [Call.onStore, Call.key]
    cases (idx.store.markDeleted key).2 <;> simp
  | unmarkDeleted key =>
    refine .of_apply (h.unmarkDeleted key).2.1 ?_
    rw [Call.op, ← unmarkDeleted_takes]
    simp only [Call.onStore, Call.key]
    cases (idx.store.unmarkDeleted key).2 <;> simp

end

end VectorSearch.Durable

namespace VectorSearch.Shard

open Durable (Call Effect)
open Hnsw (KeyMap KeyOp Label Platform)
open Rpc (DeleteRequest InsertRequest)

namespace Server

section
variable [Platform UInt32] {s : Server} {c : Call} {op : String} {disk : Disk} {key : Label}

/-- The parameters of the index. -/
def params (s : Server) : Hnsw.Params := s.idx.idx.params

/-- **What the status of a write says.** -/
theorem Sound.write_effect (h : s.Sound) (hsized : c.Sized s.params.dim)
    (hid : c.isAdd = true →
      s.idx.idx.store.hasLabel c.key = true ∨ s.idx.idx.store.count < 2 ^ 32) :
    Effect s.entry (s.write c op disk).1.entry (some (c.op s.params))
      ((s.write c op disk).2 = .ok ()) := by
  have hstatus : (s.write c op disk).2 = .ok () ↔ (s.idx.perform c disk.io).2 = .ok () := by
    unfold Server.write
    cases (s.idx.perform c disk.io).2 <;> simp
  rw [hstatus]
  obtain ⟨hidx, hno⟩ | ⟨hidx, hok⟩ := Durable.idx_perform s.idx c disk.io
  · refine Or.inr ⟨hno, ?_⟩
    unfold entry Server.write
    rw [hidx]
  · rw [hok]
    have heffect := Durable.onIndex_effect h.good hsized hid
    rw [← hidx] at heffect
    exact heffect

/-- The parameters stay. -/
theorem params_write (hsized : c.Sized s.params.dim) : (s.write c op disk).1.params = s.params := by
  obtain ⟨hidx, -⟩ | ⟨hidx, -⟩ := Durable.idx_perform s.idx c disk.io
  · exact congrArg Hnsw.Index.params hidx
  · exact (congrArg Hnsw.Index.params hidx).trans (Durable.onIndex_eq hsized).1

/-- `Insert` -/
theorem Sound.insert_effect (h : s.Sound) {req : InsertRequest}
    (hid : ∀ key, req.key = some key →
      s.idx.idx.store.hasLabel key = true ∨ s.idx.idx.store.count < 2 ^ 32) :
    (s.insert req disk).1.params = s.params ∧
      Effect s.entry (s.insert req disk).1.entry
        (req.key.map fun key => (key, .add (s.params.prepare req.vector)))
        ((s.insert req disk).2 = .ok ()) := by
  unfold Server.insert
  cases hkey : req.key with
  | none => exact ⟨rfl, .none nofun⟩
  | some key =>
    simp only
    split_ifs with hempty hdim
    · exact ⟨rfl, .none nofun⟩
    · exact ⟨rfl, .none nofun⟩
    · have hsized : (Call.add req.vector key).Sized s.params.dim := by
        rintro vec key' ⟨⟩
        exact not_not.mp hdim
      exact ⟨params_write hsized, h.write_effect hsized fun _ => hid key hkey⟩

/-- `Delete` -/
theorem Sound.delete_effect (h : s.Sound) (req : DeleteRequest) (disk : Disk) :
    (s.delete req disk).1.params = s.params ∧
      Effect s.entry (s.delete req disk).1.entry (req.key.map fun key => (key, .mark))
        ((s.delete req disk).2 = .ok ()) := by
  unfold Server.delete
  cases req.key with
  | none => exact ⟨rfl, .none nofun⟩
  | some key =>
    exact ⟨params_write (by rintro vec k ⟨⟩), h.write_effect (by rintro vec k ⟨⟩) (by rintro ⟨⟩)⟩

/-- `Undelete` -/
theorem Sound.undelete_effect (h : s.Sound) (req : DeleteRequest) (disk : Disk) :
    (s.undelete req disk).1.params = s.params ∧
      Effect s.entry (s.undelete req disk).1.entry (req.key.map fun key => (key, .unmark))
        ((s.undelete req disk).2 = .ok ()) := by
  unfold Server.undelete
  cases req.key with
  | none => exact ⟨rfl, .none nofun⟩
  | some key =>
    exact ⟨params_write (by rintro vec k ⟨⟩), h.write_effect (by rintro vec k ⟨⟩) (by rintro ⟨⟩)⟩

omit [Platform UInt32] in
/-- `Snapshot` -/
theorem snapshot_effect (s : Server) : s.snapshot.params = s.params ∧ s.snapshot.entry = s.entry := by
  have hidx := Durable.idx_snapshot s.idx
  unfold params entry Server.snapshot
  rw [hidx]
  exact ⟨rfl, rfl⟩

end

end Server

end VectorSearch.Shard
