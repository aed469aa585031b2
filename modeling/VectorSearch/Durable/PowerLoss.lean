import VectorSearch.Durable.CrashRecovery

/-! # Power loss

A sequential history of `Add` and `Snapshot` calls, taken apart into the steps that reach the disk
(`Op.steps`), and a power loss between any two of them.  Each file then loses what the file system
lets it lose (`Dir.Leaves`).

Between two `Add`s the log is synced, and replay rebuilds the live index (`Intact`), so without a
`Snapshot` nothing that was acknowledged is lost (`Intact.survives`).  `Snapshot` renames a file
that nobody has synced over the old one (`not_survives_of_snapshot`), and `Open` refuses the empty
file.  `survivesPowerLoss_iff` puts both together. -/

open ByteCodec

namespace VectorSearch.Durable

open Wal (Record Loggable Holds applyAll records frame payload)
open Hnsw (Label Index Platform Params Store Err)

/-- A call of the history. -/
inductive Op where
  | add (vec : Wal.Vec) (key : Label)
  | snapshot
deriving DecidableEq, Repr

/-- The steps of the two calls. -/
inductive Step where
  /-- `Append` writes the record to the log -/
  | writeRecord (c : Call)
  /-- and syncs it -/
  | syncLog
  /-- the index is changed and the call returns -/
  | applyCall (c : Call)
  | snapshot (s : SnapshotStep)
deriving DecidableEq, Repr

def Op.steps : Op → List Step
  | .add vec key => [.writeRecord (.add vec key), .syncLog, .applyCall (.add vec key)]
  | .snapshot => snapshotSteps.map .snapshot

/-- The handle, and the keys whose `Add` has returned without an error. -/
structure Running where
  handle : DurableIndex
  acked : List Label

/-- Both files that `Open` reads are on stable storage. -/
def Dir.Stable (dir : Dir) : Prop :=
  (∀ f, dir.snapshot = some f → f.Stable) ∧ ∀ f, dir.wal = some f → f.Stable

/-- What may be left at a path. -/
def LeavesFile (fs : FileSystem) : Option DurableFile → Option DurableFile → Prop
  | none, g => g = none
  | some f, g => ∃ f', g = some f' ∧ fs.leaves f f'.bytes

/-- What may be left of the directory after a power loss. -/
structure Dir.Leaves (fs : FileSystem) (dir dir' : Dir) : Prop where
  snapshot : LeavesFile fs dir.snapshot dir'.snapshot
  snapshotTmp : LeavesFile fs dir.snapshotTmp dir'.snapshotTmp
  wal : LeavesFile fs dir.wal dir'.wal
  walNew : LeavesFile fs dir.walNew dir'.walNew

/-- A part of the record's frame that is left behind a synced log is not read as a record. -/
def Detects (fs : FileSystem) (r : Record) : Prop :=
  Loggable r → ∀ (f : DurableFile) (t : Bytes), f.Stable →
    fs.leaves (f.write (frame (payload r))) (f.bytes ++ t) →
      t = frame (payload r) ∨ Wal.readRecord t = none

/-- Writing in order leaves a prefix of the frame, and the reader refuses it. -/
theorem detects_ordered (r : Record) : Detects FileSystem.ordered r := by
  rintro hr f t - ⟨hpre, -⟩
  rw [DurableFile.bytes_write, List.prefix_append_right_inj] at hpre
  obtain hlt | hge := Nat.lt_or_ge t.length (frame (payload r)).length
  · exact Or.inr (Wal.readRecord_torn hr.length_payload_le hpre hlt)
  · exact Or.inl (hpre.eq_of_length_le hge)

/-- What a file keeps that loses all it can. -/
def lost (f : DurableFile) : DurableFile := (f.truncate f.synced).sync

/-- The directory in which every file loses all it can. -/
def Dir.lost (dir : Dir) : Dir :=
  ⟨dir.snapshot.map Durable.lost, dir.snapshotTmp.map Durable.lost, dir.wal.map Durable.lost,
    dir.walNew.map Durable.lost⟩

theorem leavesFile_lost (fs : FileSystem) : ∀ f : Option DurableFile,
    LeavesFile fs f (f.map lost)
  | none => rfl
  | some f => ⟨lost f, rfl, fs.loses f⟩

theorem leaves_lost (fs : FileSystem) (dir : Dir) : dir.Leaves fs dir.lost :=
  ⟨leavesFile_lost fs _, leavesFile_lost fs _, leavesFile_lost fs _, leavesFile_lost fs _⟩

/-! ### Prefixes of steps -/

/-- A prefix of two lists ends in the first or goes into the second. -/
theorem prefix_append {α : Type} {l a b : List α} (h : l <+: a ++ b) :
    l <+: a ∨ ∃ l', l = a ++ l' ∧ l' <+: b := by
  obtain hin | ⟨l', rfl⟩ := List.prefix_or_prefix_of_prefix h (List.prefix_append a b)
  · exact Or.inl hin
  · exact Or.inr ⟨l', rfl, (List.prefix_append_right_inj a).mp h⟩

theorem prefix_steps_add {vec : Wal.Vec} {key : Label} {steps : List Step}
    (h : steps <+: (Op.add vec key).steps) :
    steps = [] ∨ steps = [.writeRecord (.add vec key)] ∨
      steps = [.writeRecord (.add vec key), .syncLog] ∨ steps = (Op.add vec key).steps := by
  simpa [Op.steps] using (List.mem_inits _ _).mpr h

section
variable [Platform UInt32]

/-- One step; a step that the code does not reach changes nothing. -/
def Running.step (s : Running) : Step → Running
  | .writeRecord c =>
      match s.handle.walOpen, s.handle.dir.wal, Wal.encode c.record with
      | true, some f, .ok buf =>
          { s with handle := { s.handle with
              dir := { s.handle.dir with wal := some (f.write buf) } } }
      | _, _, _ => s
  | .syncLog =>
      { s with handle := { s.handle with
          dir := { s.handle.dir with wal := s.handle.dir.wal.map DurableFile.sync } } }
  | .applyCall c =>
      { handle := { s.handle with idx := (c.onIndex s.handle.idx).1 }
        acked :=
          match (c.onIndex s.handle.idx).2 with
          | .ok _ => c.key :: s.acked
          | .error _ => s.acked }
  | .snapshot t =>
      match t.perform s.handle with
      | .ok d => { s with handle := d }
      | .error _ => s

def Running.run (s : Running) (steps : List Step) : Running := steps.foldl Running.step s

/-- The call as a whole, and whether it returns nil. -/
def DurableIndex.call (d : DurableIndex) : Op → DurableIndex × Bool
  | .add vec key => ((d.perform (.add vec key) .done).1, (d.perform (.add vec key) .done).2.isOk)
  | .snapshot => (d.snapshot.1, d.snapshot.2.isOk)

/-- Every call of the history returns nil. -/
def DurableIndex.ReturnsNil : DurableIndex → List Op → Prop
  | _, [] => True
  | d, op :: history => (d.call op).2 = true ∧ ReturnsNil (d.call op).1 history

instance : ∀ (d : DurableIndex) (history : List Op), Decidable (d.ReturnsNil history)
  | _, [] => isTrue trivial
  | d, op :: history =>
      have := instDecidableReturnsNil (d.call op).1 history
      inferInstanceAs (Decidable ((d.call op).2 = true ∧ _))

/-- After a power loss between any two steps, `Open` succeeds and every acknowledged key is
there. -/
def SurvivesPowerLoss (fs : FileSystem) (cfg : Config) (s : Running) (history : List Op) : Prop :=
  ∀ steps, steps <+: history.flatMap Op.steps → ∀ dir', (s.run steps).handle.dir.Leaves fs dir' →
    ∃ d', openIndex cfg dir' = .ok d' ∧
      ∀ k ∈ (s.run steps).acked, d'.idx.store.hasLabel k = true

/-! ### The steps of a call that returns nil -/

theorem Running.run_append (s : Running) (steps steps' : List Step) :
    s.run (steps ++ steps') = (s.run steps).run steps' := List.foldl_append

/-- What it takes for an `Add` to return nil. -/
theorem call_add {d : DurableIndex} {vec : Wal.Vec} {key : Label}
    (h : (d.call (.add vec key)).2 = true) :
    d.walOpen = true ∧ (∃ f, d.dir.wal = some f) ∧
      Wal.encode (Call.add vec key).record = .ok (frame (payload (Call.add vec key).record)) ∧
        ((Call.add vec key).onIndex d.idx).2 = .ok () := by
  obtain ⟨idx, ⟨snapshot, tmp, wal, new⟩, walOpen⟩ := d
  cases walOpen with
  | false => cases h
  | true =>
      cases wal with
      | none => cases h
      | some f =>
          cases henc : Wal.encode (Call.add vec key).record with
          | error e =>
              rw [DurableIndex.call, DurableIndex.perform, DurableIndex.appendWAL] at h
              simp only [Wal.append, henc] at h
              cases h
          | ok b =>
              obtain ⟨-, rfl⟩ := (Wal.encode_eq_ok_iff _ _).mp henc
              refine ⟨rfl, ⟨f, rfl⟩, rfl, ?_⟩
              rw [DurableIndex.call, perform_done rfl rfl henc] at h
              simp only at h
              cases hres : ((Call.add vec key).onIndex idx).2 with
              | ok u => rfl
              | error e =>
                  rw [hres] at h
                  cases h

/-- The steps of an `Add` that returns nil. -/
theorem run_add {d : DurableIndex} {vec : Wal.Vec} {key : Label} (acked : List Label)
    {f : DurableFile} (h : (d.call (.add vec key)).2 = true) (hwal : d.dir.wal = some f) :
    (⟨d, acked⟩ : Running).step (.writeRecord (.add vec key)) =
        ⟨{ d with dir := { d.dir with
          wal := some (f.write (frame (payload (Call.add vec key).record))) } }, acked⟩ ∧
      (⟨d, acked⟩ : Running).run (Op.add vec key).steps =
        ⟨(d.call (.add vec key)).1, key :: acked⟩ := by
  obtain ⟨hopen, -, henc, hres⟩ := call_add h
  have hwrite : (⟨d, acked⟩ : Running).step (.writeRecord (.add vec key)) =
      ⟨{ d with dir := { d.dir with
        wal := some (f.write (frame (payload (Call.add vec key).record))) } }, acked⟩ := by
    simp only [Running.step, hopen, hwal, henc]
  refine ⟨hwrite, ?_⟩
  unfold Running.run Op.steps
  rw [List.foldl_cons, hwrite, DurableIndex.call, perform_done hopen hwal henc,
    Wal.append_done henc]
  simp only [List.foldl_cons, List.foldl_nil, Running.step, Option.map_some, hres, hopen]
  rfl

/-- The steps of a `Snapshot` are the steps of the call. -/
theorem run_snapshot {d : DurableIndex} {acked : List Label} (h : (d.call .snapshot).2 = true) :
    (⟨d, acked⟩ : Running).run Op.snapshot.steps = ⟨(d.call .snapshot).1, acked⟩ := by
  have hgen : ∀ (ss : List SnapshotStep) (d : DurableIndex),
      (DurableIndex.runSteps ss d).2.isOk = true →
        (⟨d, acked⟩ : Running).run (ss.map .snapshot) = ⟨(DurableIndex.runSteps ss d).1, acked⟩ := by
    intro ss
    induction ss with
    | nil => exact fun d _ => rfl
    | cons s ss ih =>
        intro d hok
        unfold DurableIndex.runSteps at hok ⊢
        cases hs : s.perform d with
        | error e =>
            rw [hs] at hok
            cases hok
        | ok d' =>
            rw [hs] at hok
            have hstep : (⟨d, acked⟩ : Running).step (.snapshot s) = ⟨d', acked⟩ := by
              simp only [Running.step, hs]
            unfold Running.run
            rw [List.map_cons, List.foldl_cons, hstep]
            exact ih d' hok
  exact hgen snapshotSteps d h

/-- The steps of a call that returns nil lead to the handle it returns with. -/
theorem run_call {d : DurableIndex} {op : Op} {acked : List Label} (h : (d.call op).2 = true) :
    ∃ acked', (⟨d, acked⟩ : Running).run op.steps = ⟨(d.call op).1, acked'⟩ := by
  cases op with
  | add vec key =>
      obtain ⟨-, ⟨f, hwal⟩, -⟩ := call_add h
      exact ⟨_, (run_add _ h hwal).2⟩
  | snapshot => exact ⟨_, run_snapshot h⟩

/-! ### Labels -/

/-- Calls never take a label away. -/
theorem hasLabel_onStore {p : Params} {s : Store UInt32} (c : Call) {k : Label}
    (h : s.hasLabel k = true) : (c.onStore p s).1.hasLabel k = true := by
  cases c with
  | add vec key =>
      cases hk : s.hasLabel key with
      | true => simpa only [Call.onStore, Store.add_of_hasLabel p vec hk] using h
      | false =>
          obtain hlt | hfull := Nat.lt_or_ge (s.count % 2 ^ 32) p.maxElements
          · simp only [Call.onStore, Store.add_of_lt vec hk hlt]
            exact (Store.hasLabel_registerLabel _ _).mpr (Or.inr h)
          · simpa only [Call.onStore, Store.add_of_full vec hk hfull] using h
  | markDeleted key => exact (s.hasLabel_markDeleted key k).trans h
  | unmarkDeleted key => exact (s.hasLabel_unmarkDeleted key k).trans h

/-- An `Add` that returns nil had a vector of the right length and a new key, and its key is there
afterwards. -/
theorem onIndex_add_ok {idx : Index UInt32} {vec : Wal.Vec} {key : Label}
    (h : ((Call.add vec key).onIndex idx).2 = .ok ()) :
    vec.length = idx.params.dim ∧ idx.store.hasLabel key = false ∧
      ((Call.add vec key).onIndex idx).1.store.hasLabel key = true := by
  have hlen : vec.length = idx.params.dim := by
    by_contra hne
    rw [Call.onIndex, Index.goAdd, if_pos hne] at h
    cases h
  have hsized : (Call.add vec key).Sized idx.params.dim := by
    rintro vec' key' ⟨⟩
    exact hlen
  obtain ⟨-, hstore, hres⟩ := onIndex_eq hsized
  rw [hstore]
  rw [hres] at h
  refine ⟨hlen, ?_⟩
  cases hk : idx.store.hasLabel key with
  | true =>
      simp only [Call.onStore, Store.add_of_hasLabel idx.params vec hk] at h
      cases h
  | false =>
      obtain hlt | hfull := Nat.lt_or_ge (idx.store.count % 2 ^ 32) idx.params.maxElements
      · refine ⟨rfl, ?_⟩
        simp only [Call.onStore, Store.add_of_lt vec hk hlt]
        exact (Store.hasLabel_registerLabel _ _).mpr (Or.inl rfl)
      · simp only [Call.onStore, Store.add_of_full vec hk hfull] at h
        cases h

/-! ### Between two Adds -/

/-- The log is synced and whole, and replaying it on the snapshot gives the live index, in which
all acknowledged keys are. -/
structure Intact (cfg : Config) (s : Running) : Prop where
  stable : s.handle.dir.Stable
  replays : ∃ f idx rs, s.handle.dir.wal = some f ∧ loadOrCreateIndex cfg s.handle.dir = .ok idx ∧
    Holds f.bytes rs ∧ applyAll apply idx rs = .ok s.handle.idx
  labels : ∀ k ∈ s.acked, s.handle.idx.store.hasLabel k = true

omit [Platform UInt32] in
/-- What is left of a synced snapshot is loaded as before. -/
theorem loadOrCreateIndex_leaves {fs : FileSystem} {cfg : Config} {dir dir' : Dir}
    (hsnap : ∀ f, dir.snapshot = some f → f.Stable)
    (h : LeavesFile fs dir.snapshot dir'.snapshot) :
    loadOrCreateIndex cfg dir' = (loadOrCreateIndex cfg dir : Except OpenError (Index UInt32)) := by
  cases hs : dir.snapshot with
  | none =>
      rw [hs] at h
      have h' : dir'.snapshot = none := h
      simp only [loadOrCreateIndex, hs, h']
  | some f =>
      rw [hs] at h
      obtain ⟨f', h', hleaves⟩ := h
      simp only [loadOrCreateIndex, hs, h', fs.eq_of_stable (hsnap f hs) hleaves]

/-- A power loss behind the written part of the next record's frame. -/
theorem Intact.openIndex_torn {fs : FileSystem} {cfg : Config} {s : Running}
    (h : Intact cfg s) {dir' : Dir} {snapshot : Option DurableFile}
    (hsnap : snapshot = s.handle.dir.snapshot) (hleaves : LeavesFile fs snapshot dir'.snapshot)
    {g : DurableFile} (hwal : dir'.wal = some g)
    {f : DurableFile} (hf : s.handle.dir.wal = some f) {t : Bytes} (hg : g.bytes = f.bytes ++ t)
    (ht : Wal.readRecord t = none) :
    ∃ d', openIndex cfg dir' = .ok d' ∧ ∀ k ∈ s.acked, d'.idx.store.hasLabel k = true := by
  obtain ⟨f', idx, rs, hf', hload, hholds, happ⟩ := h.replays
  obtain rfl : f' = f := Option.some.inj (hf'.symm.trans hf)
  have hload' : loadOrCreateIndex cfg dir' = .ok idx := by
    rw [loadOrCreateIndex_leaves h.stable.1 (hsnap ▸ hleaves), hload]
  exact ⟨_, openIndex_of_holds hload' hwal hg hholds ht happ, h.labels⟩

/-- A power loss between two `Add`s. -/
theorem Intact.survives {fs : FileSystem} {cfg : Config} {s : Running} (h : Intact cfg s)
    {dir' : Dir} (hleaves : s.handle.dir.Leaves fs dir') :
    ∃ d', openIndex cfg dir' = .ok d' ∧ ∀ k ∈ s.acked, d'.idx.store.hasLabel k = true := by
  obtain ⟨f, -, -, hf, -⟩ := h.replays
  have hwal := hleaves.wal
  rw [hf] at hwal
  obtain ⟨g, hg, hbytes⟩ := hwal
  refine h.openIndex_torn rfl hleaves.snapshot hg hf (t := []) ?_ Wal.readRecord_nil
  rw [List.append_nil]
  exact fs.eq_of_stable (h.stable.2 f hf) hbytes

/-- An `Add` that returns nil, from its call to the next one. -/
theorem Intact.add {cfg : Config} {d : DurableIndex} {acked : List Label} {vec : Wal.Vec}
    {key : Label} (h : Intact cfg ⟨d, acked⟩) (hnil : (d.call (.add vec key)).2 = true)
    (hfits : Fits d.idx.params.dim) :
    Intact cfg ⟨(d.call (.add vec key)).1, key :: acked⟩ ∧
      (d.call (.add vec key)).1.idx.params = d.idx.params := by
  obtain ⟨hopen, ⟨f, hwal⟩, henc, hres⟩ := call_add hnil
  obtain ⟨f', idx, rs, hf', hload, hholds, happ⟩ := h.replays
  obtain rfl : f' = f := Option.some.inj (hf'.symm.trans hwal)
  obtain ⟨hlen, -, hkey⟩ := onIndex_add_ok hres
  have hsized : (Call.add vec key).Sized d.idx.params.dim := by
    rintro vec' key' ⟨⟩
    exact hlen
  obtain ⟨hparams, hstore, -⟩ := onIndex_eq hsized
  have hlog : Loggable (Call.add vec key).record :=
    loggable_record d.idx.params.dim_pos hsized (Or.inl hfits)
  have hcall : (d.call (.add vec key)).1 =
      ⟨((Call.add vec key).onIndex d.idx).1, { d.dir with
        wal := some (f'.write (frame (payload (Call.add vec key).record))).sync }, true⟩ := by
    rw [DurableIndex.call, perform_done hopen hwal henc, Wal.append_done henc]
  rw [hcall]
  refine ⟨⟨⟨h.stable.1, ?_⟩, ⟨_, idx, rs ++ [(Call.add vec key).record], rfl, ?_,
    hholds.append hlog, ?_⟩, ?_⟩, hparams⟩
  · rintro g hg
    cases hg
    exact DurableFile.stable_sync _
  · rw [← hload]
    exact loadOrCreateIndex_congr rfl
  · have hrec : apply d.idx (Call.add vec key).record = .ok ((Call.add vec key).onIndex d.idx).1 := by
      rw [apply_eq (known_record _), callOf_record, hres]
    rw [Wal.applyAll_append, happ]
    show applyAll apply d.idx [(Call.add vec key).record] = _
    rw [Wal.applyAll_cons, hrec]
    rfl
  · intro k hk
    obtain rfl | hk := List.mem_cons.mp hk
    · exact hkey
    · rw [hstore]
      exact hasLabel_onStore _ (h.labels k hk)

/-- A power loss while an `Add` runs that will return nil. -/
theorem Intact.survives_within {fs : FileSystem} {cfg : Config} {d : DurableIndex}
    {acked : List Label} {vec : Wal.Vec} {key : Label} (h : Intact cfg ⟨d, acked⟩)
    (hnil : (d.call (.add vec key)).2 = true) (hfits : Fits d.idx.params.dim)
    (hdetects : Detects fs (Call.add vec key).record) {steps : List Step}
    (hsteps : steps <+: (Op.add vec key).steps) {dir' : Dir}
    (hleaves : ((⟨d, acked⟩ : Running).run steps).handle.dir.Leaves fs dir') :
    ∃ d', openIndex cfg dir' = .ok d' ∧
      ∀ k ∈ ((⟨d, acked⟩ : Running).run steps).acked, d'.idx.store.hasLabel k = true := by
  obtain ⟨-, ⟨f, hwal⟩, henc, hres⟩ := call_add hnil
  obtain ⟨hwrite, hall⟩ := run_add acked hnil hwal
  obtain ⟨hafter, -⟩ := h.add hnil hfits
  have hweaken : (∃ d', openIndex cfg dir' = .ok d' ∧
      ∀ k ∈ key :: acked, d'.idx.store.hasLabel k = true) →
        ∃ d', openIndex cfg dir' = .ok d' ∧ ∀ k ∈ acked, d'.idx.store.hasLabel k = true :=
    fun ⟨d', hd', hk⟩ => ⟨d', hd', fun k h => hk k (List.mem_cons_of_mem _ h)⟩
  have hdir : (d.call (.add vec key)).1.dir =
      { d.dir with wal := some (f.write (frame (payload (Call.add vec key).record))).sync } := by
    rw [DurableIndex.call, perform_done (call_add hnil).1 hwal henc, Wal.append_done henc]
  obtain rfl | rfl | rfl | rfl := prefix_steps_add hsteps
  · exact h.survives hleaves
  · rw [show (⟨d, acked⟩ : Running).run [.writeRecord (.add vec key)] =
      (⟨d, acked⟩ : Running).step (.writeRecord (.add vec key)) from rfl, hwrite] at hleaves ⊢
    obtain ⟨g, hg, hbytes⟩ := hleaves.wal
    obtain ⟨t, ht, -⟩ := fs.append_of_write (h.stable.2 f hwal) hbytes
    have hlog : Loggable (Call.add vec key).record :=
      loggable_record d.idx.params.dim_pos (by
        rintro vec' key' ⟨⟩
        exact (onIndex_add_ok hres).1) (Or.inl hfits)
    rw [ht] at hbytes
    obtain rfl | hnone := hdetects hlog f t (h.stable.2 f hwal) hbytes
    · -- the whole frame is left, as after the whole call
      refine hweaken (hafter.openIndex_torn ?_ hleaves.snapshot hg (congrArg Dir.wal hdir)
        (t := []) ?_ Wal.readRecord_nil)
      · rw [hdir]
      · rw [List.append_nil]
        exact ht
    · exact h.openIndex_torn rfl hleaves.snapshot hg hwal ht hnone
  · rw [show (⟨d, acked⟩ : Running).run [.writeRecord (.add vec key), .syncLog] =
      ((⟨d, acked⟩ : Running).step (.writeRecord (.add vec key))).step .syncLog from rfl,
      hwrite] at hleaves ⊢
    have hleaves' : (d.call (.add vec key)).1.dir.Leaves fs dir' := by
      rw [hdir]
      exact hleaves
    exact hweaken (hafter.survives hleaves')
  · rw [hall] at hleaves ⊢
    exact hafter.survives hleaves

/-- Without a `Snapshot` nothing that was acknowledged is lost. -/
theorem Intact.survivesPowerLoss {fs : FileSystem} {cfg : Config} :
    ∀ (history : List Op) {d : DurableIndex} {acked : List Label}, Intact cfg ⟨d, acked⟩ →
      d.ReturnsNil history → Fits d.idx.params.dim → .snapshot ∉ history →
        (∀ vec key, .add vec key ∈ history → Detects fs (Call.add vec key).record) →
          SurvivesPowerLoss fs cfg ⟨d, acked⟩ history
  | [], d, acked, h, _, _, _, _ => by
      intro steps hsteps dir' hleaves
      obtain rfl : steps = [] := List.prefix_nil.mp hsteps
      exact h.survives hleaves
  | .snapshot :: history, _, _, _, _, _, hno, _ => absurd List.mem_cons_self hno
  | .add vec key :: history, d, acked, h, hnil, hfits, hno, hdetects => by
      intro steps hsteps dir' hleaves
      rw [List.flatMap_cons] at hsteps
      obtain ⟨-, ⟨f, hwal⟩, -⟩ := call_add hnil.1
      obtain ⟨hafter, hparams⟩ := h.add hnil.1 hfits
      obtain hin | ⟨steps', rfl, hsteps'⟩ := prefix_append hsteps
      · exact h.survives_within hnil.1 hfits (hdetects vec key List.mem_cons_self) hin hleaves
      · rw [Running.run_append, (run_add _ hnil.1 hwal).2] at hleaves ⊢
        exact hafter.survivesPowerLoss history hnil.2 (by rw [hparams]; exact hfits)
          (fun hmem => hno (List.mem_cons_of_mem _ hmem))
          (fun vec' key' hmem => hdetects vec' key' (List.mem_cons_of_mem _ hmem)) steps' hsteps'
          dir' hleaves

/-! ### What is lost -/

/-- A handle that `Open` returned on synced files. -/
theorem intact_of_open {cfg : Config} {dir : Dir} {d : DurableIndex}
    (hopen : openIndex cfg dir = .ok d) (hstable : dir.Stable) : Intact cfg ⟨d, []⟩ := by
  obtain ⟨idx, hload, herr, hd⟩ := openIndex_ok hopen
  obtain ⟨idx', rs, f, hload', happ, hd', hholds, -⟩ := openIndex_wal hopen
  obtain rfl : idx = idx' := Except.ok.inj (hload.symm.trans hload')
  have hsnap : d.dir.snapshot = dir.snapshot := by rw [hd']
  refine ⟨⟨by rw [hsnap]; exact hstable.1, ?_⟩, ⟨f, idx, rs, by rw [hd'], ?_, hholds, happ⟩, nofun⟩
  · rw [hd]
    rintro g hg
    cases hwal : dir.wal with
    | none =>
        rw [hwal] at hg
        cases hg
        exact DurableFile.stable_sync _
    | some g' =>
        rw [hwal] at hg
        cases hg
        exact (hstable.2 g' hwal).truncate _
  · rw [← hload]
    exact loadOrCreateIndex_congr hsnap

/-- A power loss right after the rename of the snapshot may leave an empty file. -/
theorem not_survives_of_snapshot {fs : FileSystem} {cfg : Config} {s : Running}
    {history : List Op} (h : .snapshot ∈ history) : ¬ SurvivesPowerLoss fs cfg s history := by
  intro hsurvives
  obtain ⟨before, after, rfl⟩ := List.append_of_mem h
  set s₁ := s.run (before.flatMap Op.steps) with hs₁
  have hprefix : before.flatMap Op.steps ++ [.snapshot .save, .snapshot .renameSnapshot] <+:
      (before ++ .snapshot :: after).flatMap Op.steps := by
    rw [List.flatMap_append, List.flatMap_cons]
    exact (List.prefix_append_right_inj _).mpr ⟨_, rfl⟩
  obtain ⟨d', hd', -⟩ := hsurvives _ hprefix _ (leaves_lost fs _)
  obtain ⟨idx, hload, -⟩ := openIndex_ok hd'
  rw [Running.run_append, ← hs₁] at hload
  have hempty : (s₁.run [.snapshot .save, .snapshot .renameSnapshot]).handle.dir.lost.snapshot =
      some (lost (DurableFile.empty.write s₁.handle.idx.save)) := rfl
  have hbytes : (lost (DurableFile.empty.write s₁.handle.idx.save)).bytes = [] := rfl
  simp only [loadOrCreateIndex, hempty, hbytes, Hnsw.load_nil] at hload
  cases hload

/-- The first `Add` of an index whose records are above the limit of the reader is lost. -/
theorem not_survives_of_not_fits {fs : FileSystem} {cfg : Config} {d : DurableIndex}
    (h : Intact cfg ⟨d, []⟩) (hfits : ¬ Fits d.idx.params.dim) {vec : Wal.Vec} {key : Label}
    {history : List Op} (hnil : d.ReturnsNil (.add vec key :: history)) :
    ¬ SurvivesPowerLoss fs cfg ⟨d, []⟩ (.add vec key :: history) := by
  intro hsurvives
  obtain ⟨hopen, ⟨f, hwal⟩, henc, hres⟩ := call_add hnil.1
  obtain ⟨f', idx, rs, hf', hload, hholds, happ⟩ := h.replays
  obtain rfl : f' = f := Option.some.inj (hf'.symm.trans hwal)
  have hprefix : (Op.add vec key).steps <+: (.add vec key :: history).flatMap Op.steps := by
    rw [List.flatMap_cons]
    exact List.prefix_append _ _
  obtain ⟨d', hd', hkey⟩ := hsurvives _ hprefix _ (leaves_lost fs _)
  rw [(run_add _ hnil.1 hwal).2] at hd' hkey
  have hcall : (d.call (.add vec key)).1.dir.snapshot = d.dir.snapshot := by
    rw [DurableIndex.call, perform_done hopen hwal henc]
  have hload' : loadOrCreateIndex cfg (d.call (.add vec key)).1.dir.lost = .ok idx := by
    rw [loadOrCreateIndex_leaves (by rw [hcall]; exact h.stable.1) (leaves_lost fs _).snapshot,
      loadOrCreateIndex_congr hcall, hload]
  have hdim : ¬ Fits idx.params.dim := by rwa [← params_applyAll happ]
  have hbefore := hasLabel_of_applyAll hdim rs rfl (fun r hr => by
    rw [← hholds.records_drop] at hr
    exact Wal.known_fits_of_mem_records hr) happ key
  have hafter := hasLabel_openIndex hd' hload' hdim key
  rw [← hbefore, (onIndex_add_ok hres).2.1, hkey key List.mem_cons_self] at hafter
  cases hafter

/-- **Acknowledged writes survive a power loss exactly when there is no Snapshot among the calls and
the `Add` records are within the limit of the reader**: on any synced directory that `Open`
accepted, and on any file system that keeps what is synced and does not forge a record out of a
lost one. -/
theorem survivesPowerLoss_iff (fs : FileSystem) {cfg : Config} {dir : Dir} {d : DurableIndex}
    (hopen : openIndex cfg dir = .ok d) (hstable : dir.Stable) {history : List Op}
    (hnil : d.ReturnsNil history)
    (hdetects : ∀ vec key, .add vec key ∈ history → Detects fs (Call.add vec key).record) :
    SurvivesPowerLoss fs cfg ⟨d, []⟩ history ↔
      .snapshot ∉ history ∧ (history = [] ∨ 21 + d.idx.params.dim * 4 ≤ Wal.maxPayloadLen) := by
  have hintact := intact_of_open hopen hstable
  constructor
  · intro h
    refine ⟨fun hmem => not_survives_of_snapshot hmem h, ?_⟩
    cases history with
    | nil => exact Or.inl rfl
    | cons op history =>
        cases op with
        | snapshot => exact absurd h (not_survives_of_snapshot List.mem_cons_self)
        | add vec key =>
            right
            by_contra hfits
            exact not_survives_of_not_fits hintact hfits hnil h
  · rintro ⟨hno, rfl | hfits⟩
    · intro steps hsteps dir' hleaves
      obtain rfl : steps = [] := List.prefix_nil.mp hsteps
      exact hintact.survives hleaves
    · exact hintact.survivesPowerLoss history hnil hfits hno hdetects

end

open Hnsw.StandIn in
/-- An `Add` without a `Snapshot`, written in order. -/
theorem survivesPowerLoss_add :
    SurvivesPowerLoss .ordered smallConfig ⟨DurableIndex.fresh smallParams 0, []⟩
      [.add [5] ⟨1, 1⟩] := by
  have hopen : openIndex smallConfig Dir.empty = .ok (DurableIndex.fresh smallParams 0) := rfl
  exact (survivesPowerLoss_iff .ordered hopen ⟨nofun, nofun⟩ (by decide +kernel)
    (fun _ _ _ => detects_ordered _)).mpr ⟨by decide, Or.inr (by decide)⟩

open Hnsw.StandIn in
/-- An `Add` and a `Snapshot` return nil, and a power loss between the rename and the next step
leaves an empty snapshot, which `Open` refuses. -/
theorem snapshot_lost :
    (DurableIndex.fresh smallParams 0).ReturnsNil [.add [5] ⟨1, 1⟩, .snapshot] ∧
      ¬ SurvivesPowerLoss .ordered smallConfig ⟨DurableIndex.fresh smallParams 0, []⟩
        [.add [5] ⟨1, 1⟩, .snapshot] :=
  ⟨by decide +kernel, not_survives_of_snapshot (by decide)⟩

end VectorSearch.Durable
