import Mathlib.Logic.Relation
import VectorSearch.Hnsw.KeyStore

/-! # Concurrent insertions and labels

Any number of threads run `addPoint`, `markDeleted` and `unmarkDeleted` on one key store
(`Calls.Next`).  An insertion goes through its pieces one by one: it looks its label up, takes an
id, fills the slot of the id, registers the label, links the node, which no label depends on, and
returns.

The lookup and the registration are two critical sections.  While no insertion looks up a label that
another one has looked up and not registered (`Calls.Alone`), and the ids do not wrap round, every
label has one node (`Calls.Inv`), and `storedOnce_of_alone` says so for every run.
`label_stored_twice` is a run of two insertions with one label that both return an id. -/

namespace VectorSearch.Hnsw

/-- Where a thread is in `addPoint`. -/
inductive Phase (F : Type) where
  | idle
  /-- the label was not found -/
  | checked (vec : List F) (label : Label)
  /-- `count_.fetch_add` has given the id -/
  | allocated (vec : List F) (label : Label) (id : ℕ)
  /-- vector, label and tombstone of the id are set -/
  | written (label : Label) (id : ℕ)
  /-- the label is in `labelToId_` -/
  | registered (label : Label) (id : ℕ)

/-- The label of an insertion between its lookup and its registration. -/
def Phase.pending {F : Type} : Phase F → Option Label
  | .checked _ label => some label
  | .allocated _ label _ => some label
  | .written label _ => some label
  | _ => none

/-- The id of an insertion that has not registered it. -/
def Phase.slot {F : Type} : Phase F → Option ℕ
  | .allocated _ _ id => some id
  | .written _ id => some id
  | _ => none

section
variable {F : Type} (vec : List F) (label : Label) (id : ℕ)

@[simp, grind =] theorem pending_idle : (Phase.idle : Phase F).pending = none := rfl
@[simp, grind =] theorem pending_checked : (Phase.checked vec label).pending = some label := rfl
@[simp, grind =] theorem pending_allocated :
    (Phase.allocated vec label id).pending = some label := rfl
@[simp, grind =] theorem pending_written :
    (Phase.written label id : Phase F).pending = some label := rfl
@[simp, grind =] theorem pending_registered :
    (Phase.registered label id : Phase F).pending = none := rfl
@[simp, grind =] theorem slot_idle : (Phase.idle : Phase F).slot = none := rfl
@[simp, grind =] theorem slot_checked : (Phase.checked vec label).slot = none := rfl
@[simp, grind =] theorem slot_allocated : (Phase.allocated vec label id).slot = some id := rfl
@[simp, grind =] theorem slot_written : (Phase.written label id : Phase F).slot = some id := rfl
@[simp, grind =] theorem slot_registered : (Phase.registered label id : Phase F).slot = none := rfl

end

/-- The key store, the threads, and what the insertions so far have returned or thrown. -/
structure Calls (F : Type) where
  store : Store F
  threads : ℕ → Phase F
  returned : List (Label × Except AddError ℕ)

namespace Calls
variable {F : Type}

/-- No insertion is in progress. -/
def start (store : Store F) : Calls F := ⟨store, fun _ => .idle, []⟩

def setThread (s : Calls F) (t : ℕ) (ph : Phase F) : Calls F :=
  { s with threads := Function.update s.threads t ph }

@[grind =] theorem threads_setThread (s : Calls F) (t u : ℕ) (ph : Phase F) :
    (s.setThread t ph).threads u = if u = t then ph else s.threads u :=
  Function.update_apply _ _ _ _

@[simp, grind =] theorem store_setThread (s : Calls F) (t : ℕ) (ph : Phase F) :
    (s.setThread t ph).store = s.store := rfl

@[simp, grind =] theorem returned_setThread (s : Calls F) (t : ℕ) (ph : Phase F) :
    (s.setThread t ph).returned = s.returned := rfl

theorem threads_of_ne (s : Calls F) {t u : ℕ} (ph : Phase F) (h : u ≠ t) :
    (s.setThread t ph).threads u = s.threads u := Function.update_of_ne h _ _

theorem threads_self (s : Calls F) (t : ℕ) (ph : Phase F) : (s.setThread t ph).threads t = ph :=
  Function.update_self _ _ _

/-- Allocated ids whose slot is filled. -/
def Node (s : Calls F) (id : ℕ) : Prop :=
  id < s.store.count ∧ ∀ t vec label, s.threads t ≠ .allocated vec label id

/-- No insertion is between the lookup and the registration of the label. -/
def Alone (s : Calls F) (label : Label) : Prop := ∀ t, (s.threads t).pending ≠ some label

section
variable [Platform F]

/-- The steps of the threads below capacity, where every id is below `maxElements_`; a lookup that finds
nothing is made only when `may` allows it. -/
inductive Next (p : Params) (may : Calls F → Label → Prop) (s : Calls F) : Calls F → Prop
  | duplicate {t : ℕ} {label : Label} (hph : s.threads t = .idle)
      (hfound : s.store.hasLabel label = true) :
      Next p may s { s with returned := (label, .error .duplicate) :: s.returned }
  | check {t : ℕ} {vec : List F} {label : Label} (hph : s.threads t = .idle)
      (hfound : s.store.hasLabel label = false) (hmay : may s label) :
      Next p may s (s.setThread t (.checked vec label))
  | allocate {t : ℕ} {vec : List F} {label : Label} (hph : s.threads t = .checked vec label)
      (hroom : s.store.fetchAdd.1 < p.maxElements) :
      Next p may s ({ s with store := s.store.fetchAdd.2 }.setThread t
        (.allocated vec label s.store.fetchAdd.1))
  | write {t id : ℕ} {vec : List F} {label : Label} (hph : s.threads t = .allocated vec label id) :
      Next p may s ({ s with store := s.store.writeSlot id (p.prepare vec) label }.setThread t
        (.written label id))
  | register {t id : ℕ} {label : Label} (hph : s.threads t = .written label id) :
      Next p may s ({ s with store := s.store.registerLabel label id }.setThread t
        (.registered label id))
  | finish {t id : ℕ} {label : Label} (hph : s.threads t = .registered label id) :
      Next p may s ({ s with returned := (label, .ok id) :: s.returned }.setThread t .idle)
  | markDeleted (label : Label) :
      Next p may s { s with store := (s.store.markDeleted label).1 }
  | unmarkDeleted (label : Label) :
      Next p may s { s with store := (s.store.unmarkDeleted label).1 }

end

/-- A step that keeps lookups of one label apart, after which no id has been given twice. -/
def NextAlone [Platform F] (p : Params) (s s' : Calls F) : Prop :=
  Next p Alone s s' ∧ s'.store.count ≤ 2 ^ 32

/-- No label is stored twice: it has at most one node, at most one insertion of it has returned an
id, the others have thrown the duplicate error, and a deletion of it that succeeds leaves no live
node with it. -/
structure StoredOnce (s : Calls F) : Prop where
  unique : ∀ i j, s.Node i → s.Node j → s.store.labels i = s.store.labels j → i = j
  success : ∀ label, (s.returned.filter fun r => r.1 = label ∧ r.2.isOk).length ≤ 1
  failure : ∀ label e, (label, .error e) ∈ s.returned → e = .duplicate
  deleted : ∀ label, (s.store.markDeleted label).2 = true → ∀ i, s.Node i →
    s.store.labels i = label → (s.store.markDeleted label).1.deleted i = true

/-! ### The invariant -/

structure Inv (p : Params) (s : Calls F) : Prop where
  count_le : s.store.count ≤ p.room
  alone : ∀ {t u label}, (s.threads t).pending = some label → (s.threads u).pending = some label →
    t = u
  unregistered : ∀ {t label}, (s.threads t).pending = some label → s.store.labelToId label = none
  slot_lt : ∀ {t i}, (s.threads t).slot = some i → i < s.store.count
  slot_unique : ∀ {t u i}, (s.threads t).slot = some i → (s.threads u).slot = some i → t = u
  label_of_id : ∀ {label i}, s.store.labelToId label = some i →
    i < s.store.count ∧ s.store.labels i = label ∧ ∀ t, (s.threads t).slot ≠ some i
  id_of_label : ∀ {i}, i < s.store.count →
    s.store.labelToId (s.store.labels i) = some i ∨ ∃ t, (s.threads t).slot = some i
  written : ∀ {t label i}, s.threads t = .written label i → s.store.labels i = label
  registered : ∀ {t label i}, s.threads t = .registered label i → s.store.hasLabel label = true
  registered_unique : ∀ {t u label i j}, s.threads t = .registered label i →
    s.threads u = .registered label j → t = u
  returned : ∀ {label i}, (label, .ok i) ∈ s.returned → s.store.hasLabel label = true ∧
    ∀ t j, s.threads t ≠ .registered label j
  success : ∀ label, (s.returned.filter fun r => r.1 = label ∧ r.2.isOk).length ≤ 1
  failure : ∀ {label e}, (label, .error e) ∈ s.returned → e = .duplicate

theorem inv_start {p : Params} {store : Store F} (h : store.Good p) : Inv p (start store) where
  count_le := h.count_le
  alone h := nomatch h
  unregistered h := nomatch h
  slot_lt h := nomatch h
  slot_unique h := nomatch h
  label_of_id hi := ⟨(h.label_of_id hi).1, (h.label_of_id hi).2, nofun⟩
  id_of_label hi := Or.inl (h.id_of_label hi)
  written h := nomatch h
  registered h := nomatch h
  registered_unique h := nomatch h
  returned h := nomatch h
  success _ := Nat.zero_le _
  failure h := nomatch h

/-- A state that keeps the invariant stores no label twice. -/
theorem Inv.storedOnce {p : Params} {s : Calls F} (h : Inv p s) : StoredOnce s := by
  have hunique : ∀ i j, s.Node i → s.Node j → s.store.labels i = s.store.labels j → i = j := by
    -- a node is registered, or its insertion has written it
    have hcases : ∀ i, s.Node i → s.store.labelToId (s.store.labels i) = some i ∨
        ∃ t, s.threads t = .written (s.store.labels i) i := by
      rintro i ⟨hi, hwritten⟩
      refine (h.id_of_label hi).imp_right ?_
      rintro ⟨t, ht⟩
      refine ⟨t, ?_⟩
      cases hph : s.threads t with
      | allocated vec label id =>
          rw [hph] at ht
          cases ht
          exact absurd hph (hwritten t vec label)
      | written label id =>
          rw [hph] at ht
          cases ht
          rw [h.written hph]
      | idle | checked _ _ | registered _ _ =>
          rw [hph] at ht
          cases ht
    intro i j hi hj hlabel
    rcases hcases i hi with hi | ⟨t, ht⟩ <;> rcases hcases j hj with hj | ⟨u, hu⟩
    · rw [hlabel, hj] at hi
      exact (Option.some.inj hi).symm
    · have hnone := h.unregistered (t := u) (by rw [hu]; rfl)
      rw [← hlabel, hi] at hnone
      cases hnone
    · have hnone := h.unregistered (t := t) (by rw [ht]; rfl)
      rw [hlabel, hj] at hnone
      cases hnone
    · have htu : t = u := h.alone (by rw [ht, hlabel]; rfl) (by rw [hu]; rfl)
      rw [htu, hu] at ht
      exact (Phase.written.inj ht).2.symm
  refine ⟨hunique, h.success, fun label e => h.failure, fun label hmark i hi hlabel => ?_⟩
  cases hid : s.store.labelToId label with
  | none =>
      rw [Store.markDeleted_none hid] at hmark
      cases hmark
  | some j =>
      obtain ⟨hj, hjl, hslot⟩ := h.label_of_id hid
      have hnode : s.Node j := ⟨hj, fun t vec label' hph => hslot t (by rw [hph]; rfl)⟩
      obtain rfl := hunique i j hi hnode (hlabel.trans hjl.symm)
      rw [Store.markDeleted_some hid] at hmark ⊢
      split_ifs with hdel
      · exact hdel
      · exact Function.update_self _ _ _

/-! ### The steps -/

section steps
variable {p : Params} {s : Calls F} {t id : ℕ} {vec : List F} {label : Label}

theorem Inv.duplicate (h : Inv p s) :
    Inv p { s with returned := (label, .error .duplicate) :: s.returned } :=
  { h with
    returned := by
      intro l i hmem
      exact h.returned ((List.mem_cons.mp hmem).resolve_left nofun)
    success := by
      intro l
      have hskip : ((label, (.error .duplicate : Except AddError ℕ)) :: s.returned).filter
          (fun r => r.1 = l ∧ r.2.isOk) = s.returned.filter fun r => r.1 = l ∧ r.2.isOk :=
        List.filter_cons_of_neg (by simp [Except.isOk, Except.toBool])
      rw [hskip]
      exact h.success l
    failure := by
      intro l e hmem
      obtain heq | hmem := List.mem_cons.mp hmem
      · cases heq
        rfl
      · exact h.failure hmem }

theorem Inv.check (h : Inv p s) (hph : s.threads t = .idle)
    (hfound : s.store.hasLabel label = false) (hmay : s.Alone label) :
    Inv p (s.setThread t (.checked vec label)) := by
  obtain ⟨hcount, halone, hunreg, hlt, hslot, hlabel, hid, hwritten, hreg, hreg', hret, hsucc,
    hfail⟩ := h
  have hnone : s.store.labelToId label = none := by simpa [Store.hasLabel] using hfound
  refine ⟨hcount, ?_, ?_, ?_, ?_, ?_, ?_, ?_, ?_, ?_, ?_, hsucc, hfail⟩
  · grind [Alone]
  · grind
  · grind
  · grind
  · grind
  · intro i hi
    refine (hid hi).imp_right ?_
    rintro ⟨u, hu⟩
    exact ⟨u, by grind⟩
  all_goals grind

theorem Inv.allocate (h : Inv p s) (hph : s.threads t = .checked vec label)
    (hroom : s.store.count < p.room) :
    Inv p ({ s with store := s.store.fetchAdd.2 }.setThread t
      (.allocated vec label s.store.fetchAdd.1)) := by
  obtain ⟨hcount, halone, hunreg, hlt, hslot, hlabel, hid, hwritten, hreg, hreg', hret, hsucc,
    hfail⟩ := h
  have hnew : s.store.fetchAdd.1 = s.store.count :=
    Nat.mod_eq_of_lt (hroom.trans_le (min_le_right _ _))
  rw [hnew]
  refine ⟨hroom, ?_, ?_, ?_, ?_, ?_, ?_, ?_, ?_, ?_, ?_, hsucc, hfail⟩
  · grind
  · grind [Store.fetchAdd]
  · grind [Store.fetchAdd]
  · grind
  · -- no registered id is the new one
    intro l i hi
    obtain ⟨hi', hl, hfree⟩ := hlabel hi
    refine ⟨Nat.lt_succ_of_lt hi', hl, fun u hu => ?_⟩
    by_cases hut : u = t
    · rw [hut, threads_self, slot_allocated] at hu
      exact Nat.ne_of_gt hi' (Option.some.inj hu)
    · rw [threads_of_ne _ _ hut] at hu
      exact hfree u hu
  · intro i hi
    obtain hi | rfl := Nat.lt_succ_iff_lt_or_eq.mp hi
    · refine (hid hi).imp_right ?_
      rintro ⟨u, hu⟩
      exact ⟨u, by grind⟩
    · exact Or.inr ⟨t, by rw [threads_self, slot_allocated]⟩
  · grind [Store.fetchAdd]
  · grind [Store.fetchAdd, Store.hasLabel]
  · grind
  · grind [Store.fetchAdd, Store.hasLabel]

theorem Inv.write [Platform F] (h : Inv p s) (hph : s.threads t = .allocated vec label id) :
    Inv p ({ s with store := s.store.writeSlot id (p.prepare vec) label }.setThread t
      (.written label id)) := by
  obtain ⟨hcount, halone, hunreg, hlt, hslot, hlabel, hid, hwritten, hreg, hreg', hret, hsucc,
    hfail⟩ := h
  have hmine : (s.threads t).slot = some id := by rw [hph, slot_allocated]
  have hself : (s.store.writeSlot id (p.prepare vec) label).labels id = label :=
    Function.update_self _ _ _
  have hother : ∀ {i}, i ≠ id →
      (s.store.writeSlot id (p.prepare vec) label).labels i = s.store.labels i :=
    fun hi => Function.update_of_ne hi _ _
  refine ⟨hcount, ?_, ?_, ?_, ?_, ?_, ?_, ?_, ?_, ?_, ?_, hsucc, hfail⟩
  · grind
  · grind [Store.writeSlot]
  · grind [Store.writeSlot]
  · grind
  · -- the filled slot is not a registered one
    intro l i hi
    obtain ⟨hi', hl, hfree⟩ := hlabel hi
    have hne : i ≠ id := by
      rintro rfl
      exact hfree t hmine
    refine ⟨hi', (hother hne).trans hl, ?_⟩
    grind
  · intro i hi
    by_cases hne : i = id
    · exact Or.inr ⟨t, by rw [threads_self, slot_written, hne]⟩
    · obtain hi | ⟨u, hu⟩ := hid hi
      · left
        show s.store.labelToId ((s.store.writeSlot id (p.prepare vec) label).labels i) = some i
        rw [hother hne]
        exact hi
      · exact Or.inr ⟨u, by grind⟩
  · intro u l i hu
    show (s.store.writeSlot id (p.prepare vec) label).labels i = l
    by_cases hut : u = t
    · rw [hut, threads_self] at hu
      cases hu
      exact hself
    · rw [threads_of_ne _ _ hut] at hu
      have hne : i ≠ id := by
        rintro rfl
        exact hut (hslot (by rw [hu, slot_written]) hmine)
      rw [hother hne]
      exact hwritten hu
  · grind [Store.writeSlot, Store.hasLabel]
  · grind
  · grind [Store.writeSlot, Store.hasLabel]

theorem Inv.register (h : Inv p s) (hph : s.threads t = .written label id) :
    Inv p ({ s with store := s.store.registerLabel label id }.setThread t
      (.registered label id)) := by
  obtain ⟨hcount, halone, hunreg, hlt, hslot, hlabel, hid, hwritten, hreg, hreg', hret, hsucc,
    hfail⟩ := h
  have hmine : (s.threads t).slot = some id := by rw [hph, slot_written]
  have hpending : (s.threads t).pending = some label := by rw [hph, pending_written]
  have hnone : s.store.labelToId label = none := hunreg hpending
  have hself : (s.store.registerLabel label id).labelToId label = some id :=
    Function.update_self _ _ _
  have hother : ∀ {l}, l ≠ label →
      (s.store.registerLabel label id).labelToId l = s.store.labelToId l :=
    fun hl => Function.update_of_ne hl _ _
  refine ⟨hcount, ?_, ?_, ?_, ?_, ?_, ?_, ?_, ?_, ?_, ?_, hsucc, hfail⟩
  · grind
  · -- the label was pending in this thread alone
    intro u l hu
    have hut : u ≠ t := by
      rintro rfl
      rw [threads_self, pending_registered] at hu
      cases hu
    rw [threads_of_ne _ _ hut] at hu
    have hll : l ≠ label := by
      rintro rfl
      exact hut (halone hu hpending)
    exact (hother hll).trans (hunreg hu)
  · grind [Store.registerLabel]
  · grind
  · intro l i hi
    by_cases hll : l = label
    · have hi' : i = id := by
        rw [hll] at hi
        exact (Option.some.inj (hself.symm.trans hi)).symm
      rw [hi', hll]
      refine ⟨hlt hmine, hwritten hph, ?_⟩
      grind
    · obtain ⟨hi', hl, hfree⟩ := hlabel ((hother hll).symm.trans hi)
      refine ⟨hi', hl, ?_⟩
      grind
  · intro i hi
    by_cases hne : i = id
    · left
      rw [hne]
      show (s.store.registerLabel label id).labelToId (s.store.labels id) = some id
      rw [hwritten hph]
      exact hself
    · obtain hi | ⟨u, hu⟩ := hid hi
      · left
        have hll : s.store.labels i ≠ label := by
          intro heq
          rw [heq, hnone] at hi
          cases hi
        exact (hother hll).trans hi
      · exact Or.inr ⟨u, by grind⟩
  · grind [Store.registerLabel]
  · intro u l i hu
    by_cases hut : u = t
    · rw [hut, threads_self] at hu
      cases hu
      exact (s.store.hasLabel_registerLabel id).mpr (Or.inl rfl)
    · rw [threads_of_ne _ _ hut] at hu
      exact (s.store.hasLabel_registerLabel id).mpr (Or.inr (hreg hu))
  · grind [Store.hasLabel]
  · -- an insertion that has returned had registered its label before
    intro l i hmem
    obtain ⟨hl, hfree⟩ := hret hmem
    refine ⟨(s.store.hasLabel_registerLabel id).mpr (Or.inr hl), fun u j hu => ?_⟩
    by_cases hut : u = t
    · rw [hut, threads_self] at hu
      cases hu
      rw [Store.hasLabel, hnone] at hl
      cases hl
    · rw [threads_of_ne _ _ hut] at hu
      exact hfree u j hu

theorem Inv.finish (h : Inv p s) (hph : s.threads t = .registered label id) :
    Inv p ({ s with returned := (label, .ok id) :: s.returned }.setThread t .idle) := by
  obtain ⟨hcount, halone, hunreg, hlt, hslot, hlabel, hid, hwritten, hreg, hreg', hret, hsucc,
    hfail⟩ := h
  refine ⟨hcount, ?_, ?_, ?_, ?_, ?_, ?_, ?_, ?_, ?_, ?_, ?_, ?_⟩
  · grind
  · grind
  · grind
  · grind
  · grind
  · intro i hi
    refine (hid hi).imp_right ?_
    rintro ⟨u, hu⟩
    exact ⟨u, by grind⟩
  · grind
  · grind
  · grind
  · grind
  · -- an earlier success with the label would exclude this one
    intro l
    show (((label, (.ok id : Except AddError ℕ)) :: s.returned).filter
      fun r => r.1 = l ∧ r.2.isOk).length ≤ 1
    by_cases hll : label = l
    · subst hll
      have hnil : (s.returned.filter fun r => r.1 = label ∧ r.2.isOk) = [] := by
        rw [List.filter_eq_nil_iff]
        rintro ⟨l, res⟩ hmem hres
        simp only [decide_eq_true_eq] at hres
        obtain ⟨rfl, hok⟩ := hres
        cases res with
        | error e => cases hok
        | ok i => exact (hret hmem).2 t id hph
      rw [List.filter_cons_of_pos (by simp [Except.isOk, Except.toBool]), hnil]
      exact le_rfl
    · rw [List.filter_cons_of_neg (by simp [hll])]
      exact hsucc l
  · intro l e hmem
    exact hfail ((List.mem_cons.mp hmem).resolve_left nofun)

/-- Tombstones are no part of the invariant. -/
theorem Inv.setDeleted (h : Inv p s) (deleted : ℕ → Bool) (n : ℕ) :
    Inv p { s with store := { s.store with deleted := deleted, numDeleted := n } } :=
  ⟨h.count_le, h.alone, h.unregistered, h.slot_lt, h.slot_unique, h.label_of_id, h.id_of_label,
    h.written, h.registered, h.registered_unique, h.returned, h.success, h.failure⟩

theorem Inv.markDeleted (h : Inv p s) :
    Inv p { s with store := (s.store.markDeleted label).1 } := by
  cases hi : s.store.labelToId label with
  | none =>
      rw [Store.markDeleted_none hi]
      exact h
  | some i =>
      rw [Store.markDeleted_some hi]
      split_ifs
      · exact h
      · exact h.setDeleted _ _

theorem Inv.unmarkDeleted (h : Inv p s) :
    Inv p { s with store := (s.store.unmarkDeleted label).1 } := by
  cases hi : s.store.labelToId label with
  | none =>
      rw [Store.unmarkDeleted_none hi]
      exact h
  | some i =>
      rw [Store.unmarkDeleted_some hi]
      split_ifs
      · exact h
      · exact h.setDeleted _ _

/-- **One step keeps the invariant**, if lookups keep out of each other's way. -/
theorem Inv.next [Platform F] {s' : Calls F} (h : Inv p s) (hnext : NextAlone p s s') : Inv p s' := by
  obtain ⟨hnext, hids⟩ := hnext
  cases hnext with
  | duplicate hph hfound => exact h.duplicate
  | check hph hfound hmay => exact h.check hph hfound hmay
  | allocate hph hroom =>
      have hlt : s.store.count < 2 ^ 32 := hids
      have hid : s.store.fetchAdd.1 = s.store.count := Nat.mod_eq_of_lt hlt
      rw [hid] at hroom
      exact h.allocate hph (lt_min hroom hlt)
  | write hph => exact h.write hph
  | register hph => exact h.register hph
  | finish hph => exact h.finish hph
  | markDeleted label => exact h.markDeleted
  | unmarkDeleted label => exact h.unmarkDeleted

end steps

section
variable [Platform F]

/-- **While no insertion looks up a label that another one has looked up and not yet registered, no
label is stored twice**, in every state of every run from a good key store, below capacity and with
at most `2 ^ 32` ids. -/
theorem storedOnce_of_alone {p : Params} {store : Store F} (hgood : store.Good p) {s : Calls F}
    (hrun : Relation.ReflTransGen (NextAlone p) (start store) s) : s.StoredOnce := by
  have hinv : Inv p s := by
    induction hrun with
    | refl => exact inv_start hgood
    | tail _ hnext ih => exact ih.next hnext
  exact hinv.storedOnce

end

/-- Parameters for concrete runs. -/
def pairParams : Params :=
  { Params.smallest with
    maxElements := 2
    maxElements_pos := Params.smallest.M_pos
    maxElements_lt := Params.smallest.ef_lt }

open StandIn in
/-- Two threads whose steps come between each other add two labels, one of them is added again, and
one is deleted. -/
theorem storedOnce_interleaved :
    ∃ s : Calls UInt32, Relation.ReflTransGen (NextAlone pairParams) (start (Store.empty UInt32)) s ∧
      s.returned = [(⟨1, 1⟩, .error .duplicate), (⟨1, 2⟩, .ok 0), (⟨1, 1⟩, .ok 1)] ∧
      s.store.deleted 1 = true ∧ s.StoredOnce := by
  have hgood : (Store.empty UInt32).Good pairParams := Store.Good.empty _
  have halone : ((start (Store.empty UInt32)).setThread 0 (.checked [5] ⟨1, 1⟩)).Alone ⟨1, 2⟩ := by
    intro t ht
    rw [threads_setThread] at ht
    split_ifs at ht <;> cases ht
  have hcheck : Relation.ReflTransGen (NextAlone pairParams)
      (start (Store.empty UInt32)) (((start (Store.empty UInt32)).setThread 0
        (.checked [5] ⟨1, 1⟩)).setThread 1 (.checked [6] ⟨1, 2⟩)) :=
    .tail (.tail .refl ⟨.check rfl rfl nofun, by decide⟩) ⟨.check rfl rfl halone, by decide⟩
  have hrun : Relation.ReflTransGen (NextAlone pairParams) (start (Store.empty UInt32)) _ :=
    .tail (.tail (.tail (.tail (.tail (.tail (.tail (.tail (.tail (.tail hcheck
      ⟨.allocate (t := 1) rfl (by decide), by decide⟩)
      ⟨.allocate (t := 0) rfl (by decide), by decide⟩)
      ⟨.write (t := 0) rfl, by decide⟩)
      ⟨.write (t := 1) rfl, by decide⟩)
      ⟨.register (t := 0) rfl, by decide⟩)
      ⟨.register (t := 1) rfl, by decide⟩)
      ⟨.finish (t := 0) rfl, by decide⟩)
      ⟨.finish (t := 1) rfl, by decide⟩)
      ⟨.duplicate (t := 1) rfl (rfl : Store.hasLabel _ ⟨1, 1⟩ = true), by decide⟩)
      ⟨.markDeleted ⟨1, 1⟩, by decide⟩
  exact ⟨_, hrun, rfl, rfl, storedOnce_of_alone hgood hrun⟩

open StandIn in
/-- Two threads add one label; both look it up before either registers it.  Both return an id, and
`markDeleted` leaves the node of the first live. -/
theorem label_stored_twice :
    ∃ s : Calls UInt32, Relation.ReflTransGen (Next pairParams fun _ _ => True)
        (start (Store.empty UInt32)) s ∧
      s.returned = [(⟨1, 1⟩, .ok 1), (⟨1, 1⟩, .ok 0)] ∧
      s.store.labels 0 = ⟨1, 1⟩ ∧ s.store.labels 1 = ⟨1, 1⟩ ∧
      (s.store.markDeleted ⟨1, 1⟩).2 = true ∧
      (s.store.markDeleted ⟨1, 1⟩).1.deleted 0 = false ∧ ¬ s.StoredOnce := by
  have hcheck : Relation.ReflTransGen (Next pairParams fun _ _ => True)
      (start (Store.empty UInt32)) (((start (Store.empty UInt32)).setThread 0
        (.checked [5] ⟨1, 1⟩)).setThread 1 (.checked [6] ⟨1, 1⟩)) :=
    .tail (.tail .refl (.check rfl rfl trivial)) (.check rfl rfl trivial)
  have hrun : Relation.ReflTransGen (Next pairParams fun _ _ => True)
      (start (Store.empty UInt32)) _ :=
    .tail (.tail (.tail (.tail (.tail (.tail (.tail (.tail hcheck
      (.allocate (t := 0) rfl (by decide)))
      (.allocate (t := 1) rfl (by decide)))
      (.write (t := 0) rfl))
      (.write (t := 1) rfl))
      (.register (t := 0) rfl))
      (.register (t := 1) rfl))
      (.finish (t := 0) rfl))
      (.finish (t := 1) rfl)
  refine ⟨_, hrun, rfl, rfl, rfl, rfl, rfl, fun h => ?_⟩
  exact absurd (h.success ⟨1, 1⟩) (by decide)

end Calls

end VectorSearch.Hnsw
