import VectorSearch.Lib.ByteReader
import VectorSearch.Hnsw.KeyStore

/-! # save and load

The snapshot file of an index whose components are `float`s given by their 32 bits: a fixed
header, then the arrays up to `count_`, then the upper link lists.  `load` reads the same fields
in the same order and asks the stream for an error only at the end.  A file that ends too soon
leaves values uninitialised that are used before that, and a count above the capacity makes the
arrays overflow; what the code does then is undefined, and `load` answers with an error of its own
(`uninitialised`, `outOfRange`).

`load_save` says that the file of an index loads, and `reloaded_store` that the loaded store is
good again and has the same keys and the same key map. -/

open ByteCodec ByteCodec.Reader

namespace VectorSearch.Hnsw

def kMagic : ℕ := 0x484E5357
def kVersion : ℕ := 2

/-- The bits of an `int32_t`. -/
def ofInt32 (z : ℤ) : ℕ := (z % 2 ^ 32).toNat

/-- The `int32_t` with the given bits. -/
def toInt32 (n : ℕ) : ℤ := if n < 2 ^ 31 then n else (n : ℤ) - 2 ^ 32

/-- The number of a space; anything but `Cosine` is treated as `L2`. -/
def Space.code : Space → ℕ
  | .cosine => 0
  | .l2 => 1

def Space.ofCode (n : ℕ) : Space := if n = 0 then .cosine else .l2

/-! ### The file -/

/-- The header fields that the constructor takes. -/
structure Sizes where
  sp : ℕ
  dim : ℕ
  maxEl : ℕ
  m : ℕ
  efc : ℕ
deriving DecidableEq, Repr

def Sizes.bytes (z : Sizes) : Bytes :=
  putLE 4 z.sp ++ (putLE 8 z.dim ++ (putLE 8 z.maxEl ++ (putLE 8 z.m ++ (putLE 8 z.efc ++ []))))

def readSizes : Reader Sizes := do
  let sp ← le 4
  let dim ← le 8
  let maxEl ← le 8
  let m ← le 8
  let efc ← le 8
  pure ⟨sp, dim, maxEl, m, efc⟩

/-- The fields behind magic and version. -/
structure Header extends Sizes where
  cnt : ℕ
  ndel : ℕ
  ml : ℤ
  ep : ℕ

def Header.bytes (h : Header) : Bytes :=
  h.toSizes.bytes ++ (putLE 8 h.cnt ++ (putLE 8 h.ndel ++ (putLE 4 (ofInt32 h.ml) ++
    (putLE 4 h.ep ++ []))))

/-- The arrays of a snapshot, item by item. -/
structure Body where
  data : List (List UInt32)
  levels : List ℤ
  labels : List Label
  deleted : List Bool
  linksL0 : List (List ℕ)
  linksUpper : List (List ℕ)

def readLabel : Reader Label := do
  let clientId ← le 8
  let label ← le 8
  pure ⟨UInt64.ofNat clientId, UInt64.ofNat label⟩

/-- `uint32_t n; r(&n, 4);` and then `n` words. -/
def readUpper : Reader (List ℕ) := do
  let n ← le 4
  many (fun _ => le 4) n

namespace Index

/-- The header that `save` writes. -/
def header (idx : Index UInt32) : Header where
  sp := idx.params.space.code
  dim := idx.params.dim
  maxEl := idx.params.maxElements
  m := idx.params.M
  efc := idx.params.efConstruction
  cnt := idx.store.count
  ndel := idx.store.numDeleted
  ml := idx.graph.maxLevel
  ep := idx.graph.entryPoint

/-- The word `j` of the vector of node `i`. -/
def component (idx : Index UInt32) (i j : ℕ) : UInt32 := (idx.store.data i).getD j 0

/-- The word `j` of `linksUpper_[i]`. -/
def upperWord (idx : Index UInt32) (i j : ℕ) : ℕ :=
  idx.graph.linksUpper i (j / idx.params.strideUpper) (j % idx.params.strideUpper)

/-- The upper link list of node `i`: its length as a `uint32_t`, then that many words. -/
def upperBytes (idx : Index UInt32) (i : ℕ) : Bytes :=
  putLE 4 (idx.graph.upperSize i % 2 ^ 32) ++
    (List.range (idx.graph.upperSize i % 2 ^ 32)).flatMap fun j => putLE 4 (idx.upperWord i j)

/-- The arrays that `save` writes. -/
def bodyBytes (idx : Index UInt32) : Bytes :=
  let ids := List.range idx.store.count
  (ids.flatMap fun i => (List.range idx.params.dim).flatMap fun j =>
      putLE 4 (idx.component i j).toNat) ++
    ((ids.flatMap fun i => putLE 4 (ofInt32 (idx.graph.levels i))) ++
    ((ids.flatMap fun i => putLE 8 (idx.store.labels i).clientId.toNat ++
      (putLE 8 (idx.store.labels i).label.toNat ++ [])) ++
    ((ids.flatMap fun i => putLE 1 (if idx.store.deleted i then 1 else 0)) ++
    ((ids.flatMap fun i => (List.range idx.params.strideL0).flatMap fun w =>
      putLE 4 (idx.graph.linksL0 i w)) ++
    ((ids.flatMap fun i => idx.upperBytes i) ++ [])))))

/-- `save` -/
def save (idx : Index UInt32) : Bytes :=
  putLE 4 kMagic ++ (putLE 4 kVersion ++ (idx.header.bytes ++ idx.bodyBytes))

end Index

/-! ### Loading -/

inductive LoadError where
  /-- "not an hnsw index file" -/
  | badMagic
  /-- "index snapshot version %d is not supported (expected %d); ..." -/
  | badVersion (version : ℕ)
  /-- what the constructor throws -/
  | invalid (e : InvalidArgument)
  /-- "truncated index file %s" -/
  | truncated
  /-- the file ends too soon, and a value is used that was not read -/
  | uninitialised
  /-- the count is above the capacity, and the arrays are written out of range -/
  | outOfRange
deriving DecidableEq, Repr

/-- The loop that fills `labelToId_`; a position is cast to an `idx_t`. -/
def labelMap (labels : ℕ → Label) (cnt : ℕ) : Label → Option ℕ :=
  (List.range cnt).foldl (fun m i => Function.update m (labels i) (some (i % 2 ^ 32))) fun _ => none

/-- The index with the given fields; `rng_` is seeded with the constructor's default. -/
def assemble (p : Params) (h : Header) (b : Body) : Index UInt32 where
  params := p
  store := {
    data := fun i => b.data.getD i []
    labels := fun i => b.labels.getD i ⟨0, 0⟩
    deleted := fun i => b.deleted.getD i false
    count := h.cnt
    numDeleted := h.ndel
    labelToId := labelMap (fun i => b.labels.getD i ⟨0, 0⟩) h.cnt }
  graph := {
    levels := fun i => b.levels.getD i 0
    linksL0 := fun i w => (b.linksL0.getD i []).getD w 0
    linksUpper := fun i l w =>
      if w < p.strideUpper then (b.linksUpper.getD i []).getD (l * p.strideUpper + w) 0 else 0
    upperSize := fun i => (b.linksUpper.getD i []).length
    entryPoint := h.ep
    maxLevel := h.ml }
  rng := ⟨100, 0⟩

/-- What follows the count up to the upper links, in the order of the file; those are still missing
in the index. -/
def readFront (p : Params) (z : Sizes) (cnt : ℕ) : Reader (List (List ℕ) → Index UInt32) := do
  let ndel ← le 8
  let ml ← le 4
  let ep ← le 4
  let data ← many (fun _ => many (fun _ => UInt32.ofNat <$> le 4) p.dim) cnt
  let levels ← many (fun _ => toInt32 <$> le 4) cnt
  let labels ← many (fun _ => readLabel) cnt
  let deleted ← many (fun _ => (fun b => decide (b ≠ 0)) <$> le 1) cnt
  let linksL0 ← many (fun _ => many (fun _ => le 4) p.strideL0) cnt
  pure fun linksUpper => assemble p
    { z with cnt := cnt, ndel := ndel, ml := toInt32 ml, ep := ep }
    ⟨data, levels, labels, deleted, linksL0, linksUpper⟩

/-- The part of `load` behind magic and version.  A read behind one that failed does nothing, so the
fields are taken up to where they are used; `resize(n)` is called for each node. -/
def loadFields (bs : Bytes) : Except LoadError (Index UInt32) :=
  match readSizes.run bs with
  | none => .error .uninitialised
  | some (z, bs) =>
      match mkParams (Space.ofCode z.sp) z.dim z.maxEl z.m z.efc with
      | .error e => .error (.invalid e)
      | .ok p =>
          match (le 8).run bs with
          | none => .error .uninitialised
          | some (cnt, bs) =>
              if p.maxElements < cnt then .error .outOfRange
              else
                match (readFront p z cnt).run bs with
                | none => .error (afterFailure .truncated .uninitialised cnt)
                | some (idx, bs) =>
                    match unchecked .truncated .uninitialised (le 4) (many fun _ => le 4) cnt bs with
                    | .error e => .error e
                    | .ok (linksUpper, _) => .ok (idx linksUpper)

/-- `load` -/
def load (bs : Bytes) : Except LoadError (Index UInt32) :=
  match (le 4).run bs with
  | none => .error .uninitialised
  | some (magic, bs) =>
      if magic ≠ kMagic then .error .badMagic
      else
        match (le 4).run bs with
        | none => .error .uninitialised
        | some (version, bs) =>
            if version ≠ kVersion then .error (.badVersion version) else loadFields bs

@[simp] theorem load_nil : load [] = .error .uninitialised := rfl

/-! ### Reading back -/

/-- The header as it is read back: each field at the width of its place in the file. -/
def Header.read (h : Header) : Header where
  sp := h.sp % 256 ^ 4
  dim := h.dim % 256 ^ 8
  maxEl := h.maxEl % 256 ^ 8
  m := h.m % 256 ^ 8
  efc := h.efc % 256 ^ 8
  cnt := h.cnt % 256 ^ 8
  ndel := h.ndel % 256 ^ 8
  ml := toInt32 (ofInt32 h.ml % 256 ^ 4)
  ep := h.ep % 256 ^ 4

theorem reads_sizes (z : Sizes) : Reads readSizes z.bytes
    ⟨z.sp % 256 ^ 4, z.dim % 256 ^ 8, z.maxEl % 256 ^ 8, z.m % 256 ^ 8, z.efc % 256 ^ 8⟩ :=
  (reads_le 4 _).bind <| (reads_le 8 _).bind <| (reads_le 8 _).bind <| (reads_le 8 _).bind <|
    (reads_le 8 _).bind <| Reads.pure _

/-- The arrays as they are read back. -/
def Index.body (idx : Index UInt32) : Body where
  data := (List.range idx.store.count).map fun i =>
    (List.range idx.params.dim).map fun j => idx.component i j
  levels := (List.range idx.store.count).map fun i =>
    toInt32 (ofInt32 (idx.graph.levels i) % 256 ^ 4)
  labels := (List.range idx.store.count).map idx.store.labels
  deleted := (List.range idx.store.count).map idx.store.deleted
  linksL0 := (List.range idx.store.count).map fun i =>
    (List.range idx.params.strideL0).map fun w => idx.graph.linksL0 i w % 256 ^ 4
  linksUpper := (List.range idx.store.count).map fun i =>
    (List.range (idx.graph.upperSize i % 2 ^ 32)).map fun j => idx.upperWord i j % 256 ^ 4

theorem reads_word (x : UInt32) : Reads (UInt32.ofNat <$> le 4) (putLE 4 x.toNat) x := by
  have h := Reads.map (reads_le_of_lt (w := 4) (n := x.toNat) (by simpa using x.toNat_lt)) UInt32.ofNat
  rwa [UInt32.ofNat_toNat] at h

theorem reads_label (l : Label) :
    Reads readLabel (putLE 8 l.clientId.toNat ++ (putLE 8 l.label.toNat ++ [])) l := by
  have hc := reads_le_of_lt (w := 8) (n := l.clientId.toNat) (by simpa using l.clientId.toNat_lt)
  have hl := reads_le_of_lt (w := 8) (n := l.label.toNat) (by simpa using l.label.toNat_lt)
  have h := hc.bind (f := fun c => do
    let x ← le 8
    Pure.pure (⟨UInt64.ofNat c, UInt64.ofNat x⟩ : Label)) (hl.bind (Reads.pure _))
  rwa [UInt64.ofNat_toNat, UInt64.ofNat_toNat] at h

theorem reads_flag (b : Bool) :
    Reads ((fun n => decide (n ≠ 0)) <$> le 1) (putLE 1 (if b then 1 else 0)) b := by
  cases b with
  | false => exact Reads.map (reads_le 1 0) _
  | true => exact Reads.map (reads_le 1 1) _

theorem reads_upper (idx : Index UInt32) (i : ℕ) :
    Reads readUpper (idx.upperBytes i)
      ((List.range (idx.graph.upperSize i % 2 ^ 32)).map fun j => idx.upperWord i j % 256 ^ 4) := by
  have hn : idx.graph.upperSize i % 2 ^ 32 < 256 ^ 4 := Nat.mod_lt _ (by decide)
  exact (reads_le_of_lt hn).bind (Reads.many fun j _ => reads_le 4 _)

/-- The upper links of all nodes are read back. -/
theorem reads_uppers (idx : Index UInt32) : Reads (many (fun _ => readUpper) idx.store.count)
    ((List.range idx.store.count).flatMap fun i => idx.upperBytes i) idx.body.linksUpper :=
  Reads.many fun i _ => reads_upper idx i

/-- What is read of a file that is long enough. -/
theorem loadFields_of_reads {z : Sizes} {p : Params} {cnt : ℕ} {idx : List (List ℕ) → Index UInt32}
    {linksUpper : List (List ℕ)} {b₁ b₂ b₃ b₄ : Bytes} (hz : Reads readSizes b₁ z)
    (hp : mkParams (Space.ofCode z.sp) z.dim z.maxEl z.m z.efc = .ok p) (hcnt : Reads (le 8) b₂ cnt)
    (hle : cnt ≤ p.maxElements) (hfront : Reads (readFront p z cnt) b₃ idx)
    (hupper : Reads (many (fun _ => readUpper) cnt) b₄ linksUpper) (rest : Bytes) :
    loadFields (b₁ ++ (b₂ ++ (b₃ ++ (b₄ ++ rest)))) = .ok (idx linksUpper) := by
  have hloop : unchecked LoadError.truncated .uninitialised (le 4) (many fun _ => le 4) cnt
      (b₄ ++ rest) = .ok (linksUpper, rest) := by
    have hrun : (many (fun _ => le 4 >>= many fun _ => le 4) cnt).run (b₄ ++ rest) =
        some (linksUpper, rest) := hupper rest
    rw [unchecked_eq, hrun]
  rw [loadFields, hz]
  simp only [hp, hcnt _]
  rw [if_neg (not_lt.mpr hle), hfront]
  simp only [hloop]

/-! ### The loaded index -/

theorem mkParams_self (p : Params) :
    mkParams p.space p.dim p.maxElements p.M p.efConstruction = .ok p := by
  have hd := p.dim_pos
  have hm := p.maxElements_pos
  have hle : p.M ≤ 128 := p.M_le_128
  have hM : ¬ (p.M = 0 ∨ kMaxDegree < p.M * 2 % 2 ^ 64) := by
    have := p.M_pos
    rw [kMaxDegree]
    omega
  have hs : p.dim < 2 ^ 64 ∧ p.maxElements < 2 ^ 64 ∧ p.M < 2 ^ 64 ∧ p.efConstruction < 2 ^ 64 :=
    ⟨p.dim_lt, p.maxElements_lt, by omega, p.ef_lt⟩
  have hef : max p.efConstruction p.M = p.efConstruction := max_eq_left p.M_le_ef
  rw [mkParams, dif_neg (by omega), dif_neg (by omega), dif_neg hM, dif_pos hs, dif_pos (by omega)]
  cases p
  simp only [hef]

/-- The index that `load` builds from the file of `idx`. -/
def Index.reloaded (idx : Index UInt32) : Index UInt32 :=
  assemble idx.params idx.header.read idx.body

/-- The file between the count and the upper links. -/
def Index.frontBytes (idx : Index UInt32) : Bytes :=
  let ids := List.range idx.store.count
  putLE 8 idx.store.numDeleted ++ (putLE 4 (ofInt32 idx.graph.maxLevel) ++
    (putLE 4 idx.graph.entryPoint ++
    ((ids.flatMap fun i => (List.range idx.params.dim).flatMap fun j =>
      putLE 4 (idx.component i j).toNat) ++
    ((ids.flatMap fun i => putLE 4 (ofInt32 (idx.graph.levels i))) ++
    ((ids.flatMap fun i => putLE 8 (idx.store.labels i).clientId.toNat ++
      (putLE 8 (idx.store.labels i).label.toNat ++ [])) ++
    ((ids.flatMap fun i => putLE 1 (if idx.store.deleted i then 1 else 0)) ++
    ((ids.flatMap fun i => (List.range idx.params.strideL0).flatMap fun w =>
      putLE 4 (idx.graph.linksL0 i w)) ++ [])))))))

theorem header_append_body (idx : Index UInt32) : idx.header.bytes ++ idx.bodyBytes =
    idx.header.toSizes.bytes ++ (putLE 8 idx.store.count ++ (idx.frontBytes ++
      (((List.range idx.store.count).flatMap fun i => idx.upperBytes i) ++ []))) := by
  simp only [Header.bytes, Index.header, Index.bodyBytes, Index.frontBytes, List.append_assoc,
    List.nil_append]

theorem header_read {idx : Index UInt32} (hcount : idx.store.count ≤ idx.params.maxElements) :
    idx.header.read = { idx.header.read with cnt := idx.store.count } := by
  have hcnt : idx.store.count % 256 ^ 8 = idx.store.count :=
    Nat.mod_eq_of_lt (lt_of_le_of_lt hcount idx.params.maxElements_lt)
  simp only [Header.read, Index.header, hcnt]

theorem reads_front {idx : Index UInt32} (hcount : idx.store.count ≤ idx.params.maxElements) :
    Reads (readFront idx.params idx.header.read.toSizes idx.store.count) idx.frontBytes
      fun linksUpper =>
        assemble idx.params idx.header.read { idx.body with linksUpper := linksUpper } := by
  rw [header_read hcount]
  exact (reads_le 8 _).bind <| (reads_le 4 _).bind <| (reads_le 4 _).bind <|
    (Reads.many fun _ _ => Reads.many fun _ _ => reads_word _).bind <|
    (Reads.many fun _ _ => Reads.map (reads_le 4 _) toInt32).bind <|
    (Reads.many fun _ _ => reads_label _).bind <|
    (Reads.many fun _ _ => reads_flag _).bind <|
    (Reads.many fun _ _ => Reads.many fun _ _ => reads_le 4 _).bind <| Reads.pure _

theorem load_save_eq (idx : Index UInt32) :
    load idx.save = loadFields (idx.header.bytes ++ idx.bodyBytes) := by
  have hmagic : (le 4).run idx.save =
      some (kMagic, putLE 4 kVersion ++ (idx.header.bytes ++ idx.bodyBytes)) :=
    reads_le_of_lt (by decide) _
  have hversion : (le 4).run (putLE 4 kVersion ++ (idx.header.bytes ++ idx.bodyBytes)) =
      some (kVersion, idx.header.bytes ++ idx.bodyBytes) := reads_le_of_lt (by decide) _
  rw [load, hmagic]
  simp only [ne_eq, not_true_eq_false, if_false, hversion]

/-- The constructor takes the sizes that were written. -/
theorem mkParams_header (idx : Index UInt32) :
    mkParams (Space.ofCode idx.header.read.sp) idx.header.read.dim idx.header.read.maxEl
      idx.header.read.m idx.header.read.efc = .ok idx.params := by
  have hM : idx.params.M < 256 ^ 8 := by
    have := idx.params.M_le
    rw [kMaxDegree] at this
    omega
  have hspace : Space.ofCode (idx.params.space.code % 256 ^ 4) = idx.params.space := by
    cases idx.params.space <;> rfl
  simp only [Header.read, Index.header, hspace, Nat.mod_eq_of_lt hM,
    Nat.mod_eq_of_lt (a := idx.params.dim) (b := 256 ^ 8) idx.params.dim_lt,
    Nat.mod_eq_of_lt (a := idx.params.maxElements) (b := 256 ^ 8) idx.params.maxElements_lt,
    Nat.mod_eq_of_lt (a := idx.params.efConstruction) (b := 256 ^ 8) idx.params.ef_lt]
  exact mkParams_self idx.params

/-- **The file of an index loads**, as long as the count is within the capacity. -/
theorem load_save (idx : Index UInt32) (hcount : idx.store.count ≤ idx.params.maxElements) :
    load idx.save = .ok idx.reloaded := by
  have hcnt : Reads (le 8) (putLE 8 idx.store.count) idx.store.count :=
    reads_le_of_lt (lt_of_le_of_lt hcount idx.params.maxElements_lt)
  rw [load_save_eq, header_append_body]
  exact loadFields_of_reads (reads_sizes idx.header.toSizes) (mkParams_header idx) hcnt hcount
    (reads_front hcount) (reads_uppers idx) []

theorem map_getD_range {α : Type} {l : List α} {n : ℕ} (h : l.length = n) (d : α) :
    ((List.range n).map fun j => l.getD j d) = l := by
  subst h
  apply List.ext_getElem
  · rw [List.length_map, List.length_range]
  · intro j h₁ h₂
    rw [List.getElem_map, List.getElem_range, List.getD_eq_getElem _ _ h₂]

theorem getD_map_range {α : Type} (f : ℕ → α) {n i : ℕ} (h : i < n) (d : α) :
    ((List.range n).map f).getD i d = f i := by
  rw [List.getD_eq_getElem _ _ (by simpa using h), List.getElem_map, List.getElem_range]

/-- What a file is loaded as: the constructor took the sizes, the count is within the capacity, there
are as many vectors, and the label map is that of the labels. -/
theorem loadFields_eq_ok {bs : Bytes} {idx : Index UInt32} (h : loadFields bs = .ok idx) :
    (∃ z rest, readSizes.run bs = some (z, rest) ∧
      mkParams (Space.ofCode z.sp) z.dim z.maxEl z.m z.efc = .ok idx.params) ∧
      idx.store.count ≤ idx.params.maxElements ∧ idx.store.data idx.store.count = [] ∧
        idx.store.labelToId = labelMap idx.store.labels idx.store.count := by
  unfold loadFields at h
  split at h
  · cases h
  next z rest hsizes =>
    split at h
    · cases h
    next p hp =>
      split at h
      · cases h
      split_ifs at h with hcount
      split at h
      · cases h
      next hfront =>
        split at h
        · cases h
        cases h
        simp only [readFront, StateT.run_bind, Option.bind_eq_bind, Option.bind_eq_some_iff,
          Prod.exists] at hfront
        obtain ⟨_, _, -, _, _, -, _, _, -, data, _, hdata, _, _, -, _, _, -, _, _, -, _, _, -,
          hpure⟩ := hfront
        cases hpure
        have hlen := length_many hdata
        exact ⟨⟨z, rest, hsizes, hp⟩, not_lt.mp hcount, List.getD_eq_default _ _ hlen.le, rfl⟩

/-- A file keeps the sizes. -/
theorem params_load_save {idx idx' : Index UInt32} (h : load idx.save = .ok idx') :
    idx'.params = idx.params := by
  rw [load_save_eq] at h
  obtain ⟨⟨z, rest, hz, hp⟩, -⟩ := loadFields_eq_ok h
  rw [header_append_body, reads_sizes] at hz
  cases hz
  exact Except.ok.inj (hp.symm.trans (mkParams_header idx))

/-- **The file of an index loads only** as long as the count is within the capacity. -/
theorem load_save_iff (idx : Index UInt32) :
    load idx.save = .ok idx.reloaded ↔ idx.store.count ≤ idx.params.maxElements := by
  refine ⟨fun h => ?_, load_save idx⟩
  rw [load_save_eq] at h
  obtain ⟨-, hle, hnil, -⟩ := loadFields_eq_ok h
  have hcnt : idx.reloaded.store.count = idx.store.count % 2 ^ 64 := rfl
  rw [hcnt] at hle hnil
  by_cases hlt : idx.store.count < 2 ^ 64
  · rwa [Nat.mod_eq_of_lt hlt] at hle
  -- the vector behind the last one that is read was written, and is not empty
  have hwritten : idx.reloaded.store.data (idx.store.count % 2 ^ 64) =
      (List.range idx.params.dim).map fun j => idx.component (idx.store.count % 2 ^ 64) j :=
    getD_map_range _ (by omega) _
  rw [hwritten, List.map_eq_nil_iff, List.range_eq_nil] at hnil
  exact absurd hnil idx.params.dim_pos.ne'

theorem labelMap_succ (labels : ℕ → Label) (n : ℕ) :
    labelMap labels (n + 1) = Function.update (labelMap labels n) (labels n) (some (n % 2 ^ 32)) := by
  rw [labelMap, List.range_succ, List.foldl_append]
  rfl

/-- The label map only has labels of the array. -/
theorem label_of_labelMap {labels : ℕ → Label} : ∀ {n : ℕ} {k : Label} {i : ℕ},
    labelMap labels n k = some i → ∃ j < n, labels j = k
  | 0, _, _, h => by cases h
  | n + 1, k, i, h => by
      rw [labelMap_succ] at h
      by_cases hk : k = labels n
      · exact ⟨n, Nat.lt_succ_self n, hk.symm⟩
      · rw [Function.update_of_ne hk] at h
        obtain ⟨j, hj, hlabel⟩ := label_of_labelMap h
        exact ⟨j, Nat.lt_succ_of_lt hj, hlabel⟩

/-- The label map that `load` fills finds the position of each label, if no label occurs twice. -/
theorem labelMap_eq_some_iff {labels : ℕ → Label} : ∀ {n : ℕ}, n ≤ 2 ^ 32 →
    Set.InjOn labels (Finset.range n) → ∀ {k : Label} {i : ℕ},
      labelMap labels n k = some i ↔ i < n ∧ labels i = k
  | 0, _, _, k, i => iff_of_false nofun fun h => absurd h.1 (Nat.not_lt_zero i)
  | n + 1, hn, hinj, k, i => by
      have hinj' : Set.InjOn labels (Finset.range n) := hinj.mono fun j hj => by
        simp only [Finset.coe_range, Set.mem_Iio] at hj ⊢
        omega
      rw [labelMap_succ, Nat.mod_eq_of_lt (by omega)]
      by_cases hk : k = labels n
      · subst hk
        rw [Function.update_self]
        constructor
        · intro h
          cases h
          exact ⟨Nat.lt_succ_self n, rfl⟩
        · rintro ⟨hi, hlabel⟩
          rw [hinj (by simpa using hi) (by simp) hlabel]
      · rw [Function.update_of_ne hk, labelMap_eq_some_iff (by omega) hinj']
        constructor
        · exact fun h => ⟨Nat.lt_succ_of_lt h.1, h.2⟩
        · rintro ⟨hi, hlabel⟩
          have : i ≠ n := by
            rintro rfl
            exact hk hlabel.symm
          exact ⟨by omega, hlabel⟩

theorem labels_reloaded {idx : Index UInt32} {i : ℕ} (hi : i < idx.store.count) :
    idx.reloaded.store.labels i = idx.store.labels i := getD_map_range _ hi _

theorem deleted_reloaded {idx : Index UInt32} {i : ℕ} (hi : i < idx.store.count) :
    idx.reloaded.store.deleted i = idx.store.deleted i := getD_map_range _ hi _

theorem count_reloaded_of_le {idx : Index UInt32} (h : idx.store.count ≤ idx.params.maxElements) :
    idx.reloaded.store.count = idx.store.count :=
  Nat.mod_eq_of_lt (lt_of_le_of_lt h idx.params.maxElements_lt)

section reloaded
variable {idx : Index UInt32} (h : idx.store.Good idx.params)
include h

theorem count_reloaded : idx.reloaded.store.count = idx.store.count :=
  count_reloaded_of_le (h.count_le.trans (min_le_left _ _))

theorem data_reloaded {i : ℕ} (hi : i < idx.store.count) :
    idx.reloaded.store.data i = idx.store.data i :=
  (getD_map_range _ hi _).trans (map_getD_range (h.length_data hi) 0)

/-- The loaded label map is the saved one. -/
theorem labelToId_reloaded : idx.reloaded.store.labelToId = idx.store.labelToId := by
  have hinj : Set.InjOn idx.reloaded.store.labels (Finset.range idx.reloaded.store.count) := by
    intro i hi j hj hij
    rw [count_reloaded h, Finset.coe_range, Set.mem_Iio] at hi hj
    rw [labels_reloaded hi, labels_reloaded hj] at hij
    have := h.id_of_label hi
    rw [hij, h.id_of_label hj] at this
    exact (Option.some.inj this).symm
  funext k
  apply Option.ext
  intro i
  have hmap : idx.reloaded.store.labelToId k = some i ↔
      i < idx.reloaded.store.count ∧ idx.reloaded.store.labels i = k :=
    labelMap_eq_some_iff (by
      rw [count_reloaded h]
      exact h.count_le.trans (min_le_right _ _)) hinj
  rw [hmap, count_reloaded h]
  constructor
  · rintro ⟨hi, rfl⟩
    rw [labels_reloaded hi]
    exact h.id_of_label hi
  · intro hk
    obtain ⟨hi, hlabel⟩ := h.label_of_id hk
    exact ⟨hi, (labels_reloaded hi).trans hlabel⟩

/-- **Saving and loading keeps the store**: its invariant, its keys and its key map. -/
theorem reloaded_store :
    idx.reloaded.store.Good idx.params ∧ idx.reloaded.store.keyMap = idx.store.keyMap ∧
      idx.reloaded.store.keys = idx.store.keys := by
  refine ⟨⟨?_, ?_, ?_, ?_⟩, ?_, ?_⟩
  · rw [count_reloaded h]
    exact h.count_le
  · intro k i hi
    rw [labelToId_reloaded h] at hi
    obtain ⟨hlt, hlabel⟩ := h.label_of_id hi
    rw [count_reloaded h, labels_reloaded hlt]
    exact ⟨hlt, hlabel⟩
  · intro i hi
    rw [count_reloaded h] at hi
    rw [labelToId_reloaded h, labels_reloaded hi]
    exact h.id_of_label hi
  · intro i hi
    rw [count_reloaded h] at hi
    rw [data_reloaded h hi]
    exact h.length_data hi
  · funext k
    rw [Store.keyMap, Store.keyMap, labelToId_reloaded h]
    cases hk : idx.store.labelToId k with
    | none => rfl
    | some i =>
        have hi := (h.label_of_id hk).1
        rw [Option.map_some, Option.map_some, data_reloaded h hi, deleted_reloaded hi]
  · rw [Store.keys, Store.keys, count_reloaded h]
    apply Finset.image_congr
    intro i hi
    exact labels_reloaded (Finset.mem_range.mp hi)

end reloaded

end VectorSearch.Hnsw
