import VectorSearch.Hnsw.Bounds
import VectorSearch.Hnsw.DamagedSnapshot

/-! # The index that a file gives

`load` of `Hnsw/Snapshot.lean` builds an index and leaves the arithmetic of the array sizes out;
`SnapshotFile.load` of `Hnsw/DamagedSnapshot.lean` has it and keeps the bytes.

`load_eq_accepted_iff` says which byte strings the second accepts as which file.  Where the sizes
are plain the first then loads them too, to an index that holds what the file gives
(`load_of_accepted`).  If the file is consistent and its entry point is on its top level, every
access of every search of that index is in range (`searchM_loaded`). -/

open ByteCodec ByteCodec.Reader

namespace VectorSearch.Hnsw

/-! ### The files that are accepted -/

namespace SnapshotFile

/-- The fields fit their places, and the arrays have the lengths that are read. -/
structure Shaped (f : SnapshotFile) : Prop where
  sizes : f.sizes.Fits
  cnt : f.cnt < 256 ^ 8
  content : f.content.Shaped f.sizes f.cnt

variable {alloc : Sizes → Bool} {bs : Bytes} {f : SnapshotFile}

theorem loadContent_eq_accepted_iff {z : Sizes} {cnt : ℕ} :
    loadContent z cnt bs = .accepted f ↔ f.sizes = z ∧ f.cnt = cnt ∧ f.content.Shaped z cnt ∧
      StaysInside z cnt bs.length ∧ ∃ rest, bs = f.content.bytes ++ rest := by
  rw [loadContent_eq]
  by_cases hinside : StaysInside z cnt bs.length
  · rw [if_pos hinside]
    have hexact := exact_readContent z cnt bs
    constructor
    · intro h
      cases hrun : (readContent z cnt).run bs with
      | none =>
          rw [hrun] at h
          dsimp only at h
          split_ifs at h
      | some cr =>
          rw [hrun] at h
          cases h
          obtain ⟨hshaped, hbs⟩ := (hexact cr.1 cr.2).mp hrun
          exact ⟨rfl, rfl, hshaped, hinside, cr.2, hbs⟩
    · rintro ⟨rfl, rfl, hshaped, -, rest, hbs⟩
      rw [(hexact f.content rest).mpr ⟨hshaped, hbs⟩]
  · rw [if_neg hinside]
    exact iff_of_false Loading.noConfusion fun h => hinside h.2.2.2.1

theorem loadFields_eq_accepted_iff : loadFields alloc bs = .accepted f ↔
    f.Shaped ∧ f.sizes.refused alloc = none ∧
      ∃ rest, StaysInside f.sizes f.cnt (f.content.bytes ++ rest).length ∧
        bs = f.sizes.bytes ++ (putLE 8 f.cnt ++ (f.content.bytes ++ rest)) := by
  unfold loadFields
  constructor
  · intro h
    cases hsizes : readSizes.run bs with
    | none =>
        rw [hsizes] at h
        cases h
    | some x =>
        obtain ⟨z, bs₁⟩ := x
        obtain ⟨hfits, rfl⟩ := (exact_readSizes _ _ _).mp hsizes
        simp only [hsizes] at h
        cases hrefused : z.refused alloc with
        | some e =>
            rw [hrefused] at h
            cases h
        | none =>
            simp only [hrefused] at h
            cases hcnt : (le 8).run bs₁ with
            | none =>
                rw [hcnt] at h
                cases h
            | some x =>
                obtain ⟨cnt, bs₂⟩ := x
                obtain ⟨hlt, rfl⟩ := (exact_le 8 _ _ _).mp hcnt
                simp only [hcnt] at h
                obtain ⟨rfl, rfl, hcontent, hinside, rest, rfl⟩ :=
                  loadContent_eq_accepted_iff.mp h
                exact ⟨⟨hfits, hlt, hcontent⟩, hrefused, rest, hinside, rfl⟩
  · rintro ⟨hshaped, hrefused, rest, hinside, rfl⟩
    have hsizes := exact_readSizes.reads hshaped.sizes (putLE 8 f.cnt ++ (f.content.bytes ++ rest))
    have hcnt := reads_le_of_lt hshaped.cnt (f.content.bytes ++ rest)
    simp only [hsizes, hrefused, hcnt]
    exact loadContent_eq_accepted_iff.mpr ⟨rfl, rfl, hshaped.content, hinside, rest, rfl⟩

theorem bytes_append (f : SnapshotFile) (rest : Bytes) : f.bytes ++ rest = putLE 4 kMagic ++
    (putLE 4 kVersion ++ (f.sizes.bytes ++ (putLE 8 f.cnt ++ (f.content.bytes ++ rest)))) := by
  simp only [SnapshotFile.bytes, List.append_assoc]

/-- The two words that a file opens with are read back. -/
theorem reads_opening (bs : Bytes) :
    (le 4).run (putLE 4 kMagic ++ (putLE 4 kVersion ++ bs)) = some (kMagic, putLE 4 kVersion ++ bs) ∧
      (le 4).run (putLE 4 kVersion ++ bs) = some (kVersion, bs) :=
  ⟨reads_le_of_lt (by decide) _, reads_le_of_lt (by decide) bs⟩

/-- **What is accepted**: the bytes of a file that the constructor takes, whose reads stay within
the arrays, and anything behind them. -/
theorem load_eq_accepted_iff : load alloc bs = .accepted f ↔
    f.Shaped ∧ f.sizes.refused alloc = none ∧
      ∃ rest, StaysInside f.sizes f.cnt (f.content.bytes ++ rest).length ∧ bs = f.bytes ++ rest := by
  unfold load
  constructor
  · intro h
    cases hmagic : (le 4).run bs with
    | none =>
        rw [hmagic] at h
        cases h
    | some x =>
        obtain ⟨magic, bs₁⟩ := x
        obtain ⟨-, rfl⟩ := (exact_le 4 _ _ _).mp hmagic
        simp only [hmagic] at h
        split_ifs at h with hmagic'
        cases hversion : (le 4).run bs₁ with
        | none =>
            rw [hversion] at h
            cases h
        | some x =>
            obtain ⟨version, bs₂⟩ := x
            obtain ⟨-, rfl⟩ := (exact_le 4 _ _ _).mp hversion
            simp only [hversion] at h
            split_ifs at h with hversion'
            obtain ⟨hshaped, hrefused, rest, hinside, rfl⟩ := loadFields_eq_accepted_iff.mp h
            refine ⟨hshaped, hrefused, rest, hinside, ?_⟩
            rw [not_ne_iff.mp hmagic', not_ne_iff.mp hversion', bytes_append]
  · rintro ⟨hshaped, hrefused, rest, hinside, rfl⟩
    obtain ⟨hmagic, hversion⟩ :=
      reads_opening (f.sizes.bytes ++ (putLE 8 f.cnt ++ (f.content.bytes ++ rest)))
    rw [bytes_append, hmagic]
    simp only [hversion, ne_eq, not_true_eq_false, if_false]
    exact loadFields_eq_accepted_iff.mpr ⟨hshaped, hrefused, rest, hinside, rfl⟩

/-- The file that `save` writes is accepted as what was written. -/
theorem accepted_save {idx : Index UInt32} (hplain : idx.sizes.Plain)
    (hcount : idx.store.count ≤ idx.params.maxElements) (halloc : idx.sizes.refused alloc = none) :
    load alloc idx.save = .accepted ⟨idx.sizes, idx.store.count, idx.content⟩ := by
  have hcnt : idx.store.count < 256 ^ 8 := lt_of_le_of_lt hcount idx.params.maxElements_lt
  refine load_eq_accepted_iff.mpr ⟨⟨fits_sizes idx, hcnt, shaped_content hplain hcount⟩, halloc, [],
    staysInside_of_plain hplain hcount _, ?_⟩
  rw [List.append_nil, save_eq]

/-! ### The loaded index -/

/-- The header that the items are loaded with. -/
def header (f : SnapshotFile) : Header where
  sp := f.sizes.sp
  dim := f.sizes.dim
  maxEl := f.sizes.maxEl
  m := f.sizes.m
  efc := f.sizes.efc
  cnt := f.cnt
  ndel := f.content.ndel
  ml := toInt32 f.content.ml
  ep := f.content.ep

/-- The vector of node `i`. -/
def vector (f : SnapshotFile) (i : ℕ) : List UInt32 :=
  let at0 := i * (f.sizes.dim * 4)
  (getWords 4 f.sizes.dim (slice f.content.data at0 (at0 + f.sizes.dim * 4))).map UInt32.ofNat

/-- `labels_[i]` as a label. -/
def labelOf (f : SnapshotFile) (i : ℕ) : Label where
  clientId := UInt64.ofNat (getLE (slice (f.label i) 0 8))
  label := UInt64.ofNat (getLE (slice (f.label i) 8 16))

/-- The words of `linksL0_` of node `i`. -/
def block0 (f : SnapshotFile) (i : ℕ) : List ℕ :=
  let at0 := i * (f.sizes.strideL0 * 4)
  getWords 4 f.sizes.strideL0 (slice f.content.linksL0 at0 (at0 + f.sizes.strideL0 * 4))

/-- The items of the arrays. -/
def body (f : SnapshotFile) : Body where
  data := (List.range f.cnt).map f.vector
  levels := (List.range f.cnt).map f.level
  labels := (List.range f.cnt).map f.labelOf
  deleted := (List.range f.cnt).map f.flag
  linksL0 := (List.range f.cnt).map f.block0
  linksUpper := (List.range f.cnt).map fun i =>
    let b := f.content.linksUpper.getD i []
    getWords 4 (b.length / 4) b

/-- The index that the file gives. -/
def index (f : SnapshotFile) (p : Params) : Index UInt32 := assemble p f.header f.body

theorem reads_getWord {c : Bytes} (h : c.length = 4) :
    Reads (UInt32.ofNat <$> le 4) c (UInt32.ofNat (getLE c)) := (reads_getLE h).map UInt32.ofNat

theorem reads_vector {c : Bytes} {dim : ℕ} (h : c.length = dim * 4) :
    Reads (many (fun _ => UInt32.ofNat <$> le 4) dim) c ((getWords 4 dim c).map UInt32.ofNat) := by
  have hchunks := Reads.chunks (fun _ => reads_getWord) h
  rwa [getWords, List.map_map]

theorem reads_labelOf {c : Bytes} (h : c.length = 16) : Reads readLabel c
    ⟨UInt64.ofNat (getLE (slice c 0 8)), UInt64.ofNat (getLE (slice c 8 16))⟩ := by
  have hsplit : c = slice c 0 8 ++ (slice c 8 16 ++ []) := by
    rw [List.append_nil, slice_append_slice _ (by decide) (by decide), slice, List.drop_zero,
      List.take_of_length_le (by omega)]
  have hfirst : (slice c 0 8).length = 8 := length_slice (by omega)
  have hsecond : (slice c 8 16).length = 8 := length_slice (by omega)
  have hreads : Reads readLabel (slice c 0 8 ++ (slice c 8 16 ++ []))
      ⟨UInt64.ofNat (getLE (slice c 0 8)), UInt64.ofNat (getLE (slice c 8 16))⟩ :=
    (reads_getLE hfirst).bind <| (reads_getLE hsecond).bind <| Reads.pure _
  rwa [← hsplit] at hreads

theorem reads_readUpper {b : Bytes} (hmod : b.length % 4 = 0) (hlt : b.length / 4 < 256 ^ 4) :
    Reads readUpper (upperBytes b) (getWords 4 (b.length / 4) b) :=
  (reads_le_of_lt hlt).bind (Reads.chunks (fun _ => reads_getLE) (by omega))

theorem flatMap_upperBytes {bss : List Bytes} {n : ℕ} (h : bss.length = n) :
    bss.flatMap upperBytes = (List.range n).flatMap fun i => upperBytes (bss.getD i []) := by
  conv_lhs => rw [← map_getD_range h [], List.flatMap_map]

/-- The front of the file is read as the items of the arrays. -/
theorem reads_items {p : Params} (hf : f.Shaped) (hplain : f.sizes.Plain)
    (hcnt : f.cnt ≤ f.sizes.maxEl) (hdim : p.dim = f.sizes.dim)
    (hstride : p.strideL0 = f.sizes.strideL0) :
    Reads (Hnsw.readFront p f.sizes f.cnt) f.content.frontBytes fun linksUpper =>
      assemble p f.header { f.body with linksUpper := linksUpper } := by
  have hc := hf.content
  have hdata : f.content.data.length = f.cnt * (f.sizes.dim * 4) := by
    rw [hc.data, hplain.dataRead hcnt, Nat.mul_assoc]
  have hlinks : f.content.linksL0.length = f.cnt * (f.sizes.strideL0 * 4) := by
    rw [hc.linksL0, hplain.linksRead hcnt, Nat.mul_assoc]
  have hdeleted : Reads (many (fun _ => (fun b => decide (b ≠ 0)) <$> le 1) f.cnt) f.content.deleted
      ((List.range f.cnt).map f.flag) := by
    have hchunks := Reads.chunks (fun _ h => (reads_getLE h).map fun b => decide (b ≠ 0))
      (hc.deleted.trans (Nat.mul_one _).symm)
    simp only [Nat.mul_one] at hchunks
    exact hchunks
  unfold Hnsw.readFront Content.frontBytes
  rw [hdim, hstride]
  exact (reads_le_of_lt hc.ndel).bind <| (reads_le_of_lt hc.ml).bind <|
    (reads_le_of_lt hc.ep).bind <| (Reads.chunks (fun _ => reads_vector) hdata).bind <|
    (Reads.chunks (fun _ h => (reads_getLE h).map toInt32) hc.levels).bind <|
    (Reads.chunks (fun _ => reads_labelOf) hc.labels).bind <|
    hdeleted.bind <| (Reads.chunks (fun _ => Reads.chunks fun _ => reads_getLE) hlinks).bind <|
    Reads.pure _

theorem reads_upperLinks (hf : f.Shaped) : Reads (many (fun _ => readUpper) f.cnt)
    (f.content.linksUpper.flatMap upperBytes) f.body.linksUpper := by
  have hc := hf.content
  rw [flatMap_upperBytes hc.linksUpper]
  refine Reads.many fun i hi => ?_
  rw [← hc.linksUpper] at hi
  obtain ⟨hmod, hlt⟩ := hc.words _ (List.getElem_mem hi)
  rw [List.getD_eq_getElem _ _ hi]
  exact reads_readUpper hmod hlt

theorem mkParams_of_refused {z : Sizes} (hz : z.Fits) (hm : z.m * 2 < 2 ^ 64)
    (h : z.refused alloc = none) :
    ∃ p, mkParams (Space.ofCode z.sp) z.dim z.maxEl z.m z.efc = .ok p := by
  unfold Sizes.refused at h
  split_ifs at h with hdim hmax hM
  rw [Sizes.maxM0] at hM
  unfold mkParams
  rw [dif_neg hdim, dif_neg hmax, dif_neg hM, dif_pos ⟨hz.dim, hz.maxEl, hz.m, hz.efc⟩,
    dif_pos (by omega)]
  exact ⟨_, rfl⟩

/-- **A plain file that is accepted loads**, to the index that it gives. -/
theorem load_of_accepted (h : load alloc bs = .accepted f) (hplain : f.sizes.Plain) :
    ∃ p, mkParams (Space.ofCode f.sizes.sp) f.sizes.dim f.sizes.maxEl f.sizes.m f.sizes.efc = .ok p ∧
      Hnsw.load bs = .ok (f.index p) := by
  obtain ⟨hf, hrefused, rest, hinside, rfl⟩ := load_eq_accepted_iff.mp h
  obtain ⟨p, hp⟩ := mkParams_of_refused hf.sizes hplain.m hrefused
  refine ⟨p, hp, ?_⟩
  obtain ⟨-, hdim, hmax, hM⟩ := mkParams_ok hp
  have hstride : p.strideL0 = f.sizes.strideL0 := by
    rw [hplain.strideL0_eq, ← hM]
    rfl
  obtain ⟨hmagic, hversion⟩ :=
    reads_opening (f.sizes.bytes ++ (putLE 8 f.cnt ++ (f.content.bytes ++ rest)))
  rw [Hnsw.load, bytes_append, hmagic]
  simp only [hversion, ne_eq, not_true_eq_false, if_false]
  rw [bytes_content, List.append_nil, List.append_assoc]
  exact loadFields_of_reads (exact_readSizes.reads hf.sizes) hp (reads_le_of_lt hf.cnt)
    (hmax ▸ hinside.1) (reads_items hf hplain hinside.1 hdim hstride) (reads_upperLinks hf) rest

/-! ### Its words -/

theorem slice_slice (bs : Bytes) {a b c d : ℕ} (h : a + d ≤ b) :
    slice (slice bs a b) c d = slice bs (a + c) (a + d) := by
  rw [slice.eq_def bs a b, slice_take _ (by omega), slice_drop]

/-- Behind the last word there are none. -/
theorem getD_getWords {b : Bytes} (hmod : b.length % 4 = 0) (j : ℕ) :
    (getWords 4 (b.length / 4) b).getD j 0 = getLE (slice b (j * 4) (j * 4 + 4)) := by
  by_cases hj : j < b.length / 4
  · exact getD_map_range _ hj 0
  · have hlen : (getWords 4 (b.length / 4) b).length ≤ j := by
      rw [getWords, List.length_map, List.length_range]
      omega
    rw [List.getD_eq_default _ _ hlen, slice, List.drop_of_length_le (by omega), List.take_nil]
    rfl

variable {p : Params} {i : ℕ}

theorem levels_index (f : SnapshotFile) (p : Params) (hi : i < f.cnt) :
    (f.index p).graph.levels i = f.level i := getD_map_range _ hi _

theorem linksL0_index (f : SnapshotFile) (p : Params) (hi : i < f.cnt) {w : ℕ}
    (hw : w < f.sizes.strideL0) : (f.index p).graph.linksL0 i w = f.word i 0 w := by
  have hblock : (f.body.linksL0.getD i []).getD w 0 = (f.block0 i).getD w 0 := by
    rw [body, getD_map_range _ hi]
  have hword : (f.block0 i).getD w 0 = getLE (slice f.content.linksL0
      (i * (f.sizes.strideL0 * 4) + w * 4) (i * (f.sizes.strideL0 * 4) + (w * 4 + 4))) := by
    rw [block0, getWords, getD_map_range _ hw, slice_slice _ (by omega)]
  have hplace : i * (f.sizes.strideL0 * 4) + w * 4 = (i * f.sizes.strideL0 + w) * 4 := by ring
  rw [word, if_pos rfl, ← hplace]
  exact hblock.trans hword

theorem linksUpper_index (hf : f.Shaped) (hM : p.M = f.sizes.m) (hi : i < f.cnt) (l : ℕ) {w : ℕ}
    (hw : w < p.strideUpper) : (f.index p).graph.linksUpper i l w = f.word i (l + 1) w := by
  have hstride : p.strideUpper = f.sizes.strideUpper := congrArg (· + 1) hM
  have hmod : (f.content.linksUpper.getD i []).length % 4 = 0 := by
    have hlen := hf.content.linksUpper
    rw [List.getD_eq_getElem _ _ (hlen.symm ▸ hi)]
    exact (hf.content.words _ (List.getElem_mem _)).1
  have hlinks : (f.index p).graph.linksUpper i l w =
      (f.body.linksUpper.getD i []).getD (l * p.strideUpper + w) 0 := if_pos hw
  rw [hlinks, body, getD_map_range _ hi, getD_getWords hmod, word, if_neg (Nat.succ_ne_zero l),
    hstride]
  rfl

theorem linkBlock_index (hf : f.Shaped) (hM : p.M = f.sizes.m)
    (hi : i < f.cnt) {l w : ℕ} (hw : w ≤ f.maxDegree l) :
    (f.index p).graph.linkBlock i l w = f.word i l w := by
  unfold maxDegree at hw
  unfold Graph.linkBlock
  cases l with
  | zero =>
      rw [if_pos rfl] at hw
      rw [if_pos Nat.cast_zero]
      exact linksL0_index f p hi (Nat.lt_succ_of_le hw)
  | succ l =>
      rw [if_neg (Nat.succ_ne_zero l), ← hM] at hw
      have hdown : ((l + 1 : ℕ) - 1 : ℤ).toNat = l := by omega
      rw [if_neg (by omega), hdown]
      exact linksUpper_index hf hM hi l (Nat.lt_succ_of_le hw)

theorem upperSize_index (hM : p.M = f.sizes.m) (hi : i < f.cnt)
    (hupper : (f.content.linksUpper.getD i []).length =
      (f.level i).toNat * f.sizes.strideUpper * 4) :
    (f.index p).graph.upperSize i = (f.level i).toNat * p.strideUpper := by
  have hstride : p.strideUpper = f.sizes.strideUpper := congrArg (· + 1) hM
  have hsize : (f.index p).graph.upperSize i = (f.body.linksUpper.getD i []).length := rfl
  rw [hsize, body, getD_map_range _ hi, getWords, List.length_map, List.length_range, hupper,
    Nat.mul_div_cancel _ (by decide), hstride]

theorem maxDegree_eq (hplain : f.sizes.Plain) (hM : p.M = f.sizes.m) (l : ℕ) :
    f.maxDegree l = p.maxDegree l := by
  have hM0 : f.sizes.maxM0 = p.maxM0 := by
    rw [Sizes.maxM0, Nat.mod_eq_of_lt hplain.m, ← hM]
    rfl
  unfold maxDegree Params.maxDegree
  rw [hM0, ← hM]
  simp only [Nat.cast_eq_zero]
  rfl

/-! ### Searching it -/

theorem arraysFit_of_plain (hplain : f.sizes.Plain) (hdim : p.dim = f.sizes.dim)
    (hmax : p.maxElements = f.sizes.maxEl) (hstride : p.strideL0 = f.sizes.strideL0) :
    p.ArraysFit := by
  have hdata := hplain.data
  have hlinks := hplain.links
  rw [← hmax, ← hdim] at hdata
  rw [← hmax, ← hstride] at hlinks
  exact ⟨by omega, by omega⟩

/-- The nodes of each level of a consistent file are ready. -/
theorem Consistent.ready (h : f.Consistent) (hf : f.Shaped) (hplain : f.sizes.Plain)
    (hp : mkParams (Space.ofCode f.sizes.sp) f.sizes.dim f.sizes.maxEl f.sizes.m f.sizes.efc = .ok p)
    (l : ℕ) : Graph.Ready p (f.index p).graph l fun a => a < f.cnt ∧ l ≤ (f.level a).toNat := by
  obtain ⟨-, hdim, hmax, hM⟩ := mkParams_ok hp
  have hstride : p.strideL0 = f.sizes.strideL0 := by
    rw [hplain.strideL0_eq, ← hM]
    rfl
  have hfit := arraysFit_of_plain hplain hdim hmax hstride
  rintro a ⟨ha, hla⟩
  have hlt : a < p.maxElements := hmax ▸ lt_of_lt_of_le ha h.count_le
  have hdeg := h.degree a ha l hla
  have hword : ∀ w ≤ f.maxDegree l, (f.index p).graph.linkBlock a l w = f.word a l w :=
    fun w hw => linkBlock_index hf hM ha hw
  have hneighbors : (f.index p).graph.neighbors a l = f.links a l := by
    unfold Graph.neighbors Block.neighbors SnapshotFile.links
    rw [hword 0 (Nat.zero_le _)]
    apply List.map_congr_left
    intro j hj
    rw [List.mem_range] at hj
    exact hword (j + 1) (by omega)
  refine ⟨hfit.hasSlot hlt, Graph.HasBlock.of_fit hfit hlt
    (upperSize_index hM ha (h.upper a ha)) (by omega) ?_, fun v hv => ?_⟩
  · rw [hword 0 (Nat.zero_le _)]
    exact hdeg.trans (maxDegree_eq hplain hM l).le
  · rw [hneighbors] at hv
    exact h.links a ha l hla v hv

/-- **Every search of a consistent file stays in range**, if its entry point is on its top level. -/
theorem searchM_loaded [Platform UInt32] (h : load alloc bs = .accepted f) (hplain : f.sizes.Plain)
    (hconsistent : f.Consistent)
    (htop : 0 < f.cnt → 0 ≤ toInt32 f.content.ml ∧ toInt32 f.content.ml ≤ f.level f.content.ep) :
    ∃ idx, Hnsw.load bs = .ok idx ∧
      ∀ query k ef, idx.searchM query k ef = some (idx.search query k ef) := by
  obtain ⟨p, hp, hload⟩ := load_of_accepted h hplain
  have hready := hconsistent.ready (load_eq_accepted_iff.mp h).1 hplain hp
  refine ⟨f.index p, hload, Index.searchM_eq_of_ready
    (T := fun l a => a < f.cnt ∧ l ≤ (f.level a).toNat) (fun l v hv => ⟨hv.1, by omega⟩) hready
    fun hpos => ?_⟩
  obtain ⟨hmax, hle⟩ := htop hpos
  refine ⟨hmax, ?_, Int.toNat_le_toNat hle⟩
  obtain hentry | ⟨hnone, -⟩ := hconsistent.entry
  · exact hentry
  · exact absurd hnone (Nat.ne_of_gt hpos)

end SnapshotFile

end VectorSearch.Hnsw
