import VectorSearch.Hnsw.Snapshot

/-! # Loading a damaged snapshot

`SnapshotFile.load` is `Index::load` on any byte string, with all that the code leaves unchecked.
The stream is asked for an error once, at the end; by then header fields that may not have been read
have sized the arrays, a count that was never compared has filled them, lengths that may not have
been read have sized the upper links, and the sizes of the arrays are products modulo `2 ^ 64`.  The
arrays are kept as the bytes that were read.

`load_safe_iff` says which files are safe: the fields and the lengths that are used are there, the
count is within the capacity, the reads stay within the arrays, and what the file holds is consistent,
for nothing of it is checked.  `damaged_files` are four that are not. -/

open ByteCodec ByteCodec.Reader

namespace VectorSearch.Hnsw

namespace Sizes

/-- `maxM0_` -/
def maxM0 (z : Sizes) : ℕ := z.m * 2 % 2 ^ 64

/-- `strideL0_` -/
def strideL0 (z : Sizes) : ℕ := z.maxM0 + 1

/-- `strideUpper_` -/
def strideUpper (z : Sizes) : ℕ := z.m + 1

/-- The words of `data_`. -/
def dataCap (z : Sizes) : ℕ := z.maxEl * z.dim % 2 ^ 64

/-- The words of `linksL0_`. -/
def linksCap (z : Sizes) : ℕ := z.maxEl * z.strideL0 % 2 ^ 64

/-- The words that are read into `data_`. -/
def dataRead (z : Sizes) (cnt : ℕ) : ℕ := cnt * z.dim % 2 ^ 62

/-- The words that are read into `linksL0_`. -/
def linksRead (z : Sizes) (cnt : ℕ) : ℕ := cnt * z.strideL0 % 2 ^ 62

/-- The bytes of `data_`, `levels_`, `labels_`, `deleted_` and `linksL0_`. -/
def arrays (z : Sizes) : List ℕ :=
  [z.dataCap * 4, z.maxEl * 4, z.maxEl * 16, z.maxEl, z.linksCap * 4]

end Sizes

/-- What `load` throws. -/
inductive Thrown where
  /-- "not an hnsw index file" -/
  | badMagic
  /-- "index snapshot version %d is not supported (expected %d); ..." -/
  | badVersion (version : ℕ)
  /-- what the constructor throws -/
  | invalid (e : InvalidArgument)
  /-- a vector is longer than `max_size()`, or there is no memory for it -/
  | noMemory
  /-- "truncated index file %s" -/
  | truncated
deriving DecidableEq, Repr

/-- What the constructor throws, if anything; `alloc` says whether it gets the memory. -/
def Sizes.refused (alloc : Sizes → Bool) (z : Sizes) : Option Thrown :=
  if z.dim = 0 then some (.invalid .dim)
  else if z.maxEl = 0 then some (.invalid .maxElements)
  else if z.m = 0 ∨ kMaxDegree < z.maxM0 then some (.invalid .M)
  else if (∀ n ∈ z.arrays, n < 2 ^ 63) ∧ alloc z then none
  else some .noMemory

/-- Behind the count: the other header fields, the arrays, and the upper links of each node. -/
structure Content where
  ndel : ℕ
  ml : ℕ
  ep : ℕ
  data : Bytes
  levels : Bytes
  labels : Bytes
  deleted : Bytes
  linksL0 : Bytes
  linksUpper : List Bytes
deriving DecidableEq, Repr

structure SnapshotFile where
  sizes : Sizes
  cnt : ℕ
  content : Content
deriving DecidableEq, Repr

/-- How `load` ends. -/
inductive Loading where
  | accepted (f : SnapshotFile)
  | throws (e : Thrown)
  /-- a header field, or the length of a node's upper links, is used that was not read -/
  | unread
  /-- an array is indexed out of range -/
  | outOfRange
deriving DecidableEq, Repr

namespace SnapshotFile

/-! ### The code -/

/-- The upper links of a node whose length was read. -/
def readWords (n : ℕ) : Reader Bytes := bytes (n * 4)

/-- What follows the count up to the upper links, in the order of the file; those are still missing
in the content. -/
def readFront (z : Sizes) (cnt : ℕ) : Reader (List Bytes → Content) := do
  let ndel ← le 8
  let ml ← le 4
  let ep ← le 4
  let data ← bytes (z.dataRead cnt * 4)
  let levels ← bytes (cnt * 4)
  let labels ← bytes (cnt * 16)
  let deleted ← bytes cnt
  let linksL0 ← bytes (z.linksRead cnt * 4)
  pure (Content.mk ndel ml ep data levels labels deleted linksL0)

/-- A read of so many words into an array of `cap` words runs over its end, when the file still has
`rest` bytes.  As a `streamsize` a longer read is negative, and reads nothing. -/
def Overruns (words cap rest : ℕ) : Prop := words * 4 < 2 ^ 63 ∧ cap < words ∧ cap * 4 < rest

instance (words cap rest : ℕ) : Decidable (Overruns words cap rest) :=
  inferInstanceAs (Decidable (_ ∧ _))

/-- The reads of `data_` and `linksL0_` stay within the arrays, when the file has `rest` bytes behind
the count.  The other arrays have an element for each node, and so few that no size is cut. -/
def StaysInside (z : Sizes) (cnt rest : ℕ) : Prop :=
  cnt ≤ z.maxEl ∧ ¬ Overruns (z.dataRead cnt) z.dataCap (rest - 16) ∧
    ¬ Overruns (z.linksRead cnt) z.linksCap (rest - (16 + z.dataRead cnt * 4 + cnt * 21))

instance (z : Sizes) (cnt rest : ℕ) : Decidable (StaysInside z cnt rest) :=
  inferInstanceAs (Decidable (_ ∧ _))

/-- `load` behind the count.  A count above the capacity runs over `data_`, or else over
`linksUpper_` in the last loop.  Once a read fails the others do nothing; the loop still calls
`resize(n)` for each node, and the error is thrown behind it.  A `resize` gets its memory. -/
def loadContent (z : Sizes) (cnt : ℕ) (bs : Bytes) : Loading :=
  if StaysInside z cnt bs.length then
    match (readFront z cnt).run bs with
    | none => afterFailure (.throws .truncated) .unread cnt
    | some (content, bs) =>
        match unchecked (.throws .truncated) .unread (le 4) readWords cnt bs with
        | .error l => l
        | .ok (linksUpper, _) => .accepted ⟨z, cnt, content linksUpper⟩
  else .outOfRange

/-- `load` behind magic and version. -/
def loadFields (alloc : Sizes → Bool) (bs : Bytes) : Loading :=
  match readSizes.run bs with
  | none => .unread
  | some (z, bs) =>
      match z.refused alloc with
      | some e => .throws e
      | none =>
          match (le 8).run bs with
          | none => .unread
          | some (cnt, bs) => loadContent z cnt bs

/-- `load` -/
def load (alloc : Sizes → Bool) (bs : Bytes) : Loading :=
  match (le 4).run bs with
  | none => .unread
  | some (magic, bs) =>
      if magic ≠ kMagic then .throws .badMagic
      else
        match (le 4).run bs with
        | none => .unread
        | some (version, bs) =>
            if version ≠ kVersion then .throws (.badVersion version) else loadFields alloc bs

/-! ### The representation invariant -/

section
variable (f : SnapshotFile)

/-- `levels_[i]` -/
def level (i : ℕ) : ℤ := toInt32 (getLE (slice f.content.levels (i * 4) (i * 4 + 4)))

/-- `labels_[i]` -/
def label (i : ℕ) : Bytes := slice f.content.labels (i * 16) (i * 16 + 16)

/-- `deleted_[i]` -/
def flag (i : ℕ) : Bool := decide (getLE (slice f.content.deleted i (i + 1)) ≠ 0)

/-- Word `w` of `linkBlock(i, l)`. -/
def word (i l w : ℕ) : ℕ :=
  if l = 0 then
    let at0 := (i * f.sizes.strideL0 + w) * 4
    getLE (slice f.content.linksL0 at0 (at0 + 4))
  else
    let atUpper := ((l - 1) * f.sizes.strideUpper + w) * 4
    getLE (slice (f.content.linksUpper.getD i []) atUpper (atUpper + 4))

/-- The links of node `i` on level `l`. -/
def links (i l : ℕ) : List ℕ := (List.range (f.word i l 0)).map fun j => f.word i l (j + 1)

/-- How many links a node may have on level `l`. -/
def maxDegree (l : ℕ) : ℕ := if l = 0 then f.sizes.maxM0 else f.sizes.m

/-- The representation invariant of an index, as the file gives it. -/
structure Consistent : Prop where
  count_le : f.cnt ≤ f.sizes.maxEl
  entry : f.content.ep < f.cnt ∨ f.cnt = 0 ∧ f.content.ep = kNone
  degree : ∀ i < f.cnt, ∀ l ≤ (f.level i).toNat, f.word i l 0 ≤ f.maxDegree l
  links : ∀ i < f.cnt, ∀ l ≤ (f.level i).toNat, ∀ n ∈ f.links i l,
    n < f.cnt ∧ l ≤ (f.level n).toNat
  upper : ∀ i < f.cnt, (f.content.linksUpper.getD i []).length =
    (f.level i).toNat * f.sizes.strideUpper * 4
  labels : ∀ i < f.cnt, ∀ j < f.cnt, f.label i = f.label j → i = j
  deleted : f.content.ndel = (List.range f.cnt).countP f.flag

end

end SnapshotFile

/-- An error, or an index that keeps the invariant. -/
def Loading.Safe : Loading → Prop
  | .accepted f => f.Consistent
  | .throws _ => True
  | .unread | .outOfRange => False

/-! ### The fields of a file -/

/-- The lengths of the arrays are those that are read. -/
structure Content.Shaped (z : Sizes) (cnt : ℕ) (c : Content) : Prop where
  ndel : c.ndel < 256 ^ 8
  ml : c.ml < 256 ^ 4
  ep : c.ep < 256 ^ 4
  data : c.data.length = z.dataRead cnt * 4
  levels : c.levels.length = cnt * 4
  labels : c.labels.length = cnt * 16
  deleted : c.deleted.length = cnt
  linksL0 : c.linksL0.length = z.linksRead cnt * 4
  linksUpper : c.linksUpper.length = cnt
  words : ∀ b ∈ c.linksUpper, b.length % 4 = 0 ∧ b.length / 4 < 256 ^ 4

/-- The upper links of a node in the file. -/
def upperBytes (b : Bytes) : Bytes := putLE 4 (b.length / 4) ++ b

/-- The content in front of the upper links in the file. -/
def Content.frontBytes (c : Content) : Bytes :=
  putLE 8 c.ndel ++ (putLE 4 c.ml ++ (putLE 4 c.ep ++ (c.data ++ (c.levels ++ (c.labels ++
    (c.deleted ++ (c.linksL0 ++ [])))))))

/-- The content in the file. -/
def Content.bytes (c : Content) : Bytes :=
  putLE 8 c.ndel ++ (putLE 4 c.ml ++ (putLE 4 c.ep ++ (c.data ++ (c.levels ++ (c.labels ++
    (c.deleted ++ (c.linksL0 ++ (c.linksUpper.flatMap upperBytes ++ []))))))))

namespace SnapshotFile

/-- What follows the count, in a file that has it all. -/
def readContent (z : Sizes) (cnt : ℕ) : Reader Content := do
  let content ← readFront z cnt
  let linksUpper ← many (fun _ => le 4 >>= readWords) cnt
  pure (content linksUpper)

theorem bytes_content (c : Content) :
    c.bytes = c.frontBytes ++ (c.linksUpper.flatMap upperBytes ++ []) := by
  simp only [Content.bytes, Content.frontBytes, List.append_assoc, List.nil_append]

theorem reads_readFront {z : Sizes} {cnt : ℕ} {c : Content} (hc : c.Shaped z cnt) :
    Reads (readFront z cnt) c.frontBytes
      (Content.mk c.ndel c.ml c.ep c.data c.levels c.labels c.deleted c.linksL0) :=
  ((exact_le 8).reads hc.ndel).bind <| ((exact_le 4).reads hc.ml).bind <|
    ((exact_le 4).reads hc.ep).bind <| ((exact_bytes _).reads hc.data).bind <|
    ((exact_bytes _).reads hc.levels).bind <| ((exact_bytes _).reads hc.labels).bind <|
    ((exact_bytes _).reads hc.deleted).bind <| ((exact_bytes _).reads hc.linksL0).bind <|
    Reads.pure _

theorem extends_readFront (z : Sizes) (cnt : ℕ) : Extends (readFront z cnt) :=
  (exact_le 8).extends.bind fun _ => (exact_le 4).extends.bind fun _ =>
    (exact_le 4).extends.bind fun _ => (exact_bytes _).extends.bind fun _ =>
    (exact_bytes _).extends.bind fun _ => (exact_bytes _).extends.bind fun _ =>
    (exact_bytes _).extends.bind fun _ => (exact_bytes _).extends.bind fun _ => Extends.pure _

theorem exact_readUpper :
    Exact (le 4 >>= readWords) upperBytes fun b => b.length % 4 = 0 ∧ b.length / 4 < 256 ^ 4 := by
  intro bs b rest
  rw [StateT.run_bind]
  constructor
  · intro h
    obtain ⟨⟨n, mid⟩, hn, hb⟩ := Option.bind_eq_some_iff.mp h
    obtain ⟨hlt, rfl⟩ := (exact_le 4 _ _ _).mp hn
    obtain ⟨hlen, hmid⟩ := (exact_bytes _ _ _ _).mp hb
    dsimp only at hlen hmid
    subst hmid
    refine ⟨⟨by omega, by rw [hlen]; omega⟩, ?_⟩
    rw [upperBytes, hlen, Nat.mul_div_cancel n (by decide), List.append_assoc]
  · rintro ⟨⟨hmod, hlt⟩, rfl⟩
    rw [upperBytes, List.append_assoc, (exact_le 4).reads hlt]
    have hlen : b.length = b.length / 4 * 4 := by omega
    exact (exact_bytes _).reads hlen rest

/-- **The content is read off exactly the files that begin with it.** -/
theorem exact_readContent (z : Sizes) (cnt : ℕ) :
    Exact (readContent z cnt) Content.bytes (Content.Shaped z cnt) := by
  intro bs c rest
  constructor
  · intro h
    simp only [readContent, readFront, StateT.run_bind, Option.bind_eq_bind,
      Option.bind_eq_some_iff, Prod.exists, bind_assoc, pure_bind] at h
    obtain ⟨ndel, b₁, h₁, ml, b₂, h₂, ep, b₃, h₃, data, b₄, h₄, levels, b₅, h₅, labels, b₆, h₆,
      deleted, b₇, h₇, links, b₈, h₈, upper, b₉, h₉, hpure⟩ := h
    cases hpure
    obtain ⟨hndel, rfl⟩ := (exact_le 8 _ _ _).mp h₁
    obtain ⟨hml, rfl⟩ := (exact_le 4 _ _ _).mp h₂
    obtain ⟨hep, rfl⟩ := (exact_le 4 _ _ _).mp h₃
    obtain ⟨hdata, rfl⟩ := (exact_bytes _ _ _ _).mp h₄
    obtain ⟨hlevels, rfl⟩ := (exact_bytes _ _ _ _).mp h₅
    obtain ⟨hlabels, rfl⟩ := (exact_bytes _ _ _ _).mp h₆
    obtain ⟨hdeleted, rfl⟩ := (exact_bytes _ _ _ _).mp h₇
    obtain ⟨hlinks, rfl⟩ := (exact_bytes _ _ _ _).mp h₈
    obtain ⟨⟨hupper, hwords⟩, rfl⟩ := (exact_readUpper.many cnt _ _ _).mp h₉
    refine ⟨⟨hndel, hml, hep, hdata, hlevels, hlabels, hdeleted, hlinks, hupper, hwords⟩, ?_⟩
    simp only [Content.bytes, List.append_assoc, List.nil_append]
  · rintro ⟨hc, rfl⟩
    have hreads : Reads (readContent z cnt) c.bytes c := by
      rw [bytes_content]
      exact (reads_readFront hc).bind <|
        ((exact_readUpper.many cnt).reads ⟨hc.linksUpper, hc.words⟩).bind <| Reads.pure _
    exact hreads rest

theorem run_le (w : ℕ) (bs : Bytes) : (le w).run bs =
    if w ≤ bs.length then some (getLE (slice bs 0 w), bs.drop w) else none := rfl

/-- The header fields behind magic and version, in a file that has them. -/
def sizesOf (bs : Bytes) : Sizes where
  sp := getLE (slice bs 8 12)
  dim := getLE (slice bs 12 20)
  maxEl := getLE (slice bs 20 28)
  m := getLE (slice bs 28 36)
  efc := getLE (slice bs 36 44)

theorem run_readSizes (bs : Bytes) : readSizes.run (bs.drop 8) =
    if 44 ≤ bs.length then some (sizesOf bs, bs.drop 44) else none := by
  by_cases h : 44 ≤ bs.length
  · rw [if_pos h]
    simp (disch := omega) only [readSizes, StateT.run_bind, run_le, slice_drop, List.drop_drop,
      List.length_drop, if_pos, Option.bind_eq_bind, Option.bind_some]
    rfl
  · rw [if_neg h]
    simp only [readSizes, StateT.run_bind, run_le, List.drop_drop, List.length_drop,
      Option.bind_eq_bind, Option.bind_eq_none_iff, Option.ite_none_right_eq_some]
    rintro _ ⟨-, ⟨⟩⟩ _ ⟨-, ⟨⟩⟩ _ ⟨-, ⟨⟩⟩ _ ⟨-, ⟨⟩⟩ _ ⟨hlast, ⟨⟩⟩
    simp only [List.length_drop] at hlast
    omega

/-! ### The files that are safe -/

/-- No length of upper links is used that was not read: there is no node, or the file goes on to the
length of the last one. -/
def LengthsRead (z : Sizes) (cnt : ℕ) (bs : Bytes) : Prop :=
  cnt = 0 ∨ ((do
    let _ ← readFront z cnt
    untilLast (le 4) readWords cnt : Reader Unit).run bs).isSome

instance (z : Sizes) (cnt : ℕ) (bs : Bytes) : Decidable (LengthsRead z cnt bs) :=
  inferInstanceAs (Decidable (_ ∨ _))

/-- The fields and lengths that `load` uses are there, the reads stay within the arrays, and what
the file holds is consistent. -/
def SafeFile (alloc : Sizes → Bool) (bs : Bytes) : Prop :=
  4 ≤ bs.length ∧ (getLE (slice bs 0 4) ≠ kMagic ∨
    8 ≤ bs.length ∧ (getLE (slice bs 4 8) ≠ kVersion ∨
      44 ≤ bs.length ∧ ((sizesOf bs).refused alloc ≠ none ∨
        52 ≤ bs.length ∧
          StaysInside (sizesOf bs) (getLE (slice bs 44 52)) (bs.length - 52) ∧
            LengthsRead (sizesOf bs) (getLE (slice bs 44 52)) (bs.drop 52) ∧
              ∀ c rest, c.Shaped (sizesOf bs) (getLE (slice bs 44 52)) →
                bs.drop 52 = c.bytes ++ rest →
                  Consistent ⟨sizesOf bs, getLE (slice bs 44 52), c⟩)))

section
variable {z : Sizes} {cnt : ℕ} {bs : Bytes}

theorem lengthsRead_of_short (h : (readFront z cnt).run bs = none) :
    LengthsRead z cnt bs ↔ cnt = 0 := by
  unfold LengthsRead
  rw [StateT.run_bind, h]
  exact or_iff_left Bool.false_ne_true

theorem lengthsRead_of_front {x : (List Bytes → Content) × Bytes}
    (h : (readFront z cnt).run bs = some x) :
    LengthsRead z cnt bs ↔ ((untilLast (le 4) readWords cnt).run x.2).isSome := by
  unfold LengthsRead
  rw [StateT.run_bind, h]
  refine or_iff_right_of_imp ?_
  rintro rfl
  rfl

/-- A file with all the content has the lengths. -/
theorem lengthsRead_of_content {x : Content × Bytes} (h : (readContent z cnt).run bs = some x) :
    LengthsRead z cnt bs := by
  obtain ⟨front, hfront, hupper⟩ := Option.bind_eq_some_iff.mp h
  obtain ⟨upper, hupper, -⟩ := Option.bind_eq_some_iff.mp hupper
  exact (lengthsRead_of_front hfront).mpr (untilLast_of_many hupper)

end

/-- What `load` does behind the count, by what can be read. -/
theorem loadContent_eq (z : Sizes) (cnt : ℕ) (bs : Bytes) : loadContent z cnt bs =
    if StaysInside z cnt bs.length then
      match (readContent z cnt).run bs with
      | some (c, _) => .accepted ⟨z, cnt, c⟩
      | none => if LengthsRead z cnt bs then .throws .truncated else .unread
    else .outOfRange := by
  unfold loadContent
  by_cases hinside : StaysInside z cnt bs.length
  · rw [if_pos hinside, if_pos hinside]
    unfold readContent
    simp only [StateT.run_bind, Option.bind_eq_bind]
    cases hfront : (readFront z cnt).run bs with
    | none =>
        simp only [Option.bind_none, lengthsRead_of_short hfront]
        cases cnt with
        | zero => rfl
        | succ n => rfl
    | some x =>
        simp only [unchecked_eq, Option.bind_some, lengthsRead_of_front hfront]
        cases (many (fun _ => le 4 >>= readWords) cnt).run x.2 with
        | some y => rfl
        | none => cases (untilLast (le 4) readWords cnt).run x.2 <;> rfl
  · rw [if_neg hinside, if_neg hinside]

theorem loadContent_safe_iff (z : Sizes) (cnt : ℕ) (bs : Bytes) : (loadContent z cnt bs).Safe ↔
    StaysInside z cnt bs.length ∧ LengthsRead z cnt bs ∧
      ∀ c rest, c.Shaped z cnt → bs = c.bytes ++ rest → Consistent ⟨z, cnt, c⟩ := by
  rw [loadContent_eq]
  by_cases hinside : StaysInside z cnt bs.length
  · rw [if_pos hinside, and_iff_right hinside]
    have hexact := exact_readContent z cnt bs
    cases hrun : (readContent z cnt).run bs with
    | none =>
        have hnone : ∀ c rest, c.Shaped z cnt → bs = c.bytes ++ rest → Consistent ⟨z, cnt, c⟩ := by
          intro c rest hc hbs
          have hsome := (hexact c rest).mpr ⟨hc, hbs⟩
          rw [hrun] at hsome
          cases hsome
        by_cases hlengths : LengthsRead z cnt bs
        · simp only [if_pos hlengths]
          exact iff_of_true trivial ⟨hlengths, hnone⟩
        · simp only [if_neg hlengths]
          exact iff_of_false id fun h => hlengths h.1
    | some cr =>
        obtain ⟨c, rest⟩ := cr
        rw [and_iff_right (lengthsRead_of_content hrun)]
        constructor
        · intro h c' rest' hc hbs
          have hsome := (hexact c' rest').mpr ⟨hc, hbs⟩
          rw [hrun] at hsome
          cases hsome
          exact h
        · intro h
          obtain ⟨hc, hbs⟩ := (hexact c rest).mp hrun
          exact h c rest hc hbs
  · rw [if_neg hinside]
    exact iff_of_false id fun h => hinside h.1

variable (alloc : Sizes → Bool) (bs : Bytes)

theorem loadFields_safe_iff : (loadFields alloc (bs.drop 8)).Safe ↔
    44 ≤ bs.length ∧ ((sizesOf bs).refused alloc ≠ none ∨
      52 ≤ bs.length ∧ StaysInside (sizesOf bs) (getLE (slice bs 44 52)) (bs.length - 52) ∧
        LengthsRead (sizesOf bs) (getLE (slice bs 44 52)) (bs.drop 52) ∧
        ∀ c rest, c.Shaped (sizesOf bs) (getLE (slice bs 44 52)) → bs.drop 52 = c.bytes ++ rest →
          Consistent ⟨sizesOf bs, getLE (slice bs 44 52), c⟩) := by
  unfold loadFields
  rw [run_readSizes]
  by_cases h44 : 44 ≤ bs.length
  · rw [if_pos h44, and_iff_right h44]
    simp only
    cases (sizesOf bs).refused alloc with
    | some e => exact iff_of_true trivial (Or.inl nofun)
    | none =>
        simp only [run_le, List.length_drop, slice_drop, List.drop_drop]
        rw [or_iff_right (fun h => h rfl)]
        by_cases h52 : 52 ≤ bs.length
        · rw [if_pos (by omega), and_iff_right h52]
          simp only
          rw [loadContent_safe_iff, List.length_drop]
        · rw [if_neg (by omega)]
          exact iff_of_false id fun h => h52 h.1
  · rw [if_neg h44]
    exact iff_of_false id fun h => h44 h.1

/-- **What load makes of a file is safe exactly when the file is**, whatever its bytes. -/
theorem load_safe_iff : (load alloc bs).Safe ↔ SafeFile alloc bs := by
  unfold load SafeFile
  rw [run_le]
  by_cases h4 : 4 ≤ bs.length
  · rw [if_pos h4, and_iff_right h4]
    simp only [run_le, List.length_drop, slice_drop, List.drop_drop]
    by_cases hmagic : getLE (slice bs 0 4) = kMagic
    · simp only [hmagic, ne_eq, not_true_eq_false, if_false, false_or]
      by_cases h8 : 8 ≤ bs.length
      · rw [if_pos (by omega), and_iff_right h8]
        by_cases hversion : getLE (slice bs 4 8) = kVersion
        · simp only [hversion, not_true_eq_false, if_false, false_or]
          exact loadFields_safe_iff alloc bs
        · simp only [hversion, not_false_eq_true, if_true, true_or]
          exact iff_of_true trivial trivial
      · rw [if_neg (by omega)]
        exact iff_of_false id fun h => h8 h.1
    · simp only [hmagic, ne_eq, not_false_eq_true, if_true, true_or]
      exact iff_of_true trivial trivial
  · rw [if_neg h4]
    exact iff_of_false id fun h => h4 h.1

variable {alloc : Sizes → Bool} {bs : Bytes}

/-- A header that is there is used. -/
theorem load_of_header (hlen : 52 ≤ bs.length) (hmagic : getLE (slice bs 0 4) = kMagic)
    (hversion : getLE (slice bs 4 8) = kVersion) (hsizes : (sizesOf bs).refused alloc = none) :
    load alloc bs = loadContent (sizesOf bs) (getLE (slice bs 44 52)) (bs.drop 52) := by
  have hsize := run_readSizes bs
  rw [if_pos (by omega)] at hsize
  simp (disch := omega) only [load, run_le, if_pos, hmagic, List.length_drop, slice_drop, hversion,
    ne_eq, not_true_eq_false, if_false, List.drop_drop, loadFields, hsize, hsizes]

/-- A good header that breaks off in front of its count is used as well. -/
theorem load_of_short (hlen : bs.length < 52) (hmagic : 4 ≤ bs.length → getLE (slice bs 0 4) = kMagic)
    (hversion : 8 ≤ bs.length → getLE (slice bs 4 8) = kVersion)
    (hsizes : 44 ≤ bs.length → (sizesOf bs).refused alloc = none) : load alloc bs = .unread := by
  unfold load
  rw [run_le]
  by_cases h4 : 4 ≤ bs.length
  · simp only [if_pos h4, hmagic h4, ne_eq, not_true_eq_false, if_false, run_le, List.length_drop,
      slice_drop, List.drop_drop]
    by_cases h8 : 8 ≤ bs.length
    · rw [if_pos (by omega)]
      simp only [hversion h8, not_true_eq_false, if_false, loadFields]
      have hsize := run_readSizes bs
      by_cases h44 : 44 ≤ bs.length
      · rw [if_pos h44] at hsize
        simp only [hsize, hsizes h44, run_le, List.length_drop]
        rw [if_neg (by omega)]
      · rw [if_neg h44] at hsize
        simp only [hsize]
    · rw [if_neg (by omega)]
  · rw [if_neg h4]

end SnapshotFile

/-! ### The files that save writes -/

theorem putLE_mod (w n : ℕ) : putLE w (n % 256 ^ w) = putLE w n := by
  have h := putLE_getLE (putLE w n)
  rwa [length_putLE, getLE_putLE] at h

/-- The fields fit their places in the file. -/
structure Sizes.Fits (z : Sizes) : Prop where
  sp : z.sp < 256 ^ 4
  dim : z.dim < 256 ^ 8
  maxEl : z.maxEl < 256 ^ 8
  m : z.m < 256 ^ 8
  efc : z.efc < 256 ^ 8

/-- A file with the given fields. -/
def SnapshotFile.bytes (f : SnapshotFile) : Bytes :=
  putLE 4 kMagic ++ (putLE 4 kVersion ++ (f.sizes.bytes ++ (putLE 8 f.cnt ++ f.content.bytes)))

/-- The sizes of the arrays are those of the elements, none of them cut. -/
structure Sizes.Plain (z : Sizes) : Prop where
  m : z.m * 2 < 2 ^ 64
  data : z.maxEl * z.dim * 4 < 2 ^ 63
  labels : z.maxEl * 16 < 2 ^ 63
  links : z.maxEl * z.strideL0 * 4 < 2 ^ 63

/-- In plain arrays no read is cut. -/
theorem Sizes.Plain.dataRead {z : Sizes} (h : z.Plain) {cnt : ℕ} (hcnt : cnt ≤ z.maxEl) :
    z.dataRead cnt = cnt * z.dim := by
  have hle := Nat.mul_le_mul_right z.dim hcnt
  have hlt := h.data
  exact Nat.mod_eq_of_lt (by omega)

theorem Sizes.Plain.linksRead {z : Sizes} (h : z.Plain) {cnt : ℕ} (hcnt : cnt ≤ z.maxEl) :
    z.linksRead cnt = cnt * z.strideL0 := by
  have hle := Nat.mul_le_mul_right z.strideL0 hcnt
  have hlt := h.links
  exact Nat.mod_eq_of_lt (by omega)

theorem Sizes.Plain.strideL0_eq {z : Sizes} (h : z.Plain) : z.strideL0 = z.m * 2 + 1 := by
  rw [Sizes.strideL0, Sizes.maxM0, Nat.mod_eq_of_lt h.m]

namespace Index

variable (idx : Index UInt32)

def sizes : Sizes where
  sp := idx.params.space.code
  dim := idx.params.dim
  maxEl := idx.params.maxElements
  m := idx.params.M
  efc := idx.params.efConstruction

/-- The words of the upper link list of node `i`. -/
def upperWords (i : ℕ) : Bytes :=
  (List.range (idx.graph.upperSize i % 2 ^ 32)).flatMap fun j => putLE 4 (idx.upperWord i j)

def content : Content where
  ndel := idx.store.numDeleted % 256 ^ 8
  ml := ofInt32 idx.graph.maxLevel % 256 ^ 4
  ep := idx.graph.entryPoint % 256 ^ 4
  data := (List.range idx.store.count).flatMap fun i =>
    (List.range idx.params.dim).flatMap fun j => putLE 4 (idx.component i j).toNat
  levels := (List.range idx.store.count).flatMap fun i => putLE 4 (ofInt32 (idx.graph.levels i))
  labels := (List.range idx.store.count).flatMap fun i =>
    putLE 8 (idx.store.labels i).clientId.toNat ++ (putLE 8 (idx.store.labels i).label.toNat ++ [])
  deleted := (List.range idx.store.count).flatMap fun i =>
    putLE 1 (if idx.store.deleted i then 1 else 0)
  linksL0 := (List.range idx.store.count).flatMap fun i =>
    (List.range idx.params.strideL0).flatMap fun w => putLE 4 (idx.graph.linksL0 i w)
  linksUpper := (List.range idx.store.count).map idx.upperWords

end Index

namespace SnapshotFile

variable {idx : Index UInt32}

theorem length_upperWords (idx : Index UInt32) (i : ℕ) :
    (idx.upperWords i).length = idx.graph.upperSize i % 2 ^ 32 * 4 :=
  length_flatMap_range (fun _ => length_putLE _ _) _

theorem save_eq (idx : Index UInt32) :
    idx.save = (⟨idx.sizes, idx.store.count, idx.content⟩ : SnapshotFile).bytes := by
  have hupper : ∀ i, upperBytes (idx.upperWords i) = idx.upperBytes i := by
    intro i
    rw [upperBytes, length_upperWords, Nat.mul_div_cancel _ (by decide)]
    rfl
  simp only [SnapshotFile.bytes, Index.save, Index.bodyBytes, Header.bytes, Index.header, Sizes.bytes,
    Index.sizes, Content.bytes, Index.content, putLE_mod, List.flatMap_map, hupper,
    List.append_assoc, List.nil_append]

theorem exact_readSizes : Exact readSizes Sizes.bytes Sizes.Fits := by
  intro bs z rest
  constructor
  · intro h
    simp only [readSizes, StateT.run_bind, Option.bind_eq_bind, Option.bind_eq_some_iff,
      Prod.exists] at h
    obtain ⟨sp, b₁, h₁, dim, b₂, h₂, maxEl, b₃, h₃, m, b₄, h₄, efc, b₅, h₅, hpure⟩ := h
    cases hpure
    obtain ⟨hsp, rfl⟩ := (exact_le 4 _ _ _).mp h₁
    obtain ⟨hdim, rfl⟩ := (exact_le 8 _ _ _).mp h₂
    obtain ⟨hmaxEl, rfl⟩ := (exact_le 8 _ _ _).mp h₃
    obtain ⟨hm, rfl⟩ := (exact_le 8 _ _ _).mp h₄
    obtain ⟨hefc, rfl⟩ := (exact_le 8 _ _ _).mp h₅
    refine ⟨⟨hsp, hdim, hmaxEl, hm, hefc⟩, ?_⟩
    simp only [Sizes.bytes, List.append_assoc, List.nil_append]
  · rintro ⟨hz, rfl⟩
    have hreads : Reads readSizes z.bytes z :=
      ((exact_le 4).reads hz.sp).bind <| ((exact_le 8).reads hz.dim).bind <|
        ((exact_le 8).reads hz.maxEl).bind <| ((exact_le 8).reads hz.m).bind <|
        ((exact_le 8).reads hz.efc).bind <| Reads.pure _
    exact hreads rest

theorem fits_sizes (idx : Index UInt32) : idx.sizes.Fits := by
  have hsp : idx.params.space.code < 256 ^ 4 := by cases idx.params.space <;> decide
  have hM : idx.params.M < 256 ^ 8 := by
    have hle := idx.params.M_le
    rw [kMaxDegree] at hle
    omega
  exact ⟨hsp, idx.params.dim_lt, idx.params.maxElements_lt, hM, idx.params.ef_lt⟩

theorem length_sizes_bytes (z : Sizes) : z.bytes.length = 36 := by
  simp only [Sizes.bytes, List.length_append, length_putLE, List.length_nil]

/-- The header fields of a file that `save` writes. -/
theorem fields_save (hcount : idx.store.count < 2 ^ 64) :
    getLE (slice idx.save 0 4) = kMagic ∧ getLE (slice idx.save 4 8) = kVersion ∧
      sizesOf idx.save = idx.sizes ∧ getLE (slice idx.save 44 52) = idx.store.count ∧
        idx.save.drop 52 = idx.content.bytes ∧ 52 ≤ idx.save.length := by
  have hlen : 52 ≤ idx.save.length := by
    simp only [save_eq, SnapshotFile.bytes, List.length_append, length_putLE, length_sizes_bytes]
    omega
  let atCount := putLE 8 idx.store.count ++ idx.content.bytes
  let atSizes := idx.sizes.bytes ++ atCount
  have hmagic : (le 4).run idx.save = some (kMagic, putLE 4 kVersion ++ atSizes) := by
    rw [save_eq]
    exact reads_le_of_lt (by decide) _
  rw [run_le, if_pos (by omega)] at hmagic
  obtain ⟨hm, hrest₁⟩ := Prod.mk.inj (Option.some.inj hmagic)
  have hversion : (le 4).run (idx.save.drop 4) = some (kVersion, atSizes) := by
    rw [hrest₁]
    exact reads_le_of_lt (by decide) _
  rw [run_le, if_pos (by rw [List.length_drop]; omega), slice_drop, List.drop_drop] at hversion
  obtain ⟨hv, hrest₂⟩ := Prod.mk.inj (Option.some.inj hversion)
  have hsizes : readSizes.run (idx.save.drop 8) = some (idx.sizes, atCount) := by
    rw [hrest₂]
    exact exact_readSizes.reads (fits_sizes idx) _
  rw [run_readSizes, if_pos (by omega)] at hsizes
  obtain ⟨hs, hrest₃⟩ := Prod.mk.inj (Option.some.inj hsizes)
  have hcnt : (le 8).run (idx.save.drop 44) = some (idx.store.count, idx.content.bytes) := by
    rw [hrest₃]
    exact reads_le_of_lt hcount _
  rw [run_le, if_pos (by rw [List.length_drop]; omega), slice_drop, List.drop_drop] at hcnt
  obtain ⟨hc, hrest₄⟩ := Prod.mk.inj (Option.some.inj hcnt)
  exact ⟨hm, hv, hs, hc, hrest₄, hlen⟩

/-- The content that `save` writes has the lengths that are read. -/
theorem shaped_content (hplain : idx.sizes.Plain)
    (hcount : idx.store.count ≤ idx.params.maxElements) :
    idx.content.Shaped idx.sizes idx.store.count where
  ndel := Nat.mod_lt _ (by decide)
  ml := Nat.mod_lt _ (by decide)
  ep := Nat.mod_lt _ (by decide)
  data := by
    have hread : idx.sizes.dataRead idx.store.count = idx.store.count * idx.params.dim :=
      hplain.dataRead hcount
    rw [hread, Nat.mul_assoc]
    exact length_flatMap_range
      (fun _ => length_flatMap_range (fun _ => length_putLE _ _) _) _
  levels := length_flatMap_range (fun _ => length_putLE _ _) _
  labels := length_flatMap_range (fun _ => by
    simp only [List.length_append, length_putLE, List.length_nil]) _
  deleted := by
    have hlen := length_flatMap_range (w := 1)
      (f := fun i => putLE 1 (if idx.store.deleted i then 1 else 0)) (fun _ => length_putLE _ _)
      idx.store.count
    rwa [Nat.mul_one] at hlen
  linksL0 := by
    have hread : idx.sizes.linksRead idx.store.count = idx.store.count * idx.params.strideL0 := by
      rw [hplain.linksRead hcount, hplain.strideL0_eq]
      rfl
    rw [hread, Nat.mul_assoc]
    exact length_flatMap_range
      (fun _ => length_flatMap_range (fun _ => length_putLE _ _) _) _
  linksUpper := by rw [Index.content, List.length_map, List.length_range]
  words b hb := by
    obtain ⟨i, -, rfl⟩ := List.mem_map.mp hb
    rw [length_upperWords, Nat.mul_mod_left, Nat.mul_div_cancel _ (by decide)]
    exact ⟨rfl, Nat.mod_lt _ (by decide)⟩

/-- In a plain file no read runs over an array. -/
theorem staysInside_of_plain {z : Sizes} (hplain : z.Plain) {cnt : ℕ} (hcnt : cnt ≤ z.maxEl)
    (rest : ℕ) : StaysInside z cnt rest := by
  have hdata : z.dataRead cnt ≤ z.dataCap := by
    have hlt := hplain.data
    rw [hplain.dataRead hcnt, Sizes.dataCap, Nat.mod_eq_of_lt (by omega)]
    exact Nat.mul_le_mul_right z.dim hcnt
  have hlinks : z.linksRead cnt ≤ z.linksCap := by
    have hlt := hplain.links
    rw [hplain.linksRead hcnt, Sizes.linksCap, Nat.mod_eq_of_lt (by omega)]
    exact Nat.mul_le_mul_right z.strideL0 hcnt
  exact ⟨hcnt, fun h => absurd h.2.1 (not_lt.mpr hdata), fun h => absurd h.2.1 (not_lt.mpr hlinks)⟩

theorem slice_take (bs : Bytes) {n a b : ℕ} (h : b ≤ n) : slice (bs.take n) a b = slice bs a b := by
  rw [slice, slice, List.drop_take, List.take_take, min_eq_left (by omega)]

/-- How far a content that breaks off has the lengths. -/
theorem lengthsRead_of_append_eq {z : Sizes} {cnt : ℕ} {c : Content} (hc : c.Shaped z cnt)
    {bs more : Bytes} (hbs : bs ++ more = c.bytes) : LengthsRead z cnt bs ↔
      cnt = 0 ∨ c.bytes.length ≤ bs.length + (c.linksUpper.getD (cnt - 1) []).length := by
  cases cnt with
  | zero => exact iff_of_true (Or.inl rfl) (Or.inl rfl)
  | succ n =>
      obtain hnil | ⟨init, b, hlinks⟩ := List.eq_nil_or_concat c.linksUpper
      · have hlen := hc.linksUpper
        rw [hnil] at hlen
        cases hlen
      rw [List.concat_eq_append] at hlinks
      obtain ⟨hinit, hlast⟩ : init.length = n ∧ c.linksUpper.getD n [] = b := by
        have hlen := hc.linksUpper
        rw [hlinks, List.length_append, List.length_singleton] at hlen
        obtain rfl : init.length = n := Nat.add_right_cancel hlen
        exact ⟨rfl, by rw [hlinks, List.getD_append_right _ _ _ _ le_rfl, Nat.sub_self]; rfl⟩
      let front := c.frontBytes ++ (init.flatMap upperBytes ++ (putLE 4 (b.length / 4) ++ []))
      have hwhole : c.bytes = front ++ b := by
        simp only [front, bytes_content, hlinks, List.flatMap_append, List.flatMap_singleton,
          upperBytes, List.append_assoc, List.append_nil]
      have hwords : ∀ a ∈ init ++ [b], a.length % 4 = 0 ∧ a.length / 4 < 256 ^ 4 := hlinks ▸ hc.words
      have hreads : Reads (do
          let _ ← readFront z (n + 1)
          untilLast (le 4) readWords (n + 1)) front () :=
        (reads_readFront hc).bind <| ((exact_readUpper.many n).reads ⟨hinit, fun a ha =>
          hwords a (List.mem_append_left _ ha)⟩).bind <|
        ((exact_le 4).reads (hwords b (List.mem_append_right _ (List.mem_singleton_self b))).2).bind <|
        Reads.pure ()
      have hextends : Extends (do
          let _ ← readFront z (n + 1)
          untilLast (le 4) readWords (n + 1)) :=
        (extends_readFront z (n + 1)).bind fun _ =>
          Extends.untilLast (exact_le 4).extends (fun k => (exact_bytes (k * 4)).extends) _
      rw [hwhole] at hbs
      rw [hwhole, List.length_append, Nat.add_sub_cancel, hlast, Nat.add_le_add_iff_right,
        ← hextends.isSome_run_iff hreads hbs]
      rfl

/-- **A file that breaks off** is refused from the length of the last node's upper links on, or from
its count on if there is no node; before that a value is used that is not there. -/
theorem load_take_save {alloc : Sizes → Bool} (hplain : idx.sizes.Plain)
    (hcount : idx.store.count ≤ idx.params.maxElements)
    (halloc : idx.sizes.refused alloc = none) {n : ℕ} (hn : n < idx.save.length) :
    load alloc (idx.save.take n) =
      if n < 52 ∨ 0 < idx.store.count ∧
        n + (idx.upperWords (idx.store.count - 1)).length < idx.save.length then .unread
      else .throws .truncated := by
  obtain ⟨hmagic, hversion, hsizes, hcnt, hcontent, hlen⟩ :=
    fields_save (lt_of_le_of_lt hcount idx.params.maxElements_lt)
  have htake : (idx.save.take n).length = n := List.length_take_of_le hn.le
  have hsizesOf : 44 ≤ n → sizesOf (idx.save.take n) = idx.sizes := by
    intro h44
    rw [← hsizes]
    simp (disch := omega) only [sizesOf, slice_take]
  by_cases hshort : n < 52
  · rw [if_pos (Or.inl hshort)]
    refine load_of_short (by rwa [htake]) (fun h => ?_) (fun h => ?_) fun h => ?_
    · rw [slice_take _ (by omega), hmagic]
    · rw [slice_take _ (by omega), hversion]
    · rw [hsizesOf (by omega), halloc]
  · have hheader : load alloc (idx.save.take n) =
        loadContent idx.sizes idx.store.count ((idx.save.take n).drop 52) := by
      rw [load_of_header (by omega) (by rw [slice_take _ (by omega), hmagic])
        (by rw [slice_take _ (by omega), hversion]) (by rw [hsizesOf (by omega), halloc]),
        hsizesOf (by omega), slice_take _ (by omega), hcnt]
    have hparts : (idx.save.take n).drop 52 ++ idx.save.drop n = idx.content.bytes := by
      rw [← hcontent, ← List.drop_append_of_le_length (by omega), List.take_append_drop]
    have hmore : idx.save.drop n ≠ [] := by
      rw [ne_eq, List.drop_eq_nil_iff, not_le]
      exact hn
    have hshaped := shaped_content hplain hcount
    have hexact := exact_readContent idx.sizes idx.store.count
    have hnone := hexact.extends.breaks_off (hexact.reads hshaped) hparts hmore
    have hlengths : LengthsRead idx.sizes idx.store.count ((idx.save.take n).drop 52) ↔
        ¬ (n < 52 ∨ 0 < idx.store.count ∧
          n + (idx.upperWords (idx.store.count - 1)).length < idx.save.length) := by
      rw [lengthsRead_of_append_eq hshaped hparts, ← hcontent, List.length_drop, List.length_drop, htake]
      obtain h0 | hpos := Nat.eq_zero_or_pos idx.store.count
      · simp only [h0, true_or, hshort, lt_irrefl, false_and, or_self, not_false_eq_true]
      · have hlast : idx.content.linksUpper.getD (idx.store.count - 1) [] =
            idx.upperWords (idx.store.count - 1) := getD_map_range _ (by omega) _
        rw [hlast]
        omega
    rw [hheader, loadContent_eq, if_pos (staysInside_of_plain hplain hcount _), hnone]
    simp only [hlengths, ite_not]

/-- The file of an index for one node without any, but with another count or entry point. -/
def emptyFile (cnt ep : ℕ) : SnapshotFile where
  sizes := ⟨1, 1, 1, 2, 2⟩
  cnt := cnt
  content := ⟨0, 0, ep, [], [], [], [], [], []⟩

/-- **Files that are not safe**: one that breaks off inside the header, one that breaks off behind
the header though it announces a node, one with more nodes than capacity, and one that is accepted
with an entry point that no node has. -/
theorem damaged_files :
    load (fun _ => true) ((emptyFile 0 kNone).bytes.take 20) = .unread ∧
      load (fun _ => true) (emptyFile 1 0).bytes = .unread ∧
      load (fun _ => true) (emptyFile 2 0).bytes = .outOfRange ∧
        load (fun _ => true) (emptyFile 0 5).bytes = .accepted (emptyFile 0 5) ∧
          ¬ (load (fun _ => true) (emptyFile 0 5).bytes).Safe := by
  have haccepted : load (fun _ => true) (emptyFile 0 5).bytes = .accepted (emptyFile 0 5) := by
    decide +kernel
  refine ⟨by decide +kernel, by decide +kernel, by decide +kernel, haccepted, fun h => ?_⟩
  rw [haccepted] at h
  obtain hlt | ⟨-, hnone⟩ := h.entry
  · exact absurd hlt (Nat.not_lt_zero 5)
  · exact absurd hnone (by decide)

end SnapshotFile

end VectorSearch.Hnsw
