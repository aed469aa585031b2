import VectorSearch.Hnsw.KeyStore

/-! # The C interface and the Go package over it

The calls of `hnsw_c.cpp` turn exceptions and booleans into return codes, and `go/hnsw` turns the
codes into errors.  `hnsw_add` tells a full index from a duplicate label by a word in the exception
text, so `addCode_full` and `addCode_duplicate` evaluate the search for it.

`goAdd_of_length`, `goMarkDeleted_eq` and `goUnmarkDeleted_eq` put the layers together: the index
and the error that each Go call returns. -/

namespace VectorSearch.Hnsw

/-- The `HNSW_*` return codes. -/
inductive ReturnCode where
  | ok
  | errGeneric
  | errNull
  | errFull
  | errNotFound
  | errDuplicate
deriving DecidableEq, Repr

/-- `msg.find(word) != std::string::npos` -/
def contains (msg word : String) : Bool := decide (word.toList <:+: msg.toList)

/-- The code of an exception in `hnsw_add`. -/
def addCode (e : AddError) : ReturnCode :=
  if contains e.what "full" then .errFull
  else if contains e.what "duplicate" then .errDuplicate
  else .errGeneric

@[simp] theorem addCode_full : addCode .full = .errFull := by decide

@[simp] theorem addCode_duplicate : addCode .duplicate = .errDuplicate := by decide

/-- The errors of the Go package. -/
inductive Err where
  /-- "hnsw: expected %d dims, got %d" -/
  | dims (want got : ℕ)
  /-- "hnsw: label already exists" -/
  | duplicateLabel
  /-- "hnsw: label not found" -/
  | notFound
  /-- "hnsw: index is full" -/
  | full
  /-- "hnsw: %s", with the message of the C layer -/
  | last (msg : String)
deriving DecidableEq, Repr

/-- The error `Add` returns for what `addPoint` throws. -/
def addErr : AddError → Err
  | .duplicate => .duplicateLabel
  | .full => .full

namespace Index
variable {F : Type} [Platform F]

/-- `hnsw_add` and the message it sets. -/
def hnswAdd (idx : Index F) (vec : List F) (label : Label) : Index F × ReturnCode × String :=
  match idx.addPoint vec label with
  | (idx', .ok _) => (idx', .ok, "")
  | (idx', .error e) => (idx', addCode e, e.what)

/-- `hnsw_mark_deleted` -/
def hnswMarkDeleted (idx : Index F) (label : Label) : Index F × ReturnCode × String :=
  match idx.markDeleted label with
  | (idx', true) => (idx', .ok, "")
  | (idx', false) => (idx', .errNotFound, "label not found or already deleted")

/-- `hnsw_unmark_deleted` -/
def hnswUnmarkDeleted (idx : Index F) (label : Label) : Index F × ReturnCode × String :=
  match idx.unmarkDeleted label with
  | (idx', true) => (idx', .ok, "")
  | (idx', false) => (idx', .errNotFound, "label not found or not currently deleted")

/-- `Index.Add` of the Go package. -/
def goAdd (idx : Index F) (vec : List F) (key : Label) : Index F × Except Err Unit :=
  if vec.length ≠ idx.params.dim then (idx, .error (.dims idx.params.dim vec.length))
  else
    match idx.hnswAdd vec key with
    | (idx', .ok, _) => (idx', .ok ())
    | (idx', .errDuplicate, _) => (idx', .error .duplicateLabel)
    | (idx', .errFull, _) => (idx', .error .full)
    | (idx', _, msg) => (idx', .error (.last msg))

/-- `Index.MarkDeleted` of the Go package. -/
def goMarkDeleted (idx : Index F) (key : Label) : Index F × Except Err Unit :=
  match idx.hnswMarkDeleted key with
  | (idx', .ok, _) => (idx', .ok ())
  | (idx', .errNotFound, _) => (idx', .error .notFound)
  | (idx', _, msg) => (idx', .error (.last msg))

/-- `Index.UnmarkDeleted` of the Go package. -/
def goUnmarkDeleted (idx : Index F) (key : Label) : Index F × Except Err Unit :=
  match idx.hnswUnmarkDeleted key with
  | (idx', .ok, _) => (idx', .ok ())
  | (idx', .errNotFound, _) => (idx', .error .notFound)
  | (idx', _, msg) => (idx', .error (.last msg))

/-- `hnsw_search`: what it writes to the buffers, and the number of results as an `int`. -/
def hnswSearch (idx : Index F) (query : List F) (k ef : ℕ) : List (Label × F) × Int32 :=
  (idx.search query k ef, Int32.ofNat (idx.search query k ef).length)

/-- `Index.Search` of the Go package; no message is set for a count that became negative. -/
def goSearch (idx : Index F) (query : List F) (k ef : ℕ) : Except Err (List (Label × F)) :=
  if query.length ≠ idx.params.dim then .error (.dims idx.params.dim query.length)
  else
    let (results, n) := idx.hnswSearch query k (max ef k)
    if n < 0 then .error (.last "unknown error") else .ok (results.take n.toInt.toNat)

/-! ### The errors of the calls -/

theorem goAdd_of_length {idx : Index F} {vec : List F} (hlen : vec.length = idx.params.dim)
    (key : Label) :
    idx.goAdd vec key = ((idx.addPoint vec key).1,
      match (idx.addPoint vec key).2 with
      | .ok _ => .ok ()
      | .error e => .error (addErr e)) := by
  rw [goAdd, if_neg (by simpa using hlen), hnswAdd]
  cases h : idx.addPoint vec key with
  | mk idx' res =>
      cases res with
      | ok id => rfl
      | error e => cases e <;> simp only [addCode_full, addCode_duplicate, addErr]

omit [Platform F] in
theorem goMarkDeleted_eq (idx : Index F) (key : Label) :
    idx.goMarkDeleted key = ({ idx with store := (idx.store.markDeleted key).1 },
      if (idx.store.markDeleted key).2 then .ok () else .error .notFound) := by
  rw [goMarkDeleted, hnswMarkDeleted, markDeleted]
  cases (idx.store.markDeleted key).2 <;> rfl

omit [Platform F] in
theorem goUnmarkDeleted_eq (idx : Index F) (key : Label) :
    idx.goUnmarkDeleted key = ({ idx with store := (idx.store.unmarkDeleted key).1 },
      if (idx.store.unmarkDeleted key).2 then .ok () else .error .notFound) := by
  rw [goUnmarkDeleted, hnswUnmarkDeleted, unmarkDeleted]
  cases (idx.store.unmarkDeleted key).2 <;> rfl

end Index

end VectorSearch.Hnsw
