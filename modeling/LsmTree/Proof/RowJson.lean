import LsmTree.Proof.ZeroJson
import LsmTree.Spec.Recall

/-!
# The JSON of one-dimensional documents

Documents of a table, each with one whole number as its embedding, are written as `json.dumps`
does, and read back by comparing with the table. Floats are whole numbers here: what is computed with
those of the tables below is exact.
-/

namespace LsmTree

open Base VectorStore

namespace RowJson

/-- A document without metadata; its strings need no escapes. -/
structure Row where
  docId : Bytes
  text : Bytes
  entry : ℤ
  deriving DecidableEq

/-- What follows the id in a payload. -/
def Row.rest (r : Row) : Bytes :=
  bytes ", \"doc_id\": \"" ++ (r.docId ++ (bytes "\", \"text\": \"" ++ (r.text ++ (bytes "\", \"embedding\": [" ++
    (decimalInt r.entry ++ bytes ".0], \"metadata\": \x7b\x7d\x7d")))))

def Row.payload (id : ℕ) (r : Row) : Bytes := idPart ++ (decimal id ++ r.rest)

/-- The chunk that goes with it. -/
def Row.chunk (r : Row) : ChunkDict ℤ (List Bytes) :=
  ⟨some r.docId, some 0, some r.text, some [], some (some [r.entry])⟩

def Row.chunkText (r : Row) : Bytes :=
  bytes "\x7b\"doc_id\": \"" ++ r.docId ++ bytes "\", \"chunk_id\": 0, \"text\": \"" ++ r.text ++
    bytes "\", \"metadata\": \x7b\x7d, \"embedding\": [" ++ decimalInt r.entry ++ bytes ".0]\x7d"

/-- Different rows are written differently. -/
structure Table where
  rows : List Row
  differ : ∀ r ∈ rows, ∀ r' ∈ rows, r.rest = r'.rest ∨ r.chunkText = r'.chunkText → r = r'

/-- The row of a document. -/
def Table.row (table : Table) (docId text : Bytes) (embedding : List ℤ) (metadata : List Bytes) : Option Row :=
  table.rows.find? fun r => r.docId = docId ∧ r.text = text ∧ [r.entry] = embedding ∧ metadata = []

def Table.dumps (table : Table) (p : VectorPayload ℤ (List Bytes)) : Except PyError Bytes :=
  match table.row p.docId p.text p.embedding p.metadata with
  | some r => if 0 ≤ p.intId then .ok (r.payload p.intId.toNat) else .error .typeError
  | none => .error .typeError

/-- The id of a payload. -/
def readId (payload : Bytes) : ℕ := digitsValue ((payload.drop idPart.length).takeWhile isDigit)

def Table.read (table : Table) (payload : Bytes) : Option Row :=
  table.rows.find? fun r => payload = r.payload (readId payload)

variable {table : Table} {r : Row}

theorem readId_payload (id : ℕ) (r : Row) : readId (r.payload id) = id := by
  have hstop : r.rest.takeWhile isDigit = [] := rfl
  unfold readId Row.payload
  rw [List.drop_left, List.takeWhile_append_of_pos isDigit_of_mem_decimal, hstop, List.append_nil,
    digitsValue_decimal]

/-- **A row is read back.** -/
theorem Table.read_payload (hr : r ∈ table.rows) (id : ℕ) : table.read (r.payload id) = some r := by
  unfold Table.read
  rw [readId_payload]
  cases hfind : table.rows.find? fun r' => r.payload id = r'.payload id with
  | none =>
    have hnot := List.find?_eq_none.1 hfind r hr
    simp at hnot
  | some r' =>
    have hsame : r.payload id = r'.payload id := by simpa using List.find?_some hfind
    have hrest : r.rest = r'.rest := List.append_cancel_left (List.append_cancel_left hsame)
    rw [table.differ r hr r' (List.mem_of_find?_eq_some hfind) (Or.inl hrest)]

theorem Table.dumps_eq_ok {p : VectorPayload ℤ (List Bytes)} {payload : Bytes} (h : table.dumps p = .ok payload) :
    ∃ r ∈ table.rows, p = ⟨p.intId.toNat, r.docId, r.text, [r.entry], []⟩ ∧ payload = r.payload p.intId.toNat := by
  unfold Table.dumps at h
  split at h
  · rename_i r hrow
    split at h
    · rename_i hpos
      have hfields := List.find?_some hrow
      obtain ⟨hdoc, htext, hentry, hmeta⟩ := of_decide_eq_true hfields
      refine ⟨r, List.mem_of_find?_eq_some hrow, ?_, (Except.ok.inj h).symm⟩
      rw [Int.toNat_of_nonneg hpos, hdoc, htext, hentry, ← hmeta]
    · cases h
  · cases h

def Table.json (table : Table) : VectorJson ℤ ℤ (List Bytes) where
  float := .ok
  ofFloat := id
  float_ofFloat _ := rfl
  dumps := table.dumps
  loads payload :=
    match table.read payload with
    | some r => .ok ⟨readId payload, r.docId, r.text, [r.entry], []⟩
    | none => .error (.valueError (bytes "Expecting value"))
  loads_dumps := by
    intro p payload h
    obtain ⟨r, hr, hp, rfl⟩ := Table.dumps_eq_ok h
    rw [Table.read_payload hr, readId_payload]
    exact ⟨_, rfl, (congrArg VectorPayload.intId hp).symm, by rw [congrArg VectorPayload.embedding hp]⟩

def Table.payloads (table : Table) : PayloadJson table.json where
  restored := id
  loads payload :=
    match table.read payload with
    | some r => .ok ⟨some (readId payload), some r.docId, some r.text, some []⟩
    | none => .error (.decode (bytes "Expecting value"))
  loads_dumps := by
    intro p payload h
    obtain ⟨r, hr, hp, rfl⟩ := Table.dumps_eq_ok h
    rw [Table.read_payload hr, readId_payload, hp]
    rfl

theorem Table.find_chunkText (hr : r ∈ table.rows) :
    (table.rows.find? fun r' => r.chunkText = r'.chunkText) = some r := by
  cases hfind : table.rows.find? fun r' => r.chunkText = r'.chunkText with
  | none =>
    have hnot := List.find?_eq_none.1 hfind r hr
    simp at hnot
  | some r' =>
    have hsame : r.chunkText = r'.chunkText := by simpa using List.find?_some hfind
    rw [table.differ r hr r' (List.mem_of_find?_eq_some hfind) (Or.inr hsame)]

def Table.chunks (table : Table) : ChunkJson ℤ (List Bytes) where
  dumps d :=
    match table.rows.find? fun r => d = r.chunk with
    | some r => .ok r.chunkText
    | none => .error .typeError
  loads payload :=
    match table.rows.find? fun r => payload = r.chunkText with
    | some r => .ok r.chunk
    | none => .error (.valueError (bytes "Expecting value"))
  loads_dumps := by
    intro d payload h
    split at h
    · rename_i r hfind
      have hd : d = r.chunk := by simpa using List.find?_some hfind
      rw [← Except.ok.inj h, hd]
      simp only [Table.find_chunkText (List.mem_of_find?_eq_some hfind)]
    · cases h

/-- Whole numbers. Division is exact on the multiples, and roots on the squares. -/
def wholeFloats : Floats ℤ where
  zero := 0
  sum := List.sum
  mul := (· * ·)
  sub := (· - ·)
  neg := fun x => -x
  div x y := if y = 0 then .error .other else .ok (x / y)
  square x := .ok (x * x)
  sqrt x := .ok (Int.sqrt x)
  lt x y := decide (x < y)

/-- A chunk of the table has a payload. -/
theorem Table.dumps_chunk {chunk : MemoryChunk ℤ (List Bytes)} {embedding : List ℤ} {text : Bytes}
    (hembedding : chunk.embedding = some embedding) (h : table.chunks.dumps chunk.toDict = .ok text) (i : ℕ) :
    ∃ payload, table.json.dumps ⟨i, chunk.docId, chunk.text, embedding, chunk.metadata⟩ = .ok payload := by
  obtain ⟨docId, chunkId, body, metadata, embedding'⟩ := chunk
  obtain rfl : embedding' = some embedding := hembedding
  have hrow : ∃ r ∈ table.rows, ChunkDict.mk (some docId) (some chunkId) (some body) (some metadata)
      (some (some embedding)) = r.chunk := by
    unfold Table.chunks at h
    simp only at h
    split at h
    · rename_i r hfind
      have hsame := List.find?_some hfind
      exact ⟨r, List.mem_of_find?_eq_some hfind, of_decide_eq_true hsame⟩
    · cases h
  obtain ⟨r, hr, hdict⟩ := hrow
  obtain ⟨hdoc, -, hbody, hmeta, hentry⟩ := ChunkDict.mk.inj hdict
  simp only [Option.some.injEq] at hdoc hbody hmeta hentry
  subst hdoc hbody hmeta hentry
  have hfound : (table.row r.docId r.text [r.entry] []).isSome = true := by
    unfold Table.row
    rw [List.find?_isSome]
    exact ⟨r, hr, by simp⟩
  obtain ⟨r', hr'⟩ := Option.isSome_iff_exists.1 hfound
  refine ⟨r'.payload i, ?_⟩
  change table.dumps _ = _
  unfold Table.dumps
  simp [hr']

end RowJson

/-- Three documents; two of them point one way. -/
def skyTable : RowJson.Table where
  rows := [⟨bytes "a", bytes "sky", 2⟩, ⟨bytes "b", bytes "sea", -4⟩, ⟨bytes "c", bytes "sun", 3⟩]
  differ := by decide +kernel

end LsmTree
