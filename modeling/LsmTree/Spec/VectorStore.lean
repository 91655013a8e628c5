import LsmTree.Spec.Python

/-!
# The vector store (`vector_index.py`)

Payloads stand under `vec:<id>`, the next id under `meta:vector_id_counter`. The index is
the pure Python one and lives in memory; an instance fills it from the store when it is
opened. `float` and the JSON of payloads are parameters. An entry of an embedding is a
Python value `ν`, a vector has floats `φ`, metadata is a dictionary `μ`.
-/

namespace LsmTree

open Base

structure VectorPayload (ν μ : Type) where
  intId : ℤ
  docId : Bytes
  text : Bytes
  embedding : List ν
  metadata : μ
  deriving DecidableEq

/-- `float(x)`, a float as a value, `json.dumps(payload)`, and `json.loads(payload)` with the
look-up of its fields. The id and the floats of the embedding survive. -/
structure VectorJson (ν φ μ : Type) where
  float : ν → Except PyError φ
  ofFloat : φ → ν
  float_ofFloat : ∀ x, float (ofFloat x) = .ok x
  dumps : VectorPayload ν μ → Except PyError Bytes
  loads : Bytes → Except PyError (VectorPayload ν μ)
  loads_dumps : ∀ {p payload}, dumps p = .ok payload →
    ∃ q, loads payload = .ok q ∧ q.intId = p.intId ∧ q.embedding.mapM float = p.embedding.mapM float

/-- `_FallbackVectorIndex` -/
structure VectorIndex (φ : Type) (dim : ℤ) where
  vectors : List (ℤ × List φ)

variable {ν φ μ : Type} [EmptyCollection μ]

namespace VectorIndex

variable {dim : ℤ}

def empty : VectorIndex φ dim := ⟨[]⟩

def add (float : ν → Except PyError φ) (intId : ℤ) (vector : List ν) (index : VectorIndex φ dim) :
    Except PyError (VectorIndex φ dim) := do
  let vec ← vector.mapM float
  if (vec.length : ℤ) ≠ dim then
    .error (.valueError (bytes "Vector dimension mismatch: expected " ++ pyStr dim ++ bytes ", got " ++
      pyStr vec.length))
  else .ok ⟨dictSet intId vec index.vectors⟩

end VectorIndex

/-- An open `VectorStore`; its index has its dimension. -/
structure VectorStore (φ : Type) where
  dim : ℤ
  index : VectorIndex φ dim
  idCounter : ℤ

namespace VectorStore

/-- The arguments of `add`. -/
structure AddCall (ν μ : Type) where
  docId : Bytes
  text : Bytes
  embedding : List ν
  metadata : Option μ

/-- What becomes of the two puts of `add`. -/
structure AddIO where
  entry : PutIO
  counter : PutIO

def vecKey (intId : ℤ) : Bytes := bytes "vec:" ++ zeroPad 8 intId

def counterKey : Bytes := bytes "meta:vector_id_counter"

/-- `except (KeyError, ValueError, json.JSONDecodeError)` -/
def caught : PyError → Bool
  | .valueError _ => true
  | .keyError => true
  | _ => false

/-- One round of the loop of `_rehydrate_index`, with the index and `max_id`. -/
def rehydrateItem (json : VectorJson ν φ μ) {dim : ℤ} (st : VectorIndex φ dim × ℤ) (item : Bytes × Bytes) :
    Except PyError (VectorIndex φ dim × ℤ) :=
  let body : Except PyError (VectorIndex φ dim × ℤ) := do
    let data ← json.loads item.2
    let index ← st.1.add json.float data.intId data.embedding
    pure (index, if st.2 < data.intId then data.intId else st.2)
  match body with
  | .ok st' => .ok st'
  | .error err => if caught err then .ok st else .error err

/-- The counter from the metadata, or after the greatest id, and never below that. -/
def restoredCounter (metaVal : Option Bytes) (maxId : ℤ) : ℤ :=
  let idCounter :=
    match metaVal.bind pyInt with
    | some n => n
    | none => if 0 ≤ maxId then maxId + 1 else 0
  if idCounter ≤ maxId then maxId + 1 else idCounter

/-- `VectorStore(engine, dim=dim)` -/
def new (json : VectorJson ν φ μ) (dim : ℤ) (engine : Engine) : Except PyError (VectorStore φ) := do
  let (index, maxId) ← (engine.prefixScan (bytes "vec:")).foldlM (rehydrateItem json) (VectorIndex.empty, -1)
  pure ⟨dim, index, restoredCounter (engine.get counterKey) maxId⟩

/-- `add` up to its first call of the engine: the payload, or what it raises. -/
def prepare (json : VectorJson ν φ μ) (c : AddCall ν μ) (vs : VectorStore φ) :
    Except PyError Bytes × VectorStore φ :=
  if (c.embedding.length : ℤ) ≠ vs.dim then
    (.error (.valueError (bytes "Embedding dimension mismatch: expected " ++ pyStr vs.dim ++ bytes ", got " ++
      pyStr c.embedding.length)), vs)
  else
    let intId := vs.idCounter
    let vs := { vs with idCounter := vs.idCounter + 1 }
    match vs.index.add json.float intId c.embedding with
    | .error err => (.error err, vs)
    | .ok index =>
      (json.dumps ⟨intId, c.docId, c.text, c.embedding, c.metadata.getD ∅⟩, { vs with index := index })

def add (json : VectorJson ν φ μ) (io : AddIO) (c : AddCall ν μ) (vs : VectorStore φ) (engine : Engine) :
    Except PyError ℤ × VectorStore φ × Engine :=
  match vs.prepare json c with
  | (.error err, vs') => (.error err, vs', engine)
  | (.ok payload, vs') =>
    match engine.tryPut io.entry (vecKey vs.idCounter) payload with
    | (.error err, engine) => (.error err, vs', engine)
    | (.ok _, engine) =>
      match engine.tryPut io.counter counterKey (pyStr vs'.idCounter) with
      | (.error err, engine) => (.error err, vs', engine)
      | (.ok _, engine) => (.ok vs.idCounter, vs', engine)

end VectorStore

end LsmTree
