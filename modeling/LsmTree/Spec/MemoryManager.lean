import LsmTree.Spec.VectorStore

/-!
# Remembering (`models.py`, `store.py`, `memory_manager.py`)

A chunk stands under `doc:<doc_id>:<chunk_id>`; `remember` puts it before it adds its
embedding to the vector store. The embedder and the JSON of chunks are parameters.

An interpreter can limit the digits of an `int` in a string, in JSON as in a key. A chunk
dictionary then does not come back from JSON either, so no limit is modelled.
-/

namespace LsmTree

open Base

structure MemoryChunk (ν μ : Type) where
  docId : Bytes
  chunkId : ℤ
  text : Bytes
  metadata : μ
  embedding : Option (List ν)
  deriving DecidableEq

/-- The dictionary of a chunk, in which a key can be missing. -/
structure ChunkDict (ν μ : Type) where
  docId : Option Bytes
  chunkId : Option ℤ
  text : Option Bytes
  metadata : Option μ
  /-- `some none` for a `None` -/
  embedding : Option (Option (List ν))
  deriving DecidableEq

namespace MemoryChunk

variable {ν μ : Type}

def toDict (chunk : MemoryChunk ν μ) : ChunkDict ν μ :=
  ⟨some chunk.docId, some chunk.chunkId, some chunk.text, some chunk.metadata, some chunk.embedding⟩

def fromDict [EmptyCollection μ] (d : ChunkDict ν μ) : Except PyError (MemoryChunk ν μ) :=
  match d.docId, d.chunkId, d.text with
  | some docId, some chunkId, some text => .ok ⟨docId, chunkId, text, d.metadata.getD ∅, d.embedding.join⟩
  | _, _, _ => .error .keyError

@[simp] theorem fromDict_toDict [EmptyCollection μ] (chunk : MemoryChunk ν μ) :
    fromDict chunk.toDict = .ok chunk := rfl

end MemoryChunk

/-- `json.dumps` and `json.loads` on the dictionaries of chunks: what was written is read
back. -/
structure ChunkJson (ν μ : Type) where
  dumps : ChunkDict ν μ → Except PyError Bytes
  loads : Bytes → Except PyError (ChunkDict ν μ)
  loads_dumps : ∀ {d payload}, dumps d = .ok payload → loads payload = .ok d

namespace MemoryStore

variable {ν μ : Type}

def chunkKey (docId : Bytes) (chunkId : ℤ) : Bytes := bytes "doc:" ++ docId ++ bytes ":" ++ zeroPad 6 chunkId

/-- `dumps` is `json.dumps(chunk.to_dict())`. -/
def putChunk (dumps : MemoryChunk ν μ → Except PyError Bytes) (io : PutIO) (chunk : MemoryChunk ν μ)
    (engine : Engine) : Except PyError Unit × Engine :=
  match dumps chunk with
  | .error err => (.error err, engine)
  | .ok payload =>
    match engine.tryPut io (chunkKey chunk.docId chunk.chunkId) payload with
    | (.error err, engine) => (.error err, engine)
    | (.ok _, engine) => (.ok (), engine)

def getChunk [EmptyCollection μ] (json : ChunkJson ν μ) (docId : Bytes) (chunkId : ℤ) (engine : Engine) :
    Except PyError (Option (MemoryChunk ν μ)) :=
  match engine.get (chunkKey docId chunkId) with
  | none => .ok none
  | some val => do
    let data ← json.loads val
    let chunk ← MemoryChunk.fromDict data
    pure (some chunk)

def deleteChunk (docId : Bytes) (chunkId : ℤ) (engine : Engine) : Engine := engine.delete (chunkKey docId chunkId)

end MemoryStore

namespace MemoryManager

open VectorStore

variable {ν φ μ : Type} [EmptyCollection μ]

/-- What the manager stands on: the vector of a text, the JSON of chunks and of payloads. -/
structure Backend (ν φ μ : Type) where
  embedder : Bytes → Except PyError (List ν)
  dumpsChunk : MemoryChunk ν μ → Except PyError Bytes
  json : VectorJson ν φ μ

/-- `[float(x) for x in vec]` -/
def embed (mm : Backend ν φ μ) (text : Bytes) : Except PyError (List ν) := do
  let vec ← mm.embedder text
  let floats ← vec.mapM mm.json.float
  pure (floats.map mm.json.ofFloat)

structure RememberCall (μ : Type) where
  text : Bytes
  docId : Option Bytes
  metadata : Option μ
  /-- the twelve hexadecimal digits of a new `uuid` -/
  hex : Bytes

/-- What becomes of the puts of `remember`. -/
structure RememberIO where
  chunk : PutIO
  add : VectorStore.AddIO

def RememberCall.doc (c : RememberCall μ) : Bytes := c.docId.getD (bytes "mem_" ++ c.hex)

/-- The raw chunk. -/
def RememberCall.chunk (c : RememberCall μ) (embedding : List ν) : MemoryChunk ν μ :=
  ⟨c.doc, 0, c.text, c.metadata.getD ∅, some embedding⟩

/-- The call of the vector store. -/
def RememberCall.addCall (c : RememberCall μ) (embedding : List ν) : AddCall ν μ :=
  ⟨c.doc, c.text, embedding, some (c.metadata.getD ∅)⟩

def remember (mm : Backend ν φ μ) (io : RememberIO) (c : RememberCall μ) (vs : VectorStore φ) (engine : Engine) :
    Except PyError ℤ × VectorStore φ × Engine :=
  match embed mm c.text with
  | .error err => (.error err, vs, engine)
  | .ok embedding =>
    match MemoryStore.putChunk mm.dumpsChunk io.chunk (c.chunk embedding) engine with
    | (.error err, engine) => (.error err, vs, engine)
    | (.ok _, engine) => vs.add mm.json io.add (c.addCall embedding) engine

end MemoryManager

end LsmTree
