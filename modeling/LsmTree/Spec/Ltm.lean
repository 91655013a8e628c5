import LsmTree.Spec.Api
import LsmTree.Spec.Recall

/-!
# The Python layer on the engine (`ltm`)

The methods of the layer as clients of the engine: each call of the engine stands where the
source has it, and an exception ends the method.

`Ltm.calls` are the calls of an open `MemoryManager`, with those of its store and its chat
history. `Ltm.manager` answers them with clients of the engine, `Ltm.onMap` does on a correct
ordered map.
-/

namespace LsmTree

open Base

variable {ν φ μ τ δ : Type} [EmptyCollection δ]

namespace Ltm

/-- The rest of a method, if the call did not raise. -/
def andThen {α β : Type} (client : Client api (Except PyError α)) (next : α → Client api (Except PyError β)) :
    Client api (Except PyError β) :=
  client.bind fun
    | .ok a => next a
    | .error err => .ret (.error err)

/-! ## Chat history -/

section

open ChatHistory

def appendMessage (json : MessageJson τ δ) (sessionId role content : Bytes) (metadata : Option δ) (now : τ) :
    Client api (Except PyError (ChatMessage τ δ)) := do
  let metaVal ← Bindings.get (metaKey sessionId)
  match nextTurn metaVal with
  | .error err => pure (.error err)
  | .ok turnIndex =>
    let msg : ChatMessage τ δ := ⟨role, content, now, metadata.getD ∅⟩
    match json.dumps msg with
    | .error err => pure (.error err)
    | .ok payload =>
      andThen (Bindings.put (turnKey sessionId turnIndex) payload) fun _ =>
        andThen (Bindings.put (metaKey sessionId) (pyStr turnIndex)) fun _ => pure (.ok msg)

def getHistory (json : MessageJson τ δ) (sessionId : Bytes) (lastN : Option ℤ) :
    Client api (Except PyError (List (ChatMessage τ δ))) :=
  andThen (Bindings.prefixScan (chatPrefix sessionId) 0) fun items => pure <| do
    let messages ← items.mapM fun item => json.loads item.2
    match lastN with
    | none => pure messages
    | some n => pure (if n ≤ 0 then [] else lastOf n messages)

/-- `for key in keys: self._engine.delete(key)` -/
def deleteAll : List Bytes → Client api (Except PyError Unit)
  | [] => pure (.ok ())
  | key :: keys => andThen (Bindings.delete key) fun _ => deleteAll keys

def clearSession (sessionId : Bytes) : Client api (Except PyError Unit) :=
  andThen (Bindings.prefixScan (chatPrefix sessionId) 0) fun items =>
    andThen (deleteAll (items.map Prod.fst)) fun _ =>
      andThen (Bindings.delete (metaKey sessionId)) fun _ => pure (.ok ())

end

/-! ## The memory store -/

section

open MemoryStore

def putChunk (dumps : MemoryChunk ν μ → Except PyError Bytes) (chunk : MemoryChunk ν μ) :
    Client api (Except PyError Unit) :=
  match dumps chunk with
  | .error err => pure (.error err)
  | .ok payload => andThen (Bindings.put (chunkKey chunk.docId chunk.chunkId) payload) fun _ => pure (.ok ())

def getChunk [EmptyCollection μ] (json : ChunkJson ν μ) (docId : Bytes) (chunkId : ℤ) :
    Client api (Except PyError (Option (MemoryChunk ν μ))) := do
  match ← Bindings.get (chunkKey docId chunkId) with
  | none => pure (.ok none)
  | some val => pure do
    let data ← json.loads val
    let chunk ← MemoryChunk.fromDict data
    pure (some chunk)

def deleteChunk (docId : Bytes) (chunkId : ℤ) : Client api (Except PyError Unit) :=
  andThen (Bindings.delete (chunkKey docId chunkId)) fun _ => pure (.ok ())

end

/-! ## The vector store -/

section

open VectorStore

variable [EmptyCollection μ]

def newVectorStore (json : VectorJson ν φ μ) (dim : ℤ) : Client api (Except PyError (VectorStore φ)) :=
  andThen (Bindings.prefixScan (bytes "vec:") 0) fun items =>
    match items.foldlM (rehydrateItem json) (VectorIndex.empty, -1) with
    | .error err => pure (.error err)
    | .ok (index, maxId) => do
      let metaVal ← Bindings.get counterKey
      pure (.ok ⟨dim, index, restoredCounter metaVal maxId⟩)

/-- With the instance behind the call. -/
def add (json : VectorJson ν φ μ) (c : AddCall ν μ) (vs : VectorStore φ) :
    Client api (Except PyError ℤ × VectorStore φ) :=
  match vs.prepare json c with
  | (.error err, vs') => pure (.error err, vs')
  | (.ok payload, vs') => do
    let r ← andThen (Bindings.put (vecKey vs.idCounter) payload) fun _ =>
      andThen (Bindings.put counterKey (pyStr vs'.idCounter)) fun _ => pure (.ok vs.idCounter)
    pure (r, vs')

/-- The loop of `search`. -/
def readMatches {json : VectorJson ν φ μ} (payloads : PayloadJson json) :
    List (ℤ × φ) → Client api (Except PyError (List (Option (Hit φ μ))))
  | [] => pure (.ok [])
  | m :: ms => do
    let val ← Bindings.get (vecKey m.1)
    match readPayload payloads m.2 val with
    | .error err => pure (.error err)
    | .ok found => andThen (readMatches payloads ms) fun rest => pure (.ok (found :: rest))

def search (fl : Floats φ) (metric : Bytes) {json : VectorJson ν φ μ} (payloads : PayloadJson json)
    (queryVector : List ν) (topK : ℤ) (vs : VectorStore φ) : Client api (Except PyError (List (Hit φ μ))) :=
  if (queryVector.length : ℤ) ≠ vs.dim then
    pure (.error (.valueError (bytes "Query vector dimension mismatch: expected " ++ pyStr vs.dim ++
      bytes ", got " ++ pyStr queryVector.length)))
  else if topK ≤ 0 ∨ vs.index.vectors.isEmpty then pure (.ok [])
  else
    match vs.index.search fl json.float metric queryVector topK with
    | .error err => pure (.error err)
    | .ok matches' =>
      andThen (readMatches payloads matches') fun read => pure (.ok (fl.sortReverse Hit.score read.reduceOption))

end

/-! ## The manager -/

section

open MemoryManager

variable [EmptyCollection μ]

def remember (mm : Backend ν φ μ) (c : RememberCall μ) (vs : VectorStore φ) :
    Client api (Except PyError ℤ × VectorStore φ) :=
  match embed mm c.text with
  | .error err => pure (.error err, vs)
  | .ok embedding => do
    match ← putChunk mm.dumpsChunk (c.chunk embedding) with
    | .error err => pure (.error err, vs)
    | .ok _ => add mm.json (c.addCall embedding) vs

/-- `recall` -/
def hybridRecall (mm : Agent ν φ μ τ δ) (query : Bytes) (sessionId : Option Bytes) (topKFacts lastNTurns : ℤ)
    (vs : VectorStore φ) : Client api (Except PyError (Recalled φ μ τ)) :=
  match embed mm.backend query with
  | .error err => pure (.error err)
  | .ok queryVec =>
    andThen (search mm.floats (bytes "cos") mm.payloads queryVec topKFacts vs) fun hits =>
      andThen
        (match sessionId with
          | none => pure (.ok [])
          | some s => if s = [] then pure (.ok []) else getHistory mm.messages s (some lastNTurns))
        fun messages => pure (.ok (recalled mm.capitalize query hits messages))

inductive Call (μ τ δ : Type) where
  | remember (c : RememberCall μ)
  | addChatTurn (c : ChatHistory.AppendCall τ δ)
  | getChatHistory (sessionId : Bytes) (lastN : Option ℤ)
  | clearSession (sessionId : Bytes)
  | getChunk (docId : Bytes) (chunkId : ℤ)
  | deleteChunk (docId : Bytes) (chunkId : ℤ)
  /-- `recall` -/
  | hybridRecall (query : Bytes) (sessionId : Option Bytes) (topKFacts lastNTurns : ℤ)
  /-- a new process opens the manager -/
  | reopen (memtableCapacity : UInt64)

variable (ν φ) in
abbrev Call.Result : Call μ τ δ → Type
  | remember _ => Except PyError ℤ
  | addChatTurn _ => Except PyError (ChatMessage τ δ)
  | getChatHistory _ _ => Except PyError (List (ChatMessage τ δ))
  | clearSession _ => Except PyError Unit
  | getChunk _ _ => Except PyError (Option (MemoryChunk ν μ))
  | deleteChunk _ _ => Except PyError Unit
  | hybridRecall _ _ _ _ => Except PyError (Recalled φ μ τ)
  | reopen _ => Except PyError Unit

variable (ν φ μ τ δ) in
abbrev calls : Interface := ⟨Call μ τ δ, Call.Result ν φ⟩

/-- Each call as a client of the engine; the state is the vector store. -/
def manager (mm : Agent ν φ μ τ δ) (json : ChunkJson ν μ) (dim : ℤ) : Handler (calls ν φ μ τ δ) api (VectorStore φ)
  | vs, .remember c => remember mm.backend c vs
  | vs, .addChatTurn c => do
    let r ← appendMessage mm.messages c.session c.role c.content c.metadata c.now
    pure (r, vs)
  | vs, .getChatHistory sessionId lastN => do
    let r ← getHistory mm.messages sessionId lastN
    pure (r, vs)
  | vs, .clearSession sessionId => do
    let r ← clearSession sessionId
    pure (r, vs)
  | vs, .getChunk docId chunkId => do
    let r ← getChunk json docId chunkId
    pure (r, vs)
  | vs, .deleteChunk docId chunkId => do
    let r ← deleteChunk docId chunkId
    pure (r, vs)
  | vs, .hybridRecall query sessionId topKFacts lastNTurns => do
    let r ← hybridRecall mm query sessionId topKFacts lastNTurns vs
    pure (r, vs)
  | vs, .reopen memtableCapacity => do
    match ← andThen (Bindings.reopen memtableCapacity) fun _ => newVectorStore mm.backend.json dim with
    | .ok vs' => pure (.ok (), vs')
    | .error err => pure (.error err, vs)

/-- Each call on a correct ordered map, whose puts store. -/
def onMap (mm : Agent ν φ μ τ δ) (json : ChunkJson ν μ) (dim : ℤ) :
    Machine (calls ν φ μ τ δ) (VectorStore φ × Engine)
  | (vs, m), .remember c => MemoryManager.remember mm.backend ⟨.stored, ⟨.stored, .stored⟩⟩ c vs m
  | (vs, m), .addChatTurn c =>
    let (r, m) := ChatHistory.appendMessage mm.messages c.session c.role c.content c.metadata c.now m
    (r, vs, m)
  | (vs, m), .getChatHistory sessionId lastN => (ChatHistory.getHistory mm.messages sessionId lastN m, vs, m)
  | (vs, m), .clearSession sessionId => (.ok (), vs, ChatHistory.clearSession sessionId m)
  | (vs, m), .getChunk docId chunkId => (MemoryStore.getChunk json docId chunkId m, vs, m)
  | (vs, m), .deleteChunk docId chunkId => (.ok (), vs, MemoryStore.deleteChunk docId chunkId m)
  | (vs, m), .hybridRecall query sessionId topKFacts lastNTurns =>
    (MemoryManager.recall mm query sessionId topKFacts lastNTurns vs m, vs, m)
  | (vs, m), .reopen _ =>
    match VectorStore.new mm.backend.json dim m with
    | .ok vs' => (.ok (), vs', m)
    | .error err => (.error err, vs, m)

end

end Ltm

end LsmTree
