import LsmTree.Spec.ChatHistory
import LsmTree.Spec.MemoryManager

/-!
# Searching and recalling (`vector_index.py`, `memory_manager.py`)

The index is gone through as a whole: every vector is scored against the query, the scores
are sorted, and the payloads of the best are read from the store. `recall` puts what it finds
together with the last turns of a session.

Floats and their operations are parameters. A list is sorted as Python does where scores
compare: elements that compare alike keep their order.
-/

namespace LsmTree

open Base

/-- The operations on floats that scores are computed with. Some raise on some arguments. -/
structure Floats (φ : Type) where
  zero : φ
  sum : List φ → φ
  mul : φ → φ → φ
  sub : φ → φ → φ
  neg : φ → φ
  div : φ → φ → Except PyError φ
  /-- `x ** 2` -/
  square : φ → Except PyError φ
  sqrt : φ → Except PyError φ
  lt : φ → φ → Bool

namespace Floats

variable {φ : Type} (fl : Floats φ) {α : Type}

/-- May stand before it if the greatest comes first. -/
def NotBelow (key : α → φ) (a b : α) : Prop := fl.lt (key a) (key b) = false

instance (key : α → φ) : DecidableRel (fl.NotBelow key) := fun a b =>
  inferInstanceAs (Decidable (fl.lt (key a) (key b) = false))

/-- `l.sort(key=key, reverse=True)` -/
def sortReverse (key : α → φ) (l : List α) : List α := l.insertionSort (fl.NotBelow key)

end Floats

/-- `s.lower()`, as far as it is compared with a word of ASCII characters without a k -/
def lower (s : Bytes) : Bytes := s.map fun b => if 65 ≤ b ∧ b ≤ 90 then b + 32 else b

variable {ν φ μ : Type}

namespace VectorIndex

variable {dim : ℤ}

/-- The score of a vector; `qNorm` is the norm of the query. -/
def score (fl : Floats φ) (metric : Bytes) (q : List φ) (qNorm : φ) (vec : List φ) : Except PyError φ :=
  let metric := lower metric
  let dot := fl.sum (List.zipWith fl.mul q vec)
  if metric = bytes "cos" ∨ metric = bytes "cosine" then do
    let vNorm ← fl.sqrt (fl.sum (vec.map fun y => fl.mul y y))
    if fl.lt fl.zero qNorm && fl.lt fl.zero vNorm then fl.div dot (fl.mul qNorm vNorm) else pure fl.zero
  else if metric = bytes "ip" ∨ metric = bytes "dot" then pure dot
  else if metric = bytes "l2" ∨ metric = bytes "euclidean" then do
    let squares ← (List.zipWith fl.sub q vec).mapM fl.square
    let dist ← fl.sqrt (fl.sum squares)
    pure (fl.neg dist)
  else pure dot

/-- The ids of the vectors with their scores, in the order of the index. -/
def scores (fl : Floats φ) (metric : Bytes) (q : List φ) (index : VectorIndex φ dim) :
    Except PyError (List (ℤ × φ)) := do
  let qNorm ← fl.sqrt (fl.sum (q.map fun x => fl.mul x x))
  index.vectors.mapM fun entry => do
    let sim ← score fl metric q qNorm entry.2
    pure (entry.1, sim)

def search (fl : Floats φ) (float : ν → Except PyError φ) (metric : Bytes) (queryVector : List ν) (topK : ℤ)
    (index : VectorIndex φ dim) : Except PyError (List (ℤ × φ)) := do
  let q ← queryVector.mapM float
  if (q.length : ℤ) ≠ dim then
    .error (.valueError (bytes "Query vector dimension mismatch: expected " ++ pyStr dim ++ bytes ", got " ++
      pyStr q.length))
  else if index.vectors.isEmpty ∨ topK ≤ 0 then pure []
  else
    let scored ← scores fl metric q index
    pure ((fl.sortReverse Prod.snd scored).take topK.toNat)

end VectorIndex

/-- What `json.loads` raises. -/
inductive JsonError where
  /-- `json.JSONDecodeError` -/
  | decode (what : Bytes)
  | other (err : PyError)
  deriving DecidableEq

/-- What is looked up in a payload; a key can be missing. -/
structure PayloadDict (μ : Type) where
  intId : Option ℤ
  docId : Option Bytes
  text : Option Bytes
  metadata : Option μ
  deriving DecidableEq

/-- `json.loads` on payloads. What was written is read back, the metadata as JSON keeps it. -/
structure PayloadJson (json : VectorJson ν φ μ) where
  restored : μ → μ
  loads : Bytes → Except JsonError (PayloadDict μ)
  loads_dumps : ∀ {p payload}, json.dumps p = .ok payload →
    loads payload = .ok ⟨some p.intId, some p.docId, some p.text, some (restored p.metadata)⟩

namespace VectorStore

structure Hit (φ μ : Type) where
  intId : ℤ
  docId : Bytes
  text : Bytes
  score : φ
  metadata : μ
  deriving DecidableEq

variable [EmptyCollection μ]

/-- The hit of a payload; `none` for a `KeyError`. -/
def hit (score : φ) (data : PayloadDict μ) : Option (Hit φ μ) :=
  match data.intId, data.docId, data.text with
  | some intId, some docId, some text => some ⟨intId, docId, text, score, data.metadata.getD ∅⟩
  | _, _, _ => none

/-- One round of the loop of `search`, with what the store has for the match: its hit, if it has one. -/
def readPayload {json : VectorJson ν φ μ} (payloads : PayloadJson json) (score : φ) (val : Option Bytes) :
    Except PyError (Option (Hit φ μ)) :=
  match val with
  | none => .ok none
  | some val =>
    match payloads.loads val with
    | .ok data => .ok (hit score data)
    | .error (.decode _) => .ok none
    | .error (.other err) => .error err

def readMatch {json : VectorJson ν φ μ} (payloads : PayloadJson json) (engine : Engine) (m : ℤ × φ) :
    Except PyError (Option (Hit φ μ)) :=
  readPayload payloads m.2 (engine.get (vecKey m.1))

def search (fl : Floats φ) (metric : Bytes) {json : VectorJson ν φ μ} (payloads : PayloadJson json)
    (queryVector : List ν) (topK : ℤ) (vs : VectorStore φ) (engine : Engine) : Except PyError (List (Hit φ μ)) :=
  if (queryVector.length : ℤ) ≠ vs.dim then
    .error (.valueError (bytes "Query vector dimension mismatch: expected " ++ pyStr vs.dim ++ bytes ", got " ++
      pyStr queryVector.length))
  else if topK ≤ 0 ∨ vs.index.vectors.isEmpty then .ok []
  else do
    let matches' ← vs.index.search fl json.float metric queryVector topK
    let read ← matches'.mapM (readMatch payloads engine)
    pure (fl.sortReverse Hit.score read.reduceOption)

end VectorStore

namespace MemoryManager

open VectorStore

variable {τ δ : Type} [EmptyCollection μ] [EmptyCollection δ]

/-- The manager's parts, with the floats and `str.capitalize`. -/
structure Agent (ν φ μ τ δ : Type) [EmptyCollection δ] where
  backend : Backend ν φ μ
  payloads : PayloadJson backend.json
  floats : Floats φ
  messages : MessageJson τ δ
  capitalize : Bytes → Bytes

structure Fact (φ μ : Type) where
  text : Bytes
  score : φ
  metadata : μ
  deriving DecidableEq

structure Turn (τ : Type) where
  role : Bytes
  content : Bytes
  timestamp : τ
  deriving DecidableEq

/-- What `recall` returns. -/
structure Recalled (φ μ τ : Type) where
  query : Bytes
  relevantFacts : List (Fact φ μ)
  recentHistory : List (Turn τ)
  formattedPromptContext : Bytes
  deriving DecidableEq

def fact (h : Hit φ μ) : Fact φ μ := ⟨h.text, h.score, h.metadata⟩

def turn (msg : ChatMessage τ δ) : Turn τ := ⟨msg.role, msg.content, msg.timestamp⟩

/-- `"\n".join(lines)` -/
def joinLines (lines : List Bytes) : Bytes := (bytes "\n").intercalate lines

/-- The context for a prompt. -/
def formatContext (capitalize : Bytes → Bytes) (facts : List (Fact φ μ)) (history : List (Turn τ)) : Bytes :=
  let knowledge := if facts.isEmpty then [] else
    [bytes "### Relevant Knowledge:\n" ++ joinLines (facts.map fun fact => bytes "- " ++ fact.text)]
  let conversation := if history.isEmpty then [] else
    [bytes "### Conversation History:\n" ++
      joinLines (history.map fun msg => capitalize msg.role ++ bytes ": " ++ msg.content)]
  (bytes "\n\n").intercalate (knowledge ++ conversation)

/-- The last turns of a session, if there is one. -/
def recentMessages (json : MessageJson τ δ) (sessionId : Option Bytes) (lastNTurns : ℤ) (engine : Engine) :
    Except PyError (List (ChatMessage τ δ)) :=
  match sessionId with
  | none => .ok []
  | some s => if s = [] then .ok [] else ChatHistory.getHistory json s (some lastNTurns) engine

/-- What `recall` makes of the hits and the messages. -/
def recalled (capitalize : Bytes → Bytes) (query : Bytes) (hits : List (Hit φ μ))
    (messages : List (ChatMessage τ δ)) :
    Recalled φ μ τ :=
  let relevantFacts := hits.map fact
  let recentHistory := messages.map turn
  ⟨query, relevantFacts, recentHistory, formatContext capitalize relevantFacts recentHistory⟩

end MemoryManager

open MemoryManager

def MemoryManager.recall {τ δ : Type} [EmptyCollection μ] [EmptyCollection δ] (mm : Agent ν φ μ τ δ)
    (query : Bytes)
    (sessionId : Option Bytes) (topKFacts lastNTurns : ℤ) (vs : VectorStore φ) (engine : Engine) :
    Except PyError (Recalled φ μ τ) := do
  let queryVec ← embed mm.backend query
  let hits ← vs.search mm.floats (bytes "cos") mm.payloads queryVec topKFacts engine
  let messages ← recentMessages mm.messages sessionId lastNTurns engine
  pure (recalled mm.capitalize query hits messages)

end LsmTree
