import LsmTree.Spec.Python

/-!
# Chat history (`chat_history.py`, `models.py`)

The turns of a session stand under `chat:<session_id>:<turn>`, the number of its last
turn under `meta:chat_turn:<session_id>`. How messages are turned into JSON and back is
a parameter, with what the code relies on.
-/

namespace LsmTree

open Base

/-- A message with a timestamp `τ` and a dictionary `δ` of metadata. -/
structure ChatMessage (τ δ : Type) where
  role : Bytes
  content : Bytes
  timestamp : τ
  metadata : δ
  deriving DecidableEq

/-- `json.dumps(msg.to_dict())` and `ChatMessage.from_dict(json.loads(payload))`. What
was written is read back, and a message without metadata can be written. -/
structure MessageJson (τ δ : Type) [EmptyCollection δ] where
  dumps : ChatMessage τ δ → Except PyError Bytes
  loads : Bytes → Except PyError (ChatMessage τ δ)
  loads_dumps : ∀ {msg payload}, dumps msg = .ok payload → loads payload = .ok msg
  dumps_plain : ∀ msg, msg.metadata = ∅ → ∃ payload, dumps msg = .ok payload

namespace ChatHistory

variable {τ δ : Type} [EmptyCollection δ]

def metaKey (sessionId : Bytes) : Bytes := bytes "meta:chat_turn:" ++ sessionId

/-- `chat:<session_id>:` -/
def chatPrefix (sessionId : Bytes) : Bytes := bytes "chat:" ++ sessionId ++ bytes ":"

def turnKey (sessionId : Bytes) (turnIndex : ℤ) : Bytes := chatPrefix sessionId ++ zeroPad 8 turnIndex

/-- The number of the turn after the one the counter tells. -/
def nextTurn (metaVal : Option Bytes) : Except PyError ℤ :=
  match metaVal with
  | none => .ok 0
  | some v =>
    match pyInt v with
    | some n => .ok (n + 1)
    | none => .error (.valueError (bytes "invalid literal for int() with base 10: " ++ v))

def appendMessage (json : MessageJson τ δ) (sessionId role content : Bytes) (metadata : Option δ) (now : τ)
    (engine : Engine) : Except PyError (ChatMessage τ δ) × Engine :=
  match nextTurn (engine.get (metaKey sessionId)) with
  | .error err => (.error err, engine)
  | .ok turnIndex =>
    let msg : ChatMessage τ δ := ⟨role, content, now, metadata.getD ∅⟩
    match json.dumps msg with
    | .error err => (.error err, engine)
    | .ok payload =>
      (.ok msg, (engine.put (turnKey sessionId turnIndex) payload).put (metaKey sessionId) (pyStr turnIndex))

/-- The arguments of `append_message`, with the time it is called. -/
structure AppendCall (τ δ : Type) where
  session : Bytes
  role : Bytes
  content : Bytes
  metadata : Option δ
  now : τ

def AppendCall.message (c : AppendCall τ δ) : ChatMessage τ δ := ⟨c.role, c.content, c.now, c.metadata.getD ∅⟩

/-- `messages[-last_n:]` for a positive number -/
def lastOf {α : Type} (lastN : ℤ) (messages : List α) : List α := messages.drop (messages.length - lastN.toNat)

def getHistory (json : MessageJson τ δ) (sessionId : Bytes) (lastN : Option ℤ) (engine : Engine) :
    Except PyError (List (ChatMessage τ δ)) := do
  let messages ← (engine.prefixScan (chatPrefix sessionId)).mapM fun item => json.loads item.2
  match lastN with
  | none => pure messages
  | some n => pure (if n ≤ 0 then [] else lastOf n messages)

def clearSession (sessionId : Bytes) (engine : Engine) : Engine :=
  (engine.deleteAll ((engine.prefixScan (chatPrefix sessionId)).map Prod.fst)).delete (metaKey sessionId)

end ChatHistory

end LsmTree
