import LsmTree.Spec.ChatHistory

/-!
# Concurrent callers of `append_message`

Every call makes three engine calls, each under the engine's mutex: it reads the turn
counter, puts the turn and puts the counter. Callers interleave at these, and the process
may stop in between. A caller makes one call at a time; callers are told apart by `ι`.
-/

namespace LsmTree

open Base

namespace ChatHistory

variable {ι τ δ : Type} [DecidableEq ι] [EmptyCollection δ]

/-- What a call has done: read the counter, or put the turn too. -/
inductive Phase where
  | counted
  | stored
  deriving DecidableEq

/-- A call between two of its engine calls. -/
structure Pending (τ δ : Type) where
  session : Bytes
  turnIndex : ℤ
  msg : ChatMessage τ δ
  payload : Bytes
  phase : Phase
  /-- When it read the counter, a turn of the session had been put without its counter,
  or one has been put since. No step depends on it. -/
  late : Bool

/-- The store and the calls under way. `halfDone` and `returned` record what happened;
no step depends on them. -/
structure Chatting (ι τ δ : Type) where
  engine : Engine
  pending : ι → Option (Pending τ δ)
  /-- the sessions with a turn put and the counter not, by a call under way or stopped there -/
  halfDone : List Bytes
  /-- the messages of the calls that returned, with their sessions and turns -/
  returned : List (Bytes × ℤ × ChatMessage τ δ)

def Chatting.start : Chatting ι τ δ := ⟨OrderedMap.empty, fun _ => none, [], []⟩

inductive ChatStep (ι τ δ : Type) where
  /-- the caller calls, and reads the counter -/
  | get (i : ι) (c : AppendCall τ δ)
  | putTurn (i : ι)
  /-- the caller puts the counter, and returns -/
  | putCounter (i : ι)
  /-- the process stops, and is started again -/
  | stop

/-- A turn of the session is put: its other calls are late. -/
def Pending.overtaken (sessionId : Bytes) (p : Pending τ δ) : Pending τ δ :=
  { p with late := p.late || p.session = sessionId }

def stepGet (json : MessageJson τ δ) (i : ι) (c : AppendCall τ δ) (st : Chatting ι τ δ) : Chatting ι τ δ :=
  match st.pending i, nextTurn (st.engine.get (metaKey c.session)), json.dumps c.message with
  | none, .ok turnIndex, .ok payload =>
    let call : Pending τ δ := ⟨c.session, turnIndex, c.message, payload, .counted, c.session ∈ st.halfDone⟩
    { st with pending := Function.update st.pending i (some call) }
  -- the caller is busy, or the call raises here
  | _, _, _ => st

def stepPutTurn (i : ι) (p : Pending τ δ) (st : Chatting ι τ δ) : Chatting ι τ δ :=
  { st with
    engine := st.engine.put (turnKey p.session p.turnIndex) p.payload
    pending := Function.update (fun j => (st.pending j).map (Pending.overtaken p.session)) i
      (some { p with phase := .stored })
    halfDone := p.session :: st.halfDone }

def stepPutCounter (i : ι) (p : Pending τ δ) (st : Chatting ι τ δ) : Chatting ι τ δ :=
  { engine := st.engine.put (metaKey p.session) (pyStr p.turnIndex)
    pending := Function.update st.pending i none
    halfDone := st.halfDone.filter (· ≠ p.session)
    returned := st.returned ++ [(p.session, p.turnIndex, p.msg)] }

def chatStep (json : MessageJson τ δ) (st : Chatting ι τ δ) : ChatStep ι τ δ → Chatting ι τ δ
  | .get i c => stepGet json i c st
  | .putTurn i =>
    match st.pending i with
    | some p => if p.phase = .counted then stepPutTurn i p st else st
    | none => st
  | .putCounter i =>
    match st.pending i with
    | some p => if p.phase = .stored then stepPutCounter i p st else st
    | none => st
  | .stop => { st with pending := fun _ => none }

def chatRun (json : MessageJson τ δ) (steps : List (ChatStep ι τ δ)) : Chatting ι τ δ :=
  steps.foldl (chatStep json) Chatting.start

/-- The step puts a turn whose key is present. -/
def Overwrites (st : Chatting ι τ δ) : ChatStep ι τ δ → Prop
  | .putTurn i => ∃ p, st.pending i = some p ∧ p.phase = .counted ∧
      (st.engine.get (turnKey p.session p.turnIndex)).isSome
  | _ => False

/-- The step puts a turn of a call that is late. -/
def PutsLate (st : Chatting ι τ δ) : ChatStep ι τ δ → Prop
  | .putTurn i => ∃ p, st.pending i = some p ∧ p.phase = .counted ∧ p.late = true
  | _ => False

end ChatHistory

end LsmTree
