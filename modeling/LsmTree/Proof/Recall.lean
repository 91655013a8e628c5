import LsmTree.Proof.ChatHistory
import LsmTree.Proof.MemoryStore
import LsmTree.Proof.VectorSearch

/-!
# What the manager remembers

The manager's three parts write to one store. None of them touches the keys of another, so
each is as it would be alone.

* `SameFor`: two stores that a part cannot tell apart.
* `Parts`: what holds of the manager after any calls, one part at a time.
* `manager_parts`: **each part answers as if it were alone**.
* `recall_remembered`: **`recall` returns the best of all that was remembered**, and the last turns of
  the session, however these were mixed and how often the manager was opened again.
-/

namespace LsmTree

open Base VectorStore MemoryManager

variable {ν φ μ : Type} [EmptyCollection μ] {json : VectorJson ν φ μ} {engine : Engine} {dim : ℤ}
  {docs : List (Document ν φ μ)}

/-! ## The parts of the store -/

inductive Part where
  | chunks
  | vectors
  | chats
  deriving DecidableEq

/-- The part that writes a key. -/
def partOf (k : Bytes) : Option Part :=
  if (bytes "doc:").isPrefixOf k then some .chunks
  else if (bytes "vec:").isPrefixOf k ∨ k = counterKey then some .vectors
  else if (bytes "chat:").isPrefixOf k ∨ (bytes "meta:chat_turn:").isPrefixOf k then some .chats
  else none

@[simp] theorem partOf_chunkKey (d : Bytes) (c : ℤ) : partOf (MemoryStore.chunkKey d c) = some .chunks := rfl

@[simp] theorem partOf_vecKey (i : ℤ) : partOf (vecKey i) = some .vectors := rfl

@[simp] theorem partOf_counterKey : partOf counterKey = some .vectors := rfl

@[simp] theorem partOf_chatPrefix (s rest : Bytes) : partOf (ChatHistory.chatPrefix s ++ rest) = some .chats := rfl

@[simp] theorem partOf_metaKey (s : Bytes) : partOf (ChatHistory.metaKey s) = some .chats := rfl

/-- Two stores are the same to a part. -/
def SameFor (p : Part) (engine engine' : Engine) : Prop := ∀ k, partOf k = some p → engine.get k = engine'.get k

namespace SameFor

variable {p p' : Part} {engine' engine'' : Engine}

theorem trans (h : SameFor p engine engine') (h' : SameFor p engine' engine'') : SameFor p engine engine'' :=
  fun k hk => (h k hk).trans (h' k hk)

/-- A put of another part. -/
theorem put {k : Bytes} (hk : partOf k = some p') (hne : p' ≠ p) (v : Bytes) (engine : Engine) :
    SameFor p (engine.put k v) engine := fun k' hk' => by
  refine OrderedMap.get_put_of_ne ?_ v engine
  rintro rfl
  exact hne (Option.some.inj (hk.symm.trans hk'))

theorem delete {k : Bytes} (hk : partOf k = some p') (hne : p' ≠ p) (engine : Engine) :
    SameFor p (engine.delete k) engine := fun k' hk' => by
  rw [OrderedMap.get_delete, if_neg]
  rintro rfl
  exact hne (Option.some.inj (hk.symm.trans hk'))

/-- The same put to both. -/
theorem put_both (h : SameFor p engine engine') (k v : Bytes) : SameFor p (engine.put k v) (engine'.put k v) :=
  fun k' hk' => by rw [OrderedMap.get_put, OrderedMap.get_put, h k' hk']

theorem delete_both (h : SameFor p engine engine') (k : Bytes) : SameFor p (engine.delete k) (engine'.delete k) :=
  fun k' hk' => by rw [OrderedMap.get_delete, OrderedMap.get_delete, h k' hk']

theorem tryPut {k : Bytes} (hk : partOf k = some p') (hne : p' ≠ p) (io : PutIO) (v : Bytes) (engine : Engine) :
    SameFor p (engine.tryPut io k v).2 engine := by
  unfold Engine.tryPut
  cases io with
  | stored => exact put hk hne v engine
  | refused => exact fun _ _ => rfl
  | raised done err =>
    cases done with
    | true => exact put hk hne v engine
    | false => exact fun _ _ => rfl

/-- The scan of a prefix whose keys are all of a part. -/
theorem prefixScan (h : SameFor p engine engine') {pre : Bytes} (hpre : ∀ rest, partOf (pre ++ rest) = some p) :
    engine.prefixScan pre = engine'.prefixScan pre := OrderedMap.scan_congr fun k hk => by
  obtain ⟨rest, rfl⟩ := List.isPrefixOf_iff_prefix.1 hk
  exact h _ (hpre rest)

end SameFor

/-- An `add` is one of the vectors' part. -/
theorem sameFor_add {p : Part} (hne : .vectors ≠ p) (io : VectorStore.AddIO) (c : AddCall ν μ) (vs : VectorStore φ)
    (engine : Engine) :
    SameFor p (vs.add json io c engine).2.2 engine := by
  unfold VectorStore.add
  split
  · exact fun _ _ => rfl
  · rename_i payload vs' hprep
    have hentry := SameFor.tryPut (partOf_vecKey vs.idCounter) hne io.entry payload engine
    split
    · rename_i hput
      rw [hput] at hentry
      exact hentry
    · rename_i engine' hput
      rw [hput] at hentry
      have hcounter := SameFor.tryPut partOf_counterKey hne io.counter (pyStr vs'.idCounter) engine'
      split
      · rename_i hput'
        rw [hput'] at hcounter
        exact hcounter.trans hentry
      · rename_i hput'
        rw [hput'] at hcounter
        exact hcounter.trans hentry

/-- Documents are the vectors' part. -/
theorem VectorStore.Stores.congr {engine' : Engine} (h : Stores json dim docs engine)
    (hsame : SameFor .vectors engine' engine) : Stores json dim docs engine' where
  vector := h.vector
  entry hi := by
    rw [hsame _ (partOf_vecKey _)]
    exact h.entry hi
  only {k v} hk hpre := by
    obtain ⟨rest, rfl⟩ := id hpre
    rw [hsame _ rfl] at hk
    exact h.only hk hpre
  counter hv := by
    rw [hsame _ partOf_counterKey] at hv
    exact h.counter hv

section

variable {τ δ : Type} [EmptyCollection δ] {messages : MessageJson τ δ} {engine' : Engine}

/-- A message is one of the chats' part. -/
theorem sameFor_append {p : Part} (hne : .chats ≠ p) (c : ChatHistory.AppendCall τ δ) (engine : Engine) :
    SameFor p (ChatHistory.appendMessage messages c.session c.role c.content c.metadata c.now engine).2 engine := by
  unfold ChatHistory.appendMessage
  split
  · exact fun _ _ => rfl
  · simp only
    split
    · exact fun _ _ => rfl
    · exact (SameFor.put (partOf_metaKey _) hne _ _).trans (SameFor.put (partOf_chatPrefix _ _) hne _ _)

/-- Stores that are the same to the chats stay so. -/
theorem SameFor.append (h : SameFor .chats engine engine') (c : ChatHistory.AppendCall τ δ) :
    SameFor .chats (ChatHistory.appendMessage messages c.session c.role c.content c.metadata c.now engine).2
      (ChatHistory.appendMessage messages c.session c.role c.content c.metadata c.now engine').2 := by
  unfold ChatHistory.appendMessage
  rw [h _ (partOf_metaKey _)]
  split
  · exact h
  · simp only
    split
    · exact h
    · exact (h.put_both _ _).put_both _ _

theorem sameFor_clear {p : Part} (hne : .chats ≠ p) (s : Bytes) (engine : Engine) :
    SameFor p (ChatHistory.clearSession s engine) engine := fun k hk => by
  rw [ChatHistory.get_clearSession, if_neg]
  rintro (rfl | ⟨rest, rfl⟩)
  · exact hne (Option.some.inj hk)
  · exact hne (Option.some.inj hk)

theorem SameFor.clear (h : SameFor .chats engine engine') (s : Bytes) :
    SameFor .chats (ChatHistory.clearSession s engine) (ChatHistory.clearSession s engine') := fun k hk => by
  rw [ChatHistory.get_clearSession, ChatHistory.get_clearSession, h k hk]

theorem SameFor.getHistory (h : SameFor .chats engine engine') (s : Bytes) (lastN : Option ℤ) :
    ChatHistory.getHistory messages s lastN engine = ChatHistory.getHistory messages s lastN engine' := by
  unfold ChatHistory.getHistory
  rw [h.prefixScan (partOf_chatPrefix s)]

end

/-! ## Calls of the manager -/

namespace MemoryManager

open ChatHistory (AppendCall ChatCall callAll)
open MemoryStore (ChunkCall)

variable {τ δ : Type}

inductive ManagerCall (μ τ δ : Type) where
  | remember (c : RememberCall μ)
  | addChatTurn (c : AppendCall τ δ)
  | clearSession (sessionId : Bytes)
  | deleteChunk (docId : Bytes) (chunkId : ℤ)
  /-- the manager is opened again -/
  | reopen

namespace ManagerCall

/-- The call of the chat history. -/
def chat : ManagerCall μ τ δ → Option (ChatCall τ δ)
  | .addChatTurn c => some (.append c)
  | .clearSession sessionId => some (.clear sessionId)
  | _ => none

variable [EmptyCollection δ]

/-- A call on a store that takes every put: the vector store and the engine behind it. -/
def run (mm : Agent ν φ μ τ δ) (dim : ℤ) (st : VectorStore φ × Engine) : ManagerCall μ τ δ → VectorStore φ × Engine
  | .remember c => (MemoryManager.remember mm.backend ⟨.stored, ⟨.stored, .stored⟩⟩ c st.1 st.2).2
  | .addChatTurn c =>
    (st.1, (ChatHistory.appendMessage mm.messages c.session c.role c.content c.metadata c.now st.2).2)
  | .clearSession sessionId => (st.1, ChatHistory.clearSession sessionId st.2)
  | .deleteChunk docId chunkId => (st.1, MemoryStore.deleteChunk docId chunkId st.2)
  | .reopen =>
    match VectorStore.new mm.backend.json dim st.2 with
    | .ok vs => (vs, st.2)
    | .error _ => st

/-- The call of the memory store. -/
def chunk (mm : Agent ν φ μ τ δ) : ManagerCall μ τ δ → Option (ChunkCall ν μ)
  | .remember c =>
    match embed mm.backend c.text with
    | .ok embedding => some (.putChunk (c.chunk embedding))
    | .error _ => none
  | .deleteChunk docId chunkId => some (.deleteChunk docId chunkId)
  | _ => none

/-- The document that the call adds to the vector store. -/
def documents (mm : Agent ν φ μ τ δ) (dim : ℤ) : ManagerCall μ τ δ → List (Document ν φ μ)
  | .remember c =>
    match embed mm.backend c.text with
    | .ok embedding =>
      match mm.backend.dumpsChunk (c.chunk embedding) with
      | .ok _ => accepted mm.backend.json dim (c.addCall embedding)
      | .error _ => []
    | .error _ => []
  | _ => []

end ManagerCall

variable [EmptyCollection δ] {mm : Agent ν φ μ τ δ} {calls : List (ManagerCall μ τ δ)} {call : ManagerCall μ τ δ}
  {st : VectorStore φ × Engine}

/-- Calls one after another, also behind one that raised, from an empty directory on. -/
def runManager (mm : Agent ν φ μ τ δ) (dim : ℤ) (calls : List (ManagerCall μ τ δ)) : VectorStore φ × Engine :=
  calls.foldl (ManagerCall.run mm dim) (⟨dim, .empty, 0⟩, .empty)

/-- All that was remembered, in its order. -/
def remembered (mm : Agent ν φ μ τ δ) (dim : ℤ) (calls : List (ManagerCall μ τ δ)) : List (Document ν φ μ) :=
  calls.flatMap (ManagerCall.documents mm dim)

/-- `json.dumps` writes a chunk as its dictionary, and the payload of a chunk that it can write. -/
structure DumpsAgree (mm : Backend ν φ μ) (json : ChunkJson ν μ) : Prop where
  chunk : ∀ chunk, mm.dumpsChunk chunk = json.dumps chunk.toDict
  payload : ∀ {chunk embedding text}, chunk.embedding = some embedding → mm.dumpsChunk chunk = .ok text →
    ∀ i : ℕ, ∃ payload, mm.json.dumps ⟨i, chunk.docId, chunk.text, embedding, chunk.metadata⟩ = .ok payload

theorem remember_eq {mm : Backend ν φ μ} {c : RememberCall μ} {embedding : List ν} {payload : Bytes}
    (hembed : embed mm c.text = .ok embedding) (hdumps : mm.dumpsChunk (c.chunk embedding) = .ok payload)
    (vs : VectorStore φ) (engine : Engine) : remember mm ⟨.stored, ⟨.stored, .stored⟩⟩ c vs engine =
      vs.add mm.json ⟨.stored, .stored⟩ (c.addCall embedding)
        (engine.put (MemoryStore.chunkKey c.doc 0) payload) := by
  unfold remember MemoryStore.putChunk
  simp only [hembed, hdumps]
  rfl

omit [EmptyCollection μ] in
/-- What the embedder gives can be scored. -/
theorem floats_of_embed {mm : Backend ν φ μ} {text : Bytes} {embedding : List ν}
    (h : embed mm text = .ok embedding) :
    ∃ vec, embedding.mapM mm.json.float = .ok vec := by
  unfold embed at h
  cases hv : mm.embedder text with
  | error err => simp [hv, bind, Except.bind] at h
  | ok v =>
    cases hf : v.mapM mm.json.float with
    | error err => simp [hv, hf, bind, Except.bind] at h
    | ok floats =>
      simp only [hv, hf, bind, Except.bind, pure, Except.pure, Except.ok.injEq] at h
      refine ⟨floats, ?_⟩
      rw [← h, mapM_ok, List.forall₂_map_right_iff, List.forall₂_same]
      exact fun x _ => mm.json.float_ofFloat x

/-- The call of the vector store is proper. -/
theorem DumpsAgree.proper {mm : Backend ν φ μ} {json : ChunkJson ν μ} (h : DumpsAgree mm json) {c : RememberCall μ}
    {embedding : List ν} {payload : Bytes} (hembed : embed mm c.text = .ok embedding)
    (hdumps : mm.dumpsChunk (c.chunk embedding) = .ok payload) (dim : ℤ) :
    (c.addCall embedding).Proper mm.json dim := by
  intro _
  obtain ⟨vec, hvec⟩ := floats_of_embed hembed
  exact ⟨vec, hvec, h.payload rfl hdumps⟩

theorem remembered_snoc (calls : List (ManagerCall μ τ δ)) (call : ManagerCall μ τ δ) :
    remembered mm dim (calls ++ [call]) = remembered mm dim calls ++ call.documents mm dim := by
  unfold remembered
  rw [List.flatMap_append, List.flatMap_singleton]

theorem length_remembered_le (mm : Agent ν φ μ τ δ) (dim : ℤ) (calls : List (ManagerCall μ τ δ)) :
    (remembered mm dim calls).length ≤ calls.length := by
  have hone : ∀ call : ManagerCall μ τ δ, (call.documents mm dim).length ≤ 1 := by
    intro call
    unfold ManagerCall.documents
    split
    · split
      · split
        · exact length_accepted _ _ _
        · simp
      · simp
    · simp
  induction calls using List.reverseRecOn with
  | nil => exact le_rfl
  | append_singleton calls call ih =>
    have hcall := hone call
    rw [remembered_snoc, List.length_append, List.length_append, List.length_singleton]
    omega

/-! ### The vectors -/

/-- The vector store holds these documents, in memory and on disk. -/
def Holds (mm : Agent ν φ μ τ δ) (dim : ℤ) (docs : List (Document ν φ μ)) (st : VectorStore φ × Engine) : Prop :=
  st.1 = holding dim docs ∧ Stores mm.backend.json dim docs st.2

/-- A call to remember adds its document. -/
theorem Holds.remember (h : Holds mm dim docs st) {json : ChunkJson ν μ} (hagree : DumpsAgree mm.backend json)
    (c : RememberCall μ) : Holds mm dim (docs ++ (ManagerCall.remember c).documents mm dim)
      (MemoryManager.remember mm.backend ⟨.stored, ⟨.stored, .stored⟩⟩ c st.1 st.2).2 := by
  obtain ⟨hopened, hstores⟩ := h
  rw [hopened]
  unfold ManagerCall.documents
  simp only
  cases hembed : embed mm.backend c.text with
  | error err =>
    unfold MemoryManager.remember
    rw [hembed, List.append_nil]
    exact ⟨rfl, hstores⟩
  | ok embedding =>
    cases hdumps : mm.backend.dumpsChunk (c.chunk embedding) with
    | error err =>
      unfold MemoryManager.remember MemoryStore.putChunk
      simp only [hembed, hdumps, List.append_nil]
      exact ⟨rfl, hstores⟩
    | ok payload =>
      have hput : SameFor .vectors (st.2.put (MemoryStore.chunkKey c.doc 0) payload) st.2 :=
        .put (partOf_chunkKey _ _) (by decide) _ _
      simp only [hdumps]
      rw [remember_eq hembed hdumps]
      exact (hstores.congr hput).add (hagree.proper hembed hdumps dim)

/-- **A call** adds its document. -/
theorem Holds.run (h : Holds mm dim docs st) {json : ChunkJson ν μ} (hagree : DumpsAgree mm.backend json)
    (hfew : docs.length ≤ 10 ^ 8) (call : ManagerCall μ τ δ) :
    Holds mm dim (docs ++ call.documents mm dim) (call.run mm dim st) := by
  cases call with
  | remember c => exact h.remember hagree c
  | addChatTurn c =>
    simp only [ManagerCall.documents, List.append_nil]
    exact ⟨h.1, h.2.congr (sameFor_append (by decide) c st.2)⟩
  | clearSession sessionId =>
    simp only [ManagerCall.documents, List.append_nil]
    exact ⟨h.1, h.2.congr (sameFor_clear (by decide) sessionId st.2)⟩
  | deleteChunk docId chunkId =>
    simp only [ManagerCall.documents, List.append_nil]
    exact ⟨h.1, h.2.congr (.delete (partOf_chunkKey docId chunkId) (by decide) st.2)⟩
  | reopen =>
    simp only [ManagerCall.documents, List.append_nil]
    unfold ManagerCall.run
    rw [h.2.new hfew]
    exact ⟨rfl, h.2⟩

/-- **Every run** holds all that was remembered. -/
theorem holds_runManager {json : ChunkJson ν μ} (hagree : DumpsAgree mm.backend json) (dim : ℤ)
    (calls : List (ManagerCall μ τ δ)) (hfew : calls.length ≤ 10 ^ 8) :
    Holds mm dim (remembered mm dim calls) (runManager mm dim calls) := by
  induction calls using List.reverseRecOn with
  | nil => exact ⟨rfl, stores_empty mm.backend.json dim⟩
  | append_singleton calls call ih =>
    rw [List.length_append, List.length_singleton] at hfew
    have hlen := length_remembered_le mm dim calls
    unfold runManager
    rw [List.foldl_concat, remembered_snoc]
    exact (ih (by omega)).run hagree (by omega) call

/-! ### The chats and the chunks -/

omit [EmptyCollection μ] in
theorem sameFor_putChunk {p : Part} (hne : .chunks ≠ p) (dumps : MemoryChunk ν μ → Except PyError Bytes)
    (io : PutIO) (chunk : MemoryChunk ν μ) (engine : Engine) :
    SameFor p (MemoryStore.putChunk dumps io chunk engine).2 engine := by
  unfold MemoryStore.putChunk
  split
  · exact fun _ _ => rfl
  · rename_i payload _
    have hput := SameFor.tryPut (partOf_chunkKey chunk.docId chunk.chunkId) hne io payload engine
    split
    · rename_i heq
      rwa [heq] at hput
    · rename_i heq
      rwa [heq] at hput

/-- To the other parts the call is that of the memory store. -/
theorem sameFor_remember {p : Part} (hne : .vectors ≠ p) (mm : Backend ν φ μ) (io : RememberIO)
    (c : RememberCall μ)
    (vs : VectorStore φ) (engine : Engine) : SameFor p (MemoryManager.remember mm io c vs engine).2.2
      (match embed mm c.text with
        | .ok embedding => (MemoryStore.putChunk mm.dumpsChunk io.chunk (c.chunk embedding) engine).2
        | .error _ => engine) := by
  unfold MemoryManager.remember
  cases embed mm c.text with
  | error err => exact fun _ _ => rfl
  | ok embedding =>
    simp only
    split
    · rename_i hput
      rw [hput]
      exact fun _ _ => rfl
    · rename_i hput
      rw [hput]
      exact sameFor_add hne _ _ _ _

theorem run_reopen (mm : Agent ν φ μ τ δ) (dim : ℤ) (st : VectorStore φ × Engine) :
    (ManagerCall.reopen.run mm dim st).2 = st.2 := by
  unfold ManagerCall.run
  simp only
  split <;> rfl

/-- A call to the chats. -/
theorem sameFor_chat {engine' : Engine} (h : SameFor .chats st.2 engine') (mm : Agent ν φ μ τ δ) (dim : ℤ)
    (call : ManagerCall μ τ δ) :
    SameFor .chats (call.run mm dim st).2 (call.chat.elim engine' (ChatHistory.callOne mm.messages engine')) := by
  cases call with
  | remember c =>
    refine (sameFor_remember (by decide) mm.backend _ c st.1 st.2).trans (SameFor.trans ?_ h)
    split
    · exact sameFor_putChunk (by decide) _ _ _ _
    · exact fun _ _ => rfl
  | addChatTurn c => exact h.append c
  | clearSession sessionId => exact h.clear sessionId
  | deleteChunk docId chunkId => exact (SameFor.delete (partOf_chunkKey docId chunkId) (by decide) st.2).trans h
  | reopen =>
    rw [run_reopen]
    exact h

/-- A call to the chunks. -/
theorem sameFor_chunk {engine' : Engine} (h : SameFor .chunks st.2 engine') {json : ChunkJson ν μ}
    (hagree : DumpsAgree mm.backend json) (dim : ℤ) (call : ManagerCall μ τ δ) :
    SameFor .chunks (call.run mm dim st).2 ((call.chunk mm).elim engine' fun c => (c.run json engine').2) := by
  cases call with
  | remember c =>
    refine (sameFor_remember (by decide) mm.backend _ c st.1 st.2).trans ?_
    unfold ManagerCall.chunk
    cases hembed : embed mm.backend c.text with
    | error err => simpa [hembed] using h
    | ok embedding =>
      simp only [hembed, Option.elim_some]
      unfold ChunkCall.run MemoryStore.putChunk
      simp only [hagree.chunk]
      split
      · exact h
      · exact h.put_both _ _
  | addChatTurn c => exact (sameFor_append (by decide) c st.2).trans h
  | clearSession sessionId => exact (sameFor_clear (by decide) sessionId st.2).trans h
  | deleteChunk docId chunkId => exact h.delete_both (MemoryStore.chunkKey docId chunkId)
  | reopen =>
    rw [run_reopen]
    exact h

theorem foldl_filterMap_snoc {α β γ : Type} (f : β → γ → β) (g : α → Option γ) (b : β) (l : List α) (a : α) :
    ((l ++ [a]).filterMap g).foldl f b =
    (g a).elim ((l.filterMap g).foldl f b) (f ((l.filterMap g).foldl f b)) := by
  rw [List.filterMap_append, List.foldl_append]
  cases hg : g a <;> simp [hg]

/-- **Every run** leaves the chats as their calls alone do. -/
theorem chats_runManager (mm : Agent ν φ μ τ δ) (dim : ℤ) (calls : List (ManagerCall μ τ δ)) :
    SameFor .chats (runManager mm dim calls).2 (callAll mm.messages (calls.filterMap ManagerCall.chat)) := by
  induction calls using List.reverseRecOn with
  | nil => exact fun _ _ => rfl
  | append_singleton calls call ih =>
    unfold runManager callAll at ih ⊢
    rw [List.foldl_concat, foldl_filterMap_snoc]
    exact sameFor_chat ih mm dim call

/-- And the chunks. -/
theorem chunks_runManager {json : ChunkJson ν μ} (hagree : DumpsAgree mm.backend json) (dim : ℤ)
    (calls : List (ManagerCall μ τ δ)) :
    SameFor .chunks (runManager mm dim calls).2
      (MemoryStore.runCalls json (calls.filterMap (ManagerCall.chunk mm)) .empty) := by
  induction calls using List.reverseRecOn with
  | nil => exact fun _ _ => rfl
  | append_singleton calls call ih =>
    unfold runManager MemoryStore.runCalls at ih ⊢
    rw [List.foldl_concat, foldl_filterMap_snoc]
    exact sameFor_chunk ih hagree dim call

/-! ## An agent -/

section

open RowJson

/-- The number of a text of the table; 5 for any other. -/
def skyEmbedder (text : Bytes) : Except PyError (List ℤ) :=
  match skyTable.rows.find? fun r => r.text = text with
  | some r => .ok [r.entry]
  | none => .ok [5]

/-- `str.capitalize` on ASCII letters -/
def asciiCapitalize (s : Bytes) : Bytes :=
  match lower s with
  | [] => []
  | b :: rest => (if 97 ≤ b ∧ b ≤ 122 then b - 32 else b) :: rest

def skyAgent : Agent ℤ ℤ (List Bytes) Unit (List Bytes) where
  backend := ⟨skyEmbedder, fun chunk => skyTable.chunks.dumps chunk.toDict, skyTable.json⟩
  payloads := skyTable.payloads
  floats := wholeFloats
  messages := ChatHistory.plainJson
  capitalize := asciiCapitalize

theorem sky_dumpsAgree : DumpsAgree skyAgent.backend skyTable.chunks :=
  ⟨fun _ => rfl, fun hembedding hdumps i => Table.dumps_chunk hembedding hdumps i⟩

/-- Two documents and a message before the manager is opened again, one of each after it. -/
def skyCalls : List (ManagerCall (List Bytes) Unit (List Bytes)) :=
  [.remember ⟨bytes "sky", some (bytes "a"), none, []⟩,
    .addChatTurn ⟨bytes "s", bytes "user", bytes "hello", none, ()⟩,
    .remember ⟨bytes "sea", some (bytes "b"), none, []⟩, .reopen,
    .remember ⟨bytes "sun", some (bytes "c"), none, []⟩,
    .addChatTurn ⟨bytes "s", bytes "assistant", bytes "hi", none, ()⟩]

end

/-! ## What the manager answers -/

/-- **Each part answers as if it were alone**: the chats as after their calls on an empty store, the
chunks as after theirs, and the vector store holds all that was remembered, also if it is
opened again. -/
theorem manager_parts {json : ChunkJson ν μ} (hagree : DumpsAgree mm.backend json) (dim : ℤ)
    (calls : List (ManagerCall μ τ δ)) (hfew : calls.length ≤ 10 ^ 8) :
    (∀ sessionId lastN, ChatHistory.getHistory mm.messages sessionId lastN (runManager mm dim calls).2 =
      ChatHistory.getHistory mm.messages sessionId lastN
        (callAll mm.messages (calls.filterMap ManagerCall.chat))) ∧
    (∀ docId chunkId, MemoryStore.getChunk json docId chunkId (runManager mm dim calls).2 =
      MemoryStore.getChunk json docId chunkId
        (MemoryStore.runCalls json (calls.filterMap (ManagerCall.chunk mm)) .empty)) ∧
    (runManager mm dim calls).1 = holding dim (remembered mm dim calls) ∧
    VectorStore.new mm.backend.json dim (runManager mm dim calls).2 = .ok (runManager mm dim calls).1 := by
  obtain ⟨hopened, hstores⟩ := holds_runManager hagree dim calls hfew
  refine ⟨fun sessionId lastN => (chats_runManager mm dim calls).getHistory sessionId lastN,
    fun docId chunkId => ?_,
    hopened, ?_⟩
  · unfold MemoryStore.getChunk
    rw [chunks_runManager hagree dim calls _ (partOf_chunkKey docId chunkId)]
  · rw [hopened]
    exact hstores.new ((length_remembered_le mm dim calls).trans hfew)

theorem manager_parts_sky :
    ChatHistory.getHistory skyAgent.messages (bytes "s") none (runManager skyAgent 1 skyCalls).2 =
      .ok [⟨bytes "user", bytes "hello", (), []⟩, ⟨bytes "assistant", bytes "hi", (), []⟩] ∧
    MemoryStore.getChunk skyTable.chunks (bytes "b") 0 (runManager skyAgent 1 skyCalls).2 =
      .ok (some ⟨bytes "b", 0, bytes "sea", [], some [-4]⟩) ∧
    VectorStore.new skyTable.json 1 (runManager skyAgent 1 skyCalls).2 =
    .ok (runManager skyAgent 1 skyCalls).1 := by
  obtain ⟨hhistory, hchunk, -, hnew⟩ := manager_parts sky_dumpsAgree 1 skyCalls (by decide)
  refine ⟨?_, ?_, hnew⟩
  · rw [hhistory]
    decide +kernel
  · rw [hchunk]
    decide +kernel

/-- `recall` by the parts that it reads. -/
theorem Holds.recall (h : Holds mm dim docs st) {engine' : Engine} (hchats : SameFor .chats st.2 engine')
    {query : Bytes} {queryVec : List ν} {q : List φ} (hembed : embed mm.backend query = .ok queryVec)
    (hq : queryVec.mapM mm.backend.json.float = .ok q) (hdim : (queryVec.length : ℤ) = dim)
    (hcmp : ∀ ts, scored mm.floats q docs = .ok ts → mm.floats.Compares Prod.snd ts)
    (sessionId : Option Bytes) (topK lastN : ℤ) :
    MemoryManager.recall mm query sessionId topK lastN st.1 st.2 = (do
      let hits ← best mm.floats mm.payloads.restored q topK docs
      let messages ← recentMessages mm.messages sessionId lastN engine'
      pure (recalled mm.capitalize query hits messages)) := by
  have hmessages : recentMessages mm.messages sessionId lastN st.2 =
      recentMessages mm.messages sessionId lastN engine' := by
    cases sessionId with
    | none => rfl
    | some s =>
      unfold recentMessages
      simp only [hchats.getHistory s (some lastN)]
  unfold MemoryManager.recall
  rw [hembed, h.1, hmessages]
  simp only [bind, Except.bind]
  rw [h.2.search hdim hq hcmp]

/-- **`recall` returns the best of all that was remembered**, and the last turns of the session. -/
theorem recall_remembered {json : ChunkJson ν μ} (hagree : DumpsAgree mm.backend json)
    (calls : List (ManagerCall μ τ δ))
    (hfew : calls.length ≤ 10 ^ 8) {query : Bytes} {queryVec : List ν} {q : List φ}
    (hembed : embed mm.backend query = .ok queryVec) (hq : queryVec.mapM mm.backend.json.float = .ok q)
    (hdim : (queryVec.length : ℤ) = dim)
    (hcmp : ∀ ts, scored mm.floats q (remembered mm dim calls) = .ok ts → mm.floats.Compares Prod.snd ts)
    (sessionId : Option Bytes) (topK lastN : ℤ) :
    MemoryManager.recall mm query sessionId topK lastN (runManager mm dim calls).1
      (runManager mm dim calls).2 = (do
      let hits ← best mm.floats mm.payloads.restored q topK (remembered mm dim calls)
      let messages ← recentMessages mm.messages sessionId lastN
        (callAll mm.messages (calls.filterMap ManagerCall.chat))
      pure (recalled mm.capitalize query hits messages)) :=
  (holds_runManager hagree dim calls hfew).recall (chats_runManager mm dim calls) hembed hq hdim hcmp
    sessionId topK lastN

theorem recall_remembered_sky :
    MemoryManager.recall skyAgent (bytes "?") (some (bytes "s")) 2 5 (runManager skyAgent 1 skyCalls).1
      (runManager skyAgent 1 skyCalls).2 =
    .ok ⟨bytes "?", [⟨bytes "sky", 1, []⟩, ⟨bytes "sun", 1, []⟩],
      [⟨bytes "user", bytes "hello", ()⟩, ⟨bytes "assistant", bytes "hi", ()⟩],
      bytes "### Relevant Knowledge:\n- sky\n- sun\n\n### Conversation History:\nUser: hello\nAssistant: hi"⟩ := by
  have hq : embed skyAgent.backend (bytes "?") = .ok [5] := by decide +kernel
  rw [recall_remembered (q := [5]) sky_dumpsAgree skyCalls (by decide) hq rfl (by decide) fun ts _ =>
    compares_whole Prod.snd ts]
  decide +kernel

end MemoryManager

end LsmTree
