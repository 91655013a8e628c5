import LsmTree.Base.Layers
import LsmTree.Spec.MemoryManager
import LsmTree.Proof.ChatJson

/-!
# The memory store is a map

* `chunkKey_inj`: document and number are determined by the key: the number has no colon,
  so the last colon of the key is the one between the two.
* `run_write`: what a call changes.
* `getChunk_last`: so `get_chunk` answers the last call under the same pair.

`chunkJson` at the end writes the dictionaries of plain chunks as `json.dumps` does.
-/

namespace LsmTree

open Base

/-! ## Keys -/

theorem notMem_pad {b : UInt8} (hb : isDigit b = false) (w n : ℕ) : b ∉ pad w n := fun h => by
  rw [isDigit_of_mem_pad h] at hb
  exact absurd hb (by decide)

/-- **Different integers are written differently**, whatever the width. -/
theorem zeroPad_inj {w : ℕ} {i j : ℤ} (h : zeroPad w i = zeroPad w j) : i = j := by
  have hminus : ∀ v n rest, 45 :: rest ≠ pad v n := fun v n rest heq =>
    notMem_pad (by decide) v n (heq ▸ List.mem_cons_self)
  unfold zeroPad at h
  split at h
  · rename_i hi
    split at h
    · rename_i hj
      have habs := pad_inj (List.cons.inj h).2
      omega
    · exact absurd h (hminus _ _ _)
  · rename_i hi
    split at h
    · exact absurd h.symm (hminus _ _ _)
    · rename_i hj
      have habs := pad_inj h
      omega

namespace MemoryStore

open ChatHistory (colon stringAt stringAt_escape)

variable {d d' : Bytes} {c c' : ℤ}

theorem colon_notMem_zeroPad (w : ℕ) (i : ℤ) : colon ∉ zeroPad w i := by
  unfold zeroPad
  split
  · rw [List.mem_cons, not_or]
    exact ⟨by decide, notMem_pad (by decide) _ _⟩
  · exact notMem_pad (by decide) _ _

theorem chunkKey_eq (d : Bytes) (c : ℤ) : chunkKey d c = bytes "doc:" ++ (d ++ colon :: zeroPad 6 c) := by
  unfold chunkKey
  rw [List.append_assoc, List.append_assoc]
  rfl

/-- **Document and number are determined by the key.** -/
theorem chunkKey_inj (h : chunkKey d c = chunkKey d' c') : d = d' ∧ c = c' := by
  rw [chunkKey_eq, chunkKey_eq] at h
  obtain ⟨hd, hc⟩ := split_last (List.append_cancel_left h) (colon_notMem_zeroPad 6 c) (colon_notMem_zeroPad 6 c')
  exact ⟨hd, zeroPad_inj hc⟩

/-! ## Calls -/

variable {ν μ : Type} {json : ChunkJson ν μ} {engine : Engine}

inductive ChunkCall (ν μ : Type) where
  | putChunk (chunk : MemoryChunk ν μ)
  | deleteChunk (docId : Bytes) (chunkId : ℤ)

namespace ChunkCall

/-- The pair a call is made under. -/
def pair : ChunkCall ν μ → Bytes × ℤ
  | .putChunk chunk => (chunk.docId, chunk.chunkId)
  | .deleteChunk docId chunkId => (docId, chunkId)

/-- A call on a store that takes every put. -/
def run (json : ChunkJson ν μ) : ChunkCall ν μ → Engine → Except PyError Unit × Engine
  | .putChunk chunk, engine => MemoryStore.putChunk (fun chunk => json.dumps chunk.toDict) .stored chunk engine
  | .deleteChunk docId chunkId, engine => (.ok (), MemoryStore.deleteChunk docId chunkId engine)

/-- What a call writes under its pair: a chunk that has a JSON, or `none` for a deletion. -/
def write (json : ChunkJson ν μ) : ChunkCall ν μ → Option ((Bytes × ℤ) × Option (MemoryChunk ν μ))
  | .putChunk chunk =>
    match json.dumps chunk.toDict with
    | .ok _ => some ((chunk.docId, chunk.chunkId), some chunk)
    | .error _ => none
  | .deleteChunk docId chunkId => some ((docId, chunkId), none)

end ChunkCall

/-- Calls one after another, also behind one that raised. -/
def runCalls (json : ChunkJson ν μ) (calls : List (ChunkCall ν μ)) (engine : Engine) : Engine :=
  calls.foldl (fun engine call => (call.run json engine).2) engine

theorem pair_of_write {call : ChunkCall ν μ} {w : (Bytes × ℤ) × Option (MemoryChunk ν μ)}
    (h : call.write json = some w) : w.1 = call.pair := by
  cases call with
  | putChunk chunk =>
    unfold ChunkCall.write at h
    simp only at h
    split at h
    · rw [← Option.some.inj h]
      rfl
    · cases h
  | deleteChunk docId chunkId =>
    rw [← Option.some.inj h]
    rfl

variable [EmptyCollection μ]

/-- What `get_chunk` answers under each pair. -/
def answers (json : ChunkJson ν μ) (engine : Engine) (p : Bytes × ℤ) : Except PyError (Option (MemoryChunk ν μ)) :=
  getChunk json p.1 p.2 engine

theorem answers_put {chunk : MemoryChunk ν μ} {payload : Bytes} (h : json.dumps chunk.toDict = .ok payload) :
    answers json (engine.put (chunkKey chunk.docId chunk.chunkId) payload) =
      Function.update (answers json engine) (chunk.docId, chunk.chunkId) (.ok (some chunk)) := by
  funext p
  by_cases hp : p = (chunk.docId, chunk.chunkId)
  · subst hp
    rw [Function.update_self]
    unfold answers getChunk
    rw [OrderedMap.get_put_self]
    simp only [json.loads_dumps h, bind, Except.bind, MemoryChunk.fromDict_toDict, pure, Except.pure]
  · rw [Function.update_of_ne hp]
    unfold answers getChunk
    rw [OrderedMap.get_put_of_ne]
    intro hkey
    obtain ⟨hd, hc⟩ := chunkKey_inj hkey
    exact hp (Prod.ext hd.symm hc.symm)

theorem answers_delete (docId : Bytes) (chunkId : ℤ) : answers json (deleteChunk docId chunkId engine) =
    Function.update (answers json engine) (docId, chunkId) (.ok none) := by
  funext p
  unfold answers getChunk deleteChunk
  rw [OrderedMap.get_delete]
  by_cases hp : p = (docId, chunkId)
  · subst hp
    rw [Function.update_self, if_pos rfl]
  · rw [Function.update_of_ne hp, if_neg]
    intro hkey
    obtain ⟨hd, hc⟩ := chunkKey_inj hkey
    exact hp (Prod.ext hd.symm hc.symm)

/-- **One call** answers under its pair what it wrote, and nothing changes if it wrote nothing. -/
theorem run_write (json : ChunkJson ν μ) (call : ChunkCall ν μ) (engine : Engine) :
    answers json (call.run json engine).2 = (call.write json).elim (answers json engine)
      fun w => Function.update (answers json engine) w.1 (.ok w.2) := by
  cases call with
  | putChunk chunk =>
    simp only [ChunkCall.run, ChunkCall.write, MemoryStore.putChunk]
    cases h : json.dumps chunk.toDict with
    | error err => rfl
    | ok payload => exact answers_put h
  | deleteChunk docId chunkId => exact answers_delete docId chunkId

/-- Under another pair the answer stays. -/
theorem getChunk_other (json : ChunkJson ν μ) {call : ChunkCall ν μ} (hne : call.pair ≠ (d, c)) (engine : Engine) :
    getChunk json d c (call.run json engine).2 = getChunk json d c engine := by
  have h := congrFun (run_write json call engine) (d, c)
  cases hw : call.write json with
  | none => rwa [hw] at h
  | some w =>
    rw [hw, Option.elim_some, Function.update_of_ne] at h
    · exact h
    · rw [pair_of_write hw]
      exact hne.symm

/-- **Every run** answers the last writes. -/
theorem answers_runCalls (json : ChunkJson ν μ) (calls : List (ChunkCall ν μ)) :
    answers json (runCalls json calls .empty) =
      fun p => .ok (lastWrite (calls.filterMap fun call => call.write json) p).join := by
  induction calls using List.reverseRecOn with
  | nil => rfl
  | append_singleton calls call ih =>
    unfold runCalls at ih ⊢
    rw [List.foldl_append, List.foldl_cons, List.foldl_nil, run_write, ih, List.filterMap_append]
    cases hw : call.write json with
    | none => simp [hw]
    | some w =>
      rw [List.filterMap_cons_some hw, List.filterMap_nil, lastWrite_snoc]
      funext p
      by_cases hp : p = w.1
      · subst hp
        simp
      · simp [Function.update_of_ne hp]

/-- **The memory store is a map**: `get_chunk` answers the last call under the pair, and a call
under one pair changes no other. -/
theorem getChunk_last (json : ChunkJson ν μ) (calls : List (ChunkCall ν μ)) (d : Bytes) (c : ℤ) :
    getChunk json d c (runCalls json calls .empty) =
      .ok (lastWrite (calls.filterMap fun call => call.write json) (d, c)).join ∧
    ∀ (call : ChunkCall ν μ) (engine : Engine), call.pair ≠ (d, c) →
      getChunk json d c (call.run json engine).2 = getChunk json d c engine :=
  ⟨congrFun (answers_runCalls json calls) (d, c), fun _ engine hne => getChunk_other json hne engine⟩

/-! ## The JSON of plain chunks -/

def docPart : Bytes := bytes "\x7b\"doc_id\": \""

def chunkPart : Bytes := bytes "\", \"chunk_id\": "

def textPart : Bytes := bytes ", \"text\": \""

def endPart : Bytes := bytes "\", \"metadata\": \x7b\x7d, \"embedding\": null\x7d"

def chunkText (docId : Bytes) (chunkId : ℕ) (text : Bytes) : Bytes :=
  docPart ++ WAL.escapeJSON docId ++ chunkPart ++ decimal chunkId ++ textPart ++ WAL.escapeJSON text ++ endPart

def chunkDumps (d : ChunkDict Unit (List Bytes)) : Except PyError Bytes :=
  match d with
  | ⟨some docId, some (.ofNat n), some text, some [], some none⟩ => .ok (chunkText docId n text)
  | _ => .error .typeError

def chunkLoads (payload : Bytes) : Except PyError (ChunkDict Unit (List Bytes)) :=
  let (docId, docEnd) := stringAt payload docPart.length
  let digits := (payload.drop (docEnd + chunkPart.length)).takeWhile isDigit
  let (text, _) := stringAt payload (docEnd + chunkPart.length + digits.length + textPart.length)
  if payload = chunkText docId (digitsValue digits) text then
    .ok ⟨some docId, some (digitsValue digits), some text, some [], some none⟩
  else .error (.valueError (bytes "Expecting value"))

theorem chunkLoads_chunkText (docId : Bytes) (n : ℕ) (text : Bytes) :
    chunkLoads (chunkText docId n text) = .ok ⟨some docId, some n, some text, some [], some none⟩ := by
  have hquote : ∀ part : Bytes, part.head? = some WAL.dquote → WAL.dquote :: part.tail = part := by
    intro part hpart
    rw [List.head?_eq_some_iff] at hpart
    obtain ⟨rest, rfl⟩ := hpart
    rfl
  have hdoc : stringAt (chunkText docId n text) docPart.length =
      (docId, docPart.length + (WAL.escapeJSON docId).length) := by
    have h := stringAt_escape docPart docId
      (chunkPart.tail ++ decimal n ++ textPart ++ WAL.escapeJSON text ++ endPart)
    have htext : docPart ++ WAL.escapeJSON docId ++
        WAL.dquote :: (chunkPart.tail ++ decimal n ++ textPart ++ WAL.escapeJSON text ++ endPart) =
        chunkText docId n text := by
      unfold chunkText
      rw [← hquote chunkPart (by decide)]
      simp
    rwa [htext] at h
  have hdigits : ((chunkText docId n text).drop
      (docPart.length + (WAL.escapeJSON docId).length + chunkPart.length)).takeWhile isDigit = decimal n := by
    have htext : chunkText docId n text = (docPart ++ WAL.escapeJSON docId ++ chunkPart) ++
        (decimal n ++ (textPart ++ (WAL.escapeJSON text ++ endPart))) := by
      unfold chunkText
      simp only [List.append_assoc]
    have hlen : docPart.length + (WAL.escapeJSON docId).length + chunkPart.length =
        (docPart ++ WAL.escapeJSON docId ++ chunkPart).length := by
      rw [List.length_append, List.length_append]
    have hstop : (textPart ++ (WAL.escapeJSON text ++ endPart)).takeWhile isDigit = [] := rfl
    rw [htext, hlen, List.drop_left, List.takeWhile_append_of_pos isDigit_of_mem_decimal, hstop, List.append_nil]
  have htext : (stringAt (chunkText docId n text)
    (docPart.length + (WAL.escapeJSON docId).length + chunkPart.length +
      (decimal n).length + textPart.length)).1 = text := by
    have h := stringAt_escape (docPart ++ WAL.escapeJSON docId ++ chunkPart ++ decimal n ++
      textPart) text endPart.tail
    rw [hquote endPart (by decide)] at h
    simp only [List.length_append] at h
    exact congrArg Prod.fst h
  unfold chunkLoads
  simp only [hdoc, hdigits, htext, digitsValue_decimal, if_true]

/-- The JSON of chunks without metadata and embedding whose number is not negative. -/
def chunkJson : ChunkJson Unit (List Bytes) where
  dumps := chunkDumps
  loads := chunkLoads
  loads_dumps := by
    intro d payload h
    unfold chunkDumps at h
    split at h
    · rw [← Except.ok.inj h, chunkLoads_chunkText]
      rfl
    · cases h

/-- A document that looks like the end of another key, and one that is deleted again. -/
def sampleCalls : List (ChunkCall Unit (List Bytes)) :=
  [.putChunk ⟨bytes "a:000001", 2, bytes "x", [], none⟩, .putChunk ⟨bytes "a", 1000001, bytes "y", [], none⟩,
    .putChunk ⟨[], 0, bytes "z", [], none⟩, .deleteChunk [] 0]

theorem getChunk_last_sample :
    getChunk chunkJson (bytes "a:000001") 2 (runCalls chunkJson sampleCalls .empty) =
      .ok (some ⟨bytes "a:000001", 2, bytes "x", [], none⟩) ∧
    getChunk chunkJson [] 0 (runCalls chunkJson sampleCalls .empty) = .ok none ∧
    ∀ engine, getChunk chunkJson (bytes "a") 2
      ((ChunkCall.deleteChunk (bytes "a:000002") 2).run chunkJson engine).2 =
      getChunk chunkJson (bytes "a") 2 engine := by
  refine ⟨?_, ?_, fun engine => ?_⟩
  · rw [(getChunk_last chunkJson sampleCalls (bytes "a:000001") 2).1]
    decide +kernel
  · rw [(getChunk_last chunkJson sampleCalls [] 0).1]
    decide +kernel
  · exact (getChunk_last chunkJson sampleCalls (bytes "a") 2).2 _ engine (by decide)

end MemoryStore

end LsmTree
