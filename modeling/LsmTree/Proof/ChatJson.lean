import LsmTree.Proof.Escape
import LsmTree.Proof.ChatKeys

/-!
# The JSON of plain messages

`plainJson` writes ASCII messages as `json.dumps` does, at time zero. The metadata stands
for a list of values that have no JSON, so only messages without any can be written.
-/

namespace LsmTree

open Base WAL

namespace ChatHistory

abbrev PlainMessage := ChatMessage Unit (List Bytes)

def rolePart : Bytes := bytes "\x7b\"role\": \""

def contentPart : Bytes := bytes "\", \"content\": \""

def timePart : Bytes := bytes "\", \"timestamp\": 0.0, \"metadata\": \x7b\x7d\x7d"

def plainText (role content : Bytes) : Bytes :=
  rolePart ++ escapeJSON role ++ contentPart ++ escapeJSON content ++ timePart

/-- The string from `start` to its closing quote, and the place of the quote. -/
def stringAt (text : Bytes) (start : ℕ) : Bytes × ℕ :=
  let end_ := endQuote text start (text.length - start) start
  (unescapeJSON ((text.drop start).take (end_ - start)), end_)

def plainLoads (payload : Bytes) : Except PyError PlainMessage :=
  let (role, roleEnd) := stringAt payload rolePart.length
  let (content, _) := stringAt payload (roleEnd + contentPart.length)
  if payload = plainText role content then .ok ⟨role, content, (), []⟩
  else .error (.valueError (bytes "Expecting value"))

def plainDumps (msg : PlainMessage) : Except PyError Bytes :=
  if msg.metadata = [] then .ok (plainText msg.role msg.content) else .error .typeError

theorem stringAt_escape (pre s rest : Bytes) : stringAt (pre ++ escapeJSON s ++ dquote :: rest) pre.length =
    (s, pre.length + (escapeJSON s).length) := by
  unfold stringAt
  simp only [endQuote_escape, Nat.add_sub_cancel_left]
  rw [List.append_assoc, List.drop_left, List.take_left, unescape_escape]

theorem plainLoads_plainText (role content : Bytes) :
    plainLoads (plainText role content) = .ok ⟨role, content, (), []⟩ := by
  have hrole : stringAt (plainText role content) rolePart.length =
      (role, rolePart.length + (escapeJSON role).length) := by
    have h := stringAt_escape rolePart role (contentPart.tail ++ escapeJSON content ++ timePart)
    have htext : rolePart ++ escapeJSON role ++ dquote :: (contentPart.tail ++ escapeJSON content ++ timePart) =
        plainText role content := by
      have hquote : dquote :: contentPart.tail = contentPart := by decide
      unfold plainText
      rw [← hquote]
      simp
    rwa [htext] at h
  have hcontent : (stringAt (plainText role content)
      (rolePart.length + (escapeJSON role).length + contentPart.length)).1 = content := by
    have h := stringAt_escape (rolePart ++ escapeJSON role ++ contentPart) content timePart.tail
    have htext : rolePart ++ escapeJSON role ++ contentPart ++ escapeJSON content ++ dquote :: timePart.tail =
        plainText role content := by
      have hquote : dquote :: timePart.tail = timePart := by decide
      unfold plainText
      rw [hquote]
    rw [htext, List.length_append, List.length_append] at h
    rw [h]
  unfold plainLoads
  simp only [hrole, hcontent, if_true]

/-- The JSON of messages without metadata. -/
def plainJson : MessageJson Unit (List Bytes) where
  dumps := plainDumps
  loads := plainLoads
  loads_dumps := by
    rintro ⟨role, content, ⟨⟩, metadata⟩ payload h
    unfold plainDumps at h
    split at h
    · rename_i hnil
      simp only at hnil
      rw [← Except.ok.inj h, plainLoads_plainText, hnil]
    · cases h
  dumps_plain := fun msg h => ⟨_, if_pos h⟩

end ChatHistory

end LsmTree
