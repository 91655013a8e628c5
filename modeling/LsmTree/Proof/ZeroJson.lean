import LsmTree.Spec.VectorStore
import LsmTree.Proof.Numerals

/-!
# The JSON of zero vectors

`zeroJson` writes the payloads of one document, with text `t`, whose embedding has zeros
only, as `json.dumps` does. The metadata stands for a list of values that have no JSON.
-/

namespace LsmTree

open Base

namespace VectorStore

/-- A payload whose embedding is a number of zeros. -/
abbrev ZeroPayload := VectorPayload Unit (List Bytes)

def idPart : Bytes := bytes "\x7b\"int_id\": "

def textPart : Bytes := bytes ", \"doc_id\": \"d\", \"text\": \"t\", \"embedding\": ["

def metadataPart : Bytes := bytes "], \"metadata\": \x7b\x7d\x7d"

/-- `0.0`, so often, with commas between them -/
def zeros : ℕ → Bytes
  | 0 => []
  | 1 => bytes "0.0"
  | n + 2 => bytes "0.0, " ++ zeros (n + 1)

def zeroText (id n : ℕ) : Bytes := idPart ++ (decimal id ++ (textPart ++ (zeros n ++ metadataPart)))

def zeroDumps (p : ZeroPayload) : Except PyError Bytes :=
  if p.metadata = [] ∧ p.docId = bytes "d" ∧ p.text = bytes "t" ∧ 0 ≤ p.intId then
    .ok (zeroText p.intId.toNat p.embedding.length)
  else .error .typeError

/-- The id is read, and the number of zeros is told from the length. -/
def zeroLoads (payload : Bytes) : Except PyError ZeroPayload :=
  let id := (payload.drop idPart.length).takeWhile isDigit
  let n := (payload.length + 2 - (idPart.length + id.length + textPart.length + metadataPart.length)) / 5
  if payload = zeroText (digitsValue id) n then
    .ok ⟨digitsValue id, bytes "d", bytes "t", List.replicate n (), []⟩
  else .error (.valueError (bytes "Expecting value"))

theorem length_zeros (n : ℕ) : (zeros n).length + 2 = if n = 0 then 2 else 5 * n := by
  induction n using zeros.induct with
  | case1 => rfl
  | case2 => rfl
  | case3 n ih =>
    have hlen : (bytes "0.0, ").length = 5 := rfl
    rw [if_neg (by omega)] at ih
    rw [zeros, List.length_append, hlen, if_neg (by omega)]
    omega

theorem zeroLoads_zeroText (id n : ℕ) :
    zeroLoads (zeroText id n) = .ok ⟨id, bytes "d", bytes "t", List.replicate n (), []⟩ := by
  have hid : ((zeroText id n).drop idPart.length).takeWhile isDigit = decimal id := by
    unfold zeroText
    rw [List.drop_left, List.takeWhile_append_of_pos isDigit_of_mem_decimal]
    have hstop : (textPart ++ (zeros n ++ metadataPart)).takeWhile isDigit = [] := rfl
    rw [hstop, List.append_nil]
  have hlen : ((zeroText id n).length + 2 -
      (idPart.length + (decimal id).length + textPart.length + metadataPart.length)) / 5 = n := by
    have hzeros := length_zeros n
    unfold zeroText
    simp only [List.length_append]
    split at hzeros <;> omega
  unfold zeroLoads
  simp only [hid, hlen, digitsValue_decimal, if_true]

/-- The JSON of payloads of zeros. -/
def zeroJson : VectorJson Unit Unit (List Bytes) where
  float := .ok
  ofFloat := id
  float_ofFloat _ := rfl
  dumps := zeroDumps
  loads := zeroLoads
  loads_dumps := by
    intro p payload h
    unfold zeroDumps at h
    split at h
    · rename_i hplain
      refine ⟨_, by rw [← Except.ok.inj h, zeroLoads_zeroText], Int.toNat_of_nonneg hplain.2.2.2, ?_⟩
      have hunit : List.replicate p.embedding.length () = p.embedding :=
        (List.eq_replicate_of_mem fun _ _ => rfl).symm
      simp only [hunit]
    · cases h

end VectorStore

end LsmTree
