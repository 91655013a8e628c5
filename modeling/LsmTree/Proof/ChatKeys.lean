import LsmTree.Spec.ChatHistory
import LsmTree.Proof.Numerals

/-!
# The keys of a chat

* `turnKey_inj`: the session and the number of a turn are determined by its key.
* `chatPrefix_turnKey`: what a scan of a session meets: its own turns, and those of each
  session whose id starts with this session's id and a colon.
* `turnKey_lt`: the keys of the first `10 ^ 8` turns stand in the order of their numbers.
  The next one does not (`turnKey_wrong_order`).
-/

namespace LsmTree

open Base

/-! ## Strings -/

/-- The last occurrence of a separator splits a string in one way. -/
theorem split_last {α : Type} {a a' b b' : List α} {c : α} (h : a ++ c :: b = a' ++ c :: b') (hb : c ∉ b)
    (hb' : c ∉ b') : a = a' ∧ b = b' := by
  rcases List.append_eq_append_iff.1 h with ⟨t, ha, ht⟩ | ⟨t, ha, ht⟩
  · cases t with
    | nil => exact ⟨by rw [ha, List.append_nil], (List.cons.inj ht).2⟩
    | cons x t =>
      refine absurd ?_ hb
      rw [(List.cons.inj ht).2]
      exact List.mem_append_right t List.mem_cons_self
  · cases t with
    | nil => exact ⟨by rw [ha, List.append_nil], (List.cons.inj ht).2.symm⟩
    | cons x t =>
      refine absurd ?_ hb'
      rw [(List.cons.inj ht).2]
      exact List.mem_append_right t List.mem_cons_self

/-! ## Turns -/

namespace ChatHistory

variable {s t : Bytes} {i j : ℕ}

/-- `:` -/
def colon : UInt8 := 58

theorem colon_notMem_pad (w n : ℕ) : colon ∉ pad w n := fun h =>
  absurd (isDigit_of_mem_pad h) (by decide)

theorem turnKey_eq (s : Bytes) (i : ℕ) : turnKey s i = bytes "chat:" ++ (s ++ colon :: pad 8 i) := by
  unfold turnKey chatPrefix
  rw [zeroPad_natCast, List.append_assoc, List.append_assoc]
  rfl

/-- **Session and number are determined by the key.** -/
theorem turnKey_inj (h : turnKey s i = turnKey t j) : s = t ∧ i = j := by
  rw [turnKey_eq, turnKey_eq] at h
  obtain ⟨hs, hp⟩ := split_last (List.append_cancel_left h) (colon_notMem_pad 8 i) (colon_notMem_pad 8 j)
  exact ⟨hs, pad_inj hp⟩

theorem metaKey_inj (h : metaKey s = metaKey t) : s = t := List.append_cancel_left h

/-- A counter is not a turn. -/
theorem metaKey_ne_prefix (s t : Bytes) (rest : Bytes) : metaKey s ≠ chatPrefix t ++ rest := by
  intro h
  have hhead := congrArg List.head? h
  exact absurd hhead (by simp [metaKey, chatPrefix, bytes])

theorem metaKey_ne_turnKey (s t : Bytes) (i : ℤ) : metaKey s ≠ turnKey t i := metaKey_ne_prefix s t _

/-- The session `t` is **nested** in `s`: its id starts with the id of `s` and a colon. -/
def Nested (s t : Bytes) : Prop := s ++ [colon] <+: t

instance (s t : Bytes) : Decidable (Nested s t) := by
  unfold Nested
  infer_instance

theorem Nested.ne (h : Nested s t) : t ≠ s := by
  rintro rfl
  have hlen := h.length_le
  rw [List.length_append, List.length_singleton] at hlen
  omega

/-- **Which turns a scan of a session meets**: its own and those of nested sessions. -/
theorem chatPrefix_turnKey : chatPrefix s <+: turnKey t i ↔ t = s ∨ Nested s t := by
  have hchat : chatPrefix s <+: turnKey t i ↔ s ++ [colon] <+: t ++ colon :: pad 8 i := by
    rw [turnKey_eq]
    unfold chatPrefix
    rw [List.append_assoc]
    exact List.prefix_append_right_inj _
  rw [hchat]
  constructor
  · rintro ⟨rest, h⟩
    rw [List.append_assoc, List.singleton_append] at h
    rcases List.append_eq_append_iff.1 h with ⟨u, ht, hu⟩ | ⟨u, hs, hu⟩
    · cases u with
      | nil => exact Or.inl (by rw [ht, List.append_nil])
      | cons c u =>
        obtain ⟨rfl, -⟩ := List.cons.inj hu
        exact Or.inr ⟨u, by rw [ht]; simp⟩
    · cases u with
      | nil => exact Or.inl (by rw [hs, List.append_nil])
      | cons c u =>
        -- the colon behind `s` would stand in the number
        refine absurd ?_ (colon_notMem_pad 8 i)
        rw [(List.cons.inj hu).2]
        exact List.mem_append_right u List.mem_cons_self
  · rintro (rfl | ⟨rest, h⟩)
    · exact ⟨pad 8 i, by simp⟩
    · refine ⟨rest ++ colon :: pad 8 i, ?_⟩
      rw [← List.append_assoc, h]

theorem not_chatPrefix_metaKey (s t : Bytes) : ¬ chatPrefix s <+: metaKey t := fun ⟨rest, h⟩ =>
  metaKey_ne_prefix t s rest h.symm

/-- **The first `10 ^ 8` turns stand in order.** -/
theorem turnKey_lt (s : Bytes) (hij : i < j) (hj : j < 10 ^ 8) : turnKey s i < turnKey s j := by
  unfold turnKey
  rw [zeroPad_natCast, zeroPad_natCast]
  exact List.append_left_lt (pad_lt hij hj (by norm_num))

/-- Turn `100000000` stands before turn `10000001`. -/
theorem turnKey_wrong_order (s : Bytes) : turnKey s (10 ^ 8 : ℕ) < turnKey s (10000001 : ℕ) := by
  unfold turnKey
  rw [zeroPad_natCast, zeroPad_natCast]
  have h : pad 8 (10 ^ 8) < pad 8 10000001 := by decide +kernel
  exact List.append_left_lt h

end ChatHistory

end LsmTree
