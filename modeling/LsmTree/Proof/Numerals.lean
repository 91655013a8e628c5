import LsmTree.Spec.Python

/-!
# Padded numerals

* `pad_inj`: different numbers are written differently, whatever the width.
* `pad_lt`: numbers that fit the width are written in their order.
-/

namespace LsmTree

open Base

theorem digitsValue_append (ds : Bytes) (b : UInt8) :
    digitsValue (ds ++ [b]) = 10 * digitsValue ds + (b.toNat - 48) := by
  unfold digitsValue
  rw [List.foldl_append]
  rfl

theorem digitsValue_cons (b : UInt8) (ds : Bytes) :
    digitsValue (b :: ds) = (b.toNat - 48) * 10 ^ ds.length + digitsValue ds := by
  induction ds using List.reverseRecOn with
  | nil => simp [digitsValue]
  | append_singleton ds c ih =>
    rw [← List.cons_append, digitsValue_append, digitsValue_append, ih, List.length_append, List.length_singleton,
      pow_succ]
    ring

theorem toNat_of_isDigit {b : UInt8} (h : isDigit b = true) : 48 ≤ b.toNat ∧ b.toNat ≤ 57 := by
  unfold isDigit at h
  simp only [Bool.and_eq_true, decide_eq_true_eq] at h
  exact ⟨UInt8.le_iff_toNat_le.1 h.1, UInt8.le_iff_toNat_le.1 h.2⟩

theorem digitsValue_lt {ds : Bytes} (h : ∀ b ∈ ds, isDigit b = true) : digitsValue ds < 10 ^ ds.length := by
  induction ds with
  | nil => exact Nat.one_pos
  | cons b ds ih =>
    have hb := toNat_of_isDigit (h b List.mem_cons_self)
    have hds := ih fun c hc => h c (List.mem_cons_of_mem _ hc)
    have hmul : (b.toNat - 48) * 10 ^ ds.length ≤ 9 * 10 ^ ds.length := Nat.mul_le_mul_right _ (by omega)
    rw [digitsValue_cons, List.length_cons, pow_succ]
    omega

/-- Numerals of one length are ordered as their numbers. -/
theorem lt_of_digitsValue_lt : ∀ {ds es : Bytes}, ds.length = es.length → (∀ b ∈ ds, isDigit b = true) →
    (∀ b ∈ es, isDigit b = true) → digitsValue ds < digitsValue es → ds < es := by
  intro ds
  induction ds with
  | nil =>
    intro es hlen _ _ hlt
    obtain rfl : es = [] := List.length_eq_zero_iff.1 hlen.symm
    exact absurd hlt (lt_irrefl _)
  | cons b ds ih =>
    intro es hlen hds hes hlt
    cases es with
    | nil => exact absurd hlen (by simp)
    | cons c es =>
      have htail : ds.length = es.length := by simpa using hlen
      have hb := toNat_of_isDigit (hds b List.mem_cons_self)
      have hc := toNat_of_isDigit (hes c List.mem_cons_self)
      have hds' : ∀ x ∈ ds, isDigit x = true := fun x hx => hds x (List.mem_cons_of_mem _ hx)
      have hes' : ∀ x ∈ es, isDigit x = true := fun x hx => hes x (List.mem_cons_of_mem _ hx)
      rw [digitsValue_cons, digitsValue_cons, htail] at hlt
      rcases lt_trichotomy b c with hbc | rfl | hcb
      · exact List.cons_lt_cons_iff.2 (Or.inl hbc)
      · exact List.cons_lt_cons_iff.2 (Or.inr ⟨rfl, ih htail hds' hes' (by omega)⟩)
      · -- a greater first digit makes a greater number
        have hcb := UInt8.lt_iff_toNat_lt.1 hcb
        have hle := digitsValue_lt hes'
        have hmul : (c.toNat - 48 + 1) * 10 ^ es.length ≤ (b.toNat - 48) * 10 ^ es.length :=
          Nat.mul_le_mul_right _ (by omega)
        rw [Nat.add_mul, Nat.one_mul] at hmul
        omega

theorem digitsValue_pad (w n : ℕ) : digitsValue (pad w n) = n := by
  unfold pad
  induction w - (decimal n).length with
  | zero => rw [List.replicate_zero, List.nil_append, digitsValue_decimal]
  | succ k ih =>
    rw [List.replicate_succ, List.cons_append, digitsValue_cons, ih]
    simp

theorem pad_inj {w i j : ℕ} (h : pad w i = pad w j) : i = j := by
  rw [← digitsValue_pad w i, h, digitsValue_pad]

/-- A number below `10 ^ w` has at most `w` digits. -/
theorem length_pad {w n : ℕ} (h : n < 10 ^ w) (hw : 0 < w) : (pad w n).length = w := by
  have hlen : (decimal n).length ≤ w := by
    unfold decimal
    split
    · exact hw
    · rw [List.length_map, List.length_reverse]
      exact (Nat.digits_length_le_iff (by norm_num) n).2 h
  unfold pad
  rw [List.length_append, List.length_replicate]
  omega

theorem pad_lt {w i j : ℕ} (hij : i < j) (hj : j < 10 ^ w) (hw : 0 < w) : pad w i < pad w j := by
  refine lt_of_digitsValue_lt ?_ (fun b hb => isDigit_of_mem_pad hb) (fun b hb => isDigit_of_mem_pad hb) ?_
  · rw [length_pad (by omega) hw, length_pad hj hw]
  · rwa [digitsValue_pad, digitsValue_pad]

end LsmTree
