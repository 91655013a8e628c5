import Mathlib

/-!
# Searching in a list

The search operations of `std::string` and `std::lower_bound`, over any list:

* `find`, `rfind`: the first (from a position on) and the last index at which a
  pattern occurs.
* `findLastOf`: the last index of an element with a given property.
* `lowerBound`: the binary search of `std::lower_bound`, as its loop runs.

Each comes with the characterization its users rewrite with (`find_eq_some`,
`lastIdx_eq_some`, `lowerBound_spec`), and `find` with the two rules proofs about
text use: skipping a part that holds no occurrence (`find_append`) and cutting
the text (`find_take`).
-/

namespace LsmTree.Base

variable {α : Type*} [DecidableEq α]

/-- `s.find(pat, pos)`: the first index from `pos` on at which `pat` occurs. -/
def find (s pat : List α) (pos : ℕ) : Option ℕ :=
  (List.range' pos (s.length + 1 - pos)).find? fun i => pat.isPrefixOf (s.drop i)

/-- The largest index below `n` with property `p`. -/
def lastIdx (p : ℕ → Bool) : ℕ → Option ℕ
  | 0 => none
  | n + 1 => if p n then some n else lastIdx p n

/-- `s.rfind(pat)`: the last index at which `pat` occurs. -/
def rfind (s pat : List α) : Option ℕ :=
  lastIdx (fun i => pat.isPrefixOf (s.drop i)) (s.length + 1)

omit [DecidableEq α] in
/-- `s.find_last_of(set)`: the last index of an element of the set. -/
def findLastOf (p : α → Bool) (s : List α) : Option ℕ :=
  lastIdx (fun i => s[i]?.any p) s.length

theorem find_eq_some {s pat : List α} {pos i : ℕ} :
    find s pat pos = some i ↔
      pat <+: s.drop i ∧ pos ≤ i ∧ i ≤ s.length ∧ ∀ j, pos ≤ j → j < i → ¬ pat <+: s.drop j := by
  unfold find
  rw [List.find?_range'_eq_some]
  simp only [List.isPrefixOf_iff_prefix, List.mem_range'_1, Bool.not_eq_true', Bool.eq_false_iff,
    ne_eq]
  constructor
  · rintro ⟨h1, ⟨h2, h3⟩, h4⟩
    exact ⟨h1, h2, by omega, h4⟩
  · rintro ⟨h1, h2, h3, h4⟩
    exact ⟨h1, ⟨h2, by omega⟩, h4⟩

theorem find_eq_none {s pat : List α} {pos : ℕ} :
    find s pat pos = none ↔ ∀ j, pos ≤ j → j ≤ s.length → ¬ pat <+: s.drop j := by
  unfold find
  rw [List.find?_eq_none]
  simp only [List.mem_range'_1, List.isPrefixOf_iff_prefix]
  constructor
  · intro h j h1 h2
    exact h j ⟨h1, by omega⟩
  · rintro h j ⟨h1, h2⟩
    exact h j h1 (by omega)

omit [DecidableEq α] in
/-- An occurrence in a cut text is an occurrence in the text that ends before the cut. -/
theorem prefix_drop_take {s pat : List α} {n i : ℕ} (hp : pat ≠ []) :
    pat <+: (s.take n).drop i ↔ pat <+: s.drop i ∧ i + pat.length ≤ n := by
  have hpos : 0 < pat.length := List.length_pos_iff.2 hp
  rw [List.drop_take, List.prefix_take_iff]
  constructor
  · rintro ⟨h1, h2⟩
    exact ⟨h1, by omega⟩
  · rintro ⟨h1, h2⟩
    exact ⟨h1, by omega⟩

/-- Cutting the text keeps the first occurrence, if it ends before the cut. -/
theorem find_take {s pat : List α} {n pos : ℕ} (hp : pat ≠ []) :
    find (s.take n) pat pos = (find s pat pos).filter fun i => i + pat.length ≤ n := by
  cases h : find s pat pos with
  | none =>
    rw [Option.filter_none, find_eq_none]
    intro j h1 h2 hj
    rw [find_eq_none] at h
    rw [List.length_take] at h2
    exact h j h1 (by omega) ((prefix_drop_take hp).1 hj).1
  | some i =>
    obtain ⟨h1, h2, h3, h4⟩ := find_eq_some.1 h
    by_cases hn : i + pat.length ≤ n
    · rw [Option.filter_some_pos (by simpa using hn), find_eq_some]
      have hpos : 0 < pat.length := List.length_pos_iff.2 hp
      refine ⟨(prefix_drop_take hp).2 ⟨h1, hn⟩, h2, by rw [List.length_take]; omega, ?_⟩
      intro j hj1 hj2 hj
      exact h4 j hj1 hj2 ((prefix_drop_take hp).1 hj).1
    · rw [Option.filter_some_neg (by simpa using hn), find_eq_none]
      intro j h1 h2 hj
      obtain ⟨hj1, hj2⟩ := (prefix_drop_take hp).1 hj
      rcases lt_or_ge j i with hlt | hge
      · exact h4 j h1 hlt hj1
      · omega

/-- A part of the text that holds no occurrence is skipped. -/
theorem find_append {a b pat : List α} {pos : ℕ} (hpos : pos ≤ a.length)
    (h : ∀ j, pos ≤ j → j < a.length → ¬ pat <+: (a ++ b).drop j) :
    find (a ++ b) pat pos = (find b pat 0).map (a.length + ·) := by
  have hd : ∀ j, (a ++ b).drop (a.length + j) = b.drop j := fun j => by
    rw [List.drop_append, List.drop_eq_nil_of_le (by omega), Nat.add_sub_cancel_left,
      List.nil_append]
  -- an occurrence begins in `b`, since none begins in `a`
  cases hb : find b pat 0 with
  | none =>
    rw [Option.map_none, find_eq_none]
    intro j h1 h2
    rcases lt_or_ge j a.length with hlt | hge
    · exact h j h1 hlt
    · obtain ⟨k, rfl⟩ := Nat.exists_eq_add_of_le hge
      rw [hd]
      rw [List.length_append] at h2
      exact (find_eq_none.1 hb) k (Nat.zero_le _) (by omega)
  | some i =>
    obtain ⟨h1, -, h3, h4⟩ := find_eq_some.1 hb
    rw [Option.map_some, find_eq_some]
    refine ⟨by rw [hd]; exact h1, by omega, by rw [List.length_append]; omega, ?_⟩
    intro j hj1 hj2
    rcases lt_or_ge j a.length with hlt | hge
    · exact h j hj1 hlt
    · obtain ⟨k, rfl⟩ := Nat.exists_eq_add_of_le hge
      rw [hd]
      exact h4 k (Nat.zero_le _) (by omega)

/-- An occurrence at the start position is the first one. -/
theorem find_self {s pat : List α} {pos : ℕ} (h : pat <+: s.drop pos) (hpos : pos ≤ s.length) :
    find s pat pos = some pos :=
  find_eq_some.2 ⟨h, le_rfl, hpos, fun j h1 h2 => by omega⟩

/-- Where there is an occurrence, the first one is found at or before it. -/
theorem find_le {s pat : List α} {pos j : ℕ} (h : pat <+: s.drop j) (hpos : pos ≤ j)
    (hj : j ≤ s.length) : ∃ i, find s pat pos = some i ∧ i ≤ j := by
  cases hf : find s pat pos with
  | none => exact absurd h (find_eq_none.1 hf j hpos hj)
  | some i =>
    refine ⟨i, rfl, ?_⟩
    by_contra hlt
    exact (find_eq_some.1 hf).2.2.2 j hpos (by omega) h

/-- The first occurrence of a single element after a part without it. -/
theorem find_singleton {a b : List α} {c : α} {pos : ℕ} (hpos : pos ≤ a.length)
    (h : c ∉ a.drop pos) : find (a ++ c :: b) [c] pos = some a.length := by
  rw [find_append hpos]
  · rw [find_self (by simp) (by simp)]
    simp
  · intro j h1 h2 hj
    obtain ⟨t, ht⟩ := hj
    have hget : (a ++ c :: b)[j]? = some c := by
      have := congrArg (fun l => l[0]?) ht
      simpa [List.getElem?_drop] using this.symm
    rw [List.getElem?_append_left h2] at hget
    apply h
    rw [List.mem_iff_getElem?]
    exact ⟨j - pos, by rw [List.getElem?_drop, Nat.add_sub_cancel' h1]; exact hget⟩

theorem lastIdx_eq_some {p : ℕ → Bool} {n i : ℕ} :
    lastIdx p n = some i ↔ p i = true ∧ i < n ∧ ∀ j, i < j → j < n → p j = false := by
  induction n with
  | zero => simp [lastIdx]
  | succ n ih =>
    unfold lastIdx
    split
    · -- the place `n` itself is the last
      rename_i h
      constructor
      · rintro ⟨⟩
        exact ⟨h, Nat.lt_succ_self _, fun j h1 h2 => by omega⟩
      · rintro ⟨h1, h2, h3⟩
        rcases Nat.lt_or_ge i n with hlt | hge
        · have := h3 n hlt (Nat.lt_succ_self _)
          simp_all
        · rw [show i = n by omega]
    · -- it is below `n`
      rename_i h
      rw [ih]
      constructor
      · rintro ⟨h1, h2, h3⟩
        refine ⟨h1, by omega, fun j hj1 hj2 => ?_⟩
        rcases Nat.lt_or_ge j n with hlt | hge
        · exact h3 j hj1 hlt
        · rw [show j = n by omega]; simpa using h
      · rintro ⟨h1, h2, h3⟩
        refine ⟨h1, ?_, fun j hj1 hj2 => h3 j hj1 (by omega)⟩
        rcases Nat.lt_or_ge i n with hlt | hge
        · exact hlt
        · rw [show i = n by omega] at h1; exact absurd h1 h

theorem lastIdx_eq_none {p : ℕ → Bool} {n : ℕ} :
    lastIdx p n = none ↔ ∀ j, j < n → p j = false := by
  induction n with
  | zero => simp [lastIdx]
  | succ n ih =>
    unfold lastIdx
    split
    · rename_i h
      simp only [reduceCtorEq, false_iff, not_forall]
      exact ⟨n, Nat.lt_succ_self _, by simp [h]⟩
    · rename_i h
      rw [ih]
      constructor
      · intro hall j hj
        rcases Nat.lt_or_ge j n with hlt | hge
        · exact hall j hlt
        · rw [show j = n by omega]; simpa using h
      · intro hall j hj
        exact hall j (by omega)

theorem rfind_eq_some {s pat : List α} {i : ℕ} :
    rfind s pat = some i ↔
      pat <+: s.drop i ∧ i ≤ s.length ∧ ∀ j, i < j → j ≤ s.length → ¬ pat <+: s.drop j := by
  unfold rfind
  rw [lastIdx_eq_some]
  simp only [Nat.lt_succ_iff, List.isPrefixOf_iff_prefix, Bool.eq_false_iff, ne_eq]

theorem rfind_eq_none {s pat : List α} :
    rfind s pat = none ↔ ∀ j, j ≤ s.length → ¬ pat <+: s.drop j := by
  unfold rfind
  rw [lastIdx_eq_none]
  simp only [Nat.lt_succ_iff, List.isPrefixOf_iff_prefix, Bool.eq_false_iff, ne_eq]

/-- A pattern does not reach into a part without its last element. -/
theorem prefix_drop_append {a b pat : List α} {c : α} (hc : pat.getLast? = some c) (hb : c ∉ b) (i : ℕ) :
    pat <+: (a ++ b).drop i ↔ pat <+: a.drop i := by
  have hpos : 0 < pat.length := by
    cases pat with
    | nil => simp at hc
    | cons x pat => simp
  constructor
  · intro ⟨t, ht⟩
    -- the last byte of the pattern stands in `a`, so the pattern ends there
    have hlast : (a ++ b)[i + (pat.length - 1)]? = some c := by
      rw [List.getLast?_eq_getElem?] at hc
      rw [← List.getElem?_drop, ← ht, List.getElem?_append_left (by omega), hc]
    have hlt : i + (pat.length - 1) < a.length := by
      by_contra hge
      rw [List.getElem?_append_right (by omega)] at hlast
      exact hb (List.mem_of_getElem? hlast)
    rw [List.drop_append_of_le_length (by omega)] at ht
    exact List.prefix_of_prefix_length_le ⟨t, ht⟩ (List.prefix_append _ _) (by rw [List.length_drop]; omega)
  · intro h
    rcases Nat.lt_or_ge a.length i with hi | hi
    · rw [List.drop_eq_nil_of_le (by omega)] at h
      have := h.length_le
      rw [List.length_nil] at this
      omega
    · rw [List.drop_append_of_le_length hi]
      exact h.trans (List.prefix_append _ _)

theorem rfind_append {a b pat : List α} {c : α} (hc : pat.getLast? = some c) (hb : c ∉ b) :
    rfind (a ++ b) pat = rfind a pat := by
  have hempty : ∀ j, a.length < j → ¬ pat <+: a.drop j := by
    intro j hj h
    rw [List.drop_eq_nil_of_le (by omega), List.prefix_nil] at h
    rw [h] at hc
    simp at hc
  cases hr : rfind a pat with
  | none =>
    rw [rfind_eq_none] at hr ⊢
    intro j _ h
    rw [prefix_drop_append hc hb] at h
    rcases Nat.lt_or_ge a.length j with hj | hj
    · exact hempty j hj h
    · exact hr j hj h
  | some i =>
    obtain ⟨h1, h2, h3⟩ := rfind_eq_some.1 hr
    refine rfind_eq_some.2 ⟨(prefix_drop_append hc hb i).2 h1, by rw [List.length_append]; omega, ?_⟩
    intro j hij _ h
    rw [prefix_drop_append hc hb] at h
    rcases Nat.lt_or_ge a.length j with hj | hj
    · exact hempty j hj h
    · exact h3 j hij hj h

omit [DecidableEq α] in
theorem findLastOf_append {p : α → Bool} {a b : List α} {c : α} (hc : p c = true)
    (hb : ∀ x ∈ b, p x = false) : findLastOf p (a ++ c :: b) = some a.length := by
  unfold findLastOf
  rw [lastIdx_eq_some]
  refine ⟨by simp [hc], by simp, fun j h1 h2 => ?_⟩
  rw [List.length_append, List.length_cons] at h2
  obtain ⟨k, rfl⟩ := Nat.exists_eq_add_of_lt h1
  rw [List.getElem?_append_right (by omega)]
  have hk : a.length + k + 1 - a.length = k + 1 := by omega
  rw [hk, List.getElem?_cons_succ]
  cases hx : b[k]? with
  | none => rfl
  | some x => simpa using hb x (List.mem_of_getElem? hx)

omit [DecidableEq α] in
theorem findLastOf_none {p : α → Bool} {s : List α} (h : ∀ x ∈ s, p x = false) :
    findLastOf p s = none := by
  unfold findLastOf
  rw [lastIdx_eq_none]
  intro j hj
  rw [List.getElem?_eq_getElem hj]
  simpa using h _ (List.getElem_mem hj)

/-- The loop of `std::lower_bound`: `len` elements from `first` on are still undecided. -/
def lowerBoundGo (below : ℕ → Bool) : ℕ → ℕ → ℕ → ℕ
  | 0, first, _ => first
  | fuel + 1, first, len =>
    if len = 0 then first
    else if below (first + len / 2) then
      lowerBoundGo below fuel (first + len / 2 + 1) (len - len / 2 - 1)
    else lowerBoundGo below fuel first (len / 2)

/-- `std::lower_bound` on `n` elements; each round halves the undecided part, so `n` rounds do. -/
def lowerBound (below : ℕ → Bool) (n : ℕ) : ℕ := lowerBoundGo below n 0 n

theorem lowerBoundGo_spec {below : ℕ → Bool} {n : ℕ}
    (hmono : ∀ i j, i ≤ j → j < n → below j = true → below i = true) :
    ∀ fuel first len, len ≤ fuel → first + len ≤ n → (∀ i, i < first → below i = true) →
      (∀ i, first + len ≤ i → i < n → below i = false) →
      lowerBoundGo below fuel first len ≤ n ∧
        (∀ i, i < lowerBoundGo below fuel first len → below i = true) ∧
        ∀ i, lowerBoundGo below fuel first len ≤ i → i < n → below i = false := by
  intro fuel
  induction fuel with
  | zero =>
    intro first len h1 h2 h3 h4
    simp only [lowerBoundGo]
    exact ⟨by omega, h3, fun i hi1 hi2 => h4 i (by omega) hi2⟩
  | succ fuel ih =>
    intro first len h1 h2 h3 h4
    unfold lowerBoundGo
    split
    · rename_i h0
      exact ⟨by omega, h3, fun i hi1 hi2 => h4 i (by omega) hi2⟩
    split
    · rename_i h0 hb
      refine ih _ _ (by omega) (by omega) (fun i hi => ?_) (fun i hi1 hi2 => h4 i (by omega) hi2)
      exact hmono i (first + len / 2) (by omega) (by omega) hb
    · rename_i h0 hb
      refine ih _ _ (by omega) (by omega) h3 (fun i hi1 hi2 => ?_)
      -- an element past the middle below the key would put the middle below it
      by_contra hc
      exact hb (hmono _ i hi1 hi2 (by simpa using hc))

/-- On a partitioned range `lowerBound` is the partition point. -/
theorem lowerBound_spec {below : ℕ → Bool} {n : ℕ}
    (hmono : ∀ i j, i ≤ j → j < n → below j = true → below i = true) :
    lowerBound below n ≤ n ∧ (∀ i, i < lowerBound below n → below i = true) ∧
      ∀ i, lowerBound below n ≤ i → i < n → below i = false :=
  lowerBoundGo_spec hmono n 0 n le_rfl (by omega) (fun i hi => by omega) (fun i h1 h2 => by omega)

end LsmTree.Base
