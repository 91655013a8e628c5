import LsmTree.Base.Ascending

/-!
# Keys with a common prefix

Under the lexicographic order the keys that start with `pre` stand together, and none of
them is before `pre`.

* `prefix_le`, `prefix_of_between`: the order and the prefixes.
* `Ascending.takeWhile_eq_filter`: in an ascending list, a test that fails for every later
  item if it fails for one keeps the items up to its first failure.
* `takeWhile_prefix`: the items whose keys start with `pre` are those before the first one,
  from `pre` on, that does not.
-/

namespace LsmTree.Base

variable {α : Type*}

/-! ## The order -/

section

variable [LinearOrder α] {pre a b : List α}

theorem cons_le_cons_iff {x y : α} : x :: a ≤ y :: b ↔ x < y ∨ x = y ∧ a ≤ b := by
  rw [le_iff_lt_or_eq, List.cons_lt_cons_iff, List.cons.injEq, le_iff_lt_or_eq (a := a)]
  tauto

/-- A key is not before a prefix of it. -/
theorem prefix_le (h : pre <+: a) : pre ≤ a := by
  induction pre generalizing a with
  | nil => exact not_lt.1 (List.not_lt_nil a)
  | cons x pre ih =>
    obtain ⟨t, rfl⟩ := h
    exact cons_le_cons_iff.2 (Or.inr ⟨rfl, ih ⟨t, rfl⟩⟩)

/-- **A key between `pre` and a key that starts with `pre`** starts with it too. -/
theorem prefix_of_between (hpre : pre ≤ a) (hle : a ≤ b) (h : pre <+: b) : pre <+: a := by
  induction pre generalizing a b with
  | nil => exact List.nil_prefix
  | cons x pre ih =>
    obtain ⟨t, rfl⟩ := h
    cases a with
    | nil => exact absurd (List.nil_lt_cons x pre) (not_lt.2 hpre)
    | cons y a =>
      rw [List.cons_append] at hle
      -- the first byte of the key is neither below nor above that of `pre`
      rcases cons_le_cons_iff.1 hpre with hxy | ⟨rfl, hrest⟩
      · rcases cons_le_cons_iff.1 hle with hyx | ⟨rfl, -⟩
        · exact absurd hyx (lt_asymm hxy)
        · exact absurd hxy (lt_irrefl _)
      · rcases cons_le_cons_iff.1 hle with hyx | ⟨-, hle⟩
        · exact absurd hyx (lt_irrefl _)
        · exact List.cons_prefix_cons.2 ⟨rfl, ih hrest hle ⟨t, rfl⟩⟩

end

/-! ## Ascending lists -/

theorem Ascending.takeWhile_eq_filter {K : Type*} [LinearOrder K] {key : α → K} {l : List α} {p : α → Bool}
    (h : Ascending key l) (hp : ∀ a ∈ l, ∀ b ∈ l, key a < key b → p b = true → p a = true) :
    l.takeWhile p = l.filter p := by
  induction l with
  | nil => rfl
  | cons a l ih =>
    obtain ⟨ha, hl⟩ := ascending_cons.1 h
    cases hpa : p a with
    | true =>
      rw [List.takeWhile_cons_of_pos hpa, List.filter_cons_of_pos hpa,
        ih hl fun b hb c hc => hp b (List.mem_cons_of_mem a hb) c (List.mem_cons_of_mem a hc)]
    | false =>
      rw [List.takeWhile_cons_of_neg (by simp [hpa]), List.filter_cons_of_neg (by simp [hpa])]
      refine (List.filter_eq_nil_iff.2 fun b hb hpb => ?_).symm
      have hpa' := hp a List.mem_cons_self b (List.mem_cons_of_mem a hb) (ha b hb) hpb
      rw [hpa] at hpa'
      exact absurd hpa' (by decide)

/-- **Keys with a common prefix stand together**, in a list that has none before it. -/
theorem takeWhile_prefix [LinearOrder α] [BEq α] [LawfulBEq α] {β : Type*} {key : β → List α} {l : List β}
    (h : Ascending key l) {pre : List α} (hfrom : ∀ a ∈ l, pre ≤ key a) :
    l.takeWhile (fun a => pre.isPrefixOf (key a)) = l.filter fun a => pre.isPrefixOf (key a) := by
  refine h.takeWhile_eq_filter fun a ha b _ hlt hpb => ?_
  rw [List.isPrefixOf_iff_prefix] at hpb ⊢
  exact prefix_of_between (hfrom a ha) hlt.le hpb

end LsmTree.Base
