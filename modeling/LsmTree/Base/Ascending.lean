import Mathlib

/-!
# Lists in strictly ascending key order

The contents of a skip list, a sorted table or a merged stream: a list of items
with a `key`, strictly ascending, so that each key occurs once.

* `findKey`: the item of a key. On an ascending list it is membership
  (`findKey_eq_some`), it can be read off the first item at or after the key
  (`findKey_eq_head`), and two ascending lists with the same `findKey` are equal
  (`Ascending.ext`).
* `insertKey`: insertion at the place of the key, replacing an item that has it.
-/

namespace LsmTree.Base

variable {α K : Type*} [LinearOrder K] {key : α → K} {l : List α} {a b : α} {k : K}

variable (key) in
/-- Strictly ascending keys. -/
def Ascending (l : List α) : Prop := l.Pairwise fun a b => key a < key b

variable (key) in
/-- The first item with a key. -/
def findKey (k : K) (l : List α) : Option α := l.find? fun a => key a = k

theorem ascending_nil : Ascending key [] := List.Pairwise.nil

theorem ascending_cons : Ascending key (a :: l) ↔ (∀ b ∈ l, key a < key b) ∧ Ascending key l :=
  List.pairwise_cons

theorem Ascending.tail (h : Ascending key (a :: l)) : Ascending key l := (ascending_cons.1 h).2

theorem Ascending.filter (h : Ascending key l) (p : α → Bool) : Ascending key (l.filter p) :=
  List.Pairwise.filter p h

theorem Ascending.drop (h : Ascending key l) (n : ℕ) : Ascending key (l.drop n) :=
  h.sublist (List.drop_sublist n l)

theorem Ascending.take (h : Ascending key l) (n : ℕ) : Ascending key (l.take n) :=
  h.sublist (List.take_sublist n l)

theorem Ascending.congr {key' : α → K} (h : Ascending key l) (hkey : ∀ a ∈ l, key' a = key a) : Ascending key' l :=
  List.Pairwise.imp_of_mem (fun ha hb hlt => by rwa [hkey _ ha, hkey _ hb]) h

/-- An item between those with smaller and those with greater keys. -/
theorem Ascending.insert_between {bs cs : List α} (h : Ascending key (bs ++ cs)) (hbs : ∀ b ∈ bs, key b < key a)
    (hcs : ∀ c ∈ cs, key a < key c) : Ascending key (bs ++ a :: cs) := by
  obtain ⟨hb, hc, hlt⟩ := List.pairwise_append.1 h
  refine List.pairwise_append.2 ⟨hb, List.pairwise_cons.2 ⟨hcs, hc⟩, fun b hb c hc => ?_⟩
  rcases List.mem_cons.1 hc with rfl | hc
  · exact hbs b hb
  · exact hlt b hb c hc

/-- In an ascending list an item is determined by its key. -/
theorem Ascending.eq_of_key (h : Ascending key l) (ha : a ∈ l) (hb : b ∈ l) (hk : key a = key b) :
    a = b := by
  induction l with
  | nil => exact absurd ha List.not_mem_nil
  | cons c l ih =>
    obtain ⟨hc, hl⟩ := ascending_cons.1 h
    rcases List.mem_cons.1 ha with hac | ha
    · rcases List.mem_cons.1 hb with hbc | hb
      · exact hac.trans hbc.symm
      · exact absurd hk (ne_of_lt (hac ▸ hc b hb))
    · rcases List.mem_cons.1 hb with hbc | hb
      · exact absurd hk.symm (ne_of_lt (hbc ▸ hc a ha))
      · exact ih hl ha hb

theorem findKey_nil : findKey key k [] = none := rfl

theorem findKey_cons : findKey key k (a :: l) = if key a = k then some a else findKey key k l := by
  unfold findKey
  rw [List.find?_cons]
  by_cases h : key a = k <;> simp [h]

theorem key_of_findKey (h : findKey key k l = some a) : a ∈ l ∧ key a = k :=
  ⟨List.mem_of_find?_eq_some h, by simpa using List.find?_some h⟩

theorem findKey_eq_none : findKey key k l = none ↔ ∀ a ∈ l, key a ≠ k := by
  unfold findKey
  rw [List.find?_eq_none]
  simp only [decide_eq_true_eq, ne_eq]

theorem findKey_eq_some (h : Ascending key l) : findKey key k l = some a ↔ a ∈ l ∧ key a = k := by
  constructor
  · intro hf
    exact key_of_findKey hf
  · intro ⟨ha, hk⟩
    cases hf : findKey key k l with
    | none => exact absurd hk (findKey_eq_none.1 hf a ha)
    | some b =>
      obtain ⟨hb, hkb⟩ := key_of_findKey hf
      rw [h.eq_of_key ha hb (hk.trans hkb.symm)]

theorem findKey_append (l' : List α) :
    findKey key k (l ++ l') = (findKey key k l).or (findKey key k l') := List.find?_append

theorem findKey_map {β : Type*} (f : β → α) (l : List β) :
    findKey key k (l.map f) = (findKey (fun b => key (f b)) k l).map f := List.find?_map

theorem Ascending.nodup (h : Ascending key l) : l.Nodup :=
  List.Pairwise.imp (fun hlt he => absurd (congrArg key he) (ne_of_lt hlt)) h

/-- Ascending lists with the same items are the same. -/
theorem Ascending.ext_mem {l' : List α} (h : Ascending key l) (h' : Ascending key l')
    (hmem : ∀ a, a ∈ l ↔ a ∈ l') :
    l = l' := by
  have hp : l.Perm l' := (List.perm_ext_iff_of_nodup h.nodup h'.nodup).2 hmem
  exact hp.eq_of_pairwise (fun a b _ _ h1 h2 => absurd h1 (lt_asymm h2)) h h'

/-- Ascending lists with the same item for each key are the same. -/
theorem Ascending.ext {l' : List α} (h : Ascending key l) (h' : Ascending key l')
    (hf : ∀ k, findKey key k l = findKey key k l') : l = l' := by
  refine h.ext_mem h' fun a => ?_
  have h1 := findKey_eq_some h (a := a) (k := key a)
  have h2 := findKey_eq_some h' (a := a) (k := key a)
  rw [hf] at h1
  simp only [and_true] at h1 h2
  exact h1.symm.trans h2

/-- Skipping the keys before `k` loses no item at or after it. -/
theorem findKey_dropWhile (h : Ascending key l) {k' : K} (hk : k' ≤ k) :
    findKey key k (l.dropWhile fun a => key a < k') = findKey key k l := by
  induction l with
  | nil => rfl
  | cons a l ih =>
    by_cases ha : key a < k'
    · rw [List.dropWhile_cons_of_pos (by simpa using ha), ih h.tail, findKey_cons,
        if_neg (ne_of_lt (lt_of_lt_of_le ha hk))]
    · rw [List.dropWhile_cons_of_neg (by simpa using ha)]

/-- The item of a key is the first one at or after it, if that has the key. -/
theorem findKey_eq_head (h : Ascending key l) :
    findKey key k l = ((l.dropWhile fun a => key a < k).head?).filter fun a => key a = k := by
  rw [← findKey_dropWhile h le_rfl]
  have hd : Ascending key (l.dropWhile fun a => key a < k) := h.sublist (List.dropWhile_sublist _)
  cases hl : l.dropWhile fun a => key a < k with
  | nil => rfl
  | cons a t =>
    rw [hl] at hd
    have hge : k ≤ key a := by
      have := List.head?_dropWhile_not (fun a => decide (key a < k)) l
      rw [hl, List.head?_cons] at this
      simpa using this
    rw [findKey_cons, List.head?_cons]
    by_cases hk : key a = k
    · rw [if_pos hk, Option.filter_some_pos (by simpa using hk)]
    · rw [if_neg hk, Option.filter_some_neg (by simpa using hk), findKey_eq_none]
      intro b hb
      exact ne_of_gt (lt_of_le_of_lt hge ((ascending_cons.1 hd).1 b hb))

/-- The items at or after a key stand together at the end. -/
theorem mem_dropWhile_lt (h : Ascending key l) : a ∈ l.dropWhile (fun b => key b < k) ↔ a ∈ l ∧ k ≤ key a := by
  induction l with
  | nil => simp
  | cons b l ih =>
    obtain ⟨hb, hl⟩ := ascending_cons.1 h
    by_cases hlt : key b < k
    · rw [List.dropWhile_cons_of_pos (by simpa using hlt), ih hl, List.mem_cons]
      refine ⟨fun ⟨h1, h2⟩ => ⟨Or.inr h1, h2⟩, fun ⟨h1, h2⟩ => ⟨?_, h2⟩⟩
      rcases h1 with rfl | h1
      · exact absurd h2 (not_le_of_gt hlt)
      · exact h1
    · rw [List.dropWhile_cons_of_neg (by simpa using hlt)]
      refine ⟨fun h1 => ⟨h1, ?_⟩, fun h1 => h1.1⟩
      rcases List.mem_cons.1 h1 with rfl | h1
      · exact not_lt.1 hlt
      · exact (lt_of_le_of_lt (not_lt.1 hlt) (hb a h1)).le

/-- The items before a key, and those at or after it. -/
theorem Ascending.split (h : Ascending key l) (k : K) :
    ∃ bs cs, l = bs ++ cs ∧ (∀ b ∈ bs, key b < k) ∧ ∀ c ∈ cs, k ≤ key c := by
  refine ⟨l.takeWhile fun a => key a < k, l.dropWhile fun a => key a < k, List.takeWhile_append_dropWhile.symm,
    fun b hb => ?_, fun c hc => ((mem_dropWhile_lt h).1 hc).2⟩
  simpa using List.mem_takeWhile_imp hb

/-- The items that pass a test that fails for every later one if it fails for one. -/
theorem mem_takeWhile_ascending {p : α → Bool} (h : Ascending key l)
    (hp : ∀ a b, key a < key b → p b = true → p a = true) : a ∈ l.takeWhile p ↔ a ∈ l ∧ p a = true := by
  induction l with
  | nil => simp
  | cons b l ih =>
    obtain ⟨hb, hl⟩ := ascending_cons.1 h
    cases hpb : p b with
    | true =>
      rw [List.takeWhile_cons_of_pos hpb, List.mem_cons, List.mem_cons, ih hl]
      constructor
      · rintro (rfl | ⟨h1, h2⟩)
        · exact ⟨Or.inl rfl, hpb⟩
        · exact ⟨Or.inr h1, h2⟩
      · rintro ⟨rfl | h1, h2⟩
        · exact Or.inl rfl
        · exact Or.inr ⟨h1, h2⟩
    | false =>
      -- behind the first element that does not satisfy `p` none does
      rw [List.takeWhile_cons_of_neg (by simp [hpb])]
      refine ⟨fun h1 => absurd h1 List.not_mem_nil, fun ⟨h1, h2⟩ => ?_⟩
      rcases List.mem_cons.1 h1 with rfl | h1
      · rw [hpb] at h2
        exact absurd h2 Bool.false_ne_true
      · rw [hp b a (hb a h1) h2] at hpb
        exact absurd hpb (by decide)

/-! ## Insertion -/

variable (key) in
/-- Insertion before the first greater key, replacing an item with the same one. -/
def insertKey (a : α) : List α → List α
  | [] => [a]
  | b :: l =>
    if key b < key a then b :: insertKey a l
    else if key b = key a then a :: l
    else a :: b :: l

theorem insertKey_append {bs : List α} (h : ∀ b ∈ bs, key b < key a) (cs : List α) :
    insertKey key a (bs ++ cs) = bs ++ insertKey key a cs := by
  induction bs with
  | nil => rfl
  | cons b bs ih =>
    rw [List.cons_append, insertKey, if_pos (h b List.mem_cons_self),
      ih fun c hc => h c (List.mem_cons_of_mem _ hc),
      List.cons_append]

theorem insertKey_of_lt {cs : List α} (h : ∀ c ∈ cs, key a < key c) : insertKey key a cs = a :: cs := by
  cases cs with
  | nil => rfl
  | cons c cs =>
    have hlt := h c List.mem_cons_self
    rw [insertKey, if_neg (lt_asymm hlt), if_neg (ne_of_gt hlt)]

theorem insertKey_of_eq (h : key b = key a) (l : List α) : insertKey key a (b :: l) = a :: l := by
  rw [insertKey, if_neg (by rw [h]; exact lt_irrefl _), if_pos h]

theorem mem_insertKey {c : α} (h : c ∈ insertKey key a l) : c = a ∨ c ∈ l := by
  induction l with
  | nil => exact Or.inl (List.mem_singleton.1 h)
  | cons b l ih =>
    unfold insertKey at h
    split at h
    · rcases List.mem_cons.1 h with rfl | h
      · exact Or.inr List.mem_cons_self
      · rcases ih h with h | h
        · exact Or.inl h
        · exact Or.inr (List.mem_cons_of_mem _ h)
    · split at h
      · rcases List.mem_cons.1 h with h | h
        · exact Or.inl h
        · exact Or.inr (List.mem_cons_of_mem _ h)
      · exact List.mem_cons.1 h

theorem Ascending.insertKey (h : Ascending key l) (a : α) : Ascending key (insertKey key a l) := by
  induction l with
  | nil => exact ascending_cons.2 ⟨fun b hb => absurd hb List.not_mem_nil, ascending_nil⟩
  | cons b l ih =>
    obtain ⟨hb, hl⟩ := ascending_cons.1 h
    unfold Base.insertKey
    split
    · rename_i hlt
      refine ascending_cons.2 ⟨fun c hc => ?_, ih hl⟩
      rcases mem_insertKey hc with rfl | hc
      · exact hlt
      · exact hb c hc
    · rename_i hge
      split
      · rename_i heq
        exact ascending_cons.2 ⟨fun c hc => heq ▸ hb c hc, hl⟩
      · rename_i hne
        have hab : key a < key b := lt_of_le_of_ne (not_lt.1 hge) fun e => hne e.symm
        refine ascending_cons.2 ⟨fun c hc => ?_, h⟩
        rcases List.mem_cons.1 hc with rfl | hc
        · exact hab
        · exact lt_trans hab (hb c hc)

theorem findKey_insertKey (h : Ascending key l) (a : α) :
    findKey key k (insertKey key a l) = if key a = k then some a else findKey key k l := by
  induction l with
  | nil => exact findKey_cons
  | cons b l ih =>
    obtain ⟨hb, hl⟩ := ascending_cons.1 h
    unfold insertKey
    split
    · rename_i hlt
      rw [findKey_cons, ih hl, findKey_cons]
      by_cases hk : key a = k
      · rw [if_pos hk, if_neg (fun e => absurd (e.trans hk.symm) (ne_of_lt hlt)), if_pos hk]
      · rw [if_neg hk, if_neg hk]
    · split
      · rename_i heq
        rw [findKey_cons, findKey_cons]
        by_cases hk : key a = k
        · rw [if_pos hk, if_pos hk]
        · rw [if_neg hk, if_neg hk, if_neg (fun e => hk (heq.symm.trans e))]
      · rw [findKey_cons]

/-- **What a sum over the items gains by an insertion**: the item put in, less the one it
replaces. -/
theorem sum_insertKey (h : Ascending key l) (a : α) (f : α → ℕ) :
    ((insertKey key a l).map f).sum + ((findKey key (key a) l).map f).getD 0 = (l.map f).sum + f a := by
  induction l with
  | nil => simp [insertKey, findKey]
  | cons b l ih =>
    obtain ⟨hb, hl⟩ := ascending_cons.1 h
    unfold insertKey
    rw [findKey_cons]
    split
    · rename_i hlt
      have hih := ih hl
      rw [if_neg (ne_of_lt hlt), List.map_cons, List.map_cons, List.sum_cons, List.sum_cons]
      omega
    · rename_i hge
      split
      · simp only [List.map_cons, List.sum_cons, Option.map_some, Option.getD_some]
        omega
      · rename_i hne
        -- the items behind have greater keys still
        have hnone : findKey key (key a) l = none := by
          refine findKey_eq_none.2 fun c hc e => ?_
          have hlt : key b < key c := hb c hc
          rw [e] at hlt
          exact hge hlt
        rw [hnone]
        simp only [List.map_cons, List.sum_cons, Option.map_none, Option.getD_none]
        omega

theorem insertKey_ne_nil : insertKey key a l ≠ [] := by
  cases l with
  | nil => exact List.cons_ne_nil _ _
  | cons b l =>
    unfold insertKey
    split
    · exact List.cons_ne_nil _ _
    · split <;> exact List.cons_ne_nil _ _

end LsmTree.Base
