import LsmTree.Base.Ascending
import LsmTree.Base.Queue

/-!
# Merging sorted sources through a heap

The loop shared by programs that merge sorted sources: the heap holds one node for
each source that has a current record, ordered by key and, for equal keys, by
`rank`, the greatest first. A round pops the winner, moves its source on, and drops
the other nodes with its key, moving their sources on too.

* `popWinner_spec`: one round. The winner is the head of some source, no other head
  has a smaller key, and none with the same key has a greater rank; afterwards every
  source stands behind the winner's key.
* `winners_merged`: the rounds together yield each key of the sources once, in
  ascending order, with a record of greatest rank. Where ranks are equal, any of the
  records may win: the result holds for every `PriorityQueue`.
-/

namespace LsmTree.Base

/-- What a node of the heap says: its key, its rank, and the index of its source. -/
structure NodeOrder (K ν : Type) [LinearOrder K] where
  key : ν → K
  rank : ν → ℕ
  idx : ν → ℕ

/-- The heap's comparator: greater key, and for equal keys smaller rank. -/
def NodeOrder.gt {K ν : Type} [LinearOrder K] (O : NodeOrder K ν) (a b : ν) : Bool :=
  if O.key a ≠ O.key b then O.key b < O.key a else O.rank a < O.rank b

namespace NodeOrder

variable {K ν : Type} [LinearOrder K] (O : NodeOrder K ν)

theorem gt_irrefl (a : ν) : O.gt a a = false := by simp [gt]

theorem gt_trans (a b c : ν) (hab : O.gt a b = true) (hbc : O.gt b c = true) : O.gt a c = true := by
  have hgt : ∀ a b, O.gt a b = true ↔ O.key b < O.key a ∨ O.key a = O.key b ∧ O.rank a < O.rank b := by
    intro a b
    unfold gt
    split
    · rename_i hk
      simp [hk]
    · rename_i hk
      simp [not_not.1 hk]
  rw [hgt] at hab hbc ⊢
  rcases hab with hab | ⟨hk, hab⟩ <;> rcases hbc with hbc | ⟨hk', hbc⟩
  · exact Or.inl (lt_trans hbc hab)
  · exact Or.inl (hk' ▸ hab)
  · exact Or.inl (hk ▸ hbc)
  · exact Or.inr ⟨hk.trans hk', by omega⟩

/-- The queue that takes equivalent nodes in the order in which they were pushed, as a binary
heap of two nodes does. -/
def firstIn : PriorityQueue ν O.gt := Base.firstIn O.gt_irrefl O.gt_trans

end NodeOrder

/-- How sources are read: the node and the payload of a source's current record, and
how a source moves on. -/
structure Sources (ν σ β : Type) where
  /-- the node of the source at an index, if it is valid -/
  node : ℕ → σ → Option ν
  payload : σ → β
  next : σ → σ

structure MergeState {ν : Type} {gt : ν → ν → Bool} (pq : PriorityQueue ν gt) (σ : Type) where
  sources : List σ
  heap : pq.Q

namespace Merge

variable {K ν σ β : Type} [LinearOrder K] {O : NodeOrder K ν} {pq : PriorityQueue ν O.gt}

section

variable (S : Sources ν σ β)

/-- Push the node of source `i`, if it is valid. -/
def push (i : ℕ) (st : MergeState pq σ) : MergeState pq σ :=
  match st.sources[i]? with
  | none => st
  | some s =>
    match S.node i s with
    | none => st
    | some n => { st with heap := pq.push n st.heap }

/-- Move source `i` on and push its node. -/
def advance (i : ℕ) (st : MergeState pq σ) : MergeState pq σ :=
  push S i { st with sources := st.sources.modify i S.next }

/-- Pop the nodes with key `k`, moving their sources on. -/
def drain : ℕ → K → MergeState pq σ → MergeState pq σ
  | 0, _, st => st
  | fuel + 1, k, st =>
    match pq.pop st.heap with
    | none => st
    | some (n, h) =>
      if O.key n = k then drain fuel k (advance S (O.idx n) { st with heap := h }) else st

/-- One round: the winner, the payload of its source, and the state after. -/
def popWinner (fuel : ℕ) (st : MergeState pq σ) : Option (ν × Option β × MergeState pq σ) :=
  match pq.pop st.heap with
  | none => none
  | some (n, h) =>
    some (n, (st.sources[O.idx n]?).map S.payload,
      drain S fuel (O.key n) (advance S (O.idx n) { st with heap := h }))

/-- The heap filled from the sources, in their order. -/
def fill (sources : List σ) : MergeState pq σ :=
  (List.range sources.length).foldl (fun st i => push S i st) ⟨sources, pq.empty⟩

/-- Rounds until the heap is empty. -/
def winners (fuel : ℕ) : ℕ → MergeState pq σ → List (ν × Option β)
  | 0, _ => []
  | n + 1, st =>
    match popWinner S fuel st with
    | none => []
    | some (w, v, st) => (w, v) :: winners fuel n st

end

variable {S : Sources ν σ β}

theorem sources_push (i : ℕ) (st : MergeState pq σ) : (push S i st).sources = st.sources := by
  unfold push
  split
  · rfl
  · split <;> rfl

theorem sources_advance (i : ℕ) (st : MergeState pq σ) : (advance S i st).sources = st.sources.modify i S.next :=
  sources_push i _

/-! ## What a source yields -/

variable (O S) in
/-- Source `i` yields these records and is then not valid. -/
def Yields (i : ℕ) : σ → List (ν × β) → Prop
  | s, [] => S.node i s = none
  | s, p :: L => S.node i s = some p.1 ∧ O.idx p.1 = i ∧ S.payload s = p.2 ∧ Yields i (S.next s) L

variable (O) in
/-- The keys of a source ascend. -/
abbrev Asc (L : List (ν × β)) : Prop := Ascending (fun p => O.key p.1) L

/-- The node of the current record of a source that yields a list. -/
def headNode (L : List (ν × β)) : Option ν := L.head?.map Prod.fst

theorem Yields.node {i : ℕ} {s : σ} {L : List (ν × β)} (h : Yields O S i s L) :
    S.node i s = headNode L := by
  cases L with
  | nil => exact h
  | cons p L => exact h.1

/-- What a source yields is determined. -/
theorem Yields.unique {i : ℕ} {L : List (ν × β)} : ∀ {s : σ} {L' : List (ν × β)}, Yields O S i s L →
    Yields O S i s L' → L = L' := by
  induction L with
  | nil =>
    intro s L' h h'
    cases L' with
    | nil => rfl
    | cons q L' => exact nomatch (show S.node i s = none from h).symm.trans h'.1
  | cons p L ih =>
    intro s L' h h'
    obtain ⟨hn, -, hv, hrest⟩ := h
    cases L' with
    | nil => exact nomatch hn.symm.trans (show S.node i s = none from h')
    | cons q L' =>
      obtain ⟨hn', -, hv', hrest'⟩ := h'
      have hpq : p = q := Prod.ext (Option.some.inj (hn.symm.trans hn')) (hv.symm.trans hv')
      rw [hpq, ih hrest hrest']

/-- The nodes of the current records. -/
def heads (Ls : List (List (ν × β))) : List ν := Ls.filterMap headNode

theorem mem_heads {Ls : List (List (ν × β))} {n : ν} :
    n ∈ heads Ls ↔ ∃ (i : ℕ) (p : ν × β) (L : List (ν × β)), Ls[i]? = some (p :: L) ∧ p.1 = n := by
  unfold heads
  rw [List.mem_filterMap]
  constructor
  · intro ⟨L, hL, hn⟩
    obtain ⟨i, hi⟩ := List.getElem?_of_mem hL
    cases L with
    | nil => exact absurd hn (by simp [headNode])
    | cons p L => exact ⟨i, p, L, hi, Option.some.inj hn⟩
  · intro ⟨i, p, L, hi, hp⟩
    exact ⟨p :: L, List.mem_of_getElem? hi, by rw [← hp]; rfl⟩

/-- Replacing a list changes its head. -/
theorem heads_set {Ls : List (List (ν × β))} {i : ℕ} {p : ν × β} {L : List (ν × β)}
    (h : Ls[i]? = some (p :: L)) : ∃ R : Multiset ν, (heads Ls : Multiset ν) = p.1 ::ₘ R ∧
      (heads (Ls.set i L) : Multiset ν) = (headNode L).elim R (· ::ₘ R) := by
  obtain ⟨hlt, hget⟩ := List.getElem?_eq_some_iff.1 h
  -- the heads before and behind place `i` stay
  have hsplit : Ls = Ls.take i ++ (p :: L) :: Ls.drop (i + 1) := by
    rw [← hget, List.getElem_cons_drop, List.take_append_drop]
  have hset : Ls.set i L = Ls.take i ++ L :: Ls.drop (i + 1) := by
    rw [List.set_eq_take_append_cons_drop, if_pos hlt]
  have hp : headNode (p :: L) = some p.1 := rfl
  refine ⟨(heads (Ls.take i) ++ heads (Ls.drop (i + 1)) : List ν), ?_, ?_⟩
  · conv_lhs => rw [hsplit]
    unfold heads
    rw [List.filterMap_append, List.filterMap_cons_some hp, Multiset.cons_coe, Multiset.coe_eq_coe]
    exact List.perm_middle
  · rw [hset]
    unfold heads
    rw [List.filterMap_append]
    cases hL : headNode L with
    | none =>
      rw [List.filterMap_cons_none hL]
      rfl
    | some q =>
      rw [List.filterMap_cons_some hL, Option.elim_some, Multiset.cons_coe, Multiset.coe_eq_coe]
      exact List.perm_middle

/-! ## The invariant of the heap -/

variable (S) in
/-- The sources yield `Ls`, in whatever order their keys are, and the heap holds the
nodes of their current records. -/
structure Holds (st : MergeState pq σ) (Ls : List (List (ν × β))) : Prop where
  length : st.sources.length = Ls.length
  yields : ∀ i s L, st.sources[i]? = some s → Ls[i]? = some L → Yields O S i s L
  heap : pq.elems st.heap = heads Ls

variable (S) in
/-- The keys of each source ascend as well. -/
structure OK (st : MergeState pq σ) (Ls : List (List (ν × β))) : Prop extends Holds S st Ls where
  asc : ∀ L ∈ Ls, Asc O L

/-- Without the node of the source about to move on. -/
theorem advance_holds {st : MergeState pq σ} {Ls : List (List (ν × β))} {i : ℕ} {p : ν × β}
    {L : List (ν × β)} (hlen : st.sources.length = Ls.length)
    (hy : ∀ i s L, st.sources[i]? = some s → Ls[i]? = some L → Yields O S i s L)
    (hi : Ls[i]? = some (p :: L)) (hheap : p.1 ::ₘ pq.elems st.heap = heads Ls) :
    Holds S (advance S i st) (Ls.set i L) := by
  obtain ⟨R, hR, hR'⟩ := heads_set hi
  have hlt : i < st.sources.length := by
    rw [hlen]
    exact (List.getElem?_eq_some_iff.1 hi).1
  obtain ⟨s, hs⟩ : ∃ s, st.sources[i]? = some s := ⟨_, List.getElem?_eq_getElem hlt⟩
  have hys : Yields O S i (S.next s) L := (hy i s _ hs hi).2.2.2
  have hsrc : (st.sources.modify i S.next)[i]? = some (S.next s) := by
    rw [List.getElem?_modify_eq, hs]
    rfl
  -- the popped node is the head of source `i`, so the heap holds the other heads
  have hrest : pq.elems st.heap = R := by
    rw [hR] at hheap
    exact (Multiset.cons_inj_right p.1).1 hheap
  have hsources : (advance S i st).sources = st.sources.modify i S.next := sources_advance i st
  refine ⟨by rw [hsources, List.length_modify, List.length_set, hlen], ?_, ?_⟩
  · -- only source `i` moves
    intro j t L' hj hL'
    rw [hsources] at hj
    by_cases hij : i = j
    · subst hij
      rw [hsrc] at hj
      rw [List.getElem?_set_self (hlen ▸ hlt)] at hL'
      rw [← Option.some.inj hj, ← Option.some.inj hL']
      exact hys
    · rw [List.getElem?_modify_ne _ _ hij] at hj
      rw [List.getElem?_set_ne hij] at hL'
      exact hy j t L' hj hL'
  · rw [hR']
    unfold advance push
    simp only [hsrc]
    rw [hys.node]
    cases headNode L with
    | none => exact hrest
    | some n => simp only [pq.elems_push, hrest, Option.elim_some]

/-- The node popped is the head of the source it names. -/
theorem Holds.idx {st : MergeState pq σ} {Ls : List (List (ν × β))} (h : Holds S st Ls) {n : ν}
    (hn : n ∈ heads Ls) : ∃ p L s, Ls[O.idx n]? = some (p :: L) ∧ p.1 = n ∧
      st.sources[O.idx n]? = some s ∧ S.payload s = p.2 := by
  obtain ⟨i, p, L, hi, hp⟩ := mem_heads.1 hn
  have hlt : i < st.sources.length := by
    rw [h.length]
    exact (List.getElem?_eq_some_iff.1 hi).1
  have hs := List.getElem?_eq_getElem hlt
  have hy := h.yields i _ _ hs hi
  have hidx : O.idx n = i := by
    rw [← hp]
    exact hy.2.1
  rw [hidx]
  exact ⟨p, L, _, hi, hp, hs, hy.2.2.1⟩

/-- Popping keeps the heap once the source has moved on. -/
theorem Holds.pop {st : MergeState pq σ} {Ls : List (List (ν × β))} (h : Holds S st Ls) {n : ν} {q : pq.Q}
    (hpop : pq.pop st.heap = some (n, q)) :
    ∃ p L s, Ls[O.idx n]? = some (p :: L) ∧ p.1 = n ∧ st.sources[O.idx n]? = some s ∧ S.payload s = p.2 ∧
      Holds S (advance S (O.idx n) { st with heap := q }) (Ls.set (O.idx n) L) := by
  have hel := (pq.pop_some _ _ _ hpop).1
  rw [h.heap] at hel
  have hn : n ∈ heads Ls := by
    rw [← Multiset.mem_coe, hel]
    exact Multiset.mem_cons_self n _
  obtain ⟨p, L, s, hi, hp, hs, hv⟩ := h.idx hn
  have hel' : p.1 ::ₘ pq.elems ({ st with heap := q } : MergeState pq σ).heap = heads Ls := by
    rw [hp]
    exact hel.symm
  exact ⟨p, L, s, hi, hp, hs, hv, advance_holds h.length h.yields hi hel'⟩

/-- An empty heap: every source is through. -/
theorem Holds.pop_none {st : MergeState pq σ} {Ls : List (List (ν × β))} (h : Holds S st Ls)
    (hpop : pq.pop st.heap = none) : ∀ L ∈ Ls, L = [] := by
  intro L hL
  have hempty := pq.pop_none _ hpop
  rw [h.heap] at hempty
  cases L with
  | nil => rfl
  | cons p L =>
    obtain ⟨i, hi⟩ := List.getElem?_of_mem hL
    have hm : p.1 ∈ (heads Ls : Multiset ν) := mem_heads.2 ⟨i, p, L, hi, rfl⟩
    rw [hempty] at hm
    exact absurd hm (Multiset.notMem_zero _)

theorem gt_eq_false {a b : ν} (h : O.gt a b = false) :
    O.key a ≤ O.key b ∧ (O.key a = O.key b → O.rank b ≤ O.rank a) := by
  unfold NodeOrder.gt at h
  by_cases hk : O.key a = O.key b
  · rw [if_neg (not_not.2 hk)] at h
    exact ⟨le_of_eq hk, fun _ => by simpa using h⟩
  · rw [if_pos hk] at h
    exact ⟨by simpa using h, fun e => absurd e hk⟩

/-- Popping keeps the invariant once the source has moved on. -/
theorem OK.pop {st : MergeState pq σ} {Ls : List (List (ν × β))} (h : OK S st Ls) {n : ν} {q : pq.Q}
    (hpop : pq.pop st.heap = some (n, q)) :
    ∃ p L s, Ls[O.idx n]? = some (p :: L) ∧ p.1 = n ∧ st.sources[O.idx n]? = some s ∧
      S.payload s = p.2 ∧
      (∀ m ∈ heads Ls, O.key n ≤ O.key m ∧ (O.key n = O.key m → O.rank m ≤ O.rank n)) ∧
      OK S (advance S (O.idx n) { st with heap := q }) (Ls.set (O.idx n) L) := by
  obtain ⟨hel, hmin⟩ := pq.pop_some _ _ _ hpop
  rw [h.heap] at hel
  obtain ⟨p, L, s, hi, hp, hs, hv, hholds⟩ := h.toHolds.pop hpop
  refine ⟨p, L, s, hi, hp, hs, hv, fun m hm => ?_, hholds, fun L' hL' => ?_⟩
  · rw [← Multiset.mem_coe, hel] at hm
    rcases Multiset.mem_cons.1 hm with rfl | hm
    · exact ⟨le_rfl, fun _ => le_rfl⟩
    · exact gt_eq_false (hmin m hm)
  · rcases List.mem_or_eq_of_mem_set hL' with hL' | rfl
    · exact h.asc L' hL'
    · exact (h.asc _ (List.mem_of_getElem? hi)).tail

/-! ## Draining -/

variable (O) in
/-- A list behind key `k`, if its head has that key. -/
def dropKey (k : K) : List (ν × β) → List (ν × β)
  | [] => []
  | p :: L => if O.key p.1 = k then L else p :: L

theorem dropKey_cons (k : K) (p : ν × β) (L : List (ν × β)) :
    dropKey O k (p :: L) = if O.key p.1 = k then L else p :: L := rfl

theorem dropKey_sublist (k : K) (L : List (ν × β)) : (dropKey O k L).Sublist L := by
  cases L with
  | nil => exact List.Sublist.refl _
  | cons p L =>
    rw [dropKey_cons]
    split
    · exact List.sublist_cons_self p L
    · exact List.Sublist.refl _

/-- What is left behind a least key has greater ones. -/
theorem lt_of_mem_dropKey {k : K} {L : List (ν × β)} (hasc : Asc O L) (hle : ∀ m ∈ L, k ≤ O.key m.1) {m : ν × β}
    (hm : m ∈ dropKey O k L) : k < O.key m.1 := by
  cases L with
  | nil => exact absurd hm List.not_mem_nil
  | cons q L =>
    have hq := hle q List.mem_cons_self
    rw [dropKey_cons] at hm
    split at hm
    · rename_i hk
      rw [← hk]
      exact (ascending_cons.1 hasc).1 m hm
    · rename_i hk
      have hlt : k < O.key q.1 := lt_of_le_of_ne hq (Ne.symm hk)
      rcases List.mem_cons.1 hm with rfl | hm
      · exact hlt
      · exact lt_trans hlt ((ascending_cons.1 hasc).1 m hm)

/-- What holds of the heads holds of the records behind them. -/
theorem le_of_heads {p : ν × β} {Ls : List (List (ν × β))} (hasc : ∀ L ∈ Ls, Asc O L)
    (hmin : ∀ m ∈ heads Ls, O.key p.1 ≤ O.key m ∧ (O.key p.1 = O.key m → O.rank m ≤ O.rank p.1))
    {L : List (ν × β)} (hL : L ∈ Ls) {m : ν × β} (hm : m ∈ L) :
    O.key p.1 ≤ O.key m.1 ∧ (O.key m.1 = O.key p.1 → O.rank m.1 ≤ O.rank p.1) := by
  cases L with
  | nil => exact absurd hm List.not_mem_nil
  | cons q L' =>
    obtain ⟨i, hi⟩ := List.getElem?_of_mem hL
    obtain ⟨hle, hrank⟩ := hmin q.1 (mem_heads.2 ⟨i, q, L', hi, rfl⟩)
    rcases List.mem_cons.1 hm with rfl | hm
    · exact ⟨hle, fun he => hrank he.symm⟩
    · have hlt := lt_of_le_of_lt hle ((ascending_cons.1 (hasc _ hL)).1 m hm)
      exact ⟨hlt.le, fun he => absurd he (ne_of_gt hlt)⟩

theorem dropKey_tail {p : ν × β} {L : List (ν × β)} (h : Asc O (p :: L)) :
    dropKey O (O.key p.1) L = L := by
  cases L with
  | nil => rfl
  | cons q L => rw [dropKey_cons, if_neg (ne_of_gt ((ascending_cons.1 h).1 q List.mem_cons_self))]

/-- Lists whose heads are not `k` stay. -/
theorem map_dropKey {k : K} {Ls : List (List (ν × β))} (h : ∀ n ∈ heads Ls, O.key n ≠ k) :
    Ls.map (dropKey O k) = Ls := by
  refine (List.map_congr_left fun L hL => ?_).trans (List.map_id' Ls)
  cases L with
  | nil => rfl
  | cons p L =>
    obtain ⟨i, hi⟩ := List.getElem?_of_mem hL
    rw [dropKey_cons, if_neg (h p.1 (mem_heads.2 ⟨i, p, L, hi, rfl⟩))]

/-- How many sources stand at key `k`. -/
def countKey (O : NodeOrder K ν) (k : K) (Ls : List (List (ν × β))) : ℕ :=
  (heads Ls).countP fun n => O.key n = k

/-- A source that moves on is no longer at its key. -/
theorem countKey_set {Ls : List (List (ν × β))} {i : ℕ} {p : ν × β} {L : List (ν × β)}
    (h : Ls[i]? = some (p :: L)) (hasc : Asc O (p :: L)) :
    countKey O (O.key p.1) Ls = countKey O (O.key p.1) (Ls.set i L) + 1 := by
  obtain ⟨R, hR, hR'⟩ := heads_set h
  have hcoe : ∀ l : List ν, l.countP (fun n => O.key n = O.key p.1) =
      (l : Multiset ν).countP (fun n => O.key n = O.key p.1) := fun l => by
    rw [Multiset.coe_countP]
  unfold countKey
  rw [hcoe, hcoe, hR, hR', Multiset.countP_cons_of_pos (p := fun n => O.key n = O.key p.1) _ rfl]
  cases L with
  | nil => rfl
  | cons q L =>
    have hne : ¬ O.key q.1 = O.key p.1 := ne_of_gt ((ascending_cons.1 hasc).1 q List.mem_cons_self)
    have hq : headNode (q :: L) = some q.1 := rfl
    rw [hq, Option.elim_some, Multiset.countP_cons_of_neg (p := fun n => O.key n = O.key p.1) _ hne]

/-- A source that moves on still stands at or after a smallest key. -/
theorem key_heads_set {Ls : List (List (ν × β))} {i : ℕ} {p : ν × β} {L : List (ν × β)}
    (h : Ls[i]? = some (p :: L)) (hasc : Asc O (p :: L)) (hle : ∀ n ∈ heads Ls, O.key p.1 ≤ O.key n) :
    ∀ n ∈ heads (Ls.set i L), O.key p.1 ≤ O.key n := by
  intro n hn
  obtain ⟨j, r, R, hj, hr⟩ := mem_heads.1 hn
  subst hr
  by_cases hij : i = j
  · subst hij
    rw [List.getElem?_set_self (List.getElem?_eq_some_iff.1 h).1] at hj
    rw [Option.some.inj hj] at hasc
    exact ((ascending_cons.1 hasc).1 r List.mem_cons_self).le
  · rw [List.getElem?_set_ne hij] at hj
    exact hle _ (mem_heads.2 ⟨j, r, R, hj, rfl⟩)

/-- Moving one source on first makes no difference to moving all behind its key. -/
theorem map_dropKey_set {Ls : List (List (ν × β))} {i : ℕ} {p : ν × β} {L : List (ν × β)}
    (h : Ls[i]? = some (p :: L)) (hasc : Asc O (p :: L)) :
    (Ls.set i L).map (dropKey O (O.key p.1)) = Ls.map (dropKey O (O.key p.1)) := by
  have hget : (Ls.map (dropKey O (O.key p.1)))[i]? = some L := by
    rw [List.getElem?_map, h, Option.map_some, dropKey_cons, if_pos rfl]
  obtain ⟨hlt, hget⟩ := List.getElem?_eq_some_iff.1 hget
  rw [List.map_set, dropKey_tail hasc]
  conv_lhs => rw [← hget]
  exact List.set_getElem_self hlt

theorem countKey_le (O : NodeOrder K ν) (k : K) (Ls : List (List (ν × β))) :
    countKey O k Ls ≤ Ls.length :=
  le_trans List.countP_le_length (List.length_filterMap_le _ _)

/-- **Draining moves every source at the smallest key behind it.** -/
theorem drain_ok {k : K} : ∀ {fuel : ℕ} {st : MergeState pq σ} {Ls : List (List (ν × β))}, OK S st Ls →
    (∀ n ∈ heads Ls, k ≤ O.key n) → countKey O k Ls ≤ fuel →
    OK S (drain S fuel k st) (Ls.map (dropKey O k)) := by
  intro fuel
  induction fuel with
  | zero =>
    intro st Ls h _ hc
    have hnone : ∀ n ∈ heads Ls, O.key n ≠ k := by
      have := List.countP_eq_zero.1 (Nat.le_zero.1 hc)
      intro n hn
      simpa using this n hn
    rw [map_dropKey hnone]
    exact h
  | succ fuel ih =>
    intro st Ls h hle hc
    unfold drain
    cases hpop : pq.pop st.heap with
    | none =>
      -- an empty heap: there are no heads, so none has the key
      have hempty : heads Ls = [] := by
        have := pq.pop_none _ hpop
        rw [h.heap] at this
        exact Multiset.coe_eq_zero _ |>.1 this
      rw [map_dropKey (by rw [hempty]; exact fun n hn => absurd hn List.not_mem_nil)]
      exact h
    | some nq =>
      obtain ⟨n, q⟩ := nq
      obtain ⟨p, L, s, hi, hp, -, -, hmin, hok⟩ := h.pop hpop
      subst hp
      have hasc := h.asc _ (List.mem_of_getElem? hi)
      have hn : p.1 ∈ heads Ls := mem_heads.2 ⟨_, p, L, hi, rfl⟩
      simp only
      split
      · -- the least head has the key: it is dropped, and one node fewer of the key is left
        rename_i hk
        subst hk
        rw [← map_dropKey_set hi hasc]
        refine ih hok (fun m hm => key_heads_set hi hasc hle m hm) ?_
        rw [countKey_set hi hasc] at hc
        exact Nat.le_of_succ_le_succ hc
      · rename_i hk
        -- the least head is behind the key, so all heads are
        have hlt : k < O.key p.1 := lt_of_le_of_ne (hle _ hn) (Ne.symm hk)
        rw [map_dropKey fun m hm => ne_of_gt (lt_of_lt_of_le hlt (hmin m hm).1)]
        exact h

/-! ## Rounds -/

/-- **One round**: the winner is a head of smallest key and, among those, of greatest
rank, and afterwards every source stands behind its key. -/
theorem popWinner_spec {st : MergeState pq σ} {Ls : List (List (ν × β))} (h : OK S st Ls) {fuel : ℕ}
    (hf : Ls.length ≤ fuel) :
    (popWinner S fuel st = none ∧ ∀ L ∈ Ls, L = []) ∨
      ∃ p L st', popWinner S fuel st = some (p.1, some p.2, st') ∧ p :: L ∈ Ls ∧
        (∀ m ∈ heads Ls, O.key p.1 ≤ O.key m ∧ (O.key p.1 = O.key m → O.rank m ≤ O.rank p.1)) ∧
        OK S st' (Ls.map (dropKey O (O.key p.1))) := by
  unfold popWinner
  cases hpop : pq.pop st.heap with
  | none => exact Or.inl ⟨rfl, h.toHolds.pop_none hpop⟩
  | some nq =>
    obtain ⟨n, q⟩ := nq
    obtain ⟨p, L, s, hi, hp, hs, hv, hmin, hok⟩ := h.pop hpop
    subst hp
    have hasc := h.asc _ (List.mem_of_getElem? hi)
    refine Or.inr ⟨p, L, _, by simp only [hs, Option.map_some, hv]; rfl, List.mem_of_getElem? hi, hmin, ?_⟩
    rw [← map_dropKey_set hi hasc]
    exact drain_ok hok (key_heads_set hi hasc fun m hm => (hmin m hm).1)
      (le_trans (countKey_le O _ _) (by rw [List.length_set]; exact hf))

/-- Filling the heap establishes the invariant. -/
theorem fill_holds {sources : List σ} {Ls : List (List (ν × β))} (hlen : sources.length = Ls.length)
    (hy : ∀ i s L, sources[i]? = some s → Ls[i]? = some L → Yields O S i s L) :
    Holds S (fill S sources : MergeState pq σ) Ls := by
  -- the invariant of the loop: after `m` sources the heap holds the heads of the first `m`
  have key : ∀ m, m ≤ sources.length →
      ((List.range m).foldl (fun st i => push S i st) (⟨sources, pq.empty⟩ : MergeState pq σ)).sources = sources ∧
      pq.elems ((List.range m).foldl (fun st i => push S i st) (⟨sources, pq.empty⟩ : MergeState pq σ)).heap =
        heads (Ls.take m) := by
    intro m
    induction m with
    | zero => exact fun _ => ⟨rfl, pq.elems_empty⟩
    | succ m ih =>
      intro hm
      obtain ⟨ih1, ih2⟩ := ih (by omega)
      have hs := List.getElem?_eq_getElem (show m < sources.length by omega)
      have hL := List.getElem?_eq_getElem (show m < Ls.length by omega)
      have hn := (hy m _ _ hs hL).node
      have htake : heads (Ls.take (m + 1)) = heads (Ls.take m) ++ (headNode Ls[m]).toList := by
        unfold heads
        rw [List.take_add_one, hL, List.filterMap_append, Option.toList_some]
        congr 1
      rw [List.range_succ, List.foldl_append, List.foldl_cons, List.foldl_nil, htake]
      generalize (List.range m).foldl (fun st i => push S i st) (⟨sources, pq.empty⟩ : MergeState pq σ) =
          st at ih1 ih2
      unfold push
      rw [ih1, hs]
      simp only [hn]
      cases headNode Ls[m] with
      | none =>
        rw [Option.toList_none, List.append_nil]
        exact ⟨ih1, ih2⟩
      | some n =>
        refine ⟨rfl, ?_⟩
        simp only [pq.elems_push, ih2, Option.toList_some]
        rw [Multiset.cons_coe, Multiset.coe_eq_coe]
        exact (List.perm_append_singleton n _).symm
  obtain ⟨h1, h2⟩ := key _ le_rfl
  unfold fill
  refine ⟨by rw [h1, hlen], fun i s L hs hL => hy i s L (by rw [← h1]; exact hs) hL, ?_⟩
  rw [h2, hlen, List.take_length]

theorem fill_ok {sources : List σ} {Ls : List (List (ν × β))} (hlen : sources.length = Ls.length)
    (hy : ∀ i s L, sources[i]? = some s → Ls[i]? = some L → Yields O S i s L)
    (hasc : ∀ L ∈ Ls, Asc O L) : OK S (fill S sources : MergeState pq σ) Ls :=
  ⟨fill_holds hlen hy, hasc⟩

/-! ## All rounds -/

variable (O) in
/-- `W` lists each key of `Ls` once, ascending, with a record of greatest rank. -/
structure Merged (Ls : List (List (ν × β))) (W : List (ν × β)) : Prop where
  asc : Asc O W
  mem : ∀ w ∈ W, ∃ L ∈ Ls, w ∈ L
  complete : ∀ L ∈ Ls, ∀ m ∈ L, ∃ w ∈ W, O.key w.1 = O.key m.1 ∧ O.rank m.1 ≤ O.rank w.1

/-- A record of greatest rank wins. -/
theorem Merged.rank_le {Ls : List (List (ν × β))} {W : List (ν × β)} (h : Merged O Ls W) {w : ν × β}
    (hw : w ∈ W) {L : List (ν × β)} (hL : L ∈ Ls) {m : ν × β} (hm : m ∈ L)
    (hk : O.key m.1 = O.key w.1) : O.rank m.1 ≤ O.rank w.1 := by
  obtain ⟨x, hx, hkx, hr⟩ := h.complete L hL m hm
  rw [h.asc.eq_of_key hx hw (hkx.trans hk)] at hr
  exact hr

/-- A winner put before the merge of what stands behind it. -/
theorem Merged.cons {Ls : List (List (ν × β))} {W : List (ν × β)} {p : ν × β} {L : List (ν × β)}
    (hasc : ∀ L ∈ Ls, Asc O L) (hp : p :: L ∈ Ls)
    (hmin : ∀ m ∈ heads Ls, O.key p.1 ≤ O.key m ∧ (O.key p.1 = O.key m → O.rank m ≤ O.rank p.1))
    (h : Merged O (Ls.map (dropKey O (O.key p.1))) W) : Merged O Ls (p :: W) := by
  -- every record behind the winner's key has a greater one
  have hgt : ∀ L ∈ Ls, ∀ m ∈ dropKey O (O.key p.1) L, O.key p.1 < O.key m.1 := fun L hL m hm =>
    lt_of_mem_dropKey (hasc L hL) (fun q hq => (le_of_heads hasc hmin hL hq).1) hm
  refine ⟨ascending_cons.2 ⟨fun w hw => ?_, h.asc⟩, fun w hw => ?_, fun L' hL' m hm => ?_⟩
  · obtain ⟨L', hL', hw'⟩ := h.mem w hw
    obtain ⟨L'', hL'', rfl⟩ := List.mem_map.1 hL'
    exact hgt L'' hL'' w hw'
  · rcases List.mem_cons.1 hw with rfl | hw
    · exact ⟨_, hp, List.mem_cons_self⟩
    · obtain ⟨L', hL', hw'⟩ := h.mem w hw
      obtain ⟨L'', hL'', rfl⟩ := List.mem_map.1 hL'
      exact ⟨L'', hL'', (dropKey_sublist _ L'').subset hw'⟩
  · by_cases hmem : m ∈ dropKey O (O.key p.1) L'
    · obtain ⟨w, hw, hk, hr⟩ := h.complete _ (List.mem_map_of_mem hL') m hmem
      exact ⟨w, List.mem_cons_of_mem _ hw, hk, hr⟩
    · -- a record that was dropped is a head with the winner's key
      cases L' with
      | nil => exact absurd hm List.not_mem_nil
      | cons q L'' =>
        rw [dropKey_cons] at hmem
        split at hmem
        · rename_i hk
          have hmq : m = q := (List.mem_cons.1 hm).resolve_right hmem
          obtain ⟨i, hi⟩ := List.getElem?_of_mem hL'
          have hq := (hmin q.1 (mem_heads.2 ⟨i, q, L'', hi, rfl⟩)).2 hk.symm
          rw [hmq]
          exact ⟨p, List.mem_cons_self, hk.symm, hq⟩
        · exact absurd hm hmem

/-- How many records are left. -/
def total (Ls : List (List (ν × β))) : ℕ := (Ls.map List.length).sum

/-- A round takes at least one record. -/
theorem total_map_dropKey_lt {p : ν × β} {L : List (ν × β)} {Ls : List (List (ν × β))}
    (h : p :: L ∈ Ls) : total (Ls.map (dropKey O (O.key p.1))) < total Ls := by
  unfold total
  rw [List.map_map]
  refine List.sum_lt_sum _ _ (fun L' _ => (dropKey_sublist _ L').length_le) ⟨p :: L, h, ?_⟩
  simp [dropKey_cons]

theorem Merged.nil {Ls : List (List (ν × β))} (h : ∀ L ∈ Ls, L = []) : Merged O Ls [] :=
  ⟨ascending_nil, fun w hw => absurd hw List.not_mem_nil, fun L hL m hm => by
    rw [h L hL] at hm
    exact absurd hm List.not_mem_nil⟩

variable (S) in
/-- The rounds yield these records one by one, and then the heap is empty. -/
def Produces (fuel : ℕ) : MergeState pq σ → List (ν × β) → Prop
  | st, [] => popWinner S fuel st = none
  | st, p :: W => ∃ st', popWinner S fuel st = some (p.1, some p.2, st') ∧ Produces fuel st' W

/-- **The rounds together merge the sources.** -/
theorem produces_merged {fuel : ℕ} {st : MergeState pq σ} {Ls : List (List (ν × β))} (h : OK S st Ls)
    (hf : Ls.length ≤ fuel) : ∃ W, Produces S fuel st W ∧ Merged O Ls W ∧ W.length ≤ total Ls := by
  -- by induction on the nodes left, of which each round drops one at least
  have key : ∀ n (st : MergeState pq σ) (Ls : List (List (ν × β))), OK S st Ls → Ls.length ≤ fuel → total Ls ≤ n →
      ∃ W, Produces S fuel st W ∧ Merged O Ls W ∧ W.length ≤ total Ls := by
    intro n
    induction n with
    | zero =>
      intro st Ls h hf ht
      have h0 : total Ls = 0 := Nat.le_zero.1 ht
      have hnil : ∀ L ∈ Ls, L = [] := by
        intro L hL
        unfold total at h0
        exact List.length_eq_zero_iff.1 (List.sum_eq_zero_iff.1 h0 _ (List.mem_map_of_mem hL))
      rcases popWinner_spec h hf with ⟨hpop, -⟩ | ⟨p, L, st', -, hp, -, -⟩
      · exact ⟨[], hpop, Merged.nil hnil, Nat.zero_le _⟩
      · exact absurd (hnil _ hp) (by simp)
    | succ n ih =>
      intro st Ls h hf ht
      rcases popWinner_spec h hf with ⟨hpop, hnil⟩ | ⟨p, L, st', hpop, hp, hmin, hok⟩
      · exact ⟨[], hpop, Merged.nil hnil, Nat.zero_le _⟩
      · have hlt := total_map_dropKey_lt (O := O) hp
        obtain ⟨W, hW, hm, hlen⟩ := ih st' _ hok (by rw [List.length_map]; exact hf) (by omega)
        refine ⟨p :: W, ⟨st', hpop, hW⟩, Merged.cons h.asc hp hmin hm, ?_⟩
        rw [List.length_cons]
        omega
  exact key _ st Ls h hf le_rfl

/-- Enough rounds yield all records. -/
theorem Produces.winners {fuel : ℕ} {W : List (ν × β)} : ∀ {n : ℕ} {st : MergeState pq σ}, Produces S fuel st W →
    W.length ≤ n → winners S fuel n st = W.map fun w => (w.1, some w.2) := by
  induction W with
  | nil =>
    intro n st h _
    cases n with
    | zero => rfl
    | succ n =>
      unfold Merge.winners
      rw [show popWinner S fuel st = none from h]
      rfl
  | cons p W ih =>
    intro n st h hn
    obtain ⟨st', hpop, hW⟩ := h
    cases n with
    | zero => exact absurd hn (by simp)
    | succ n =>
      unfold Merge.winners
      rw [hpop]
      simp only [List.map_cons, ih hW (Nat.le_of_succ_le_succ hn)]

/-- Enough rounds yield a merged list. -/
theorem winners_merged {fuel n : ℕ} {st : MergeState pq σ} {Ls : List (List (ν × β))} (h : OK S st Ls)
    (hf : Ls.length ≤ fuel) (ht : total Ls ≤ n) :
    ∃ W, winners S fuel n st = W.map (fun w => (w.1, some w.2)) ∧ Merged O Ls W := by
  obtain ⟨W, hW, hm, hlen⟩ := produces_merged h hf
  exact ⟨W, hW.winners (hlen.trans ht), hm⟩

/-! ## The sources of a merge -/

/-- What holds of each source and survives its moving on. -/
def SourcesKeep (P : ℕ → σ → Prop) (st : MergeState pq σ) : Prop := ∀ i s, st.sources[i]? = some s → P i s

variable {P : ℕ → σ → Prop}

theorem SourcesKeep.advance (hnext : ∀ i s, P i s → P i (S.next s)) {st : MergeState pq σ} (h : SourcesKeep P st)
    (i : ℕ) : SourcesKeep P (advance S i st) ∧ (advance S i st).sources.length = st.sources.length := by
  unfold Merge.advance
  refine ⟨fun j s hs => ?_, ?_⟩
  · rw [sources_push, List.getElem?_modify] at hs
    obtain ⟨s₀, hs₀, rfl⟩ := Option.map_eq_some_iff.1 hs
    have hp := h j s₀ hs₀
    split
    · exact hnext j s₀ hp
    · exact hp
  · rw [sources_push, List.length_modify]

theorem SourcesKeep.drain (hnext : ∀ i s, P i s → P i (S.next s)) {k : K} : ∀ {fuel : ℕ} {st : MergeState pq σ},
    SourcesKeep P st → SourcesKeep P (drain S fuel k st) ∧
    (drain S fuel k st).sources.length = st.sources.length := by
  intro fuel
  induction fuel with
  | zero => exact fun h => ⟨h, rfl⟩
  | succ fuel ih =>
    intro st h
    unfold Merge.drain
    cases pq.pop st.heap with
    | none => exact ⟨h, rfl⟩
    | some nq =>
      obtain ⟨n, q⟩ := nq
      simp only
      split
      · have hst : SourcesKeep P ({ st with heap := q } : MergeState pq σ) := h
        obtain ⟨h1, h2⟩ := hst.advance hnext (O.idx n)
        obtain ⟨h3, h4⟩ := ih h1
        exact ⟨h3, h4.trans h2⟩
      · exact ⟨h, rfl⟩

/-- **A round keeps what each source keeps when it moves on.** -/
theorem SourcesKeep.popWinner (hnext : ∀ i s, P i s → P i (S.next s)) {fuel : ℕ} {st st' : MergeState pq σ}
    (h : SourcesKeep P st) {n : ν} {v : Option β} (hpop : popWinner S fuel st = some (n, v, st')) :
    SourcesKeep P st' ∧ st'.sources.length = st.sources.length := by
  unfold Merge.popWinner at hpop
  split at hpop
  · exact absurd hpop (by simp)
  · rename_i n' q _
    obtain ⟨-, h2⟩ := Prod.mk.inj (Option.some.inj hpop)
    obtain ⟨-, rfl⟩ := Prod.mk.inj h2
    have hst : SourcesKeep P ({ st with heap := q } : MergeState pq σ) := h
    obtain ⟨h1, h2⟩ := hst.advance hnext (O.idx n')
    obtain ⟨h3, h4⟩ := h1.drain hnext
    exact ⟨h3, h4.trans h2⟩

theorem sources_fill (sources : List σ) : (fill S sources : MergeState pq σ).sources = sources := by
  unfold fill
  have key : ∀ (is : List ℕ) (st : MergeState pq σ),
      (is.foldl (fun st i => push S i st) st).sources = st.sources := by
    intro is
    induction is with
    | nil => exact fun st => rfl
    | cons i is ih => exact fun st => (ih _).trans (sources_push i st)
  exact key _ _

end Merge

end LsmTree.Base
