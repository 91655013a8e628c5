import LsmTree.Spec.LinkedSkipList
import LsmTree.Base.Links

/-!
# The skip list is a sorted map

* `Holds`: the nodes of a list, at each of the sixteen levels those that are high enough.
* `descend_ok`: the search ends at the first node at or after the key and leaves in each
  slot the last node before it that reaches the slot's level.
* `insert_old`, `insert_links`: `Insert` changes the entry of a node or links in a new one at
  each of its levels, and all chains stay (`LinkedBelow.holds`).
* `clear_ok`: `Clear` frees the nodes and leaves the empty list.
-/

namespace LsmTree

open Base

namespace LinkedSkipList

variable {l l' : LinkedSkipList} {a b i j : ℕ}

/-! ## Nodes -/

/-- Key and entry of a node. -/
def nodeAt (l : LinkedSkipList) (a : ℕ) : SkipList.Node :=
  (l.node a).elim ⟨[], ⟨[], .kTypeValue⟩⟩ fun n => ⟨n.key, n.entry⟩

/-- How many forward pointers a node has. -/
def height (l : LinkedSkipList) (a : ℕ) : ℕ := (l.node a).elim 0 fun n => n.forward.length

theorem node_of_height (h : i < l.height a) : ∃ n, l.node a = some n ∧ l.nodeAt a = ⟨n.key, n.entry⟩ ∧
    l.height a = n.forward.length := by
  unfold height nodeAt at *
  cases hn : l.node a with
  | none =>
    rw [hn] at h
    exact absurd h (Nat.not_lt_zero _)
  | some n => exact ⟨n, rfl, rfl, rfl⟩

theorem lt_of_node {n : Node} (h : l.node a = some n) : a < l.memory.length := by
  unfold node at h
  rw [Option.join_eq_some_iff] at h
  exact (List.getElem?_eq_some_iff.1 h).1

theorem lt_of_height (h : i < l.height a) : a < l.memory.length := by
  obtain ⟨n, hn, -, -⟩ := node_of_height h
  exact lt_of_node hn

theorem node_set (h : a < l.memory.length) (n : Option Node) (m : ℕ) :
    node ⟨l.memory.set a n, m⟩ b = if b = a then n else l.node b := by
  unfold node
  simp only
  by_cases hb : b = a
  · subst hb
    rw [List.getElem?_set_self h, if_pos rfl]
    rfl
  · rw [List.getElem?_set_ne (Ne.symm hb), if_neg hb]

theorem node_setNode {n : Node} (hn : l.node a = some n) (n' : Node) (b : ℕ) :
    (l.setNode a n').node b = if b = a then some n' else l.node b := node_set (lt_of_node hn) _ _

/-- Key, entry and height of every node are the same. -/
structure SameNodes (l l' : LinkedSkipList) : Prop where
  nodeAt : ∀ a, l'.nodeAt a = l.nodeAt a
  height : ∀ a, l'.height a = l.height a
  maxHeight : l'.maxHeight = l.maxHeight

theorem SameNodes.refl (l : LinkedSkipList) : SameNodes l l := ⟨fun _ => rfl, fun _ => rfl, rfl⟩

theorem SameNodes.trans {l'' : LinkedSkipList} (h : SameNodes l l') (h' : SameNodes l' l'') : SameNodes l l'' :=
  ⟨fun a => (h'.nodeAt a).trans (h.nodeAt a), fun a => (h'.height a).trans (h.height a),
    h'.maxHeight.trans h.maxHeight⟩

/-- One pointer is set. -/
structure Points (l : LinkedSkipList) (a i : ℕ) (p : Option ℕ) (l' : LinkedSkipList) : Prop where
  same : SameNodes l l'
  forward : ∀ b j, l'.forward b j = if b = a ∧ j = i then some p else l.forward b j

theorem setForward_ok (h : i < l.height a) (p : Option ℕ) : ∃ l', l.setForward a i p = some l' ∧
    Points l a i p l' := by
  obtain ⟨n, hn, hat, hlen⟩ := node_of_height h
  have hnode := node_setNode hn { n with forward := n.forward.set i p }
  refine ⟨l.setNode a { n with forward := n.forward.set i p }, ?_, ⟨fun b => ?_, fun b => ?_, rfl⟩, fun b j => ?_⟩
  · unfold setForward
    rw [hn]
    simp only [Option.bind_eq_bind, Option.bind_some]
    rw [if_pos (hlen ▸ h)]
  · unfold nodeAt
    rw [hnode]
    split
    · rename_i hb
      rw [hb, hn]
      rfl
    · rfl
  · unfold height
    rw [hnode]
    split
    · rename_i hb
      rw [hb, hn]
      exact List.length_set
    · rfl
  · unfold forward
    rw [hnode]
    by_cases hb : b = a
    · subst hb
      rw [if_pos rfl, hn]
      simp only [Option.bind_eq_bind, Option.bind_some, true_and]
      rw [List.getElem?_set]
      -- only the link of level `i` is another
      by_cases hj : j = i
      · subst hj
        rw [if_pos rfl, if_pos (hlen ▸ h), if_pos rfl]
      · rw [if_neg (Ne.symm hj), if_neg hj]
    · rw [if_neg hb, if_neg fun hand => hb hand.1]

/-- **A pointer is accessed only within its node.** -/
theorem access_iff (l : LinkedSkipList) (a i : ℕ) (p : Option ℕ) :
    ((l.forward a i).isSome ↔ i < l.height a) ∧ ((l.setForward a i p).isSome ↔ i < l.height a) := by
  unfold forward setForward height
  cases l.node a with
  | none => simp
  | some n =>
    simp only [Option.bind_eq_bind, Option.bind_some, Option.elim_some]
    refine ⟨by simp, ?_⟩
    split
    · rename_i hlt
      simp [hlt]
    · rename_i hge
      simp [hge]

/-! ## Levels -/

/-- The nodes that reach a level. -/
def level (l : LinkedSkipList) (i : ℕ) (as : List ℕ) : List ℕ := as.filter fun a => i < l.height a

theorem level_append (as bs : List ℕ) : l.level i (as ++ bs) = l.level i as ++ l.level i bs :=
  List.filter_append _ _

theorem level_cons_of_lt (h : i < l.height a) (as : List ℕ) : l.level i (a :: as) = a :: l.level i as :=
  List.filter_cons_of_pos (by simpa using h)

theorem level_cons_of_ge (h : l.height a ≤ i) (as : List ℕ) : l.level i (a :: as) = l.level i as :=
  List.filter_cons_of_neg (by simpa using h)

theorem mem_level {as : List ℕ} : a ∈ l.level i as ↔ a ∈ as ∧ i < l.height a := by
  unfold level
  rw [List.mem_filter, decide_eq_true_eq]

theorem SameNodes.level (h : SameNodes l l') (i : ℕ) (as : List ℕ) : l'.level i as = l.level i as :=
  List.filter_congr fun a _ => by rw [h.height]

/-- The nodes `as` stand in the list in this order, and each level links those that reach it. -/
structure Holds (l : LinkedSkipList) (as : List ℕ) : Prop where
  head : l.height head = kMaxHeight
  notHead : LinkedSkipList.head ∉ as
  ascending : Ascending (fun a => (l.nodeAt a).key) as
  high : ∀ a ∈ as, 1 ≤ l.height a ∧ l.height a ≤ l.maxHeight
  maxHeight : 1 ≤ l.maxHeight ∧ l.maxHeight ≤ kMaxHeight
  links : ∀ i < kMaxHeight, Links (fun a => l.forward a i) (l.level i (LinkedSkipList.head :: as))

variable {as bs cs : List ℕ} {key : Bytes}

namespace Holds

theorem head_reaches (h : Holds l as) (hi : i < kMaxHeight) : i < l.height LinkedSkipList.head := h.head ▸ hi

/-- The list has fewer nodes than there are places. -/
theorem length_lt (h : Holds l as) : as.length < l.memory.length := by
  have hnodup : (LinkedSkipList.head :: as).Nodup := List.nodup_cons.2 ⟨h.notHead, h.ascending.nodup⟩
  have hsub : (LinkedSkipList.head :: as) ⊆ List.range l.memory.length := by
    intro a ha
    rw [List.mem_range]
    rcases List.mem_cons.1 ha with rfl | ha
    · exact lt_of_height (h.head_reaches (i := 0) (by decide))
    · exact lt_of_height (h.high a ha).1
  have hlen := (hnodup.subperm hsub).length_le
  rw [List.length_range, List.length_cons] at hlen
  exact hlen

end Holds

/-! ## The search -/

/-- The last of `head_` and the nodes `bs` that reaches a level. -/
def pred (l : LinkedSkipList) (bs : List ℕ) (i : ℕ) : Option ℕ := (l.level i (head :: bs)).getLast?

theorem before_eq (h : i < l.height a) (key : Bytes) :
    l.before key (some a) = some (decide ((l.nodeAt a).key < key)) := by
  obtain ⟨n, hn, hat, -⟩ := node_of_height h
  unfold before
  simp only
  rw [hn, hat]
  rfl

/-- No node of a level is before the key, if none of the list is. -/
theorem before_level (hcs : ∀ c ∈ cs, key ≤ (l.nodeAt c).key) (i : ℕ) :
    l.before key (l.level i cs).head? = some false := by
  cases hc : l.level i cs with
  | nil => rfl
  | cons c more =>
    obtain ⟨hcmem, hc⟩ := mem_level.1 (hc ▸ List.mem_cons_self : c ∈ l.level i cs)
    rw [List.head?_cons, before_eq hc, decide_eq_false (not_lt.2 (hcs c hcmem))]

theorem fill_ok (hi : i < kMaxHeight) (x : ℕ) (update : Option Slots) :
    (update.elim (some none) fun update => (update.fill i x).map some) =
      some (update.map fun s => Function.update s i (some x)) := by
  cases update with
  | none => rfl
  | some s =>
    unfold Slots.fill
    simp only [Option.elim_some]
    rw [if_pos hi]
    rfl

/-- The slots from the lowest level up to one more. -/
theorem slots_zero (s pred : Slots) :
    Function.update s 0 (pred 0) = fun j => if j ≤ 0 then pred j else s j := by
  funext j
  by_cases hj : j = 0
  · subst hj
    rw [Function.update_self, if_pos le_rfl]
  · rw [Function.update_of_ne hj, if_neg (by omega)]

theorem slots_succ (s pred : Slots) (i : ℕ) :
    (fun j => if j ≤ i then pred j else Function.update s (i + 1) (pred (i + 1)) j) =
      fun j => if j ≤ i + 1 then pred j else s j := by
  funext j
  rcases Nat.lt_trichotomy j (i + 1) with hj | rfl | hj
  · rw [if_pos (by omega), if_pos (by omega)]
  · rw [if_neg (by omega), if_pos le_rfl, Function.update_self]
  · rw [if_neg (by omega), if_neg (by omega), Function.update_of_ne (by omega)]

/-- **The search** from a node `x` that reaches a level: it ends at the first of the nodes `cs`
at or after the key, and in each slot from this level down is the last node before it. -/
theorem descend_ok (h : Holds l (bs ++ cs)) (hbs : ∀ b ∈ bs, (l.nodeAt b).key < key)
    (hcs : ∀ c ∈ cs, key ≤ (l.nodeAt c).key) :
    ∀ (fuel : ℕ) (pre rest : List ℕ) {x level : ℕ} (update : Option Slots),
    head :: bs = pre ++ x :: rest → level < l.height x → level < kMaxHeight → rest.length + level < fuel →
    l.descend key fuel x level update =
      some (cs.head?, update.map fun s j => if j ≤ level then l.pred bs j else s j) := by
  intro fuel
  induction fuel with
  | zero => exact fun _ _ _ _ _ _ _ _ hfuel => absurd hfuel (Nat.not_lt_zero _)
  | succ fuel ih =>
    intro pre rest x level update hsplit hx hlevel hfuel
    have hlinks := h.links level hlevel
    rw [← List.cons_append, hsplit, List.append_assoc, List.cons_append, level_append, level_cons_of_lt hx,
      level_append] at hlinks
    have hnext := hlinks.next_eq
    have hmem : ∀ y ∈ rest, y ∈ bs := fun y hy => by
      cases pre with
      | nil => rwa [(List.cons.inj hsplit).2]
      | cons z pre =>
        rw [(List.cons.inj hsplit).2]
        exact List.mem_append_right pre (List.mem_cons_of_mem x hy)
    unfold descend
    rw [hnext]
    simp only [Option.bind_eq_bind, Option.bind_some]
    cases hrest : l.level level rest with
    | cons y more =>
      -- the next node of the level is before the key, and the search goes on to it
      obtain ⟨r₁, r₂, hr, -, hy, -⟩ := List.filter_eq_cons_iff.1 hrest
      rw [decide_eq_true_eq] at hy
      have hkey := hbs y (hmem y (hr ▸ List.mem_append_right r₁ List.mem_cons_self))
      rw [List.cons_append, List.head?_cons, before_eq hy, decide_eq_true hkey]
      simp only [Option.bind_some]
      refine ih (pre ++ x :: r₁) r₂ update ?_ hy hlevel ?_
      · rw [hsplit, hr, List.append_assoc, List.cons_append]
      · rw [hr, List.length_append, List.length_cons] at hfuel
        omega
    | nil =>
      have hpred : l.pred bs level = some x := by
        unfold pred
        rw [hsplit, level_append, level_cons_of_lt hx, hrest, List.getLast?_append, List.getLast?_singleton]
        rfl
      -- no node of the level is left before the key: the slot is filled, and the search goes down
      rw [List.nil_append, before_level hcs]
      simp only [Option.bind_some]
      rw [fill_ok hlevel, ← hpred]
      cases level with
      | zero =>
        have hall : l.level 0 cs = cs := by
          refine List.filter_eq_self.2 fun c hc => ?_
          have hhigh := (h.high c (List.mem_append_right bs hc)).1
          rw [decide_eq_true_eq]
          omega
        rw [hall]
        simp only [Option.bind_some, slots_zero _ (l.pred bs)]
      | succ level =>
        simp only [Option.bind_some]
        rw [ih pre rest _ hsplit (by omega) (by omega) (by omega), Option.map_map]
        congr 3
        funext s
        exact slots_succ s (l.pred bs) level

/-- **`FindGreaterOrEqual` ends**, and more fuel changes nothing. -/
theorem search_ok (h : Holds l (bs ++ cs)) (hbs : ∀ b ∈ bs, (l.nodeAt b).key < key)
    (hcs : ∀ c ∈ cs, key ≤ (l.nodeAt c).key) {fuel : ℕ} (hfuel : l.memory.length + kMaxHeight ≤ fuel)
    (update : Option Slots) : l.descend key fuel head (l.maxHeight - 1) update =
      some (cs.head?, update.map fun s j => if j ≤ l.maxHeight - 1 then l.pred bs j else s j) := by
  have hlen := h.length_lt
  have hmax := h.maxHeight
  rw [List.length_append] at hlen
  exact descend_ok h hbs hcs fuel [] bs update rfl (h.head_reaches (by omega)) (by omega) (by omega)

/-! ## A new node -/

/-- The list with a node that no pointer reaches yet. -/
def grown (l : LinkedSkipList) (key : Bytes) (entry : MemTableEntry) (n : ℕ) : LinkedSkipList :=
  (allocateNode key entry n { l with maxHeight := max l.maxHeight n }).2

theorem node_grown (l : LinkedSkipList) (key : Bytes) (entry : MemTableEntry) (n a : ℕ) :
    (l.grown key entry n).node a =
    if a = l.memory.length then some ⟨key, entry, List.replicate n none⟩ else l.node a := by
  unfold grown allocateNode node
  simp only
  rw [List.getElem?_append]
  rcases Nat.lt_trichotomy a l.memory.length with ha | rfl | ha
  · rw [if_pos ha, if_neg (by omega)]
  · rw [if_neg (lt_irrefl _), if_pos rfl, Nat.sub_self]
    rfl
  · rw [if_neg (by omega), if_neg (by omega), List.getElem?_eq_none ha.le,
      List.getElem?_eq_none (by rw [List.length_singleton]; omega)]

theorem nodeAt_grown (l : LinkedSkipList) (key : Bytes) (entry : MemTableEntry) (n a : ℕ) :
    (l.grown key entry n).nodeAt a = if a = l.memory.length then ⟨key, entry⟩ else l.nodeAt a := by
  unfold nodeAt
  rw [node_grown]
  split <;> rfl

theorem height_grown (l : LinkedSkipList) (key : Bytes) (entry : MemTableEntry) (n a : ℕ) :
    (l.grown key entry n).height a = if a = l.memory.length then n else l.height a := by
  unfold height
  rw [node_grown]
  split
  · exact List.length_replicate
  · rfl

section

variable {entry : MemTableEntry} {n : ℕ}

theorem Holds.ne_length (h : Holds l as) : ∀ a ∈ LinkedSkipList.head :: as, a ≠ l.memory.length := by
  intro a ha
  rcases List.mem_cons.1 ha with rfl | ha
  · exact (lt_of_height (h.head_reaches (i := 0) (by decide))).ne
  · exact (lt_of_height (h.high a ha).1).ne

theorem Holds.level_grown (h : Holds l as) (i : ℕ) {bs : List ℕ} (hbs : ∀ b ∈ bs, b ∈ LinkedSkipList.head :: as) :
    (l.grown key entry n).level i bs = l.level i bs :=
  List.filter_congr fun b hb => by rw [height_grown, if_neg (h.ne_length b (hbs b hb))]

theorem Holds.links_grown (h : Holds l as) (hi : i < kMaxHeight) :
    Links (fun a => (l.grown key entry n).forward a i)
      ((l.grown key entry n).level i (LinkedSkipList.head :: as)) := by
  rw [h.level_grown i fun b hb => hb]
  refine (h.links i hi).congr fun a ha => ?_
  unfold forward
  rw [node_grown, if_neg (h.ne_length a (mem_level.1 ha).1)]

end

/-- The levels below `n` have the node `x` linked in, and those from `n` on are untouched. -/
structure LinkedBelow (l : LinkedSkipList) (bs cs : List ℕ) (x n : ℕ) (l' : LinkedSkipList) : Prop where
  same : SameNodes l l'
  below : ∀ i < n, Links (fun a => l'.forward a i) (l.level i (head :: (bs ++ x :: cs)))
  above : ∀ i, n ≤ i → ∀ a, l'.forward a i = l.forward a i

section

variable {x n : ℕ} {update : Slots} (hnodup : (x :: head :: (bs ++ cs)).Nodup)

/-- The last node in front that reaches a level. -/
theorem pred_eq (hhead : i < l.height head) (bs : List ℕ) : ∃ init p, l.level i (head :: bs) = init ++ [p] ∧
    l.pred bs i = some p ∧ i < l.height p := by
  have hne : l.level i (head :: bs) ≠ [] := by
    rw [level_cons_of_lt hhead]
    exact List.cons_ne_nil _ _
  have hlast := List.dropLast_append_getLast hne
  refine ⟨(l.level i (head :: bs)).dropLast, (l.level i (head :: bs)).getLast hne, hlast.symm,
    List.getLast?_eq_some_getLast hne, ?_⟩
  exact (mem_level.1 (List.getLast_mem hne)).2

include hnodup

/-- **One level**: the new node is linked in behind the last node in front. -/
theorem linkLevel_ok (hlinks : Links (fun a => l.forward a n) (l.level n (head :: (bs ++ cs))))
    (hhead : n < l.height head) (hx : n < l.height x) (hup : update n = l.pred bs n) {l' : LinkedSkipList}
    (h : LinkedBelow l bs cs x n l') : ∃ l'', linkLevel update x l' n = some l'' ∧
    LinkedBelow l bs cs x (n + 1) l'' := by
  -- `p` is the last node before the new one that reaches level `n`
  obtain ⟨init, p, hinit, hpred, hp⟩ := pred_eq hhead bs
  have hchain : l.level n (head :: (bs ++ cs)) = init ++ p :: l.level n cs := by
    rw [← List.cons_append, level_append, hinit, List.append_assoc, List.singleton_append]
  rw [hchain] at hlinks
  have hsub : List.Sublist (init ++ p :: l.level n cs) (head :: (bs ++ cs)) := hchain ▸ List.filter_sublist
  obtain ⟨hxnot, hrest⟩ := List.nodup_cons.1 hnodup
  have hxne : ∀ c ∈ init ++ p :: l.level n cs, c ≠ x := fun c hc heq => hxnot (heq ▸ hsub.subset hc)
  have hpne := List.nodup_middle.1 (hsub.nodup hrest)
  -- the two assignments: `x` takes the link of `p`, then `p` points to `x`
  have hnext : l'.forward p n = some (l.level n cs).head? := (h.above n le_rfl p).trans hlinks.next_eq
  obtain ⟨l₁, hset₁, h₁⟩ := setForward_ok (l := l') (h.same.height x ▸ hx) (l.level n cs).head?
  obtain ⟨l₂, hset₂, h₂⟩ := setForward_ok (l := l₁) (a := p) (i := n)
    (by rw [h₁.same.height, h.same.height]; exact hp) (some x)
  have hfwd : ∀ b j, l₂.forward b j = if b = p ∧ j = n then some (some x)
      else if b = x ∧ j = n then some (l.level n cs).head? else l'.forward b j := fun b j => by
    rw [h₂.forward, h₁.forward]
  -- no other link of level `n` changes
  have hother : ∀ c, c ≠ p → c ≠ x → l₂.forward c n = l'.forward c n := fun c hcp hcx => by
    rw [hfwd, if_neg fun hand => hcp hand.1, if_neg fun hand => hcx hand.1]
  refine ⟨l₂, ?_, (h.same.trans h₁.same).trans h₂.same, fun i hi => ?_, fun i hi a => ?_⟩
  · unfold linkLevel
    rw [hup, hpred]
    simp only [Option.bind_eq_bind, Option.bind_some]
    rw [hnext, Option.bind_some, hset₁, Option.bind_some, hset₂]
  · rcases Nat.lt_or_eq_of_le (Nat.lt_succ_iff.1 hi) with hi | rfl
    · -- the levels below were linked before, and are not touched
      refine (h.below i hi).congr fun a _ => ?_
      rw [hfwd, if_neg fun hand => absurd hand.2 (by omega), if_neg fun hand => absurd hand.2 (by omega)]
    · -- at level `n` the node `x` now stands behind `p`
      have hnew : l.level i (head :: (bs ++ x :: cs)) = init ++ p :: x :: l.level i cs := by
        rw [← List.cons_append, level_append, hinit, level_cons_of_lt hx, List.append_assoc, List.singleton_append]
      rw [hnew]
      have hold : Links (fun a => l'.forward a i) (init ++ p :: l.level i cs) :=
        hlinks.congr fun a _ => h.above i le_rfl a
      refine hold.insert ?_ ?_ (fun c hc => ?_) fun c hc => ?_
      · rw [hfwd, if_pos ⟨rfl, rfl⟩]
      · rw [hfwd, if_neg fun hand => hxne p (by simp) hand.1.symm, if_pos ⟨rfl, rfl⟩]
      · exact hother c (fun heq => (List.nodup_cons.1 hpne).1 (heq ▸ List.mem_append_left _ hc))
          (hxne c (List.mem_append_left _ hc))
      · exact hother c (fun heq => (List.nodup_cons.1 hpne).1 (heq ▸ List.mem_append_right _ hc))
          (hxne c (List.mem_append_right _ (List.mem_cons_of_mem p hc)))
  · rw [hfwd, if_neg fun hand => absurd hand.2 (by omega), if_neg fun hand => absurd hand.2 (by omega),
      h.above i (by omega)]

/-- **All levels** of the new node, one after another. -/
theorem linkLevels_ok (hlinks : ∀ i < kMaxHeight, Links (fun a => l.forward a i) (l.level i (head :: (bs ++ cs))))
    (hhead : l.height head = kMaxHeight) (hmax : l.height x ≤ kMaxHeight)
    (hup : ∀ i < l.height x, update i = l.pred bs i) : ∀ n ≤ l.height x,
    ∃ l', (List.range n).foldlM (linkLevel update x) l = some l' ∧ LinkedBelow l bs cs x n l' := by
  intro n
  induction n with
  | zero =>
    exact fun _ => ⟨l, rfl, SameNodes.refl l, fun i hi => absurd hi (Nat.not_lt_zero i), fun _ _ _ => rfl⟩
  | succ n ih =>
    intro hn
    obtain ⟨l', hrun, h⟩ := ih (by omega)
    obtain ⟨l'', hstep, h'⟩ := linkLevel_ok hnodup (hlinks n (by omega)) (by omega) hn (hup n hn) h
    refine ⟨l'', ?_, h'⟩
    rw [List.range_succ, List.foldlM_append, hrun]
    simp only [Option.bind_eq_bind, Option.bind_some, List.foldlM_cons, List.foldlM_nil]
    rw [hstep]
    rfl

end

/-! ## `Insert` -/

theorem fill_range (k : ℕ) : ∀ (m : ℕ) (update : Slots), m + k ≤ kMaxHeight →
    (List.range' m k).foldlM (fun u i => Slots.fill i head u) update =
      some fun j => if m ≤ j ∧ j < m + k then some head else update j := by
  induction k with
  | zero =>
    intro m update _
    have hnone : ∀ j, ¬ (m ≤ j ∧ j < m + 0) := fun j => by omega
    simp only [hnone, if_false]
    rfl
  | succ k ih =>
    intro m update hm
    rw [List.range'_succ, List.foldlM_cons]
    unfold Slots.fill at ih ⊢
    rw [if_pos (by omega)]
    simp only [Option.bind_eq_bind, Option.bind_some]
    rw [ih (m + 1) _ (by omega)]
    congr 1
    funext j
    rcases Nat.lt_trichotomy j m with hj | rfl | hj
    · rw [if_neg (by omega), if_neg (by omega), Function.update_of_ne (by omega)]
    · rw [if_neg (by omega), if_pos (by omega), Function.update_self]
    · rw [Function.update_of_ne (by omega)]
      by_cases hlt : j < m + (k + 1)
      · rw [if_pos (by omega), if_pos (by omega)]
      · rw [if_neg (by omega), if_neg (by omega)]

/-- No node reaches the levels above `max_height_`. -/
theorem pred_above (h : Holds l (bs ++ cs)) (hj : l.maxHeight ≤ j) (hmax : j < kMaxHeight) :
    l.pred bs j = some head := by
  have hnone : l.level j bs = [] := by
    refine List.filter_eq_nil_iff.2 fun b hb => ?_
    have hhigh := (h.high b (List.mem_append_left cs hb)).2
    rw [decide_eq_true_eq]
    omega
  unfold pred
  rw [level_cons_of_lt (h.head_reaches hmax), hnone]
  rfl

/-- The first node at or after a key, as `Insert` and `Find` look at it. -/
theorem node_first (h : Holds l (bs ++ a :: cs)) : ∃ n, l.node a = some n ∧ l.nodeAt a = ⟨n.key, n.entry⟩ := by
  obtain ⟨n, hn, hat, -⟩ := node_of_height (h.high a (List.mem_append_right bs List.mem_cons_self)).1
  exact ⟨n, hn, hat⟩

/-- The entry of one node is another. -/
theorem nodeAt_setEntry {n : Node} (hn : l.node a = some n) (entry : MemTableEntry) (b : ℕ) :
    (l.setNode a { n with entry := entry }).nodeAt b = if b = a then ⟨n.key, entry⟩ else l.nodeAt b := by
  unfold nodeAt
  rw [node_setNode hn]
  split
  · rfl
  · rfl

theorem height_setEntry {n : Node} (hn : l.node a = some n) (entry : MemTableEntry) (b : ℕ) :
    (l.setNode a { n with entry := entry }).height b = l.height b := by
  unfold LinkedSkipList.height
  rw [node_setNode hn]
  split
  · rename_i hb
    rw [hb, hn]
    rfl
  · rfl

theorem forward_setEntry {n : Node} (hn : l.node a = some n) (entry : MemTableEntry) (b i : ℕ) :
    (l.setNode a { n with entry := entry }).forward b i = l.forward b i := by
  unfold forward
  rw [node_setNode hn]
  split
  · rename_i hb
    rw [hb, hn]
    rfl
  · rfl

/-- The same nodes stand in a list with the same keys and the same links. -/
theorem Holds.relinked (h : Holds l as) (hheight : ∀ b, l'.height b = l.height b)
    (hkey : ∀ b, (l'.nodeAt b).key = (l.nodeAt b).key) (hforward : ∀ b i, l'.forward b i = l.forward b i)
    (hmax : l'.maxHeight = l.maxHeight) : Holds l' as := by
  refine ⟨(hheight _).trans h.head, h.notHead, ?_, fun b hb => ?_, hmax ▸ h.maxHeight, fun i hi => ?_⟩
  · unfold Ascending
    simp only [hkey]
    exact h.ascending
  · rw [hheight, hmax]
    exact h.high b hb
  · have hlevel : l'.level i (LinkedSkipList.head :: as) = l.level i (LinkedSkipList.head :: as) :=
      List.filter_congr fun b _ => by rw [hheight]
    rw [hlevel]
    exact (h.links i hi).congr fun b _ => hforward b i

/-- **Inserting a key that is there** changes the entry of its node. -/
theorem insert_old (h : Holds l (bs ++ a :: cs)) (hbs : ∀ b ∈ bs, (l.nodeAt b).key < key)
    (hcs : ∀ c ∈ a :: cs, key ≤ (l.nodeAt c).key) (hkey : (l.nodeAt a).key = key) (entry : MemTableEntry)
    (height : Height) : ∃ l', l.insert key entry height = some l' ∧ Holds l' (bs ++ a :: cs) ∧
      ∀ b, l'.nodeAt b = if b = a then ⟨key, entry⟩ else l.nodeAt b := by
  obtain ⟨n, hn, hat⟩ := node_first h
  have hnkey : n.key = key := by rw [hat] at hkey; exact hkey
  have hnodeAt : ∀ b, (l.setNode a { n with entry := entry }).nodeAt b =
      if b = a then ⟨key, entry⟩ else l.nodeAt b := fun b => by rw [nodeAt_setEntry hn, hnkey]
  refine ⟨l.setNode a { n with entry := entry }, ?_, h.relinked (height_setEntry hn entry) (fun b => ?_)
    (forward_setEntry hn entry) rfl, hnodeAt⟩
  · unfold insert findGreaterOrEqual
    rw [search_ok h hbs hcs le_rfl]
    simp only [List.head?_cons, Option.map_some, Option.bind_eq_bind, Option.bind_some, Option.elim_some]
    rw [hn]
    simp only [Option.map_some, Option.bind_some, if_pos hnkey]
    unfold setEntry
    rw [hn]
    rfl
  · rw [hnodeAt]
    split
    · rename_i hb
      rw [hb, hkey]
    · rfl

section

variable {entry : MemTableEntry} {n : ℕ}

/-- The slots as the search and the loop above the old `max_height_` leave them. -/
theorem slots_eq (h : Holds l (bs ++ cs)) (hi : i < n) (hn : n ≤ kMaxHeight) :
    (if l.maxHeight ≤ i ∧ i < l.maxHeight + (n - l.maxHeight) then some head
      else if i ≤ l.maxHeight - 1 then l.pred bs i else none) = (l.grown key entry n).pred bs i := by
  have hpred : (l.grown key entry n).pred bs i = l.pred bs i := by
    unfold pred
    rw [h.level_grown]
    intro b hb
    rcases List.mem_cons.1 hb with rfl | hb
    · exact List.mem_cons_self
    · exact List.mem_cons_of_mem _ (List.mem_append_left cs hb)
  have hmax := h.maxHeight
  rw [hpred]
  by_cases hm : l.maxHeight ≤ i
  · rw [if_pos (by omega), pred_above h hm (by omega)]
  · rw [if_neg (by omega), if_pos (by omega)]

/-- Of a new key the search finds no node. -/
theorem not_found (h : Holds l (bs ++ cs)) (hcs : ∀ c ∈ cs, key < (l.nodeAt c).key) :
    cs.head?.elim (some none) (fun a => (l.node a).map fun n => if n.key = key then some a else none) =
    some none := by
  cases cs with
  | nil => rfl
  | cons c cs =>
    obtain ⟨m, hm, hat⟩ := node_first h
    have hgt := hcs c List.mem_cons_self
    rw [hat] at hgt
    simp only [List.head?_cons, Option.elim_some]
    rw [hm, Option.map_some, if_neg (ne_of_gt hgt)]

/-- **`Insert` of a new key** links a node in at each of its levels. -/
theorem insert_links (h : Holds l (bs ++ cs)) (hbs : ∀ b ∈ bs, (l.nodeAt b).key < key)
    (hcs : ∀ c ∈ cs, key < (l.nodeAt c).key) (entry : MemTableEntry) (height : Height) :
    ∃ l', l.insert key entry height = some l' ∧
      LinkedBelow (l.grown key entry height.val) bs cs l.memory.length height.val l' := by
  obtain ⟨n, hn1, hn16⟩ := height
  have hx : (l.grown key entry n).height l.memory.length = n := by rw [height_grown, if_pos rfl]
  have hhead : (l.grown key entry n).height head = kMaxHeight := by
    rw [height_grown, if_neg (h.ne_length head List.mem_cons_self)]
    exact h.head
  have hnodup : (l.memory.length :: head :: (bs ++ cs)).Nodup :=
    List.nodup_cons.2 ⟨fun hmem => h.ne_length _ hmem rfl, List.nodup_cons.2 ⟨h.notHead, h.ascending.nodup⟩⟩
  have hmax := h.maxHeight
  have hfill := fill_range (n - l.maxHeight) l.maxHeight
    (fun j => if j ≤ l.maxHeight - 1 then l.pred bs j else none) (by omega)
  obtain ⟨l', hrun, hl'⟩ := linkLevels_ok hnodup (fun i hi => h.links_grown hi) hhead (hx.le.trans hn16)
    (fun i hi => slots_eq h (lt_of_lt_of_eq hi hx) hn16) n (le_of_eq hx.symm)
  refine ⟨l', ?_, hl'⟩
  unfold insert findGreaterOrEqual
  rw [search_ok h hbs (fun c hc => (hcs c hc).le) le_rfl]
  simp only [Option.map_some, Option.bind_eq_bind, Option.bind_some]
  rw [not_found h hcs]
  simp only [Option.bind_some, Slots.blank]
  rw [hfill]
  exact hrun

/-- Linked in at all its levels, the new node stands in the list. -/
theorem LinkedBelow.holds (hl' : LinkedBelow (l.grown key entry n) bs cs l.memory.length n l')
    (h : Holds l (bs ++ cs)) (hbs : ∀ b ∈ bs, (l.nodeAt b).key < key) (hcs : ∀ c ∈ cs, key < (l.nodeAt c).key)
    (hn : 1 ≤ n ∧ n ≤ kMaxHeight) :
    Holds l' (bs ++ l.memory.length :: cs) ∧
      ∀ b, l'.nodeAt b = if b = l.memory.length then ⟨key, entry⟩ else l.nodeAt b := by
  have hnodeAt : ∀ b, l'.nodeAt b = if b = l.memory.length then ⟨key, entry⟩ else l.nodeAt b := fun b => by
    rw [hl'.same.nodeAt, nodeAt_grown]
  have hheight : ∀ b, l'.height b = if b = l.memory.length then n else l.height b := fun b => by
    rw [hl'.same.height, height_grown]
  have hold : ∀ a ∈ bs ++ cs, a ≠ l.memory.length := fun a ha => h.ne_length a (List.mem_cons_of_mem _ ha)
  have hmax : l'.maxHeight = max l.maxHeight n := hl'.same.maxHeight
  refine ⟨⟨?_, ?_, ?_, fun a ha => ?_, ?_, fun i hi => ?_⟩, hnodeAt⟩
  · rw [hheight, if_neg (h.ne_length head List.mem_cons_self), h.head]
  · intro hmem
    rcases List.mem_append.1 hmem with hmem | hmem
    · exact h.notHead (List.mem_append_left cs hmem)
    · rcases List.mem_cons.1 hmem with heq | hmem
      · exact h.ne_length head List.mem_cons_self heq
      · exact h.notHead (List.mem_append_right bs hmem)
  · -- the keys: those before, the new one, those after
    refine Ascending.insert_between (h.ascending.congr fun a ha => ?_) (fun b hb => ?_) fun c hc => ?_
    · simp only [hnodeAt, if_neg (hold a ha)]
    · simp only [hnodeAt, if_neg (hold b (List.mem_append_left cs hb)), if_true]
      exact hbs b hb
    · simp only [hnodeAt, if_neg (hold c (List.mem_append_right bs hc)), if_true]
      exact hcs c hc
  · rw [hheight, hmax]
    split
    · exact ⟨hn.1, le_max_right _ _⟩
    · rename_i hax
      have hmem : a ∈ bs ++ cs := by
        rcases List.mem_append.1 ha with ha | ha
        · exact List.mem_append_left cs ha
        · exact List.mem_append_right bs ((List.mem_cons.1 ha).resolve_left hax)
      exact ⟨(h.high a hmem).1, (h.high a hmem).2.trans (le_max_left _ _)⟩
  · rw [hmax]
    exact ⟨h.maxHeight.1.trans (le_max_left _ _), max_le h.maxHeight.2 hn.2⟩
  · rw [hl'.same.level]
    by_cases hin : i < n
    · -- the levels that `linkLevel` has gone through
      exact hl'.below i hin
    · -- the new node does not reach this level
      have hge : (l.grown key entry n).height l.memory.length ≤ i := by
        rw [height_grown, if_pos rfl]
        omega
      rw [← List.cons_append, level_append, level_cons_of_ge hge, ← level_append, List.cons_append]
      exact (h.links_grown hi).congr fun a _ => hl'.above i (not_lt.1 hin) a

end

/-! ## `Clear` -/

/-- `head_` alone. -/
theorem holds_nil (hhead : l.height head = kMaxHeight) (hnull : ∀ i < kMaxHeight, l.forward head i = some none)
    (hmax : l.maxHeight = 1) : Holds l [] := by
  refine ⟨hhead, List.not_mem_nil, ascending_nil, fun a ha => absurd ha List.not_mem_nil, ?_, fun i hi => ?_⟩
  · rw [hmax]
    decide
  · rw [level_cons_of_lt (by rw [hhead]; exact hi)]
    exact links_cons.2 ⟨hnull i hi, links_nil⟩

theorem holds_new : Holds new [] := by
  refine holds_nil rfl (fun i hi => ?_) rfl
  change (List.replicate kMaxHeight none)[i]? = some none
  rw [List.getElem?_replicate, if_pos hi]

/-- The nodes of the level-0 chain are freed, and no other. -/
theorem freeChain_ok : ∀ {as : List ℕ} {l : LinkedSkipList} {fuel : ℕ}, as.Nodup → (∀ a ∈ as, 0 < l.height a) →
    Links (fun a => l.forward a 0) as → as.length < fuel → ∃ l', freeChain fuel as.head? l = some l' ∧
      ∀ b, l'.node b = if b ∈ as then none else l.node b := by
  intro as
  induction as with
  | nil =>
    intro l fuel _ _ _ hfuel
    obtain ⟨fuel, rfl⟩ : ∃ f, fuel = f + 1 := ⟨fuel - 1, by omega⟩
    exact ⟨l, rfl, fun b => by rw [if_neg List.not_mem_nil]⟩
  | cons a as ih =>
    intro l fuel hnodup hhigh hlinks hfuel
    rw [List.length_cons] at hfuel
    obtain ⟨fuel, rfl⟩ : ∃ f, fuel = f + 1 := ⟨fuel - 1, by omega⟩
    obtain ⟨ha, hrest⟩ := List.nodup_cons.1 hnodup
    obtain ⟨hnext, hlinks⟩ := links_cons.1 hlinks
    obtain ⟨n, hn, -, -⟩ := node_of_height (hhigh a List.mem_cons_self)
    have hnode : ∀ b, node { l with memory := l.memory.set a none } b =
        if b = a then none else l.node b := fun b => node_set (lt_of_node hn) _ _
    -- the nodes behind `a` are as they were when `a` is freed
    have hkeep : ∀ b ∈ as, node { l with memory := l.memory.set a none } b = l.node b := fun b hb => by
      have hne : b ≠ a := fun heq => ha (heq ▸ hb)
      rw [hnode, if_neg hne]
    -- its link was read first, so the walk goes on with the rest
    obtain ⟨l', hrun, hl'⟩ := @ih { l with memory := l.memory.set a none } fuel hrest
      (fun b hb => by
        unfold height
        rw [hkeep b hb]
        exact hhigh b (List.mem_cons_of_mem a hb))
      (hlinks.congr fun b hb => by
        unfold forward
        rw [hkeep b hb])
      (by omega)
    refine ⟨l', ?_, fun b => ?_⟩
    · rw [List.head?_cons, freeChain, hnext]
      simp only [Option.bind_eq_bind, Option.bind_some]
      unfold freeNode
      rw [hn]
      exact hrun
    · rw [hl', hnode]
      by_cases hb : b ∈ as
      · rw [if_pos hb, if_pos (List.mem_cons_of_mem a hb)]
      · by_cases hba : b = a
        · rw [if_neg hb, if_pos hba, if_pos (hba ▸ List.mem_cons_self)]
        · rw [if_neg hb, if_neg hba, if_neg fun hmem => hb ((List.mem_cons.1 hmem).resolve_left hba)]

/-- The pointers of `head_` are reset one after another. -/
theorem resetHead_ok (hhead : l.height head = kMaxHeight) : ∀ n ≤ kMaxHeight, ∃ l',
    (List.range n).foldlM (fun l i => l.setForward head i none) l = some l' ∧ SameNodes l l' ∧
      ∀ i < n, l'.forward head i = some none := by
  intro n
  induction n with
  | zero => exact fun _ => ⟨l, rfl, SameNodes.refl l, fun i hi => absurd hi (Nat.not_lt_zero i)⟩
  | succ n ih =>
    intro hn
    obtain ⟨l₁, hrun, hsame, hnull⟩ := ih (by omega)
    obtain ⟨l₂, hset, h₂⟩ := setForward_ok (l := l₁) (a := head) (i := n)
      (by rw [hsame.height, hhead]; exact hn) none
    refine ⟨l₂, ?_, hsame.trans h₂.same, fun i hi => ?_⟩
    · rw [List.range_succ, List.foldlM_append, hrun]
      simp only [Option.bind_eq_bind, Option.bind_some, List.foldlM_cons, List.foldlM_nil]
      rw [hset]
      rfl
    · rw [h₂.forward]
      by_cases hin : i = n
      · rw [if_pos ⟨rfl, hin⟩]
      · rw [if_neg fun hand => hin hand.2, hnull i (by omega)]

/-- **`Clear`** leaves the empty list. -/
theorem clear_ok (h : Holds l as) : ∃ l', l.clear = some l' ∧ Holds l' [] := by
  have hlinks := h.links 0 (by decide)
  have hall : l.level 0 as = as := by
    refine List.filter_eq_self.2 fun a ha => ?_
    have hhigh := (h.high a ha).1
    rw [decide_eq_true_eq]
    omega
  rw [level_cons_of_lt (h.head_reaches (by decide)), hall] at hlinks
  obtain ⟨hfirst, hlinks⟩ := links_cons.1 hlinks
  obtain ⟨l₁, hfree, hnode⟩ := freeChain_ok h.ascending.nodup (fun a ha => (h.high a ha).1) hlinks
    (Nat.lt_succ_of_lt h.length_lt)
  have hhead : l₁.height head = kMaxHeight := by
    unfold height
    rw [hnode, if_neg h.notHead]
    exact h.head
  obtain ⟨l₂, hreset, hsame, hnull⟩ := resetHead_ok hhead kMaxHeight le_rfl
  refine ⟨{ l₂ with maxHeight := 1 }, ?_, holds_nil ((hsame.height head).trans hhead) hnull rfl⟩
  unfold clear
  rw [hfirst]
  simp only [Option.bind_eq_bind, Option.bind_some]
  rw [hfree, Option.bind_some, hreset]
  rfl

end LinkedSkipList

end LsmTree
