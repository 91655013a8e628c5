import LsmTree.Proof.LinkedSkipList
import LsmTree.Proof.MemLayer

/-!
# Runs of the skip list

`Insert` and `Clear` one after another, each new node of any height.

* `Call.stands`: a call on the nodes does to the level-0 chain what it does to the ordered
  list `SkipList`, so the memtable can be modelled on that list.
* `Stands.refines`: what a caller sees of the nodes is the ordered list.
* `runCalls_refines`: in every run, no pointer behind the end of a node is touched, and
  the list has the last entry of each key inserted since the last `Clear`.
-/

namespace LsmTree

open Base

namespace LinkedSkipList

variable {l : LinkedSkipList} {as bs cs : List ℕ} {s : SkipList} {key : Bytes} {entry : MemTableEntry}

/-- The ordered list of the nodes `as`. -/
structure Stands (l : LinkedSkipList) (as : List ℕ) (s : SkipList) : Prop where
  holds : Holds l as
  chain : as.map l.nodeAt = s.chain

/-! ## Calls -/

inductive Call where
  | insert (key : Bytes) (entry : MemTableEntry) (height : Height)
  | clear

namespace Call

def run : Call → LinkedSkipList → Option LinkedSkipList
  | .insert key entry height, l => l.insert key entry height
  | .clear, l => l.clear

/-- The call on the ordered list. -/
def apply : Call → SkipList → SkipList
  | .insert key entry _, s => s.insert key entry
  | .clear, _ => .new

end Call

theorem chain_insert (hs : Stands l (bs ++ cs) s) (hbs : ∀ b ∈ bs, (l.nodeAt b).key < key)
    (entry : MemTableEntry) :
    (s.insert key entry).chain = bs.map l.nodeAt ++
    insertKey SkipList.Node.key ⟨key, entry⟩ (cs.map l.nodeAt) := by
  unfold SkipList.insert
  simp only
  rw [← hs.chain, List.map_append, insertKey_append]
  intro n hn
  obtain ⟨b, hb, rfl⟩ := List.mem_map.1 hn
  exact hbs b hb

/-- The nodes where one has changed or is new. -/
theorem map_nodeAt {l' : LinkedSkipList} {x : ℕ} {n : SkipList.Node}
    (hnode : ∀ b, l'.nodeAt b = if b = x then n else l.nodeAt b) (hx : x ∉ bs ++ cs) :
    (bs ++ x :: cs).map l'.nodeAt = bs.map l.nodeAt ++ n :: cs.map l.nodeAt := by
  have hother : ∀ as : List ℕ, (∀ a ∈ as, a ∈ bs ++ cs) → as.map l'.nodeAt = as.map l.nodeAt := by
    intro as has
    refine List.map_congr_left fun a ha => ?_
    have hne : a ≠ x := fun heq => hx (heq ▸ has a ha)
    rw [hnode, if_neg hne]
  rw [List.map_append, List.map_cons, hnode, if_pos rfl, hother bs fun a ha => List.mem_append_left cs ha,
    hother cs fun a ha => List.mem_append_right bs ha]

/-- If no node has the key, those behind have greater ones. -/
theorem lt_of_absent (h : Holds l (bs ++ cs)) (hcs : ∀ c ∈ cs, key ≤ (l.nodeAt c).key)
    (habsent : ∀ c cs', cs = c :: cs' → (l.nodeAt c).key ≠ key) : ∀ c ∈ cs, key < (l.nodeAt c).key := by
  cases cs with
  | nil => exact fun c hc => absurd hc List.not_mem_nil
  | cons c cs =>
    have hc : key < (l.nodeAt c).key := lt_of_le_of_ne (hcs c List.mem_cons_self) (habsent c cs rfl).symm
    have hrest := (ascending_cons.1 (List.pairwise_append.1 h.ascending).2.1).1
    intro d hd
    rcases List.mem_cons.1 hd with rfl | hd
    · exact hc
    · exact hc.trans (hrest d hd)

/-- **One call** does to the chain what it does to the ordered list. -/
theorem Call.stands (c : Call) (h : Stands l as s) : ∃ l' as', c.run l = some l' ∧ Stands l' as' (c.apply s) := by
  cases c with
  | clear =>
    obtain ⟨l', hrun, hl'⟩ := clear_ok h.holds
    exact ⟨l', [], hrun, hl', rfl⟩
  | insert key entry height =>
    obtain ⟨bs, cs, rfl, hbs, hcs⟩ := h.holds.ascending.split key
    have hchain := chain_insert h hbs entry
    by_cases hkey : ∃ c cs', cs = c :: cs' ∧ (l.nodeAt c).key = key
    · obtain ⟨c, cs', rfl, hkey⟩ := hkey
      obtain ⟨l', hrun, hl', hnode⟩ := insert_old h.holds hbs hcs hkey entry height
      have hnot := (List.nodup_cons.1 (List.nodup_middle.1 h.holds.ascending.nodup)).1
      refine ⟨l', bs ++ c :: cs', hrun, hl', (map_nodeAt hnode hnot).trans ?_⟩
      exact (hchain.trans (by rw [List.map_cons, insertKey_of_eq hkey])).symm
    · have hgt := lt_of_absent h.holds hcs fun c cs' heq hc => hkey ⟨c, cs', heq, hc⟩
      obtain ⟨l', hrun, hbelow⟩ := insert_links h.holds hbs hgt entry height
      obtain ⟨hl', hnode⟩ := hbelow.holds h.holds hbs hgt height.property
      have hnot : l.memory.length ∉ bs ++ cs := fun hmem =>
        h.holds.ne_length _ (List.mem_cons_of_mem _ hmem) rfl
      refine ⟨l', bs ++ l.memory.length :: cs, hrun, hl', (map_nodeAt hnode hnot).trans ?_⟩
      refine (hchain.trans ?_).symm
      rw [insertKey_of_lt]
      intro n hn
      obtain ⟨c, hc, rfl⟩ := List.mem_map.1 hn
      exact hgt c hc

/-! ## What a caller sees -/

/-- The nodes met on a level. -/
def levelChain (l : LinkedSkipList) (i : ℕ) : Option (List ℕ) := do
  let first ← l.forward head i
  follow (fun a => l.forward a i) (l.memory.length + 1) first

/-- `for (; it.Valid(); it.Next())` with what `key()` and `entry()` return. -/
def Iterator.collect (l : LinkedSkipList) : ℕ → Iterator → Option (List SkipList.Node)
  | 0, _ => none
  | fuel + 1, it =>
    if it.valid then do
      let key ← it.key l
      let entry ← it.entry l
      let it ← it.next l
      let rest ← collect l fuel it
      pure (⟨key, entry⟩ :: rest)
    else some []

/-- What a caller sees of the list with the nodes `as` is the ordered list `s`. -/
structure Refines (l : LinkedSkipList) (as : List ℕ) (s : SkipList) : Prop where
  chain : l.levelChain 0 = some as
  nodes : as.map (fun a => (l.node a).map fun n => (⟨n.key, n.entry⟩ : SkipList.Node)) = s.chain.map some
  levels : ∀ i, 1 ≤ i → i < kMaxHeight → l.levelChain i = some (as.filter fun a => i < l.height a)
  maxHeight : ∀ a ∈ as, l.height a ≤ l.maxHeight
  first : ∀ key fuel, l.memory.length + kMaxHeight ≤ fuel → l.descend key fuel head (l.maxHeight - 1) none =
    some (as.find? fun a => key ≤ (l.nodeAt a).key, none)
  find : ∀ key, l.find key = some (s.find key)
  seek : ∀ target, ∃ it, Iterator.seek l target = some it ∧
    it.collect l (l.memory.length + 1) = some (s.findGreaterOrEqual target)
  iterate : ∃ it, Iterator.seekToFirst l = some it ∧ it.collect l (l.memory.length + 1) = some s.chain

theorem Holds.level_zero (h : Holds l as) : l.level 0 as = as := by
  refine List.filter_eq_self.2 fun a ha => ?_
  have hhigh := (h.high a ha).1
  rw [decide_eq_true_eq]
  omega

theorem Holds.levelChain (h : Holds l as) {i : ℕ} (hi : i < kMaxHeight) :
    l.levelChain i = some (l.level i as) := by
  have hlinks := h.links i hi
  rw [level_cons_of_lt (h.head_reaches hi)] at hlinks
  obtain ⟨hfirst, hlinks⟩ := links_cons.1 hlinks
  have hlen : (l.level i as).length ≤ as.length := List.length_filter_le _ _
  have hlt := h.length_lt
  unfold LinkedSkipList.levelChain
  rw [hfirst]
  exact hlinks.follow (by omega)

/-- From a node on, an iterator meets the rest of the chain. -/
theorem collect_ok : ∀ {cs : List ℕ} {fuel : ℕ}, (∀ c ∈ cs, 0 < l.height c) → Links (fun a => l.forward a 0) cs →
    cs.length < fuel → Iterator.collect l fuel ⟨cs.head?⟩ = some (cs.map l.nodeAt) := by
  intro cs
  induction cs with
  | nil =>
    intro fuel _ _ hfuel
    obtain ⟨fuel, rfl⟩ : ∃ f, fuel = f + 1 := ⟨fuel - 1, by omega⟩
    rfl
  | cons c cs ih =>
    intro fuel hhigh hlinks hfuel
    rw [List.length_cons] at hfuel
    obtain ⟨fuel, rfl⟩ : ∃ f, fuel = f + 1 := ⟨fuel - 1, by omega⟩
    obtain ⟨hnext, hlinks⟩ := links_cons.1 hlinks
    obtain ⟨n, hn, hat, -⟩ := node_of_height (hhigh c List.mem_cons_self)
    have hrest := @ih fuel (fun d hd => hhigh d (List.mem_cons_of_mem c hd)) hlinks (by omega)
    have hkey : Iterator.key l ⟨some c⟩ = some n.key := by
      unfold Iterator.key
      rw [Option.bind_some, hn, Option.map_some]
    have hentry : Iterator.entry l ⟨some c⟩ = some n.entry := by
      unfold Iterator.entry
      rw [Option.bind_some, hn, Option.map_some]
    have hit : Iterator.next l ⟨some c⟩ = some ⟨cs.head?⟩ := by
      unfold Iterator.next
      rw [Option.elim_some, hnext, Option.map_some]
    have hvalid : (⟨some c⟩ : Iterator).valid = true := rfl
    rw [List.head?_cons, Iterator.collect, if_pos hvalid, hkey, hentry, hit]
    simp only [Option.bind_eq_bind, Option.bind_some]
    rw [hrest, List.map_cons, hat]
    rfl

theorem find?_split (hbs : ∀ b ∈ bs, (l.nodeAt b).key < key) (hcs : ∀ c ∈ cs, key ≤ (l.nodeAt c).key) :
    (bs ++ cs).find? (fun a => key ≤ (l.nodeAt a).key) = cs.head? := by
  have hnone : bs.find? (fun a => key ≤ (l.nodeAt a).key) = none :=
    List.find?_eq_none.2 fun b hb => by simpa using hbs b hb
  rw [List.find?_append, hnone, Option.none_or]
  cases cs with
  | nil => rfl
  | cons c cs => rw [List.find?_cons_of_pos (by simpa using hcs c List.mem_cons_self), List.head?_cons]

/-- The ordered list from the first node at or after a key. -/
theorem dropWhile_split (hs : Stands l (bs ++ cs) s) (hbs : ∀ b ∈ bs, (l.nodeAt b).key < key)
    (hcs : ∀ c ∈ cs, key ≤ (l.nodeAt c).key) : s.findGreaterOrEqual key = cs.map l.nodeAt := by
  unfold SkipList.findGreaterOrEqual
  rw [← hs.chain, List.map_append, List.dropWhile_append_of_pos]
  · cases cs with
    | nil => rfl
    | cons c cs =>
      rw [List.map_cons, List.dropWhile_cons_of_neg]
      simpa using hcs c List.mem_cons_self
  · intro n hn
    obtain ⟨b, hb, rfl⟩ := List.mem_map.1 hn
    simpa using hbs b hb

/-- **What a caller sees** of the nodes is the ordered list. -/
theorem Stands.refines (h : Stands l as s) : Refines l as s := by
  -- level 0 is the whole chain, which is what the iterator walks
  have hzero := h.holds.level_zero
  have hlinks := h.holds.links 0 (by decide)
  rw [level_cons_of_lt (h.holds.head_reaches (by decide)), hzero] at hlinks
  obtain ⟨hfirst, hlinks⟩ := links_cons.1 hlinks
  have hlen := h.holds.length_lt
  have hhigh : ∀ a ∈ as, 0 < l.height a := fun a ha => (h.holds.high a ha).1
  refine ⟨?_, ?_, fun i _ hi => h.holds.levelChain hi, fun a ha => (h.holds.high a ha).2, fun key fuel hfuel => ?_,
    fun key => ?_, fun key => ?_, ⟨⟨as.head?⟩, ?_, ?_⟩⟩
  · rw [h.holds.levelChain (by decide), hzero]
  · rw [← h.chain, List.map_map]
    refine List.map_congr_left fun a ha => ?_
    obtain ⟨n, hn, hat, -⟩ := node_of_height (hhigh a ha)
    rw [hn, Function.comp_apply, hat, Option.map_some]
  · -- a search stops between the smaller keys and the others
    obtain ⟨bs, cs, rfl, hbs, hcs⟩ := h.holds.ascending.split key
    rw [search_ok h.holds hbs hcs hfuel, find?_split hbs hcs]
    rfl
  · obtain ⟨bs, cs, rfl, hbs, hcs⟩ := h.holds.ascending.split key
    unfold LinkedSkipList.find findGreaterOrEqual SkipList.find
    rw [search_ok h.holds hbs hcs le_rfl, dropWhile_split h hbs hcs]
    cases cs with
    | nil => rfl
    | cons c cs =>
      obtain ⟨n, hn, hat⟩ := node_first h.holds
      simp only [List.head?_cons, List.map_cons, Option.bind_eq_bind, Option.bind_some, Option.elim_some]
      rw [hn, hat, Option.map_some]
  · obtain ⟨bs, cs, rfl, hbs, hcs⟩ := h.holds.ascending.split key
    rw [List.length_append] at hlen
    refine ⟨⟨cs.head?⟩, ?_, ?_⟩
    · unfold Iterator.seek findGreaterOrEqual
      rw [search_ok h.holds hbs hcs le_rfl]
      rfl
    · rw [dropWhile_split h hbs hcs]
      exact collect_ok (fun c hc => hhigh c (List.mem_append_right bs hc)) hlinks.of_append (by omega)
  · unfold Iterator.seekToFirst
    rw [hfirst, Option.map_some]
  · rw [← h.chain]
    exact collect_ok hhigh hlinks (by omega)

/-! ## Runs -/

def runCalls (calls : List Call) : Option LinkedSkipList := calls.foldlM (fun l c => c.run l) new

/-- The calls on the ordered list. -/
def applyCalls (calls : List Call) : SkipList := calls.foldl (fun s c => c.apply s) .new

/-- The last entry of a key since the last `Clear`; the newest call stands first. -/
def lastEntry (key : Bytes) : List Call → Option MemTableEntry
  | [] => none
  | .clear :: _ => none
  | .insert k entry _ :: calls => if k = key then some entry else lastEntry key calls

/-- **Every run** on the nodes is defined and stands for the run on the ordered list. -/
theorem stands_runCalls (calls : List Call) : ∃ l as, runCalls calls = some l ∧
    Stands l as (applyCalls calls) := by
  induction calls using List.reverseRecOn with
  | nil => exact ⟨new, [], rfl, holds_new, rfl⟩
  | append_singleton calls c ih =>
    obtain ⟨l, as, hrun, h⟩ := ih
    obtain ⟨l', as', hstep, h'⟩ := c.stands h
    refine ⟨l', as', ?_, ?_⟩
    · unfold runCalls at hrun ⊢
      rw [List.foldlM_append, hrun]
      simp only [Option.bind_eq_bind, Option.bind_some, List.foldlM_cons, List.foldlM_nil]
      rw [hstep]
      rfl
    · unfold applyCalls at h' ⊢
      rw [List.foldl_append]
      exact h'

theorem find_applyCalls (calls : List Call) (key : Bytes) :
    (applyCalls calls).find key = lastEntry key calls.reverse := by
  induction calls using List.reverseRecOn with
  | nil => rfl
  | append_singleton calls c ih =>
    unfold applyCalls at ih ⊢
    rw [List.foldl_append, List.reverse_append, List.reverse_singleton, List.singleton_append]
    cases c with
    | clear => rfl
    | insert k entry height =>
      have hins := SkipList.find_insert (calls.foldl (fun s c => c.apply s) .new) k key entry
      rw [ih] at hins
      exact hins

/-- **The skip list is a sorted map, whatever the heights**: accesses behind the end of a node
are undefined, no run makes one, and its list is that of the last entries. -/
theorem runCalls_refines (calls : List Call) :
    (∀ (l : LinkedSkipList) (a i : ℕ) (p : Option ℕ),
      ((l.forward a i).isSome ↔ i < l.height a) ∧ ((l.setForward a i p).isSome ↔ i < l.height a)) ∧
    ∃ l as, runCalls calls = some l ∧ Refines l as (applyCalls calls) ∧
      ∀ n : SkipList.Node, n ∈ (applyCalls calls).chain ↔ lastEntry n.key calls.reverse = some n.entry := by
  obtain ⟨l, as, hrun, h⟩ := stands_runCalls calls
  refine ⟨access_iff, l, as, hrun, h.refines, fun n => ?_⟩
  rw [← find_applyCalls, SkipList.find_eq, Option.map_eq_some_iff]
  constructor
  · exact fun hn => ⟨n, (findKey_eq_some (applyCalls calls).sorted).2 ⟨hn, rfl⟩, rfl⟩
  · rintro ⟨m, hm, hentry⟩
    obtain ⟨hmem, hkey⟩ := (findKey_eq_some (applyCalls calls).sorted).1 hm
    obtain ⟨k, e⟩ := m
    simp only at hkey hentry
    rwa [hkey, hentry] at hmem

/-- A node of the greatest height, one of the least in front of it, a second entry. -/
def heightCalls : List Call :=
  [.insert (bytes "b") ⟨bytes "1", .kTypeValue⟩ ⟨16, by decide⟩,
    .insert (bytes "a") ⟨bytes "2", .kTypeValue⟩ ⟨1, by decide⟩,
    .insert (bytes "c") ⟨[], .kTypeDeletion⟩ ⟨3, by decide⟩,
    .insert (bytes "b") ⟨bytes "3", .kTypeValue⟩ ⟨2, by decide⟩]

example : ((runCalls heightCalls).bind fun l => l.levelChain 2) = some [1, 3] := by decide +kernel

end LinkedSkipList

end LsmTree
