import LsmTree.Base.NewestFirst
import LsmTree.Spec.IteratorUse
import LsmTree.Proof.ScanView

/-!
# What a range iterator has left, while its memtable changes

The heap holds keys, and values are read from the skip list when a node is popped. So
what is left to merge depends on the present list.

* `Reads`: the sources have given lists left, in descending order of generation.
* `leftView`: the live values these lists give.
* `findNextAliveKey_left`: **one step** shows the first pair of this view.
* `Reads.relist`: another list behind the memtable's iterator changes what is left at
  the keys from its node on, and nowhere else.
-/

namespace LsmTree

open Base StorageEngine

/-! ## The pairs of a view -/

section

variable {V V' : Bytes → Option Bytes} {startKey endKey key value : Bytes} {L : List (Bytes × Bytes)}

theorem LivePairs.eq_nil (h : LivePairs V startKey endKey L)
    (hnone : ∀ key, startKey ≤ key → (endKey = [] ∨ key ≤ endKey) → V key = none) : L = [] := by
  refine List.eq_nil_iff_forall_not_mem.2 fun ⟨key, value⟩ hmem => ?_
  obtain ⟨hs, he, hv⟩ := (h.mem key value).1 hmem
  rw [hnone key hs he] at hv
  cases hv

theorem LivePairs.congr (h : LivePairs V startKey endKey L)
    (hV : ∀ key, startKey ≤ key → (endKey = [] ∨ key ≤ endKey) → V' key = V key) :
    LivePairs V' startKey endKey L := by
  refine ⟨h.asc, fun key value => ?_⟩
  rw [h.mem]
  constructor
  · exact fun ⟨hs, he, hv⟩ => ⟨hs, he, by rw [hV key hs he, hv]⟩
  · exact fun ⟨hs, he, hv⟩ => ⟨hs, he, by rw [← hV key hs he, hv]⟩

/-- The pair of the least key comes first. -/
theorem LivePairs.cons_of_least (h : LivePairs V startKey endKey L) (hmem : (key, value) ∈ L)
    (hleast : ∀ p ∈ L, key ≤ p.1) (hV : ∀ k, V' k = if k = key then none else V k) :
    ∃ L', L = (key, value) :: L' ∧ LivePairs V' startKey endKey L' := by
  cases L with
  | nil => exact absurd hmem List.not_mem_nil
  | cons y L' =>
    obtain ⟨hy, hasc⟩ := ascending_cons.1 h.asc
    obtain rfl : y = (key, value) := by
      rcases List.mem_cons.1 hmem with he | hmem
      · exact he.symm
      · exact absurd (hy _ hmem) (not_lt_of_ge (hleast y List.mem_cons_self))
    refine ⟨L', rfl, hasc, fun k v => ?_⟩
    have hk := h.mem k v
    rw [List.mem_cons] at hk
    by_cases heq : k = key
    · -- the key is no longer there
      subst heq
      rw [hV k, if_pos rfl]
      constructor
      · exact fun hin => absurd (hy _ hin) (lt_irrefl _)
      · exact fun ⟨_, _, hnone⟩ => (nomatch hnone)
    · rw [hV k, if_neg heq, ← hk]
      constructor
      · exact Or.inr
      · rintro (he | hin)
        · exact absurd (congrArg Prod.fst he) heq
        · exact hin

end

namespace DBIterator

open DBIteratorSource

variable {pq : PriorityQueue HeapNode order.gt} {lists lists' : MemSlot → SkipList} {gs ns : ℕ → ℕ}
  {st st' : MergeState pq DBIteratorSource} {Ls : List (List Item)} {it : DBIterator pq} {i : ℕ}
  {s : DBIteratorSource}

/-! ## Sources -/

/-- A source wherever it stands: the first may be a memtable's, at a node of its list,
the others are tables'. -/
inductive Held (lists : MemSlot → SkipList) : ℕ → DBIteratorSource → Prop
  | mem (g : ℕ) (slot : MemSlot) (it : SkipList.Iterator)
    (node : ∀ key, it.node = some key → ∃ x ∈ (lists slot).chain, x.key = key) :
    Held lists 0 ⟨g, some (slot, it), none⟩
  | sst (i g : ℕ) (it : SSTableIterator) : Held lists i ⟨g, none, some it⟩

theorem mem_chain_of_head {l : SkipList} {suf : List SkipList.Node} (hsuf : suf.Sublist l.chain) {key : Bytes}
    (h : suf.head?.map SkipList.Node.key = some key) : ∃ x ∈ l.chain, x.key = key := by
  obtain ⟨x, hx, hk⟩ := Option.map_eq_some_iff.1 h
  exact ⟨x, hsuf.subset (List.mem_of_mem_head? hx), hk⟩

theorem findGreaterOrEqual_sublist (l : SkipList) (key : Bytes) : (l.findGreaterOrEqual key).Sublist l.chain :=
  List.dropWhile_sublist _

theorem Held.next (h : Held lists i s) :
    Held lists i (s.next lists) ∧ (s.next lists).generationId = s.generationId ∧
      (s.next lists).size lists = s.size lists := by
  cases h with
  | mem g slot it node =>
    refine ⟨.mem g slot _ fun key hkey => ?_, rfl, rfl⟩
    unfold SkipList.Iterator.next at hkey
    cases hn : it.node with
    | none =>
      simp only [hn] at hkey
      exact node key (hn ▸ hkey)
    | some k =>
      simp only [hn] at hkey
      exact mem_chain_of_head ((List.tail_sublist _).trans (findGreaterOrEqual_sublist _ k)) hkey
  | sst i g it =>
    refine ⟨.sst i g _, rfl, ?_⟩
    unfold DBIteratorSource.size DBIteratorSource.next
    simp only [Option.map_some, Option.map_none, SSTableIterator.data_next]

/-- A source sought anew. -/
theorem SourceOf.held {t : Compactor.RankedTable} (h : SourceOf lists t s) (hfirst : i ≠ 0 → s.memIter = none)
    (target : Bytes) : Held lists i (s.seek lists target) ∧ Held lists i (s.seekToFirst lists) := by
  cases h with
  | mem g slot it =>
    obtain rfl : i = 0 := by
      by_contra hi
      cases hfirst hi
    constructor
    · exact .mem g slot _ fun key hkey => mem_chain_of_head (findGreaterOrEqual_sublist _ target) hkey
    · exact .mem g slot _ fun key hkey => mem_chain_of_head (List.Sublist.refl _) hkey
  | sst g rs it h asc => exact ⟨.sst i g _, .sst i g _⟩

theorem SourceOf.generationId {t : Compactor.RankedTable} (h : SourceOf lists t s) : s.generationId = t.1 := by
  cases h <;> rfl

/-- The records a source yields carry its generation. -/
theorem generationId_yields {L : List Item} : ∀ {s : DBIteratorSource}, Merge.Yields order (sources lists) i s L →
    ∀ p ∈ L, p.1.generationId = s.generationId := by
  induction L with
  | nil => exact fun _ p hp => absurd hp List.not_mem_nil
  | cons q L ih =>
    intro s h p hp
    obtain ⟨hnode, -, -, hrest⟩ := h
    rcases List.mem_cons.1 hp with rfl | hp
    · have hsome : sourceNode i s = some p.1 := hnode
      unfold sourceNode at hsome
      split at hsome
      · rw [← Option.some.inj hsome]
      · cases hsome
    · exact ih hrest p hp

/-- The sources have these lists left, the `i`-th with the generation `gs i` and room for `ns i` records. -/
structure Reads (lists : MemSlot → SkipList) (gs ns : ℕ → ℕ) (st : MergeState pq DBIteratorSource)
    (Ls : List (List Item)) : Prop where
  ok : Merge.OK (sources lists) st Ls
  keep : Merge.SourcesKeep (fun i s => Held lists i s ∧ s.generationId = gs i ∧ s.size lists = ns i) st
  room : ∀ i L, Ls[i]? = some L → L.length ≤ ns i
  newer : ∀ i j, i < j → j < Ls.length → gs j < gs i

theorem Reads.source (h : Reads lists gs ns st Ls) (hi : i < Ls.length) :
    ∃ s, st.sources[i]? = some s ∧ Merge.Yields order (sources lists) i s Ls[i] ∧ Held lists i s ∧
      s.generationId = gs i ∧ s.size lists = ns i := by
  have hs := List.getElem?_eq_getElem (show i < st.sources.length by rw [h.ok.length]; exact hi)
  exact ⟨_, hs, h.ok.yields i _ _ hs (List.getElem?_eq_getElem hi), h.keep i _ hs⟩

theorem Reads.ranked (h : Reads lists gs ns st Ls) : Merge.Ranked order Ls := by
  refine List.pairwise_iff_getElem.2 fun i j hi hj hij p hp q hq => ?_
  obtain ⟨s, -, hys, -, hgs, -⟩ := h.source hi
  obtain ⟨s', -, hys', -, hgs', -⟩ := h.source hj
  have hp' := generationId_yields hys p hp
  have hq' := generationId_yields hys' q hq
  change q.1.generationId < p.1.generationId
  rw [hp', hq', hgs, hgs']
  exact h.newer i j hij hj

/-- After a round. -/
theorem Reads.popWinner (h : Reads lists gs ns st Ls) {fuel : ℕ} {n : HeapNode} {v : Option (Bytes × Bool)}
    (hpop : Merge.popWinner (sources lists) fuel st = some (n, v, st')) {k : Bytes}
    (hok : Merge.OK (sources lists) st' (Ls.map (Merge.dropKey order k))) :
    Reads lists gs ns st' (Ls.map (Merge.dropKey order k)) := by
  obtain ⟨hkeep, -⟩ := h.keep.popWinner (fun i s ⟨hs, hg, hn⟩ => by
    obtain ⟨h1, h2, h3⟩ := hs.next
    exact ⟨h1, h2.trans hg, h3.trans hn⟩) hpop
  refine ⟨hok, hkeep, fun i L hL => ?_, ?_⟩
  · rw [List.getElem?_map] at hL
    obtain ⟨L₀, hL₀, rfl⟩ := Option.map_eq_some_iff.1 hL
    exact (Merge.dropKey_sublist k L₀).length_le.trans (h.room i L₀ hL₀)
  · rw [List.length_map]
    exact h.newer

/-- The rounds of the loop suffice. -/
theorem Reads.rounds (h : Reads lists gs ns it.state Ls) : Merge.total Ls + Ls.length ≤ it.rounds lists := by
  unfold DBIterator.rounds Merge.total
  rw [h.ok.length]
  refine Nat.add_le_add_right (List.Forall₂.sum_le_sum ?_) _
  refine List.forall₂_iff_get.2 ⟨by simp [h.ok.length], fun i h1 h2 => ?_⟩
  have hi : i < Ls.length := by simpa using h1
  obtain ⟨s, hs, -, -, -, hn⟩ := h.source hi
  obtain ⟨hi', hs⟩ := List.getElem?_eq_some_iff.1 hs
  have hroom := h.room i _ (List.getElem?_eq_getElem hi)
  simp only [List.get_eq_getElem, List.getElem_map, hs, hn]
  exact hroom

/-! ## One step -/

/-- The live value of a key in what is left. -/
def leftView (Ls : List (List Item)) (key : Bytes) : Option Bytes := (Merge.newest order key Ls).bind Item.recorded

/-- What the loop of `FindNextAliveKey` finds of the pairs left, and what it leaves. -/
inductive Found (lists : MemSlot → SkipList) (gs ns : ℕ → ℕ) (it : DBIterator pq) : List (Bytes × Bytes) → Prop
  | done (hv : it.valid = false) : Found lists gs ns it []
  | shows (Ls : List (List Item)) (L : List (Bytes × Bytes)) (hv : it.valid = true)
    (hreads : Reads lists gs ns it.state Ls) (hleft : LivePairs (leftView Ls) [] it.endKey L)
    (hbehind : ∀ M ∈ Ls, ∀ p ∈ M, it.currentKey < p.1.key) :
    Found lists gs ns it ((it.currentKey, it.currentValue) :: L)

theorem beyondEnd_eq_false {key : Bytes} : it.beyondEnd key = false ↔ it.endKey = [] ∨ key ≤ it.endKey := by
  unfold beyondEnd
  simp [or_iff_not_imp_left]

/-- **The loop over what is left** stops at its first live pair. -/
theorem findNextAliveKeyGo_left {fuel : ℕ} : ∀ {n : ℕ} {Ls : List (List Item)} {it : DBIterator pq}
    {L : List (Bytes × Bytes)}, Reads lists gs ns it.state Ls → LivePairs (leftView Ls) [] it.endKey L →
    Ls.length ≤ fuel → Merge.total Ls < n →
    Found lists gs ns (findNextAliveKeyGo lists fuel n it) L ∧
      (findNextAliveKeyGo lists fuel n it).endKey = it.endKey := by
  intro n
  induction n with
  | zero => exact fun _ _ _ h => absurd h (Nat.not_lt_zero _)
  | succ n ih =>
    intro Ls it L hreads hL hfuel hn
    unfold findNextAliveKeyGo
    rcases Merge.popWinner_newest hreads.ok hreads.ranked hfuel with ⟨hpop, hnone⟩ |
      ⟨p, st', hpop, hnewest, hleast, hok, hless⟩
    · have hnil : L = [] := hL.eq_nil fun key _ _ => by
        unfold leftView
        rw [hnone key]
        rfl
      subst hnil
      rw [hpop]
      exact ⟨.done rfl, rfl⟩
    · have hreads' := hreads.popWinner hpop hok
      have hdrop : ∀ k, leftView (Ls.map (Merge.dropKey order p.1.key)) k =
          if k = p.1.key then none else leftView Ls k := by
        intro k
        unfold leftView
        rw [show Merge.newest order k (Ls.map (Merge.dropKey order p.1.key)) = _ from
          Merge.newest_dropKey hreads.ok.asc hleast]
        split <;> rfl
      have hview : leftView Ls p.1.key = Item.recorded p := by
        unfold leftView
        rw [show Merge.newest order p.1.key Ls = some p from hnewest]
        rfl
      have hge : ∀ q ∈ L, p.1.key ≤ q.1 := by
        rintro ⟨key, value⟩ hq
        obtain ⟨-, -, hv⟩ := (hL.mem key value).1 hq
        obtain ⟨r, hr, -⟩ := Option.bind_eq_some_iff.1 hv
        obtain ⟨⟨M, hM, hrM⟩, hkey⟩ := Merge.mem_of_newest hr
        exact (hleast M hM r hrM).trans (le_of_eq hkey)
      obtain ⟨top, value, deleted⟩ := p
      rw [hpop]
      simp only
      cases hbeyond : ({ it with state := st' } : DBIterator pq).beyondEnd top.key with
      | true =>
        -- every key left is behind the end
        have hend : ¬ (it.endKey = [] ∨ top.key ≤ it.endKey) := by
          intro hin
          have hnot : ({ it with state := st' } : DBIterator pq).beyondEnd top.key = false :=
            beyondEnd_eq_false.2 hin
          rw [hnot] at hbeyond
          cases hbeyond
        have hnil : L = [] := by
          refine List.eq_nil_iff_forall_not_mem.2 fun q hq => ?_
          obtain ⟨-, hin, -⟩ := (hL.mem q.1 q.2).1 hq
          exact hend (hin.imp_right (hge q hq).trans)
        subst hnil
        rw [if_pos rfl]
        exact ⟨.done rfl, rfl⟩
      | false =>
        rw [if_neg (by decide)]
        cases deleted with
        | true =>
          have hdead : leftView Ls top.key = none := hview
          have hL' : LivePairs (leftView (Ls.map (Merge.dropKey order top.key))) [] it.endKey L := by
            refine hL.congr fun key _ _ => ?_
            rw [hdrop key]
            split
            · rename_i hk
              rw [hk, hdead]
            · rfl
          have htotal : Merge.total (Ls.map (Merge.dropKey order top.key)) < n :=
            lt_of_lt_of_le hless (Nat.le_of_lt_succ hn)
          exact ih hreads' hL' (by rw [List.length_map]; exact hfuel) htotal
        | false =>
          have hin := beyondEnd_eq_false.1 hbeyond
          have hmem : (top.key, value) ∈ L := (hL.mem _ _).2 ⟨not_lt.1 (List.not_lt_nil _), hin, hview⟩
          obtain ⟨L', rfl, hL'⟩ := hL.cons_of_least hmem hge hdrop
          refine ⟨.shows _ L' rfl hreads' hL' fun M hM q hq => ?_, rfl⟩
          obtain ⟨M₀, hM₀, rfl⟩ := List.mem_map.1 hM
          exact Merge.lt_of_mem_dropKey (hreads.ok.asc M₀ hM₀) (hleast M₀ hM₀) hq

/-- **One step** shows the first pair that is left. -/
theorem findNextAliveKey_left {L : List (Bytes × Bytes)} (h : Reads lists gs ns it.state Ls)
    (hL : LivePairs (leftView Ls) [] it.endKey L) :
    Found lists gs ns (it.findNextAliveKey lists) L ∧ (it.findNextAliveKey lists).endKey = it.endKey := by
  have hrounds := h.rounds
  unfold findNextAliveKey
  exact findNextAliveKeyGo_left h hL (by omega) (by omega)

/-! ## Another list -/

/-- What a memtable's iterator has left at a node. -/
def memLeft (l : SkipList) (g : ℕ) : Option Bytes → List Item
  | none => []
  | some node => nodesOf 0 g
      ((l.findGreaterOrEqual node).map fun x => ⟨x.key, x.entry.value, x.entry.type = .kTypeDeletion⟩)

theorem yields_memLeft (g : ℕ) (slot : MemSlot) {node : Option Bytes}
    (h : ∀ key, node = some key → ∃ x ∈ (lists slot).chain, x.key = key) :
    Merge.Yields order (sources lists) 0 ⟨g, some (slot, ⟨node⟩), none⟩ (memLeft (lists slot) g node) := by
  cases node with
  | none => rfl
  | some key =>
    obtain ⟨x, hx, rfl⟩ := h key rfl
    obtain ⟨pre, suf, hsplit⟩ := List.append_of_mem hx
    have hy := yields_mem lists g 0 slot hsplit
    simp only [memLeft, (lists slot).findGreaterOrEqual_split hsplit]
    exact hy

theorem le_of_mem_findGreaterOrEqual {l : SkipList} {key : Bytes} {x : SkipList.Node}
    (hx : x ∈ l.findGreaterOrEqual key) : key ≤ x.key := by
  unfold SkipList.findGreaterOrEqual at hx
  have hmem := mem_dropWhile_lt l.sorted (k := key) (a := x)
  exact (hmem.1 (by convert hx)).2

/-- The record of a key, if the iterator has not passed it. -/
theorem findKey_memLeft (l : SkipList) (g : ℕ) (node : Option Bytes) (k : Bytes) :
    findKey (fun p : Item => p.1.key) k (memLeft l g node) = match node with
      | none => none
      | some key => if key ≤ k then
          (l.find k).map fun e => (⟨k, g, 0⟩, (e.value, decide (e.type = .kTypeDeletion))) else none := by
  cases node with
  | none => rfl
  | some key =>
    simp only [memLeft, nodesOf]
    by_cases hk : key ≤ k
    · have hdrop : findKey SkipList.Node.key k (l.findGreaterOrEqual key) =
          findKey SkipList.Node.key k l.chain := by
        rw [← findKey_dropWhile l.sorted hk]
        unfold SkipList.findGreaterOrEqual
        congr!
      rw [if_pos hk, SkipList.find_eq, ← hdrop, findKey_map, findKey_map]
      change Option.map _ (Option.map _ (findKey SkipList.Node.key k (l.findGreaterOrEqual key))) = _
      cases hf : findKey SkipList.Node.key k (l.findGreaterOrEqual key) with
      | none => rfl
      | some x =>
        rw [← (key_of_findKey hf).2]
        rfl
    · rw [if_neg hk, findKey_eq_none]
      intro p hp he
      obtain ⟨r, hr, rfl⟩ := List.mem_map.1 hp
      obtain ⟨x, hx, rfl⟩ := List.mem_map.1 hr
      exact hk ((le_of_mem_findGreaterOrEqual hx).trans (le_of_eq he))

theorem ascending_memLeft (l : SkipList) (g : ℕ) (node : Option Bytes) : Merge.Asc order (memLeft l g node) := by
  cases node with
  | none => exact ascending_nil
  | some key =>
    refine List.pairwise_map.2 (List.pairwise_map.2 ?_)
    exact l.sorted.sublist (findGreaterOrEqual_sublist l key)

/-- Tables do not depend on the lists. -/
theorem yields_congr {L : List Item} : ∀ {s : DBIteratorSource}, s.memIter = none →
    Merge.Yields order (sources lists) i s L → Merge.Yields order (sources lists') i s L := by
  induction L with
  | nil => exact fun _ h => h
  | cons p L ih =>
    intro s hs h
    obtain ⟨hn, hi, hv, hrest⟩ := h
    obtain ⟨g, m, it⟩ := s
    obtain rfl : m = none := hs
    refine ⟨hn, hi, ?_, ih rfl hrest⟩
    cases it <;> exact hv

theorem Held.memIter_eq_none (h : Held lists i s) (hi : i ≠ 0) : s.memIter = none := by
  cases h with
  | mem g slot it node => exact absurd rfl hi
  | sst i g it => rfl

theorem size_congr (h : s.memIter = none) : s.size lists' = s.size lists := by
  obtain ⟨g, m, it⟩ := s
  obtain rfl : m = none := h
  cases it <;> rfl

/-- The first list's keys are in the second. -/
def Grows (l l' : SkipList) : Prop := ∀ x ∈ l.chain, ∃ x' ∈ l'.chain, x'.key = x.key

/-- A record of the present list that the iterator has not passed. -/
def Fresher (lists lists' : MemSlot → SkipList) (it : DBIterator pq) (k : Bytes) (r : Option Bytes) : Prop :=
  ∃ slot node e, (slot, node) ∈ it.nodes ∧ node ≤ k ∧ (lists' slot).find k = some e ∧
    (lists slot).find k ≠ some e ∧ e.answer = r

theorem leftView_cons (M : List Item) (Ls : List (List Item)) (k : Bytes) : leftView (M :: Ls) k =
    ((findKey (fun p : Item => p.1.key) k M).or (Merge.newest order k Ls)).bind Item.recorded := by
  unfold leftView
  rw [Merge.newest_cons]
  rfl

theorem le_of_mem_memLeft {l : SkipList} {g : ℕ} {key : Bytes} {p : Item} (hp : p ∈ memLeft l g (some key)) :
    key ≤ p.1.key := by
  obtain ⟨r, hr, rfl⟩ := List.mem_map.1 hp
  obtain ⟨x, hx, rfl⟩ := List.mem_map.1 hr
  exact le_of_mem_findGreaterOrEqual hx

theorem mem_memLeft {l : SkipList} (g : ℕ) {x : SkipList.Node} (hx : x ∈ l.chain) :
    ∃ p ∈ memLeft l g (some x.key), p.1.key = x.key := by
  obtain ⟨pre, suf, hsplit⟩ := List.append_of_mem hx
  refine ⟨(⟨x.key, g, 0⟩, (x.entry.value, decide (x.entry.type = .kTypeDeletion))), ?_, rfl⟩
  simp only [memLeft, l.findGreaterOrEqual_split hsplit]
  exact List.mem_cons_self

/-- A key of the old list is in the present one. -/
theorem Grows.find_eq_none {l l' : SkipList} (h : Grows l l') {k : Bytes} (hf : l'.find k = none) :
    l.find k = none := by
  rw [SkipList.find_eq, Option.map_eq_none_iff, findKey_eq_none] at hf ⊢
  intro x hx hk
  obtain ⟨x', hx', hk'⟩ := h x hx
  exact hf x' hx' (hk'.trans hk)

/-- What the present list changes at a key. -/
theorem leftView_memLeft {l l' : SkipList} {node : Option Bytes} (hgrows : node ≠ none → Grows l l') (g : ℕ)
    (Ls : List (List Item)) (k : Bytes) :
    leftView (memLeft l' g node :: Ls) k = leftView (memLeft l g node :: Ls) k ∨
      ∃ key e, node = some key ∧ key ≤ k ∧ l'.find k = some e ∧ l.find k ≠ some e ∧
        e.answer = leftView (memLeft l' g node :: Ls) k := by
  rw [leftView_cons, leftView_cons, findKey_memLeft, findKey_memLeft]
  cases node with
  | none => exact Or.inl rfl
  | some key =>
    simp only
    by_cases hk : key ≤ k
    · rw [if_pos hk, if_pos hk]
      by_cases hsame : l'.find k = l.find k
      · rw [hsame]
        exact Or.inl rfl
      · cases hf : l'.find k with
        | none => exact absurd (hf.trans ((hgrows (by simp)).find_eq_none hf).symm) hsame
        | some e =>
          refine Or.inr ⟨key, e, rfl, hk, rfl, fun he => hsame (hf.trans he.symm), ?_⟩
          simp [Item.recorded, answer, MemTableEntry.answer]
    · rw [if_neg hk, if_neg hk]
      exact Or.inl rfl

theorem mem_nodes {slot : MemSlot} {node : Bytes} : (slot, node) ∈ it.nodes ↔
    ∃ s ∈ it.state.sources, ∃ jt, s.memIter = some (slot, jt) ∧ jt.node = some node := by
  unfold nodes
  rw [List.mem_filterMap]
  refine exists_congr fun s => and_congr_right fun _ => ?_
  cases s.memIter with
  | none => simp
  | some p =>
    obtain ⟨slot', jt⟩ := p
    cases hn : jt.node <;> simp [hn]

/-- Without memtables the lists do not matter. -/
theorem Reads.relist_tables (h : Reads lists gs ns st Ls)
    (hnone : ∀ (i : ℕ) (s : DBIteratorSource), st.sources[i]? = some s → s.memIter = none) :
    Reads lists' gs ns st Ls := by
  refine ⟨⟨⟨h.ok.length, fun i s L hs hL => ?_, h.ok.heap⟩, h.ok.asc⟩, fun i s hs => ?_, h.room, h.newer⟩
  · exact yields_congr (hnone i s hs) (h.ok.yields i s L hs hL)
  · obtain ⟨hheld, hg, hn⟩ := h.keep i s hs
    refine ⟨?_, hg, (size_congr (hnone i s hs)).trans hn⟩
    cases hheld with
    | mem g slot jt node => exact nomatch hnone 0 _ hs
    | sst i g jt => exact .sst i g jt

/-- A memtable's source yields what its list has from the node on. -/
theorem Reads.eq_memLeft {L₀ : List Item} {g : ℕ} {slot : MemSlot} {jt : SkipList.Iterator}
    (h : Reads lists gs ns st (L₀ :: Ls)) (hs : st.sources[0]? = some ⟨g, some (slot, jt), none⟩)
    (hnode : ∀ key, jt.node = some key → ∃ x ∈ (lists slot).chain, x.key = key) :
    L₀ = memLeft (lists slot) g jt.node :=
  (h.ok.yields 0 _ _ hs rfl).unique (yields_memLeft g slot hnode)

/-- Another list behind the memtable's source. -/
theorem Reads.relist_mem {g : ℕ} {slot : MemSlot} {jt : SkipList.Iterator}
    (h : Reads lists gs ns st (memLeft (lists slot) g jt.node :: Ls))
    (hs : st.sources[0]? = some ⟨g, some (slot, jt), none⟩)
    (hnode : ∀ key, jt.node = some key → ∃ x ∈ (lists' slot).chain, x.key = key) :
    Reads lists' gs (fun i => if i = 0 then (lists' slot).chain.length else ns i) st
      (memLeft (lists' slot) g jt.node :: Ls) := by
  have hy : Merge.Yields order (sources lists') 0 ⟨g, some (slot, jt), none⟩ (memLeft (lists' slot) g jt.node) :=
    yields_memLeft g slot hnode
  have hother : ∀ (i : ℕ) (s : DBIteratorSource), st.sources[i]? = some s → i ≠ 0 → s.memIter = none :=
    fun i s hs hi => (h.keep i s hs).1.memIter_eq_none hi
  refine ⟨⟨⟨h.ok.length, fun i s L hs' hL => ?_, ?_⟩, fun L hL => ?_⟩, fun i s hs' => ?_,
    fun i L hL => ?_, h.newer⟩
  · -- the other sources are tables
    cases i with
    | zero =>
      obtain rfl := Option.some.inj (hs.symm.trans hs')
      obtain rfl := Option.some.inj hL
      exact hy
    | succ i => exact yields_congr (hother _ s hs' (Nat.succ_ne_zero i)) (h.ok.yields _ s L hs' hL)
  · -- the heap holds keys only
    have hhead : Merge.headNode (memLeft (lists' slot) g jt.node) =
        Merge.headNode (memLeft (lists slot) g jt.node) :=
      hy.node.symm.trans (h.ok.yields 0 _ _ hs rfl).node
    have hheap := h.ok.heap
    unfold Merge.heads at hheap ⊢
    rw [List.filterMap_cons] at hheap ⊢
    rw [hhead]
    exact hheap
  · rcases List.mem_cons.1 hL with rfl | hL
    · exact ascending_memLeft _ g _
    · exact h.ok.asc L (List.mem_cons_of_mem _ hL)
  · -- the source of the memtable stands where it stood, in the new list
    obtain ⟨hheld, hg, hn⟩ := h.keep i s hs'
    by_cases hi : i = 0
    · subst hi
      obtain rfl := Option.some.inj (hs.symm.trans hs')
      exact ⟨.mem g slot jt hnode, hg, rfl⟩
    · have hnone := hother i s hs' hi
      rw [if_neg hi, ← hn]
      refine ⟨?_, hg, size_congr hnone⟩
      cases hheld with
      | mem g slot jt node => exact absurd rfl hi
      | sst i g jt => exact .sst i g jt
  · cases i with
    | zero =>
      obtain rfl := Option.some.inj hL
      rw [if_pos rfl]
      -- what is left of a list is no longer than the list
      cases jt.node with
      | none => exact Nat.zero_le _
      | some key =>
        simp only [memLeft, nodesOf, List.length_map]
        exact (findGreaterOrEqual_sublist _ key).length_le
    | succ i => exact h.room (i + 1) L hL

/-- **With another list** behind the memtable's iterator, what is left changes where the
list does. -/
theorem Reads.relist (h : Reads lists gs ns it.state Ls)
    (hgrows : ∀ slot node, (slot, node) ∈ it.nodes → Grows (lists slot) (lists' slot)) :
    ∃ ns' Ls', Reads lists' gs ns' it.state Ls' ∧
      (∀ k, leftView Ls' k = leftView Ls k ∨ Fresher lists lists' it k (leftView Ls' k)) ∧
      ∀ b, (∀ M ∈ Ls, ∀ p ∈ M, b < p.1.key) → ∀ M ∈ Ls', ∀ p ∈ M, b < p.1.key := by
  by_cases hmem : ∃ s, it.state.sources[0]? = some s ∧ s.memIter ≠ none
  · obtain ⟨s, hs, hne⟩ := hmem
    -- the only source that a write can reach is the first
    obtain ⟨hheld, hg, hn⟩ := h.keep 0 s hs
    cases hheld with
    | sst i g jt => exact absurd rfl hne
    | mem g slot jt node =>
      have hin : ∀ key, jt.node = some key → (slot, key) ∈ it.nodes := fun key hkey =>
        mem_nodes.2 ⟨_, List.mem_of_getElem? hs, jt, rfl, hkey⟩
      have hgrow : jt.node ≠ none → Grows (lists slot) (lists' slot) := by
        intro hne
        obtain ⟨key, hkey⟩ := Option.ne_none_iff_exists'.1 hne
        exact hgrows slot key (hin key hkey)
      have hnode' : ∀ key, jt.node = some key → ∃ x ∈ (lists' slot).chain, x.key = key := by
        intro key hkey
        obtain ⟨x, hx, rfl⟩ := node key hkey
        exact hgrow (by simp [hkey]) x hx
      cases Ls with
      | nil =>
        have hlt := (List.getElem?_eq_some_iff.1 hs).1
        rw [h.ok.length] at hlt
        exact absurd hlt (Nat.not_lt_zero _)
      | cons L₀ rest =>
        obtain rfl := h.eq_memLeft hs node
        refine ⟨_, _, h.relist_mem hs hnode', fun k => ?_, fun b hb M hM p hp => ?_⟩
        · -- a key shows what it showed, or the write is at or after the node
          rcases leftView_memLeft hgrow g rest k with he | ⟨key, e, hkey, hle, hf, hf', ha⟩
          · exact Or.inl he
          · exact Or.inr ⟨slot, key, e, hin key hkey, hle, hf, hf', ha⟩
        · rcases List.mem_cons.1 hM with rfl | hM
          · cases hkey : jt.node with
            | none =>
              rw [hkey] at hp
              exact absurd hp List.not_mem_nil
            | some key =>
              rw [hkey] at hp hb
              -- nothing comes before the node, whose key is behind `b`
              obtain ⟨x, hx, rfl⟩ := node key hkey
              obtain ⟨q, hq, hqk⟩ := mem_memLeft g hx
              exact lt_of_lt_of_le (hqk ▸ hb _ List.mem_cons_self q hq) (le_of_mem_memLeft hp)
          · exact hb M (List.mem_cons_of_mem _ hM) p hp
  · -- all sources are tables, which no call changes
    have hnone : ∀ (i : ℕ) (s : DBIteratorSource), it.state.sources[i]? = some s → s.memIter = none := by
      intro i s hs
      by_cases hi : i = 0
      · subst hi
        by_contra hne
        exact hmem ⟨s, hs, hne⟩
      · exact (h.keep i s hs).1.memIter_eq_none hi
    exact ⟨ns, Ls, h.relist_tables hnone, fun _ => Or.inl rfl, fun _ hb => hb⟩

/-- The iterator has the record of each node that it stands at left. -/
theorem Reads.node_left (h : Reads lists gs ns it.state Ls) {slot : MemSlot} {node : Bytes}
    (hnode : (slot, node) ∈ it.nodes) :
    (∃ M ∈ Ls, ∃ p ∈ M, p.1.key = node) ∧ ∃ x ∈ (lists slot).chain, x.key = node := by
  obtain ⟨s, hs, jt, hm, hn⟩ := mem_nodes.1 hnode
  obtain ⟨i, hi⟩ := List.getElem?_of_mem hs
  have hlt : i < Ls.length := by
    rw [← h.ok.length]
    exact (List.getElem?_eq_some_iff.1 hi).1
  have hhead := (h.ok.yields i s _ hi (List.getElem?_eq_getElem hlt)).node
  obtain ⟨hheld, -⟩ := h.keep i s hi
  cases hheld with
  | sst i g jt' => cases hm
  | mem g slot' jt' hchain =>
    obtain ⟨rfl, rfl⟩ := Prod.mk.inj (Option.some.inj hm)
    refine ⟨?_, hchain node hn⟩
    have hsome : sourceNode 0 ⟨g, some (slot', jt'), none⟩ = some ⟨node, g, 0⟩ := by
      unfold sourceNode DBIteratorSource.valid DBIteratorSource.key SkipList.Iterator.valid
      simp [hn]
    have hhead' : Merge.headNode Ls[0] = some ⟨node, g, 0⟩ := hhead.symm.trans hsome
    obtain ⟨p, hp, hpn⟩ := Option.map_eq_some_iff.1 hhead'
    exact ⟨_, List.getElem_mem hlt, p, List.mem_of_mem_head? hp, by rw [hpn]⟩

end DBIterator

end LsmTree
