import LsmTree.Spec.BloomFilter

/-!
# The Bloom filter has no false negatives

* `OK.mayContain_foldl`: a key that was added may be contained, whatever the hash.
* `writes_serialize`, `deserialize_at`: a filter is read back from a file as it was
  written.
* `added_found`: a key that was added is found from then on, however often the filter is
  written and read back in between.
-/

namespace LsmTree.BloomFilter

open Base

variable {hash : Bytes → UInt64} {f : BloomFilter} {key : Bytes} {bits : Bytes} {i j : ℕ}

/-! ## Bits -/

theorem bitMask_ne_zero (i : ℕ) : bitMask i ≠ 0 := by
  have h : i % 8 < 8 := Nat.mod_lt _ (by norm_num)
  unfold bitMask
  interval_cases i % 8 <;> decide

theorem or_and_mask (b m m' : UInt8) : (b ||| m) &&& m' = (b &&& m') ||| (m &&& m') := by
  apply UInt8.toBitVec_inj.1
  ext i
  simp [Bool.and_or_distrib_right]

theorem testBit_setBit_self (h : i / 8 < bits.length) : testBit (setBit bits i) i = true := by
  unfold testBit setBit
  rw [List.getD_eq_getElem?_getD, List.getElem?_modify_eq, List.getElem?_eq_getElem h]
  simp only [Option.map_eq_map, Option.map_some, Option.getD_some, ne_eq, decide_eq_true_eq]
  rw [or_and_mask, UInt8.and_self, UInt8.or_eq_zero_iff]
  exact fun hz => bitMask_ne_zero i hz.2

/-- Setting one bit clears no other. -/
theorem testBit_setBit (h : testBit bits i = true) : testBit (setBit bits j) i = true := by
  unfold testBit setBit at *
  rw [List.getD_eq_getElem?_getD] at h ⊢
  by_cases hij : j / 8 = i / 8
  · rw [hij, List.getElem?_modify_eq]
    cases hb : bits[i / 8]? with
    | none =>
      rw [hb] at h
      exact h
    | some b =>
      rw [hb] at h
      simp only [Option.map_eq_map, Option.map_some, Option.getD_some, ne_eq, decide_eq_true_eq] at h ⊢
      rw [or_and_mask, UInt8.or_eq_zero_iff]
      exact fun hz => h hz.1
  · rw [List.getElem?_modify_ne _ _ hij]
    exact h

@[simp] theorem length_setBit (bits : Bytes) (i : ℕ) : (setBit bits i).length = bits.length :=
  List.length_modify _ _ _

theorem length_foldl_setBit (is : List ℕ) : ∀ bits : Bytes, (is.foldl setBit bits).length = bits.length := by
  induction is with
  | nil => exact fun bits => rfl
  | cons i is ih => exact fun bits => (ih _).trans (length_setBit bits i)

theorem testBit_foldl_setBit (is : List ℕ) :
    ∀ bits : Bytes, testBit bits i = true → testBit (is.foldl setBit bits) i = true := by
  induction is with
  | nil => exact fun bits h => h
  | cons j is ih => exact fun bits h => ih _ (testBit_setBit h)

theorem testBit_foldl_setBit_mem (is : List ℕ) : ∀ bits : Bytes, (∀ i ∈ is, i / 8 < bits.length) →
    ∀ i ∈ is, testBit (is.foldl setBit bits) i = true := by
  induction is with
  | nil => exact fun bits _ i hi => absurd hi List.not_mem_nil
  | cons j is ih =>
    intro bits hb i hi
    have hb' : ∀ i ∈ is, i / 8 < (setBit bits j).length := fun i hi => by
      rw [length_setBit]
      exact hb i (List.mem_cons_of_mem _ hi)
    rcases List.mem_cons.1 hi with rfl | hi
    · exact testBit_foldl_setBit is _ (testBit_setBit_self (hb i List.mem_cons_self))
    · exact ih _ hb' i hi

/-! ## Keys -/

/-- There are bits, each index below the bit count has a byte, and the bytes can be counted. -/
structure OK (f : BloomFilter) : Prop where
  bitCount : f.bitCount ≠ 0
  covered : f.bitCount.toNat ≤ 8 * f.bits.length
  short : f.bits.length < 2 ^ 63

theorem default_ok : OK default := by
  have hlen : default.bits.length = 1199 := List.length_replicate
  have hcount : default.bitCount = 9586 := rfl
  refine ⟨?_, ?_, ?_⟩
  · rw [hcount]
    decide
  · rw [hlen, hcount]
    decide
  · rw [hlen]
    norm_num

theorem OK.add (h : OK f) (hash : Bytes → UInt64) (key : Bytes) : OK (f.add hash key) := by
  unfold BloomFilter.add
  rw [if_neg h.bitCount]
  have hl := length_foldl_setBit (f.probes hash key) f.bits
  exact ⟨h.bitCount, le_of_le_of_eq h.covered (by rw [hl]), lt_of_eq_of_lt hl h.short⟩

/-- An index probed is below the bit count. -/
theorem lt_of_mem_probes (h0 : f.bitCount ≠ 0) (hi : i ∈ f.probes hash key) : i < f.bitCount.toNat := by
  obtain ⟨n, -, rfl⟩ := List.mem_map.1 hi
  have hpos : 0 < f.bitCount.toNat := by
    apply Nat.pos_of_ne_zero
    intro hz
    exact h0 (UInt64.toNat_inj.1 hz)
  rw [UInt64.toNat_mod]
  exact Nat.mod_lt _ hpos

/-- Every index probed has a byte. -/
theorem OK.probes (h : OK f) (hash : Bytes → UInt64) (key : Bytes) :
    ∀ i ∈ f.probes hash key, i / 8 < f.bits.length := by
  intro i hi
  have hlt := lt_of_mem_probes h.bitCount hi
  have := h.covered
  omega

theorem OK.mayContain_add (h : OK f) (hash : Bytes → UInt64) (key : Bytes) :
    (f.add hash key).mayContain hash key = true := by
  unfold BloomFilter.add mayContain
  rw [if_neg h.bitCount, if_neg h.bitCount, List.all_eq_true]
  exact testBit_foldl_setBit_mem _ _ (h.probes hash key)

theorem mayContain_add_of (h : f.mayContain hash key = true) (key' : Bytes) :
    (f.add hash key').mayContain hash key = true := by
  unfold BloomFilter.add
  split
  · exact h
  rename_i h0
  unfold mayContain at h ⊢
  rw [if_neg h0] at h ⊢
  rw [List.all_eq_true] at h ⊢
  intro i hi
  exact testBit_foldl_setBit _ _ (h i hi)

/-- **No false negatives**: every key added is found. -/
theorem OK.mayContain_foldl (h : OK f) {keys : List Bytes} (hk : key ∈ keys) :
    (keys.foldl (BloomFilter.add hash) f).mayContain hash key = true := by
  have hmono : ∀ (keys : List Bytes) (f : BloomFilter), f.mayContain hash key = true →
      (keys.foldl (BloomFilter.add hash) f).mayContain hash key = true := by
    intro keys
    induction keys with
    | nil => exact fun f h => h
    | cons k keys ih => exact fun f h => ih _ (mayContain_add_of h k)
  induction keys generalizing f with
  | nil => exact absurd hk List.not_mem_nil
  | cons k keys ih =>
    rcases List.mem_cons.1 hk with rfl | hk
    · exact hmono keys _ (h.mayContain_add hash key)
    · exact ih (h.add hash k) hk

theorem OK.foldl_add (h : OK f) (keys : List Bytes) : OK (keys.foldl (BloomFilter.add hash) f) := by
  induction keys generalizing f with
  | nil => exact h
  | cons k keys ih => exact ih (h.add hash k)

/-! ## The file format -/

def encode (f : BloomFilter) : Bytes :=
  toLE 8 f.expectedItems.toNat ++ toLE 8 f.fpRate.toNat ++ toLE 8 f.bitCount.toNat ++
    toLE 8 f.hashCount.toNat ++ toLE 8 f.bits.length ++ f.bits

theorem writes_serialize (f : BloomFilter) (out : OfStream) : out.Writes f.encode (f.serialize out) := by
  unfold encode serialize
  have hhead := ((((OfStream.writes_write out (toLE 8 f.expectedItems.toNat)).trans
    (OfStream.writes_write _ (toLE 8 f.fpRate.toNat))).trans
    (OfStream.writes_write _ (toLE 8 f.bitCount.toNat))).trans
    (OfStream.writes_write _ (toLE 8 f.hashCount.toNat))).trans
    (OfStream.writes_write _ (toLE 8 f.bits.length))
  refine hhead.trans ?_
  simp only
  split
  · rename_i h
    rw [h]
    exact OfStream.Writes.refl _
  · exact OfStream.writes_write _ _

theorem readU64_at {data rest : Bytes} {pos : ℕ} {u : UInt64}
    (h : data.drop pos = toLE 8 u.toNat ++ rest) :
    readU64 (.at_ data pos) = (u, .at_ data (pos + 8)) := by
  unfold readU64
  rw [IfStream.read_at h (length_toLE 8 _) (by norm_num), ofLE_toLE_of_lt (u.toNat_lt)]
  simp

theorem length_encode (f : BloomFilter) : f.encode.length = 40 + f.bits.length := by
  unfold encode
  simp only [List.length_append, length_toLE]

/-- **A filter is read back as it was written**, into any filter, and the stream stands
behind it. -/
theorem deserialize_at {data rest : Bytes} {pos : ℕ} (hf : OK f) (g : BloomFilter)
    (h : data.drop pos = f.encode ++ rest) :
    g.deserialize (.at_ data pos) = .ok (f, .at_ data (pos + f.encode.length)) := by
  have hlen : f.bits.length < UInt64.size := lt_trans hf.short (by norm_num [UInt64.size])
  have hcount : (UInt64.ofNat f.bits.length).toNat = f.bits.length :=
    UInt64.toNat_ofNat_of_lt' hlen
  have hpos : f.bits.length ≠ 0 := by
    intro h0
    have hcov := hf.covered
    have hz : f.bitCount.toNat = 0 := by omega
    exact hf.bitCount (UInt64.toNat_inj.1 hz)
  have hend : pos + 8 + 8 + 8 + 8 + 8 + f.bits.length = pos + f.encode.length := by
    rw [length_encode]
    omega
  unfold encode at h
  simp only [List.append_assoc] at h
  have h1 := IfStream.drop_add_of_append h (length_toLE 8 _)
  have h2 := IfStream.drop_add_of_append h1 (length_toLE 8 _)
  have h3 := IfStream.drop_add_of_append h2 (length_toLE 8 _)
  have h4 := IfStream.drop_add_of_append h3 (length_toLE 8 _)
  have h5 := IfStream.drop_add_of_append h4 (length_toLE 8 _)
  rw [← hcount] at h4
  have hbits := IfStream.read_at h5 rfl hpos
  unfold deserialize
  simp only [readU64_at h, readU64_at h1, readU64_at h2, readU64_at h3, readU64_at h4, hcount]
  rw [if_neg (by have := hf.short; omega), if_neg (fun h => Bool.noConfusion h.2)]
  unfold readBits
  simp only [hpos, if_false, hbits, hend]
  -- the bytes that were there are all read over
  have hdrop : (g.bits.take f.bits.length ++
      List.replicate (f.bits.length - g.bits.length) (0 : UInt8)).drop f.bits.length = [] := by
    rw [List.drop_eq_nil_iff, List.length_append, List.length_take, List.length_replicate]
    omega
  rw [hdrop, List.append_nil]

/-! ## Filters that are written and read back -/

/-- What `serialize` leaves in the stream, with more bytes behind it. -/
def stored (f : BloomFilter) (out : OfStream) (rest : Bytes) : Bytes := (f.serialize out).buf ++ rest

/-- From `f` to `f'` the filter had keys added to it, the last one first in the list, and
was written to streams and read back from there, into any filter. -/
inductive Through (hash : Bytes → UInt64) (f : BloomFilter) : List Bytes → BloomFilter → Prop
  | start : Through hash f [] f
  | add {keys : List Bytes} {f' : BloomFilter} (h : Through hash f keys f') (key : Bytes) :
      Through hash f (key :: keys) (f'.add hash key)
  | roundTrip {keys : List Bytes} {f' : BloomFilter} (h : Through hash f keys f') {out : OfStream}
      (hwrote : (f'.serialize out).fail = false) {rest : Bytes} {g f'' : BloomFilter} {s : IfStream}
      (hread : g.deserialize (.at_ (f'.stored out rest) out.buf.length) = .ok (f'', s)) :
      Through hash f keys f''

/-- **Reading back what was written** restores the filter and stops behind it. -/
theorem OK.restored (h : OK f) {out : OfStream} (hwrote : (f.serialize out).fail = false) (rest : Bytes)
    (g : BloomFilter) : g.deserialize (.at_ (f.stored out rest) out.buf.length) =
      .ok (f, .at_ (f.stored out rest) (f.serialize out).buf.length) := by
  obtain ⟨-, hbuf, -⟩ := (writes_serialize f out).ok hwrote
  have hdrop : (f.stored out rest).drop out.buf.length = f.encode ++ rest := by
    unfold stored
    rw [hbuf, List.append_assoc, List.drop_left]
  rw [deserialize_at h g hdrop, hbuf, List.length_append]

/-- One step keeps what is needed for no key to be lost. -/
theorem Through.found {keys : List Bytes} {f' : BloomFilter} (h : Through hash f keys f') (hf : OK f) :
    OK f' ∧ ∀ key ∈ keys, f'.mayContain hash key = true := by
  induction h with
  | start => exact ⟨hf, fun key hkey => absurd hkey List.not_mem_nil⟩
  | add _ key ih =>
    obtain ⟨hok, hfound⟩ := ih
    refine ⟨hok.add hash key, fun k hk => ?_⟩
    rcases List.mem_cons.1 hk with rfl | hk
    · exact hok.mayContain_add hash k
    · exact mayContain_add_of (hfound k hk) key
  | roundTrip _ hwrote hread ih =>
    obtain ⟨hok, hfound⟩ := ih
    rw [hok.restored hwrote] at hread
    obtain ⟨rfl, -⟩ := Prod.mk.inj (Except.ok.inj hread)
    exact ⟨hok, hfound⟩

/-- The bytes of the constructor cover its bits. -/
theorem ok_of_length (hcount : 1 ≤ f.bitCount) (hlen : f.bits.length = (f.bitCount.toNat + 7) / 8) : OK f := by
  have hlt := f.bitCount.toNat_lt
  have hpos : 1 ≤ f.bitCount.toNat := UInt64.le_iff_toNat_le.1 hcount
  refine ⟨?_, by omega, by omega⟩
  intro h0
  rw [h0] at hpos
  exact absurd hpos (by decide)

/-- **No false negatives, through serialisation**: every key added so far is found, and
writing the filter and reading it back restores it. -/
theorem added_found (hash : Bytes → UInt64) {f f' : BloomFilter} (hcount : 1 ≤ f.bitCount)
    (hlen : f.bits.length = (f.bitCount.toNat + 7) / 8) {keys : List Bytes} (h : Through hash f keys f') :
    (∀ key ∈ keys, f'.mayContain hash key = true) ∧
      ∀ (out : OfStream) (rest : Bytes) (g : BloomFilter), (f'.serialize out).fail = false →
        g.deserialize (.at_ (f'.stored out rest) out.buf.length) =
          .ok (f', .at_ (f'.stored out rest) (f'.serialize out).buf.length) := by
  obtain ⟨hok, hfound⟩ := h.found (ok_of_length hcount hlen)
  exact ⟨hfound, fun out rest g hwrote => hok.restored hwrote rest g⟩

/-- Ten bits and three hashes; a key is added, the filter is written behind a byte and read
back into the default filter, another key is added to what was read, and it is written and
read back again. -/
theorem added_found_twice :
    let hash : Bytes → UInt64 := fun key => .ofNat key.length
    let f : BloomFilter := ⟨1, 0, 10, 3, [0, 0]⟩
    let out : OfStream := ⟨[7], true, false, none⟩
    ∃ f' s, default.deserialize (.at_ ((f.add hash (bytes "k")).stored out [9]) 1) = .ok (f', s) ∧
      (∀ key ∈ [bytes "key", bytes "k"], (f'.add hash (bytes "key")).mayContain hash key = true) ∧
        default.deserialize (.at_ ((f'.add hash (bytes "key")).stored out [9]) 1) =
          .ok (f'.add hash (bytes "key"), .at_ ((f'.add hash (bytes "key")).stored out [9]) 43) := by
  intro hash f out
  have hwrote : ((f.add hash (bytes "k")).serialize out).fail = false := by decide +kernel
  have hlen : f.bits.length = (f.bitCount.toNat + 7) / 8 := by decide
  have hok : OK (f.add hash (bytes "k")) := (ok_of_length (f := f) (by decide) hlen).add hash (bytes "k")
  have hread := hok.restored hwrote [9] .default
  have hthrough : Through hash f [bytes "key", bytes "k"] ((f.add hash (bytes "k")).add hash (bytes "key")) :=
    ((Through.start.add (bytes "k")).roundTrip hwrote hread).add (bytes "key")
  obtain ⟨hfound, hback⟩ := added_found hash (by decide) hlen hthrough
  have hend : (((f.add hash (bytes "k")).add hash (bytes "key")).serialize out).buf.length = 43 := by
    decide +kernel
  rw [← hend]
  exact ⟨_, _, hread, hfound, hback out [9] .default (by decide +kernel)⟩

end LsmTree.BloomFilter
