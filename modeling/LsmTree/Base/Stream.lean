import LsmTree.Base.Bytes

/-!
# File streams

`IfStream` is a `std::ifstream` on a file whose content does not change while it
is open: a position and the `eofbit` and `failbit`. `OfStream` is a
`std::ofstream` opened with truncation: what it has written so far, its
`failbit`, and a `budget` that says at which write the device gives out.

A file cannot grow past `maxFileSize`, the largest value of `off_t`, so sizes and
offsets of files that were written without an error fit 64-bit integers.
-/

namespace LsmTree.Base

/-- The largest file size: `off_t` is a signed 64-bit integer. -/
def maxFileSize : ℕ := 2 ^ 63 - 1

/-! ## Reading -/

structure IfStream where
  data : Bytes
  pos : ℕ
  eof : Bool
  fail : Bool
  deriving DecidableEq, Repr

namespace IfStream

/-- Opening a file: at its start, no error bits. -/
def ofData (data : Bytes) : IfStream := ⟨data, 0, false, false⟩

def good (s : IfStream) : Bool := !s.eof && !s.fail

/-- `read(buf, n)`: the bytes stored, and the stream after. A short read sets both
error bits; on a stream that is not good nothing is read. -/
def read (s : IfStream) (n : ℕ) : Bytes × IfStream :=
  if !s.good then ([], { s with fail := true })
  else if s.pos + n ≤ s.data.length then
    ((s.data.drop s.pos).take n, { s with pos := s.pos + n })
  else ((s.data.drop s.pos).take n,
    { s with pos := max s.pos s.data.length, eof := true, fail := true })

/-- `static_cast<uint64_t>(tellg())`: `tellg` is `-1` on a failed stream. -/
def tellg (s : IfStream) : ℕ := if s.fail then 2 ^ 64 - 1 else s.pos

/-- `seekg(off)` for an offset held in a `uint64_t`: from `2^63` on it is negative
as a `streamoff`, and the seek fails. -/
def seekg (s : IfStream) (off : ℕ) : IfStream :=
  if s.fail then { s with eof := false }
  else if 2 ^ 63 ≤ off then { s with eof := false, fail := true }
  else { s with eof := false, pos := off }

/-- `clear()`. -/
def clear (s : IfStream) : IfStream := { s with eof := false, fail := false }

/-- The stream stands at `pos` with no error bits. -/
def at_ (data : Bytes) (pos : ℕ) : IfStream := ⟨data, pos, false, false⟩

@[simp] theorem good_at (data : Bytes) (pos : ℕ) : (at_ data pos).good = true := rfl

@[simp] theorem fail_at (data : Bytes) (pos : ℕ) : (at_ data pos).fail = false := rfl

@[simp] theorem pos_at (data : Bytes) (pos : ℕ) : (at_ data pos).pos = pos := rfl

@[simp] theorem tellg_at (data : Bytes) (pos : ℕ) : (at_ data pos).tellg = pos := rfl

theorem ofData_eq (data : Bytes) : ofData data = at_ data 0 := rfl

theorem seekg_at {data : Bytes} {pos off : ℕ} (h : off < 2 ^ 63) :
    (at_ data pos).seekg off = at_ data off := by
  unfold seekg at_
  simp only [Bool.false_eq_true, if_false]
  rw [if_neg (by omega)]

theorem clear_seekg {s : IfStream} {off : ℕ} (h : off < 2 ^ 63) :
    s.clear.seekg off = at_ s.data off := by
  unfold seekg clear at_
  simp only [Bool.false_eq_true, if_false]
  rw [if_neg (by omega)]

theorem good_of_fail {s : IfStream} (h : s.fail = true) : s.good = false := by
  unfold good
  rw [h]
  exact Bool.and_false _

/-- An offset that is negative as a `streamoff` cannot be sought to. -/
theorem fail_seekg_at {data : Bytes} {pos off : ℕ} (h : 2 ^ 63 ≤ off) :
    ((at_ data pos).seekg off).fail = true := by
  unfold seekg at_
  simp only [Bool.false_eq_true, if_false]
  rw [if_pos h]

/-- A failed stream cannot be sought in. -/
theorem fail_seekg {s : IfStream} {off : ℕ} (h : s.fail = true) : (s.seekg off).fail = true := by
  unfold seekg
  rw [if_pos h]
  exact h

/-- Reading the bytes that stand at the position. -/
theorem read_at {data part rest : Bytes} {pos n : ℕ} (h : data.drop pos = part ++ rest)
    (hn : part.length = n) (hpart : n ≠ 0) :
    (at_ data pos).read n = (part, at_ data (pos + n)) := by
  subst hn
  have hlen := congrArg List.length h
  rw [List.length_drop, List.length_append] at hlen
  unfold read at_ good
  simp only [Bool.not_false, Bool.and_self, Bool.not_true, Bool.false_eq_true, if_false]
  rw [if_pos (by omega), h, List.take_left]

/-- What stands behind them. -/
theorem drop_add_of_append {data part rest : Bytes} {pos n : ℕ} (h : data.drop pos = part ++ rest)
    (hn : part.length = n) : data.drop (pos + n) = rest := by
  rw [← List.drop_drop, h, ← hn, List.drop_left]

/-- A read past the end fails. -/
theorem read_at_short {data : Bytes} {pos n : ℕ} (h : data.length < pos + n) :
    ((at_ data pos).read n).2.fail = true := by
  unfold read at_ good
  simp only [Bool.not_false, Bool.and_self, Bool.not_true, Bool.false_eq_true, if_false]
  rw [if_neg (by omega)]

@[simp] theorem data_read (s : IfStream) (n : ℕ) : (s.read n).2.data = s.data := by
  unfold read
  split
  · rfl
  · split <;> rfl

@[simp] theorem data_seekg (s : IfStream) (off : ℕ) : (s.seekg off).data = s.data := by
  unfold seekg
  split
  · rfl
  · split <;> rfl

theorem good_iff {s : IfStream} : s.good = true ↔ s.eof = false ∧ s.fail = false := by
  unfold good
  simp

/-- A stream with no error bits is given by its content and its position. -/
theorem exists_at_of_good {s : IfStream} (h : s.good = true) : ∃ data pos, s = at_ data pos := by
  obtain ⟨data, pos, eof, fail⟩ := s
  obtain ⟨heof, hfail⟩ := good_iff.1 h
  simp only at heof hfail
  rw [heof, hfail]
  exact ⟨data, pos, rfl⟩

/-- A read within the file. -/
theorem read_at_le {data : Bytes} {pos n : ℕ} (h : pos + n ≤ data.length) :
    (at_ data pos).read n = ((data.drop pos).take n, at_ data (pos + n)) := by
  unfold read at_ good
  simp only [Bool.not_false, Bool.and_self, Bool.not_true, Bool.false_eq_true, if_false]
  rw [if_pos h]

/-- From a stream with an error bit nothing is read. -/
theorem read_of_bad {s : IfStream} {n : ℕ} (h : s.good = false) : s.read n = ([], { s with fail := true }) := by
  unfold read
  rw [if_pos (by simp [h])]

/-- The bytes stored are those there are. -/
theorem read_at_fst (data : Bytes) (pos n : ℕ) : ((at_ data pos).read n).1 = (data.drop pos).take n := by
  unfold read at_ good
  simp only [Bool.not_false, Bool.and_self, Bool.not_true, Bool.false_eq_true, if_false]
  split <;> rfl

theorem length_read_le (s : IfStream) (n : ℕ) : (s.read n).1.length ≤ n := by
  unfold read
  split
  · exact Nat.zero_le n
  · split
    · exact List.length_take_le n _
    · exact List.length_take_le n _

/-- A failed stream stays failed. -/
theorem fail_read {s : IfStream} {n : ℕ} (h : s.fail = true) : (s.read n).2.fail = true := by
  unfold read good
  rw [h]
  simp

end IfStream

/-! ## Writing -/

structure OfStream where
  buf : Bytes
  isOpen : Bool
  fail : Bool
  /-- How many more writes the device takes; `none` if it never fails. -/
  budget : Option ℕ
  deriving DecidableEq, Repr

namespace OfStream

/-- Opening with truncation; a file that cannot be opened leaves the `failbit`. -/
def openTrunc (opens : Bool) (budget : Option ℕ) : OfStream := ⟨[], opens, !opens, budget⟩

/-- `write(b, n)`. -/
def write (s : OfStream) (b : Bytes) : OfStream :=
  if s.fail then s
  else match s.budget with
    | some 0 => { s with fail := true }
    | some (n + 1) =>
      if s.buf.length + b.length ≤ maxFileSize then
        { s with buf := s.buf ++ b, budget := some n }
      else { s with fail := true }
    | none =>
      if s.buf.length + b.length ≤ maxFileSize then { s with buf := s.buf ++ b }
      else { s with fail := true }

/-- `static_cast<uint64_t>(tellp())`. -/
def tellp (s : OfStream) : ℕ := if s.fail then 2 ^ 64 - 1 else s.buf.length

/-- `flush()` and `close()`: the last point at which an error can show. -/
def close (s : OfStream) : OfStream :=
  if s.fail then { s with isOpen := false }
  else match s.budget with
    | some 0 => { s with isOpen := false, fail := true }
    | _ => { s with isOpen := false }

@[simp] theorem isOpen_write (s : OfStream) (b : Bytes) : (s.write b).isOpen = s.isOpen := by
  unfold write
  split
  · rfl
  · split <;> try split
    all_goals rfl

/-- A stream that has not failed after a write held it before and has the bytes now. -/
theorem write_ok {s : OfStream} {b : Bytes} (h : (s.write b).fail = false) :
    s.fail = false ∧ (s.write b).buf = s.buf ++ b ∧
      s.buf.length + b.length ≤ maxFileSize := by
  unfold write at h ⊢
  cases hf : s.fail with
  | true => simp [hf] at h
  | false =>
    simp only [hf, Bool.false_eq_true, if_false] at h ⊢
    split at h
    · simp at h
    · split at h
      · rename_i hl
        exact ⟨trivial, by simp [hl], hl⟩
      · simp at h
    · split at h
      · rename_i hl
        exact ⟨trivial, by simp [hl], hl⟩
      · simp at h

/-- From `s` to `s'` the bytes `b` were written, unless an error shows in `s'`. -/
structure Wrote (s : OfStream) (b : Bytes) (s' : OfStream) : Prop where
  isOpen : s'.isOpen = s.isOpen
  ok : s'.fail = false → s.fail = false ∧ s'.buf = s.buf ++ b ∧
    (s.buf.length ≤ maxFileSize → s'.buf.length ≤ maxFileSize)

/-- And the bytes were written without an error if the device takes everything and they fit
the file. -/
structure Writes (s : OfStream) (b : Bytes) (s' : OfStream) : Prop extends Wrote s b s' where
  fits : s.fail = false → s.budget = none → s.buf.length + b.length ≤ maxFileSize →
  s' = { s with buf := s.buf ++ b }

theorem writes_write (s : OfStream) (b : Bytes) : Writes s b (s.write b) := by
  refine ⟨⟨isOpen_write s b, fun h => ?_⟩, fun hok hbudget hfits => ?_⟩
  · obtain ⟨h1, h2, h3⟩ := write_ok h
    exact ⟨h1, h2, fun _ => by rw [h2, List.length_append]; exact h3⟩
  · unfold write
    simp only [hok, hbudget, Bool.false_eq_true, if_false, if_pos hfits]

theorem Wrote.refl (s : OfStream) : Wrote s [] s :=
  ⟨rfl, fun h => ⟨h, (List.append_nil _).symm, id⟩⟩

theorem Writes.refl (s : OfStream) : Writes s [] s :=
  ⟨Wrote.refl s, fun _ _ _ => by rw [List.append_nil]⟩

theorem Wrote.trans {s s' s'' : OfStream} {b c : Bytes} (h : Wrote s b s') (h' : Wrote s' c s'') :
    Wrote s (b ++ c) s'' := by
  refine ⟨h'.isOpen.trans h.isOpen, fun hf => ?_⟩
  obtain ⟨h1, h2, h3⟩ := h'.ok hf
  obtain ⟨g1, g2, g3⟩ := h.ok h1
  exact ⟨g1, by rw [h2, g2, List.append_assoc], fun hl => h3 (g3 hl)⟩

theorem Writes.trans {s s' s'' : OfStream} {b c : Bytes} (h : Writes s b s') (h' : Writes s' c s'') :
    Writes s (b ++ c) s'' := by
  refine ⟨h.toWrote.trans h'.toWrote, fun hok hbudget hfits => ?_⟩
  rw [List.length_append] at hfits
  obtain rfl := h.fits hok hbudget (by omega)
  rw [h'.fits hok hbudget (by simp only [List.length_append]; omega), List.append_assoc]

/-- A write that is skipped when there is nothing to write. -/
theorem writes_if {s : OfStream} {b : Bytes} {n : ℕ} (hn : b.length = n) :
    Writes s b (if 0 < n then s.write (b.take n) else s) := by
  subst hn
  rw [List.take_length]
  split
  · exact writes_write s b
  · rename_i h
    rw [List.length_eq_zero_iff.1 (Nat.eq_zero_of_not_pos h)]
    exact Writes.refl s

theorem tellp_of_ok {s : OfStream} (h : s.fail = false) : s.tellp = s.buf.length := by
  unfold tellp
  rw [h]
  rfl

theorem close_ok {s : OfStream} (h : s.close.fail = false) :
    s.fail = false ∧ s.close.buf = s.buf := by
  unfold close at h ⊢
  cases hf : s.fail with
  | true => simp [hf] at h
  | false =>
    simp only [hf, Bool.false_eq_true, if_false] at h ⊢
    split at h
    · simp at h
    · exact ⟨trivial, rfl⟩

end OfStream

end LsmTree.Base
