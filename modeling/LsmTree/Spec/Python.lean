import LsmTree.Base.Bytes
import LsmTree.Base.OrderedMap

/-!
# What the Python layer stands on (`python_bindings.cpp`, `ltm`)

The layer sees the engine as an ordered map from strings to strings. A `str` is taken as
its UTF-8 bytes, in which the bindings pass it on.

`pyInt` is `int()` of a string of ASCII characters, with its blanks, sign and underscores;
`zeroPad` is the format `0wd`.
-/

namespace LsmTree

open Base

/-- The exceptions that leave a call. -/
inductive PyError where
  | valueError (what : Bytes)
  | typeError
  | keyError
  /-- any other, from a callable or a library -/
  | other
  deriving DecidableEq

/-- `pylsm.StorageEngine` as a correct ordered map. -/
abbrev Engine := OrderedMap Bytes Bytes

/-- `prefix_scan` without a limit. -/
def Engine.prefixScan (pre : Bytes) (m : Engine) : List (Bytes × Bytes) := m.scan fun k => pre.isPrefixOf k

/-- What becomes of a `put`: it returns `True`, it returns `False` and stores nothing, or
it raises, before or after it has stored the pair. -/
inductive PutIO where
  | stored
  | refused
  | raised (done : Bool) (err : PyError)
  deriving DecidableEq

def Engine.tryPut (io : PutIO) (k v : Bytes) (m : Engine) : Except PyError Bool × Engine :=
  match io with
  | .stored => (.ok true, m.put k v)
  | .refused => (.ok false, m)
  | .raised done err => (.error err, if done then m.put k v else m)

/-- `d[k] = v` on a `dict`, its items in the order in which their keys were first set. -/
def dictSet {K V : Type} [DecidableEq K] (k : K) (v : V) : List (K × V) → List (K × V)
  | [] => [(k, v)]
  | e :: d => if e.1 = k then (k, v) :: d else e :: dictSet k v d

/-- `d.get(k)` -/
def dictGet {K V : Type} [DecidableEq K] (k : K) (d : List (K × V)) : Option V :=
  (d.find? fun e => e.1 = k).map Prod.snd

@[simp] theorem dictGet_dictSet {K V : Type} [DecidableEq K] (k : K) (v : V) (d : List (K × V)) :
    dictGet k (dictSet k v d) = some v := by
  unfold dictGet
  induction d with
  | nil => simp [dictSet]
  | cons e d ih =>
    unfold dictSet
    by_cases he : e.1 = k
    · simp [he]
    · simpa [he] using ih

/-- Digits with single underscores between them. -/
def underscored : Bytes → Bool
  | [] => false
  | [c] => isDigit c
  | c :: d :: rest => isDigit c && if d = 95 then underscored rest else underscored (d :: rest)

/-- An optional sign, `true` for a minus. -/
def splitSign : Bytes → Bool × Bytes
  | 45 :: t => (true, t)
  | 43 :: t => (false, t)
  | t => (false, t)

/-- `str` of an `int` -/
def pyStr (i : ℤ) : Bytes := decimalInt i

/-- `int(s)`; `none` where it raises `ValueError`. -/
def pyInt (s : Bytes) : Option ℤ :=
  let (neg, ds) := splitSign ((s.dropWhile isSpace).rdropWhile isSpace)
  let n : ℤ := digitsValue (ds.filter (· ≠ 95))
  if underscored ds then some (if neg then -n else n) else none

def pad (w n : ℕ) : Bytes := List.replicate (w - (decimal n).length) 48 ++ decimal n

/-- `f"{i:0wd}"` -/
def zeroPad (w : ℕ) (i : ℤ) : Bytes := if i < 0 then 45 :: pad (w - 1) i.natAbs else pad w i.natAbs

@[simp] theorem pyStr_natCast (n : ℕ) : pyStr (n : ℤ) = decimal n := by
  unfold pyStr decimalInt
  rw [if_neg (by omega), Int.natAbs_natCast]

theorem underscored_digits {ds : Bytes} (hne : ds ≠ []) (h : ∀ b ∈ ds, isDigit b = true) :
    underscored ds = true := by
  induction ds with
  | nil => exact absurd rfl hne
  | cons c ds ih =>
    cases ds with
    | nil => exact h c List.mem_cons_self
    | cons d rest =>
      have hd : d ≠ 95 := by
        rintro rfl
        exact absurd (h 95 (by simp)) (by decide)
      unfold underscored
      rw [h c List.mem_cons_self, if_neg hd, Bool.true_and]
      exact ih (List.cons_ne_nil _ _) fun b hb => h b (List.mem_cons_of_mem _ hb)

theorem splitSign_digits {ds : Bytes} (h : ∀ b ∈ ds, isDigit b = true) : splitSign ds = (false, ds) := by
  unfold splitSign
  split
  · exact absurd (h 45 List.mem_cons_self) (by decide)
  · exact absurd (h 43 List.mem_cons_self) (by decide)
  · rfl

/-- **`int` undoes `str`** on the numbers that are not negative. -/
theorem pyInt_decimal (n : ℕ) : pyInt (decimal n) = some (n : ℤ) := by
  have hdigit : ∀ b ∈ decimal n, isDigit b = true := isDigit_of_mem_decimal
  have hspace : ∀ b ∈ decimal n, ¬ isSpace b = true := fun b hb => by
    simp [not_isSpace_of_isDigit (hdigit b hb)]
  have hne := decimal_ne_nil n
  have hdrop : (decimal n).dropWhile isSpace = decimal n := by
    obtain ⟨c, cs, hc⟩ := List.exists_cons_of_ne_nil hne
    rw [hc, List.dropWhile_cons_of_neg]
    exact hspace c (by rw [hc]; exact List.mem_cons_self)
  have hrdrop : (decimal n).rdropWhile isSpace = decimal n :=
    List.rdropWhile_eq_self_iff.2 fun h => hspace _ (List.getLast_mem h)
  have hunder : (decimal n).filter (fun b => b ≠ 95) = decimal n := by
    rw [List.filter_eq_self]
    intro b hb
    rw [decide_eq_true_eq]
    rintro rfl
    exact absurd (hdigit 95 hb) (by decide)
  have hall := underscored_digits hne hdigit
  unfold pyInt
  rw [hdrop, hrdrop, splitSign_digits hdigit]
  simp only [hunder, hall, digitsValue_decimal, if_true, Bool.false_eq_true, if_false]

theorem isDigit_of_mem_pad {w n : ℕ} {b : UInt8} (h : b ∈ pad w n) : isDigit b = true := by
  rcases List.mem_append.1 h with h | h
  · rw [List.eq_of_mem_replicate h]
    decide
  · exact isDigit_of_mem_decimal b h

@[simp] theorem zeroPad_natCast (w n : ℕ) : zeroPad w (n : ℤ) = pad w n := by
  unfold zeroPad
  rw [if_neg (by omega), Int.natAbs_natCast]

end LsmTree
