import Mathlib

/-!
# Byte strings: order, numerals and lines

`Bytes` is `std::string`: a list of bytes, compared byte by byte as unsigned
values. On top of it, what programs write into files and read back:

* `toLE`, `ofLE`: fixed-width little-endian integers.
* `decimal`, `stoull`, `stoll`: `std::to_string` and the `std::sto*` parsers, with
  their leading blanks, signs and range checks.
* `getlines`: the `std::getline` loop.
-/

namespace LsmTree.Base

/-- Bytes are ordered as unsigned values. -/
instance instLinearOrderUInt8 : LinearOrder UInt8 where
  le_refl a := UInt8.le_refl a
  le_trans _ _ _ := UInt8.le_trans
  le_antisymm _ _ := UInt8.le_antisymm
  le_total a b := UInt8.le_total a b
  lt_iff_le_not_ge a b := by
    rw [UInt8.lt_iff_le_and_ne]
    constructor
    · rintro ⟨h1, h2⟩
      exact ⟨h1, fun h => h2 (UInt8.le_antisymm h1 h)⟩
    · rintro ⟨h1, h2⟩
      exact ⟨h1, fun h => h2 (h ▸ UInt8.le_refl _)⟩
  toDecidableLE := inferInstance
  toDecidableEq := inferInstance
  toDecidableLT := inferInstance

/-- A `std::string`; its order is the lexicographic one on unsigned bytes. -/
abbrev Bytes := List UInt8

instance instLawfulBEqBytes : LawfulBEq Bytes := inferInstance

/-- The bytes of an ASCII literal. -/
def bytes (s : String) : Bytes := s.toList.map fun c => UInt8.ofNat c.toNat

/-! ## Little-endian integers -/

/-- The `w` low bytes of `n`, lowest first. -/
def toLE : ℕ → ℕ → Bytes
  | 0, _ => []
  | w + 1, n => UInt8.ofNat n :: toLE w (n / 256)

/-- The value of a little-endian byte string. -/
def ofLE : Bytes → ℕ
  | [] => 0
  | b :: bs => b.toNat + 256 * ofLE bs

@[simp] theorem length_toLE (w n : ℕ) : (toLE w n).length = w := by
  induction w generalizing n with
  | zero => rfl
  | succ w ih => simp [toLE, ih]

theorem ofLE_toLE (w n : ℕ) : ofLE (toLE w n) = n % 256 ^ w := by
  induction w generalizing n with
  | zero => simp [toLE, ofLE, Nat.mod_one]
  | succ w ih =>
    have hb : (UInt8.ofNat n).toNat = n % 256 := UInt8.toNat_ofNat'
    rw [toLE, ofLE, ih, hb, pow_succ', Nat.mod_mul]

theorem ofLE_toLE_of_lt {w n : ℕ} (h : n < 256 ^ w) : ofLE (toLE w n) = n := by
  rw [ofLE_toLE, Nat.mod_eq_of_lt h]

theorem ofLE_lt (bs : Bytes) : ofLE bs < 256 ^ bs.length := by
  induction bs with
  | nil => simp [ofLE]
  | cons b bs ih =>
    have := b.toNat_lt
    rw [ofLE, List.length_cons, pow_succ]
    omega

/-! ## Decimal numerals -/

/-- The character of a decimal digit. -/
def digitByte (d : ℕ) : UInt8 := UInt8.ofNat (48 + d)

/-- `isdigit`. -/
def isDigit (b : UInt8) : Bool := 48 ≤ b && b ≤ 57

/-- `isspace` in the C locale. -/
def isSpace (b : UInt8) : Bool := b == 32 || (9 ≤ b && b ≤ 13)

/-- `std::to_string` of an unsigned integer. -/
def decimal (n : ℕ) : Bytes :=
  if n = 0 then [48] else (Nat.digits 10 n).reverse.map digitByte

/-- `std::to_string` of a signed integer. -/
def decimalInt (i : ℤ) : Bytes :=
  if i < 0 then 45 :: decimal i.natAbs else decimal i.natAbs

/-- The value of a string of decimal digits. -/
def digitsValue (ds : Bytes) : ℕ := ds.foldl (fun a b => 10 * a + (b.toNat - 48)) 0

/-- Leading blanks, an optional sign (`true` for a minus) and a run of digits. -/
def scanInteger (s : Bytes) : Bool × Bytes :=
  match s.dropWhile isSpace with
  | 45 :: t => (true, t.takeWhile isDigit)
  | 43 :: t => (false, t.takeWhile isDigit)
  | t => (false, t.takeWhile isDigit)

/-- `std::stoull`: `none` where it throws. A minus sign negates modulo `2^64`. -/
def stoull (s : Bytes) : Option ℕ :=
  let (neg, ds) := scanInteger s
  if ds = [] then none
  else if 2 ^ 64 ≤ digitsValue ds then none
  else some (if neg then (2 ^ 64 - digitsValue ds) % 2 ^ 64 else digitsValue ds)

/-- `std::stoll`: `none` where it throws. -/
def stoll (s : Bytes) : Option ℤ :=
  let (neg, ds) := scanInteger s
  let v : ℤ := if neg then -(digitsValue ds : ℤ) else digitsValue ds
  if ds = [] then none
  else if v < -2 ^ 63 ∨ 2 ^ 63 ≤ v then none
  else some v

theorem toNat_digitByte {d : ℕ} (h : d < 10) : (digitByte d).toNat = 48 + d := by
  unfold digitByte
  rw [UInt8.toNat_ofNat', Nat.mod_eq_of_lt (by omega)]

theorem isDigit_digitByte {d : ℕ} (h : d < 10) : isDigit (digitByte d) = true := by
  interval_cases d <;> decide

theorem isDigit_of_mem_decimal {n : ℕ} : ∀ b ∈ decimal n, isDigit b = true := by
  intro b hb
  unfold decimal at hb
  split at hb
  · rw [List.mem_singleton] at hb
    subst hb
    decide
  · obtain ⟨d, hd, rfl⟩ := List.mem_map.1 hb
    exact isDigit_digitByte (Nat.digits_lt_base (by norm_num) (List.mem_reverse.1 hd))

theorem decimal_ne_nil (n : ℕ) : decimal n ≠ [] := by
  unfold decimal
  split
  · simp
  · rename_i h
    simpa [Nat.digits_ne_nil_iff_ne_zero] using h

theorem foldl_digits (ds : List ℕ) (h : ∀ d ∈ ds, d < 10) :
    digitsValue (ds.reverse.map digitByte) = Nat.ofDigits 10 ds := by
  induction ds with
  | nil => rfl
  | cons d ds ih =>
    have hd := h d List.mem_cons_self
    have ih' := ih fun x hx => h x (List.mem_cons_of_mem _ hx)
    unfold digitsValue at ih' ⊢
    rw [List.reverse_cons, List.map_append, List.foldl_append, ih', Nat.ofDigits_cons]
    simp only [List.map_cons, List.map_nil, List.foldl_cons, List.foldl_nil, toNat_digitByte hd]
    omega

theorem digitsValue_decimal (n : ℕ) : digitsValue (decimal n) = n := by
  unfold decimal
  split
  · rename_i h
    subst h
    rfl
  · rw [foldl_digits _ fun d hd => Nat.digits_lt_base (by norm_num) hd, Nat.ofDigits_digits]

theorem not_isSpace_of_isDigit {b : UInt8} (h : isDigit b = true) : isSpace b = false := by
  unfold isDigit at h
  unfold isSpace
  simp only [Bool.and_eq_true, decide_eq_true_eq] at h
  have h1 := UInt8.le_iff_toNat_le.1 h.1
  simp only [Bool.or_eq_false_iff, beq_eq_false_iff_ne, ne_eq, Bool.and_eq_false_iff,
    decide_eq_false_iff_not, UInt8.not_le]
  refine ⟨fun hb => by subst hb; exact absurd h1 (by decide), Or.inr (UInt8.lt_iff_toNat_lt.2 ?_)⟩
  have : (48 : UInt8).toNat = 48 := rfl
  have : (13 : UInt8).toNat = 13 := rfl
  omega

theorem ne_sign_of_isDigit {b : UInt8} (h : isDigit b = true) : b ≠ 45 ∧ b ≠ 43 := by
  constructor <;> rintro rfl <;> exact absurd h (by decide)

/-- A run of digits is scanned whole. -/
theorem scanInteger_digits {ds : Bytes} (h : ∀ b ∈ ds, isDigit b = true) :
    scanInteger ds = (false, ds) := by
  unfold scanInteger
  have hw : ds.dropWhile isSpace = ds := by
    cases ds with
    | nil => rfl
    | cons b ds =>
      rw [List.dropWhile_cons_of_neg]
      simp [not_isSpace_of_isDigit (h b List.mem_cons_self)]
  have ht : ds.takeWhile isDigit = ds := List.takeWhile_eq_self_iff.2 h
  rw [hw]
  cases ds with
  | nil => rfl
  | cons b ds =>
    obtain ⟨h1, h2⟩ := ne_sign_of_isDigit (h b List.mem_cons_self)
    split
    · rename_i heq; exact absurd (List.cons.inj heq).1 h1
    · rename_i heq; exact absurd (List.cons.inj heq).1 h2
    · rw [ht]

theorem scanInteger_minus {ds : Bytes} (h : ∀ b ∈ ds, isDigit b = true) :
    scanInteger (45 :: ds) = (true, ds) := by
  unfold scanInteger
  rw [List.dropWhile_cons_of_neg (by decide)]
  simp only [List.takeWhile_eq_self_iff.2 h]

/-- **`std::stoull` undoes `std::to_string`.** -/
theorem stoull_decimal {n : ℕ} (h : n < 2 ^ 64) : stoull (decimal n) = some n := by
  unfold stoull
  rw [scanInteger_digits isDigit_of_mem_decimal]
  simp only [digitsValue_decimal, decimal_ne_nil, if_false]
  rw [if_neg (by omega)]
  rfl

/-- **`std::stoll` undoes `std::to_string`** on 64-bit integers. -/
theorem stoll_decimalInt {i : ℤ} (h1 : -2 ^ 63 ≤ i) (h2 : i < 2 ^ 63) :
    stoll (decimalInt i) = some i := by
  have hd := isDigit_of_mem_decimal (n := i.natAbs)
  unfold stoll decimalInt
  by_cases hneg : i < 0
  · rw [if_pos hneg, scanInteger_minus hd]
    simp only [digitsValue_decimal, decimal_ne_nil, if_false, if_true]
    rw [show (-(i.natAbs : ℤ)) = i by omega, if_neg (by omega)]
  · rw [if_neg hneg, scanInteger_digits hd]
    simp only [digitsValue_decimal, decimal_ne_nil, if_false, Bool.false_eq_true]
    rw [show ((i.natAbs : ℤ)) = i by omega, if_neg (by omega)]

/-- A string that starts with neither a blank, a sign nor a digit has no value. -/
theorem stoull_eq_none {b : UInt8} {s : Bytes} (h1 : isSpace b = false) (h2 : isDigit b = false)
    (h3 : b ≠ 45) (h4 : b ≠ 43) : stoull (b :: s) = none := by
  have hs : scanInteger (b :: s) = (false, []) := by
    unfold scanInteger
    rw [List.dropWhile_cons_of_neg (by simp [h1])]
    split
    · rename_i heq; exact absurd (List.cons.inj heq).1 h3
    · rename_i heq; exact absurd (List.cons.inj heq).1 h4
    · rw [List.takeWhile_cons_of_neg (by simp [h2])]
  unfold stoull
  rw [hs]
  rfl

/-! ## Lines -/

/-- The newline byte. -/
def newline : UInt8 := 10

/-- What a loop of `std::getline` yields: the newline-terminated lines, and an
unterminated rest if it is not empty. -/
def getlines : Bytes → List Bytes
  | [] => []
  | c :: cs =>
    if c = newline then [] :: getlines cs
    else match getlines cs with
      | [] => [[c]]
      | l :: ls => (c :: l) :: ls

/-- Each line followed by a newline. -/
def unlines (ls : List Bytes) : Bytes := ls.flatMap (· ++ [newline])

@[simp] theorem unlines_nil : unlines [] = [] := rfl

theorem unlines_cons (l : Bytes) (ls : List Bytes) :
    unlines (l :: ls) = l ++ newline :: unlines ls := by
  simp [unlines]

theorem unlines_append (ls ls' : List Bytes) : unlines (ls ++ ls') = unlines ls ++ unlines ls' := by
  simp [unlines]

theorem getlines_line {l rest : Bytes} (h : newline ∉ l) :
    getlines (l ++ newline :: rest) = l :: getlines rest := by
  induction l with
  | nil => simp [getlines]
  | cons c l ih =>
    have hc : c ≠ newline := fun e => h (by simp [e])
    rw [List.cons_append, getlines, if_neg hc, ih fun hm => h (List.mem_cons_of_mem _ hm)]

/-- An unterminated rest is a line of its own unless it is empty. -/
theorem getlines_rest {l : Bytes} (h : newline ∉ l) :
    getlines l = if l = [] then [] else [l] := by
  induction l with
  | nil => rfl
  | cons c l ih =>
    have hc : c ≠ newline := fun e => h (by simp [e])
    rw [getlines, if_neg hc, ih fun hm => h (List.mem_cons_of_mem _ hm)]
    by_cases hl : l = [] <;> simp [hl]

/-- **`getline` undoes writing lines.** -/
theorem getlines_unlines_append {ls : List Bytes} (h : ∀ l ∈ ls, newline ∉ l) (rest : Bytes) :
    getlines (unlines ls ++ rest) = ls ++ getlines rest := by
  induction ls with
  | nil => rfl
  | cons l ls ih =>
    rw [unlines_cons, List.append_assoc, List.cons_append,
      getlines_line (h l List.mem_cons_self), ih fun l hl => h l (List.mem_cons_of_mem _ hl)]
    rfl

theorem getlines_unlines {ls : List Bytes} (h : ∀ l ∈ ls, newline ∉ l) :
    getlines (unlines ls) = ls := by
  simpa [getlines] using getlines_unlines_append h []

/-- No line holds a newline. -/
theorem newline_notMem_of_mem_getlines {s : Bytes} : ∀ l ∈ getlines s, newline ∉ l := by
  induction s with
  | nil => simp [getlines]
  | cons c cs ih =>
    unfold getlines
    split
    · rintro l (_ | ⟨_, hl⟩)
      · simp
      · exact ih l hl
    · rename_i hc
      split
      · rintro l hl
        rw [List.mem_singleton] at hl
        subst hl
        simpa using Ne.symm hc
      · rename_i l' ls heq
        rw [heq] at ih
        rintro l (_ | ⟨_, hl⟩)
        · rw [List.mem_cons, not_or]
          exact ⟨Ne.symm hc, ih l' List.mem_cons_self⟩
        · exact ih l (List.mem_cons_of_mem _ hl)

end LsmTree.Base
