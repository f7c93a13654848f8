/-
  ServLang.Text.Decimal — integers in decimal: an optional `-` and digits, read for
  their value however many there are, and written with the fewest. `Denotes` says which
  number a literal stands for by the places of its digits; `int64?` keeps a value that
  fits 64 bits.

  Proved: reading a literal gives the number that it stands for, if it has one; what is
  written for an integer stands for it, and a 64-bit value reads back.
-/

namespace ServLang.Decimal

def value : List Char → Int
  | '-' :: digits => -(Nat.ofDigitChars 10 digits 0 : Int)
  | digits => Nat.ofDigitChars 10 digits 0

def write (v : Int) : List Char :=
  if v < 0 then '-' :: Nat.toDigits 10 v.natAbs else Nat.toDigits 10 v.natAbs

/-- A literal's value, if it is one of the 64-bit integers. -/
def int64? (literal : List Char) : Option Int64 :=
  let v := value literal
  if Int64.minValue.toInt ≤ v ∧ v ≤ Int64.maxValue.toInt then some (Int64.ofInt v) else none

/-! ## Numbers -/

def digit (c : Char) : Nat := c.toNat - '0'.toNat

/-- Each digit counts for a power of ten, by the number of digits behind it. -/
def worth : List Char → Nat
  | [] => 0
  | c :: cs => digit c * Nat.pow 10 cs.length + worth cs

/-- The number that a literal stands for. -/
inductive Denotes : List Char → Int → Prop
  | plain {digits : List Char} : digits ≠ [] → digits.all Char.isDigit = true → Denotes digits (worth digits)
  | negative {digits : List Char} : digits ≠ [] → digits.all Char.isDigit = true →
      Denotes ('-' :: digits) (-(worth digits))

/-- Horner's rule against the places of the digits. -/
theorem ofDigitChars_eq (digits : List Char) (n : Nat) :
    Nat.ofDigitChars 10 digits n = n * Nat.pow 10 digits.length + worth digits := by
  induction digits generalizing n with
  | nil => simp [worth]
  | cons c cs ih =>
    have place : Nat.pow 10 (cs.length + 1) = Nat.pow 10 cs.length * 10 := rfl
    rw [Nat.ofDigitChars_cons, ih, List.length_cons, place, worth, digit, Nat.add_mul, Nat.mul_comm 10 n,
      Nat.mul_assoc n, Nat.mul_comm 10, Nat.add_assoc]

theorem ofDigitChars_zero (digits : List Char) : Nat.ofDigitChars 10 digits 0 = worth digits := by
  rw [ofDigitChars_eq, Nat.zero_mul, Nat.zero_add]

theorem value_of_plain {literal : List Char} (h : ∀ digits, literal = '-' :: digits → False) :
    value literal = Nat.ofDigitChars 10 literal 0 := by
  unfold value
  split
  · next digits => exact absurd rfl (h digits)
  · rfl

/-- Reading a literal gives the number that it stands for. -/
theorem Denotes.value_eq {literal : List Char} {n : Int} (h : Denotes literal n) : value literal = n := by
  cases h with
  | @plain digits hne hd =>
    rw [value_of_plain, ofDigitChars_zero]
    rintro rest rfl
    rw [List.all_cons, Bool.and_eq_true] at hd
    exact absurd hd.1 (by decide)
  | @negative digits hne hd =>
    show -(Nat.ofDigitChars 10 digits 0 : Int) = _
    rw [ofDigitChars_zero]

theorem denotes_write (v : Int) : Denotes (write v) v := by
  have hne : Nat.toDigits 10 v.natAbs ≠ [] := Nat.toDigits_ne_nil
  have hd : (Nat.toDigits 10 v.natAbs).all Char.isDigit = true :=
    List.all_eq_true.2 fun c hc => Nat.isDigit_of_mem_toDigits (by decide) (by decide) hc
  have size : (worth (Nat.toDigits 10 v.natAbs) : Int) = v.natAbs := by
    rw [← ofDigitChars_zero, Nat.ofDigitChars_ten_toDigits]
  unfold write
  split
  · have negative := Denotes.negative hne hd
    rwa [size, show -(v.natAbs : Int) = v by omega] at negative
  · have plain := Denotes.plain hne hd
    rwa [size, show (v.natAbs : Int) = v by omega] at plain

/-! ## Numbers in 64 bits -/

def InReach (n : Int) : Prop := -9223372036854775808 ≤ n ∧ n ≤ 9223372036854775807

instance (n : Int) : Decidable (InReach n) := inferInstanceAs (Decidable (_ ∧ _))

def fit? (n : Int) : Option Int64 := if InReach n then some (Int64.ofInt n) else none

theorem int64?_eq (literal : List Char) : int64? literal = fit? (value literal) := rfl

theorem inReach_toInt (v : Int64) : InReach v.toInt := ⟨v.minValue_le_toInt, v.toInt_le⟩

/-- Within reach nothing is lost. -/
theorem fit?_eq_some_iff {n : Int} {v : Int64} : fit? n = some v ↔ v.toInt = n := by
  unfold fit?
  split
  · next h =>
    have exact : (Int64.ofInt n).toInt = n := Int64.toInt_ofInt_of_le h.1 (Int.lt_of_le_of_lt h.2 (by decide))
    rw [Option.some.injEq]
    constructor
    · rintro rfl
      exact exact
    · rintro rfl
      exact Int64.ofInt_toInt v
  · next h =>
    refine ⟨nofun, fun hv => absurd ?_ h⟩
    rw [← hv]
    exact inReach_toInt v

theorem fit?_eq_none_iff {n : Int} : fit? n = none ↔ ¬ InReach n := by
  unfold fit?
  split <;> simp_all

theorem exists_fit?_iff {n : Int} : (∃ v, fit? n = some v) ↔ InReach n := by
  rw [← Option.isSome_iff_exists, ← Option.ne_none_iff_isSome, Ne, fit?_eq_none_iff, Decidable.not_not]

theorem Denotes.int64?_eq {literal : List Char} {n : Int} (h : Denotes literal n) : int64? literal = fit? n := by
  rw [Decimal.int64?_eq, h.value_eq]

theorem Denotes.int64?_eq_some_iff {literal : List Char} {n : Int} (h : Denotes literal n) {v : Int64} :
    int64? literal = some v ↔ v.toInt = n := by
  rw [h.int64?_eq, fit?_eq_some_iff]

/-- What is written for a 64-bit value reads back. -/
theorem int64?_write (v : Int64) : int64? (write v.toInt) = some v := (denotes_write v.toInt).int64?_eq_some_iff.2 rfl

end ServLang.Decimal
