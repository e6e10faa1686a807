import Mathlib.Algebra.Order.Field.Basic
import Mathlib.Data.List.Forall2
import Mathlib.Data.List.Induction
import Mathlib.Data.List.TakeWhile
import Mathlib.Data.Nat.Digits.Defs
import Mathlib.Data.Rat.Cast.Order
import Mathlib.Tactic.Linarith
import Mathlib.Tactic.Positivity
import ServoScript.Number

/-!
# What number words denote

A numeral is a sequence of digits, and its number is the positional one in its base (`Numeral`). A
decimal denotes a rational number, by digits on both sides of at most one point and a sign
(`Denotes`). Reading a word is exact for any number of digits (`read_exact`): nothing is rounded,
and the bounds hold of the number and not of its integer part.

For decimals, `Decimal.Spelled` stands between the text and the parts that reading takes it into
(`Decimal.denotes_iff`). Digits are collected in 64 bits: a value that outgrew them was never going
to be small again, neither before a point (`Decimal.outOfRange_of_integerPart?_eq_none`) nor in a
hexadecimal number (`readHexDigits_append`).
-/

namespace ServoScript.Number

open Text (hexValue? decimalValue)

/-! ## Digits -/

/-- The character is the digit of a value in a base up to 16. -/
def IsDigit (base : Nat) (c : Char) (d : Nat) : Prop :=
  d < base ∧
    ("0123456789abcdef".toList[d]? = some c ∨ "0123456789ABCDEF".toList[d]? = some c)

instance (base : Nat) (c : Char) (d : Nat) : Decidable (IsDigit base c d) :=
  inferInstanceAs (Decidable (_ ∧ _))

/-- The characters are digits of a base, the most significant first, and stand for a number. -/
def Numeral (base : Nat) (cs : List Char) (n : Nat) : Prop :=
  ∃ ds, List.Forall₂ (IsDigit base) cs ds ∧ n = Nat.ofDigits base ds.reverse

theorem toNat_lt_of_hexValue? {c : Char} {d : Nat} (h : hexValue? c = some d) : c.toNat < 103 := by
  have hle : ∀ {b : Char}, c ≤ b → b.toNat < 103 → c.toNat < 103 := Nat.lt_of_le_of_lt
  unfold hexValue? at h
  split at h
  · rename_i hc
    exact hle hc.2 (by decide)
  · split at h
    · rename_i hc
      exact hle hc.2 (by decide)
    · split at h
      · rename_i hc
        exact hle hc.2 (by decide)
      · cases h

/-- What is said of every digit can be checked one character after the other. -/
theorem of_hexValue? (P : Char → Nat → Prop)
    (h : ∀ n < 103, ∀ d ∈ hexValue? (Char.ofNat n), P (Char.ofNat n) d) {c : Char} {d : Nat}
    (hc : hexValue? c = some d) : P c d := by
  have hofNat := h c.toNat (toNat_lt_of_hexValue? hc)
  rw [Char.ofNat_toNat] at hofNat
  exact hofNat d hc

theorem hexValue?_eq_some_iff {c : Char} {d : Nat} : hexValue? c = some d ↔ IsDigit 16 c d := by
  constructor
  · exact of_hexValue? (IsDigit 16) (by decide +kernel)
  · rintro ⟨hd, hc⟩
    have hall : ∀ d < 16, "0123456789abcdef".toList[d]?.bind hexValue? = some d ∧
        "0123456789ABCDEF".toList[d]?.bind hexValue? = some d := by
      decide +kernel
    obtain ⟨hlower, hupper⟩ := hall d hd
    rcases hc with hc | hc
    · rwa [hc, Option.bind_some] at hlower
    · rwa [hc, Option.bind_some] at hupper

theorem isDigit_ten_iff {c : Char} {d : Nat} :
    IsDigit 10 c d ↔ c.isDigit = true ∧ c.toNat - '0'.toNat = d := by
  have hten : IsDigit 10 c d ↔ d < 10 ∧ hexValue? c = some d := by
    rw [hexValue?_eq_some_iff, IsDigit, IsDigit]
    constructor
    · rintro ⟨hd, hc⟩
      exact ⟨hd, by omega, hc⟩
    · rintro ⟨hd, -, hc⟩
      exact ⟨hd, hc⟩
  rw [hten]
  constructor
  · rintro ⟨hd, hc⟩
    exact of_hexValue? (fun c d => d < 10 → c.isDigit = true ∧ c.toNat - '0'.toNat = d)
      (by decide +kernel) hc hd
  · rintro ⟨hc, rfl⟩
    have hrange : '0' ≤ c ∧ c ≤ '9' := by simpa [Char.isDigit, Char.le_def] using hc
    have hhigh : c.toNat ≤ '9'.toNat := hrange.2
    refine ⟨?_, ?_⟩
    · have : '9'.toNat = 57 := rfl
      have : '0'.toNat = 48 := rfl
      omega
    · rw [hexValue?, if_pos hrange]

/-! ## Numerals -/

theorem ofDigits_reverse (base : Nat) (ds : List Nat) :
    Nat.ofDigits base ds.reverse = ds.foldl (fun n d => base * n + d) 0 := by
  rw [Nat.ofDigits_eq_foldr, List.foldr_reverse]
  simp only [Nat.cast_id, Nat.add_comm]

theorem le_foldl {α : Type} {f : Nat → α → Nat} (hf : ∀ n a, n ≤ f n a) (l : List α) (value : Nat) :
    value ≤ l.foldl f value := by
  induction l generalizing value with
  | nil => exact Nat.le_refl _
  | cons a l ih => exact Nat.le_trans (hf value a) (ih (f value a))

theorem numeral_ten_iff {cs : List Char} {n : Nat} :
    Numeral 10 cs n ↔ (∀ c ∈ cs, c.isDigit = true) ∧ n = decimalValue cs := by
  have hdigit : IsDigit 10 = fun c d => c.isDigit = true ∧ c.toNat - '0'.toNat = d := by
    funext c d
    exact propext isDigit_ten_iff
  have hvalue : Nat.ofDigits 10 (cs.map (·.toNat - '0'.toNat)).reverse = decimalValue cs := by
    rw [ofDigits_reverse, List.foldl_map, decimalValue]
  unfold Numeral
  rw [hdigit]
  constructor
  · rintro ⟨ds, hds, rfl⟩
    obtain ⟨hcs, hds⟩ := (List.forall₂_and_left _ _).mp hds
    rw [← List.forall₂_map_left_iff, List.forall₂_eq_eq_eq] at hds
    exact ⟨hcs, hds ▸ hvalue⟩
  · rintro ⟨hcs, rfl⟩
    refine ⟨_, (List.forall₂_and_left _ _).mpr ⟨hcs, ?_⟩, hvalue.symm⟩
    rw [← List.forall₂_map_left_iff, List.forall₂_eq_eq_eq]

theorem decimalValue_concat (cs : List Char) (c : Char) :
    decimalValue (cs ++ [c]) = 10 * decimalValue cs + (c.toNat - '0'.toNat) := by
  simp [decimalValue]

theorem toNat_sub_of_isDigit {c : Char} (h : c.isDigit = true) :
    c.toNat - '0'.toNat < 10 ∧ (c.toNat - '0'.toNat = 0 ↔ c = '0') := by
  obtain ⟨hlt, -⟩ := isDigit_ten_iff.mpr ⟨h, rfl⟩
  have hlow : '0'.toNat ≤ c.toNat := by
    simp only [Char.isDigit, Bool.and_eq_true, decide_eq_true_eq] at h
    exact h.1
  refine ⟨hlt, fun hzero => ?_, fun hc => by rw [hc, Nat.sub_self]⟩
  have heq : c.toNat = '0'.toNat := by omega
  rw [← Char.ofNat_toNat c, heq]
  rfl

theorem decimalValue_lt {cs : List Char} (h : ∀ c ∈ cs, c.isDigit = true) :
    decimalValue cs < 10 ^ cs.length := by
  induction cs using List.reverseRecOn with
  | nil => decide
  | append_singleton cs c ih =>
    rw [List.forall_mem_append, List.forall_mem_singleton] at h
    have hcs := ih h.1
    obtain ⟨hc, -⟩ := toNat_sub_of_isDigit h.2
    rw [decimalValue_concat, List.length_append, List.length_singleton, Nat.pow_succ]
    omega

theorem decimalValue_eq_zero_iff {cs : List Char} (h : ∀ c ∈ cs, c.isDigit = true) :
    decimalValue cs = 0 ↔ ∀ c ∈ cs, c = '0' := by
  induction cs using List.reverseRecOn with
  | nil => simp [decimalValue]
  | append_singleton cs c ih =>
    rw [List.forall_mem_append, List.forall_mem_singleton] at h
    obtain ⟨-, hc⟩ := toNat_sub_of_isDigit h.2
    rw [decimalValue_concat, List.forall_mem_append, List.forall_mem_singleton, ← ih h.1, ← hc]
    omega

/-! ## Decimals -/

/-- Digits, perhaps around a point, and at least one of them, and the number that they stand for. -/
inductive Magnitude : List Char → ℚ → Prop
  | whole {digits : List Char} {n : Nat} : digits ≠ [] → Numeral 10 digits n → Magnitude digits n
  | point {whole fraction : List Char} {m n : Nat} : whole ++ fraction ≠ [] → Numeral 10 whole m →
      Numeral 10 fraction n → Magnitude (whole ++ '.' :: fraction) (m + n / 10 ^ fraction.length)

/-- The text is a decimal, perhaps with a minus sign, and denotes a number. -/
inductive Denotes : List Char → ℚ → Prop
  | plain {cs : List Char} {q : ℚ} : Magnitude cs q → Denotes cs q
  | minus {cs : List Char} {q : ℚ} : Magnitude cs q → Denotes ('-' :: cs) (-q)

namespace Decimal

def fractionalPart (d : Decimal) : ℚ := decimalValue d.fraction / 10 ^ d.fraction.length

def magnitude (d : Decimal) : ℚ := decimalValue d.whole + d.fractionalPart

def value (d : Decimal) : ℚ := if d.negative then -d.magnitude else d.magnitude

def sign (negative : Bool) : List Char := if negative then ['-'] else []

/-- The text is a spelling of the decimal: its parts are made of digits, there is at least one, and
the point may be left out if nothing stands after it. -/
structure Spelled (d : Decimal) (cs : List Char) : Prop where
  ne_nil : d.whole ++ d.fraction ≠ []
  digits : ∀ c ∈ d.whole ++ d.fraction, c.isDigit = true
  chars : ∃ tail, cs = sign d.negative ++ (d.whole ++ tail) ∧
    (tail = '.' :: d.fraction ∨ tail = [] ∧ d.fraction = [])

end Decimal

theorem split_append {whole tail : List Char} (hwhole : '.' ∉ whole)
    (htail : ∀ c ∈ tail.head?, c = '.') :
    (whole ++ tail).takeWhile (· ≠ '.') = whole ∧ (whole ++ tail).dropWhile (· ≠ '.') = tail := by
  have hall : ∀ c ∈ whole, decide (c ≠ '.') = true := by
    intro c hc
    rw [decide_eq_true_eq]
    rintro rfl
    exact hwhole hc
  rw [List.takeWhile_append_of_pos hall, List.dropWhile_append_of_pos hall]
  cases tail with
  | nil => simp
  | cons c tail => simp [htail c rfl]

theorem splitSign_cases (cs : List Char) :
    (∃ rest, cs = '-' :: rest ∧ splitSign cs = (true, rest)) ∨
      (∀ rest, cs ≠ '-' :: rest) ∧ splitSign cs = (false, cs) := by
  unfold splitSign
  split
  · exact .inl ⟨_, rfl, rfl⟩
  · rename_i hsign
    exact .inr ⟨hsign, rfl⟩

theorem sign_append_splitSign (cs : List Char) :
    Decimal.sign (splitSign cs).1 ++ (splitSign cs).2 = cs := by
  rcases splitSign_cases cs with ⟨rest, rfl, hsplit⟩ | ⟨-, hsplit⟩
  · rw [hsplit]
    rfl
  · rw [hsplit]
    rfl

theorem splitSign_sign_append (negative : Bool) {body : List Char}
    (h : ∀ rest, body ≠ '-' :: rest) :
    splitSign (Decimal.sign negative ++ body) = (negative, body) := by
  cases negative with
  | true => rfl
  | false =>
    rcases splitSign_cases body with ⟨rest, hbody, -⟩ | ⟨-, hsplit⟩
    · exact absurd hbody (h rest)
    · exact hsplit

namespace Decimal

variable {d : Decimal} {cs : List Char}

theorem spelled_of_ofChars? (h : ofChars? cs = some d) : d.Spelled cs := by
  have hcs := sign_append_splitSign cs
  simp only [ofChars?] at h
  split at h
  · cases h
  · rename_i hdigits
    cases h
    simp only [Bool.or_eq_true, List.isEmpty_iff, Bool.not_eq_true', not_or,
      Bool.not_eq_false, List.all_eq_true] at hdigits
    refine ⟨hdigits.1, hdigits.2, (splitSign cs).2.dropWhile (· ≠ '.'), ?_, ?_⟩
    · rw [List.takeWhile_append_dropWhile, hcs]
    · have hpoint := List.head?_dropWhile_not (· ≠ '.') (splitSign cs).2
      cases hdrop : (splitSign cs).2.dropWhile (· ≠ '.') with
      | nil => exact .inr ⟨rfl, rfl⟩
      | cons c fraction =>
        rw [hdrop] at hpoint
        have hc : c = '.' := by simpa using hpoint
        exact .inl (by rw [hc, List.tail_cons])

theorem Spelled.whole (h : d.Spelled cs) : ∀ c ∈ d.whole, c.isDigit = true :=
  (List.forall_mem_append.mp h.digits).1

theorem Spelled.fraction (h : d.Spelled cs) : ∀ c ∈ d.fraction, c.isDigit = true :=
  (List.forall_mem_append.mp h.digits).2

theorem Spelled.ofChars? (h : d.Spelled cs) : ofChars? cs = some d := by
  have hgood : ((d.whole ++ d.fraction).isEmpty || !(d.whole ++ d.fraction).all Char.isDigit) =
      false := by
    rw [Bool.or_eq_false_iff, Bool.not_eq_false', List.all_eq_true, List.isEmpty_eq_false_iff]
    exact ⟨h.ne_nil, h.digits⟩
  -- so the first point is the one that divides the parts, and the first minus sign is the sign
  have hnotMem : ∀ {c : Char}, c.isDigit = false → c ∉ d.whole := by
    intro c hc hmem
    rw [h.whole c hmem] at hc
    cases hc
  obtain ⟨tail, rfl, htail⟩ := h.chars
  have htail' : tail.tail = d.fraction ∧ ∀ c ∈ tail.head?, c = '.' := by
    rcases htail with rfl | ⟨rfl, hnil⟩
    · simp
    · simp [hnil]
  obtain ⟨hfraction, hhead⟩ := htail'
  have hminus : ∀ rest, d.whole ++ tail ≠ '-' :: rest := by
    intro rest heq
    rcases List.append_eq_cons_iff.mp heq with ⟨-, rfl⟩ | ⟨whole, hwhole, -⟩
    · exact absurd (hhead '-' rfl) (by decide)
    · exact hnotMem (by decide) (hwhole ▸ List.mem_cons_self)
  obtain ⟨htake, hdrop⟩ := split_append (hnotMem (by decide)) hhead
  simp only [Decimal.ofChars?, splitSign_sign_append d.negative hminus, htake, hdrop, hfraction,
    hgood]
  rfl

theorem Spelled.exists_magnitude (h : d.Spelled cs) :
    ∃ body, cs = sign d.negative ++ body ∧ Magnitude body d.magnitude := by
  have hwhole := numeral_ten_iff.mpr ⟨h.whole, rfl⟩
  have hfraction := numeral_ten_iff.mpr ⟨h.fraction, rfl⟩
  obtain ⟨tail, hcs, rfl | ⟨rfl, hnil⟩⟩ := h.chars
  · exact ⟨_, hcs, .point h.ne_nil hwhole hfraction⟩
  · have hne := h.ne_nil
    rw [hnil, List.append_nil] at hne
    have hmagnitude : d.magnitude = decimalValue d.whole := by
      rw [magnitude, fractionalPart, hnil]
      simp [decimalValue]
    rw [List.append_nil] at hcs
    exact ⟨_, hcs, hmagnitude ▸ .whole hne hwhole⟩

theorem Spelled.denotes (h : d.Spelled cs) : Denotes cs d.value := by
  obtain ⟨body, hcs, hbody⟩ := h.exists_magnitude
  unfold value
  rw [hcs]
  cases d.negative with
  | true => exact .minus hbody
  | false => exact .plain hbody

theorem exists_spelled {q : ℚ} (h : Magnitude cs q) (negative : Bool) :
    ∃ d : Decimal, d.negative = negative ∧ d.Spelled (sign negative ++ cs) ∧ d.magnitude = q := by
  cases h with
  | @whole _ n hne hn =>
    obtain ⟨hdigits, rfl⟩ := numeral_ten_iff.mp hn
    refine ⟨⟨negative, cs, []⟩, rfl, ⟨?_, ?_, [], ?_, .inr ⟨rfl, rfl⟩⟩, ?_⟩
    · rwa [List.append_nil]
    · rwa [List.append_nil]
    · rw [List.append_nil]
    · simp [magnitude, fractionalPart, decimalValue]
  | @point whole fraction m n hne hm hn =>
    obtain ⟨hwhole, rfl⟩ := numeral_ten_iff.mp hm
    obtain ⟨hfraction, rfl⟩ := numeral_ten_iff.mp hn
    exact ⟨⟨negative, whole, fraction⟩, rfl,
      ⟨hne, List.forall_mem_append.mpr ⟨hwhole, hfraction⟩, _, rfl, .inl rfl⟩, rfl⟩

/-- The decimals that are read are those that denote a number, and denote their value. -/
theorem denotes_iff {q : ℚ} : Denotes cs q ↔ ∃ d, ofChars? cs = some d ∧ d.value = q := by
  constructor
  · intro h
    cases h with
    | plain h =>
      obtain ⟨d, hsign, hspelled, rfl⟩ := exists_spelled h false
      exact ⟨d, hspelled.ofChars?, by rw [value, hsign]; rfl⟩
    | minus h =>
      obtain ⟨d, hsign, hspelled, rfl⟩ := exists_spelled h true
      exact ⟨d, hspelled.ofChars?, by rw [value, hsign]; rfl⟩
  · rintro ⟨d, hd, rfl⟩
    exact (spelled_of_ofChars? hd).denotes

/-! ## Bounds -/

theorem Spelled.fractionalPart_mem (h : d.Spelled cs) :
    0 ≤ d.fractionalPart ∧ d.fractionalPart < 1 := by
  have hpow : (0 : ℚ) < 10 ^ d.fraction.length := by positivity
  have hlt : (decimalValue d.fraction : ℚ) < 10 ^ d.fraction.length := by
    exact_mod_cast decimalValue_lt h.fraction
  exact ⟨by unfold fractionalPart; positivity, (div_lt_one hpow).mpr hlt⟩

theorem Spelled.hasFraction_iff (h : d.Spelled cs) :
    d.hasFraction = true ↔ 0 < d.fractionalPart := by
  have hpow : (0 : ℚ) < 10 ^ d.fraction.length := by positivity
  have hzero := decimalValue_eq_zero_iff h.fraction
  rw [fractionalPart, div_pos_iff_of_pos_right hpow, Nat.cast_pos, Nat.pos_iff_ne_zero, ne_eq,
    hzero, hasFraction, List.any_eq_true]
  simp

/-- The integer before the point, of any size. -/
def integerPart (d : Decimal) : Int :=
  if d.negative then -(decimalValue d.whole : Int) else decimalValue d.whole

theorem readWholeDigits?_eq (cs : List Char) {value : Nat} (hvalue : value < wholeCapacity) :
    readWholeDigits? value cs =
      if wholeCapacity ≤ cs.foldl (fun n c => 10 * n + (c.toNat - '0'.toNat)) value then none
      else some (cs.foldl (fun n c => 10 * n + (c.toNat - '0'.toNat)) value) := by
  induction cs generalizing value with
  | nil => rw [List.foldl_nil, if_neg (Nat.not_le.mpr hvalue), readWholeDigits?]
  | cons c cs ih =>
    rw [List.foldl_cons, readWholeDigits?]
    by_cases hnext : wholeCapacity ≤ 10 * value + (c.toNat - '0'.toNat)
    · rw [if_pos hnext, if_pos (Nat.le_trans hnext (le_foldl (fun n c => by omega) cs _))]
    · rw [if_neg hnext, ih (Nat.not_le.mp hnext)]

theorem integerPart?_eq (d : Decimal) : d.integerPart? =
    if wholeCapacity ≤ decimalValue d.whole then none else some d.integerPart := by
  have hread : readWholeDigits? 0 d.whole =
      if wholeCapacity ≤ decimalValue d.whole then none else some (decimalValue d.whole) :=
    readWholeDigits?_eq d.whole (by decide)
  rw [integerPart?, hread]
  by_cases hlarge : wholeCapacity ≤ decimalValue d.whole
  · rw [if_pos hlarge, if_pos hlarge]
    rfl
  · rw [if_neg hlarge, if_neg hlarge]
    rfl

/-- The largest magnitude with a word of its own. -/
def bound (d : Decimal) : Nat := if d.negative then 32768 else 32767

theorem magnitude_nonneg (d : Decimal) : 0 ≤ d.magnitude := by
  unfold magnitude fractionalPart
  positivity

theorem value_out_iff (d : Decimal) :
    d.value < -32768 ∨ 32767 < d.value ↔ (d.bound : ℚ) < d.magnitude := by
  have hnonneg := d.magnitude_nonneg
  unfold value bound
  cases d.negative with
  | true =>
    simp only [if_true, Nat.cast_ofNat]
    constructor
    · rintro (h | h) <;> linarith
    · intro h
      exact .inl (by linarith)
  | false =>
    simp only [Bool.false_eq_true, if_false, Nat.cast_ofNat]
    constructor
    · rintro (h | h) <;> linarith
    · exact .inr

/-- Beyond the bound is what has a larger whole part, or the bound itself and a fraction. -/
theorem Spelled.bound_lt_iff (h : d.Spelled cs) : (d.bound : ℚ) < d.magnitude ↔
    d.bound < decimalValue d.whole ∨ d.bound = decimalValue d.whole ∧ d.hasFraction = true := by
  obtain ⟨hlow, hhigh⟩ := h.fractionalPart_mem
  rw [h.hasFraction_iff, magnitude]
  rcases Nat.lt_trichotomy d.bound (decimalValue d.whole) with hlt | heq | hgt
  · have hcast : (d.bound : ℚ) < decimalValue d.whole := by exact_mod_cast hlt
    simp only [hlt, true_or, iff_true]
    linarith
  · simp [heq]
  · have hcast : (decimalValue d.whole : ℚ) + 1 ≤ d.bound := by exact_mod_cast hgt
    have hnot : ¬ d.bound < decimalValue d.whole := by omega
    have hne : d.bound ≠ decimalValue d.whole := by omega
    simp only [hnot, hne, false_and, or_false, iff_false, not_lt]
    linarith

theorem outOfRange_iff (d : Decimal) : d.outOfRange d.integerPart = true ↔
    d.bound < decimalValue d.whole ∨ d.bound = decimalValue d.whole ∧ d.hasFraction = true := by
  unfold outOfRange integerPart bound
  cases d.negative with
  | true =>
    simp only [if_true, Bool.or_eq_true, decide_eq_true_eq, Bool.and_eq_true, beq_iff_eq]
    constructor
    · rintro ((h | h) | ⟨hf, h⟩)
      · exact .inl (by omega)
      · omega
      · exact .inr ⟨by omega, hf⟩
    · rintro (h | ⟨h, hf⟩)
      · exact .inl (.inl (by omega))
      · exact .inr ⟨hf, by omega⟩
  | false =>
    simp only [Bool.false_eq_true, if_false, Bool.or_eq_true, decide_eq_true_eq, Bool.and_eq_true,
      beq_iff_eq]
    constructor
    · rintro ((h | h) | ⟨hf, h⟩)
      · omega
      · exact .inl (by omega)
      · exact .inr ⟨by omega, hf⟩
    · rintro (h | ⟨h, hf⟩)
      · exact .inl (.inr (by omega))
      · exact .inr ⟨hf, by omega⟩

/-- **Overflow.** A decimal whose integer part outgrows its capacity is out of range. -/
theorem outOfRange_of_integerPart?_eq_none (h : d.integerPart? = none) :
    d.outOfRange d.integerPart = true := by
  have hlarge : wholeCapacity ≤ decimalValue d.whole := by
    rw [integerPart?_eq] at h
    split at h
    · assumption
    · cases h
  have hbound : d.bound ≤ 32768 := by
    unfold bound
    split <;> decide
  have hcapacity : 32768 < wholeCapacity := by decide
  exact d.outOfRange_iff.mpr (.inl (by omega))

theorem readDecimal_of_ofChars? (text : String) (h : ofChars? cs = some d) :
    readDecimal text cs =
      if d.outOfRange d.integerPart then .error (.outOfRange text (-32768) 32767)
      else if d.hasFraction then .error (.notAnInteger text)
      else .ok (UInt16.ofInt d.integerPart) := by
  cases hpart : d.integerPart? with
  | none =>
    simp only [readDecimal, h, hpart, outOfRange_of_integerPart?_eq_none hpart]
    rfl
  | some n =>
    have hn : n = d.integerPart := by
      rw [integerPart?_eq] at hpart
      split at hpart
      · cases hpart
      · exact (Option.some.inj hpart).symm
    simp only [readDecimal, h, hpart, hn, decimalRange]

theorem Spelled.outOfRange_iff_value (h : d.Spelled cs) :
    d.outOfRange d.integerPart = true ↔ d.value < -32768 ∨ 32767 < d.value := by
  rw [outOfRange_iff, ← h.bound_lt_iff, value_out_iff]

theorem Spelled.value_eq_integerPart (h : d.Spelled cs) (hfraction : d.hasFraction = false) :
    d.value = d.integerPart := by
  have hzero : d.fractionalPart = 0 := by
    obtain ⟨hlow, -⟩ := h.fractionalPart_mem
    have hnot : ¬ 0 < d.fractionalPart := by
      rw [← h.hasFraction_iff, hfraction]
      exact Bool.false_ne_true
    linarith
  unfold value integerPart
  rw [magnitude, hzero, add_zero]
  cases d.negative with
  | true => simp
  | false => simp

theorem Spelled.value_ne_intCast (h : d.Spelled cs) (hfraction : d.hasFraction = true) (z : ℤ) :
    d.value ≠ z := by
  obtain ⟨-, hhigh⟩ := h.fractionalPart_mem
  have hlow := h.hasFraction_iff.mp hfraction
  have hbetween : ∀ y : ℤ, d.magnitude ≠ y := by
    intro y hy
    rw [magnitude] at hy
    have hlt : ((decimalValue d.whole : ℤ) : ℚ) < y := by
      rw [Int.cast_natCast]
      linarith
    have hlt' : (y : ℚ) < ((decimalValue d.whole + 1 : ℤ) : ℚ) := by
      push_cast
      linarith
    rw [Int.cast_lt] at hlt hlt'
    omega
  unfold value
  cases d.negative with
  | true =>
    intro hz
    apply hbetween (-z)
    rw [Int.cast_neg, ← hz]
    simp
  | false => exact hbetween z

end Decimal

theorem toNat_ofInt (z : ℤ) : ((UInt16.ofInt z).toNat : ℤ) = z % 65536 := by
  have hlow := Int.emod_nonneg z (show (65536 : ℤ) ≠ 0 by decide)
  have hhigh := Int.emod_lt_of_pos z (show (0 : ℤ) < 65536 by decide)
  have hofNat : UInt16.ofInt z = UInt16.ofNat (z % 65536).toNat := rfl
  rw [hofNat, UInt16.toNat_ofNat']
  omega

/-! ## Hexadecimal numbers -/

theorem hexBody?_eq_some_iff {cs rest : List Char} :
    hexBody? cs = some rest ↔ cs = '0' :: 'x' :: rest ∨ cs = '0' :: 'X' :: rest := by
  constructor
  · intro h
    unfold hexBody? at h
    split at h
    · cases h
      exact .inl rfl
    · cases h
      exact .inr rfl
    · cases h
  · rintro (rfl | rfl) <;> rfl

/-- Digits only ever raise the value, so their whole number tells if it outgrew its capacity. -/
theorem readHexDigits_append (text : String) {front : List Char} {ds : List Nat}
    (h : List.Forall₂ (IsDigit 16) front ds) (rest : List Char) {value : Nat}
    (hvalue : value < hexCapacity) :
    readHexDigits text value (front ++ rest) =
      if hexCapacity ≤ ds.foldl (fun n d => 16 * n + d) value then .error (hexRange text)
      else readHexDigits text (ds.foldl (fun n d => 16 * n + d) value) rest := by
  induction h generalizing value with
  | nil => rw [List.foldl_nil, if_neg (Nat.not_le.mpr hvalue), List.nil_append]
  | @cons c d front ds hc _ ih =>
    rw [List.cons_append, List.foldl_cons, readHexDigits, hexValue?_eq_some_iff.mpr hc]
    dsimp only
    by_cases hnext : hexCapacity ≤ 16 * value + d
    · rw [if_pos hnext, if_pos (Nat.le_trans hnext (le_foldl (fun n d => by omega) ds _))]
    · rw [if_neg hnext, ih (Nat.not_le.mp hnext)]

theorem Numeral.readHexDigits_append (text : String) {front : List Char} {n : Nat}
    (h : Numeral 16 front n) (rest : List Char) :
    readHexDigits text 0 (front ++ rest) =
      if hexCapacity ≤ n then .error (hexRange text) else readHexDigits text n rest := by
  obtain ⟨ds, hds, rfl⟩ := h
  rw [ofDigits_reverse]
  exact Number.readHexDigits_append text hds rest (by decide)

/-- A character that is no hexadecimal digit stands after the digits of a number. -/
def StopsAfter (cs : List Char) (n : Nat) : Prop :=
  ∃ front c rest, cs = front ++ c :: rest ∧ Numeral 16 front n ∧ ∀ d, ¬ IsDigit 16 c d

theorem exists_digits (cs : List Char) : ∃ front ds rest, cs = front ++ rest ∧
    List.Forall₂ (IsDigit 16) front ds ∧ ∀ c ∈ rest.head?, ∀ d, ¬ IsDigit 16 c d := by
  induction cs with
  | nil => exact ⟨[], [], [], rfl, .nil, nofun⟩
  | cons c cs ih =>
    by_cases hc : ∃ d, IsDigit 16 c d
    · obtain ⟨d, hd⟩ := hc
      obtain ⟨front, ds, rest, rfl, hds, hrest⟩ := ih
      exact ⟨c :: front, d :: ds, rest, rfl, .cons hd hds, hrest⟩
    · refine ⟨[], [], c :: cs, rfl, .nil, fun c' hc' d hd => hc ⟨d, ?_⟩⟩
      cases hc'
      exact hd

theorem numeral_or_stopsAfter (cs : List Char) :
    (∃ n, Numeral 16 cs n) ∨ ∃ n, StopsAfter cs n := by
  obtain ⟨front, ds, rest, rfl, hds, hrest⟩ := exists_digits cs
  cases rest with
  | nil =>
    rw [List.append_nil]
    exact .inl ⟨_, ds, hds, rfl⟩
  | cons c rest => exact .inr ⟨_, front, c, rest, rfl, ⟨ds, hds, rfl⟩, hrest c rfl⟩

theorem hexCapacity_eq : hexCapacity = 2 ^ 64 := rfl

theorem StopsAfter.readHexDigits_eq (text : String) {cs : List Char} {n : Nat}
    (h : StopsAfter cs n) : readHexDigits text 0 cs =
      .error (if 2 ^ 64 ≤ n then hexRange text else .invalidNumber text) := by
  obtain ⟨front, c, rest, rfl, hfront, hc⟩ := h
  have hnone : hexValue? c = none :=
    Option.eq_none_iff_forall_ne_some.mpr fun d hd => hc d (hexValue?_eq_some_iff.mp hd)
  rw [hfront.readHexDigits_append, readHexDigits, hnone, hexCapacity_eq]
  split <;> rfl

/-- The digits may follow a plus sign. -/
def afterPlus : List Char → List Char
  | '+' :: c :: rest => c :: rest
  | cs => cs

/-- A plus sign that nothing follows is no digit either. -/
theorem readHex_eq (text : String) (body : List Char) : readHex text body =
    if afterPlus body = [] then .error (.invalidNumber text)
    else readHexDigits text 0 (afterPlus body) >>= fun value =>
      if value ≤ 65535 then .ok (UInt16.ofNat value) else .error (hexRange text) := by
  have hsame : dropPlus body = afterPlus body ∨ body = ['+'] := by
    unfold dropPlus afterPlus
    split
    · rename_i rest
      cases rest with
      | nil => exact .inr rfl
      | cons c rest => exact .inl rfl
    · rename_i hplus
      split
      · exact absurd rfl (hplus _)
      · exact .inl rfl
  rcases hsame with hsame | rfl
  · simp only [readHex, hsame, List.isEmpty_iff]
    cases readHexDigits text 0 (afterPlus body) <;> rfl
  · rfl

theorem readHex_of_numeral (text : String) {body : List Char} {n : Nat} (hne : afterPlus body ≠ [])
    (h : Numeral 16 (afterPlus body) n) : readHex text body =
      if n ≤ 65535 then .ok (UInt16.ofNat n) else .error (hexRange text) := by
  have hread := h.readHexDigits_append text []
  rw [List.append_nil] at hread
  rw [readHex_eq, if_neg hne, hread]
  by_cases hcapacity : hexCapacity ≤ n
  · have hlarge : ¬ n ≤ 65535 := Nat.not_le.mpr (Nat.lt_of_lt_of_le (by decide) hcapacity)
    rw [if_pos hcapacity, if_neg hlarge]
    rfl
  · rw [if_neg hcapacity]
    rfl

theorem readHex_of_stopsAfter (text : String) {body : List Char} {n : Nat}
    (h : StopsAfter (afterPlus body) n) : readHex text body =
      .error (if 2 ^ 64 ≤ n then hexRange text else .invalidNumber text) := by
  have hne : afterPlus body ≠ [] := by
    obtain ⟨front, c, rest, hbody, -⟩ := h
    rw [hbody]
    exact List.append_ne_nil_of_right_ne_nil _ (List.cons_ne_nil _ _)
  rw [readHex_eq, if_neg hne, h.readHexDigits_eq]
  rfl

/-! ## Every word -/

/-- How a decimal is read that denotes a number: an integer is taken modulo 65536. -/
structure DecimalVerdict (text : String) (q : ℚ) : Prop where
  outOfRange : read text = .error (.outOfRange text (-32768) 32767) ↔ q < -32768 ∨ 32767 < q
  notAnInteger : read text = .error (.notAnInteger text) ↔
    (-32768 ≤ q ∧ q ≤ 32767) ∧ ∀ z : ℤ, q ≠ z
  word : ∀ z : ℤ, q = z → -32768 ≤ z → z ≤ 32767 →
    ∃ w, read text = .ok w ∧ (w.toNat : ℤ) = z % 65536

/-- How hexadecimal digits are read, and what is taken for them. -/
structure HexVerdict (text : String) (digits : List Char) : Prop where
  word : ∀ n, digits ≠ [] → Numeral 16 digits n → n ≤ 65535 → ∃ w, read text = .ok w ∧ w.toNat = n
  outOfRange : ∀ n, digits ≠ [] → Numeral 16 digits n → 65535 < n →
    read text = .error (.outOfRange text 0 65535)
  overflow : (digits = [] ∨ ∀ n, ¬ Numeral 16 digits n) →
    (read text = .error (.outOfRange text 0 65535) ↔ ∃ n, StopsAfter digits n ∧ 2 ^ 64 ≤ n)
  invalid : (digits = [] ∨ ∀ n, ¬ Numeral 16 digits n) →
    (¬ ∃ n, StopsAfter digits n ∧ 2 ^ 64 ≤ n) → read text = .error (.invalidNumber text)

theorem Decimal.Spelled.verdict {d : Decimal} {text : String} (h : d.Spelled text.toList)
    (hread : read text = if d.outOfRange d.integerPart then .error (.outOfRange text (-32768) 32767)
      else if d.hasFraction then .error (.notAnInteger text)
      else .ok (UInt16.ofInt d.integerPart)) :
    DecimalVerdict text d.value := by
  have hrange := h.outOfRange_iff_value
  have hin : d.outOfRange d.integerPart = false ↔ -32768 ≤ d.value ∧ d.value ≤ 32767 := by
    rw [← Bool.not_eq_true, hrange, not_or, not_lt, not_lt]
  have hinteger : d.hasFraction = true ↔ ∀ z : ℤ, d.value ≠ z := by
    constructor
    · exact h.value_ne_intCast
    · intro hz
      by_contra hfraction
      exact hz _ (h.value_eq_integerPart (Bool.eq_false_of_not_eq_true hfraction))
  refine ⟨?_, ?_, ?_⟩
  · rw [hread, ← hrange]
    cases d.outOfRange d.integerPart <;> cases d.hasFraction <;> simp
  · rw [hread, ← hinteger, ← hin]
    cases d.outOfRange d.integerPart <;> cases d.hasFraction <;> simp
  · intro z hz hlow hhigh
    have hout : d.outOfRange d.integerPart = false := by
      rw [hin, hz]
      exact ⟨by exact_mod_cast hlow, by exact_mod_cast hhigh⟩
    have hfraction : d.hasFraction = false := by
      rw [← Bool.not_eq_true, hinteger]
      exact fun hne => hne z hz
    have hvalue : d.integerPart = z := by
      rw [h.value_eq_integerPart hfraction] at hz
      exact_mod_cast hz
    refine ⟨UInt16.ofInt z, ?_, toNat_ofInt z⟩
    rw [hread, hout, hfraction, hvalue]
    rfl

theorem hexVerdict {text : String} {body : List Char} (hread : read text = readHex text body) :
    HexVerdict text (afterPlus body) := by
  have hover : (∃ n, StopsAfter (afterPlus body) n ∧ 2 ^ 64 ≤ n) →
      read text = .error (.outOfRange text 0 65535) := by
    rintro ⟨n, hn, hlarge⟩
    rw [hread, readHex_of_stopsAfter text hn, if_pos hlarge]
    rfl
  have hinvalid : (afterPlus body = [] ∨ ∀ n, ¬ Numeral 16 (afterPlus body) n) →
      (¬ ∃ n, StopsAfter (afterPlus body) n ∧ 2 ^ 64 ≤ n) →
      read text = .error (.invalidNumber text) := by
    intro hnot hsmall
    rcases numeral_or_stopsAfter (afterPlus body) with ⟨n, hn⟩ | ⟨n, hn⟩
    · have hnil : afterPlus body = [] := hnot.resolve_right fun hnone => hnone n hn
      rw [hread, readHex_eq, if_pos hnil]
    · rw [hread, readHex_of_stopsAfter text hn, if_neg fun hlarge => hsmall ⟨n, hn, hlarge⟩]
  refine ⟨?_, ?_, ?_, hinvalid⟩
  · intro n hne hn hle
    refine ⟨UInt16.ofNat n, ?_, ?_⟩
    · rw [hread, readHex_of_numeral text hne hn, if_pos hle]
    · rw [UInt16.toNat_ofNat', Nat.mod_eq_of_lt (by omega)]
  · intro n hne hn hlt
    rw [hread, readHex_of_numeral text hne hn, if_neg (Nat.not_le.mpr hlt)]
    rfl
  · intro hnot
    refine ⟨fun herror => ?_, hover⟩
    by_contra hsmall
    rw [hinvalid hnot hsmall] at herror
    simp at herror

/-- Every word is read exactly, however many digits it has. A decimal that denotes no number is
invalid; one that does is out of range, or no integer, or the integer modulo 65536. Hexadecimal
digits after `0x` give their number if it has 16 bits; where they are broken off by another
character, 64 bits of digits before it are out of range, and fewer are invalid. -/
theorem read_exact (text : String) :
    ((∀ body, text.toList ≠ '0' :: 'x' :: body ∧ text.toList ≠ '0' :: 'X' :: body) →
      ((∀ q, ¬ Denotes text.toList q) → read text = .error (.invalidNumber text)) ∧
      ∀ q, Denotes text.toList q → DecimalVerdict text q) ∧
    ∀ body, text.toList = '0' :: 'x' :: body ∨ text.toList = '0' :: 'X' :: body →
      HexVerdict text (afterPlus body) := by
  refine ⟨fun hplain => ?_, fun body hbody => ?_⟩
  · have hread : read text = readDecimal text text.toList := by
      have hnone : hexBody? text.toList = none := by
        refine Option.eq_none_iff_forall_ne_some.mpr fun body hbody => ?_
        rcases hexBody?_eq_some_iff.mp hbody with h | h
        · exact (hplain body).1 h
        · exact (hplain body).2 h
      rw [read, hnone]
    refine ⟨fun hnone => ?_, fun q hq => ?_⟩
    · have hchars : Decimal.ofChars? text.toList = none := by
        refine Option.eq_none_iff_forall_ne_some.mpr fun d hd => ?_
        exact hnone d.value (Decimal.denotes_iff.mpr ⟨d, hd, rfl⟩)
      rw [hread, readDecimal, hchars]
    · obtain ⟨d, hd, rfl⟩ := Decimal.denotes_iff.mp hq
      refine (Decimal.spelled_of_ofChars? hd).verdict ?_
      rw [hread, Decimal.readDecimal_of_ofChars? text hd]
  · have hread : read text = readHex text body := by
      rw [read, hexBody?_eq_some_iff.mpr hbody]
    exact hexVerdict hread

end ServoScript.Number
