import Mathlib.Algebra.Field.ZMod
import Mathlib.RingTheory.AdjoinRoot
import ServoScript.Checksum
import ServoScript.Proofs.Codec

/-!
# The checksum is a remainder

Bits are read least significant first, and the first of them is the coefficient of the highest
power (`poly`). A register is then a polynomial of degree below 16, and stands for its residue
modulo the generator. To shift it is to multiply the residue by `X` (`residue_shift`), and all that
is known of a byte is what it does to the residue (`residue_step`). No two registers have the same
residue (`eq_of_residue_eq`), so that everything about checksums is a calculation with residues.
-/

namespace ServoScript.Checksum

open Polynomial
open AdjoinRoot (mk root mk_X mk_self mk_eq_mk)

/-! ## Polynomials of bits -/

/-- The bits of a number, least significant first. -/
def bitsOf (width n : Nat) : List Bool := (List.range width).map n.testBit

/-- The bits of a message, those of each byte least significant first. -/
def bits (message : List Byte) : List Bool := message.flatMap fun b => bitsOf 8 b.toNat

def registerBits (r : Word) : List Bool := bitsOf 16 r.toNat

/-- The polynomial of some bits; the last of them is its constant term. -/
noncomputable def poly : List Bool → (ZMod 2)[X]
  | [] => 0
  | b :: bs => (if b then X ^ bs.length else 0) + poly bs

theorem poly_append (as bs : List Bool) :
    poly (as ++ bs) = poly as * X ^ bs.length + poly bs := by
  induction as with
  | nil => simp [poly]
  | cons a as ih =>
    cases a with
    | false => simp [poly, ih]
    | true =>
      simp only [List.cons_append, poly, ih, List.length_append, pow_add, if_pos]
      ring

theorem poly_replicate_false (n : Nat) : poly (List.replicate n false) = 0 := by
  induction n with
  | zero => rfl
  | succ n ih => simp [List.replicate_succ, poly, ih]

theorem poly_map_xor (f g : Nat → Bool) (places : List Nat) :
    poly (places.map fun j => f j ^^ g j) = poly (places.map f) + poly (places.map g) := by
  have htwo : (2 : (ZMod 2)[X]) = 0 := CharTwo.two_eq_zero
  induction places with
  | nil => simp [poly]
  | cons j places ih =>
    simp only [List.map_cons, poly, List.length_map, ih]
    cases f j with
    | false => cases g j <;> simp [add_left_comm]
    | true =>
      cases g j with
      | false => simp [add_assoc]
      | true =>
        simp only [Bool.xor_self, Bool.false_eq_true, if_false, if_true]
        linear_combination (-X ^ places.length) * htwo

theorem degree_poly_lt (bs : List Bool) : (poly bs).degree < bs.length := by
  induction bs with
  | nil => simp [poly]
  | cons b bs ih =>
    have hlength : (bs.length : WithBot Nat) < (b :: bs).length := by
      rw [Nat.cast_lt, List.length_cons]
      omega
    have hfirst : (if b then X ^ bs.length else (0 : (ZMod 2)[X])).degree < (b :: bs).length := by
      cases b with
      | false => simp
      | true => simpa using hlength
    exact (degree_add_le _ _).trans_lt (max_lt hfirst (ih.trans hlength))

/-- The bits are the coefficients, from the highest power down. -/
theorem coeff_poly (bs : List Bool) (k : Nat) (hk : k < bs.length) :
    (poly bs).coeff (bs.length - 1 - k) = if bs[k] then 1 else 0 := by
  induction bs generalizing k with
  | nil => cases hk
  | cons b bs ih =>
    rw [poly, coeff_add, List.length_cons, Nat.add_sub_cancel]
    cases k with
    | zero =>
      rw [Nat.sub_zero, coeff_eq_zero_of_degree_lt (degree_poly_lt bs), add_zero]
      cases b <;> simp
    | succ k =>
      have hk' : k < bs.length := Nat.lt_of_succ_lt_succ hk
      have hindex : bs.length - (k + 1) = bs.length - 1 - k := by omega
      have hfirst : (if b then X ^ bs.length else (0 : (ZMod 2)[X])).coeff
          (bs.length - (k + 1)) = 0 := by
        cases b with
        | false => simp
        | true =>
          rw [if_pos rfl, coeff_X_pow, if_neg]
          omega
      rw [hfirst, zero_add, hindex, ih k hk', List.getElem_cons_succ]

/-! ## Bits of words -/

@[simp]
theorem length_bitsOf (width n : Nat) : (bitsOf width n).length = width := by
  simp [bitsOf]

theorem bitsOf_zero (width : Nat) : bitsOf width 0 = List.replicate width false := by
  apply List.ext_getElem
  · simp
  · intro j _ _
    simp [bitsOf]

theorem bitsOf_add (a b n : Nat) : bitsOf (a + b) n = bitsOf a n ++ bitsOf b (n >>> a) := by
  simp [bitsOf, List.range_add, Nat.testBit_shiftRight, Function.comp_def]

theorem poly_bitsOf_xor (width m n : Nat) :
    poly (bitsOf width (m ^^^ n)) = poly (bitsOf width m) + poly (bitsOf width n) := by
  rw [bitsOf, bitsOf, bitsOf, ← poly_map_xor]
  congr 2
  funext j
  exact Nat.testBit_xor m n j

theorem poly_bitsOf_add (a b n : Nat) :
    poly (bitsOf (a + b) n) = poly (bitsOf a n) * X ^ b + poly (bitsOf b (n >>> a)) := by
  rw [bitsOf_add, poly_append, length_bitsOf]

theorem poly_bitsOf_shiftRight {a b n : Nat} (hn : n >>> (a + b) = 0) :
    poly (bitsOf (b + a) (n >>> a)) = poly (bitsOf b (n >>> a)) * X ^ a := by
  rw [poly_bitsOf_add, ← Nat.shiftRight_add, hn, bitsOf_zero, poly_replicate_false, add_zero]

theorem toNat_shiftRight_eight (r : Word) : (r >>> 8).toNat = r.toNat >>> 8 :=
  UInt16.toNat_shiftRight r 8

theorem toNat_shiftRight_sixteen (r : Word) : r.toNat >>> 16 = 0 := by
  rw [Nat.shiftRight_eq_div_pow]
  exact Nat.div_eq_of_lt r.toNat_lt

theorem registerBits_eq (r : Word) :
    registerBits r = bitsOf 8 (Word.low r).toNat ++ bitsOf 8 (Word.high r).toNat := by
  have hlow : bitsOf 8 (r.toNat % 256) = bitsOf 8 r.toNat := by
    refine List.map_congr_left fun j hj => ?_
    have hj8 : j < 8 := List.mem_range.mp hj
    rw [show 256 = 2 ^ 8 from rfl, Nat.testBit_mod_two_pow]
    simp [hj8]
  have hhigh : r.toNat >>> 8 = r.toNat / 256 := Nat.shiftRight_eq_div_pow _ _
  rw [registerBits, show 16 = 8 + 8 from rfl, bitsOf_add, Word.toNat_low, Word.toNat_high, hlow,
    hhigh]

noncomputable def registerPoly (r : Word) : (ZMod 2)[X] := poly (registerBits r)

theorem registerPoly_xor (r s : Word) :
    registerPoly (r ^^^ s) = registerPoly r + registerPoly s := by
  rw [registerPoly, registerBits, UInt16.toNat_xor, poly_bitsOf_xor]
  rfl

theorem registerPoly_eq (r : Word) : registerPoly r =
    poly (bitsOf 8 (Word.low r).toNat) * X ^ 8 + poly (bitsOf 8 (Word.high r).toNat) := by
  rw [registerPoly, registerBits_eq, poly_append, length_bitsOf]

theorem registerPoly_toUInt16 (b : Byte) :
    registerPoly b.toUInt16 = poly (bitsOf 8 b.toNat) * X ^ 8 := by
  have hb : b.toNat >>> 8 = 0 := by
    rw [Nat.shiftRight_eq_div_pow]
    exact Nat.div_eq_of_lt b.toNat_lt
  rw [registerPoly, registerBits, UInt8.toNat_toUInt16, show 16 = 8 + 8 from rfl, poly_bitsOf_add,
    hb, bitsOf_zero, poly_replicate_false, add_zero]

theorem registerPoly_shiftRight_eight (r : Word) :
    registerPoly (r >>> 8) = poly (bitsOf 8 (Word.high r).toNat) * X ^ 8 := by
  have hhigh : (Word.high r).toNat = r.toNat >>> 8 := by
    rw [Word.toNat_high, Nat.shiftRight_eq_div_pow]
  rw [registerPoly, registerBits, toNat_shiftRight_eight, hhigh]
  exact poly_bitsOf_shiftRight (toNat_shiftRight_sixteen r)

/-! ## Shifts -/

/-- The polynomial by which the checksum is the remainder. -/
noncomputable def generator : (ZMod 2)[X] := X ^ 16 + X ^ 15 + X ^ 2 + 1

theorem registerPoly_polynomial : registerPoly polynomial = X ^ 15 + X ^ 2 + 1 := by
  have hbits : registerBits polynomial = [true, false, false, false, false, false, false, false,
      false, false, false, false, false, true, false, true] := by decide
  rw [registerPoly, hbits]
  simp [poly, add_assoc]

theorem and_one_eq_one_iff (r : Word) : r &&& 1 = 1 ↔ r.toNat.testBit 0 = true := by
  rw [← UInt16.toNat_inj, UInt16.toNat_and, Nat.testBit_zero]
  simp

/-- A shift multiplies by `X`, up to the generator. -/
theorem registerPoly_shift (r : Word) : registerPoly (shift r) =
    X * registerPoly r + if r.toNat.testBit 0 then generator else 0 := by
  have htwo : (2 : (ZMod 2)[X]) = 0 := CharTwo.two_eq_zero
  have hr : registerPoly r =
      poly (bitsOf 1 r.toNat) * X ^ 15 + poly (bitsOf 15 (r.toNat >>> 1)) :=
    poly_bitsOf_add 1 15 r.toNat
  have hshift : registerPoly (r >>> 1) = poly (bitsOf 15 (r.toNat >>> 1)) * X := by
    have htoNat : (r >>> 1).toNat = r.toNat >>> 1 := UInt16.toNat_shiftRight r 1
    have hpoly := poly_bitsOf_shiftRight (a := 1) (b := 15) (toNat_shiftRight_sixteen r)
    rw [registerPoly, registerBits, htoNat, hpoly, pow_one]
  have hbit : poly (bitsOf 1 r.toNat) = if r.toNat.testBit 0 then 1 else 0 := by
    simp [bitsOf, poly]
  rw [shift, hr, hbit]
  by_cases h : r.toNat.testBit 0 = true
  · rw [if_pos ((and_one_eq_one_iff r).mpr h), if_pos h, if_pos h, registerPoly_xor, hshift,
      registerPoly_polynomial, generator]
    linear_combination (-X ^ 16) * htwo
  · rw [if_neg (fun h' => h ((and_one_eq_one_iff r).mp h')), if_neg h, if_neg h, hshift]
    ring

/-! ## Residues -/

/-- What a register stands for: the residue of its polynomial. -/
noncomputable def residue (r : Word) : AdjoinRoot generator :=
  mk generator (registerPoly r)

noncomputable def byteResidue (b : Byte) : AdjoinRoot generator :=
  mk generator (poly (bitsOf 8 b.toNat))

theorem residue_zero : residue 0 = 0 := by
  have hpoly : registerPoly 0 = 0 := by
    rw [registerPoly, registerBits, UInt16.toNat_zero, bitsOf_zero, poly_replicate_false]
  rw [residue, hpoly, map_zero]

theorem residue_xor (r s : Word) : residue (r ^^^ s) = residue r + residue s := by
  rw [residue, registerPoly_xor, map_add]
  rfl

theorem residue_shift (r : Word) : residue (shift r) = root generator * residue r := by
  rw [residue, registerPoly_shift, map_add, map_mul, mk_X]
  split
  · rw [mk_self, add_zero]
    rfl
  · rw [map_zero, add_zero]
    rfl

theorem byteResidue_xor (a b : Byte) :
    byteResidue (a ^^^ b) = byteResidue a + byteResidue b := by
  rw [byteResidue, UInt8.toNat_xor, poly_bitsOf_xor, map_add]
  rfl

theorem residue_toUInt16 (b : Byte) :
    residue b.toUInt16 = byteResidue b * root generator ^ 8 := by
  rw [residue, registerPoly_toUInt16, map_mul, map_pow, mk_X]
  rfl

theorem residue_byteTerm (b : Byte) :
    residue (byteTerm b) = byteResidue b * root generator ^ 16 := by
  simp only [byteTerm, residue_shift, residue_toUInt16]
  ring

/-- **What a byte does.** The register moves up by eight powers, and the byte comes in with the
sixteen powers that the message has above it. -/
theorem residue_step (r : Word) (b : Byte) : residue (step r b) =
    residue r * root generator ^ 8 + byteResidue b * root generator ^ 16 := by
  have hr : residue r = byteResidue (Word.low r) * root generator ^ 8 +
      byteResidue (Word.high r) := by
    rw [residue, registerPoly_eq, map_add, map_mul, map_pow, mk_X]
    rfl
  have hhigh : residue (r >>> 8) =
      byteResidue (Word.high r) * root generator ^ 8 := by
    rw [residue, registerPoly_shiftRight_eight, map_mul, map_pow, mk_X]
    rfl
  have hlow : byteResidue (r.toUInt8 ^^^ b) = byteResidue (Word.low r) + byteResidue b :=
    byteResidue_xor _ b
  rw [step, residue_xor, residue_byteTerm, hhigh, hlow, hr]
  ring

theorem length_bits (message : List Byte) : (bits message).length = 8 * message.length := by
  induction message with
  | nil => rfl
  | cons b message ih =>
    change (bitsOf 8 b.toNat ++ bits message).length = 8 * (message.length + 1)
    rw [List.length_append, length_bitsOf, ih]
    omega

theorem residue_foldl_step (message : List Byte) (r : Word) : residue (message.foldl step r) =
    residue r * root generator ^ (8 * message.length) +
      mk generator (poly (bits message)) * root generator ^ 16 := by
  induction message generalizing r with
  | nil => simp [bits, poly]
  | cons b message ih =>
    have hbits : bits (b :: message) = bitsOf 8 b.toNat ++ bits message := rfl
    rw [List.foldl_cons, ih, residue_step, hbits, poly_append, map_add, map_mul, map_pow, mk_X,
      length_bits, List.length_cons, ← byteResidue]
    ring

/-- The checksum stands for the message with sixteen zeros after it. -/
theorem residue_checksum (message : List Byte) :
    residue (checksum message) = mk generator (poly (bits message) * X ^ 16) := by
  rw [checksum, residue_foldl_step, residue_zero, zero_mul, zero_add, map_mul, map_pow, mk_X]

/-! ## Registers and their residues -/

theorem monic_generator : generator.Monic := by
  unfold generator
  monicity!

theorem degree_generator : generator.degree = 16 := by
  unfold generator
  compute_degree!

theorem degree_registerPoly_lt (r : Word) : (registerPoly r).degree < generator.degree := by
  have h := degree_poly_lt (registerBits r)
  rw [registerBits, length_bitsOf] at h
  rw [degree_generator]
  exact h

theorem modByMonic_generator_eq {p : (ZMod 2)[X]} {r : Word}
    (h : mk generator p = residue r) : p %ₘ generator = registerPoly r := by
  obtain ⟨q, hq⟩ := mk_eq_mk.mp h
  have hp : registerPoly r + generator * q = p := by rw [← hq]; ring
  exact (div_modByMonic_unique q _ monic_generator ⟨hp, degree_registerPoly_lt r⟩).2

theorem coeff_registerPoly (r : Word) (j : Nat) (hj : j < 16) :
    (registerPoly r).coeff (15 - j) = if r.toNat.testBit j then 1 else 0 := by
  have hlength : (registerBits r).length = 16 := length_bitsOf 16 r.toNat
  have hindex : 15 - j = (registerBits r).length - 1 - j := by omega
  rw [registerPoly, hindex, coeff_poly _ j (by omega)]
  simp [registerBits, bitsOf]

theorem coeff_registerPoly_eq_one_iff (r : Word) (j : Nat) (hj : j < 16) :
    (registerPoly r).coeff (15 - j) = 1 ↔ r.toNat.testBit j = true := by
  rw [coeff_registerPoly r j hj]
  split
  · simp [*]
  · simp [*]

theorem eq_of_residue_eq {r s : Word} (h : residue r = residue s) : r = s := by
  have hpoly : registerPoly r = registerPoly s :=
    (modByMonic_generator_eq (p := registerPoly r) rfl).symm.trans (modByMonic_generator_eq h)
  apply UInt16.toBitVec_inj.mp
  apply BitVec.eq_of_getLsbD_eq
  intro j hj
  change r.toNat.testBit j = s.toNat.testBit j
  rw [Bool.eq_iff_iff, ← coeff_registerPoly_eq_one_iff r j hj,
    ← coeff_registerPoly_eq_one_iff s j hj, hpoly]

/-! ## The register bit by bit -/

namespace Serial

/-- One bit leaves the register, and feeds the polynomial back if it is set. -/
def shiftOut (r : Word) : Word := if r.toNat % 2 = 1 then (r >>> 1) ^^^ 0xA001 else r >>> 1

/-- A byte is added to the low half of the register, which is then shifted for each of its bits. -/
def takeByte (r : Word) (b : Byte) : Word := shiftOut^[8] (r ^^^ b.toUInt16)

def register (message : List Byte) : Word := message.foldl takeByte 0

theorem shiftOut_eq (r : Word) : shiftOut r = shift r := by
  have h : r.toNat % 2 = 1 ↔ r &&& 1 = 1 := by
    rw [and_one_eq_one_iff, Nat.testBit_zero, decide_eq_true_iff]
  rw [shiftOut, shift, polynomial]
  simp only [h]

theorem residue_takeByte (r : Word) (b : Byte) : residue (takeByte r b) =
    residue r * root generator ^ 8 + byteResidue b * root generator ^ 16 := by
  have hshift : ∀ r, residue (shiftOut r) = root generator * residue r := fun r => by
    rw [shiftOut_eq, residue_shift]
  simp only [takeByte, Function.iterate_succ_apply', Function.iterate_zero, id_eq, hshift,
    residue_xor, residue_toUInt16]
  ring

end Serial

theorem step_low (r : Word) : step r (Word.low r) = r >>> 8 := by
  have hzero : byteTerm 0 = 0 := by decide
  rw [step, Word.low, UInt8.xor_self, hzero, UInt16.xor_zero]

theorem foldl_step_bytes (r : Word) : (Word.bytes r).foldl step r = 0 := by
  have hhigh : Word.high r = Word.low (r >>> 8) := rfl
  have hzero : r >>> 8 >>> 8 = 0 := by
    apply UInt16.toNat_inj.mp
    rw [toNat_shiftRight_eight, toNat_shiftRight_eight, ← Nat.shiftRight_add,
      toNat_shiftRight_sixteen]
    rfl
  rw [Word.bytes, List.foldl_cons, List.foldl_cons, List.foldl_nil, step_low, hhigh, step_low,
    hzero]

/-- **The checksum is a cyclic redundancy check.** It is the register that a message leaves bit by
bit; its bits, from the highest power down, are the remainder of the message with sixteen zeros
after it; and it is zero for a message that is followed by its own checksum. -/
theorem checksum_is_remainder (message : List Byte) :
    checksum message = Serial.register message ∧
    (∀ j < 16, (checksum message).toNat.testBit j = true ↔
      ((poly (bits message) * X ^ 16) %ₘ generator).coeff (15 - j) = 1) ∧
    checksum (message ++ Word.bytes (checksum message)) = 0 := by
  refine ⟨?_, fun j hj => ?_, ?_⟩
  · have hstep : step = Serial.takeByte := by
      funext r b
      apply eq_of_residue_eq
      rw [residue_step, Serial.residue_takeByte]
    rw [checksum, Serial.register, hstep]
  · have hremainder := modByMonic_generator_eq (residue_checksum message).symm
    rw [← coeff_registerPoly_eq_one_iff _ j hj, hremainder]
  · rw [checksum, List.foldl_append]
    exact foldl_step_bytes _

/-- The check value of this polynomial. -/
example : checksum [0x31, 0x32, 0x33, 0x34, 0x35, 0x36, 0x37, 0x38, 0x39] = 0xBB3D := by decide

end ServoScript.Checksum
