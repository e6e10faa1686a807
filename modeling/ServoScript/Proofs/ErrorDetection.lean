import ServoScript.Proofs.Checksums

/-!
# Errors that the checksum detects

The places in which two messages of one length differ (`differences`) are the powers of a
polynomial (`errorPoly`), which the generator divides if the checksums are equal
(`generator_dvd_errorPoly`). There are two ways to see that it does not. The generator has the root
1, and an odd number of powers adds up to 1 there (`generator_not_dvd_of_odd`). And it has a
constant term and degree 16, so it divides no polynomial of lower degree, however many powers of `X`
come with it (`generator_not_dvd_of_burst`).
-/

namespace ServoScript.Checksum

open Polynomial
open AdjoinRoot (mk mk_eq_mk)

/-! ## Places in a message -/

/-- The bit at a place of a message. Places count the bits of each byte from the least significant
one, eight for a byte. -/
def bitAt (message : List Byte) (k : Nat) : Bool :=
  (message.getD (k / 8) 0).toNat.testBit (k % 8)

/-- The places in which a message differs from another one of its length. -/
def differences (a b : List Byte) : Finset Nat :=
  (Finset.range (8 * a.length)).filter fun k => bitAt a k ≠ bitAt b k

theorem bitAt_cons_of_lt (b : Byte) (message : List Byte) {k : Nat} (hk : k < 8) :
    bitAt (b :: message) k = b.toNat.testBit k := by
  rw [bitAt, Nat.div_eq_of_lt hk, Nat.mod_eq_of_lt hk, List.getD_cons_zero]

theorem bitAt_cons_add (b : Byte) (message : List Byte) (k : Nat) :
    bitAt (b :: message) (8 + k) = bitAt message k := by
  have hdiv : (8 + k) / 8 = k / 8 + 1 := by omega
  have hmod : (8 + k) % 8 = k % 8 := by omega
  rw [bitAt, hdiv, hmod, List.getD_cons_succ, bitAt]

theorem bits_eq_map_bitAt (message : List Byte) :
    bits message = (List.range (8 * message.length)).map (bitAt message) := by
  induction message with
  | nil => rfl
  | cons b message ih =>
    have hlength : 8 * (b :: message).length = 8 + 8 * message.length := by
      rw [List.length_cons]
      omega
    have hfirst : bitsOf 8 b.toNat = (List.range 8).map (bitAt (b :: message)) :=
      List.map_congr_left fun k hk => (bitAt_cons_of_lt b message (List.mem_range.mp hk)).symm
    have hrest : (List.range (8 * message.length)).map (bitAt message) =
        ((List.range (8 * message.length)).map (8 + ·)).map (bitAt (b :: message)) := by
      rw [List.map_map]
      exact List.map_congr_left fun k _ => (bitAt_cons_add b message k).symm
    change bitsOf 8 b.toNat ++ bits message = _
    rw [hlength, List.range_add, List.map_append, ih, hfirst, hrest]

/-! ## The polynomial of the differences -/

theorem poly_map_range (f : Nat → Bool) (n : Nat) : poly ((List.range n).map f) =
    ∑ k ∈ (Finset.range n).filter (f · = true), X ^ (n - 1 - k) := by
  induction n with
  | zero => rfl
  | succ n ih =>
    have hlast : poly [f n] = if f n = true then X ^ (n + 1 - 1 - n) else 0 := by
      simp [poly]
    have hmove : poly ((List.range n).map f) * X ^ 1 =
        ∑ k ∈ (Finset.range n).filter (f · = true), X ^ (n + 1 - 1 - k) := by
      rw [ih, Finset.sum_mul]
      refine Finset.sum_congr rfl fun k hk => ?_
      have hk : k < n := Finset.mem_range.mp (Finset.mem_filter.mp hk).1
      rw [← pow_add]
      congr 1
      omega
    rw [List.range_succ, List.map_append, List.map_singleton, poly_append, List.length_singleton,
      hmove, hlast, Finset.sum_filter, Finset.sum_filter, Finset.sum_range_succ]

/-- The powers that stand for the places in which two messages differ. -/
noncomputable def errorPoly (a b : List Byte) : (ZMod 2)[X] :=
  ∑ k ∈ differences a b, X ^ (8 * a.length - 1 - k)

theorem poly_bits_add {a b : List Byte} (hlength : a.length = b.length) :
    poly (bits a) + poly (bits b) = errorPoly a b := by
  have hplaces : (Finset.range (8 * a.length)).filter (fun k => (bitAt a k ^^ bitAt b k) = true) =
      differences a b := by
    refine Finset.filter_congr fun k _ => ?_
    cases bitAt a k <;> cases bitAt b k <;> simp
  rw [bits_eq_map_bitAt, bits_eq_map_bitAt, ← hlength, ← poly_map_xor, poly_map_range, errorPoly,
    ← hplaces]

/-! ## Divisibility by the generator -/

theorem isCoprime_generator_X : IsCoprime generator X := by
  refine ⟨1, -(X ^ 15 + X ^ 14 + X), ?_⟩
  rw [generator]
  ring

/-- **Equal checksums.** The generator divides what two messages with one checksum differ by. -/
theorem generator_dvd_errorPoly {a b : List Byte} (hlength : a.length = b.length)
    (h : checksum a = checksum b) : generator ∣ errorPoly a b := by
  have hmk : mk generator (poly (bits a) * X ^ 16) = mk generator (poly (bits b) * X ^ 16) := by
    rw [← residue_checksum, ← residue_checksum, h]
  have hdvd : generator ∣ errorPoly a b * X ^ 16 := by
    rw [← poly_bits_add hlength, ← CharTwo.sub_eq_add, sub_mul]
    exact mk_eq_mk.mp hmk
  exact (isCoprime_generator_X.pow_right).dvd_of_dvd_mul_right hdvd

theorem eval_one_generator : generator.eval 1 = 0 := by
  rw [generator]
  simp only [eval_add, eval_pow, eval_X, eval_one, one_pow]
  decide

theorem generator_not_dvd_of_odd {places : Finset Nat} (hodd : Odd places.card)
    (power : Nat → Nat) : ¬ generator ∣ ∑ k ∈ places, X ^ power k := by
  intro hdvd
  have hzero : (∑ k ∈ places, (X : (ZMod 2)[X]) ^ power k).eval 1 = 0 :=
    eval_eq_zero_of_dvd_of_eval_eq_zero hdvd eval_one_generator
  have hcard : (∑ k ∈ places, (X : (ZMod 2)[X]) ^ power k).eval 1 = (places.card : ZMod 2) := by
    simp [eval_finsetSum]
  rw [hcard, ZMod.natCast_eq_zero_iff_even] at hzero
  exact Nat.not_even_iff_odd.mpr hodd hzero

theorem generator_not_dvd_of_burst {places : Finset Nat} {top : Nat} (htop : top ∈ places)
    (hburst : ∀ k ∈ places, k ≤ top ∧ top < k + 16) :
    ¬ generator ∣ ∑ k ∈ places, X ^ (top - k) := by
  have hcoeff : (∑ k ∈ places, (X : (ZMod 2)[X]) ^ (top - k)).coeff 0 = 1 := by
    -- only the last place has the power 0
    rw [finsetSum_coeff, Finset.sum_eq_single_of_mem top htop]
    · simp
    · intro k hk hne
      have hle := (hburst k hk).1
      rw [coeff_X_pow, if_neg]
      omega
  have hne : ∑ k ∈ places, (X : (ZMod 2)[X]) ^ (top - k) ≠ 0 := by
    intro hzero
    rw [hzero, coeff_zero] at hcoeff
    exact zero_ne_one hcoeff
  have hdegree : (∑ k ∈ places, (X : (ZMod 2)[X]) ^ (top - k)).degree < generator.degree := by
    rw [degree_generator]
    refine (degree_sum_le _ _).trans_lt ?_
    refine (Finset.sup_lt_iff (WithBot.bot_lt_coe 16)).mpr fun k hk => ?_
    rw [degree_X_pow]
    have hlt := (hburst k hk).2
    exact_mod_cast (by omega : top - k < 16)
  exact monic_generator.not_dvd_of_degree_lt hne hdegree

/-- The powers of `X` that all differences have in common do not matter. -/
theorem dvd_of_dvd_errorPoly {a b : List Byte} {top : Nat}
    (htop : ∀ k ∈ differences a b, k ≤ top) (hlt : top < 8 * a.length)
    (h : generator ∣ errorPoly a b) : generator ∣ ∑ k ∈ differences a b, X ^ (top - k) := by
  have hfactor : errorPoly a b =
      (∑ k ∈ differences a b, X ^ (top - k)) * X ^ (8 * a.length - 1 - top) := by
    rw [errorPoly, Finset.sum_mul]
    refine Finset.sum_congr rfl fun k hk => ?_
    have hle := htop k hk
    rw [← pow_add]
    congr 1
    omega
  rw [hfactor] at h
  exact (isCoprime_generator_X.pow_right).dvd_of_dvd_mul_right h

/-- **Error detection.** Two messages of one length have different checksums if the places in which
they differ are at least one and lie within 16 places in a row, or if they are odd in number. -/
theorem checksum_detects_errors {a b : List Byte} (hlength : a.length = b.length)
    (hne : (differences a b).Nonempty)
    (h : (∃ first, differences a b ⊆ Finset.Ico first (first + 16)) ∨
      Odd (differences a b).card) : checksum a ≠ checksum b := by
  intro heq
  have hdvd := generator_dvd_errorPoly hlength heq
  rcases h with ⟨first, hburst⟩ | hodd
  · let top := (differences a b).max' hne
    have htop : top ∈ differences a b := Finset.max'_mem _ hne
    have hle : ∀ k ∈ differences a b, k ≤ top := fun k hk => Finset.le_max' _ k hk
    have hlt : top < 8 * a.length := Finset.mem_range.mp (Finset.mem_filter.mp htop).1
    refine generator_not_dvd_of_burst htop (fun k hk => ⟨hle k hk, ?_⟩)
      (dvd_of_dvd_errorPoly hle hlt hdvd)
    have hk := Finset.mem_Ico.mp (hburst hk)
    have ht := Finset.mem_Ico.mp (hburst htop)
    omega
  · exact generator_not_dvd_of_odd hodd _ hdvd

/-- Two bits at the ends of a burst over three bytes, and three bits far apart. -/
theorem checksum_detects_errors_examples :
    (differences [0x31, 0x80, 0xFF, 0x40] [0x31, 0x00, 0xFF, 0x00] = {15, 30} ∧
      checksum [0x31, 0x80, 0xFF, 0x40] ≠ checksum [0x31, 0x00, 0xFF, 0x00]) ∧
    differences [0x01, 0x80, 0xFF, 0x40] [0x00, 0x00, 0xFF, 0x00] = {0, 15, 30} ∧
      checksum [0x01, 0x80, 0xFF, 0x40] ≠ checksum [0x00, 0x00, 0xFF, 0x00] :=
  ⟨⟨by decide, checksum_detects_errors (by decide) (by decide) (.inl ⟨15, by decide⟩)⟩,
    by decide, checksum_detects_errors (by decide) (by decide) (.inr (by decide))⟩

end ServoScript.Checksum
