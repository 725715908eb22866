import Mathlib

/-!
Rounding to nearest in the logical model of the floats, on numbers that are not negative.

A mantissa that is too long is shifted to its place with a round bit and a sticky bit, and
rounded by them. `AtLeast` and `Nonneg` are what programs want to know of a result: that it is
not far below what was computed, and that it is a number.
-/

namespace AutomatisedPipeline.Floats

open Float.Model (Format UnpackedFloat totalExponent)
open Float.Model.UnpackedFloat

/-! ### Shifting out bits -/

theorem shiftRight_succ (em : ExtendedMantissa) (k : Nat) :
    em >>> (k + 1) = (em >>> k).shiftRightOne := rfl

theorem shiftRight_add (em : ExtendedMantissa) (j k : Nat) :
    em >>> (j + k) = (em >>> j) >>> k := by
  induction k with
  | zero => rfl
  | succ k ih => rw [← Nat.add_assoc, shiftRight_succ, shiftRight_succ, ih]

theorem mantissa_shiftRight (em : ExtendedMantissa) (k : Nat) :
    (em >>> k).mantissa = em.mantissa / 2 ^ k := by
  induction k with
  | zero => exact (Nat.div_one _).symm
  | succ k ih =>
      rw [shiftRight_succ, ExtendedMantissa.shiftRightOne, ih, Nat.div_div_eq_div_mul, pow_succ]

/-- Zeros are shifted out without a trace. -/
theorem exact_shiftRight (m k : Nat) :
    (⟨m * 2 ^ k, false, false⟩ : ExtendedMantissa) >>> k = ⟨m, false, false⟩ := by
  induction k generalizing m with
  | zero =>
      rw [pow_zero, Nat.mul_one]
      rfl
  | succ k ih =>
      have hm : m * 2 ^ (k + 1) = m * 2 * 2 ^ k := by ring
      rw [shiftRight_succ, hm, ih, ExtendedMantissa.shiftRightOne]
      simp

/-- A mantissa with its two residual bits, as a number. -/
def code (em : ExtendedMantissa) : Nat :=
  4 * em.mantissa + 2 * em.roundBit.toNat + em.stickyBit.toNat

theorem code_shiftRightOne_mono {a b : ExtendedMantissa} (h : code a ≤ code b) :
    code a.shiftRightOne ≤ code b.shiftRightOne := by
  have hodd : ∀ n : Nat, (n % 2 != 0).toNat = n % 2 := by
    intro n
    rcases Nat.mod_two_eq_zero_or_one n with h | h <;> rw [h] <;> rfl
  rcases a with ⟨m, r, s⟩
  rcases b with ⟨m', r', s'⟩
  simp only [code, ExtendedMantissa.shiftRightOne, hodd] at h ⊢
  cases r <;> cases s <;> cases r' <;> cases s' <;>
    simp only [Bool.toNat_true, Bool.toNat_false, Bool.or_true, Bool.true_or, Bool.or_self]
      at h ⊢ <;>
    omega

theorem code_shiftRight_mono {a b : ExtendedMantissa} (h : code a ≤ code b) (k : Nat) :
    code (a >>> k) ≤ code (b >>> k) := by
  induction k with
  | zero => exact h
  | succ k ih => exact code_shiftRightOne_mono ih

theorem roundedMantissa_mono {a b : ExtendedMantissa} (h : code a ≤ code b) :
    a.roundedMantissa ≤ b.roundedMantissa := by
  rcases a with ⟨m, r, s⟩
  rcases b with ⟨m', r', s'⟩
  simp only [code] at h
  cases r <;> cases s <;> cases r' <;> cases s' <;>
    simp only [ExtendedMantissa.roundedMantissa, ExtendedMantissa.accuracy,
      Accuracy.roundToNearestEven, Bool.toNat_true, Bool.toNat_false] at h ⊢ <;>
    omega

theorem roundedMantissa_bounds (em : ExtendedMantissa) :
    em.mantissa ≤ em.roundedMantissa ∧ em.roundedMantissa ≤ em.mantissa + 1 := by
  rcases em with ⟨m, r, s⟩
  cases r <;> cases s <;>
    simp only [ExtendedMantissa.roundedMantissa, ExtendedMantissa.accuracy,
      Accuracy.roundToNearestEven] <;>
    omega

/-! ### Rounding in the normal range -/

variable {spec : Format}

/-- All the bits of the mantissa are in use. -/
def Full (spec : Format) (m : Nat) : Prop :=
  2 ^ spec.mantissaBitsWithoutImplicit ≤ m ∧ m < 2 ^ spec.mantissaBits

theorem two_pow_mantissaBits (spec : Format) :
    2 ^ spec.mantissaBits = 2 * 2 ^ spec.mantissaBitsWithoutImplicit := by
  rw [Format.mantissaBits, Nat.pow_add, Nat.pow_one]

theorem Full.log2 {m : Nat} (h : Full spec m) : m.log2 = spec.mantissaBitsWithoutImplicit := by
  have hpos : m ≠ 0 := (lt_of_lt_of_le (Nat.two_pow_pos _) h.1).ne'
  have hle := (Nat.le_log2 hpos).mpr h.1
  have hlt := (Nat.log2_lt hpos).mpr h.2
  rw [Format.mantissaBits] at hlt
  omega

theorem mantissa_ofMantissaAndAccuracy (m : Nat) (acc : Accuracy) :
    (ExtendedMantissa.ofMantissaAndAccuracy m acc).mantissa = m := by
  rcases acc with _ | o
  · rfl
  · cases o <;> rfl

/-- Where there are bits enough and the exponent is not too small, the bits behind the last
place are shifted out and rounded away. -/
theorem shiftToTargetExponent_of_normal {m : Nat} {e : Int} (acc : Accuracy)
    (hbits : 2 ^ spec.mantissaBitsWithoutImplicit ≤ m)
    (hnormal : spec.minExponent + spec.mantissaBits ≤ totalExponent m e) :
    shiftToTargetExponent spec m e acc =
      (ExtendedMantissa.ofMantissaAndAccuracy m acc >>> (m.log2 - spec.mantissaBitsWithoutImplicit),
        e + (m.log2 - spec.mantissaBitsWithoutImplicit : Nat)) := by
  have hpos : m ≠ 0 := (lt_of_lt_of_le (Nat.two_pow_pos _) hbits).ne'
  have hlog := (Nat.le_log2 hpos).mpr hbits
  have hshift : (spec.targetExponent (totalExponent m e) - e).toNat =
      m.log2 - spec.mantissaBitsWithoutImplicit := by
    rw [totalExponent] at hnormal ⊢
    rw [Format.targetExponent, Format.mantissaBits] at *
    omega
  rw [shiftToTargetExponent, shiftToExponent, hshift]

/-- What is left of a mantissa, rounded. -/
def kept (spec : Format) (m : Nat) (acc : Accuracy) : Nat :=
  (ExtendedMantissa.ofMantissaAndAccuracy m acc >>>
    (m.log2 - spec.mantissaBitsWithoutImplicit)).roundedMantissa

theorem kept_bounds {m : Nat} (acc : Accuracy)
    (hbits : 2 ^ spec.mantissaBitsWithoutImplicit ≤ m) :
    2 ^ spec.mantissaBitsWithoutImplicit ≤ kept spec m acc ∧
      kept spec m acc ≤ 2 ^ spec.mantissaBits := by
  have hpos : m ≠ 0 := (lt_of_lt_of_le (Nat.two_pow_pos _) hbits).ne'
  have hlog := (Nat.le_log2 hpos).mpr hbits
  obtain ⟨hlow, hhigh⟩ := roundedMantissa_bounds
    (ExtendedMantissa.ofMantissaAndAccuracy m acc >>> (m.log2 - spec.mantissaBitsWithoutImplicit))
  rw [mantissa_shiftRight, mantissa_ofMantissaAndAccuracy] at hlow hhigh
  constructor
  · refine le_trans ?_ hlow
    rw [Nat.le_div_iff_mul_le (Nat.two_pow_pos _), ← Nat.pow_add, Nat.add_sub_cancel' hlog]
    exact Nat.log2_self_le hpos
  · refine le_trans hhigh (Nat.succ_le_of_lt ?_)
    rw [Nat.div_lt_iff_lt_mul (Nat.two_pow_pos _), ← Nat.pow_add, Format.mantissaBits,
      Nat.add_assoc, Nat.add_sub_cancel' hlog, Nat.add_comm]
    exact Nat.lt_log2_self

/-- The two shifts of `roundWithAccuracy`. -/
theorem roundWithAccuracy_eq {s : Sign} {m : Nat} {e e₁ e₂ : Int} {acc : Accuracy}
    {em em' : ExtendedMantissa} (hfirst : shiftToTargetExponent spec m e acc = (em, e₁))
    (hsecond : shiftToTargetExponent spec em.roundedMantissa e₁ .exact = (em', e₂))
    (hpos : 0 < em'.mantissa) :
    roundWithAccuracy spec s m e acc = .finite s em'.mantissa e₂ hpos := by
  unfold roundWithAccuracy
  simp only [hfirst, hsecond]
  exact dif_neg hpos.ne'

theorem totalExponent_of_full {m : Nat} (hfull : Full spec m) (e : Int) :
    totalExponent m e = e + spec.mantissaBits := by
  rw [totalExponent, hfull.log2, Format.mantissaBits]
  omega

theorem full_two_pow (spec : Format) : Full spec (2 ^ spec.mantissaBitsWithoutImplicit) := by
  refine ⟨le_refl _, ?_⟩
  rw [two_pow_mantissaBits]
  have := Nat.two_pow_pos spec.mantissaBitsWithoutImplicit
  omega

/-- In the normal range the result is what is kept, in normal form. -/
theorem roundWithAccuracy_of_normal (s : Sign) {m : Nat} {e : Int} (acc : Accuracy)
    (hbits : 2 ^ spec.mantissaBitsWithoutImplicit ≤ m)
    (hnormal : spec.minExponent + spec.mantissaBits ≤ totalExponent m e) :
    ∃ m' e' h, roundWithAccuracy spec s m e acc = .finite s m' e' h ∧ Full spec m' ∧
      (m' = kept spec m acc ∧ e' + spec.mantissaBits = totalExponent m e ∨
        m' = 2 ^ spec.mantissaBitsWithoutImplicit ∧ kept spec m acc = 2 ^ spec.mantissaBits ∧
          e' + spec.mantissaBits = totalExponent m e + 1) := by
  have hpos : m ≠ 0 := (lt_of_lt_of_le (Nat.two_pow_pos _) hbits).ne'
  have hlog := (Nat.le_log2 hpos).mpr hbits
  obtain ⟨hlow, hhigh⟩ := kept_bounds acc hbits
  have hfirst := shiftToTargetExponent_of_normal acc hbits hnormal
  have hexponent : e + (m.log2 - spec.mantissaBitsWithoutImplicit : Nat) + spec.mantissaBits =
      totalExponent m e := by
    rw [totalExponent, Format.mantissaBits]
    omega
  generalize e + ((m.log2 - spec.mantissaBitsWithoutImplicit : Nat) : Int) = e₁
    at hexponent hfirst
  rcases hhigh.lt_or_eq with hlt | heq
  · have hfull : Full spec (kept spec m acc) := ⟨hlow, hlt⟩
    have htotal := totalExponent_of_full hfull e₁
    have hsecond := shiftToTargetExponent_of_normal .exact hlow
      (hnormal.trans_eq (hexponent.symm.trans htotal.symm))
    rw [hfull.log2, Nat.sub_self, Nat.cast_zero, add_zero] at hsecond
    refine ⟨kept spec m acc, e₁, lt_of_lt_of_le (Nat.two_pow_pos _) hlow, ?_, hfull,
      .inl ⟨rfl, hexponent⟩⟩
    exact roundWithAccuracy_eq hfirst hsecond _
  · -- rounding up has filled one bit more, which is shifted out again
    have hlogKept : (kept spec m acc).log2 = spec.mantissaBitsWithoutImplicit + 1 := by
      rw [heq, Nat.log2_two_pow, Format.mantissaBits, Nat.add_comm]
    have hsecond := shiftToTargetExponent_of_normal (e := e₁) .exact hlow (by
      rw [totalExponent, hlogKept]
      rw [Format.mantissaBits] at hexponent hnormal ⊢
      omega)
    have hshifted : ExtendedMantissa.ofMantissaAndAccuracy (kept spec m acc) .exact >>> 1 =
        ⟨2 ^ spec.mantissaBitsWithoutImplicit, false, false⟩ := by
      have hdouble : kept spec m acc = 2 ^ spec.mantissaBitsWithoutImplicit * 2 ^ 1 := by
        rw [heq, two_pow_mantissaBits, pow_one, Nat.mul_comm]
      rw [hdouble]
      exact exact_shiftRight _ 1
    rw [hlogKept, Nat.add_sub_cancel_left, hshifted] at hsecond
    refine ⟨_, e₁ + 1, Nat.two_pow_pos _, ?_, full_two_pow spec, .inr ⟨rfl, heq, by omega⟩⟩
    exact roundWithAccuracy_eq hfirst hsecond _

/-- A mantissa that is in normal form stays as it is. -/
theorem roundWithAccuracy_of_full (s : Sign) {m : Nat} {e : Int} (hfull : Full spec m)
    (hnormal : spec.minExponent ≤ e) (hpos : 0 < m) :
    roundWithAccuracy spec s m e .exact = .finite s m e hpos := by
  have htotal := totalExponent_of_full hfull e
  have hkept : kept spec m .exact = m := by
    rw [kept, hfull.log2, Nat.sub_self]
    rfl
  have hrange : spec.minExponent + spec.mantissaBits ≤ totalExponent m e := by omega
  obtain ⟨m', e', h, hround, -, hcase⟩ := roundWithAccuracy_of_normal s .exact hfull.1 hrange
  rw [hkept, htotal] at hcase
  rcases hcase with ⟨rfl, he⟩ | ⟨-, hm, -⟩
  · obtain rfl : e' = e := by omega
    exact hround
  · exact absurd hm hfull.2.ne

/-! ### Bounds from below -/

/-- Neither negative nor NaN. -/
def Nonneg : UnpackedFloat → Prop
  | .notANumber => False
  | .infinity s => s = .positive
  | .zero _ => True
  | .finite s _ _ _ => s = .positive

/-- `+∞`, or in normal form and at least `2 ^ k`. -/
def AtLeast (spec : Format) (k : Int) : UnpackedFloat → Prop
  | .notANumber => False
  | .infinity s => s = .positive
  | .zero _ => False
  | .finite s m e _ => s = .positive ∧ Full spec m ∧ k ≤ e + spec.mantissaBitsWithoutImplicit

theorem roundWithAccuracy_nonneg (m : Nat) (e : Int) (acc : Accuracy) :
    Nonneg (roundWithAccuracy spec .positive m e acc) := by
  unfold roundWithAccuracy
  simp only
  split
  · trivial
  · rfl

theorem roundWithAccuracy_atLeast {m : Nat} {e k : Int} (acc : Accuracy)
    (hbits : 2 ^ spec.mantissaBitsWithoutImplicit ≤ m)
    (hk : spec.minExponent + spec.mantissaBitsWithoutImplicit ≤ k)
    (hle : k + 1 ≤ totalExponent m e) :
    AtLeast spec k (roundWithAccuracy spec .positive m e acc) := by
  have hbitsCount : (spec.mantissaBits : Int) = spec.mantissaBitsWithoutImplicit + 1 := by
    rw [Format.mantissaBits]
    omega
  have hnormal : spec.minExponent + spec.mantissaBits ≤ totalExponent m e := by omega
  obtain ⟨m', e', h, hround, hfull, hcase⟩ :=
    roundWithAccuracy_of_normal .positive acc hbits hnormal
  rw [hround]
  refine ⟨rfl, hfull, ?_⟩
  rcases hcase with ⟨-, he⟩ | ⟨-, -, he⟩ <;> omega

theorem le_totalExponent {m : Nat} {e : Int} {j : Nat} (h : 2 ^ j ≤ m) :
    j + 1 + e ≤ totalExponent m e := by
  have hpos : m ≠ 0 := (lt_of_lt_of_le (Nat.two_pow_pos _) h).ne'
  have hlog := (Nat.le_log2 hpos).mpr h
  rw [totalExponent]
  omega

/-- A mantissa that has bits enough is not shifted to the left. -/
theorem normalize_eq {m : Nat} (e : Int) (s : Sign)
    (hbits : 2 ^ spec.mantissaBitsWithoutImplicit ≤ m) :
    normalize spec m e s = roundWithAccuracy spec .positive m e .exact := by
  have hpos : 0 < m := lt_of_lt_of_le (Nat.two_pow_pos _) hbits
  have hcompare : compare (m : Int) 0 = .gt := Int.compare_eq_gt.mpr (by exact_mod_cast hpos)
  have hlog := (Nat.le_log2 hpos.ne').mpr hbits
  have hshift : (e - spec.targetExponent (totalExponent m e)).toNat = 0 := by
    rw [Format.targetExponent, totalExponent, Format.mantissaBits]
    omega
  unfold UnpackedFloat.normalize
  rw [hcompare]
  simp only [UnpackedFloat.round, Int.toNat_natCast, decreaseExponent, hshift]
  rw [Nat.shiftLeft_zero, Nat.cast_zero, sub_zero]

theorem add_atLeast {m : Nat} {e k : Int} {hpos : 0 < m} (hfull : Full spec m)
    (hk : spec.minExponent + spec.mantissaBitsWithoutImplicit ≤ k)
    (hle : k ≤ e + spec.mantissaBitsWithoutImplicit) {x : UnpackedFloat} (hx : Nonneg x) :
    AtLeast spec k (UnpackedFloat.add spec (.finite .positive m e hpos) x) := by
  cases x with
  | notANumber => exact absurd hx id
  | infinity s => exact hx
  | zero s => exact ⟨rfl, hfull, hle⟩
  | finite s m' e' hpos' =>
      obtain rfl : s = .positive := hx
      have hsum : UnpackedFloat.add spec (.finite .positive m e hpos)
          (.finite .positive m' e' hpos') =
            normalize spec ((m <<< (e - min e e').toNat + m' <<< (e' - min e e').toNat : Nat) : Int)
              (min e e') .positive := by
        simp only [UnpackedFloat.add, decreaseExponent, Sign.apply, Nat.cast_add]
      have hleft : 2 ^ (spec.mantissaBitsWithoutImplicit + (e - min e e').toNat) ≤
          m <<< (e - min e e').toNat + m' <<< (e' - min e e').toNat := by
        rw [Nat.pow_add, Nat.shiftLeft_eq]
        exact (Nat.mul_le_mul_right _ hfull.1).trans (Nat.le_add_right _ _)
      have hbits := (Nat.pow_le_pow_right Nat.two_pos (Nat.le_add_right _ _)).trans hleft
      have htotal := le_totalExponent (e := min e e') hleft
      rw [hsum, normalize_eq _ _ hbits]
      exact roundWithAccuracy_atLeast .exact hbits hk (by omega)

theorem add_comm_of_nonneg {m : Nat} {e : Int} {hpos : 0 < m} {x : UnpackedFloat}
    (hx : Nonneg x) : UnpackedFloat.add spec x (.finite .positive m e hpos) =
      UnpackedFloat.add spec (.finite .positive m e hpos) x := by
  cases x with
  | notANumber => exact absurd hx id
  | infinity s => rfl
  | zero s => rfl
  | finite s m' e' hpos' =>
      simp only [UnpackedFloat.add, decreaseExponent, min_comm e' e]
      rw [Int.add_comm]

theorem mul_atLeast {k l : Int}
    (hkl : spec.minExponent + spec.mantissaBitsWithoutImplicit ≤ k + l) {x y : UnpackedFloat}
    (hx : AtLeast spec k x) (hy : AtLeast spec l y) :
    AtLeast spec (k + l) (UnpackedFloat.mul spec x y) := by
  cases x with
  | notANumber => exact absurd hx id
  | zero s => exact absurd hx id
  | infinity s =>
      obtain rfl : s = .positive := hx
      cases y with
      | notANumber => exact absurd hy id
      | zero s => exact absurd hy id
      | infinity s =>
          obtain rfl : s = .positive := hy
          rfl
      | finite s m e hpos =>
          obtain ⟨rfl, -, -⟩ := hy
          rfl
  | finite s m e hpos =>
      obtain ⟨rfl, hfull, hle⟩ := hx
      cases y with
      | notANumber => exact absurd hy id
      | zero s => exact absurd hy id
      | infinity s =>
          obtain rfl : s = .positive := hy
          rfl
      | finite s m' e' hpos' =>
          obtain ⟨rfl, hfull', hle'⟩ := hy
          have hproduct : 2 ^ (spec.mantissaBitsWithoutImplicit +
              spec.mantissaBitsWithoutImplicit) ≤ m * m' := by
            rw [Nat.pow_add]
            exact Nat.mul_le_mul hfull.1 hfull'.1
          have htotal := le_totalExponent (e := e + e') hproduct
          refine roundWithAccuracy_atLeast .exact ?_ hkl (by omega)
          exact (Nat.pow_le_pow_right Nat.two_pos (Nat.le_add_right _ _)).trans hproduct

theorem mul_nonneg {m : Nat} {e : Int} {hpos : 0 < m} {x : UnpackedFloat} (hx : Nonneg x) :
    Nonneg (UnpackedFloat.mul spec (.finite .positive m e hpos) x) := by
  cases x with
  | notANumber => exact absurd hx id
  | infinity s =>
      obtain rfl : s = .positive := hx
      rfl
  | zero s => trivial
  | finite s m' e' hpos' =>
      obtain rfl : s = .positive := hx
      exact roundWithAccuracy_nonneg _ _ _

theorem div_nonneg {m m' : Nat} {e e' : Int} {hpos : 0 < m} {hpos' : 0 < m'} :
    Nonneg (UnpackedFloat.div spec (.finite .positive m e hpos) (.finite .positive m' e' hpos')) :=
  roundWithAccuracy_nonneg _ _ _

/-- The order of numbers in normal form. -/
def Below (m : Nat) (e : Int) (m' : Nat) (e' : Int) : Prop := e < e' ∨ e = e' ∧ m ≤ m'

/-- A quotient of a number and one that is not above it is at least one. -/
theorem div_atLeast_one {m m' : Nat} {e e' : Int} {hpos : 0 < m} {hpos' : 0 < m'}
    (hfull : Full spec m) (hfull' : Full spec m') (hbelow : Below m e m' e')
    (hone : spec.minExponent + spec.mantissaBitsWithoutImplicit ≤ 0)
    (hrange : spec.minExponent + spec.mantissaBits ≤ e' - e) :
    AtLeast spec 0
      (UnpackedFloat.div spec (.finite .positive m' e' hpos') (.finite .positive m e hpos)) := by
  have htarget : min (e' - e)
      (spec.targetExponent (totalExponent m' e' - totalExponent m e)) =
        e' - e - spec.mantissaBits := by
    rw [totalExponent_of_full hfull', totalExponent_of_full hfull, Format.targetExponent]
    omega
  have hshift : (e' - e - (e' - e - (spec.mantissaBits : Int))).toNat = spec.mantissaBits := by
    omega
  have hdiv : UnpackedFloat.div spec (.finite .positive m' e' hpos') (.finite .positive m e hpos) =
      roundWithAccuracy spec .positive (m' * 2 ^ spec.mantissaBits / m)
        (e' - e - spec.mantissaBits) (accuracyOfFraction (m' * 2 ^ spec.mantissaBits % m) m) := by
    simp only [UnpackedFloat.div, divCore, htarget, hshift, Nat.shiftLeft_eq]
    rfl
  have hbits : 2 ^ spec.mantissaBitsWithoutImplicit ≤ m' * 2 ^ spec.mantissaBits / m := by
    rw [Nat.le_div_iff_mul_le hpos]
    exact Nat.mul_le_mul hfull'.1 hfull.2.le
  rw [hdiv]
  refine roundWithAccuracy_atLeast _ hbits hone ?_
  rcases hbelow with hlt | ⟨rfl, hle⟩
  · have htotal := le_totalExponent (e := e' - e - spec.mantissaBits) hbits
    have hbitsCount : (spec.mantissaBits : Int) = spec.mantissaBitsWithoutImplicit + 1 := by
      rw [Format.mantissaBits]
      omega
    omega
  · have hquotient : 2 ^ spec.mantissaBits ≤ m' * 2 ^ spec.mantissaBits / m := by
      rw [Nat.le_div_iff_mul_le hpos, Nat.mul_comm]
      exact Nat.mul_le_mul_right _ hle
    have htotal := le_totalExponent (e := e - e - spec.mantissaBits) hquotient
    omega

/-! ### Packing -/

theorem toNat_ne_of_ne {e : BitVec spec.exponentBits} (h : e.toNat + 1 ≠ 2 ^ spec.exponentBits) :
    e ≠ -1#_ := by
  rintro rfl
  rw [BitVec.neg_one_eq_allOnes, BitVec.toNat_allOnes] at h
  have := Nat.two_pow_pos spec.exponentBits
  omega

theorem unpack_packedInfinity (s : Sign) :
    unpack spec (packedInfinity spec s) = .infinity s := by
  rw [unpack, packedInfinity]
  simp only [unpackExponent_packComponents, unpackMantissa_packComponents,
    unpackSign_packComponents, Sign.ofBitVec_toBitVec]
  rfl

/-- Components with a positive sign are a number, and not a negative one. -/
theorem unpack_packComponents_nonneg {e : BitVec spec.exponentBits}
    {m : BitVec spec.mantissaBitsWithoutImplicit} (h : e ≠ -1#_) :
    Nonneg (unpack spec (packComponents spec .positive e m)) := by
  rw [unpack]
  simp only [unpackExponent_packComponents, unpackMantissa_packComponents,
    unpackSign_packComponents, Sign.ofBitVec_toBitVec, if_neg h]
  split
  · split
    · trivial
    · rfl
  · rfl

theorem unpack_pack_nonneg {x : UnpackedFloat} (h : Nonneg x) :
    Nonneg (unpack spec (pack spec x)) := by
  have hzero : BitVec.ofNat spec.exponentBits 0 ≠ -1#_ := by
    refine toNat_ne_of_ne ?_
    have := Nat.one_lt_two_pow spec.he.ne'
    rw [BitVec.toNat_zero]
    omega
  cases x with
  | notANumber => exact absurd h id
  | infinity s =>
      rw [pack, unpack_packedInfinity]
      exact h
  | zero s =>
      rw [pack, unpack_packedZero]
      trivial
  | finite s m e hpos =>
      obtain rfl : s = .positive := h
      rw [pack]
      split
      · rw [unpack_packedInfinity]
        rfl
      · rename_i hfits
        split
        · refine unpack_packComponents_nonneg (toNat_ne_of_ne ?_)
          rw [BitVec.toNat_ofNat, Nat.mod_eq_of_lt (by omega)]
          omega
        · exact unpack_packComponents_nonneg hzero

/-- The exponents that a format has room for. -/
def Fits (spec : Format) (e : Int) : Prop :=
  (e + spec.exponentBias + spec.mantissaBitsWithoutImplicit).toNat + 1 < 2 ^ spec.exponentBits

/-- Where a number in normal form fits it is packed as it is. -/
theorem unpack_pack_full {s : Sign} {m : Nat} {e : Int} {hpos : 0 < m} (hfull : Full spec m)
    (hnormal : spec.minExponent ≤ e) (hfits : Fits spec e) :
    unpack spec (pack spec (.finite s m e hpos)) = .finite s m e hpos := by
  have hbias : spec.minExponent + spec.exponentBias + spec.mantissaBitsWithoutImplicit = 1 := by
    have hpow := Nat.two_pow_pos (spec.exponentBits - 1)
    rw [Format.minExponent, Format.exponentBias, Format.mantissaBits, Nat.cast_sub hpow]
    push_cast
    ring
  have hbits : m.log2 + 1 = spec.mantissaBits := by
    rw [hfull.log2, Format.mantissaBits, Nat.add_comm]
  generalize hbiased : (e + spec.exponentBias + spec.mantissaBitsWithoutImplicit).toNat = biased
  have hlt : biased + 1 < 2 ^ spec.exponentBits := by
    rw [← hbiased]
    exact hfits
  have htoNat : (BitVec.ofNat spec.exponentBits biased).toNat = biased := by
    rw [BitVec.toNat_ofNat, Nat.mod_eq_of_lt (by omega)]
  have hones : BitVec.ofNat spec.exponentBits biased ≠ -1#_ :=
    toNat_ne_of_ne (by rw [htoNat]; exact hlt.ne)
  have hzero : BitVec.ofNat spec.exponentBits biased ≠ 0#_ := by
    intro h
    have := congrArg BitVec.toNat h
    rw [htoNat, BitVec.toNat_zero] at this
    omega
  have hmantissa : (1#1 ++ BitVec.ofNat spec.mantissaBitsWithoutImplicit m).toNat = m := by
    have hdouble := two_pow_mantissaBits spec
    have hlow := hfull.1
    have hhigh := hfull.2
    rw [BitVec.toNat_append, ← Nat.shiftLeft_add_eq_or_of_lt (BitVec.isLt _), BitVec.toNat_ofNat,
      BitVec.toNat_ofNat, Nat.mod_eq_sub_mod hlow, Nat.mod_eq_of_lt (a := m - _) (by omega),
      Nat.shiftLeft_eq]
    omega
  rw [pack]
  simp only [hbiased, hbits, if_true, if_neg (not_le.mpr hlt)]
  rw [unpack]
  simp only [unpackExponent_packComponents, unpackMantissa_packComponents,
    unpackSign_packComponents, Sign.ofBitVec_toBitVec, if_neg hones, if_neg hzero, htoNat, hmantissa]
  congr 1
  omega

theorem unpack_pack_atLeast {k : Int} {x : UnpackedFloat}
    (hk : spec.minExponent + spec.mantissaBitsWithoutImplicit ≤ k) (h : AtLeast spec k x) :
    AtLeast spec k (unpack spec (pack spec x)) := by
  cases x with
  | notANumber => exact absurd h id
  | zero s => exact absurd h id
  | infinity s =>
      rw [pack, unpack_packedInfinity]
      exact h
  | finite s m e hpos =>
      by_cases hfits : Fits spec e
      · rw [unpack_pack_full h.2.1 (by have := h.2.2; omega) hfits]
        exact h
      · rw [pack, if_pos (not_lt.mp hfits), unpack_packedInfinity]
        exact h.1

end AutomatisedPipeline.Floats
