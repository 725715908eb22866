import AutomatisedPipeline.Logic.Floats

/-!
Natural numbers as floats, and what is known of `Float32` results that are not negative.

A natural number is rounded to nearest, which keeps the order (`natural_mono`); counting by
ones is exact up to `2 ^ 24`, and stops there (`ofNat_add_one`).
-/

namespace AutomatisedPipeline.Floats

open Float.Model (Format UnpackedFloat totalExponent)
open Float.Model.UnpackedFloat

variable {spec : Format}

/-! ### Rounding natural numbers -/

theorem log2_mul_two_pow {m : Nat} (hpos : m ≠ 0) (j : Nat) : (m * 2 ^ j).log2 = m.log2 + j := by
  have hpos' : m * 2 ^ j ≠ 0 := Nat.mul_ne_zero hpos (Nat.two_pow_pos j).ne'
  rw [Nat.log2_eq_iff hpos', Nat.pow_add, Nat.add_right_comm, Nat.pow_add _ _ j]
  exact ⟨Nat.mul_le_mul_right _ (Nat.log2_self_le hpos),
    Nat.mul_lt_mul_of_pos_right Nat.lt_log2_self (Nat.two_pow_pos j)⟩

/-- Zeros behind the mantissa do not matter. -/
theorem roundWithAccuracy_mul_two_pow (s : Sign) {m : Nat} {e : Int} (j : Nat)
    (hbits : 2 ^ spec.mantissaBitsWithoutImplicit ≤ m)
    (hnormal : spec.minExponent + spec.mantissaBits ≤ totalExponent m e) :
    roundWithAccuracy spec s (m * 2 ^ j) (e - j) .exact = roundWithAccuracy spec s m e .exact := by
  have hpos : m ≠ 0 := (lt_of_lt_of_le (Nat.two_pow_pos _) hbits).ne'
  have hlog := (Nat.le_log2 hpos).mpr hbits
  have hmore : m ≤ m * 2 ^ j := Nat.le_mul_of_pos_right _ (Nat.two_pow_pos j)
  have htotal : totalExponent (m * 2 ^ j) (e - j) = totalExponent m e := by
    rw [totalExponent, totalExponent, log2_mul_two_pow hpos]
    omega
  have hshift : shiftToTargetExponent spec (m * 2 ^ j) (e - j) .exact =
      shiftToTargetExponent spec m e .exact := by
    rw [shiftToTargetExponent_of_normal .exact hbits hnormal,
      shiftToTargetExponent_of_normal .exact (hbits.trans hmore)
        (htotal ▸ hnormal : _ ≤ totalExponent (m * 2 ^ j) (e - j)),
      log2_mul_two_pow hpos, Nat.add_comm m.log2 j, Nat.add_sub_assoc hlog, shiftRight_add]
    have hexact : ExtendedMantissa.ofMantissaAndAccuracy (m * 2 ^ j) .exact >>> j =
        ExtendedMantissa.ofMantissaAndAccuracy m .exact := exact_shiftRight m j
    rw [hexact]
    congr 1
    push_cast
    ring
  unfold roundWithAccuracy
  rw [hshift]

/-- A natural number, rounded. -/
def natural (spec : Format) (n : Nat) : UnpackedFloat :=
  roundWithAccuracy spec .positive (n * 2 ^ spec.mantissaBitsWithoutImplicit)
    (0 - spec.mantissaBitsWithoutImplicit) .exact

/-- The format has room for numbers from one on, in normal form. -/
def FromOne (spec : Format) : Prop := spec.minExponent + spec.mantissaBits ≤ 1

theorem totalExponent_natural {n : Nat} (hn : n ≠ 0) :
    totalExponent (n * 2 ^ spec.mantissaBitsWithoutImplicit)
      (0 - spec.mantissaBitsWithoutImplicit) = n.log2 + 1 := by
  rw [totalExponent, log2_mul_two_pow hn]
  omega

theorem natural_bits {n : Nat} (hn : n ≠ 0) : 2 ^ spec.mantissaBitsWithoutImplicit ≤
    n * 2 ^ spec.mantissaBitsWithoutImplicit :=
  Nat.le_mul_of_pos_left _ (Nat.pos_of_ne_zero hn)

theorem natural_normal (hspec : FromOne spec) {n : Nat} (hn : n ≠ 0) :
    spec.minExponent + spec.mantissaBits ≤ totalExponent
      (n * 2 ^ spec.mantissaBitsWithoutImplicit) (0 - spec.mantissaBitsWithoutImplicit) := by
  rw [totalExponent_natural hn]
  rw [FromOne] at hspec
  omega

theorem natural_finite (hspec : FromOne spec) {n : Nat} (hn : n ≠ 0) :
    ∃ m e h, natural spec n = .finite .positive m e h ∧ Full spec m ∧
      n.log2 + 1 ≤ e + spec.mantissaBits ∧ e + spec.mantissaBits ≤ n.log2 + 2 := by
  obtain ⟨m, e, h, hround, hfull, hcase⟩ :=
    roundWithAccuracy_of_normal .positive .exact (natural_bits hn) (natural_normal hspec hn)
  rw [totalExponent_natural hn] at hcase
  refine ⟨m, e, h, hround, hfull, ?_⟩
  rcases hcase with ⟨-, he⟩ | ⟨-, -, he⟩ <;> omega

theorem kept_mono {m m' : Nat} (h : m ≤ m') (hlog : m.log2 = m'.log2) :
    kept spec m .exact ≤ kept spec m' .exact := by
  have hcode : code (ExtendedMantissa.ofMantissaAndAccuracy m .exact) ≤
      code (ExtendedMantissa.ofMantissaAndAccuracy m' .exact) := by
    simp only [code, ExtendedMantissa.ofMantissaAndAccuracy, Bool.toNat_false]
    omega
  rw [kept, kept, hlog]
  exact roundedMantissa_mono (code_shiftRight_mono hcode _)

/-- Rounding keeps the order of natural numbers. -/
theorem natural_mono (hspec : FromOne spec) {n n' : Nat} (hn : n ≠ 0) (hle : n ≤ n')
    {m m' : Nat} {e e' : Int} {h : 0 < m} {h' : 0 < m'}
    (hm : natural spec n = .finite .positive m e h)
    (hm' : natural spec n' = .finite .positive m' e' h') : Below m e m' e' := by
  have hn' : n' ≠ 0 := by omega
  obtain ⟨m₁, e₁, h₁, hround, hfull, hcase⟩ :=
    roundWithAccuracy_of_normal .positive .exact (natural_bits hn) (natural_normal hspec hn)
  obtain ⟨m₂, e₂, h₂, hround', hfull', hcase'⟩ :=
    roundWithAccuracy_of_normal .positive .exact (natural_bits hn') (natural_normal hspec hn')
  rw [← natural, hm, UnpackedFloat.finite.injEq] at hround
  rw [← natural, hm', UnpackedFloat.finite.injEq] at hround'
  obtain ⟨-, rfl, rfl⟩ := hround
  obtain ⟨-, rfl, rfl⟩ := hround'
  rw [totalExponent_natural hn] at hcase
  rw [totalExponent_natural hn'] at hcase'
  have hlog : n.log2 ≤ n'.log2 := by
    rw [Nat.le_log2 hn']
    exact (Nat.log2_self_le hn).trans hle
  rcases hlog.lt_or_eq with hlt | heq
  · rcases hcase with ⟨-, he⟩ | ⟨rfl, -, he⟩
    · rcases hcase' with ⟨-, he'⟩ | ⟨-, -, he'⟩ <;> exact .inl (by omega)
    · rcases hcase' with ⟨-, he'⟩ | ⟨-, -, he'⟩
      · rcases lt_or_ge e e' with hlt' | hge
        · exact .inl hlt'
        · exact .inr ⟨by omega, hfull'.1⟩
      · exact .inl (by omega)
  · have hkept : kept spec (n * 2 ^ spec.mantissaBitsWithoutImplicit) .exact ≤
        kept spec (n' * 2 ^ spec.mantissaBitsWithoutImplicit) .exact := by
      refine kept_mono (Nat.mul_le_mul_right _ hle) ?_
      rw [log2_mul_two_pow hn, log2_mul_two_pow hn', heq]
    have hkeptLe := (@kept_bounds spec _ .exact (natural_bits hn')).2
    rcases hcase with ⟨rfl, he⟩ | ⟨rfl, hfilled, he⟩
    · rcases hcase' with ⟨rfl, he'⟩ | ⟨-, -, he'⟩
      · exact .inr ⟨by omega, hkept⟩
      · exact .inl (by omega)
    · rcases hcase' with ⟨rfl, he'⟩ | ⟨rfl, -, he'⟩
      · exact absurd hfull'.2 (by omega)
      · exact .inr ⟨by omega, le_refl _⟩

theorem ofNat_eq_natural (hspec : FromOne spec) {n : Nat} (hn : n ≠ 0) :
    UnpackedFloat.ofNat spec n = natural spec n := by
  have hcompare : compare (n : Int) 0 = .gt :=
    Int.compare_eq_gt.mpr (by exact_mod_cast Nat.pos_of_ne_zero hn)
  have hbitsCount : (spec.mantissaBits : Int) = spec.mantissaBitsWithoutImplicit + 1 := by
    rw [Format.mantissaBits]
    omega
  rw [FromOne] at hspec
  have hshift : (0 - spec.targetExponent (totalExponent n 0)).toNat =
      spec.mantissaBitsWithoutImplicit - n.log2 := by
    rw [Format.targetExponent, totalExponent]
    omega
  have hround : UnpackedFloat.ofNat spec n = roundWithAccuracy spec .positive
      (n * 2 ^ (spec.mantissaBitsWithoutImplicit - n.log2))
      (0 - (spec.mantissaBitsWithoutImplicit - n.log2 : Nat)) .exact := by
    unfold UnpackedFloat.ofNat UnpackedFloat.ofInt UnpackedFloat.normalize
    rw [hcompare]
    simp only [UnpackedFloat.round, Int.toNat_natCast, decreaseExponent, hshift,
      Nat.shiftLeft_eq]
  -- the shift to the left fills the mantissa, and no more
  have hfill : spec.mantissaBitsWithoutImplicit = (spec.mantissaBitsWithoutImplicit - n.log2) +
      (spec.mantissaBitsWithoutImplicit - (spec.mantissaBitsWithoutImplicit - n.log2)) := by
    omega
  have hbits : 2 ^ spec.mantissaBitsWithoutImplicit ≤
      n * 2 ^ (spec.mantissaBitsWithoutImplicit - n.log2) := by
    refine le_trans ?_ (Nat.mul_le_mul_right _ (Nat.log2_self_le hn))
    rw [← Nat.pow_add]
    exact Nat.pow_le_pow_right Nat.two_pos (by omega)
  have htotal : totalExponent (n * 2 ^ (spec.mantissaBitsWithoutImplicit - n.log2))
      (0 - (spec.mantissaBitsWithoutImplicit - n.log2 : Nat)) = n.log2 + 1 := by
    rw [totalExponent, log2_mul_two_pow hn]
    omega
  rw [hround, natural, ← roundWithAccuracy_mul_two_pow .positive
    (spec.mantissaBitsWithoutImplicit - (spec.mantissaBitsWithoutImplicit - n.log2)) hbits
    (by rw [htotal]; omega), Nat.mul_assoc, ← Nat.pow_add, ← hfill]
  congr 1
  omega

theorem natural_one (hspec : FromOne spec) : natural spec 1 = .finite .positive
    (2 ^ spec.mantissaBitsWithoutImplicit) (-spec.mantissaBitsWithoutImplicit)
    (Nat.two_pow_pos _) := by
  rw [FromOne, Format.mantissaBits] at hspec
  rw [natural, Nat.one_mul, zero_sub]
  exact roundWithAccuracy_of_full .positive (full_two_pow spec) (by omega) _

/-- Multiplying by one changes nothing. -/
theorem mul_natural_one (hspec : FromOne spec) {m : Nat} {e : Int} {h : 0 < m}
    (hfull : Full spec m) (hnormal : spec.minExponent ≤ e) :
    UnpackedFloat.mul spec (.finite .positive m e h) (natural spec 1) =
      .finite .positive m e h := by
  have htotal := totalExponent_of_full hfull e
  have hmul := roundWithAccuracy_mul_two_pow (e := e) .positive spec.mantissaBitsWithoutImplicit
    hfull.1 (by omega)
  rw [roundWithAccuracy_of_full .positive hfull hnormal h] at hmul
  rw [natural_one hspec]
  exact hmul

/-- A number that the mantissa has room for is not rounded. -/
theorem natural_of_le {n : Nat} (hspec : FromOne spec) (hn : n ≠ 0)
    (hle : n < 2 ^ spec.mantissaBits) :
    ∃ h, natural spec n = .finite .positive
      (n * 2 ^ (spec.mantissaBitsWithoutImplicit - n.log2))
      (n.log2 - spec.mantissaBitsWithoutImplicit) h := by
  have hlog : n.log2 ≤ spec.mantissaBitsWithoutImplicit := by
    have := (Nat.log2_lt hn).mpr hle
    rw [Format.mantissaBits] at this
    omega
  have hfull : Full spec (n * 2 ^ (spec.mantissaBitsWithoutImplicit - n.log2)) := by
    have hpos : n * 2 ^ (spec.mantissaBitsWithoutImplicit - n.log2) ≠ 0 :=
      Nat.mul_ne_zero hn (Nat.two_pow_pos _).ne'
    rw [Full, ← Nat.le_log2 hpos, ← Nat.log2_lt hpos, log2_mul_two_pow hn, Format.mantissaBits]
    omega
  have hpos := lt_of_lt_of_le (Nat.two_pow_pos _) hfull.1
  have hnormal : spec.minExponent ≤ n.log2 - spec.mantissaBitsWithoutImplicit := by
    rw [FromOne, Format.mantissaBits] at hspec
    omega
  have htotal := totalExponent_of_full hfull (n.log2 - spec.mantissaBitsWithoutImplicit)
  have hmul := roundWithAccuracy_mul_two_pow (e := n.log2 - spec.mantissaBitsWithoutImplicit)
    .positive n.log2 hfull.1 (by omega)
  rw [roundWithAccuracy_of_full .positive hfull hnormal hpos, Nat.mul_assoc, ← Nat.pow_add,
    Nat.sub_add_cancel hlog] at hmul
  refine ⟨hpos, ?_⟩
  rw [← hmul, natural]
  congr 1
  omega

/-- Below the width of the mantissa, adding one is exact. -/
theorem add_natural_one {n : Nat} (hspec : FromOne spec) (hn : n ≠ 0)
    (hlt : n < 2 ^ spec.mantissaBits) :
    UnpackedFloat.add spec (natural spec n) (natural spec 1) = natural spec (n + 1) := by
  have hlog : n.log2 ≤ spec.mantissaBitsWithoutImplicit := by
    have := (Nat.log2_lt hn).mpr hlt
    rw [Format.mantissaBits] at this
    omega
  obtain ⟨h, hnatural⟩ := natural_of_le hspec hn hlt
  have hmin : min ((n.log2 : Int) - spec.mantissaBitsWithoutImplicit)
      (-spec.mantissaBitsWithoutImplicit) = 0 - spec.mantissaBitsWithoutImplicit := by omega
  have hshift : ((n.log2 : Int) - spec.mantissaBitsWithoutImplicit -
      (0 - spec.mantissaBitsWithoutImplicit)).toNat = n.log2 := by omega
  have hshift' : (-(spec.mantissaBitsWithoutImplicit : Int) -
      (0 - spec.mantissaBitsWithoutImplicit)).toNat = 0 := by omega
  have hsum : n * 2 ^ (spec.mantissaBitsWithoutImplicit - n.log2) * 2 ^ n.log2 +
      2 ^ spec.mantissaBitsWithoutImplicit * 2 ^ 0 =
        (n + 1) * 2 ^ spec.mantissaBitsWithoutImplicit := by
    rw [Nat.mul_assoc, ← Nat.pow_add, Nat.sub_add_cancel hlog]
    ring
  rw [hnatural, natural_one hspec]
  simp only [UnpackedFloat.add, hmin, decreaseExponent, hshift, hshift', Nat.shiftLeft_eq,
    Sign.apply]
  rw [← Nat.cast_add, hsum]
  exact normalize_eq _ _ (natural_bits n.succ_ne_zero)

/-! ### Single precision -/

theorem fromOne_binary32 : FromOne Format.binary32 := by
  rw [FromOne]
  decide

theorem fits_natural {n : Nat} (hlt : n < 2 ^ 64) {e : Int}
    (he : e + Format.binary32.mantissaBits ≤ n.log2 + 2) : Fits Format.binary32 e := by
  have hlog : n.log2 < 64 := by
    rcases Nat.eq_zero_or_pos n with rfl | hpos
    · decide
    · exact (Nat.log2_lt hpos.ne').mpr hlt
  have hbits : Format.binary32.mantissaBits = 24 := rfl
  have hbias : Format.binary32.exponentBias = 127 := rfl
  rw [hbits] at he
  rw [Fits, hbias]
  norm_num
  omega

/-- A natural number is packed as it is. -/
theorem unpack_pack_natural {n : Nat} (hn : n ≠ 0) (hlt : n < 2 ^ 64) :
    (Float32.Model.pack (natural Format.binary32 n)).unpack = natural Format.binary32 n := by
  obtain ⟨m, e, h, hnatural, hfull, hlow, hhigh⟩ := natural_finite fromOne_binary32 hn
  have hmin : Format.binary32.minExponent = -149 := rfl
  have hbits : Format.binary32.mantissaBits = 24 := rfl
  have hnormal : Format.binary32.minExponent ≤ e := by
    rw [hbits] at hlow
    rw [hmin]
    omega
  rw [hnatural]
  exact unpack_pack_full hfull hnormal (fits_natural hlt hhigh)

theorem ofScientific_eq_natural {n : Nat} (hn : n ≠ 0) :
    UnpackedFloat.ofScientific Format.binary32 n 0 = natural Format.binary32 n := by
  have hround := roundWithAccuracy_mul_two_pow .positive 1 (natural_bits hn)
    (natural_normal fromOne_binary32 hn)
  have hlarge : ¬ (0 : Int) > 2 ^ Format.binary32.exponentBits := by decide
  have hsmall : ¬ (0 : Int) < -((2 ^ Format.binary32.exponentBits : Int) + n.log2) := by
    have hpow : (0 : Int) < 2 ^ Format.binary32.exponentBits := by decide
    omega
  rw [UnpackedFloat.ofScientific, dif_neg hn, if_neg hlarge, if_neg hsmall, if_pos (le_refl 0),
    natural, ← hround]
  simp only [UnpackedFloat.mul, Nat.shiftLeft_eq]
  rw [Int.toNat_zero, pow_zero, Nat.mul_one, Format.mantissaBits, Nat.add_comm 1, Nat.pow_add,
    Nat.mul_assoc]
  rfl

/-- A natural number is converted by rounding it, however it is written. -/
theorem ofNat_eq {n : Nat} (hn : n ≠ 0) (hlt : n < 2 ^ 64) :
    Float32.ofNat n = .ofModel (.pack (natural Format.binary32 n)) := by
  have hmin : Format.binary32.minExponent = -149 := rfl
  have hbits : Format.binary32.mantissaBits = 24 := rfl
  rw [Float32.ofNat]
  change Float32.ofScientific n false 0 = _
  rw [Float32.ofScientific]
  split
  · rename_i hsmall
    have hone : (Float32.ofBits 0x3F800000).toModel.unpack = natural Format.binary32 1 := rfl
    have hconvert : n.toUInt64.toFloat32.toModel.unpack = natural Format.binary32 n := by
      have htoNat : n.toUInt64.toNat = n := by
        rw [Nat.toUInt64, UInt64.toNat_ofNat']
        exact Nat.mod_eq_of_lt hlt
      change (Float32.Model.pack (UnpackedFloat.ofNat Format.binary32 n.toUInt64.toNat)).unpack = _
      rw [htoNat, ofNat_eq_natural fromOne_binary32 hn, unpack_pack_natural hn hlt]
    obtain ⟨m, e, h, hnatural, hfull, hlow, hhigh⟩ := natural_finite fromOne_binary32 hn
    have hnormal : Format.binary32.minExponent ≤ e := by
      rw [hbits] at hlow
      rw [hmin]
      omega
    change Float32.ofModel (.pack (UnpackedFloat.mul Format.binary32
      n.toUInt64.toFloat32.toModel.unpack (Float32.ofBits 0x3F800000).toModel.unpack)) = _
    rw [hconvert, hone, hnatural, mul_natural_one fromOne_binary32 hfull hnormal]
  · change Float32.ofModel (.pack (UnpackedFloat.ofScientific Format.binary32 n 0)) = _
    rw [ofScientific_eq_natural hn]

theorem unpack_ofNat {n : Nat} (hn : n ≠ 0) (hlt : n < 2 ^ 64) :
    (Float32.ofNat n).toModel.unpack = natural Format.binary32 n := by
  rw [ofNat_eq hn hlt]
  exact unpack_pack_natural hn hlt

/-- Counting is exact below `2 ^ 24`. -/
theorem ofNat_add_one {n : Nat} (hlt : n < 2 ^ 24) :
    Float32.ofNat n + 1 = Float32.ofNat (n + 1) := by
  rcases Nat.eq_zero_or_pos n with rfl | hpos
  · decide +kernel
  · have hwidth : n < 2 ^ Format.binary32.mantissaBits := hlt
    have hsum := add_natural_one fromOne_binary32 hpos.ne' hwidth
    change Float32.ofModel (.pack (UnpackedFloat.add Format.binary32
      (Float32.ofNat n).toModel.unpack (Float32.ofNat 1).toModel.unpack)) = _
    rw [unpack_ofNat hpos.ne' (hlt.trans (by norm_num)), unpack_ofNat one_ne_zero (by norm_num),
      hsum, ofNat_eq n.succ_ne_zero (by omega)]

/-- Counting stops at `2 ^ 24`. -/
theorem ofNat_last_add_one : Float32.ofNat (2 ^ 24) + 1 = Float32.ofNat (2 ^ 24) := by
  decide +kernel

/-! ### Numbers that are not negative -/

/-- Neither negative nor NaN. -/
def NonnegF32 (x : Float32) : Prop := Nonneg x.toModel.unpack

/-- `+∞`, or at least `2 ^ k`. -/
def AtLeastF32 (k : Int) (x : Float32) : Prop := AtLeast Format.binary32 k x.toModel.unpack

theorem nonneg_of_le {x : Float32} (h : 0 ≤ x) : NonnegF32 x := by
  rw [NonnegF32]
  have hle : UnpackedFloat.le (.zero .positive) x.toModel.unpack = true := of_decide_eq_true h
  cases hx : x.toModel.unpack with
  | notANumber =>
      rw [hx] at hle
      cases hle
  | infinity s =>
      rw [hx] at hle
      cases s with
      | negative => cases hle
      | positive => rfl
  | zero s => trivial
  | finite s m e hpos =>
      rw [hx] at hle
      cases s with
      | negative => cases hle
      | positive => rfl

theorem ne_zero_of_atLeast {k : Int} {x : Float32} (h : AtLeastF32 k x) : (x != 0) = true := by
  rw [AtLeastF32] at h
  have hne : (x != 0) = !(UnpackedFloat.beq x.toModel.unpack (.zero .positive)) := rfl
  rw [hne]
  cases hx : x.toModel.unpack with
  | notANumber =>
      rw [hx] at h
      exact absurd h id
  | zero s =>
      rw [hx] at h
      exact absurd h id
  | infinity s =>
      rw [hx] at h
      obtain rfl : s = .positive := h
      rfl
  | finite s m e hpos =>
      rw [hx] at h
      obtain rfl : s = .positive := h.1
      rfl

theorem one_le_of_atLeast {x : Float32} (h : AtLeastF32 0 x) : 1 ≤ x := by
  rw [AtLeastF32] at h
  have hone : (1 : Float32).toModel.unpack = natural Format.binary32 1 :=
    unpack_ofNat one_ne_zero (by norm_num)
  refine decide_eq_true (?_ : UnpackedFloat.le _ x.toModel.unpack = true)
  rw [hone, natural_one fromOne_binary32]
  cases hx : x.toModel.unpack with
  | notANumber =>
      rw [hx] at h
      exact absurd h id
  | zero s =>
      rw [hx] at h
      exact absurd h id
  | infinity s =>
      rw [hx] at h
      obtain rfl : s = .positive := h
      rfl
  | finite s m e hpos =>
      rw [hx] at h
      obtain ⟨rfl, hfull, hle⟩ := h
      have hexponent : -(Format.binary32.mantissaBitsWithoutImplicit : Int) ≤ e := by omega
      rcases hexponent.lt_or_eq with hlt | rfl
      · have hcompare := Int.compare_eq_lt.mpr hlt
        rw [UnpackedFloat.le, UnpackedFloat.compare, hcompare]
        rfl
      · rw [UnpackedFloat.le, UnpackedFloat.compare, Int.compare_eq_eq.mpr rfl]
        exact Nat.isLE_compare.mpr hfull.1

/-! ### Operations -/

theorem half_eq : ∃ h, (0.5 : Float32).toModel.unpack = .finite .positive (2 ^ 23) (-24) h :=
  ⟨Nat.two_pow_pos 23, rfl⟩

theorem full_half : Full Format.binary32 (2 ^ 23) := full_two_pow Format.binary32

theorem minExponent_binary32 : Format.binary32.minExponent = -149 := rfl

theorem nonneg_half_mul {x : Float32} (h : NonnegF32 x) : NonnegF32 (0.5 * x) := by
  obtain ⟨hpos, hhalf⟩ := half_eq
  have hmul : (0.5 * x).toModel = .pack (UnpackedFloat.mul Format.binary32
      (0.5 : Float32).toModel.unpack x.toModel.unpack) := rfl
  rw [NonnegF32, hmul, hhalf]
  exact unpack_pack_nonneg (mul_nonneg h)

theorem atLeast_half_add {x : Float32} (h : NonnegF32 x) : AtLeastF32 (-1) (0.5 + x) := by
  obtain ⟨hpos, hhalf⟩ := half_eq
  have hadd : (0.5 + x).toModel = .pack (UnpackedFloat.add Format.binary32
      (0.5 : Float32).toModel.unpack x.toModel.unpack) := rfl
  rw [AtLeastF32, hadd, hhalf]
  exact unpack_pack_atLeast (by decide) (add_atLeast full_half (by decide) (by decide) h)

theorem atLeast_add_one {x : Float32} (h : NonnegF32 x) : AtLeastF32 0 (x + 1) := by
  have hone : (1 : Float32).toModel.unpack = natural Format.binary32 1 :=
    unpack_ofNat one_ne_zero (by norm_num)
  have hadd : (x + 1).toModel = .pack (UnpackedFloat.add Format.binary32
      x.toModel.unpack (1 : Float32).toModel.unpack) := rfl
  rw [AtLeastF32, hadd, hone, natural_one fromOne_binary32, add_comm_of_nonneg h]
  exact unpack_pack_atLeast (by decide) (add_atLeast full_half (by decide) (by decide) h)

theorem atLeast_mul {k l : Int} (hkl : -126 ≤ k + l) {x y : Float32} (hx : AtLeastF32 k x)
    (hy : AtLeastF32 l y) : AtLeastF32 (k + l) (x * y) := by
  have hrange : Format.binary32.minExponent + Format.binary32.mantissaBitsWithoutImplicit ≤
      k + l := hkl
  have hmul : (x * y).toModel = .pack (UnpackedFloat.mul Format.binary32 x.toModel.unpack
      y.toModel.unpack) := rfl
  rw [AtLeastF32, hmul]
  exact unpack_pack_atLeast hrange (mul_atLeast hrange hx hy)

theorem nonneg_div_ofNat {n n' : Nat} (hn : n ≠ 0) (hlt : n < 2 ^ 64) (hn' : n' ≠ 0)
    (hlt' : n' < 2 ^ 64) : NonnegF32 (Float32.ofNat n / Float32.ofNat n') := by
  obtain ⟨m, e, h, hnatural, -⟩ := natural_finite fromOne_binary32 hn
  obtain ⟨m', e', h', hnatural', -⟩ := natural_finite fromOne_binary32 hn'
  have hdiv : (Float32.ofNat n / Float32.ofNat n').toModel =
      .pack (UnpackedFloat.div Format.binary32 (Float32.ofNat n).toModel.unpack
        (Float32.ofNat n').toModel.unpack) := rfl
  rw [NonnegF32, hdiv, unpack_ofNat hn hlt, unpack_ofNat hn' hlt', hnatural, hnatural']
  exact unpack_pack_nonneg div_nonneg

/-- A quotient of natural numbers that is at least one is so when it is rounded, too. -/
theorem atLeast_div_ofNat {n n' : Nat} (hn : n ≠ 0) (hle : n ≤ n') (hlt : n' < 2 ^ 64) :
    AtLeastF32 0 (Float32.ofNat n' / Float32.ofNat n) := by
  have hn' : n' ≠ 0 := by omega
  obtain ⟨m, e, h, hnatural, hfull, hlow, hhigh⟩ := natural_finite fromOne_binary32 hn
  obtain ⟨m', e', h', hnatural', hfull', hlow', hhigh'⟩ := natural_finite fromOne_binary32 hn'
  have hbelow := natural_mono fromOne_binary32 hn hle hnatural hnatural'
  have hrange : Format.binary32.minExponent + Format.binary32.mantissaBits ≤ e' - e := by
    have hbits : Format.binary32.mantissaBits = 24 := rfl
    rw [minExponent_binary32, hbits]
    rcases hbelow with hlt | ⟨rfl, -⟩ <;> omega
  have hdiv : (Float32.ofNat n' / Float32.ofNat n).toModel =
      .pack (UnpackedFloat.div Format.binary32 (Float32.ofNat n').toModel.unpack
        (Float32.ofNat n).toModel.unpack) := rfl
  rw [AtLeastF32, hdiv, unpack_ofNat hn (hle.trans_lt hlt), unpack_ofNat hn' hlt, hnatural,
    hnatural']
  exact unpack_pack_atLeast (by decide)
    (div_atLeast_one hfull hfull' hbelow (by decide) hrange)

end AutomatisedPipeline.Floats
