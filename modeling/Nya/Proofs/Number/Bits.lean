import Mathlib.Algebra.Group.Nat.Defs
import Nya.Number.Text

/-!
# Numbers by their bits

The sign, the exponent and the fraction are all there is to a number, so a number is known from its
sign and its shape (`eq_of_shape`). There is only one number that is none, and no decimal is read as
it: `shape_ofScientific`.
-/

namespace Nya.Number

open Float.Model Float.Model.UnpackedFloat

variable {x y : Float}

/-! ## Shapes -/

/-- The exponent as it stands in the bits. -/
def biased (x : Float) : Nat := x.toBits.toNat / Nat.pow 2 52 % Nat.pow 2 11

/-- The fraction as it stands in the bits. -/
def fraction (x : Float) : Nat := x.toBits.toNat % Nat.pow 2 52

theorem fraction_lt (x : Float) : fraction x < 2 ^ 52 := Nat.mod_lt _ (by decide)

theorem shape_eq (x : Float) : shape x =
    if biased x = 2047 then if fraction x = 0 then .infinite else .nan
    else if biased x = 0 then .finite (fraction x) minExponent
    else .finite (2 ^ 52 + fraction x) (biased x + minExponent - 1) := rfl

/-- The bits that the format has for what is no number. -/
def NaNBits (b : BitVec 64) : Prop :=
  @unpackExponent Format.binary64 b = -1#_ ∧ @unpackMantissa Format.binary64 b ≠ 0#_

theorem toNat_unpackExponent (x : Float) :
    (@unpackExponent Format.binary64 x.toBits.toBitVec).toNat = biased x := by
  simp [unpackExponent, biased, Nat.shiftRight_eq_div_pow]

theorem toNat_unpackMantissa (x : Float) :
    (@unpackMantissa Format.binary64 x.toBits.toBitVec).toNat = fraction x := by
  simp [unpackMantissa, fraction]

theorem naNBits_of_shape (h : shape x = .nan) : NaNBits x.toBits.toBitVec := by
  rw [shape_eq] at h
  split at h
  · next hbiased =>
    split at h
    · cases h
    · next hfraction =>
      refine ⟨BitVec.eq_of_toNat_eq ?_, fun hzero => hfraction ?_⟩
      · rw [toNat_unpackExponent, hbiased]
        rfl
      · rw [← toNat_unpackMantissa, hzero]
        rfl
  · split at h <;> cases h

/-- The bits are the sign, the exponent and the fraction. -/
theorem toNat_toBits (x : Float) : x.toBits.toNat =
    (if isNegative x then 2 ^ 63 else 0) + biased x * 2 ^ 52 + fraction x := by
  have hlt : x.toBits.toNat < 2 ^ 64 := UInt64.toNat_lt _
  simp only [isNegative, biased, fraction, Nat.pow_eq, beq_iff_eq]
  split <;> omega

/-- The exponent and the fraction that a shape has in the bits. -/
def Shape.fields : Shape → Nat × Nat
  | .finite m q => if m < 2 ^ 52 then (0, m) else ((q - minExponent + 1).toNat, m - 2 ^ 52)
  | _ => (2047, 0)

theorem fields_shape (h : shape x ≠ .nan) : (shape x).fields = (biased x, fraction x) := by
  have hfraction := fraction_lt x
  rw [shape_eq] at h ⊢
  by_cases hlast : biased x = 2047
  · by_cases hzero : fraction x = 0
    · simp [hlast, hzero, Shape.fields]
    · simp [hlast, hzero] at h
  · rw [if_neg hlast]
    by_cases hfirst : biased x = 0
    · rw [if_pos hfirst, Shape.fields, if_pos hfraction, hfirst]
    · rw [if_neg hfirst, Shape.fields, if_neg (by omega)]
      exact Prod.ext (by simp only; omega) (by simp only; omega)

/-- **A number is known from its sign and its shape.** -/
theorem eq_of_shape (hshape : shape x = shape y)
    (hsign : shape x ≠ .nan → isNegative x = isNegative y) : x = y := by
  have hbits : x.toBits = y.toBits := by
    by_cases hnan : shape x = .nan
    · have hx := naNBits_of_shape hnan
      have hy := naNBits_of_shape (hshape.symm.trans hnan)
      exact UInt64.toBitVec_inj.mp ((x.toModel.valid.eq_packedNaN hx.1 hx.2).trans
        (y.toModel.valid.eq_packedNaN hy.1 hy.2).symm)
    · have hfields := fields_shape hnan
      rw [hshape, fields_shape (hshape ▸ hnan)] at hfields
      obtain ⟨hbiased, hfraction⟩ := Prod.mk.inj hfields
      rw [← UInt64.toNat_inj, toNat_toBits, toNat_toBits, hsign hnan, hbiased, hfraction]
  obtain ⟨⟨bits, valid⟩⟩ := x
  obtain ⟨⟨bits', valid'⟩⟩ := y
  cases (hbits : bits = bits')
  rfl

/-! ## Decimals -/

theorem ne_notANumber_of_roundWithAccuracy (spec : Format) (s : Sign) (m : Nat) (e : Int)
    (accuracy : Accuracy) : roundWithAccuracy spec s m e accuracy ≠ .notANumber := by
  unfold roundWithAccuracy
  dsimp only
  generalize ExtendedMantissa.mantissa _ = mantissa
  intro h
  cases mantissa <;> cases h

/-- What is packed into such bits is no number. -/
theorem eq_notANumber_of_pack {u : UnpackedFloat}
    (h : NaNBits (UnpackedFloat.pack Format.binary64 u)) : u = .notANumber := by
  obtain ⟨hexponent, hmantissa⟩ := h
  cases u with
  | notANumber => rfl
  | infinity s => exact absurd unpackMantissa_packComponents hmantissa
  | zero s =>
    have hzero := unpackExponent_packComponents.symm.trans hexponent
    cases hzero
  | finite s m e hm =>
    delta UnpackedFloat.pack at hexponent hmantissa
    dsimp only at hexponent hmantissa
    split at hexponent
    · next hlarge =>
      rw [if_pos hlarge] at hmantissa
      exact absurd unpackMantissa_packComponents hmantissa
    · next hlarge =>
      split at hexponent
      · -- The exponent is less than the last one, which numbers do not have.
        rw [unpackExponent_packComponents] at hexponent
        have hnat := congrArg BitVec.toNat hexponent
        rw [BitVec.toNat_ofNat, Nat.mod_eq_of_lt (Nat.lt_of_succ_lt (Nat.lt_of_not_le hlarge)),
          show (-1#11).toNat = 2047 from rfl] at hnat
        exact absurd (hnat ▸ Nat.le_refl 2048) hlarge
      · rw [unpackExponent_packComponents] at hexponent
        cases hexponent

theorem naNBits_of_unpack {b : BitVec 64}
    (h : UnpackedFloat.unpack Format.binary64 b = .notANumber) : NaNBits b := by
  unfold UnpackedFloat.unpack at h
  dsimp only at h
  by_cases hexponent : @unpackExponent Format.binary64 b = -1#_
  · refine ⟨hexponent, fun hmantissa => ?_⟩
    rw [if_pos hexponent, if_pos hmantissa] at h
    cases h
  · rw [if_neg hexponent] at h
    by_cases hzero : @unpackExponent Format.binary64 b = 0#_
    · rw [if_pos hzero] at h
      by_cases hmantissa : @unpackMantissa Format.binary64 b = 0#_
      · rw [dif_pos hmantissa] at h
        cases h
      · rw [dif_neg hmantissa] at h
        cases h
    · rw [if_neg hzero] at h
      cases h

theorem ne_notANumber_of_normalize (spec : Format) (m e : Int) (s : Sign) :
    UnpackedFloat.normalize spec m e s ≠ .notANumber := by
  unfold UnpackedFloat.normalize
  split
  · exact ne_notANumber_of_roundWithAccuracy _ _ _ _ _
  · simp
  · exact ne_notANumber_of_roundWithAccuracy _ _ _ _ _

/-- Whether it is a number other than zero. -/
def isProper : UnpackedFloat → Bool
  | .finite .. => true
  | _ => false

/-- Only what is no number gives none if it is divided by a number other than zero. -/
theorem eq_notANumber_of_div {spec : Format} {u v : UnpackedFloat} (hv : isProper v = true)
    (h : UnpackedFloat.div spec u v = .notANumber) : u = .notANumber := by
  cases v with
  | notANumber | infinity | zero => cases hv
  | finite s m e hm =>
    cases u with
    | notANumber => rfl
    | infinity | zero => cases h
    | finite => exact absurd h (ne_notANumber_of_roundWithAccuracy _ _ _ _ _)

theorem ne_notANumber_of_ofScientific (spec : Format) (m : Nat) (e : Int) :
    UnpackedFloat.ofScientific spec m e ≠ .notANumber := by
  unfold UnpackedFloat.ofScientific
  by_cases hm : m = 0
  · rw [dif_pos hm]
    intro h
    cases h
  · rw [dif_neg hm]
    -- What is too large is infinite and what is too small zero; all else is rounded.
    refine iteInduction (motive := (· ≠ notANumber)) (fun _ h => by cases h) fun _ => ?_
    refine iteInduction (motive := (· ≠ notANumber)) (fun _ h => by cases h) fun _ => ?_
    exact iteInduction (motive := (· ≠ notANumber))
      (fun _ => ne_notANumber_of_roundWithAccuracy _ _ _ _ _)
      fun _ => ne_notANumber_of_roundWithAccuracy _ _ _ _ _

theorem isProper_powers :
    (Float.exactlyRepresentablePowersOfTen.all fun x => isProper x.toModel.unpack) = true := by
  decide +kernel

/-- **A decimal is read as a number.** -/
theorem shape_ofScientific (m k : Nat) : shape (Float.ofScientific m true k) ≠ .nan := by
  intro h
  have hbits := naNBits_of_shape h
  unfold Float.ofScientific at hbits
  split at hbits
  · next hexact =>
    have hsize : k < Float.exactlyRepresentablePowersOfTen.size := Nat.lt_succ_of_le hexact.2
    have hpower := Array.all_eq_true.mp isProper_powers k hsize
    have hdividend := eq_notANumber_of_div hpower (eq_notANumber_of_pack hbits)
    exact ne_notANumber_of_normalize _ _ _ _
      (eq_notANumber_of_pack (naNBits_of_unpack hdividend))
  · exact ne_notANumber_of_ofScientific _ _ _ (eq_notANumber_of_pack hbits)

end Nya.Number
