import LoxLang.Proofs.Rounding
import Mathlib

/-!
# Doubles by their bits

A double is put together from its sign, its exponent and its mantissa (`exists_word`), and it is
finite unless the exponent is all ones. The index is what the exponent and the mantissa make
(`index_eq`), and the sign is independent of it.
-/

namespace LoxLang.Binary64

open Float.Model (Format UnpackedFloat)
open Float.Model.UnpackedFloat

theorem unpack_abs {spec : Format} (s : Sign) (e m) :
    (unpack spec (packComponents spec s e m)).abs =
      unpack spec (packComponents spec .positive e m) := by
  simp only [unpack, unpackExponent_packComponents, unpackMantissa_packComponents,
    unpackSign_packComponents, Sign.ofBitVec_toBitVec]
  split_ifs <;> rfl

theorem unpack_neg {spec : Format} (s : Sign) (e m) :
    (unpack spec (packComponents spec s e m)).neg = unpack spec (packComponents spec (-s) e m) := by
  simp only [unpack, unpackExponent_packComponents, unpackMantissa_packComponents,
    unpackSign_packComponents, Sign.ofBitVec_toBitVec]
  split_ifs <;> rfl

/-- The bits of a sign, an exponent and a mantissa. -/
abbrev word (s : Sign) (e : BitVec 11) (m : BitVec 52) : BitVec 64 :=
  packComponents .binary64 s e m

theorem valid_word (he : e ≠ -1#11) (s : Sign) (m : BitVec 52) :
    Format.binary64.Valid (word s e m) :=
  ⟨fun h => absurd (unpackExponent_packComponents.symm.trans h) he⟩

theorem toNat_word (s : Sign) (e : BitVec 11) (m : BitVec 52) :
    (word s e m).toNat = s.toBitVec.toNat * signBit + (e.toNat * perBinade + m.toNat) := by
  have hsplit : (word s e m).toNat = (s.toBitVec.toNat * 2 ^ 11 + e.toNat) * 2 ^ 52 + m.toNat := by
    rw [word, packComponents, BitVec.toNat_append, ← Nat.shiftLeft_add_eq_or_of_lt m.isLt,
      BitVec.toNat_append, ← Nat.shiftLeft_add_eq_or_of_lt e.isLt, Nat.shiftLeft_eq,
      Nat.shiftLeft_eq]
  have hsign : signBit = 2 ^ 11 * 2 ^ 52 := rfl
  rw [hsplit, perBinade_eq, hsign]
  ring

/-- The exponent and the mantissa do not reach the sign. -/
theorem magnitude_lt (e : BitVec 11) (m : BitVec 52) :
    e.toNat * perBinade + m.toNat < signBit := by
  have he := e.isLt
  have hm := m.isLt
  have hsign : signBit = 2 ^ 11 * 2 ^ 52 := rfl
  rw [hsign, perBinade_eq]
  omega

/-- The exponent of a finite double is not all ones. -/
theorem exists_word {x : Float} (h : x.isFinite = true) :
    ∃ s e m, e ≠ -1#11 ∧ x.toBits.toBitVec = word s e m := by
  let b : BitVec Format.binary64.numBits := x.toBits.toBitVec
  refine ⟨_, unpackExponent b, unpackMantissa b, fun he => ?_,
    (packComponents_unpackSign_unpackExponent_unpackMantissa b).symm⟩
  have hx : (unpack .binary64 b).isFinite = true := h
  simp only [unpack] at hx
  rw [if_pos he] at hx
  split at hx <;> cases hx

theorem toBits_abs {x : Float} (he : e ≠ -1#11) (hx : x.toBits.toBitVec = word s e m) :
    x.abs.toBits.toBitVec = word .positive e m := by
  have habs : x.abs.toBits.toBitVec =
      pack .binary64 (unpack .binary64 x.toBits.toBitVec).abs := rfl
  rw [habs, hx, unpack_abs, pack_unpack_of_valid (valid_word he _ m)]

theorem toBits_neg {x : Float} (he : e ≠ -1#11) (hx : x.toBits.toBitVec = word s e m) :
    (-x).toBits.toBitVec = word (-s) e m := by
  have hneg : (-x).toBits.toBitVec =
      pack .binary64 (unpack .binary64 x.toBits.toBitVec).neg := rfl
  rw [hneg, hx, unpack_neg, pack_unpack_of_valid (valid_word he _ m)]

theorem index_eq {x : Float} (hx : x.toBits.toBitVec = word s e m) :
    index x = e.toNat * perBinade + m.toNat := by
  have hbits : x.toBits.toNat = (word s e m).toNat := congrArg BitVec.toNat hx
  rw [index, hbits, toNat_word, Nat.mul_add_mod_self_right, Nat.mod_eq_of_lt (magnitude_lt e m)]

theorem isNegative_eq {x : Float} (hx : x.toBits.toBitVec = word s e m) :
    isNegative x = decide (s.toBitVec = 1#1) := by
  have hbits : x.toBits.toNat = (word s e m).toNat := congrArg BitVec.toNat hx
  have hlt := magnitude_lt e m
  rw [isNegative, hbits, toNat_word, decide_eq_decide]
  cases s with
  | positive => simp [Sign.toBitVec, hlt]
  | negative => simp [Sign.toBitVec]

/-! ## Finite doubles -/

theorem index_lt {x : Float} (h : x.isFinite = true) : index x < infinity := by
  obtain ⟨s, e, m, he, hx⟩ := exists_word h
  have hlt : e.toNat < 2047 := by
    have hne : e.toNat ≠ 2047 := fun heq => he (BitVec.eq_of_toNat_eq heq)
    have hle := e.isLt
    omega
  have hm := m.isLt
  rw [index_eq hx, infinity, perBinade_eq]
  omega

/-- The double of the index alone is the magnitude. -/
theorem ofIndex_index {x : Float} (h : x.isFinite = true) : ofIndex false (index x) = x.abs := by
  obtain ⟨s, e, m, he, hx⟩ := exists_word h
  have hword : (UInt64.ofNat (0 + index x)).toBitVec = word .positive e m := by
    refine BitVec.eq_of_toNat_eq ?_
    have hlt : index x < 2 ^ 64 := by
      rw [index_eq hx]
      exact (magnitude_lt e m).trans (by decide)
    rw [toNat_word, ← index_eq hx, Nat.zero_add]
    simpa [Sign.toBitVec] using Nat.mod_eq_of_lt hlt
  refine Float.toBits_inj.1 (UInt64.toBitVec_inj.1 ?_)
  rw [toBits_abs he hx, ← pack_unpack_of_valid (valid_word he .positive m), ← hword]
  rfl

/-- A double is its magnitude with its sign. -/
theorem signed_abs {x : Float} (h : x.isFinite = true) :
    (if isNegative x then -x.abs else x.abs) = x := by
  obtain ⟨s, e, m, he, hx⟩ := exists_word h
  have habs := toBits_abs he hx
  refine Float.toBits_inj.1 (UInt64.toBitVec_inj.1 ?_)
  rw [isNegative_eq hx, hx]
  cases s with
  | positive => simpa [Sign.toBitVec] using habs
  | negative =>
    have hneg : -Sign.positive = Sign.negative := rfl
    simpa [Sign.toBitVec, hneg] using toBits_neg he habs

end LoxLang.Binary64
