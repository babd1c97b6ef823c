import Mathlib
import Formula.Scalar.Double

/-!
Finite doubles by their parts: a sign, eleven bits of exponent and fifty-two of mantissa. Negation and magnitude touch
the sign only, so a number with a minus is the negation of its magnitude, and prints like it.
-/

namespace Formula

open Float.Model (Format UnpackedFloat)
open Float.Model.UnpackedFloat (Sign packComponents unpackSign)

namespace Parts

variable (s : Sign) (e : BitVec 11) (m : BitVec 52)

/-! ## Bits -/

theorem toNat_packComponents : (packComponents .binary64 s e m).toNat =
    s.toBitVec.toNat * 2 ^ 63 + e.toNat * 2 ^ 52 + m.toNat := by
  have he := e.isLt
  have hm := m.isLt
  have hp : (packComponents .binary64 s e m).toNat =
      (s.toBitVec.toNat <<< 11 ||| e.toNat) <<< 52 ||| m.toNat := by
    rw [packComponents, BitVec.toNat_append, BitVec.toNat_append]
  rw [hp, ← Nat.shiftLeft_add_eq_or_of_lt hm, ← Nat.shiftLeft_add_eq_or_of_lt he, Nat.shiftLeft_eq, Nat.shiftLeft_eq]
  omega

theorem unpackSign_packComponents : unpackSign (packComponents .binary64 s e m) = s.toBitVec := by
  apply BitVec.eq_of_toNat_eq
  have he := e.isLt
  have hm := m.isLt
  have hs := s.toBitVec.isLt
  rw [unpackSign, BitVec.toNat_cast, BitVec.extractLsb_toNat, Nat.shiftRight_eq_div_pow]
  change (packComponents .binary64 s e m).toNat / 2 ^ 63 % 2 ^ 1 = _
  rw [toNat_packComponents]
  omega

theorem exists_packComponents (b : BitVec 64) : ∃ s e m, b = packComponents .binary64 s e m := by
  have hb := b.isLt
  refine ⟨if b.toNat < 2 ^ 63 then .positive else .negative, .ofNat 11 (b.toNat / 2 ^ 52), .ofNat 52 b.toNat,
    BitVec.eq_of_toNat_eq ?_⟩
  rw [toNat_packComponents, BitVec.toNat_ofNat, BitVec.toNat_ofNat]
  split
  · change _ = 0 * 2 ^ 63 + _ + _
    omega
  · change _ = 1 * 2 ^ 63 + _ + _
    omega

/-! ## Numbers -/

/-- The number the parts stand for; a zero exponent marks those too small for the leading digit of the others. -/
def decode : UnpackedFloat :=
  if e = 0#11 then
    if h : m = 0#52 then .zero s else .finite s m.toNat (-1074) (by simpa [BitVec.toNat_pos, BitVec.pos_iff_ne_zero])
  else .finite s (2 ^ 52 + m.toNat) (e.toNat - 1075) (by omega)

theorem neg_decode : (decode s e m).neg = decode (-s) e m := by
  unfold decode
  split
  · split <;> rfl
  · rfl

theorem abs_decode : (decode s e m).abs = decode .positive e m := by
  unfold decode
  split
  · split <;> rfl
  · rfl

theorem sign_ofBitVec : Sign.ofBitVec s.toBitVec = s := by
  cases s <;> rfl

variable {e}

theorem unpack_packComponents (he : e ≠ -1#11) :
    UnpackedFloat.unpack .binary64 (packComponents .binary64 s e m) = decode s e m := by
  have hm : (1#1 ++ m).toNat = 2 ^ 52 + m.toNat := by
    rw [BitVec.toNat_append, ← Nat.shiftLeft_add_eq_or_of_lt m.isLt]
    rfl
  unfold UnpackedFloat.unpack decode
  simp only [UnpackedFloat.unpackMantissa_packComponents, UnpackedFloat.unpackExponent_packComponents,
    unpackSign_packComponents, sign_ofBitVec]
  rw [if_neg he]
  split
  · next h0 =>
    subst h0
    rfl
  · simp only [hm]
    rfl

theorem pack_decode (he : e ≠ -1#11) :
    UnpackedFloat.pack .binary64 (decode s e m) = packComponents .binary64 s e m := by
  have hm := m.isLt
  have hlt : e.toNat + 1 < 2 ^ 11 := by
    have := e.isLt
    have : e.toNat ≠ 2 ^ 11 - 1 := fun h => he (BitVec.eq_of_toNat_eq h)
    omega
  unfold decode
  split
  · next h0 =>
    subst h0
    split
    · next hz =>
      subst hz
      rfl
    · next hz =>
      have hpos : m.toNat ≠ 0 := fun h => hz (BitVec.eq_of_toNat_eq h)
      have hlog : m.toNat.log2 < 52 := (Nat.log2_lt hpos).2 hm
      unfold UnpackedFloat.pack
      rw [if_neg (by decide), if_neg (by change ¬ m.toNat.log2 + 1 = 53; omega), BitVec.ofNat_toNat, BitVec.setWidth_eq]
  · have hlog : (2 ^ 52 + m.toNat).log2 = 52 := (Nat.log2_eq_iff (by omega)).2 (by omega)
    have hexp : (((e.toNat : Int) - 1075) + (Format.exponentBias .binary64 : Nat) + (52 : Nat)).toNat = e.toNat := by
      change ((e.toNat : Int) - 1075 + (1023 : Nat) + (52 : Nat)).toNat = _
      omega
    unfold UnpackedFloat.pack
    simp only [hexp, hlog]
    rw [if_neg (by omega), if_pos (by rfl), BitVec.ofNat_toNat, BitVec.setWidth_eq]
    congr 1
    apply BitVec.eq_of_toNat_eq
    rw [BitVec.toNat_ofNat]
    omega

/-! ## Doubles -/

variable (e)

def double : Float := .ofModel (.pack (decode s e m))

variable {e}

theorem toNat_toBits_double (he : e ≠ -1#11) :
    (double s e m).toBits.toNat = s.toBitVec.toNat * 2 ^ 63 + e.toNat * 2 ^ 52 + m.toNat := by
  change (UnpackedFloat.pack .binary64 (decode s e m)).toNat = _
  rw [pack_decode s m he, toNat_packComponents]

theorem unpack_double (he : e ≠ -1#11) : (double s e m).toModel.unpack = decode s e m := by
  change UnpackedFloat.unpack .binary64 (UnpackedFloat.pack .binary64 (decode s e m)) = _
  rw [pack_decode s m he, unpack_packComponents s m he]

theorem neg_double (he : e ≠ -1#11) : -double s e m = double (-s) e m := by
  change Float.ofModel (.pack (double s e m).toModel.unpack.neg) = _
  rw [unpack_double s m he, neg_decode, double]

theorem abs_double (he : e ≠ -1#11) : (double s e m).abs = double .positive e m := by
  change Float.ofModel (.pack (double s e m).toModel.unpack.abs) = _
  rw [unpack_double s m he, abs_decode, double]

theorem exists_double {x : Float} (h : x.isFinite) : ∃ s e m, e ≠ -1#11 ∧ x = double s e m := by
  obtain ⟨⟨⟨b⟩, hv⟩⟩ := x
  obtain ⟨s, e, m, hb⟩ := exists_packComponents b
  have he : e ≠ -1#11 := by
    rintro rfl
    change (UnpackedFloat.unpack .binary64 b).isFinite at h
    rw [hb, UnpackedFloat.unpack] at h
    simp only [UnpackedFloat.unpackExponent_packComponents, if_true] at h
    split at h <;> cases h
  refine ⟨s, e, m, he, ?_⟩
  simp only [double, Float.Model.pack, pack_decode s m he, hb]

/-! ## Text -/

theorem ofFloat_double (he : e ≠ -1#11) : Decimal.Binary.ofFloat (double s e m) = ⟨s.toBitVec.toNat == 1,
    if e.toNat = 0 then .finite m.toNat (-1074) else .finite (2 ^ 52 + m.toNat) (e.toNat - 1075)⟩ := by
  have hm := m.isLt
  have hlt : e.toNat < 2 ^ 11 - 1 := by
    have := e.isLt
    have : e.toNat ≠ 2 ^ 11 - 1 := fun h => he (BitVec.eq_of_toNat_eq h)
    omega
  have hs := s.toBitVec.isLt
  unfold Decimal.Binary.ofFloat
  rw [toNat_toBits_double s m he]
  generalize s.toBitVec.toNat = k at hs ⊢
  have hsign : (k * 2 ^ 63 + e.toNat * 2 ^ 52 + m.toNat) / Nat.pow 2 63 = k := by
    change _ / 2 ^ 63 = _
    omega
  have hexp : (k * 2 ^ 63 + e.toNat * 2 ^ 52 + m.toNat) / Nat.pow 2 52 % Nat.pow 2 11 = e.toNat := by
    change _ / 2 ^ 52 % 2 ^ 11 = _
    omega
  have hfrac : (k * 2 ^ 63 + e.toNat * 2 ^ 52 + m.toNat) % Nat.pow 2 52 = m.toNat := by
    change _ % 2 ^ 52 = _
    omega
  simp only [hsign, hexp, hfrac]
  rw [if_neg (by omega)]
  rfl

end Parts

/-- A number with a minus: the negation of its magnitude, and printed so. -/
structure Scalar.Signed {α : Type} [Scalar α] (v : α) : Prop where
  neg_abs : -Scalar.abs v = v
  text : Scalar.text v = "-" ++ Scalar.text (Scalar.abs v)
  isNegative_abs : Scalar.isNegative (Scalar.abs v) = false

namespace Scalar

open Parts

theorem exists_double_of_isNegative {x : Float} {b : Bool} (hf : isFinite x) (hn : isNegative x = b) :
    ∃ e m, e ≠ -1#11 ∧ x = double (if b then .negative else .positive) e m := by
  obtain ⟨s, e, m, he, rfl⟩ := exists_double hf
  refine ⟨e, m, he, ?_⟩
  change (Decimal.Binary.ofFloat (double s e m)).negative = b at hn
  rw [← hn, ofFloat_double s m he]
  cases s <;> rfl

theorem abs_of_not_isNegative {x : Float} (hf : isFinite x) (hn : isNegative x = false) : abs x = x := by
  obtain ⟨e, m, he, rfl⟩ := exists_double_of_isNegative hf hn
  exact abs_double .positive m he

theorem signed_of_isNegative {x : Float} (hf : isFinite x) (hn : isNegative x) : Signed x := by
  obtain ⟨e, m, he, rfl⟩ := exists_double_of_isNegative hf hn
  rw [if_pos rfl]
  have ha : abs (double .negative e m) = double .positive e m := abs_double .negative m he
  refine ⟨?_, ?_, ?_⟩
  · rw [ha]
    exact neg_double .positive m he
  · rw [ha]
    apply String.toList_injective
    change (Decimal.shortestText (double .negative e m)).toList =
      ("-" ++ Decimal.shortestText (double .positive e m)).toList
    rw [Decimal.shortestText, Decimal.shortestText, ofFloat_double .negative m he, ofFloat_double .positive m he]
    split <;> simp [Decimal.Binary.text, Decimal.signed, Sign.toBitVec]
  · rw [ha]
    change (Decimal.Binary.ofFloat (double .positive e m)).negative = false
    rw [ofFloat_double .positive m he]
    rfl

end Scalar

end Formula
