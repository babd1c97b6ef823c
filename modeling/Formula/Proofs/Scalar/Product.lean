import Formula.Proofs.Scalar.Order
import Formula.Proofs.Scalar.Parts

/-!
When the product of two doubles is above zero. Rounding keeps the sign but may lose the number: a product that is at most
half of the least double rounds to zero. So a product is above zero exactly if the exact product exceeds `2⁻¹⁰⁷⁵`.
-/

namespace Formula

open Float.Model (Format UnpackedFloat totalExponent)
open Float.Model.UnpackedFloat (Sign ExtendedMantissa shiftToTargetExponent shiftToExponent)

/-! ## Rounding -/

namespace Rounding

theorem shiftRight_succ (em : ExtendedMantissa) (k : Nat) : em >>> (k + 1) = (em >>> k).shiftRightOne := rfl

/-- What is shifted out leaves its first digit and whether the others are zero. -/
theorem shiftRight_exact (m k : Nat) : ExtendedMantissa.ofMantissaAndAccuracy m .exact >>> (k + 1) =
    ⟨m / 2 ^ (k + 1), m / 2 ^ k % 2 != 0, m % 2 ^ k != 0⟩ := by
  induction k with
  | zero =>
    simp [ExtendedMantissa.shiftRightOne, ExtendedMantissa.ofMantissaAndAccuracy, HShiftRight.hShiftRight, Nat.repeat,
      Nat.mod_one]
  | succ k ih =>
    have hmod : m % 2 ^ (k + 1) = m / 2 ^ k % 2 * 2 ^ k + m % 2 ^ k := by
      rw [pow_succ, Nat.mod_mul, add_comm, mul_comm]
    have hsticky : (m % 2 ^ (k + 1) != 0) = (m / 2 ^ k % 2 != 0 || m % 2 ^ k != 0) := by
      rw [hmod, Bool.eq_iff_iff]
      simp only [bne_iff_ne, Bool.or_eq_true, ne_eq, Nat.add_eq_zero_iff, Nat.mul_eq_zero, Nat.two_pow_pos k |>.ne']
      tauto
    rw [shiftRight_succ, ih, hsticky, pow_succ 2 (k + 1), ← Nat.div_div_eq_div_mul]
    rfl

theorem mantissa_shiftRight (m k : Nat) :
    (ExtendedMantissa.ofMantissaAndAccuracy m .exact >>> k).mantissa = m / 2 ^ k := by
  cases k with
  | zero => exact (Nat.div_one m).symm
  | succ k => rw [shiftRight_exact]

theorem roundedMantissa_eq_zero_iff (em : ExtendedMantissa) :
    em.roundedMantissa = 0 ↔ em.mantissa = 0 ∧ (em.roundBit && em.stickyBit) = false := by
  obtain ⟨m, _ | _, _ | _⟩ := em <;>
    simp [ExtendedMantissa.roundedMantissa, ExtendedMantissa.accuracy,
      Float.Model.UnpackedFloat.Accuracy.roundToNearestEven]
  omega

/-- A shift loses a number that is at most half of the last place. -/
theorem rounded_shift_eq_zero_iff {m : Nat} (hm : 0 < m) (k : Nat) :
    (ExtendedMantissa.ofMantissaAndAccuracy m .exact >>> k).roundedMantissa = 0 ↔ 2 * m ≤ 2 ^ k := by
  cases k with
  | zero =>
    change m = 0 ↔ 2 * m ≤ 1
    omega
  | succ k =>
    have hdiv := Nat.div_add_mod m (2 ^ k)
    have hrest := Nat.mod_lt m (Nat.two_pow_pos k)
    rw [shiftRight_exact, roundedMantissa_eq_zero_iff, pow_succ]
    simp only [Nat.div_eq_zero_iff, Bool.and_eq_false_iff, bne_eq_false_iff_eq]
    generalize m / 2 ^ k = q at *
    generalize m % 2 ^ k = r at *
    match q with
    | 0 | 1 => omega
    | q + 2 =>
      have := Nat.le_mul_of_pos_right (2 ^ k) (Nat.succ_pos q)
      rw [show q + 2 = q.succ + 1 from rfl, mul_add] at hdiv
      omega

theorem targetExponent_eq (t : Int) : Format.binary64.targetExponent t = max (t - 53) (-1074) := rfl

/-- A number above zero stays so where it is shifted to the place of its leading digits, and these are fifty-three. -/
theorem shift_bounds {m : Nat} (hm : 0 < m) {e : Int} (he : -1074 ≤ e) :
    0 < m / 2 ^ (Format.binary64.targetExponent (totalExponent m e) - e).toNat ∧
      m / 2 ^ (Format.binary64.targetExponent (totalExponent m e) - e).toNat < 2 ^ 53 := by
  have hlow := Nat.log2_self_le hm.ne'
  have hhigh := Nat.lt_log2_self (n := m)
  have hk : (Format.binary64.targetExponent (totalExponent m e) - e).toNat = m.log2 - 52 := by
    rw [targetExponent_eq, totalExponent]
    omega
  rw [hk]
  generalize m.log2 = l at *
  have hle : 2 ^ (l - 52) ≤ 2 ^ l := Nat.pow_le_pow_right two_pos (Nat.sub_le _ _)
  have hlt : 2 ^ (l + 1) ≤ 2 ^ 53 * 2 ^ (l - 52) := by
    rw [← pow_add]
    exact Nat.pow_le_pow_right two_pos (by omega)
  exact ⟨Nat.div_pos (hle.trans hlow) (Nat.two_pow_pos _),
    (Nat.div_lt_iff_lt_mul (Nat.two_pow_pos _)).2 (hhigh.trans_le hlt)⟩

/-- The place of the leading digits plays no part in what is lost. -/
theorem le_shift_iff {m : Nat} (hm : 0 < m) (e : Int) :
    2 * m ≤ 2 ^ (Format.binary64.targetExponent (totalExponent m e) - e).toNat ↔ 2 * m ≤ 2 ^ (-1074 - e).toNat := by
  have hk : (Format.binary64.targetExponent (totalExponent m e) - e).toNat = max (m.log2 - 52) (-1074 - e).toNat := by
    rw [targetExponent_eq, totalExponent]
    omega
  have hlow : 2 ^ (m.log2 - 52) ≤ m := (Nat.pow_le_pow_right two_pos (Nat.sub_le _ _)).trans (Nat.log2_self_le hm.ne')
  rw [hk]
  rcases max_cases (m.log2 - 52) (-1074 - e).toNat with ⟨h, hle⟩ | ⟨h, -⟩
  · have : 2 ^ (-1074 - e).toNat ≤ 2 ^ (m.log2 - 52) := Nat.pow_le_pow_right two_pos hle
    rw [h]
    omega
  · rw [h]

/-- Rounding leaves zero of what is at most half of the last place, and of anything else a number that fits. -/
theorem roundWithAccuracy_cases (s : Sign) {m : Nat} (hm : 0 < m) (e : Int) :
    (2 * m ≤ 2 ^ (-1074 - e).toNat ∧ UnpackedFloat.roundWithAccuracy .binary64 s m e .exact = .zero s) ∨
    (2 ^ (-1074 - e).toNat < 2 * m ∧ ∃ n d hn, n < 2 ^ 53 ∧ -1074 ≤ d ∧
      UnpackedFloat.roundWithAccuracy .binary64 s m e .exact = .finite s n d hn) := by
  have hzero := (rounded_shift_eq_zero_iff hm _).trans (le_shift_iff hm e)
  have he : -1074 ≤ e + (Format.binary64.targetExponent (totalExponent m e) - e).toNat := by
    rw [targetExponent_eq]
    omega
  unfold UnpackedFloat.roundWithAccuracy shiftToTargetExponent shiftToExponent
  simp only [mantissa_shiftRight]
  generalize (ExtendedMantissa.ofMantissaAndAccuracy m .exact >>>
    (Format.binary64.targetExponent (totalExponent m e) - e).toNat).roundedMantissa = r at hzero ⊢
  generalize e + (Format.binary64.targetExponent (totalExponent m e) - e).toNat = d at he ⊢
  -- the second shift only makes room for a carry and loses nothing
  rcases Nat.eq_zero_or_pos r with rfl | hr
  · left
    exact ⟨hzero.1 rfl, dif_pos (Nat.zero_div _)⟩
  · right
    obtain ⟨hpos, hlt⟩ := shift_bounds hr he
    refine ⟨lt_of_not_ge fun h => hr.ne' (hzero.2 h), _, _, hpos, hlt, ?_, dif_neg hpos.ne'⟩
    omega

end Rounding

/-! ## Signs -/

/-- A number above zero. -/
def Positive : UnpackedFloat → Prop
  | .infinity s | .finite s _ _ _ => s = .positive
  | .zero _ | .notANumber => False

namespace Positive

theorem zero_lt_iff {x : Float} : 0.0 < x ↔ Positive x.toModel.unpack := by
  have hzero : (0.0 : Float).toModel.unpack = .zero .positive := rfl
  rw [Scalar.lt_iff, Rank.lt_iff, hzero]
  rcases x.toModel.unpack with (_ | _) | _ | _ | ⟨_ | _, m, e, hm⟩ <;>
    simp [Positive, Rank.of, Prod.Lex.toLex_lt_toLex]

theorem decode_iff (s : Sign) (e : BitVec 11) (m : BitVec 52) :
    Positive (Parts.decode s e m) ↔ s = .positive ∧ ¬ (e = 0#11 ∧ m = 0#52) := by
  unfold Parts.decode
  split
  · next he =>
    split
    · next hm => simp [Positive, he, hm]
    · next hm => simp [Positive, hm]
  · next he => simp [Positive, he]

/-- A number that fits keeps its sign among the doubles; it may become infinite there but not zero. -/
theorem unpack_pack (s : Sign) {m : Nat} {e : Int} (hm : 0 < m) (hlt : m < 2 ^ 53) (he : -1074 ≤ e) :
    Positive (UnpackedFloat.unpack .binary64 (UnpackedFloat.pack .binary64 (.finite s m e hm))) ↔ s = .positive := by
  have hbias : (Format.exponentBias .binary64 : Nat) = 1023 := rfl
  have hlog : m.log2 < 53 := (Nat.log2_lt hm.ne').2 hlt
  unfold UnpackedFloat.pack
  simp only [hbias]
  split
  · have : UnpackedFloat.unpack .binary64 (UnpackedFloat.packedInfinity .binary64 s) = .infinity s := by cases s <;> rfl
    rw [this, Positive]
  · next hfits =>
    have hpos : 0 < (e + (1023 : Nat) + (52 : Nat)).toNat := by omega
    have hfits : (e + (1023 : Nat) + (52 : Nat)).toNat + 1 < 2 ^ 11 := not_le.1 hfits
    split
    · generalize (e + (1023 : Nat) + (52 : Nat)).toNat = b at hpos hfits
      have hb : (BitVec.ofNat 11 b).toNat = b := Nat.mod_eq_of_lt (by omega)
      have htop : BitVec.ofNat 11 b ≠ -1#11 := fun h => by
        have : b = 2 ^ 11 - 1 := hb ▸ congrArg BitVec.toNat h
        omega
      have hzero : BitVec.ofNat 11 b ≠ 0#11 := fun h => by
        have : b = 0 := hb ▸ congrArg BitVec.toNat h
        omega
      rw [Parts.unpack_packComponents _ _ htop, decode_iff]
      exact and_iff_left fun h => hzero h.1
    · next hsubnormal =>
      rw [Parts.unpack_packComponents _ _ (by decide), decode_iff]
      have hsmall : m < 2 ^ 52 := by
        have : m.log2 + 1 ≠ 53 := hsubnormal
        exact (Nat.log2_lt hm.ne').1 (by omega)
      have hne : BitVec.ofNat 52 m ≠ 0#52 := by
        intro h
        have : m % 2 ^ 52 = 0 := congrArg BitVec.toNat h
        omega
      exact and_iff_left fun h => hne h.2

end Positive

/-! ## Products -/

/-- Where doubles end: half of the least one above zero. -/
def halfLeast : ℚ := 2 ^ (-1075 : Int)

theorem halfLeast_lt_iff {m : Nat} (hm : 0 < m) (e : Int) :
    halfLeast < m * 2 ^ e ↔ 2 ^ (-1074 - e).toNat < 2 * m := by
  rcases lt_or_ge e (-1074) with he | he
  · have hk : halfLeast * 2 = (2 ^ (-1074 - e).toNat : Nat) * 2 ^ e := by
      rw [halfLeast, ← zpow_add_one₀ two_ne_zero, Nat.cast_pow, ← zpow_natCast, Nat.cast_ofNat, ← zpow_add₀ two_ne_zero]
      congr 1
      omega
    rw [← mul_lt_mul_iff_left₀ (two_pos : (0 : ℚ) < 2), hk, mul_right_comm,
      mul_lt_mul_iff_left₀ (zpow_pos (two_pos : (0 : ℚ) < 2) e), ← Nat.cast_lt (α := ℚ), Nat.cast_mul, mul_comm]
    rfl
  · have hk : (-1074 - e).toNat = 0 := by omega
    have hpow : halfLeast < 2 ^ e := zpow_lt_zpow_right₀ (by norm_num) (by omega)
    have hone : (1 : ℚ) ≤ m := by exact_mod_cast hm
    rw [hk]
    exact iff_of_true (hpow.trans_le (le_mul_of_one_le_left (by positivity) hone)) (by omega)

theorem unpack_pack_zero (s : Sign) :
    UnpackedFloat.unpack .binary64 (UnpackedFloat.pack .binary64 (.zero s)) = .zero s := by
  cases s <;> rfl

/-- A rounded number is above zero if its sign says so and it is not lost. -/
theorem positive_roundWithAccuracy_iff (s : Sign) {m : Nat} (hm : 0 < m) (e : Int) :
    Positive (UnpackedFloat.unpack .binary64
      (UnpackedFloat.pack .binary64 (UnpackedFloat.roundWithAccuracy .binary64 s m e .exact))) ↔
    s = .positive ∧ halfLeast < m * 2 ^ e := by
  rw [halfLeast_lt_iff hm]
  rcases Rounding.roundWithAccuracy_cases s hm e with ⟨hle, h⟩ | ⟨hlt, n, d, hn, hfits, hd, h⟩
  · rw [h, unpack_pack_zero, Positive]
    exact iff_of_false id fun h => h.2.not_ge hle
  · rw [h, Positive.unpack_pack s hn hfits hd]
    exact (and_iff_left hlt).symm

/-- What a finite number stands for; the others count zero. -/
def exactValue : UnpackedFloat → ℚ
  | .finite s m e _ => s.apply m * 2 ^ e
  | .infinity _ | .zero _ | .notANumber => 0

theorem apply_mul_apply (s t : Sign) (m n : Nat) : s.apply m * t.apply n = (s * t).apply (m * n : Nat) := by
  have h : ((m * n : Nat) : Int) = m * n := Int.natCast_mul m n
  cases s <;> cases t
  · exact (neg_mul_neg _ _).trans h.symm
  · exact (neg_mul _ _).trans (congrArg _ h.symm)
  · exact (mul_neg _ _).trans (congrArg _ h.symm)
  · exact h.symm

theorem positive_mul_iff {u v : UnpackedFloat} (hu : u.isFinite) (hv : v.isFinite) :
    Positive (UnpackedFloat.unpack .binary64 (UnpackedFloat.pack .binary64 (u.mul .binary64 v))) ↔
      halfLeast < exactValue u * exactValue v := by
  have hnot {q : ℚ} (hq : q ≤ 0) : ¬ halfLeast < q := not_lt.2 (hq.trans (zpow_nonneg zero_le_two _))
  rcases u with _ | _ | s | ⟨s, m, e, hm⟩
  · cases hu
  · cases hu
  · rcases v with _ | _ | t | ⟨t, n, d, hn⟩
    · cases hv
    · cases hv
    all_goals
      rw [UnpackedFloat.mul, unpack_pack_zero]
      exact iff_of_false id (hnot (zero_mul _).le)
  · rcases v with _ | _ | t | ⟨t, n, d, hn⟩
    · cases hv
    · cases hv
    · rw [UnpackedFloat.mul, unpack_pack_zero]
      exact iff_of_false id (hnot (mul_zero _).le)
    · have hprod : exactValue (.finite s m e hm) * exactValue (.finite t n d hn) =
          (s * t).apply (m * n : Nat) * 2 ^ (e + d) := by
        rw [exactValue, exactValue, zpow_add₀ two_ne_zero, mul_mul_mul_comm, ← Int.cast_mul, apply_mul_apply]
      rw [UnpackedFloat.mul, positive_roundWithAccuracy_iff _ (Nat.mul_pos hm hn), hprod]
      cases s * t with
      | positive => exact and_iff_right rfl
      | negative =>
        refine iff_of_false (fun h => nomatch h.1) (hnot (mul_nonpos_of_nonpos_of_nonneg ?_ (by positivity)))
        exact_mod_cast Int.neg_nonpos_of_nonneg (Int.natCast_nonneg (m * n))

namespace Scalar

/-- What a finite double stands for. -/
def value (x : Float) : ℚ := exactValue x.toModel.unpack

variable {a b : Float}

theorem beq_zero_iff (ha : isFinite a) : a == 0.0 ↔ value a = 0 := by
  change a.toModel.unpack.isFinite at ha
  change a.toModel.unpack.compare (.zero .positive) == some .eq ↔ exactValue a.toModel.unpack = 0
  generalize a.toModel.unpack = u at ha ⊢
  rcases u with _ | _ | s | ⟨s, m, e, hm⟩
  · cases ha
  · cases ha
  · cases s <;> simp [UnpackedFloat.compare, exactValue]
  · have := zpow_ne_zero e (two_ne_zero (α := ℚ))
    cases s <;> simp [UnpackedFloat.compare, exactValue, Sign.apply, hm.ne', this]

theorem zero_lt_iff (ha : isFinite a) : 0.0 < a ↔ 0 < value a := by
  change a.toModel.unpack.isFinite at ha
  rw [Positive.zero_lt_iff, value]
  generalize a.toModel.unpack = u at ha ⊢
  rcases u with _ | _ | s | ⟨s, m, e, hm⟩
  · cases ha
  · cases ha
  · simp [Positive, exactValue]
  · have hpos : (0 : ℚ) < m * 2 ^ e := mul_pos (Nat.cast_pos.2 hm) (zpow_pos two_pos e)
    cases s <;> simp [Positive, exactValue, Sign.apply, hpos, hpos.le]

theorem lt_zero_iff (ha : isFinite a) : a < 0.0 ↔ value a < 0 := by
  have hzero : (0.0 : Float).toModel.unpack = .zero .positive := rfl
  change a.toModel.unpack.isFinite at ha
  rw [lt_iff, Rank.lt_iff, hzero, value]
  generalize a.toModel.unpack = u at ha ⊢
  rcases u with _ | _ | s | ⟨s, m, e, hm⟩
  · cases ha
  · cases ha
  · simp [Rank.of, exactValue]
  · have hpos : (0 : ℚ) < m * 2 ^ e := mul_pos (Nat.cast_pos.2 hm) (zpow_pos two_pos e)
    cases s <;> simp [Rank.of, exactValue, Sign.apply, Prod.Lex.toLex_lt_toLex, hpos, hpos.le]

/-- The product of two finite doubles is above zero exactly if the exact product is above half of the least double. -/
theorem zero_lt_mul_iff (ha : isFinite a) (hb : isFinite b) : 0.0 < a * b ↔ halfLeast < value a * value b :=
  Positive.zero_lt_iff.trans (positive_mul_iff ha hb)

end Scalar

end Formula
