import Formula.Proofs.Scalar.Parts

/-!
Decimal numerals have no sign: the double a numeral denotes is never not-a-number and never carries a minus, not even
where it rounds to zero or overflows.
-/

namespace Formula

open Float.Model (Format UnpackedFloat)
open Float.Model.UnpackedFloat (Sign Accuracy packComponents)

/-- A number whose sign is plus. -/
def Unsigned : UnpackedFloat → Prop
  | .infinity s | .zero s | .finite s _ _ _ => s = .positive
  | .notANumber => False

namespace Unsigned

/-! ## Arithmetic -/

theorem roundWithAccuracy (m : Nat) (e : Int) (a : Accuracy) :
    Unsigned (UnpackedFloat.roundWithAccuracy .binary64 .positive m e a) := by
  unfold UnpackedFloat.roundWithAccuracy
  simp only
  split <;> rfl

theorem ofNat (n : Nat) : Unsigned (UnpackedFloat.ofNat .binary64 n) := by
  unfold UnpackedFloat.ofNat UnpackedFloat.ofInt UnpackedFloat.normalize
  split
  · next h => exact absurd (Std.compare_eq_lt.1 h) (by omega)
  · rfl
  · exact roundWithAccuracy _ _ _

def isPositive : UnpackedFloat → Bool
  | .finite .positive .. => true
  | _ => false

theorem div {f d : UnpackedFloat} (h : Unsigned f) (hd : isPositive d) : Unsigned (f.div .binary64 d) := by
  rcases d with _ | _ | _ | ⟨_ | _, m, e, hm⟩ <;> simp only [isPositive, Bool.false_eq_true] at hd
  cases f with
  | notANumber => exact h.elim
  | infinity s | zero s =>
    subst h
    rfl
  | finite s =>
    subst h
    exact roundWithAccuracy _ _ _

theorem ofScientific (m : Nat) (e : Int) : Unsigned (UnpackedFloat.ofScientific .binary64 m e) := by
  unfold UnpackedFloat.ofScientific
  split
  · rfl
  · split
    · rfl
    · split
      · rfl
      · split
        · exact roundWithAccuracy _ _ _
        · exact roundWithAccuracy _ _ _

/-! ## Bits -/

theorem packComponents_lt (e : BitVec 11) (m : BitVec 52) :
    (packComponents .binary64 .positive e m).toNat < 2 ^ 63 := by
  have he := e.isLt
  have hm := m.isLt
  rw [Parts.toNat_packComponents]
  change 0 * 2 ^ 63 + _ + _ < _
  omega

-- The exponent with all bits set is left to infinity, whose mantissa is zero.
theorem pack {f : UnpackedFloat} (h : Unsigned f) : ∃ (e : BitVec 11) (m : BitVec 52),
    f.pack .binary64 = packComponents .binary64 .positive e m ∧ (e = -1#11 → m = 0#52) := by
  fun_cases UnpackedFloat.pack .binary64 f with
  | case1 => exact h.elim
  | case2 s | case3 s | case4 s =>
    subst h
    exact ⟨_, _, rfl, fun _ => rfl⟩
  | case5 s m e hm a b hb =>
    subst h
    refine ⟨_, _, rfl, fun he => ?_⟩
    have hb : ¬ 2 ^ 11 ≤ b + 1 := hb
    have hv : b % 2 ^ 11 = 2 ^ 11 - 1 := congrArg BitVec.toNat he
    omega
  | case6 s =>
    subst h
    exact ⟨_, _, rfl, fun he => absurd he (by decide)⟩

theorem unpack {e : BitVec 11} {m : BitVec 52} (h : e = -1#11 → m = 0#52) :
    Unsigned (UnpackedFloat.unpack .binary64 (packComponents .binary64 .positive e m)) := by
  unfold UnpackedFloat.unpack
  simp only [UnpackedFloat.unpackMantissa_packComponents, UnpackedFloat.unpackExponent_packComponents,
    Parts.unpackSign_packComponents, Parts.sign_ofBitVec]
  split
  · rw [if_pos (h ‹_›)]
    rfl
  · split
    · split <;> rfl
    · rfl

/-! ## Doubles -/

variable {f : UnpackedFloat}

theorem isNaN (h : Unsigned f) : Float.isNaN (.ofModel (.pack f)) = false := by
  obtain ⟨e, m, hp, hm⟩ := h.pack
  have hu := unpack hm
  rw [← hp] at hu
  change (UnpackedFloat.unpack .binary64 (f.pack .binary64)).isNaN = false
  cases hf : UnpackedFloat.unpack .binary64 (f.pack .binary64) with
  | notANumber =>
    rw [hf] at hu
    exact hu.elim
  | infinity | zero | finite => rfl

theorem isNegative (h : Unsigned f) : Scalar.isNegative (Float.ofModel (.pack f)) = false := by
  obtain ⟨e, m, hp, -⟩ := h.pack
  change ((f.pack .binary64).toNat / 2 ^ 63 == 1) = false
  rw [hp, Nat.div_eq_of_lt (packComponents_lt e m)]
  rfl

theorem isPositive_power : ∀ x ∈ Float.exactlyRepresentablePowersOfTen, isPositive x.toModel.unpack := by
  have : Float.exactlyRepresentablePowersOfTen.all (fun x => isPositive x.toModel.unpack) := by decide +kernel
  simpa only [Array.all_eq_true_iff_forall_mem] using this

/-- Short numerals are one division of exact doubles, the others are rounded from their exact value. -/
theorem ofDigits (n places : Nat) : ∃ f, Unsigned f ∧ (Scalar.ofDigits n places : Float) = .ofModel (.pack f) := by
  change ∃ f, Unsigned f ∧ Float.ofScientific n true places = .ofModel (.pack f)
  unfold Float.ofScientific
  split
  · have hn := ofNat n.toUInt64.toNat
    obtain ⟨e, m, hp, hm⟩ := hn.pack
    have hu : Unsigned n.toUInt64.toFloat.toModel.unpack := by
      change Unsigned (UnpackedFloat.unpack .binary64 ((UnpackedFloat.ofNat .binary64 n.toUInt64.toNat).pack .binary64))
      rw [hp]
      exact unpack hm
    exact ⟨_, hu.div (isPositive_power _ (Array.getElem_mem _)), rfl⟩
  · exact ⟨_, ofScientific n _, rfl⟩

end Unsigned

theorem Scalar.ofDigits_unsigned (n places : Nat) :
    Scalar.isNaN (Scalar.ofDigits n places : Float) = false ∧
      Scalar.isNegative (Scalar.ofDigits n places : Float) = false := by
  obtain ⟨f, hf, hx⟩ := Unsigned.ofDigits n places
  rw [hx]
  exact ⟨hf.isNaN, hf.isNegative⟩

end Formula
