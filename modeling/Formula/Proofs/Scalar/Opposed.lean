import Formula.Proofs.Scalar.Product

/-!
Differences taken the other way round. On doubles `b - a` is the negation of `a - b`, but for the sign of a zero, which
is plus from either side where two equal numbers are subtracted. Differences and quotients of such opposites are
opposites again, and the quotient of two opposites shows no difference unless it is subtracted from `-0`.
-/

namespace Formula

open Float.Model (Format UnpackedFloat totalExponent)
open Float.Model.UnpackedFloat (Sign)

/-! ## Signs of rounded numbers -/

namespace Signs

theorem apply_neg (s : Sign) (n : Int) : (-s).apply n = -s.apply n := by
  cases s
  · exact (Int.neg_neg n).symm
  · rfl

theorem neg_div_neg (s t : Sign) : -s / -t = s / t := by
  cases s <;> cases t <;> rfl

theorem neg_div (s t : Sign) : -s / t = -(s / t) := by
  cases s <;> cases t <;> rfl

theorem neg_mul_neg (s t : Sign) : -s * -t = s * t := by
  cases s <;> cases t <;> rfl

theorem neg_neg (s : Sign) : - -s = s := by
  cases s <;> rfl

end Signs

namespace Rounding

theorem roundWithAccuracy_neg (f : Format) (s : Sign) (m : Nat) (e : Int) (a : UnpackedFloat.Accuracy) :
    UnpackedFloat.roundWithAccuracy f (-s) m e a = (UnpackedFloat.roundWithAccuracy f s m e a).neg := by
  unfold UnpackedFloat.roundWithAccuracy
  dsimp only
  split <;> rfl

theorem round_neg (f : Format) (s : Sign) (m : Nat) (e : Int) :
    UnpackedFloat.round f (-s) m e = (UnpackedFloat.round f s m e).neg :=
  roundWithAccuracy_neg f s _ _ _

theorem normalize_zero (f : Format) (e : Int) (s : Sign) : UnpackedFloat.normalize f 0 e s = .zero s := rfl

theorem normalize_of_ne_zero (f : Format) {n : Int} (hn : n ≠ 0) (e : Int) (s : Sign) :
    UnpackedFloat.normalize f n e s = UnpackedFloat.round f (if n < 0 then .negative else .positive) n.natAbs e := by
  rcases hn.lt_or_gt with hlt | hgt
  · have habs : (-n).toNat = n.natAbs := by omega
    rw [UnpackedFloat.normalize, compare_lt_iff_lt.2 hlt, if_pos hlt, ← habs]
  · have habs : n.toNat = n.natAbs := by omega
    rw [UnpackedFloat.normalize, compare_gt_iff_gt.2 hgt, if_neg hgt.not_gt, ← habs]

end Rounding

/-! ## Opposites -/

/-- The one is the negation of the other, or both are zero. -/
inductive Opposed : UnpackedFloat → UnpackedFloat → Prop
  | neg (u : UnpackedFloat) : Opposed u u.neg
  | zero (s t : Sign) : Opposed (.zero s) (.zero t)

/-- What is left of a result when it has been stored as a double. -/
def stored (u : UnpackedFloat) : UnpackedFloat := UnpackedFloat.unpack .binary64 (UnpackedFloat.pack .binary64 u)

@[simp] theorem stored_notANumber : stored .notANumber = .notANumber := rfl

@[simp] theorem stored_infinity (s : Sign) : stored (.infinity s) = .infinity s := by
  cases s <;> rfl

@[simp] theorem stored_zero (s : Sign) : stored (.zero s) = .zero s := unpack_pack_zero s

theorem unpack_packComponents_neg (s : Sign) {e : BitVec 11} (he : e ≠ -1#11) (m : BitVec 52) :
    UnpackedFloat.unpack .binary64 (UnpackedFloat.packComponents .binary64 (-s) e m) =
      (UnpackedFloat.unpack .binary64 (UnpackedFloat.packComponents .binary64 s e m)).neg := by
  rw [Parts.unpack_packComponents _ _ he, Parts.unpack_packComponents _ _ he, Parts.neg_decode]

theorem stored_neg (u : UnpackedFloat) : stored u.neg = (stored u).neg := by
  cases u with
  | notANumber => rfl
  | infinity s => cases s <;> rfl
  | zero s => cases s <;> rfl
  | finite s m e hm =>
    unfold stored UnpackedFloat.neg UnpackedFloat.pack
    dsimp only
    split
    · exact stored_neg (.infinity s)
    · next hfits =>
      have htop : BitVec.ofNat 11 (e + (Format.exponentBias .binary64 : Nat) + (52 : Nat)).toNat ≠ -1#11 := by
        intro h
        have htoNat := congrArg BitVec.toNat h
        rw [BitVec.toNat_ofNat] at htoNat
        change _ = 2 ^ 11 - 1 at htoNat
        change ¬ 2 ^ 11 ≤ (e + (Format.exponentBias .binary64 : Nat) + (52 : Nat)).toNat + 1 at hfits
        omega
      split
      · exact unpack_packComponents_neg s htop _
      · exact unpack_packComponents_neg s (by decide) _

theorem isFinite_stored {u : UnpackedFloat} (h : u.isFinite = false) : (stored u).isFinite = false := by
  cases u with
  | notANumber => rfl
  | infinity s => rw [stored_infinity, UnpackedFloat.isFinite]
  | zero | finite => cases h

/-! ## Sums -/

namespace Unpacked

theorem neg_neg (u : UnpackedFloat) : u.neg.neg = u := by
  cases u <;> simp [UnpackedFloat.neg, Signs.neg_neg]

/-- The mantissa with its sign, where the exponent is brought down to `k`. -/
def scaled (s : Sign) (m : Nat) (e k : Int) : Int := s.apply (UnpackedFloat.decreaseExponent m e k).1

theorem scaled_neg (s : Sign) (m : Nat) (e k : Int) : scaled (-s) m e k = -scaled s m e k := Signs.apply_neg s _

theorem add_finite (s t : Sign) {m n : Nat} (e d : Int) (hm : 0 < m) (hn : 0 < n) :
    UnpackedFloat.add .binary64 (.finite s m e hm) (.finite t n d hn) =
      UnpackedFloat.normalize .binary64 (scaled s m e (min e d) + scaled t n d (min e d)) (min e d) .positive := rfl

theorem sub_finite (s t : Sign) {m n : Nat} (e d : Int) (hm : 0 < m) (hn : 0 < n) :
    UnpackedFloat.sub .binary64 (.finite s m e hm) (.finite t n d hn) =
      UnpackedFloat.normalize .binary64 (scaled s m e (min e d) - scaled t n d (min e d)) (min e d) .positive := rfl

theorem add_comm (u v : UnpackedFloat) : u.add .binary64 v = v.add .binary64 u := by
  cases u with
  | notANumber => cases v <;> rfl
  | infinity s =>
    cases v with
    | infinity t => cases s <;> cases t <;> rfl
    | notANumber | zero | finite => rfl
  | zero s =>
    cases v with
    | zero t => cases s <;> cases t <;> rfl
    | notANumber | infinity | finite => rfl
  | finite s m e hm =>
    cases v with
    | finite t n d hn => rw [add_finite, add_finite, min_comm, Int.add_comm]
    | notANumber | infinity | zero => rfl

/-- Subtraction is addition of the negation. -/
theorem sub_eq_add_neg (u v : UnpackedFloat) : u.sub .binary64 v = u.add .binary64 v.neg := by
  cases u with
  | notANumber => cases v <;> rfl
  | infinity s => cases v <;> rfl
  | zero s => cases v <;> rfl
  | finite s m e hm =>
    cases v with
    | finite t n d hn => rw [UnpackedFloat.neg, sub_finite, add_finite, scaled_neg, Int.sub_eq_add_neg]
    | notANumber | infinity | zero => rfl

end Unpacked

namespace Opposed

variable {u u' v v' : UnpackedFloat}

theorem negate (h : Opposed u v) : Opposed u.neg v.neg := by
  cases h with
  | neg => exact .neg _
  | zero s t => exact .zero _ _

theorem stored (h : Opposed u u') : Opposed (stored u) (stored u') := by
  cases h with
  | neg =>
    rw [stored_neg]
    exact .neg _
  | zero s t =>
    rw [stored_zero, stored_zero]
    exact .zero s t

theorem isFinite (h : Opposed u u') : u'.isFinite = u.isFinite := by
  cases h with
  | neg => cases u <;> rfl
  | zero => rfl

theorem normalize (n e : Int) :
    Opposed (UnpackedFloat.normalize .binary64 n e .positive) (UnpackedFloat.normalize .binary64 (-n) e .positive) := by
  rcases eq_or_ne n 0 with rfl | hn
  · exact .zero _ _
  · have hsign : (if -n < 0 then .negative else .positive : Sign) = -(if n < 0 then .negative else .positive) := by
      rcases hn.lt_or_gt with h | h
      · rw [if_neg (by omega), if_pos h]
        rfl
      · rw [if_pos (by omega), if_neg h.not_gt]
        rfl
    rw [Rounding.normalize_of_ne_zero _ hn, Rounding.normalize_of_ne_zero _ (Int.neg_ne_zero.2 hn), hsign,
      Rounding.round_neg, Int.natAbs_neg]
    exact .neg _

theorem add_neg (u v : UnpackedFloat) : Opposed (u.add .binary64 v) (u.neg.add .binary64 v.neg) := by
  cases u with
  | notANumber => cases v <;> exact .neg .notANumber
  | infinity s =>
    cases v with
    | notANumber => exact .neg .notANumber
    | infinity t => cases s <;> cases t <;> exact .neg _
    | zero | finite => exact .neg _
  | zero s =>
    cases v with
    | notANumber => exact .neg .notANumber
    | zero t => cases s <;> cases t <;> exact .zero _ _
    | infinity | finite => exact .neg _
  | finite s m e hm =>
    cases v with
    | notANumber => exact .neg .notANumber
    | infinity | zero => exact .neg _
    | finite t n d hn =>
      rw [UnpackedFloat.neg, UnpackedFloat.neg, Unpacked.add_finite, Unpacked.add_finite, Unpacked.scaled_neg,
        Unpacked.scaled_neg, ← Int.neg_add]
      exact normalize _ _

theorem zero_add (h : Opposed v v') (s t : Sign) :
    Opposed (UnpackedFloat.add .binary64 (.zero s) v) (UnpackedFloat.add .binary64 (.zero t) v') := by
  cases h with
  | zero p q => cases s <;> cases t <;> cases p <;> cases q <;> exact .zero _ _
  | neg =>
    cases v with
    | zero p => cases s <;> cases t <;> cases p <;> exact .zero _ _
    | notANumber | infinity | finite => exact .neg _

theorem add (hu : Opposed u u') (hv : Opposed v v') : Opposed (u.add .binary64 v) (u'.add .binary64 v') := by
  cases hu with
  | zero s t => exact hv.zero_add s t
  | neg =>
    cases hv with
    | neg => exact add_neg u v
    | zero s t =>
      rw [Unpacked.add_comm, Unpacked.add_comm u.neg]
      exact (Opposed.neg u).zero_add s t

theorem sub (hu : Opposed u u') (hv : Opposed v v') : Opposed (u.sub .binary64 v) (u'.sub .binary64 v') := by
  rw [Unpacked.sub_eq_add_neg, Unpacked.sub_eq_add_neg]
  exact hu.add hv.negate

theorem sub_comm (u v : UnpackedFloat) : Opposed (u.sub .binary64 v) (v.sub .binary64 u) := by
  have h := add_neg u v.neg
  rwa [Unpacked.neg_neg, Unpacked.add_comm u.neg, ← Unpacked.sub_eq_add_neg, ← Unpacked.sub_eq_add_neg] at h

/-! ## Quotients -/

theorem div_neg_neg (u v : UnpackedFloat) : u.neg.div .binary64 v.neg = u.div .binary64 v := by
  cases u <;> cases v <;> simp only [UnpackedFloat.neg, UnpackedFloat.div, Signs.neg_div_neg]

theorem div (hu : Opposed u u') (w : UnpackedFloat) : Opposed (u.div .binary64 w) (u'.div .binary64 w) := by
  cases hu with
  | zero s s' =>
    cases w with
    | notANumber | zero => exact .neg .notANumber
    | infinity | finite => exact .zero _ _
  | neg =>
    have hneg : u.neg.div .binary64 w = (u.div .binary64 w).neg := by
      cases u <;> cases w <;>
        simp only [UnpackedFloat.neg, UnpackedFloat.div, Signs.neg_div, Rounding.roundWithAccuracy_neg]
    rw [hneg]
    exact .neg _

theorem mul_neg_neg (u v : UnpackedFloat) : u.neg.mul .binary64 v.neg = u.mul .binary64 v := by
  cases u <;> cases v <;> simp only [UnpackedFloat.neg, UnpackedFloat.mul, Signs.neg_mul_neg]

theorem sub_zero {w : UnpackedFloat} (hw : w ≠ .zero .negative) (s : Sign) : w.sub .binary64 (.zero s) = w := by
  cases w with
  | zero t =>
    cases t with
    | negative => exact absurd rfl hw
    | positive => cases s <;> rfl
  | notANumber | infinity | finite => rfl

theorem isFinite_sub_infinity (w : UnpackedFloat) (s : Sign) : (w.sub .binary64 (.infinity s)).isFinite = false := by
  cases w with
  | infinity t => cases s <;> cases t <;> rfl
  | notANumber | zero | finite => rfl

/-- Subtracting the quotient of two opposites: the sign of a zero matters only where the quotient is infinite, and to
`-0`. -/
theorem sub_div (hu : Opposed u u') (hv : Opposed v v') {w : UnpackedFloat}
    (hw : w = .zero .negative → ∀ s, u ≠ .zero s) :
    w.sub .binary64 (Formula.stored (u'.div .binary64 v')) = w.sub .binary64 (Formula.stored (u.div .binary64 v)) ∨
      (w.sub .binary64 (Formula.stored (u'.div .binary64 v'))).isFinite = false ∧
        (w.sub .binary64 (Formula.stored (u.div .binary64 v))).isFinite = false := by
  cases hu with
  | zero s s' =>
    have hw' : w ≠ .zero .negative := fun h => hw h s rfl
    left
    cases hv with
    | zero => rfl
    | neg =>
      cases v with
      | notANumber | zero => rfl
      | infinity | finite =>
        simp only [UnpackedFloat.neg, UnpackedFloat.div, stored_zero, sub_zero hw']
  | neg =>
    cases hv with
    | neg => exact .inl (by rw [div_neg_neg])
    | zero t t' =>
      cases u with
      | notANumber | zero => exact .inl rfl
      | infinity | finite =>
        simp only [UnpackedFloat.neg, UnpackedFloat.div, stored_infinity]
        exact .inr ⟨isFinite_sub_infinity _ _, isFinite_sub_infinity _ _⟩

end Opposed

/-! ## Where minus zero comes from -/

/-- What a double holds: at most fifty-three digits, none of them below the last place. -/
def Fits : UnpackedFloat → Prop
  | .finite _ m e _ => m < 2 ^ 53 ∧ -1074 ≤ e
  | .infinity _ | .zero _ | .notANumber => True

theorem Fits.neg {u : UnpackedFloat} (h : Fits u) : Fits u.neg := by
  cases u <;> exact h

theorem fits_decode (s : Sign) (e : BitVec 11) (m : BitVec 52) : Fits (Parts.decode s e m) := by
  have hm := m.isLt
  unfold Parts.decode
  split
  · split
    · trivial
    · exact ⟨by omega, le_rfl⟩
  · next he =>
    have : e.toNat ≠ 0 := fun h => he (BitVec.eq_of_toNat_eq h)
    exact ⟨by omega, by omega⟩

theorem stored_finite_ne_zero {s : Sign} {m : Nat} {e : Int} (hm : 0 < m) (hlt : m < 2 ^ 53) (he : -1074 ≤ e) (t : Sign) :
    stored (.finite s m e hm) ≠ .zero t := by
  have hpos : Positive (stored (.finite .positive m e hm)) := (Positive.unpack_pack .positive hm hlt he).2 rfl
  cases s with
  | positive =>
    intro h
    rwa [h] at hpos
  | negative =>
    intro h
    have hneg : (stored (.finite .positive m e hm)).neg = .zero t := (stored_neg _).symm.trans h
    rwa [← Unpacked.neg_neg (stored _), hneg] at hpos

theorem stored_round_ne_zero (s : Sign) {m : Nat} {e : Int} (hm : 0 < m) (he : -1074 ≤ e) (t : Sign) :
    stored (UnpackedFloat.round .binary64 s m e) ≠ .zero t := by
  have hk : -1074 ≤ e - (e - Format.binary64.targetExponent (totalExponent m e)).toNat := by
    rw [Rounding.targetExponent_eq]
    omega
  unfold UnpackedFloat.round UnpackedFloat.decreaseExponent
  dsimp only
  generalize (e - Format.binary64.targetExponent (totalExponent m e)).toNat = k at hk ⊢
  have hpos : 0 < m <<< k := by
    rw [Nat.shiftLeft_eq]
    exact Nat.mul_pos hm (Nat.two_pow_pos k)
  rcases Rounding.roundWithAccuracy_cases s hpos (e - k) with ⟨hle, -⟩ | ⟨-, n, d, hn, hlt, hd, h⟩
  · have hzero : (-1074 - (e - k)).toNat = 0 := by omega
    rw [hzero, pow_zero] at hle
    omega
  · rw [h]
    exact stored_finite_ne_zero hn hlt hd t

/-- A sum is `-0` only where both summands are: numbers that cancel leave `0`, and no sum is lost in rounding. -/
theorem eq_negZero_of_add {u v : UnpackedFloat} (hu : Fits u) (hv : Fits v)
    (h : stored (u.add .binary64 v) = .zero .negative) : u = .zero .negative ∧ v = .zero .negative := by
  cases u with
  | notANumber => cases v <;> simp [UnpackedFloat.add] at h
  | infinity s =>
    cases v with
    | infinity t => cases s <;> cases t <;> simp [UnpackedFloat.add] at h
    | notANumber | zero | finite => simp [UnpackedFloat.add] at h
  | zero s =>
    cases v with
    | zero t => cases s <;> cases t <;> first | exact ⟨rfl, rfl⟩ | cases h
    | finite t n d hn => exact absurd h (stored_finite_ne_zero hn hv.1 hv.2 _)
    | notANumber | infinity => simp [UnpackedFloat.add] at h
  | finite s m e hm =>
    cases v with
    | finite t n d hn =>
      have he : -1074 ≤ min e d := le_min hu.2 hv.2
      rw [Unpacked.add_finite] at h
      rcases eq_or_ne (Unpacked.scaled s m e (min e d) + Unpacked.scaled t n d (min e d)) 0 with hsum | hsum
      · rw [hsum, Rounding.normalize_zero, stored_zero] at h
        cases h
      · rw [Rounding.normalize_of_ne_zero _ hsum] at h
        exact absurd h (stored_round_ne_zero _ (Int.natAbs_pos.2 hsum) he _)
    | zero t => exact absurd h (stored_finite_ne_zero hm hu.1 hu.2 _)
    | notANumber | infinity => simp [UnpackedFloat.add] at h

/-! ## Doubles -/

namespace Scalar

variable {x x' y y' : Float}

theorem beq_zero_iff_unpack : x == 0.0 ↔ ∃ s, x.toModel.unpack = .zero s := by
  change x.toModel.unpack.compare (.zero .positive) == some .eq ↔ _
  cases x.toModel.unpack with
  | notANumber => simp [UnpackedFloat.compare]
  | infinity s => cases s <;> simp [UnpackedFloat.compare]
  | zero s => simp [UnpackedFloat.compare]
  | finite s m e hm => cases s <;> simp [UnpackedFloat.compare]

theorem fits (x : Float) : Fits x.toModel.unpack := by
  cases hx : isFinite x with
  | true =>
    obtain ⟨s, e, m, he, rfl⟩ := Parts.exists_double hx
    rw [Parts.unpack_double s m he]
    exact fits_decode s e m
  | false =>
    change x.toModel.unpack.isFinite = false at hx
    cases hu : x.toModel.unpack with
    | notANumber | infinity => trivial
    | zero | finite => simp [hu, UnpackedFloat.isFinite] at hx

theorem eq_negZero_iff : x = -0.0 ↔ x.toModel.unpack = .zero .negative := by
  constructor
  · rintro rfl
    rfl
  · intro h
    have hx : isFinite x := by
      change x.toModel.unpack.isFinite
      rw [h]
      rfl
    obtain ⟨s, e, m, he, rfl⟩ := Parts.exists_double hx
    rw [Parts.unpack_double s m he] at h
    rw [Parts.double, h]
    rfl

/-- A sum is `-0` only where both summands are. -/
theorem eq_negZero_of_add_eq (h : x + y = -0.0) : x = -0.0 ∧ y = -0.0 := by
  simp only [eq_negZero_iff] at h ⊢
  exact eq_negZero_of_add (fits x) (fits y) h

theorem eq_negZero_of_sub_eq (h : x - y = -0.0) : x = -0.0 := by
  rw [eq_negZero_iff] at h ⊢
  change stored (x.toModel.unpack.sub .binary64 y.toModel.unpack) = _ at h
  rw [Unpacked.sub_eq_add_neg] at h
  exact (eq_negZero_of_add (fits x) (fits y).neg h).1

/-- The one is the negation of the other, but zeros may have any sign. -/
def Opposed (x y : Float) : Prop := Formula.Opposed x.toModel.unpack y.toModel.unpack

theorem opposed_sub_comm (x y : Float) : Opposed (x - y) (y - x) := (Formula.Opposed.sub_comm _ _).stored

theorem opposed_nan : Opposed (Scalar.nan : Float) Scalar.nan := .neg .notANumber

namespace Opposed

theorem sub (hx : Opposed x x') (hy : Opposed y y') : Opposed (x - y) (x' - y') := (Formula.Opposed.sub hx hy).stored

theorem div (hx : Opposed x x') (z : Float) : Opposed (x / z) (x' / z) := (Formula.Opposed.div hx _).stored

theorem isFinite (h : Opposed x x') : Scalar.isFinite x' = Scalar.isFinite x := Formula.Opposed.isFinite h

theorem beq_zero (h : Opposed x x') : (x' == 0.0) = (x == 0.0) := by
  rw [Bool.eq_iff_iff, beq_zero_iff_unpack, beq_zero_iff_unpack]
  unfold Opposed at h
  generalize x.toModel.unpack = u, x'.toModel.unpack = u' at h ⊢
  cases h with
  | neg => cases u <;> simp [UnpackedFloat.neg]
  | zero => simp

theorem unpack_eq_neg (h : Opposed x x') (hx : (x == 0.0) = false) : x'.toModel.unpack = x.toModel.unpack.neg := by
  rw [← Bool.not_eq_true, beq_zero_iff_unpack] at hx
  unfold Opposed at h
  generalize x.toModel.unpack = u, x'.toModel.unpack = u' at h hx ⊢
  cases h with
  | neg => rfl
  | zero s t => exact absurd ⟨s, rfl⟩ hx

theorem mul (hx : Opposed x x') (hy : Opposed y y') (hx0 : (x == 0.0) = false) (hy0 : (y == 0.0) = false) :
    x' * y' = x * y := by
  change Float.ofModel (.pack (x'.toModel.unpack.mul .binary64 y'.toModel.unpack)) =
    Float.ofModel (.pack (x.toModel.unpack.mul .binary64 y.toModel.unpack))
  rw [hx.unpack_eq_neg hx0, hy.unpack_eq_neg hy0, Formula.Opposed.mul_neg_neg]

/-- One step to the zero of a tangent. -/
theorem sub_div (hx : Opposed x x') (hy : Opposed y y') {z : Float} (hz : z = -0.0 → (x == 0.0) = false) :
    z - x' / y' = z - x / y ∨ Scalar.isFinite (z - x' / y') = false ∧ Scalar.isFinite (z - x / y) = false := by
  have hw : z.toModel.unpack = .zero .negative → ∀ s, x.toModel.unpack ≠ .zero s := by
    intro h s hs
    have hx := beq_zero_iff_unpack.2 ⟨s, hs⟩
    rw [hz (eq_negZero_iff.2 h)] at hx
    cases hx
  refine (Formula.Opposed.sub_div hx hy hw).imp (fun h => ?_) fun h => ⟨?_, ?_⟩
  · exact congrArg (Float.ofModel <| .pack ·) h
  · exact isFinite_stored h.1
  · exact isFinite_stored h.2

end Opposed

end Scalar

end Formula
