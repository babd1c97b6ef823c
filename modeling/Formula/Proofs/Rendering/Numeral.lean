import Formula.Proofs.Line
import Formula.Proofs.Rendering.Tight
import Formula.Proofs.Scalar.Parts

/-!
Finite doubles without a sign print as numerals: digits, or digits on both sides of a point.
-/

namespace Formula

namespace Decimal

variable {n places : Nat}

theorem pointed_eq (n : Nat) (h : places ≠ 0) : ∃ whole fraction, pointed n places = whole ++ '.' :: fraction ∧
    whole ≠ [] ∧ ∀ c ∈ whole ++ fraction, c.isDigit := by
  have hpad : ∀ c ∈ List.replicate (places + 1 - (Nat.toDigits 10 n).length) '0' ++ Nat.toDigits 10 n, c.isDigit := by
    intro c hc
    rcases List.mem_append.1 hc with hc | hc
    · rw [List.eq_of_mem_replicate hc]
      decide
    · exact Text.isDigit_of_mem_toDigits hc
  have hlen : places + 1 ≤
      (List.replicate (places + 1 - (Nat.toDigits 10 n).length) '0' ++ Nat.toDigits 10 n).length := by
    rw [List.length_append, List.length_replicate]
    omega
  unfold pointed
  simp only [if_neg h]
  generalize List.replicate (places + 1 - (Nat.toDigits 10 n).length) '0' ++ Nat.toDigits 10 n = padded at hpad hlen ⊢
  refine ⟨_, _, rfl, ?_, fun c hc => hpad c ?_⟩
  · rw [← List.length_pos_iff, List.length_take]
    omega
  · rwa [List.take_append_drop] at hc

/-- A number without an exponent is a numeral. -/
theorem exists_numeral (s : Scientific) : ∃ m : Numeral,
    (m.whole ≠ [] ∧ ∀ c ∈ m.whole ++ m.fraction, c.isDigit) ∧ s.positional = m.text := by
  unfold Scientific.positional
  split
  · refine ⟨⟨Nat.toDigits 10 s.digits ++ List.replicate s.exponent.toNat '0', []⟩, ⟨?_, fun c hc => ?_⟩, rfl⟩
    · simp
    · rw [List.append_nil] at hc
      rcases List.mem_append.1 hc with hc | hc
      · exact Text.isDigit_of_mem_toDigits hc
      · rw [List.eq_of_mem_replicate hc]
        decide
  · next hexp =>
    have hplaces : (-s.exponent).toNat ≠ 0 := by omega
    obtain ⟨whole, fraction, he, hne, hd⟩ := pointed_eq s.digits hplaces
    have hdigit : ∀ c ∈ whole, (c != '.') = true := by
      intro c hc
      rw [bne_iff_ne]
      rintro rfl
      exact absurd (hd _ (List.mem_append_left _ hc)) (by decide)
    have hwhole : (whole ++ '.' :: fraction).takeWhile (· != '.') = whole := by
      rw [List.takeWhile_append_of_pos hdigit]
      simp
    have hfraction : (whole ++ '.' :: fraction).drop (whole.length + 1) = fraction := by simp
    simp only [he, hwhole, hfraction]
    cases hz : dropTrailingZeros fraction with
    | nil => exact ⟨⟨whole, []⟩, ⟨hne, fun c hc => hd c (by simpa using Or.inl hc)⟩, rfl⟩
    | cons x f =>
      refine ⟨⟨whole, x :: f⟩, ⟨hne, fun c hc => hd c ?_⟩, rfl⟩
      rw [← hz] at hc
      rw [List.mem_append] at hc ⊢
      exact hc.imp_right fun hc => dropTrailingZeros_subset fraction hc

end Decimal

/-- What the numeral denotes that a number is printed as; it need not be the number itself. -/
theorem Scalar.exists_readsAs {v : Float} (hf : isFinite v) (hn : isNegative v = false) : ∃ w, ReadsAs v w := by
  have hfinite : ∀ m q, ∃ k : Numeral, (k.whole ≠ [] ∧ ∀ c ∈ k.whole ++ k.fraction, c.isDigit) ∧
      (if m = 0 then ['0'] else (Decimal.shortest m q).positional) = k.text := by
    intro m q
    split
    · exact ⟨⟨['0'], []⟩, by simp, rfl⟩
    · exact Decimal.exists_numeral _
  obtain ⟨e, m, he, rfl⟩ := exists_double_of_isNegative hf hn
  have htext : text (Parts.double .positive e m) = (Decimal.Binary.ofFloat (Parts.double .positive e m)).text
      fun m q => if m = 0 then ['0'] else (Decimal.shortest m q).positional := rfl
  simp only [Bool.false_eq_true, if_false]
  rw [Parts.ofFloat_double .positive m he] at htext
  split at htext
  · obtain ⟨k, hk, hp⟩ := hfinite m.toNat (-1074)
    exact ⟨k.value, k, hk, htext.trans (congrArg String.ofList hp), rfl⟩
  · obtain ⟨k, hk, hp⟩ := hfinite (2 ^ 52 + m.toNat) (e.toNat - 1075)
    exact ⟨k.value, k, hk, htext.trans (congrArg String.ofList hp), rfl⟩

end Formula
