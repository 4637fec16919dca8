import OffshoreFlights.Proofs.Number.Binary64

/-! Numbers of passengers among the numbers to plan with. A float is nearest to each of them, so no
count but zero becomes zero, and a count too great for a finite float becomes infinite. -/

namespace OffshoreFlights

/-- Numbers in which counts keep apart from zero. -/
class Scalar.Counts (α : Type) [Scalar α] : Prop extends Scalar.Lengths α where
  natCast_zero : ((0 : ℕ) : α) = 0
  natCast_pos {n : ℕ} : 0 < n → 0 < (n : α)

namespace Scalar.Counts

variable {α : Type} [Scalar α] [Counts α]

theorem zero_le_natCast (n : ℕ) : 0 ≤ (n : α) := by
  rcases Nat.eq_zero_or_pos n with rfl | hn
  · rw [natCast_zero]
    exact Lengths.zero_le_zero
  · exact Lengths.le_of_lt (natCast_pos hn)

theorem not_natCast_lt_zero (n : ℕ) : ¬(n : α) < 0 :=
  fun h => Lengths.not_le_of_lt h (zero_le_natCast n)

theorem natCast_beq_zero_iff (n : ℕ) : ((n : α) == 0) = true ↔ n = 0 := by
  rw [Lengths.beq_iff]
  constructor
  · rintro ⟨hle, -⟩
    by_contra hn
    exact Lengths.not_le_of_lt (natCast_pos (Nat.pos_of_ne_zero hn)) hle
  · rintro rfl
    rw [natCast_zero]
    exact ⟨Lengths.zero_le_zero, Lengths.zero_le_zero⟩

end Scalar.Counts

instance {K : Type} [Field K] [LinearOrder K] [IsStrictOrderedRing K] [FloorRing K] :
    Scalar.Counts K where
  natCast_zero := Nat.cast_zero
  natCast_pos := Nat.cast_pos.mpr

namespace Binary64

open Float.Model (UnpackedFloat)
open Float.Model.Format (binary64)
open Float.Model.UnpackedFloat

/-! ### The float nearest to a count -/

/-- The number of units in one. -/
theorem nearest_one : nearest (2 ^ 1074) = 1023 * 2 ^ 52 := by decide +kernel

theorem nearest_natCast_pos {n : ℕ} (hn : 0 < n) : 1023 * 2 ^ 52 ≤ nearest (n * 2 ^ 1074) := by
  rw [← nearest_one]
  exact nearest_mono (Nat.le_mul_of_pos_left _ hn)

theorem packs_ofNat {n : ℕ} (hn : 0 < n) :
    Packs (UnpackedFloat.ofNat binary64 n) (nearest (n * 2 ^ 1074)) := by
  obtain ⟨m, k, hm, hround, hcanonical, hnearest⟩ := round_eq .positive hn 1074
  have hfloat : UnpackedFloat.ofNat binary64 n = .finite .positive m (k - 1074) hm := by
    rw [← hround, UnpackedFloat.ofNat, ofInt, UnpackedFloat.normalize,
      compare_gt_iff_gt.mpr (Int.natCast_pos.mpr hn), Int.toNat_natCast]
    rfl
  rw [hfloat, ← hnearest]
  exact packs_finite hm hcanonical

/-- The product of a float that is one at least with the float one is that float. -/
theorem Upward.mul_one {u : UnpackedFloat} {a : ℕ} (hu : Upward u a) (ha : 1023 * 2 ^ 52 ≤ a) :
    Packs (UnpackedFloat.mul binary64 u (.finite .positive (2 ^ 52) (-52) (by decide))) a := by
  cases hu with
  | zero s => omega
  | @finite m k hm h _ =>
    have := h.lt
    obtain ⟨j, rfl⟩ : ∃ j, k = j + 52 := ⟨k - 52, by omega⟩
    have hunits : m * 2 ^ 52 * 2 ^ j = m * 2 ^ (j + 52) := by ring
    have hexponent : ((j + 52 : ℕ) : ℤ) - 1074 + -52 = j - 1074 := by
      push_cast
      ring
    obtain ⟨r, i, hr, hround, hcanonical, hnearest⟩ := roundWithAccuracy_eq .positive
      (n := m * 2 ^ 52) (j := j) (Nat.mul_pos hm (Nat.two_pow_pos 52))
      (by rw [hunits, h.excess_eq]; exact Nat.le_add_right _ _)
    rw [hunits, ← h.units_eq, nearest_units] at hnearest
    rw [← hnearest]
    have hproduct : UnpackedFloat.mul binary64
        (.finite .positive m (((j + 52 : ℕ) : ℤ) - 1074) hm)
        (.finite .positive (2 ^ 52) (-52) (by decide)) = .finite .positive r (i - 1074) hr := by
      rw [← hround, ← hexponent]
      rfl
    rw [hproduct]
    exact packs_finite hr hcanonical
  | infinity => exact packs_infinity le_rfl

/-- A count too great for a word is shifted and rounded. -/
theorem packs_ofScientific {n : ℕ} (hn : 0 < n) :
    Packs (UnpackedFloat.ofScientific binary64 n 0) (nearest (n * 2 ^ 1074)) := by
  have hpos : 0 < n <<< 53 := by
    rw [Nat.shiftLeft_eq]
    exact Nat.mul_pos hn (Nat.two_pow_pos 53)
  have hunits : n <<< 53 * 2 ^ 1021 = n * 2 ^ 1074 := by
    rw [Nat.shiftLeft_eq, mul_assoc, ← pow_add]
  have hexcess : 1021 ≤ excess (n * 2 ^ 1074) :=
    le_trans (by decide +kernel) (excess_mono (Nat.le_mul_of_pos_left (2 ^ 1074) hn))
  obtain ⟨m, k, hm, hround, hcanonical, hnearest⟩ :=
    roundWithAccuracy_eq .positive (j := 1021) hpos (by rw [hunits]; exact hexcess)
  have hmantissa : n <<< binary64.mantissaBits * 10 ^ (0 : ℤ).toNat = n <<< 53 := Nat.mul_one _
  have hexponent : -(binary64.mantissaBits : ℤ) + 0 = (1021 : ℕ) - 1074 := rfl
  have hfloat : UnpackedFloat.ofScientific binary64 n 0 = .finite .positive m (k - 1074) hm := by
    rw [← hround, UnpackedFloat.ofScientific, dif_neg hn.ne', if_neg (by decide),
      if_neg (by simp only [not_lt]; omega), if_pos le_rfl, UnpackedFloat.mul, hmantissa,
      hexponent]
    rfl
  rw [hunits] at hnearest
  rw [hfloat, ← hnearest]
  exact packs_finite hm hcanonical

/-- The float of a count is nearest to it. -/
theorem number?_natCast {n : ℕ} (hn : 0 < n) :
    number? (n : Float) = some ((min beyond (nearest (n * 2 ^ 1074)) : ℕ) : ℤ) := by
  show number? (Float.ofScientific n false 0) = _
  unfold Float.ofScientific
  split
  next hsmall =>
    have hword : n.toUInt64.toNat = n := Nat.mod_eq_of_lt (hsmall.1.trans (by decide))
    have hfloat : number? n.toUInt64.toFloat =
        some ((min beyond (nearest (n * 2 ^ 1074)) : ℕ) : ℤ) := by
      show place? (unpack binary64 (pack binary64
        (UnpackedFloat.ofNat binary64 n.toUInt64.toNat))) = _
      rw [hword]
      exact packs_ofNat hn
    have hone : 1023 * 2 ^ 52 ≤ min beyond (nearest (n * 2 ^ 1074)) :=
      le_min (by decide) (nearest_natCast_pos hn)
    have hproduct := (upward_of_place? (regular _) hfloat).mul_one hone
    rw [Packs, ← min_assoc, min_self] at hproduct
    have hunpack : (Float.ofBits 0x3FF0000000000000).toModel.unpack =
        .finite .positive (2 ^ 52) (-52) (by decide) := rfl
    rw [← hunpack] at hproduct
    exact hproduct
  next => exact packs_ofScientific hn

end Binary64

instance : Scalar.Counts Float where
  natCast_zero := rfl
  natCast_pos hn := by
    refine Binary64.lt_iff.mpr ⟨_, Binary64.number?_zero, _, Binary64.number?_natCast hn, ?_⟩
    have := Binary64.nearest_natCast_pos hn
    have : 0 < Binary64.beyond := by decide
    omega

end OffshoreFlights
