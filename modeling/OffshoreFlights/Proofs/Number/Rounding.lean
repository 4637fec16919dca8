import Mathlib.Data.Nat.Log
import Mathlib.Tactic.Linarith
import Mathlib.Tactic.Ring

/-! Natural numbers rounded to 53 binary digits. The nonnegative binary64 floats, in ascending
order, are numbered by their magnitudes: the magnitude `g` of a float counts the floats from zero up
to it. Up to `2 ^ 53` the floats follow each other by one unit, and from each power of two to the
next by twice as many units as before. -/

namespace OffshoreFlights.Binary64

/-- The quotient by `2 ^ k`, rounded to the nearest integer and to the even one of two. -/
def roundShift (n k : ℕ) : ℕ :=
  if 2 * (n % 2 ^ k) < 2 ^ k then n / 2 ^ k
  else if 2 * (n % 2 ^ k) = 2 ^ k then n / 2 ^ k + n / 2 ^ k % 2
  else n / 2 ^ k + 1

theorem div_le_roundShift (n k : ℕ) : n / 2 ^ k ≤ roundShift n k := by
  unfold roundShift
  split_ifs <;> omega

theorem roundShift_le_succ (n k : ℕ) : roundShift n k ≤ n / 2 ^ k + 1 := by
  unfold roundShift
  split_ifs <;> omega

@[simp] theorem roundShift_zero (n : ℕ) : roundShift n 0 = n := by
  simp [roundShift, Nat.mod_one]

theorem roundShift_mono {m n : ℕ} (h : m ≤ n) (k : ℕ) : roundShift m k ≤ roundShift n k := by
  rcases Nat.lt_or_eq_of_le (Nat.div_le_div_right (c := 2 ^ k) h) with hlt | heq
  · calc roundShift m k ≤ m / 2 ^ k + 1 := roundShift_le_succ m k
      _ ≤ n / 2 ^ k := hlt
      _ ≤ roundShift n k := div_le_roundShift n k
  · -- the quotients agree, so the remainders are in order
    have hm := Nat.div_add_mod m (2 ^ k)
    have hn := Nat.div_add_mod n (2 ^ k)
    rw [heq] at hm
    have hrest : m % 2 ^ k ≤ n % 2 ^ k := by omega
    unfold roundShift
    rw [heq]
    split_ifs <;> omega

/-- Low digits that are all zero make no difference. -/
theorem roundShift_mul_pow (n k j : ℕ) : roundShift (n * 2 ^ j) (k + j) = roundShift n k := by
  have hpos : 0 < 2 ^ j := Nat.two_pow_pos j
  have hdiv : n * 2 ^ j / 2 ^ (k + j) = n / 2 ^ k := by
    rw [pow_add, Nat.mul_div_mul_right _ _ hpos]
  have hmod : 2 * (n * 2 ^ j % 2 ^ (k + j)) = 2 * (n % 2 ^ k) * 2 ^ j := by
    rw [pow_add, Nat.mul_mod_mul_right, mul_assoc]
  have hlt : 2 * (n * 2 ^ j % 2 ^ (k + j)) < 2 ^ (k + j) ↔ 2 * (n % 2 ^ k) < 2 ^ k := by
    rw [hmod, pow_add, Nat.mul_lt_mul_right hpos]
  have heq : 2 * (n * 2 ^ j % 2 ^ (k + j)) = 2 ^ (k + j) ↔ 2 * (n % 2 ^ k) = 2 ^ k := by
    rw [hmod, pow_add, Nat.mul_left_inj hpos.ne']
  unfold roundShift
  simp only [hdiv, hlt, heq]

theorem roundShift_mul_pow_self (n k : ℕ) : roundShift (n * 2 ^ k) k = n := by
  simpa using roundShift_mul_pow n 0 k

theorem roundShift_lt {n k j : ℕ} (h : n < 2 ^ (k + j)) : roundShift n k ≤ 2 ^ j := by
  have : n / 2 ^ k < 2 ^ j := Nat.div_lt_of_lt_mul (by rwa [← pow_add])
  have := roundShift_le_succ n k
  omega

/-- The digits that a number has beyond 53. -/
def excess (n : ℕ) : ℕ := n.log2 - 52

theorem lt_two_pow_excess (n : ℕ) : n < 2 ^ (excess n + 53) := by
  rcases Nat.eq_zero_or_pos n with rfl | hn
  · exact Nat.two_pow_pos _
  · exact (Nat.log2_lt hn.ne').mp (by unfold excess; omega)

theorem two_pow_excess_le {n : ℕ} (h : 0 < excess n) : 2 ^ (excess n + 52) ≤ n := by
  have hn : n ≠ 0 := by
    rintro rfl
    simp [excess] at h
  refine (Nat.le_log2 hn).mp ?_
  unfold excess at h ⊢
  omega

theorem excess_mono {m n : ℕ} (h : m ≤ n) : excess m ≤ excess n := by
  rcases Nat.eq_zero_or_pos m with rfl | hm
  · simp [excess]
  · have hn : n ≠ 0 := by omega
    have : m.log2 ≤ n.log2 := (Nat.le_log2 hn).mpr ((Nat.log2_self_le hm.ne').trans h)
    unfold excess
    omega

/-- The magnitude of the float that is nearest to a number of units, the even one of two. It is past
that of the greatest finite float when the number is too great. -/
def nearest (n : ℕ) : ℕ := excess n * 2 ^ 52 + roundShift n (excess n)

theorem nearest_mono {m n : ℕ} (h : m ≤ n) : nearest m ≤ nearest n := by
  rcases Nat.lt_or_eq_of_le (excess_mono h) with hlt | heq
  · -- the greater number has more digits, so it rounds to a full mantissa at least
    have hm : roundShift m (excess m) ≤ 2 ^ 53 := roundShift_lt (lt_two_pow_excess m)
    have hn : 2 ^ 52 ≤ roundShift n (excess n) := by
      refine le_trans ?_ (div_le_roundShift n (excess n))
      rw [Nat.le_div_iff_mul_le (Nat.two_pow_pos _), ← pow_add, add_comm]
      exact two_pow_excess_le (by omega)
    unfold nearest
    omega
  · unfold nearest
    rw [heq]
    exact Nat.add_le_add_left (roundShift_mono h _) _

/-- The mantissa and the binary place of a float: the mantissa has 53 digits, or fewer at the lowest
place. -/
structure Canonical (mantissa place : ℕ) : Prop where
  lt : mantissa < 2 ^ 53
  full : place = 0 ∨ 2 ^ 52 ≤ mantissa

theorem Canonical.excess_eq {m k : ℕ} (h : Canonical m k) : excess (m * 2 ^ k) = k := by
  rcases h.full with rfl | hfull
  · rcases Nat.eq_zero_or_pos m with rfl | hm
    · simp [excess]
    · have : m.log2 < 53 := (Nat.log2_lt hm.ne').mpr h.lt
      rw [pow_zero, mul_one]
      unfold excess
      omega
  · have hm : m * 2 ^ k ≠ 0 := by
      have := Nat.two_pow_pos k
      positivity
    have hlog : (m * 2 ^ k).log2 = 52 + k := by
      rw [Nat.log2_eq_iff hm, pow_add, add_right_comm, pow_add]
      exact ⟨Nat.mul_le_mul_right _ hfull,
        (Nat.mul_lt_mul_right (Nat.two_pow_pos k)).mpr h.lt⟩
    unfold excess
    omega

/-- The number of units that a magnitude stands for. -/
def units (g : ℕ) : ℕ :=
  if g < 2 ^ 52 then g else (2 ^ 52 + g % 2 ^ 52) * 2 ^ (g / 2 ^ 52 - 1)

theorem Canonical.units_eq {m k : ℕ} (h : Canonical m k) :
    units (k * 2 ^ 52 + m) = m * 2 ^ k := by
  have := h.lt
  have hfull := h.full
  rcases Nat.lt_or_ge m (2 ^ 52) with hm | hm
  · obtain rfl : k = 0 := by omega
    rw [zero_mul, zero_add, pow_zero, mul_one, units, if_pos hm]
  · have hmod : (k * 2 ^ 52 + m) % 2 ^ 52 = m - 2 ^ 52 := by omega
    have hdiv : (k * 2 ^ 52 + m) / 2 ^ 52 = k + 1 := by omega
    rw [units, if_neg (by omega), hmod, hdiv, Nat.add_sub_cancel, Nat.add_sub_cancel' hm]

theorem exists_canonical (g : ℕ) : ∃ m k, Canonical m k ∧ g = k * 2 ^ 52 + m := by
  rcases Nat.lt_or_ge g (2 ^ 52) with h | h
  · exact ⟨g, 0, ⟨by omega, .inl rfl⟩, by omega⟩
  · exact ⟨2 ^ 52 + g % 2 ^ 52, g / 2 ^ 52 - 1, ⟨by omega, .inr (by omega)⟩, by omega⟩

/-- Every float is its own nearest float. -/
@[simp] theorem nearest_units (g : ℕ) : nearest (units g) = g := by
  obtain ⟨m, k, h, rfl⟩ := exists_canonical g
  rw [h.units_eq, nearest, h.excess_eq, roundShift_mul_pow_self]

theorem units_mono {g h : ℕ} (hgh : g ≤ h) : units g ≤ units h := by
  by_contra hlt
  have hnearest := nearest_mono (Nat.le_of_not_le hlt)
  rw [nearest_units, nearest_units] at hnearest
  obtain rfl : g = h := by omega
  exact hlt le_rfl

/-- What a number rounds to is a mantissa at its place, or one digit too long. -/
theorem canonical_roundShift {n : ℕ} :
    Canonical (roundShift n (excess n)) (excess n) ∨
      roundShift n (excess n) = 2 ^ 53 := by
  have hle : roundShift n (excess n) ≤ 2 ^ 53 := roundShift_lt (lt_two_pow_excess n)
  rcases Nat.lt_or_eq_of_le hle with hlt | heq
  · refine .inl ⟨hlt, ?_⟩
    rcases Nat.eq_zero_or_pos (excess n) with hk | hk
    · exact .inl hk
    · refine .inr (le_trans ?_ (div_le_roundShift n (excess n)))
      rw [Nat.le_div_iff_mul_le (Nat.two_pow_pos _), ← pow_add, add_comm]
      exact two_pow_excess_le hk
  · exact .inr heq

end OffshoreFlights.Binary64
