import Mathlib
import OffshoreFlights.Number.Binary64
import OffshoreFlights.Proofs.Number.Lengths
import OffshoreFlights.Proofs.Number.Rounding

/-! Binary64 floats measure lengths: they have their places in the order of the numbers, and the sum
of two lengths is rounded to the nearest float, so a longer length makes no shorter sum. -/

namespace OffshoreFlights.Binary64

open Float.Model (UnpackedFloat)
open Float.Model.Format (binary64)
open Float.Model.UnpackedFloat

/-- The magnitude of the infinite floats, one past that of the greatest finite one. -/
def beyond : ℕ := 2047 * 2 ^ 52

/-- The place of a float in the order of the numbers: its magnitude with its sign. Both zeros are at
0, and what is no number has no place. -/
def place? : UnpackedFloat → Option ℤ
  | .notANumber => none
  | .zero _ => some 0
  | .infinity s => some (s.apply beyond)
  | .finite s m e _ => some (s.apply ((e + 1074) * 2 ^ 52 + m))

/-- Mantissa and exponent are those of a binary64 float. -/
def Regular : UnpackedFloat → Prop
  | .finite _ m e _ => ∃ k : ℕ, e = k - 1074 ∧ Canonical m k ∧ k * 2 ^ 52 + m < beyond
  | _ => True

/-! ### The bits of a float -/

section Bits

variable (s : Sign) (e : BitVec 11) (m : BitVec 52)

/-- The bits of a float below its sign, read as a number. -/
def magnitude : ℕ := e.toNat * 2 ^ 52 + m.toNat

theorem toNat_packComponents :
    (packComponents binary64 s e m).toNat = s.toBitVec.toNat * 2 ^ 63 + magnitude e m := by
  unfold packComponents magnitude
  rw [BitVec.toNat_append, BitVec.toNat_append, ← Nat.shiftLeft_add_eq_or_of_lt m.isLt,
    ← Nat.shiftLeft_add_eq_or_of_lt e.isLt, Nat.shiftLeft_eq, Nat.shiftLeft_eq]
  ring

theorem unpack_packComponents :
    Regular (unpack binary64 (packComponents binary64 s e m)) ∧
      place? (unpack binary64 (packComponents binary64 s e m)) =
        if magnitude e m ≤ beyond then some (s.apply (magnitude e m)) else none := by
  have hm := m.isLt
  have he := e.isLt
  have hbias : binary64.exponentBias = 1023 := rfl
  simp only [unpack, unpackSign_packComponents, unpackExponent_packComponents,
    unpackMantissa_packComponents, Sign.ofBitVec_toBitVec, hbias]
  by_cases hlast : e = -1#_
  · have htop : e.toNat = 2047 := by rw [hlast]; rfl
    rw [if_pos hlast]
    unfold magnitude
    by_cases hzero : m = 0#_
    · rw [if_pos hzero, hzero, htop, if_pos (by simp [beyond])]
      exact ⟨trivial, by simp [place?, beyond]⟩
    · have : m.toNat ≠ 0 := fun h => hzero (BitVec.eq_of_toNat_eq h)
      rw [if_neg hzero, if_neg (by unfold beyond; omega)]
      exact ⟨trivial, rfl⟩
  · have htop : e.toNat ≠ 2047 := fun h => hlast (BitVec.eq_of_toNat_eq h)
    have hle : magnitude e m < beyond := by unfold beyond magnitude; omega
    rw [if_neg hlast, if_pos hle.le]
    unfold magnitude at hle ⊢
    by_cases hfirst : e = 0#_
    · have hbottom : e.toNat = 0 := by rw [hfirst]; rfl
      rw [if_pos hfirst]
      rw [hbottom] at hle ⊢
      split
      next hzero =>
        rw [hzero]
        cases s <;> exact ⟨trivial, by simp [place?, Sign.apply]⟩
      next hzero =>
        refine ⟨⟨0, rfl, ⟨by omega, .inl rfl⟩, by omega⟩, ?_⟩
        simp [place?]
    · have hbottom : e.toNat ≠ 0 := fun h => hfirst (BitVec.eq_of_toNat_eq h)
      have himplicit : (1#1 ++ m).toNat = 2 ^ 52 + m.toNat := by
        rw [BitVec.toNat_append, ← Nat.shiftLeft_add_eq_or_of_lt m.isLt]
        simp [Nat.shiftLeft_eq]
      rw [if_neg hfirst]
      simp only [Regular, place?, himplicit]
      have hsize : (e.toNat - 1) * 2 ^ 52 + (2 ^ 52 + m.toNat) = e.toNat * 2 ^ 52 + m.toNat := by
        omega
      have hcanonical : Canonical (2 ^ 52 + m.toNat) (e.toNat - 1) :=
        ⟨by omega, .inr (Nat.le_add_right _ _)⟩
      refine ⟨⟨e.toNat - 1, by omega, hcanonical, lt_of_eq_of_lt hsize hle⟩, ?_⟩
      congr 2
      push_cast
      omega

end Bits

/-! ### The order -/

/-- The place of a float in the order of the numbers. -/
def number? (x : Float) : Option ℤ := place? x.toModel.unpack

theorem place?_finite (s : Sign) (m k : ℕ) (hm : 0 < m) :
    place? (.finite s m (k - 1074) hm) = some (s.apply ((k * 2 ^ 52 + m : ℕ) : ℤ)) := by
  simp [place?]

/-- Floats of one sign compare by exponent and then by mantissa, which is by magnitude. -/
theorem compare_finite {m n k l : ℕ} (hm : Canonical m k) (hn : Canonical n l) :
    (compare ((k : ℤ) - 1074) (l - 1074)).then (compare m n) =
      compare (k * 2 ^ 52 + m) (l * 2 ^ 52 + n) := by
  have hm' := hm.full
  have hn' := hn.full
  have := hm.lt
  have := hn.lt
  rcases Nat.lt_trichotomy k l with h | rfl | h
  · have hexponent : compare ((k : ℤ) - 1074) (l - 1074) = .lt := compare_lt_iff_lt.mpr (by omega)
    have hplace : compare (k * 2 ^ 52 + m) (l * 2 ^ 52 + n) = .lt :=
      compare_lt_iff_lt.mpr (by omega)
    rw [hexponent, hplace]
    rfl
  · rw [compare_eq_iff_eq.mpr rfl]
    rcases Nat.lt_trichotomy m n with h | rfl | h
    · rw [compare_lt_iff_lt.mpr h, compare_lt_iff_lt.mpr (by omega)]
      rfl
    · rw [compare_eq_iff_eq.mpr rfl, compare_eq_iff_eq.mpr rfl]
      rfl
    · rw [compare_gt_iff_gt.mpr h, compare_gt_iff_gt.mpr (by omega)]
      rfl
  · have hexponent : compare ((k : ℤ) - 1074) (l - 1074) = .gt := compare_gt_iff_gt.mpr (by omega)
    have hplace : compare (k * 2 ^ 52 + m) (l * 2 ^ 52 + n) = .gt :=
      compare_gt_iff_gt.mpr (by omega)
    rw [hexponent, hplace]
    rfl

theorem compare_signed (s t : Sign) {a b : ℕ} (ha : 0 < a) (hb : 0 < b) :
    compare (s.apply a) (t.apply b) = match s, t with
      | .positive, .positive => compare a b
      | .negative, .negative => (compare a b).swap
      | .negative, .positive => .lt
      | .positive, .negative => .gt := by
  cases s <;> cases t <;> simp only [Sign.apply]
  · rcases Nat.lt_trichotomy a b with h | rfl | h
    · rw [compare_lt_iff_lt.mpr h, compare_gt_iff_gt.mpr (by omega)]
      rfl
    · rw [compare_eq_iff_eq.mpr rfl, compare_eq_iff_eq.mpr rfl]
      rfl
    · rw [compare_gt_iff_gt.mpr h, compare_lt_iff_lt.mpr (by omega)]
      rfl
  · exact compare_lt_iff_lt.mpr (by omega)
  · exact compare_gt_iff_gt.mpr (by omega)
  · simp only [compare, compareOfLessAndEq, Nat.cast_lt, Nat.cast_inj]

theorem compare_eq {u v : UnpackedFloat} (hu : Regular u) (hv : Regular v) :
    u.compare v = (place? u).bind fun a => (place? v).map fun b => compare a b := by
  have hbeyond : 0 < beyond := by decide
  match u, v, hu, hv with
  | .notANumber, v, _, _ => cases v <;> rfl
  | .infinity _, .notANumber, _, _ => rfl
  | .zero _, .notANumber, _, _ => rfl
  | .finite _ _ _ _, .notANumber, _, _ => rfl
  | .infinity s, .infinity t, _, _ => cases s <;> cases t <;> rfl
  | .infinity s, .zero _, _, _ => cases s <;> rfl
  | .zero _, .infinity t, _, _ => cases t <;> rfl
  | .zero _, .zero _, _, _ => rfl
  | .infinity s, .finite t n f hpos, _, ⟨l, hf, _, hlt⟩ =>
    subst hf
    have hcompare := compare_signed s t hbeyond (Nat.add_pos_right (l * 2 ^ 52) hpos)
    rw [compare_gt_iff_gt.mpr hlt] at hcompare
    rw [place?_finite, place?, Option.bind_some, Option.map_some, hcompare]
    cases s <;> cases t <;> rfl
  | .finite s m e hpos, .infinity t, ⟨k, he, _, hlt⟩, _ =>
    subst he
    have hcompare := compare_signed s t (Nat.add_pos_right (k * 2 ^ 52) hpos) hbeyond
    rw [compare_lt_iff_lt.mpr hlt] at hcompare
    rw [place?_finite, place?, Option.bind_some, Option.map_some, hcompare]
    cases s <;> cases t <;> rfl
  | .zero s, .finite t n f hpos, _, ⟨l, hf, _, _⟩ =>
    subst hf
    rw [place?_finite, place?, Option.bind_some, Option.map_some]
    cases t
    · rw [compare_gt_iff_gt.mpr (by simp only [Sign.apply]; omega)]
      rfl
    · rw [compare_lt_iff_lt.mpr (by simp only [Sign.apply]; omega)]
      rfl
  | .finite s m e hpos, .zero t, ⟨k, he, _, _⟩, _ =>
    subst he
    rw [place?_finite, place?, Option.bind_some, Option.map_some]
    cases s
    · rw [compare_lt_iff_lt.mpr (by simp only [Sign.apply]; omega)]
      rfl
    · rw [compare_gt_iff_gt.mpr (by simp only [Sign.apply]; omega)]
      rfl
  | .finite s m e hpos, .finite t n f hpos', ⟨k, he, hm, _⟩, ⟨l, hf, hn, _⟩ =>
    subst he hf
    rw [place?_finite, place?_finite, Option.bind_some, Option.map_some,
      compare_signed s t (Nat.add_pos_right _ hpos) (Nat.add_pos_right _ hpos'),
      ← compare_finite hm hn]
    cases s <;> cases t <;> rfl

/-- Every float is made of a sign, an exponent and a mantissa. -/
theorem exists_components (x : Float) :
    ∃ s e m, x.toBits.toBitVec = packComponents binary64 s e m :=
  ⟨_, _, _, (@packComponents_unpackSign_unpackExponent_unpackMantissa binary64 _).symm⟩

theorem unpack_of_components {x : Float} {s : Sign} {e : BitVec 11} {m : BitVec 52}
    (h : x.toBits.toBitVec = packComponents binary64 s e m) :
    x.toModel.unpack = unpack binary64 (packComponents binary64 s e m) :=
  congrArg (unpack binary64) h

theorem regular (x : Float) : Regular x.toModel.unpack := by
  obtain ⟨s, e, m, h⟩ := exists_components x
  rw [unpack_of_components h]
  exact (unpack_packComponents s e m).1

theorem rank_of_nonneg {x : Float} {a : ℤ} (h : a ∈ number? x) (ha : 0 ≤ a) :
    rank x = a ∨ a = 0 ∧ rank x = -1 := by
  obtain ⟨s, e, m, hbits⟩ := exists_components x
  rw [number?, unpack_of_components hbits, (unpack_packComponents s e m).2] at h
  have hnat : x.toBits.toNat = s.toBitVec.toNat * 2 ^ 63 + magnitude e m := by
    rw [← toNat_packComponents, ← hbits, UInt64.toNat_toBitVec]
  have hm := m.isLt
  have he := e.isLt
  unfold rank
  split at h
  next hle =>
    obtain rfl := Option.some.inj h
    unfold beyond at hle
    cases s <;> simp only [Sign.apply, Sign.toBitVec] at ha hnat ⊢
    · rw [if_neg (by rw [hnat]; simp)]
      rw [hnat]
      right
      simp
      omega
    · rw [if_pos (by rw [hnat]; simp; omega)]
      rw [hnat]
      left
      simp
  next => cases h

theorem le_iff {x y : Float} :
    x ≤ y ↔ ∃ a ∈ number? x, ∃ b ∈ number? y, a ≤ b := by
  have h : x ≤ y ↔ x.toModel.unpack.le y.toModel.unpack = true := decide_eq_true_iff
  rw [h, UnpackedFloat.le, compare_eq (regular x) (regular y)]
  unfold number?
  cases place? x.toModel.unpack <;> cases place? y.toModel.unpack <;>
    simp [Ordering.isLE_iff_ne_gt, compare_le_iff_le]

theorem lt_iff {x y : Float} :
    x < y ↔ ∃ a ∈ number? x, ∃ b ∈ number? y, a < b := by
  have h : x < y ↔ x.toModel.unpack.lt y.toModel.unpack = true := decide_eq_true_iff
  rw [h, UnpackedFloat.lt, compare_eq (regular x) (regular y)]
  unfold number?
  cases place? x.toModel.unpack <;> cases place? y.toModel.unpack <;>
    simp [compare_lt_iff_lt]

theorem beq_iff {x y : Float} :
    (x == y) = true ↔ ∃ a, a ∈ number? x ∧ a ∈ number? y := by
  have h : (x == y) = x.toModel.unpack.beq y.toModel.unpack := rfl
  rw [h, UnpackedFloat.beq, compare_eq (regular x) (regular y)]
  unfold number?
  cases place? x.toModel.unpack <;> cases place? y.toModel.unpack <;>
    simp
  exact eq_comm

/-! ### Sums -/

/-- What is kept of a mantissa whose low digits were shifted out: the quotient, whether the rest is
at least half a unit, and whether it is neither zero nor half a unit. -/
structure Shifted (m n : ℕ) (kept : ExtendedMantissa) : Prop where
  mantissa : kept.mantissa = m / 2 ^ n
  roundBit : kept.roundBit = decide (2 ^ n ≤ 2 * (m % 2 ^ n))
  stickyBit : kept.stickyBit = decide (m % 2 ^ n ≠ 0 ∧ 2 * (m % 2 ^ n) ≠ 2 ^ n)

theorem Shifted.shiftRightOne {m n : ℕ} {kept : ExtendedMantissa} (h : Shifted m n kept) :
    Shifted m (n + 1) kept.shiftRightOne := by
  have hrest : m % 2 ^ (n + 1) = m % 2 ^ n + 2 ^ n * (m / 2 ^ n % 2) := Nat.mod_pow_succ
  have hlow : m % 2 ^ n < 2 ^ n := Nat.mod_lt _ (Nat.two_pow_pos n)
  have hbit : m / 2 ^ n % 2 = 0 ∨ m / 2 ^ n % 2 = 1 := by omega
  refine ⟨?_, ?_, ?_⟩
  · rw [ExtendedMantissa.shiftRightOne, h.mantissa, Nat.div_div_eq_div_mul, pow_succ]
  · rw [ExtendedMantissa.shiftRightOne, h.mantissa, hrest, pow_succ]
    rcases hbit with hbit | hbit <;> rw [hbit] <;> simp <;> omega
  · rw [ExtendedMantissa.shiftRightOne, h.roundBit, h.stickyBit, hrest, pow_succ,
      ← Bool.decide_or, decide_eq_decide]
    rcases hbit with hbit | hbit <;> rw [hbit] <;> omega

theorem shifted_shiftRight (m n : ℕ) :
    Shifted m n (ExtendedMantissa.mk m false false >>> n) := by
  induction n with
  | zero =>
    have hzero : ExtendedMantissa.mk m false false >>> 0 = .mk m false false := rfl
    rw [hzero]
    constructor <;> simp [Nat.mod_one]
  | succ n ih => exact ih.shiftRightOne

theorem roundedMantissa_shiftRight (m n : ℕ) :
    (ExtendedMantissa.mk m false false >>> n).roundedMantissa = roundShift m n := by
  obtain ⟨hmantissa, hround, hsticky⟩ := shifted_shiftRight m n
  generalize ExtendedMantissa.mk m false false >>> n = kept at hmantissa hround hsticky
  obtain ⟨q, r, s⟩ := kept
  simp only at hmantissa hround hsticky
  subst hmantissa hround hsticky
  unfold ExtendedMantissa.roundedMantissa roundShift
  rcases Nat.lt_trichotomy (2 * (m % 2 ^ n)) (2 ^ n) with h | h | h
  · rw [if_pos h, decide_eq_false (not_le.mpr h)]
    cases decide (m % 2 ^ n ≠ 0 ∧ 2 * (m % 2 ^ n) ≠ 2 ^ n) <;> rfl
  · rw [if_neg (by omega), if_pos h, decide_eq_true h.ge, decide_eq_false fun hne => hne.2 h]
    rfl
  · have hrest : m % 2 ^ n ≠ 0 := by
      have := Nat.two_pow_pos n
      omega
    rw [if_neg (by omega), if_neg (by omega), decide_eq_true h.le,
      decide_eq_true ⟨hrest, h.ne'⟩]
    rfl

/-- The binary place of the least digit that is kept of a number. -/
theorem targetExponent_eq {m : ℕ} (hm : 0 < m) (j : ℕ) :
    binary64.targetExponent (Float.Model.totalExponent m (j - 1074)) =
      (excess (m * 2 ^ j) : ℤ) - 1074 := by
  have hlog : (m * 2 ^ j).log2 = m.log2 + j := by
    have hpos := Nat.two_pow_pos j
    rw [Nat.log2_eq_iff (by positivity), pow_add, add_right_comm, pow_add]
    exact ⟨Nat.mul_le_mul_right _ (Nat.log2_self_le hm.ne'),
      (Nat.mul_lt_mul_right hpos).mpr Nat.lt_log2_self⟩
  have hbits : (binary64.mantissaBits : ℤ) = 53 := rfl
  have hmin : binary64.minExponent = -1074 := rfl
  rw [Float.Model.Format.targetExponent, Float.Model.totalExponent, hbits, hmin, excess, hlog]
  omega

theorem shiftToTargetExponent_eq {m : ℕ} (hm : 0 < m) (j : ℕ) :
    shiftToTargetExponent binary64 m (j - 1074) .exact =
      (ExtendedMantissa.mk m false false >>> (excess (m * 2 ^ j) - j),
        ((max j (excess (m * 2 ^ j)) : ℕ) : ℤ) - 1074) := by
  rw [shiftToTargetExponent, targetExponent_eq hm, shiftToExponent]
  have hshift : ((excess (m * 2 ^ j) : ℤ) - 1074 - (j - 1074)).toNat =
      excess (m * 2 ^ j) - j := by omega
  rw [hshift]
  refine Prod.ext rfl ?_
  simp only
  omega

theorem roundWithAccuracy_of_shifted (s : Sign) {n m : ℕ} {e e' : ℤ} {kept : ExtendedMantissa}
    (hm : 0 < m)
    (h : shiftToTargetExponent binary64
        (shiftToTargetExponent binary64 n e .exact).1.roundedMantissa
        (shiftToTargetExponent binary64 n e .exact).2 .exact = (kept, e'))
    (hkept : kept.mantissa = m) :
    roundWithAccuracy binary64 s n e .exact = .finite s m e' hm := by
  subst hkept
  simp [roundWithAccuracy, h, hm.ne']

/-- A number of units is rounded to the nearest float, when its mantissa is not too short. -/
theorem roundWithAccuracy_eq (s : Sign) {n j : ℕ} (hn : 0 < n) (hj : j ≤ excess (n * 2 ^ j)) :
    ∃ (m k : ℕ) (hm : 0 < m),
      roundWithAccuracy binary64 s n (j - 1074) .exact = .finite s m (k - 1074) hm ∧
        Canonical m k ∧ k * 2 ^ 52 + m = nearest (n * 2 ^ j) := by
  have hunits : 0 < n * 2 ^ j := Nat.mul_pos hn (Nat.two_pow_pos j)
  have hround : roundShift n (excess (n * 2 ^ j) - j) =
      roundShift (n * 2 ^ j) (excess (n * 2 ^ j)) := by
    rw [← roundShift_mul_pow n _ j, Nat.sub_add_cancel hj]
  have hcanonical := canonical_roundShift (n := n * 2 ^ j)
  have hshift : ∀ kept e', shiftToTargetExponent binary64
        (roundShift (n * 2 ^ j) (excess (n * 2 ^ j))) (excess (n * 2 ^ j) - 1074) .exact =
          (kept, e') → ∀ hm : 0 < kept.mantissa,
      roundWithAccuracy binary64 s n (j - 1074) .exact = .finite s kept.mantissa e' hm := by
    intro kept e' h hm
    refine roundWithAccuracy_of_shifted s hm ?_ rfl
    rw [shiftToTargetExponent_eq hn, roundedMantissa_shiftRight, hround, max_eq_right hj, h]
  unfold nearest
  rcases hcanonical with hcanonical | hfull
  · have hpos : 0 < roundShift (n * 2 ^ j) (excess (n * 2 ^ j)) := by
      rcases hcanonical.full with h | h
      · rwa [h, roundShift_zero]
      · exact (Nat.two_pow_pos 52).trans_le h
    refine ⟨_, _, hpos, ?_, hcanonical, rfl⟩
    refine hshift (.mk _ false false) _ ?_ hpos
    rw [shiftToTargetExponent_eq hpos, hcanonical.excess_eq, max_self, Nat.sub_self]
    rfl
  · -- one digit too long, and the last of them is zero
    have hcanonical : Canonical (2 ^ 52) (excess (n * 2 ^ j) + 1) := ⟨by decide, .inr le_rfl⟩
    have hexcess : excess (2 ^ 53 * 2 ^ excess (n * 2 ^ j)) = excess (n * 2 ^ j) + 1 := by
      rw [← hcanonical.excess_eq]
      ring_nf
    refine ⟨2 ^ 52, _, by decide, ?_, hcanonical, by rw [hfull]; ring⟩
    refine hshift (.mk (2 ^ 52) false false) _ ?_ (by decide)
    rw [hfull, shiftToTargetExponent_eq (by decide), hexcess, max_eq_right (Nat.le_succ _),
      Nat.add_sub_cancel_left]
    rfl

/-- Numbers of units are rounded to the nearest float. -/
theorem round_eq (s : Sign) {n : ℕ} (hn : 0 < n) (j : ℕ) : ∃ (m k : ℕ) (hm : 0 < m),
    UnpackedFloat.round binary64 s n (j - 1074) = .finite s m (k - 1074) hm ∧ Canonical m k ∧
      k * 2 ^ 52 + m = nearest (n * 2 ^ j) := by
  have hunits : n * 2 ^ (j - excess (n * 2 ^ j)) * 2 ^ (min j (excess (n * 2 ^ j))) =
      n * 2 ^ j := by
    rw [mul_assoc, ← pow_add]
    congr 2
    omega
  have hexponent : (j : ℤ) - 1074 - ((j - excess (n * 2 ^ j) : ℕ) : ℤ) =
      ((min j (excess (n * 2 ^ j)) : ℕ) : ℤ) - 1074 := by omega
  have hamount : ((j : ℤ) - 1074 - (excess (n * 2 ^ j) - 1074)).toNat =
      j - excess (n * 2 ^ j) := by omega
  rw [UnpackedFloat.round, targetExponent_eq hn, decreaseExponent, hamount, hexponent,
    Nat.shiftLeft_eq]
  have h := roundWithAccuracy_eq s (n := n * 2 ^ (j - excess (n * 2 ^ j)))
    (j := min j (excess (n * 2 ^ j))) (Nat.mul_pos hn (Nat.two_pow_pos _))
    (by rw [hunits]; exact min_le_right _ _)
  rwa [hunits] at h

/-- A finite float is packed under its magnitude, or as infinite when that is too great. -/
theorem pack_finite (s : Sign) {m k : ℕ} (hm : 0 < m) (h : Canonical m k) : ∃ e' m',
    pack binary64 (.finite s m (k - 1074) hm) = packComponents binary64 s e' m' ∧
      magnitude e' m' = min beyond (k * 2 ^ 52 + m) := by
  have hfull := h.full
  have hlt := h.lt
  have hbias : binary64.exponentBias = 1023 := rfl
  have hbits : binary64.mantissaBits = 53 := rfl
  have hbiased : ((k : ℤ) - 1074 + (1023 : ℕ) + (52 : ℕ)).toNat = k + 1 := by omega
  simp only [pack, hbias, hbits, hbiased]
  by_cases hlast : 2 ^ 11 ≤ k + 1 + 1
  · refine ⟨-1#_, 0, by rw [if_pos hlast]; rfl, ?_⟩
    have : beyond ≤ k * 2 ^ 52 + m := by
      unfold beyond
      omega
    rw [min_eq_left this]
    decide
  · have hle : k * 2 ^ 52 + m ≤ beyond := by
      unfold beyond
      omega
    rw [if_neg hlast, min_eq_right hle]
    by_cases hnormal : m.log2 + 1 = 53
    · have hge : 2 ^ 52 ≤ m := (Nat.le_log2 hm.ne').mp (by omega)
      refine ⟨BitVec.ofNat _ (k + 1), BitVec.ofNat _ m, by rw [if_pos hnormal], ?_⟩
      rw [magnitude, BitVec.toNat_ofNat, BitVec.toNat_ofNat, Nat.mod_eq_of_lt (by omega)]
      omega
    · have hlog : m.log2 < 53 := (Nat.log2_lt hm.ne').mpr hlt
      have hlt : m < 2 ^ 52 := (Nat.log2_lt hm.ne').mp (by omega)
      refine ⟨0#_, BitVec.ofNat _ m, by rw [if_neg hnormal], ?_⟩
      rw [magnitude, BitVec.toNat_ofNat, BitVec.toNat_ofNat, Nat.mod_eq_of_lt hlt]
      omega

/-- A float that is not negative, with its magnitude. -/
inductive Upward : UnpackedFloat → ℕ → Prop
  | zero (s : Sign) : Upward (.zero s) 0
  | finite {m k : ℕ} (hm : 0 < m) (h : Canonical m k) (hlt : k * 2 ^ 52 + m < beyond) :
    Upward (.finite .positive m (k - 1074) hm) (k * 2 ^ 52 + m)
  | infinity : Upward (.infinity .positive) beyond

theorem upward_of_place? {u : UnpackedFloat} {a : ℕ} (hu : Regular u)
    (h : place? u = some (a : ℤ)) : Upward u a := by
  match u, hu with
  | .notANumber, _ => cases h
  | .zero s, _ =>
    obtain rfl : a = 0 := by simpa [place?, eq_comm] using h
    exact .zero s
  | .infinity s, _ =>
    cases s
    · have : -(beyond : ℤ) = a := Option.some.inj h
      have : 0 < beyond := by decide
      omega
    · have : (beyond : ℤ) = a := Option.some.inj h
      obtain rfl : beyond = a := by exact_mod_cast this
      exact .infinity
  | .finite s m e hm, ⟨k, he, hcanonical, hlt⟩ =>
    subst he
    rw [place?_finite] at h
    have hplace := Option.some.inj h
    cases s <;> simp only [Sign.apply] at hplace
    · omega
    · obtain rfl : k * 2 ^ 52 + m = a := by exact_mod_cast hplace
      exact .finite hm hcanonical hlt

theorem Upward.eq_infinity {u : UnpackedFloat} (h : Upward u beyond) :
    u = .infinity .positive := by
  generalize hg : beyond = g at h
  cases h with
  | infinity => rfl
  | zero => exact absurd hg (by decide)
  | finite _ _ hlt => exact absurd hg hlt.ne'

/-- A result is packed as the float of a magnitude, or as infinite when that is too great. -/
def Packs (u : UnpackedFloat) (g : ℕ) : Prop :=
  place? (unpack binary64 (pack binary64 u)) = some ((min beyond g : ℕ) : ℤ)

theorem packs_zero (s : Sign) : Packs (.zero s) 0 := by
  have h := (unpack_packComponents s 0 0).2
  have hmagnitude : magnitude 0 0 = 0 := rfl
  rw [hmagnitude, if_pos (Nat.zero_le _)] at h
  rw [Packs, Nat.min_zero]
  cases s <;> exact h

theorem packs_infinity {g : ℕ} (hg : beyond ≤ g) : Packs (.infinity .positive) g := by
  have h := (unpack_packComponents .positive (-1#_) 0).2
  have hmagnitude : magnitude (-1#_) 0 = beyond := by decide
  rw [hmagnitude, if_pos le_rfl] at h
  rw [Packs, min_eq_left hg]
  exact h

theorem packs_finite {m k : ℕ} (hm : 0 < m) (h : Canonical m k) :
    Packs (.finite .positive m (k - 1074) hm) (k * 2 ^ 52 + m) := by
  obtain ⟨e', m', hpack, hmagnitude⟩ := pack_finite .positive hm h
  have hplace := (unpack_packComponents .positive e' m').2
  rw [if_pos (by rw [hmagnitude]; exact min_le_left _ _), hmagnitude] at hplace
  rw [Packs, hpack]
  exact hplace

/-- Two finite floats are added in units of the lower place. -/
theorem packs_add_finite {m n k l : ℕ} (hm : 0 < m) (hn : 0 < n) :
    Packs (UnpackedFloat.add binary64 (.finite .positive m (k - 1074) hm)
      (.finite .positive n (l - 1074) hn)) (nearest (m * 2 ^ k + n * 2 ^ l)) := by
  have hmin : min ((k : ℤ) - 1074) (l - 1074) = (min k l : ℕ) - 1074 := by omega
  have hk : ((k : ℤ) - 1074 - ((min k l : ℕ) - 1074)).toNat = k - min k l := by omega
  have hl : ((l : ℤ) - 1074 - ((min k l : ℕ) - 1074)).toNat = l - min k l := by omega
  have hunits : (m * 2 ^ (k - min k l) + n * 2 ^ (l - min k l)) * 2 ^ min k l =
      m * 2 ^ k + n * 2 ^ l := by
    rw [add_mul, mul_assoc, mul_assoc, ← pow_add, ← pow_add, Nat.sub_add_cancel (min_le_left k l),
      Nat.sub_add_cancel (min_le_right k l)]
  have hpos : 0 < m * 2 ^ (k - min k l) + n * 2 ^ (l - min k l) :=
    Nat.add_pos_left (Nat.mul_pos hm (Nat.two_pow_pos _)) _
  obtain ⟨r, j, hr, hround, hcanonical, hnearest⟩ := round_eq .positive hpos (min k l)
  rw [hunits] at hnearest
  rw [← hnearest]
  have hsum : UnpackedFloat.add binary64 (.finite .positive m (k - 1074) hm)
      (.finite .positive n (l - 1074) hn) = .finite .positive r (j - 1074) hr := by
    rw [← hround]
    simp only [UnpackedFloat.add, hmin, decreaseExponent, hk, hl, Sign.apply, Nat.shiftLeft_eq]
    rw [← Nat.cast_add, UnpackedFloat.normalize,
      compare_gt_iff_gt.mpr (Int.natCast_pos.mpr hpos), Int.toNat_natCast]
  rw [hsum]
  exact packs_finite hr hcanonical

/-- The sum of two floats that are not negative is the float nearest to the sum of their units. -/
theorem Upward.add {u v : UnpackedFloat} {a b : ℕ} (hu : Upward u a) (hv : Upward v b) :
    Packs (UnpackedFloat.add binary64 u v) (nearest (units a + units b)) := by
  have hleft : a ≤ nearest (units a + units b) :=
    (nearest_units a).ge.trans (nearest_mono (Nat.le_add_right _ _))
  have hright : b ≤ nearest (units a + units b) :=
    (nearest_units b).ge.trans (nearest_mono (Nat.le_add_left _ _))
  have hzero : units 0 = 0 := by decide
  match u, v, hu, hv with
  | _, _, .zero s, .zero t =>
    rw [hzero, Nat.zero_add, ← hzero, nearest_units]
    cases s <;> cases t <;> exact packs_zero _
  | _, _, .zero s, .finite hn h hlt =>
    rw [hzero, Nat.zero_add, nearest_units]
    exact packs_finite hn h
  | _, _, .finite hm h hlt, .zero t =>
    rw [hzero, Nat.add_zero, nearest_units]
    exact packs_finite hm h
  | _, _, .finite hm h _, .finite hn h' _ =>
    rw [h.units_eq, h'.units_eq]
    exact packs_add_finite hm hn
  | _, v, .infinity, hv =>
    have hsum : UnpackedFloat.add binary64 (.infinity .positive) v = .infinity .positive := by
      cases hv <;> rfl
    rw [hsum]
    exact packs_infinity hleft
  | u, _, hu, .infinity =>
    have hsum : UnpackedFloat.add binary64 u (.infinity .positive) = .infinity .positive := by
      cases hu <;> rfl
    rw [hsum]
    exact packs_infinity hright

theorem number?_add {x y : Float} {a b : ℕ} (hx : number? x = some (a : ℤ))
    (hy : number? y = some (b : ℤ)) :
    number? (x + y) = some ((min beyond (nearest (units a + units b)) : ℕ) : ℤ) :=
  (upward_of_place? (regular x) hx).add (upward_of_place? (regular y) hy)

theorem number?_zero : number? 0 = some ((0 : ℕ) : ℤ) := by decide +kernel

theorem exists_of_nonneg {x : Float} (h : 0 ≤ x) : ∃ a : ℕ, number? x = some (a : ℤ) := by
  obtain ⟨z, hz, a, ha, hle⟩ := le_iff.mp h
  obtain rfl : ((0 : ℕ) : ℤ) = z := Option.some.inj (number?_zero.symm.trans hz)
  exact ⟨a.toNat, by rw [Int.toNat_of_nonneg hle]; exact ha⟩

theorem exists_of_nonneg_of_le {x y : Float} (hx : 0 ≤ x) (hxy : x ≤ y) :
    ∃ a b : ℕ, number? x = some (a : ℤ) ∧ number? y = some (b : ℤ) ∧ a ≤ b := by
  obtain ⟨a, ha⟩ := exists_of_nonneg hx
  obtain ⟨a', ha', b, hb, hle⟩ := le_iff.mp hxy
  obtain rfl : (a : ℤ) = a' := Option.some.inj (ha.symm.trans ha')
  have hb' : ((b.toNat : ℕ) : ℤ) = b := Int.toNat_of_nonneg (by omega)
  exact ⟨a, b.toNat, ha, by rw [hb']; exact hb, by omega⟩

/-- The float above all other numbers. -/
def infinity : Float := .ofBits 0x7ff0000000000000

theorem number?_infinity : number? infinity = some (beyond : ℤ) := by decide +kernel

theorem number?_le_beyond {x : Float} {a : ℤ} (h : a ∈ number? x) : a ≤ beyond := by
  obtain ⟨s, e, m, hbits⟩ := exists_components x
  rw [number?, unpack_of_components hbits, (unpack_packComponents s e m).2] at h
  split at h
  next hle =>
    obtain rfl := Option.some.inj h
    cases s <;> simp only [Sign.apply] <;> omega
  next => cases h

theorem le_self_iff {x : Float} : x ≤ x ↔ (number? x).isSome = true := by
  rw [le_iff]
  cases number? x <;> simp

end OffshoreFlights.Binary64

namespace OffshoreFlights

open Binary64

instance : Scalar.Lengths Float where
  le_trans {x y z} hxy hyz := by
    obtain ⟨a, ha, b, hb, hab⟩ := Binary64.le_iff.mp hxy
    obtain ⟨b', hb', c, hc, hbc⟩ := Binary64.le_iff.mp hyz
    obtain rfl : b = b' := Option.some.inj (hb.symm.trans hb')
    exact Binary64.le_iff.mpr ⟨a, ha, c, hc, hab.trans hbc⟩
  le_total {x y} hx hy := by
    obtain ⟨a, ha, -⟩ := Binary64.le_iff.mp hx
    obtain ⟨b, hb, -⟩ := Binary64.le_iff.mp hy
    exact (le_total a b).imp (fun h => Binary64.le_iff.mpr ⟨a, ha, b, hb, h⟩)
      fun h => Binary64.le_iff.mpr ⟨b, hb, a, ha, h⟩
  le_self {x y} h := by
    obtain ⟨a, ha, b, hb, -⟩ := Binary64.le_iff.mp h
    exact ⟨Binary64.le_iff.mpr ⟨a, ha, a, ha, le_rfl⟩,
      Binary64.le_iff.mpr ⟨b, hb, b, hb, le_rfl⟩⟩
  lt_iff {x y} := by
    rw [Binary64.lt_iff, Binary64.le_iff, Binary64.le_iff]
    cases number? x <;> cases number? y <;> simp
    exact le_of_lt
  beq_iff {x y} := by
    rw [Binary64.beq_iff, Binary64.le_iff, Binary64.le_iff]
    cases number? x <;> cases number? y <;> simp
    rw [le_antisymm_iff, and_comm]
  zero_le_zero := by decide +kernel
  le_add {x y} hx hy := by
    obtain ⟨a, ha⟩ := exists_of_nonneg hx
    obtain ⟨b, hb⟩ := exists_of_nonneg hy
    refine Binary64.le_iff.mpr ⟨_, ha, _, number?_add ha hb, Int.ofNat_le.mpr ?_⟩
    refine le_min (Int.ofNat_le.mp (number?_le_beyond ha)) ?_
    calc a = nearest (units a) := (nearest_units a).symm
      _ ≤ nearest (units a + units b) := nearest_mono (Nat.le_add_right _ _)
  add_le_add {x y z w} hx hxy hz hzw := by
    obtain ⟨a, b, ha, hb, hab⟩ := exists_of_nonneg_of_le hx hxy
    obtain ⟨c, d, hc, hd, hcd⟩ := exists_of_nonneg_of_le hz hzw
    refine Binary64.le_iff.mpr ⟨_, number?_add ha hc, _, number?_add hb hd, Int.ofNat_le.mpr ?_⟩
    exact min_le_min le_rfl (nearest_mono (add_le_add (units_mono hab) (units_mono hcd)))
  le_self_of_finite {x} h := by
    replace h : x.toModel.unpack.isFinite = true := h
    rw [le_self_iff, number?]
    cases hu : x.toModel.unpack <;> simp [hu, Float.Model.UnpackedFloat.isFinite, place?] at h ⊢
  le_of_compareTotal {x y} hx hy h := by
    obtain ⟨a, ha⟩ := exists_of_nonneg hx
    obtain ⟨b, hb⟩ := exists_of_nonneg hy
    have hrank : rank x < rank y := compare_lt_iff_lt.mp h
    have hx := rank_of_nonneg ha (Int.natCast_nonneg a)
    have hy := rank_of_nonneg hb (Int.natCast_nonneg b)
    exact Binary64.le_iff.mpr ⟨a, ha, b, hb, by omega⟩
  le_of_not_compareTotal {x y} hx hy h := by
    obtain ⟨a, ha⟩ := exists_of_nonneg hx
    obtain ⟨b, hb⟩ := exists_of_nonneg hy
    have hrank : ¬rank x < rank y := fun hlt => h (compare_lt_iff_lt.mpr hlt)
    have hx := rank_of_nonneg ha (Int.natCast_nonneg a)
    have hy := rank_of_nonneg hb (Int.natCast_nonneg b)
    exact Binary64.le_iff.mpr ⟨b, hb, a, ha, by omega⟩

/-- No other length than the infinite one reaches it. -/
theorem Binary64.eq_infinity {x : Float} (hx : 0 ≤ x) (h : ¬x < infinity) : x = infinity := by
  obtain ⟨a, ha⟩ := exists_of_nonneg hx
  have hbeyond : a = beyond := by
    have hle : (a : ℤ) ≤ beyond := number?_le_beyond ha
    have hge : ¬(a : ℤ) < beyond :=
      fun hlt => h (Binary64.lt_iff.mpr ⟨a, ha, beyond, number?_infinity, hlt⟩)
    omega
  subst hbeyond
  have hunpack : x.toModel.unpack = infinity.toModel.unpack :=
    (upward_of_place? (regular x) ha).eq_infinity.trans
      (upward_of_place? (regular infinity) number?_infinity).eq_infinity.symm
  have hbits := (Float.Model.UnpackedFloat.unpack_inj_of_valid x.toModel.valid
    infinity.toModel.valid).mp hunpack
  exact Float.toBits_inj.mp (UInt64.toBitVec_inj.mp hbits)

end OffshoreFlights
