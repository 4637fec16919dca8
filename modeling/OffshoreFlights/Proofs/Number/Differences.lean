import OffshoreFlights.Proofs.Number.Binary64

/-! Differences of binary64 floats. The difference of two lengths is the float nearest to it, so it
is the same in both directions but for its sign, and that of a finite float and itself is zero. -/

namespace OffshoreFlights.Binary64

open Float.Model (UnpackedFloat)
open Float.Model.Format (binary64)
open Float.Model.UnpackedFloat

/-- The place of a result when it is packed. -/
def packedPlace? (u : UnpackedFloat) : Option ℤ := place? (unpack binary64 (pack binary64 u))

theorem packedPlace?_zero (s : Sign) : packedPlace? (.zero s) = some 0 := packs_zero s

theorem packedPlace?_infinity (s : Sign) :
    packedPlace? (.infinity s) = some (s.apply (beyond : ℤ)) := by
  have h := (unpack_packComponents s (-1#_) 0).2
  have hmagnitude : magnitude (-1#_) 0 = beyond := by decide
  rw [hmagnitude, if_pos le_rfl] at h
  exact h

theorem packedPlace?_finite (s : Sign) {m k : ℕ} (hm : 0 < m) (h : Canonical m k) :
    packedPlace? (.finite s m (k - 1074) hm) =
      some (s.apply ((min beyond (k * 2 ^ 52 + m) : ℕ) : ℤ)) := by
  obtain ⟨e', m', hpack, hmagnitude⟩ := pack_finite s hm h
  have hplace := (unpack_packComponents s e' m').2
  rw [if_pos (by rw [hmagnitude]; exact min_le_left _ _), hmagnitude] at hplace
  rw [packedPlace?, hpack]
  exact hplace

theorem number?_neg (x : Float) : number? (-x) = (number? x).map (- ·) := by
  show packedPlace? x.toModel.unpack.neg = (place? x.toModel.unpack).map (- ·)
  have hregular := regular x
  generalize x.toModel.unpack = u at hregular
  match u, hregular with
  | .notANumber, _ => rfl
  | .zero s, _ => exact packedPlace?_zero (-s)
  | .infinity s, _ =>
    rw [UnpackedFloat.neg, packedPlace?_infinity]
    cases s <;> rfl
  | .finite s m e hm, ⟨k, he, hcanonical, hlt⟩ =>
    subst he
    rw [UnpackedFloat.neg, packedPlace?_finite _ hm hcanonical, min_eq_right hlt.le,
      place?_finite]
    cases s
    · exact congrArg some (neg_neg _).symm
    · rfl

/-- A value is at the distance of its place from zero. -/
theorem number?_magnitude (x : Float) : number? (Scalar.magnitude x) = (number? x).map (|·|) := by
  unfold Scalar.magnitude
  split
  next h =>
    obtain ⟨a, ha, b, hb, hab⟩ := lt_iff.mp h
    obtain rfl : 0 = b := Option.some.inj (number?_zero.symm.trans hb)
    show number? (-x) = _
    rw [number?_neg, Option.mem_def.mp ha, Option.map_some, Option.map_some, abs_of_neg hab]
  next h =>
    cases hx : number? x with
    | none => rfl
    | some a =>
      have : ¬a < 0 := fun hlt => h (lt_iff.mpr ⟨a, hx, 0, number?_zero, hlt⟩)
      rw [Option.map_some, abs_of_nonneg (not_lt.mp this)]

/-- The place of the float nearest to a difference of units. -/
def gap (m n : ℕ) : ℤ := (min beyond (nearest (m - n)) : ℕ) - (min beyond (nearest (n - m)) : ℕ)

theorem gap_comm (m n : ℕ) : gap n m = -gap m n := by
  unfold gap
  ring

theorem gap_self (m : ℕ) : gap m m = 0 := sub_self _

theorem nearest_zero : nearest 0 = 0 := by decide

theorem gap_of_le {m n : ℕ} (h : n ≤ m) : gap m n = (min beyond (nearest (m - n)) : ℕ) := by
  rw [gap, Nat.sub_eq_zero_of_le h, nearest_zero, Nat.min_zero, Nat.cast_zero, sub_zero]

theorem packedPlace?_round (s : Sign) {n : ℕ} (hn : 0 < n) (j : ℕ) :
    packedPlace? (UnpackedFloat.round binary64 s n (j - 1074)) =
      some (s.apply ((min beyond (nearest (n * 2 ^ j)) : ℕ) : ℤ)) := by
  obtain ⟨m, k, hm, hround, hcanonical, hnearest⟩ := round_eq s hn j
  rw [hround, packedPlace?_finite s hm hcanonical, hnearest]

/-- A difference of mantissas at one place is rounded to the nearest float. -/
theorem packedPlace?_normalize (m n j : ℕ) :
    packedPlace? (UnpackedFloat.normalize binary64 (m - n) (j - 1074) .positive) =
      some (gap (m * 2 ^ j) (n * 2 ^ j)) := by
  have hmono {a b : ℕ} (h : a ≤ b) : a * 2 ^ j ≤ b * 2 ^ j := Nat.mul_le_mul_right _ h
  unfold UnpackedFloat.normalize
  rcases Nat.lt_trichotomy m n with h | rfl | h
  · have hneg : ((m : ℤ) - n) < 0 := by omega
    have hnat : (-((m : ℤ) - n)).toNat = n - m := by omega
    rw [compare_lt_iff_lt.mpr hneg]
    dsimp only
    rw [hnat, packedPlace?_round .negative (by omega), gap_comm, gap_of_le (hmono h.le),
      Nat.sub_mul]
    rfl
  · rw [sub_self, compare_eq_iff_eq.mpr rfl, gap_self]
    exact packedPlace?_zero _
  · have hpos : ((m : ℤ) - n) > 0 := by omega
    have hnat : ((m : ℤ) - n).toNat = m - n := by omega
    rw [compare_gt_iff_gt.mpr hpos]
    dsimp only
    rw [hnat, packedPlace?_round .positive (by omega), gap_of_le (hmono h.le), Nat.sub_mul]
    rfl

/-- The difference of two lengths is the float nearest to the difference of their units. -/
theorem Upward.sub {u v : UnpackedFloat} {a b : ℕ} (hu : Upward u a) (hv : Upward v b)
    (ha : a < beyond) (hb : b < beyond) :
    packedPlace? (UnpackedFloat.sub binary64 u v) = some (gap (units a) (units b)) := by
  have hzero : units 0 = 0 := by decide
  match u, v, hu, hv with
  | _, _, .zero s, .zero t =>
    rw [gap_self]
    cases s <;> cases t <;> exact packedPlace?_zero _
  | _, _, .zero s, .finite hn h hlt =>
    rw [gap_comm, hzero, gap_of_le (Nat.zero_le _), Nat.sub_zero, nearest_units]
    exact packedPlace?_finite .negative hn h
  | _, _, .finite hm h hlt, .zero t =>
    rw [hzero, gap_of_le (Nat.zero_le _), Nat.sub_zero, nearest_units]
    exact packedPlace?_finite .positive hm h
  | _, _, .finite (m := m) (k := k) hm h _, .finite (m := n) (k := l) hn h' _ =>
    have hmin : min ((k : ℤ) - 1074) (l - 1074) = (min k l : ℕ) - 1074 := by omega
    have hk : ((k : ℤ) - 1074 - ((min k l : ℕ) - 1074)).toNat = k - min k l := by omega
    have hl : ((l : ℤ) - 1074 - ((min k l : ℕ) - 1074)).toNat = l - min k l := by omega
    have hleft : m * 2 ^ (k - min k l) * 2 ^ min k l = m * 2 ^ k := by
      rw [mul_assoc, ← pow_add, Nat.sub_add_cancel (min_le_left k l)]
    have hright : n * 2 ^ (l - min k l) * 2 ^ min k l = n * 2 ^ l := by
      rw [mul_assoc, ← pow_add, Nat.sub_add_cancel (min_le_right k l)]
    rw [h.units_eq, h'.units_eq, ← hleft, ← hright, ← packedPlace?_normalize]
    simp only [UnpackedFloat.sub, hmin, decreaseExponent, hk, hl, Sign.apply, Nat.shiftLeft_eq]
  | _, _, .infinity, _ => exact absurd ha (lt_irrefl _)
  | _, _, _, .infinity => exact absurd hb (lt_irrefl _)

theorem number?_sub {x y : Float} {a b : ℕ} (hx : number? x = some (a : ℤ))
    (hy : number? y = some (b : ℤ)) (ha : a < beyond) (hb : b < beyond) :
    number? (x - y) = some (gap (units a) (units b)) :=
  (upward_of_place? (regular x) hx).sub (upward_of_place? (regular y) hy) ha hb

/-- A finite length has its place below the infinite one. -/
theorem exists_of_finite {x : Float} (hfinite : x.isFinite = true) (h : 0 ≤ x) :
    ∃ a : ℕ, number? x = some (a : ℤ) ∧ a < beyond := by
  obtain ⟨a, ha⟩ := exists_of_nonneg h
  refine ⟨a, ha, lt_of_le_of_ne (Int.ofNat_le.mp (number?_le_beyond ha)) ?_⟩
  rintro rfl
  have hinfinite := (upward_of_place? (regular x) ha).eq_infinity
  replace hfinite : x.toModel.unpack.isFinite = true := hfinite
  rw [hinfinite] at hfinite
  cases hfinite

/-- How far two finite lengths are apart is a number, and the same in both directions. -/
theorem number?_magnitude_sub {x y : Float} (hx : x.isFinite = true) (hx' : 0 ≤ x)
    (hy : y.isFinite = true) (hy' : 0 ≤ y) : ∃ a, number? (Scalar.magnitude (x - y)) = some a ∧
      number? (Scalar.magnitude (y - x)) = some a := by
  obtain ⟨a, ha, halt⟩ := exists_of_finite hx hx'
  obtain ⟨b, hb, hblt⟩ := exists_of_finite hy hy'
  refine ⟨|gap (units a) (units b)|, ?_, ?_⟩
  · rw [number?_magnitude, number?_sub ha hb halt hblt, Option.map_some]
  · rw [number?_magnitude, number?_sub hb ha hblt halt, Option.map_some, gap_comm, abs_neg]

/-- No value differs from itself, if it differs from something at all. -/
theorem number?_sub_self (x : Float) : number? (x - x) = none ∨ number? (x - x) = some 0 := by
  show packedPlace? (UnpackedFloat.sub binary64 x.toModel.unpack x.toModel.unpack) = none ∨
    packedPlace? (UnpackedFloat.sub binary64 x.toModel.unpack x.toModel.unpack) = some 0
  have hregular := regular x
  generalize x.toModel.unpack = u at hregular
  match u, hregular with
  | .notANumber, _ => exact .inl rfl
  | .zero s, _ => cases s <;> exact .inr (packedPlace?_zero _)
  | .infinity s, _ => cases s <;> exact .inl rfl
  | .finite s m e hm, _ =>
    right
    simp only [UnpackedFloat.sub, sub_self, UnpackedFloat.normalize]
    rw [compare_eq_iff_eq.mpr rfl]
    exact packedPlace?_zero _

end OffshoreFlights.Binary64
