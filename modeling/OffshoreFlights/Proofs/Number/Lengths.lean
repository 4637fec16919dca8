import Mathlib.Order.Defs.Unbundled
import OffshoreFlights.Proofs.Exact

/-! Numbers that can measure lengths. Their sums may be rounded, as those of floats are: what counts
is that longer parts make no shorter whole. A value that is not at most itself, such as the float
that is not a number, compares with nothing. -/

namespace OffshoreFlights

/-- Numbers whose order is total, and in which sums of lengths keep that order. -/
class Scalar.Lengths (α : Type) [Scalar α] : Prop where
  le_trans {x y z : α} : x ≤ y → y ≤ z → x ≤ z
  le_total {x y : α} : x ≤ x → y ≤ y → x ≤ y ∨ y ≤ x
  /-- Only numbers compare. -/
  le_self {x y : α} : x ≤ y → x ≤ x ∧ y ≤ y
  lt_iff {x y : α} : x < y ↔ x ≤ y ∧ ¬y ≤ x
  beq_iff {x y : α} : (x == y) = true ↔ x ≤ y ∧ y ≤ x
  zero_le_zero : (0 : α) ≤ 0
  le_add {x y : α} : 0 ≤ x → 0 ≤ y → x ≤ x + y
  add_le_add {x y z w : α} : 0 ≤ x → x ≤ y → 0 ≤ z → z ≤ w → x + z ≤ y + w
  le_self_of_finite {x : α} : isFinite x = true → x ≤ x
  /-- The total order extends the order of the lengths. -/
  le_of_compareTotal {x y : α} : 0 ≤ x → 0 ≤ y → compareTotal x y = .lt → x ≤ y
  le_of_not_compareTotal {x y : α} : 0 ≤ x → 0 ≤ y → compareTotal x y ≠ .lt → y ≤ x

namespace Scalar.Lengths

variable {α : Type} [Scalar α] [Lengths α] {x y z : α}

theorem le_of_lt (h : x < y) : x ≤ y := (lt_iff.mp h).1

theorem not_le_of_lt (h : x < y) : ¬y ≤ x := (lt_iff.mp h).2

theorem lt_of_not_le (hx : x ≤ x) (hy : y ≤ y) (h : ¬x ≤ y) : y < x :=
  lt_iff.mpr ⟨(le_total hx hy).resolve_left h, h⟩

theorem lt_of_lt_of_le (hxy : x < y) (hyz : y ≤ z) : x < z :=
  lt_iff.mpr ⟨le_trans (le_of_lt hxy) hyz, fun h => not_le_of_lt hxy (le_trans hyz h)⟩

theorem lt_of_le_of_lt (hxy : x ≤ y) (hyz : y < z) : x < z :=
  lt_iff.mpr ⟨le_trans hxy (le_of_lt hyz), fun h => not_le_of_lt hyz (le_trans h hxy)⟩

instance : IsStrictOrder α (· < ·) where
  irrefl _ h := not_le_of_lt h (le_of_lt h)
  trans _ _ _ hxy hyz := lt_of_lt_of_le hxy (le_of_lt hyz)

theorem add_nonneg (hx : 0 ≤ x) (hy : 0 ≤ y) : 0 ≤ x + y := le_trans hx (le_add hx hy)

theorem foldl_least_le (xs : List α) (m : α) (hm : 0 ≤ m) (hxs : ∀ x ∈ xs, 0 ≤ x) :
    let least := xs.foldl (fun m y => if compareTotal y m = .lt then y else m) m
    0 ≤ least ∧ least ≤ m ∧ ∀ x ∈ xs, least ≤ x := by
  induction xs generalizing m with
  | nil => exact ⟨hm, (le_self hm).2, by simp⟩
  | cons y xs ih =>
    obtain ⟨hy, hxs⟩ := List.forall_mem_cons.mp hxs
    rw [List.foldl_cons]
    by_cases h : compareTotal y m = .lt
    · rw [if_pos h]
      obtain ⟨hnonneg, hle, hrest⟩ := ih y hy hxs
      have hleast := le_trans hle (le_of_compareTotal hy hm h)
      exact ⟨hnonneg, hleast, List.forall_mem_cons.mpr ⟨hle, hrest⟩⟩
    · rw [if_neg h]
      obtain ⟨hnonneg, hle, hrest⟩ := ih m hm hxs
      have hleast := le_trans hle (le_of_not_compareTotal hy hm h)
      exact ⟨hnonneg, hle, List.forall_mem_cons.mpr ⟨hleast, hrest⟩⟩

theorem least?_nonneg {xs : List α} {m : α} (hxs : ∀ x ∈ xs, 0 ≤ x) (h : least? xs = some m) :
    0 ≤ m := by
  match xs, h with
  | x :: xs, h =>
    obtain rfl := Option.some.inj h
    obtain ⟨hx, hxs⟩ := List.forall_mem_cons.mp hxs
    exact (foldl_least_le xs x hx hxs).1

/-- The least of some lengths is at most each of them. -/
theorem least?_le {xs : List α} {m : α} (hxs : ∀ x ∈ xs, 0 ≤ x) (h : least? xs = some m) :
    ∀ x ∈ xs, m ≤ x := by
  match xs, h with
  | x :: xs, h =>
    obtain rfl := Option.some.inj h
    obtain ⟨hx, hxs⟩ := List.forall_mem_cons.mp hxs
    exact List.forall_mem_cons.mpr (foldl_least_le xs x hx hxs).2

end Scalar.Lengths

/-- In exact arithmetic all values are numbers. -/
instance exact_lengths {K : Type} [Field K] [LinearOrder K] [IsStrictOrderedRing K]
    [FloorRing K] : Scalar.Lengths K where
  le_trans hxy hyz := hxy.trans hyz
  le_total {x y} _ _ := le_total x y
  le_self _ := ⟨le_refl _, le_refl _⟩
  lt_iff := lt_iff_le_not_ge
  beq_iff := by
    intro x y
    rw [← le_antisymm_iff]
    exact decide_eq_true_iff
  zero_le_zero := le_refl _
  le_add _ h := le_add_of_nonneg_right h
  add_le_add _ h _ h' := add_le_add h h'
  le_self_of_finite _ := le_refl _
  le_of_compareTotal _ _ h := (compare_lt_iff_lt.mp h).le
  le_of_not_compareTotal _ _ h := not_lt.mp fun hlt => h (compare_lt_iff_lt.mpr hlt)

end OffshoreFlights
