import Mathlib.Order.Defs.LinearOrder
import OffshoreFlights.Number.Binary64
import OffshoreFlights.Pricing.Scan
import OffshoreFlights.Proofs.Exact

/-! The order by falling dual value. It is the one order of the platforms that puts those that are
worth more first and leaves those that are worth the same as they stood. So it depends on the order
before it, but only among platforms that are worth the same. -/

namespace OffshoreFlights

instance Scalar.transCmp_exact {K : Type} [Field K] [LinearOrder K] [FloorRing K] :
    Std.TransCmp (Scalar.compareTotal (α := K)) :=
  inferInstanceAs (Std.TransCmp (compare : K → K → Ordering))

instance Scalar.transCmp_binary64 : Std.TransCmp (Scalar.compareTotal (α := Float)) :=
  inferInstanceAs (Std.TransCmp (compareOn Binary64.rank))

namespace Pricing

/-! ### Places -/

theorem idxOf_lt_of_sublist {l : List ℕ} (hnodup : l.Nodup) {i j : ℕ} (h : [i, j].Sublist l) :
    l.idxOf i < l.idxOf j := by
  have hplaces : l.Pairwise fun i j => l.idxOf i < l.idxOf j := by
    rw [List.pairwise_iff_getElem]
    intro m n hm hn hmn
    rwa [hnodup.idxOf_getElem, hnodup.idxOf_getElem]
  exact List.pairwise_iff_forall_sublist.mp hplaces h

/-- Of two members of a list, one stands before the other. -/
theorem sublist_or_sublist {l : List ℕ} {i j : ℕ} (hi : i ∈ l) (hj : j ∈ l) (hne : i ≠ j) :
    [i, j].Sublist l ∨ [j, i].Sublist l := by
  obtain ⟨before, after, rfl⟩ := List.append_of_mem hi
  rcases List.mem_append.mp hj with hj | hj
  · right
    exact (List.singleton_sublist.mpr hj).append
      (List.singleton_sublist.mpr List.mem_cons_self)
  · left
    have hj : j ∈ after := (List.mem_cons.mp hj).resolve_left hne.symm
    exact ((List.singleton_sublist.mpr hj).cons_cons i).trans (List.sublist_append_right _ _)

/-! ### The order -/

variable {α : Type} [Scalar α]

/-- One platform comes before another by falling dual value: it is worth more, or it is worth the
same and stood before the other. -/
def Precedes (duals : List α) (platforms : List ℕ) (i j : ℕ) : Prop :=
  (Scalar.compareTotal (duals.getD j 0) (duals.getD i 0)).isLE = true ∧
    (Scalar.compareTotal (duals.getD i 0) (duals.getD j 0) = .eq → [i, j].Sublist platforms)

instance (duals : List α) (platforms : List ℕ) (i j : ℕ) :
    Decidable (Precedes duals platforms i j) :=
  inferInstanceAs (Decidable (_ = true ∧ (_ = Ordering.eq → [i, j].Sublist platforms)))

variable [Std.TransCmp (Scalar.compareTotal (α := α))] {duals : List α}
  {platforms platforms' order : List ℕ}

theorem isLE_trans_dual (i j k : ℕ)
    (hij : (Scalar.compareTotal (duals.getD j 0) (duals.getD i 0)).isLE = true)
    (hjk : (Scalar.compareTotal (duals.getD k 0) (duals.getD j 0)).isLE = true) :
    (Scalar.compareTotal (duals.getD k 0) (duals.getD i 0)).isLE = true :=
  Std.TransCmp.isLE_trans hjk hij

theorem isLE_total_dual (i j : ℕ) :
    ((Scalar.compareTotal (duals.getD j 0) (duals.getD i 0)).isLE ||
      (Scalar.compareTotal (duals.getD i 0) (duals.getD j 0)).isLE) = true := by
  have hswap : Scalar.compareTotal (duals.getD i 0) (duals.getD j 0) =
      (Scalar.compareTotal (duals.getD j 0) (duals.getD i 0)).swap := Std.OrientedCmp.eq_swap
  rw [hswap]
  cases Scalar.compareTotal (duals.getD j 0) (duals.getD i 0) <;> rfl

theorem byFallingDual_precedes (hnodup : platforms.Nodup) :
    (byFallingDual duals platforms).Pairwise (Precedes duals platforms) := by
  have hperm : (byFallingDual duals platforms).Perm platforms := List.mergeSort_perm _ _
  have hsorted : (byFallingDual duals platforms).Pairwise fun i j =>
      (Scalar.compareTotal (duals.getD j 0) (duals.getD i 0)).isLE = true :=
    List.pairwise_mergeSort isLE_trans_dual isLE_total_dual platforms
  rw [List.pairwise_iff_forall_sublist] at hsorted ⊢
  intro i j hij
  refine ⟨hsorted hij, fun htie => ?_⟩
  have hidx := idxOf_lt_of_sublist (hperm.nodup_iff.mpr hnodup) hij
  have hi := hperm.mem_iff.mp (hij.subset List.mem_cons_self)
  have hj := hperm.mem_iff.mp (hij.subset (List.mem_cons_of_mem i List.mem_cons_self))
  refine (sublist_or_sublist hi hj ?_).resolve_right fun hji => ?_
  · rintro rfl
    exact lt_irrefl _ hidx
  · -- a stable sort would have kept `j` before `i`
    have hkept : [j, i].Sublist (byFallingDual duals platforms) :=
      List.pair_sublist_mergeSort isLE_trans_dual isLE_total_dual (by rw [htie]; rfl) hji
    exact absurd (idxOf_lt_of_sublist (hperm.nodup_iff.mpr hnodup) hkept) (asymm hidx)

theorem byFallingDual_eq (hnodup : platforms.Nodup) (hperm : order.Perm platforms)
    (horder : order.Pairwise (Precedes duals platforms)) :
    byFallingDual duals platforms = order := by
  have hperm' : (byFallingDual duals platforms).Perm order :=
    (List.mergeSort_perm _ _).trans hperm.symm
  refine hperm'.eq_of_pairwise (fun i j _ _ hij hji => ?_) (byFallingDual_precedes hnodup) horder
  have htie := Std.OrientedCmp.isLE_antisymm hji.1 hij.1
  have hlt := idxOf_lt_of_sublist hnodup (hij.2 htie)
  have hgt := idxOf_lt_of_sublist hnodup (hji.2 (Std.OrientedCmp.eq_symm htie))
  exact absurd hlt (asymm hgt)

/-- Two orders of the same platforms lead to one order by falling dual value, if they agree on those
that are worth the same. -/
theorem byFallingDual_congr (hnodup : platforms.Nodup) (hperm : platforms'.Perm platforms)
    (hties : ∀ i ∈ platforms, ∀ j ∈ platforms,
      Scalar.compareTotal (duals.getD i 0) (duals.getD j 0) = .eq →
        ([i, j].Sublist platforms ↔ [i, j].Sublist platforms')) :
    byFallingDual duals platforms = byFallingDual duals platforms' := by
  refine byFallingDual_eq hnodup ((List.mergeSort_perm _ _).trans hperm) ?_
  refine (byFallingDual_precedes (hperm.nodup_iff.mpr hnodup)).imp fun {i j} h => ?_
  refine ⟨h.1, fun htie => ?_⟩
  have hbefore := h.2 htie
  have hi := hperm.subset (hbefore.subset List.mem_cons_self)
  have hj := hperm.subset (hbefore.subset (List.mem_cons_of_mem i List.mem_cons_self))
  exact (hties i hi j hj htie).mpr hbefore

end Pricing

end OffshoreFlights
