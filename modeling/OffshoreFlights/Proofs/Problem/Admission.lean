import OffshoreFlights.Proofs.Problem.Rules
import OffshoreFlights.Proofs.Problem.Sheets

/-! Which problems are admitted, from parts and from files. The head of a platform file has met the
rules on numbers before the problem is checked, its records are in their order, and straight-line
distances are the same in both directions. So the problem in two files that were read can only be
refused for a distance that is too great, or is no number. -/

namespace OffshoreFlights

open Sheet

namespace PlatformSheet

/-- The locations of a file, with the demands of its platforms. -/
def locations (file : PlatformSheet) (demands : List ℕ) : List (Platform Float) :=
  file.platforms.map fun p => { p with demand := (0 :: demands).getD p.id 0 }

/-- `locations` with each demand looked up by the id of its platform. -/
def locationsInPlace (file : PlatformSheet) (demands : List ℕ) :
    Except Fault (List (Platform Float)) :=
  file.platforms.mapM fun p => do
    let demand ← if p.id = 0 then pure 0 else elementAt demands (p.id - 1)
    return { p with demand := demand }

/-- What is known of a file and of its demands when both are read. -/
structure Complete (file : PlatformSheet) (demands : List ℕ) : Prop where
  sound : Sound (file.platforms.length - 1) file.range file.capacity
  in_order (i : ℕ) (p : Platform Float) (h : file.platforms[i]? = some p) : p.id = i
  length : file.platforms.length = (0 :: demands).length

theorem complete_of_ofBytes {platformFile demandFile : List UInt8} {file : PlatformSheet}
    {demands : List ℕ} (hfile : ofBytes platformFile = .ok file)
    (hdemands : DemandSheet.ofBytes (file.platforms.length - 1) demandFile = .ok demands) :
    file.Complete demands := by
  have hwritten := (governed.exact.accepts _ _).mp hfile
  have hsome := hwritten.sound.some_platform
  have hroom : file.platforms.length - 1 < roomBound :=
    Nat.lt_of_le_of_lt hwritten.sound.few_platforms (by decide)
  have hlength := (((DemandSheet.governed hroom).exact.accepts _ _).mp hdemands).length
  refine ⟨hwritten.sound, fun i p hp => ?_, ?_⟩
  · obtain rfl | hi := Nat.eq_zero_or_pos i
    · obtain rfl := Option.some.inj (hwritten.depot.symm.trans hp)
      rfl
    · obtain ⟨x, y, -, -, -, rfl⟩ := hwritten.record i p hi hp
      rfl
  · rw [List.length_cons, hlength]
    omega

namespace Complete

variable {file : PlatformSheet} {demands : List ℕ} (h : file.Complete demands)
include h

theorem locationsInPlace_eq :
    file.locationsInPlace demands = .ok (file.locations demands) := by
  refine mapM_of_ok fun p hp => ?_
  obtain ⟨i, hi, rfl⟩ := List.mem_iff_getElem.mp hp
  have hid := h.in_order i _ (List.getElem?_eq_getElem hi)
  have hlength := h.length
  rw [hid]
  cases i with
  | zero => rfl
  | succ i =>
    have hdemand : i < demands.length := by
      rw [List.length_cons] at hlength
      omega
    simp [elementAt, hdemand]

/-- The demand of the depot comes first, and those of the platforms follow as they were read. -/
theorem locations_demands : (file.locations demands).map Platform.demand = 0 :: demands := by
  refine List.ext_getElem (by simp [locations, h.length]) fun i hi hi' => ?_
  have hplace : i < file.platforms.length := by rwa [h.length]
  have hid := h.in_order i _ (List.getElem?_eq_getElem hplace)
  simp only [locations, List.getElem_map, hid, List.getD_eq_getElem _ _ hi']

theorem locations_in_order (i : ℕ) (p : Platform Float)
    (hp : (file.locations demands)[i]? = some p) : p.id = i := by
  rw [locations, List.getElem?_map] at hp
  obtain ⟨q, hq, rfl⟩ := Option.map_eq_some_iff.mp hp
  exact h.in_order i q hq

open Problem in
/-- Of all rules, only those on single distances are left to check. -/
theorem flaw?_eq : let distances := DistanceTable.ofPlatforms (file.locations demands)
    flaw? (file.locations demands) distances file.capacity file.range =
      (badCell? distances).map fun (i, j) =>
        .badLayout (.badEntry i j (distances.distance i j)) := by
  intro distances
  have hlength : (file.locations demands).length = file.platforms.length := List.length_map _
  have hsome := h.sound.some_platform
  have hfew := h.sound.few_platforms
  have hseat := h.sound.some_seat
  have hmany : ¬LocationSet.capacity < (file.locations demands).length := by
    unfold LocationSet.capacity
    omega
  have hfinite : ¬file.range.isFinite = false := by rw [h.sound.finite_range]; decide
  have hrange : ¬file.range ≤ 0 := Scalar.Lengths.not_le_of_lt h.sound.some_range
  have hsize : ¬distances.size ≠ (file.locations demands).length := not_not.mpr rfl
  have hdepot : ((file.locations demands).head?.map Platform.demand).getD 0 = 0 := by
    rw [← List.head?_map, h.locations_demands]
    rfl
  have hplaces := misplaced?_eq_none_iff.mpr h.locations_in_order
  have hdiagonal : distances.zeroDiagonal = true := zeroDiagonal_ofPlatforms _
  have hsymmetric : distances.symmetricWithin symmetryTolerance = true :=
    symmetricWithin_ofPlatforms _
  rw [flaw?, if_neg (by omega), if_neg hmany, if_neg (by omega),
    if_neg (by exact not_or.mpr ⟨hfinite, hrange⟩), if_neg hsize, hplaces]
  dsimp only
  rw [if_neg (not_not.mpr hdepot), if_neg (by simp [hdiagonal, hsymmetric])]
  cases badCell? distances <;> rfl

end Complete

end PlatformSheet

namespace Problem

/-- `ofSheets` in place. -/
def ofSheetsInPlace (platformFile demandFile : List UInt8) :
    Except Fault (Except (Error Float) (Problem Float)) :=
  match PlatformSheet.ofBytes platformFile with
  | .error e => return .error e
  | .ok file => match DemandSheet.ofBytes (file.platforms.length - 1) demandFile with
    | .error e => return .error e
    | .ok demands => do
      let platforms ← file.locationsInPlace demands
      let distances ← DistanceTable.fillInPlace platforms
      ofDistancesInPlace platforms distances file.capacity file.range

section Files

variable {platformFile demandFile : List UInt8} {file : PlatformSheet} {demands : List ℕ}
  (hfile : PlatformSheet.ofBytes platformFile = .ok file)
  (hdemands : DemandSheet.ofBytes (file.platforms.length - 1) demandFile = .ok demands)
include hfile hdemands

theorem ofSheets_eq : ofSheets platformFile demandFile =
    ofPlatforms (file.locations demands) file.capacity file.range := by
  rw [ofSheets, hfile]
  simp only [bind, Except.bind, hdemands]
  rfl

theorem ofSheetsInPlace_eq :
    ofSheetsInPlace platformFile demandFile = .ok (ofSheets platformFile demandFile) := by
  have hcomplete := PlatformSheet.complete_of_ofBytes hfile hdemands
  rw [ofSheets_eq hfile hdemands, ofSheetsInPlace, hfile]
  simp only [hdemands, hcomplete.locationsInPlace_eq, bind, Except.bind,
    DistanceTable.fillInPlace_eq]
  exact ofDistancesInPlace_eq _ _ _ _

end Files

/-- Problems are admitted without a fault, and exactly if they keep to the rules. Where two files
are read, the problem in them can only be refused for its distances, and it is the problem that the
files describe. -/
theorem admission_exact :
    (∀ (platforms : List (Platform Float)) (distances : DistanceTable Float) (capacity : ℕ)
        (range : Float),
      ofDistancesInPlace platforms distances capacity range =
          .ok (ofDistances platforms distances capacity range) ∧
        ((∃ p, ofDistances platforms distances capacity range = .ok p) ↔
          Lawful platforms distances capacity range)) ∧
      ∀ (platformFile demandFile : List UInt8) (file : PlatformSheet) (demands : List ℕ),
        PlatformSheet.ofBytes platformFile = .ok file →
        DemandSheet.ofBytes (file.platforms.length - 1) demandFile = .ok demands →
          ofSheetsInPlace platformFile demandFile = .ok (ofSheets platformFile demandFile) ∧
          (∀ e, ofSheets platformFile demandFile = .error e →
            ∃ i j d, e = .badLayout (.badEntry i j d)) ∧
          ∀ p, ofSheets platformFile demandFile = .ok p →
            p.capacity = file.capacity ∧ p.range = file.range ∧ p.demands = 0 :: demands := by
  constructor
  · intro platforms distances capacity range
    exact ⟨ofDistancesInPlace_eq platforms distances capacity range,
      exists_ofDistances_iff.trans valid_iff_lawful⟩
  · intro platformFile demandFile file demands hfile hdemands
    have hcomplete := PlatformSheet.complete_of_ofBytes hfile hdemands
    refine ⟨ofSheetsInPlace_eq hfile hdemands, fun e he => ?_, fun p hp => ?_⟩
    · rw [ofSheets_eq hfile hdemands, ofPlatforms, ofDistances_eq_error_iff,
        hcomplete.flaw?_eq] at he
      obtain ⟨⟨i, j⟩, -, rfl⟩ := Option.map_eq_some_iff.mp he
      exact ⟨i, j, _, rfl⟩
    · rw [ofSheets_eq hfile hdemands, ofPlatforms] at hp
      obtain ⟨hplatforms, -, hcapacity, hrange⟩ := of_ofDistances hp
      refine ⟨hcapacity, hrange, ?_⟩
      rw [Problem.demands, hplatforms, hcomplete.locations_demands]

/-- A file of two platforms, 10.5 and 2.5 units away from the depot, with the file of their
demands. -/
theorem admission_exact_two :
    PlatformSheet.ofBytes "2 200 23\n1 10.5 0\n2 1.5 2\n".toUTF8.data.toList =
        .ok ⟨[.depot, ⟨1, 10.5, 0, 0⟩, ⟨2, 1.5, 2, 0⟩], 200, 23⟩ ∧
      DemandSheet.ofBytes 2 "1 4\n2 30\n".toUTF8.data.toList = .ok [4, 30] ∧
      ∃ p, ofSheetsInPlace "2 200 23\n1 10.5 0\n2 1.5 2\n".toUTF8.data.toList
          "1 4\n2 30\n".toUTF8.data.toList = .ok (.ok p) ∧
        p.capacity = 23 ∧ p.range = 200 ∧ p.demands = [0, 4, 30] := by
  have htokens : Text.tokens "2 200 23\n1 10.5 0\n2 1.5 2\n".toUTF8.data.toList =
      ["2".toList, "200".toList, "23".toList, "1".toList, "10.5".toList, "0".toList, "2".toList,
        "1.5".toList, "2".toList] := by
    decide +kernel
  have hfile : PlatformSheet.ofBytes "2 200 23\n1 10.5 0\n2 1.5 2\n".toUTF8.data.toList =
      .ok ⟨[.depot, ⟨1, 10.5, 0, 0⟩, ⟨2, 1.5, 2, 0⟩], 200, 23⟩ := by
    rw [PlatformSheet.governed.exact.accepts, htokens]
    refine ⟨⟨rfl, rfl, rfl⟩, ?_, rfl, fun i p hi hp => ?_⟩
    · exact ⟨by decide, by decide, by decide +kernel, by decide +kernel, by decide⟩
    · match i, hp with
      | 1, hp | 2, hp =>
        cases hp
        exact ⟨_, _, rfl, rfl, rfl, rfl⟩
      | i + 3, hp => cases hp
  have hdemands : DemandSheet.ofBytes 2 "1 4\n2 30\n".toUTF8.data.toList = .ok [4, 30] := by
    decide +kernel
  have hsound : flaw? [.depot, (⟨1, 10.5, 0, 4⟩ : Platform Float), ⟨2, 1.5, 2, 30⟩]
      (.ofPlatforms [.depot, ⟨1, 10.5, 0, 4⟩, ⟨2, 1.5, 2, 30⟩]) 23 200 = none := by decide +kernel
  obtain ⟨p, hp⟩ := exists_ofDistances_iff.mpr (flaw?_eq_none_iff.mp hsound)
  have hread := (ofSheets_eq hfile hdemands).trans hp
  obtain ⟨hplace, -, hparts⟩ := admission_exact.2 _ _ _ _ hfile hdemands
  exact ⟨hfile, hdemands, p, by rw [hplace, hread], hparts p hread⟩

end Problem

end OffshoreFlights
