import OffshoreFlights.Proofs.Problem.Sheets.Grammar

/-! The grammars of the two sheets, and the lines that the errors of their readers name. A platform
file has a head of three tokens and three tokens for each platform. A demand file has two tokens for
each platform. -/

namespace OffshoreFlights

open Text Sheet

namespace DemandSheet

/-- The places of the record of a platform. -/
def recordPlaces (id : ℕ) : List Place := [.index id, .field .demand]

/-- The places of a demand file. -/
def places (count : ℕ) : List Place := (List.range' 1 count).flatMap recordPlaces

/-- Tokens hold the demands of `count` platforms, each after the index of its platform. -/
structure Written (count : ℕ) (texts : List (List Char)) (demands : List ℕ) : Prop where
  length : demands.length = count
  record (i demand : ℕ) (h : demands[i]? = some demand) :
    texts[2 * i]?.bind (Numeral.natural? countBound) = some (i + 1) ∧
      texts[2 * i + 1]?.bind (Numeral.natural? passengerBound) = some demand

/-- Tokens are refused for the first of them that does not fit its place. -/
inductive Refused (count : ℕ) (texts : List (List Char)) : ℕ → Error Float → Prop where
  | record {k : ℕ} {flaw : TokenFlaw} (line : ℕ)
      (h : firstFlaw? (places count) texts = some (k, flaw)) :
      Refused count texts k (.badToken line flaw)

theorem takes_demand (id : ℕ) : Takes (demand id) (recordPlaces id) fun texts value =>
    texts[0]?.bind (Numeral.natural? countBound) = some id ∧
      texts[1]?.bind (Numeral.natural? passengerBound) = some value := by
  have hrecord := (Takes.index id).bind fun _ => Takes.field .demand fun _ => rfl
  refine hrecord.of_iff fun texts value => ?_
  simp

theorem takes_sheet (count : ℕ) : Takes (sheet count) (places count) (Written count) := by
  refine (Takes.records takes_demand (fun _ => rfl) count 1).of_iff fun texts demands => ?_
  simp only [List.getElem?_drop, Nat.add_zero, Nat.add_comm 1]
  constructor
  · rintro ⟨hlength, hrecord⟩
    exact ⟨hlength, hrecord⟩
  · rintro ⟨hlength, hrecord⟩
    exact ⟨hlength, hrecord⟩

theorem governed {count : ℕ} (hcount : count < roomBound) :
    Governed (ofBytes count) (Written count) (2 * ·.length) (Refused count) where
  accepted {bytes value} h := by
    obtain ⟨r', hrun, -⟩ := (takes_sheet count).takes (.start bytes) value
      (by rwa [TokenReader.texts_start])
    rw [ofBytes, if_neg (Nat.not_le.mpr hcount), run'_ok hrun]
  refused {bytes k e} h := by
    cases h with
    | record line h =>
      rw [← TokenReader.texts_start] at h
      rw [ofBytes, if_neg (Nat.not_le.mpr hcount), run'_error ((takes_sheet count).fails _ k _ h),
        told]
  decided texts := by
    cases hflaw : firstFlaw? (places count) texts with
    | none => exact .inl (((takes_sheet count).meant texts).mp hflaw)
    | some found => exact .inr ⟨found.1, _, .record 0 hflaw⟩
  written_congr {texts texts' demands} h htexts := by
    refine ⟨h.length, fun i demand hi => ?_⟩
    have hlt : i < demands.length := (List.getElem?_eq_some_iff.mp hi).1
    rw [getElem?_congr htexts (by omega), getElem?_congr htexts (by omega)]
    exact h.record i demand hi
  refused_congr h htexts := by
    cases h with
    | record line h => exact .record line (firstFlaw?_congr htexts h)
  relined h line := by
    cases h with
    | record _ h => exact .record line h
  missing h := by
    cases h with
    | record _ h => exact firstFlaw?_missing h
  legible h := by cases h

end DemandSheet

namespace PlatformSheet

/-- The places of the head of a platform file. -/
def headPlaces : List Place := [.field .platformCount, .field .rangeLimit, .field .capacity]

/-- The places of the record of a platform. -/
def recordPlaces (id : ℕ) : List Place := [.index id, .field .xCoordinate, .field .yCoordinate]

/-- The places of the file of `count` platforms. -/
def places (count : ℕ) : List Place := headPlaces ++ (List.range' 1 count).flatMap recordPlaces

/-- Tokens start with the numbers of a head. -/
structure Head (texts : List (List Char)) (count : ℕ) (range : Float) (capacity : ℕ) : Prop where
  count : texts[0]?.bind (Numeral.natural? countBound) = some count
  range : texts[1]?.bind Numeral.float? = some range
  capacity : texts[2]?.bind (Numeral.natural? passengerBound) = some capacity

/-- The numbers of a head meet the rules. -/
structure Sound (count : ℕ) (range : Float) (capacity : ℕ) : Prop where
  some_platform : 1 ≤ count
  few_platforms : count ≤ 63
  finite_range : range.isFinite = true
  some_range : 0 < range
  some_seat : 1 ≤ capacity

/-- The numbers of a head break a rule, and meet those before it. With the greatest count there is
no number for the locations, which are the platforms and the depot. -/
inductive Broken : ℕ → Float → ℕ → Error Float → Prop where
  | noPlatforms {range : Float} {capacity : ℕ} : Broken 0 range capacity .noPlatforms
  | tooGreat {count : ℕ} {range : Float} {capacity : ℕ} (h : countBound ≤ count + 1) :
      Broken count range capacity (.fault .tooGreat)
  | tooMany {count : ℕ} {range : Float} {capacity : ℕ} (h : 63 < count)
      (hcount : count + 1 < countBound) :
      Broken count range capacity (.tooManyPlatforms count 63)
  | badRange {count : ℕ} {range : Float} {capacity : ℕ} (hcount : 1 ≤ count ∧ count ≤ 63)
      (h : ¬(range.isFinite = true ∧ 0 < range)) : Broken count range capacity (.badRange range)
  | noSeats {count : ℕ} {range : Float} (hcount : 1 ≤ count ∧ count ≤ 63)
      (hrange : range.isFinite = true ∧ 0 < range) : Broken count range 0 .noSeats

/-- The tokens from the `k`-th on are the record of a platform with a given index. -/
def Recorded (texts : List (List Char)) (k id : ℕ) (p : Platform Float) : Prop :=
  ∃ x y, texts[k]?.bind (Numeral.natural? countBound) = some id ∧
    texts[k + 1]?.bind Numeral.float? = some x ∧ texts[k + 2]?.bind Numeral.float? = some y ∧
    p = ⟨id, x, y, 0⟩

/-- Tokens hold a sound head, then a record for each platform in the order of the indices. -/
structure Written (texts : List (List Char)) (sheet : PlatformSheet) : Prop where
  head : Head texts (sheet.platforms.length - 1) sheet.range sheet.capacity
  sound : Sound (sheet.platforms.length - 1) sheet.range sheet.capacity
  depot : sheet.platforms[0]? = some .depot
  record (i : ℕ) (p : Platform Float) (hi : 1 ≤ i) (h : sheet.platforms[i]? = some p) :
    Recorded texts (3 * i) i p

/-- Tokens are refused for the first of the head that does not fit its place, then for the first
rule on the head that is broken, then for the first of the records that does not fit its place. -/
inductive Refused (texts : List (List Char)) : ℕ → Error Float → Prop where
  | head {k : ℕ} {flaw : TokenFlaw} (line : ℕ) (h : firstFlaw? headPlaces texts = some (k, flaw)) :
      Refused texts k (.badToken line flaw)
  | rule {count capacity : ℕ} {range : Float} {e : Error Float}
      (hhead : Head texts count range capacity) (h : Broken count range capacity e) :
      Refused texts 2 e
  | record {count capacity k : ℕ} {range : Float} {flaw : TokenFlaw} (line : ℕ)
      (hhead : Head texts count range capacity) (hsound : Sound count range capacity)
      (h : firstFlaw? (places count) texts = some (k, flaw)) :
      Refused texts k (.badToken line flaw)

/-- The reading of the head. -/
def head : Reading Float (ℕ × Float × ℕ) := do
  let count ← field .platformCount (Numeral.natural? countBound)
  let range ← field .rangeLimit Numeral.float?
  let capacity ← field .capacity (Numeral.natural? passengerBound)
  return (count, range, capacity)

/-- The reading of the records, after a head. -/
def body (count : ℕ) (range : Float) (capacity : ℕ) : Reading Float PlatformSheet := do
  let platforms ← records platform count 1
  return ⟨.depot :: platforms, range, capacity⟩

theorem sheet_eq : sheet = head >>= fun (count, range, capacity) =>
    match headFlaw? count range capacity with
    | some flaw => throw flaw
    | none => body count range capacity := by
  simp only [head, bind_assoc, pure_bind]
  unfold sheet
  refine bind_congr fun count => bind_congr fun range => bind_congr fun capacity => ?_
  cases headFlaw? count range capacity <;> rfl

theorem takes_head : Takes head headPlaces fun texts found =>
    Head texts found.1 found.2.1 found.2.2 := by
  have hcapacity (count : ℕ) (range : Float) :=
    (Takes.field .capacity fun _ => rfl).bind fun capacity =>
      Takes.pure (count, range, capacity)
  have hrange (count : ℕ) :=
    (Takes.field .rangeLimit fun _ => rfl).bind (hcapacity count)
  refine ((Takes.field .platformCount fun _ => rfl).bind hrange).of_iff
    fun texts found => ?_
  constructor
  · rintro ⟨count, hcount, range, hrange, capacity, hcapacity, rfl⟩
    simp only [List.getElem?_drop] at hrange hcapacity
    exact ⟨hcount, hrange, hcapacity⟩
  · rintro ⟨hcount, hrange, hcapacity⟩
    simp only [List.getElem?_drop]
    exact ⟨_, hcount, _, hrange, _, hcapacity, rfl⟩

theorem recorded_drop {texts : List (List Char)} {n k id : ℕ} {p : Platform Float} :
    Recorded (texts.drop n) k id p ↔ Recorded texts (n + k) id p := by
  simp only [Recorded, List.getElem?_drop, Nat.add_assoc]

theorem takes_platform (id : ℕ) :
    Takes (platform id) (recordPlaces id) fun texts p => Recorded texts 0 id p := by
  have hy (x : Float) :=
    (Takes.field .yCoordinate fun _ => rfl).bind fun y =>
      Takes.pure (⟨id, x, y, 0⟩ : Platform Float)
  have hx := (Takes.field .xCoordinate fun _ => rfl).bind hy
  refine ((Takes.index id).bind fun _ => hx).of_iff fun texts p => ?_
  simp only [List.getElem?_drop]
  constructor
  · rintro ⟨-, hid, x, hx, y, hy, rfl⟩
    exact ⟨x, y, hid, hx, hy, rfl⟩
  · rintro ⟨x, y, hid, hx, hy, rfl⟩
    exact ⟨(), hid, x, hx, y, hy, rfl⟩

theorem count_fits {count : ℕ} (h : 1 ≤ count ∧ count ≤ 63) :
    count ≠ 0 ∧ ¬countBound ≤ count + 1 ∧ ¬LocationSet.capacity < count + 1 := by
  unfold countBound LocationSet.capacity
  omega

theorem headFlaw?_of_sound {count capacity : ℕ} {range : Float}
    (h : Sound count range capacity) : headFlaw? count range capacity = none := by
  obtain ⟨hsome, hgreat, hmany⟩ := count_fits ⟨h.some_platform, h.few_platforms⟩
  have hrange : ¬(range.isFinite = false ∨ ¬0 < range) := by simp [h.finite_range, h.some_range]
  have hseat : capacity ≠ 0 := Nat.one_le_iff_ne_zero.mp h.some_seat
  simp only [headFlaw?, hsome, hgreat, hmany, hrange, hseat, if_false]

theorem headFlaw?_of_broken {count capacity : ℕ} {range : Float} {e : Error Float}
    (h : Broken count range capacity e) : headFlaw? count range capacity = some e := by
  cases h with
  | noPlatforms => rfl
  | tooGreat h =>
    have hsome : count ≠ 0 := by unfold countBound at h; omega
    rw [headFlaw?, if_neg hsome, if_pos h]
  | tooMany h hcount =>
    have hmany : LocationSet.capacity < count + 1 := by unfold LocationSet.capacity; omega
    rw [headFlaw?, if_neg (by omega), if_neg (by omega), if_pos hmany]
    rfl
  | badRange hcount h =>
    obtain ⟨hsome, hgreat, hmany⟩ := count_fits hcount
    have hrange : range.isFinite = false ∨ ¬0 < range := by
      rwa [not_and_or, Bool.not_eq_true] at h
    rw [headFlaw?, if_neg hsome, if_neg hgreat, if_neg hmany, if_pos hrange]
  | noSeats hcount h =>
    obtain ⟨hsome, hgreat, hmany⟩ := count_fits hcount
    have hrange : ¬(range.isFinite = false ∨ ¬0 < range) := by simp [h]
    rw [headFlaw?, if_neg hsome, if_neg hgreat, if_neg hmany, if_neg hrange, if_pos rfl]

theorem sound_or_broken (count : ℕ) (range : Float) (capacity : ℕ) :
    Sound count range capacity ∨ ∃ e, Broken count range capacity e := by
  by_cases hsome : count = 0
  · subst hsome
    exact .inr ⟨_, .noPlatforms⟩
  by_cases hfew : count ≤ 63
  · by_cases hrange : range.isFinite = true ∧ 0 < range
    · by_cases hseat : capacity = 0
      · subst hseat
        exact .inr ⟨_, .noSeats (by omega) hrange⟩
      · exact .inl ⟨by omega, hfew, hrange.1, hrange.2, by omega⟩
    · exact .inr ⟨_, .badRange (by omega) hrange⟩
  · by_cases hgreat : countBound ≤ count + 1
    · exact .inr ⟨_, .tooGreat hgreat⟩
    · exact .inr ⟨_, .tooMany (by omega) (by omega)⟩

/-- Tokens after a head hold the records of a sheet with that head. -/
def Body (count : ℕ) (range : Float) (capacity : ℕ) (texts : List (List Char))
    (sheet : PlatformSheet) : Prop :=
  ∃ platforms, (platforms.length = count ∧
    ∀ j p, platforms[j]? = some p → Recorded texts (3 * j) (j + 1) p) ∧
    sheet = ⟨.depot :: platforms, range, capacity⟩

theorem takes_body (count : ℕ) (range : Float) (capacity : ℕ) :
    Takes (body count range capacity) ((List.range' 1 count).flatMap recordPlaces)
      (Body count range capacity) := by
  have hrecords := Takes.records takes_platform (fun _ => rfl) count 1
  have hbody := hrecords.bind fun platforms =>
    Takes.pure (⟨.depot :: platforms, range, capacity⟩ : PlatformSheet)
  rw [List.append_nil] at hbody
  refine hbody.of_iff fun texts sheet => ?_
  simp only [recorded_drop, Nat.add_zero, Nat.add_comm 1]
  rfl

theorem Head.unique {texts : List (List Char)} {count count' capacity capacity' : ℕ}
    {range range' : Float} (h : Head texts count range capacity)
    (h' : Head texts count' range' capacity') :
    count = count' ∧ range = range' ∧ capacity = capacity' :=
  ⟨Option.some.inj (h.count.symm.trans h'.count), Option.some.inj (h.range.symm.trans h'.range),
    Option.some.inj (h.capacity.symm.trans h'.capacity)⟩

theorem written_iff {texts : List (List Char)} {count capacity : ℕ} {range : Float}
    (hhead : Head texts count range capacity) (hsound : Sound count range capacity)
    (sheet : PlatformSheet) :
    Written texts sheet ↔ Body count range capacity (texts.drop 3) sheet := by
  constructor
  · rintro ⟨hhead', -, hdepot, hrecord⟩
    obtain ⟨platforms, range', capacity'⟩ := sheet
    obtain ⟨rfl, rfl, rfl⟩ := hhead.unique hhead'
    cases platforms with
    | nil => simp at hdepot
    | cons depot platforms =>
      cases hdepot
      refine ⟨platforms, ⟨by simp, fun j p hj => ?_⟩, rfl⟩
      rw [recorded_drop, show 3 + 3 * j = 3 * (j + 1) by omega]
      exact hrecord (j + 1) p (by omega) (by simpa using hj)
  · rintro ⟨platforms, ⟨rfl, hrecord⟩, rfl⟩
    refine ⟨by simpa using hhead, by simpa using hsound, rfl, fun i p hi hp => ?_⟩
    obtain ⟨j, rfl⟩ := Nat.exists_eq_add_of_le' hi
    rw [show 3 * (j + 1) = 3 + 3 * j by omega, ← recorded_drop]
    exact hrecord j p (by simpa using hp)

theorem Head.congr {texts texts' : List (List Char)} {count capacity n : ℕ} {range : Float}
    (h : Head texts count range capacity) (htexts : texts'.take n = texts.take n) (hn : 3 ≤ n) :
    Head texts' count range capacity where
  count := by rw [getElem?_congr htexts (by omega), h.count]
  range := by rw [getElem?_congr htexts (by omega), h.range]
  capacity := by rw [getElem?_congr htexts (by omega), h.capacity]

theorem Recorded.congr {texts texts' : List (List Char)} {k id n : ℕ} {p : Platform Float}
    (h : Recorded texts k id p) (htexts : texts'.take n = texts.take n) (hn : k + 2 < n) :
    Recorded texts' k id p := by
  rw [Recorded, getElem?_congr htexts (by omega), getElem?_congr htexts (by omega),
    getElem?_congr htexts hn]
  exact h

/-- After a head, a flaw of a file is a flaw of its records. -/
theorem firstFlaw?_places {texts : List (List Char)} {count capacity : ℕ} {range : Float}
    (hhead : Head texts count range capacity) :
    firstFlaw? (places count) texts =
      (firstFlaw? ((List.range' 1 count).flatMap recordPlaces) (texts.drop 3)).map
        fun (k, flaw) => (3 + k, flaw) := by
  have hnone : firstFlaw? headPlaces texts = none :=
    (takes_head.meant texts).mpr ⟨(count, range, capacity), hhead⟩
  rw [places, firstFlaw?_append, hnone, Option.none_or]
  rfl

/-- A reader past a head checks the rules on it, and then reads the records. -/
theorem sheet_run {bytes : List UInt8} {count capacity : ℕ} {range : Float}
    (hhead : Head (tokens bytes) count range capacity) :
    ∃ r', r'.prospect = (TokenReader.start bytes).prospect.drop 3 ∧
      sheet.run (.start bytes) = match headFlaw? count range capacity with
        | some flaw => .error flaw
        | none => (body count range capacity).run r' := by
  rw [← TokenReader.texts_start] at hhead
  obtain ⟨r', hrun, hr'⟩ := takes_head.takes (.start bytes) (count, range, capacity) hhead
  refine ⟨r', hr', ?_⟩
  rw [sheet_eq, StateT.run_bind, hrun]
  simp only [bind, Except.bind]
  cases headFlaw? count range capacity <;> rfl

theorem governed : Governed ofBytes Written (3 * ·.platforms.length) Refused where
  accepted {bytes value} h := by
    obtain ⟨r', hr', hrun⟩ := sheet_run h.head
    rw [headFlaw?_of_sound h.sound] at hrun
    have hbody := (written_iff h.head h.sound value).mp h
    rw [← TokenReader.texts_start, ← Prospect.texts_drop, ← hr'] at hbody
    obtain ⟨_, hvalue, -⟩ := (takes_body _ _ _).takes r' value hbody
    exact run'_ok (hrun.trans hvalue)
  refused {bytes k e} h := by
    cases h with
    | head line h =>
      rw [← TokenReader.texts_start] at h
      refine run'_error ?_
      rw [sheet_eq, StateT.run_bind, takes_head.fails _ k _ h]
      rfl
    | rule hhead h =>
      obtain ⟨r', -, hrun⟩ := sheet_run hhead
      rw [headFlaw?_of_broken h] at hrun
      rw [ofBytes, run'_error hrun]
      cases h <;> rfl
    | @record _ _ _ _ flaw line hhead hsound h =>
      obtain ⟨r', hr', hrun⟩ := sheet_run hhead
      rw [headFlaw?_of_sound hsound] at hrun
      rw [firstFlaw?_places hhead] at h
      obtain ⟨⟨j, _⟩, hflaw, heq⟩ := Option.map_eq_some_iff.mp h
      cases heq
      rw [← TokenReader.texts_start, ← Prospect.texts_drop, ← hr'] at hflaw
      rw [ofBytes, run'_error (hrun.trans ((takes_body _ _ _).fails r' j flaw hflaw)), hr',
        Prospect.report_drop, told]
  decided texts := by
    cases hflaw : firstFlaw? headPlaces texts with
    | some found => exact .inr ⟨found.1, _, .head 0 hflaw⟩
    | none =>
      obtain ⟨⟨count, range, capacity⟩, hhead⟩ := (takes_head.meant texts).mp hflaw
      obtain hsound | ⟨e, he⟩ := sound_or_broken count range capacity
      · cases hbody : firstFlaw? ((List.range' 1 count).flatMap recordPlaces) (texts.drop 3) with
        | none =>
          obtain ⟨sheet, hsheet⟩ := ((takes_body count range capacity).meant _).mp hbody
          exact .inl ⟨sheet, (written_iff hhead hsound sheet).mpr hsheet⟩
        | some found =>
          have hflaw : firstFlaw? (places count) texts = some (3 + found.1, found.2) := by
            rw [firstFlaw?_places hhead, hbody, Option.map_some]
          exact .inr ⟨_, _, .record 0 hhead hsound hflaw⟩
      · exact .inr ⟨2, e, .rule hhead he⟩
  written_congr {texts texts' sheet} h htexts := by
    have hlength := h.sound.some_platform
    refine ⟨h.head.congr htexts (by omega), h.sound, h.depot, fun i p hi hp => ?_⟩
    have hlt : i < sheet.platforms.length := (List.getElem?_eq_some_iff.mp hp).1
    exact (h.record i p hi hp).congr htexts (by omega)
  refused_congr {texts texts' k e} h htexts := by
    cases h with
    | head line h => exact .head line (firstFlaw?_congr htexts h)
    | rule hhead h => exact .rule (hhead.congr htexts (Nat.le_refl 3)) h
    | record line hhead hsound h =>
      have hk : 3 ≤ k := by
        rw [firstFlaw?_places hhead] at h
        obtain ⟨found, -, heq⟩ := Option.map_eq_some_iff.mp h
        cases heq
        omega
      exact .record line (hhead.congr htexts (by omega)) hsound (firstFlaw?_congr htexts h)
  relined h line := by
    cases h with
    | head _ h => exact .head line h
    | rule hhead h => cases h
    | record _ hhead hsound h => exact .record line hhead hsound h
  missing h := by
    cases h with
    | head _ h => exact firstFlaw?_missing h
    | rule hhead h => cases h
    | record _ _ _ h => exact firstFlaw?_missing h
  legible h := by
    cases h with
    | rule hhead h => cases h

theorem Head.count_lt {texts : List (List Char)} {count capacity : ℕ} {range : Float}
    (h : Head texts count range capacity) : count < countBound := by
  obtain ⟨text, -, hcount⟩ := Option.bind_eq_some_iff.mp h.count
  unfold Numeral.natural? at hcount
  rw [Option.ite_none_right_eq_some] at hcount
  exact Option.some.inj hcount.2 ▸ hcount.1.2.2

/-- The one fault of the reader is that with the greatest count there is no number for the
locations. -/
theorem ofBytes_eq_fault_iff {bytes : List UInt8} {fault : Fault} :
    ofBytes bytes = .error (.fault fault) ↔ fault = .tooGreat ∧
      ∃ range capacity, Head (tokens bytes) (countBound - 1) range capacity := by
  constructor
  · intro h
    obtain ⟨k, hrefused⟩ := governed.exact.rejects bytes _ h (by simp)
    cases hrefused with
    | @rule count capacity range _ hhead hbroken =>
      cases hbroken with
      | tooGreat hgreat =>
        have hcount : count = countBound - 1 := by
          have := hhead.count_lt
          omega
        exact ⟨rfl, range, capacity, hcount ▸ hhead⟩
  · rintro ⟨rfl, range, capacity, hhead⟩
    exact governed.refused (.rule hhead (.tooGreat (by decide)))

/-- The places of a file whose tokens say how many platforms it has. -/
def placesIn (texts : List (List Char)) : List Place :=
  places ((texts[0]?.bind (Numeral.natural? countBound)).getD 0)

theorem Refused.firstFlaw?_eq {texts : List (List Char)} {k line : ℕ} {flaw : TokenFlaw}
    (h : Refused texts k (.badToken line flaw)) :
    firstFlaw? (placesIn texts) texts = some (k, flaw) := by
  cases h with
  | head _ h => rw [placesIn, places, firstFlaw?_append, h, Option.some_or]
  | rule hhead h => cases h
  | record _ hhead _ h => rwa [placesIn, hhead.count, Option.getD_some]

end PlatformSheet

namespace Sheet

/-- Without room for the demands, their reader fails before it looks at the text. -/
theorem not_exact_of_roomBound_le {count : ℕ} (hcount : roomBound ≤ count) :
    ¬Exact (DemandSheet.ofBytes count) (DemandSheet.Written count) (2 * ·.length)
      (DemandSheet.Refused count) := by
  intro h
  have hread : DemandSheet.ofBytes count [] = .error (.fault .tooGreat) := by
    rw [DemandSheet.ofBytes, if_pos hcount]
  obtain ⟨k, hk⟩ := h.rejects [] _ hread (by simp)
  cases hk

/-- The reader of platform files keeps to its grammar, and that of demand files does so exactly if
there is room for the demands. The former has one fault, that of the greatest count, to which the
depot cannot be added. -/
theorem readers_exact (count : ℕ) :
    (Exact PlatformSheet.ofBytes PlatformSheet.Written (3 * ·.platforms.length)
        PlatformSheet.Refused ∧
      ∀ bytes fault, PlatformSheet.ofBytes bytes = .error (.fault fault) ↔
        fault = .tooGreat ∧
          ∃ range capacity, PlatformSheet.Head (tokens bytes) (countBound - 1) range capacity) ∧
      (Exact (DemandSheet.ofBytes count) (DemandSheet.Written count) (2 * ·.length)
        (DemandSheet.Refused count) ↔ count < roomBound) := by
  refine ⟨⟨PlatformSheet.governed.exact, fun _ _ => PlatformSheet.ofBytes_eq_fault_iff⟩,
    fun hexact => ?_, fun hcount => ?_⟩
  · by_contra hcount
    exact not_exact_of_roomBound_le (Nat.not_lt.mp hcount) hexact
  · exact (DemandSheet.governed hcount).exact

theorem readers_exact_split : 2 < roomBound ∧
    DemandSheet.ofBytes 2 "1 # one\n\n4 2\n0".toUTF8.data.toList = .ok [4, 0] := by
  have hroom : 2 < roomBound := by decide
  refine ⟨hroom, (((readers_exact 2).2.mpr hroom).accepts _ [4, 0]).mpr ⟨rfl, ?_⟩⟩
  intro i demand hi
  match i, hi with
  | 0, hi => cases hi; decide
  | 1, hi => cases hi; decide

theorem demands_beyond_room : ¬∀ count, Exact (DemandSheet.ofBytes count)
    (DemandSheet.Written count) (2 * ·.length) (DemandSheet.Refused count) :=
  fun h => not_exact_of_roomBound_le (Nat.le_refl roomBound) (h roomBound)

/-- The errors of both readers about tokens name the right lines. -/
theorem rightLine_of_badToken (bytes : List UInt8) (line : ℕ) (flaw : TokenFlaw) :
    (PlatformSheet.ofBytes bytes = .error (.badToken line flaw) →
        RightLine (PlatformSheet.placesIn (tokens bytes)) bytes line flaw) ∧
      ∀ count, DemandSheet.ofBytes count bytes = .error (.badToken line flaw) →
        RightLine (DemandSheet.places count) bytes line flaw := by
  refine ⟨PlatformSheet.governed.rightLine _ PlatformSheet.Refused.firstFlaw?_eq,
    fun count hread => ?_⟩
  by_cases hcount : count < roomBound
  · refine (DemandSheet.governed hcount).rightLine (fun _ => DemandSheet.places count)
      (fun h => ?_) hread
    cases h with
    | record _ h => exact h
  · rw [DemandSheet.ofBytes, if_pos (Nat.not_lt.mp hcount)] at hread
    cases hread

theorem rightLine_of_badToken_split :
    PlatformSheet.ofBytes "2 200 # km\n".toUTF8.data.toList =
        .error (.badToken 2 (.missing .capacity)) ∧
      RightLine (PlatformSheet.placesIn (tokens "2 200 # km\n".toUTF8.data.toList))
        "2 200 # km\n".toUTF8.data.toList 2 (.missing .capacity) ∧
      DemandSheet.ofBytes 2 "1 # one\n\n4 2\nx".toUTF8.data.toList =
        .error (.badToken 4 (.invalid .demand "x")) ∧
      RightLine (DemandSheet.places 2) "1 # one\n\n4 2\nx".toUTF8.data.toList 4
        (.invalid .demand "x") := by
  have hplatforms : PlatformSheet.ofBytes "2 200 # km\n".toUTF8.data.toList =
      .error (.badToken 2 (.missing .capacity)) := rfl
  have hdemands : DemandSheet.ofBytes 2 "1 # one\n\n4 2\nx".toUTF8.data.toList =
      .error (.badToken 4 (.invalid .demand "x")) := by decide +kernel
  exact ⟨hplatforms, (rightLine_of_badToken _ _ _).1 hplatforms, hdemands,
    (rightLine_of_badToken _ _ _).2 2 hdemands⟩

end Sheet

end OffshoreFlights
