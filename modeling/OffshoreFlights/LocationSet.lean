import OffshoreFlights.Fault

/-! Sets of location ids below 64, one bit each. Equal sets have equal bits, whatever operations
built them, so a set can serve as a key. -/

namespace OffshoreFlights

/-- A set of ids below 64: bit `i` tells whether `i` is a member. -/
structure LocationSet where
  bits : BitVec 64
deriving DecidableEq, Hashable

namespace LocationSet

/-- The number of ids that can be members. -/
def capacity : Nat := 64

/-- The set without members. -/
def empty : LocationSet := ⟨0#64⟩

/-- The set with `i` added; an id past the capacity leaves the set as it is. -/
def insert (s : LocationSet) (i : Nat) : LocationSet := ⟨s.bits ||| BitVec.twoPow 64 i⟩

/-- The set with `i` taken away. -/
def erase (s : LocationSet) (i : Nat) : LocationSet := ⟨s.bits &&& ~~~BitVec.twoPow 64 i⟩

def contains (s : LocationSet) (i : Nat) : Bool := s.bits.getLsbD i

def isEmpty (s : LocationSet) : Bool := s.bits == 0#64

/-- The members in ascending order. -/
def toList (s : LocationSet) : List Nat := (List.range capacity).filter s.contains

def size (s : LocationSet) : Nat := s.toList.length

/-- The set of the ids in a list, in any order and with repetitions. -/
def ofList (ids : List Nat) : LocationSet := ids.foldl insert empty

/-- Sets in the order of their bits read as numbers: the greatest id in one set only decides. -/
def compare (s t : LocationSet) : Ordering := Ord.compare s.bits.toNat t.bits.toNat

/-- Refuses an id past the capacity. -/
def checkId (i : Nat) : Except Fault Unit :=
  if i < capacity then .ok () else .error (.beyondSet i)

/-- `insert` for an id that may be past the capacity. -/
def insertChecked (s : LocationSet) (i : Nat) : Except Fault LocationSet := do
  checkId i
  return s.insert i

/-- `erase` for an id that may be past the capacity. -/
def eraseChecked (s : LocationSet) (i : Nat) : Except Fault LocationSet := do
  checkId i
  return s.erase i

/-- `ofList` for ids that may be past the capacity. The first such id is reported. -/
def ofListChecked (ids : List Nat) : Except Fault LocationSet := do
  ids.forM checkId
  return ofList ids

/-- The members in braces, as in `\x7b1,3\x7d`. -/
protected def toString (s : LocationSet) : String :=
  "\x7b" ++ ",".intercalate (s.toList.map toString) ++ "\x7d"

instance : ToString LocationSet := ⟨LocationSet.toString⟩

@[simp] theorem contains_empty (i : Nat) : empty.contains i = false := by
  simp [contains, empty]

theorem contains_insert (s : LocationSet) (i j : Nat) :
    (s.insert i).contains j = (s.contains j || (decide (i < capacity) && decide (i = j))) := by
  simp [contains, insert]
  rfl

theorem contains_erase (s : LocationSet) (i j : Nat) :
    (s.erase i).contains j = (s.contains j && !decide (j = i)) := by
  by_cases h : j < 64
  · simp [contains, erase, h]
  · simp [contains, erase, BitVec.getLsbD_of_ge _ _ (Nat.le_of_not_lt h)]

@[simp] theorem mem_toList {s : LocationSet} {i : Nat} : i ∈ s.toList ↔ s.contains i = true := by
  simp only [toList, List.mem_filter, List.mem_range, and_iff_right_iff_imp]
  exact BitVec.lt_of_getLsbD

end LocationSet

end OffshoreFlights
