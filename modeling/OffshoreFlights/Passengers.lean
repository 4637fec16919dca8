/-! Numbers of passengers, one for each group or location, and how many they are together. -/

namespace OffshoreFlights

/-- How many passengers there are in all groups. -/
def headcount (groups : List Nat) : Nat := groups.foldr (· + ·) 0

@[simp] theorem headcount_nil : headcount [] = 0 := rfl

@[simp] theorem headcount_cons (w : Nat) (groups : List Nat) :
    headcount (w :: groups) = w + headcount groups := rfl

end OffshoreFlights
