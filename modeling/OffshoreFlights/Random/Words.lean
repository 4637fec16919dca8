/-! Sources of random 32-bit words, and a fair choice of a number below a bound. -/

namespace OffshoreFlights

/-- A source of 32-bit words. -/
class WordSource (G : Type) where
  next : G → UInt32 × G

namespace WordSource

variable {G : Type} [WordSource G]

/-- How many words of 32 bits there are. -/
def wordCount : Nat := 0x100000000

/-- A number below `bound`, which is at most `wordCount`. A word scaled to the bound leaves a
remainder; where the remainder could carry, a second word decides whether it does. -/
def below (source : G) (bound : Nat) : Nat × G :=
  let (word, source) := next source
  let product := word.toNat * bound
  let high := product / wordCount
  let low := product % wordCount
  if wordCount - bound < low then
    let (word, source) := next source
    let carry := (low + word.toNat * bound / wordCount) / wordCount
    (high + carry, source)
  else (high, source)

end WordSource

/-- Words that come round again and again. -/
structure CyclicWords where
  words : List UInt32
  position : Nat

instance : WordSource CyclicWords where
  next s := (s.words.getD (s.position % s.words.length) 0, { s with position := s.position + 1 })

end OffshoreFlights
