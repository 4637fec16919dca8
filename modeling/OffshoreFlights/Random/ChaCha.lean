import OffshoreFlights.Random.Words

/-! The ChaCha stream of twelve rounds as a source of random words, its key drawn from a seed. -/

namespace OffshoreFlights

/-- The words of a ChaCha block. -/
abbrev ChaChaBlock := Vector UInt32 16

namespace ChaChaBlock

def rotateLeft (x : UInt32) (n : UInt32) : UInt32 := (x <<< n) ||| (x >>> (32 - n))

/-- Mixes four words of a block. -/
def quarterRound (s : ChaChaBlock) (a b c d : Fin 16) : ChaChaBlock :=
  let xa := s[a] + s[b]
  let xd := rotateLeft (s[d] ^^^ xa) 16
  let xc := s[c] + xd
  let xb := rotateLeft (s[b] ^^^ xc) 12
  let xa := xa + xb
  let xd := rotateLeft (xd ^^^ xa) 8
  let xc := xc + xd
  let xb := rotateLeft (xb ^^^ xc) 7
  (((s.set a xa).set b xb).set c xc).set d xd

/-- Mixes the columns of a block, then its diagonals. -/
def doubleRound (s : ChaChaBlock) : ChaChaBlock :=
  let s := quarterRound s 0 4 8 12
  let s := quarterRound s 1 5 9 13
  let s := quarterRound s 2 6 10 14
  let s := quarterRound s 3 7 11 15
  let s := quarterRound s 0 5 10 15
  let s := quarterRound s 1 6 11 12
  let s := quarterRound s 2 7 8 13
  quarterRound s 3 4 9 14

/-- The block from which the words of one counter value are mixed. -/
def initial (key : Vector UInt32 8) (counter : UInt64) : ChaChaBlock :=
  let constants : Vector UInt32 4 := #v[0x61707865, 0x3320646e, 0x79622d32, 0x6b206574]
  let counters : Vector UInt32 4 := #v[counter.toUInt32, (counter >>> 32).toUInt32, 0, 0]
  constants ++ key ++ counters

/-- The words of one counter value: twelve rounds, then the block added from which they started. -/
def mixed (key : Vector UInt32 8) (counter : UInt64) : ChaChaBlock :=
  let start := initial key counter
  (Nat.repeat doubleRound 6 start).zipWith (· + ·) start

end ChaChaBlock

/-- A ChaCha stream that is being read. -/
structure ChaChaStream where
  key : Vector UInt32 8
  /-- The counter of the next block. -/
  counter : UInt64
  /-- The words of the last block that have not been taken. -/
  pending : List UInt32

namespace ChaChaStream

/-- The step of the generator that spreads a seed over a key. -/
def seedStep (state : UInt64) : UInt64 := state * 6364136223846793005 + 11634580027462260723

/-- The word that a state of that generator yields. -/
def seedWord (state : UInt64) : UInt32 :=
  let x := (((state >>> 18) ^^^ state) >>> 27).toUInt32
  let n := (state >>> 59).toUInt32
  (x >>> n) ||| (x <<< ((32 - n) &&& 31))

/-- The stream whose key comes from a seed. -/
def seeded (seed : UInt64) : ChaChaStream where
  key := Vector.ofFn fun i => seedWord (Nat.repeat seedStep (i.val + 1) seed)
  counter := 0
  pending := []

/-- Takes the next word. -/
def next (s : ChaChaStream) : UInt32 × ChaChaStream :=
  match s.pending with
  | word :: pending => (word, { s with pending })
  | [] =>
    match (ChaChaBlock.mixed s.key s.counter).toList with
    | word :: pending => (word, { s with pending, counter := s.counter + 1 })
    | [] => (0, s)

instance : WordSource ChaChaStream := ⟨next⟩

end ChaChaStream

end OffshoreFlights
