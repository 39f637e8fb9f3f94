/-!
# The random source

A multiplicative congruential generator with 128 bits of state.  Each step
multiplies the state and folds it to one word of 64 bits: the halves are xored
and rotated by the six highest bits.
-/

namespace PatternSampler

structure Source where
  seed : UInt64
  state : BitVec 128
deriving DecidableEq, Repr

namespace Source

def multiplier : BitVec 128 := 0x2360ED051FC65DA44385DF649FCCF645

/-- One step of the generator that spreads a seed over the state. -/
def stretch (s : UInt64) : UInt64 := s * 6364136223846793005 + 11634580027462260723

def stretched (s : UInt64) : BitVec 32 :=
  let bits := ((s >>> 18) ^^^ s) >>> 27
  bits.toUInt32.toBitVec.rotateRight (s >>> 59).toNat

/-- The source of a seed.  Its state is odd, as the multiplier requires. -/
def ofSeed (seed : UInt64) : Source :=
  let a := stretch seed
  let b := stretch a
  let c := stretch b
  let d := stretch c
  let state : BitVec 128 := stretched d ++ (stretched c ++ (stretched b ++ stretched a))
  ⟨seed, state ||| 1⟩

def word (state : BitVec 128) : UInt64 :=
  let upper := UInt64.ofNat (state.toNat >>> 64)
  let mixed := upper ^^^ UInt64.ofNat state.toNat
  let turn := upper >>> 58
  mixed >>> turn ||| mixed <<< (64 - turn)

def next (s : Source) : UInt64 × Source :=
  let state := s.state * multiplier
  (word state, { s with state })

end Source

end PatternSampler
