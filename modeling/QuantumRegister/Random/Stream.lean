/-!
The ChaCha stream with twelve rounds: a seed fixes an endless sequence of 32-bit words.
-/

set_option autoImplicit false

namespace QuantumRegister.Random

def rotateLeft (x : UInt32) (n : UInt32) : UInt32 := (x <<< n) ||| (x >>> (32 - n))

def rotateRight (x : UInt32) (n : UInt32) : UInt32 := (x >>> n) ||| (x <<< (32 - n))

abbrev Block := Array UInt32

def Block.word (b : Block) (i : Nat) : UInt32 := b.getD i 0

def quarterRound (b : Block) (i j k l : Nat) : Block :=
  let x := b.word i + b.word j
  let w := rotateLeft (b.word l ^^^ x) 16
  let z := b.word k + w
  let y := rotateLeft (b.word j ^^^ z) 12
  let x := x + y
  let w := rotateLeft (w ^^^ x) 8
  let z := z + w
  let y := rotateLeft (y ^^^ z) 7
  (((b.setIfInBounds i x).setIfInBounds j y).setIfInBounds k z).setIfInBounds l w

def doubleRound (b : Block) : Block :=
  let b := quarterRound b 0 4 8 12
  let b := quarterRound b 1 5 9 13
  let b := quarterRound b 2 6 10 14
  let b := quarterRound b 3 7 11 15
  let b := quarterRound b 0 5 10 15
  let b := quarterRound b 1 6 11 12
  let b := quarterRound b 2 7 8 13
  quarterRound b 3 4 9 14

/-- The letters of "expand 32-byte k". -/
def constants : List UInt32 := [0x61707865, 0x3320646e, 0x79622d32, 0x6b206574]

/-- Constants, key, and a 64-bit counter with the low word first; the stream number is zero. -/
def initial (key : List UInt32) (counter : Nat) : Block :=
  (constants ++ key ++ [UInt32.ofNat counter, UInt32.ofNat (counter / Nat.pow 2 32), 0, 0]).toArray

def block (key : List UInt32) (counter : Nat) : Block :=
  let start := initial key counter
  Array.zipWith (· + ·) start (Nat.repeat doubleRound 6 start)

def word (key : List UInt32) (position : Nat) : UInt32 :=
  (block key (position / 16)).word (position % 16)

def stretch (state : UInt64) : UInt64 := state * 6364136223846793005 + 11634580027462260723

def permuted (state : UInt64) : UInt32 :=
  rotateRight (((state >>> 18) ^^^ state) >>> 27).toUInt32 (state >>> 59).toUInt32

def keyWords : Nat → UInt64 → List UInt32
  | 0, _ => []
  | n + 1, state => permuted (stretch state) :: keyWords n (stretch state)

def keyOfSeed (seed : UInt64) : List UInt32 := keyWords 8 seed

end QuantumRegister.Random
