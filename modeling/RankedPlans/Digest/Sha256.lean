/-!
The SHA-256 hash function on byte lists: padding to whole blocks, the message schedule of a block and
sixty-four rounds on eight 32-bit words.
-/

namespace RankedPlans.Sha256

/-- The additive constant of each round. -/
def roundConstants : Array UInt32 := #[
  0x428a2f98, 0x71374491, 0xb5c0fbcf, 0xe9b5dba5, 0x3956c25b, 0x59f111f1, 0x923f82a4, 0xab1c5ed5,
  0xd807aa98, 0x12835b01, 0x243185be, 0x550c7dc3, 0x72be5d74, 0x80deb1fe, 0x9bdc06a7, 0xc19bf174,
  0xe49b69c1, 0xefbe4786, 0x0fc19dc6, 0x240ca1cc, 0x2de92c6f, 0x4a7484aa, 0x5cb0a9dc, 0x76f988da,
  0x983e5152, 0xa831c66d, 0xb00327c8, 0xbf597fc7, 0xc6e00bf3, 0xd5a79147, 0x06ca6351, 0x14292967,
  0x27b70a85, 0x2e1b2138, 0x4d2c6dfc, 0x53380d13, 0x650a7354, 0x766a0abb, 0x81c2c92e, 0x92722c85,
  0xa2bfe8a1, 0xa81a664b, 0xc24b8b70, 0xc76c51a3, 0xd192e819, 0xd6990624, 0xf40e3585, 0x106aa070,
  0x19a4c116, 0x1e376c08, 0x2748774c, 0x34b0bcb5, 0x391c0cb3, 0x4ed8aa4a, 0x5b9cca4f, 0x682e6ff3,
  0x748f82ee, 0x78a5636f, 0x84c87814, 0x8cc70208, 0x90befffa, 0xa4506ceb, 0xbef9a3f7, 0xc67178f2]

/-- The eight words that the rounds work on. -/
structure Words where
  (a b c d e f g h : UInt32)
deriving DecidableEq, Repr

/-- The words before the first block. -/
def Words.initial : Words :=
  ⟨0x6a09e667, 0xbb67ae85, 0x3c6ef372, 0xa54ff53a, 0x510e527f, 0x9b05688c, 0x1f83d9ab, 0x5be0cd19⟩

def rotateRight (x n : UInt32) : UInt32 :=
  (x >>> n) ||| (x <<< (32 - n))

/-- One round with a constant and a word of the schedule. -/
def Words.round (w : Words) (constant scheduled : UInt32) : Words :=
  let sum1 := rotateRight w.e 6 ^^^ rotateRight w.e 11 ^^^ rotateRight w.e 25
  let choice := (w.e &&& w.f) ^^^ (~~~w.e &&& w.g)
  let temp1 := w.h + sum1 + choice + constant + scheduled
  let sum0 := rotateRight w.a 2 ^^^ rotateRight w.a 13 ^^^ rotateRight w.a 22
  let majority := (w.a &&& w.b) ^^^ (w.a &&& w.c) ^^^ (w.b &&& w.c)
  ⟨temp1 + (sum0 + majority), w.a, w.b, w.c, w.d + temp1, w.e, w.f, w.g⟩

def Words.add (x y : Words) : Words :=
  ⟨x.a + y.a, x.b + y.b, x.c + y.c, x.d + y.d, x.e + y.e, x.f + y.f, x.g + y.g, x.h + y.h⟩

def Words.toList (w : Words) : List UInt32 :=
  [w.a, w.b, w.c, w.d, w.e, w.f, w.g, w.h]

/-- The word of the schedule after those of `ws`, which holds at least sixteen. -/
def nextScheduled (ws : Array UInt32) : UInt32 :=
  let back (i : Nat) := ws.getD (ws.size - i) 0
  let x := back 15
  let y := back 2
  let small0 := rotateRight x 7 ^^^ rotateRight x 18 ^^^ (x >>> 3)
  let small1 := rotateRight y 17 ^^^ rotateRight y 19 ^^^ (y >>> 10)
  back 16 + small0 + back 7 + small1

/-- The sixteen words of a block extended to one for each round. -/
def schedule (block : Array UInt32) : Array UInt32 :=
  (List.range 48).foldl (fun ws _ => ws.push (nextScheduled ws)) block

/-- The words after a block. -/
def Words.compress (w : Words) (block : Array UInt32) : Words :=
  w.add ((roundConstants.toList.zip (schedule block).toList).foldl (fun w k => w.round k.1 k.2) w)

/-- The lowest `count` bytes of a number, the highest of them first. -/
def bigEndian (count n : Nat) : List UInt8 :=
  (List.range count).map fun i => UInt8.ofNat (n / Nat.pow 256 (count - 1 - i))

/-- The message, a set bit, zeros, and the bit length of the message in eight bytes. -/
def padded (message : List UInt8) : List UInt8 :=
  let zeros := (119 - message.length % 64) % 64
  message ++ 0x80 :: List.replicate zeros 0 ++ bigEndian 8 (message.length * 8)

/-- Four bytes to a word, the highest byte first. -/
def words : List UInt8 → List UInt32
  | a :: b :: c :: d :: rest =>
    (a.toUInt32 <<< 24 ||| b.toUInt32 <<< 16 ||| c.toUInt32 <<< 8 ||| d.toUInt32) :: words rest
  | _ => []

/-- Groups of sixteen words. -/
def blocks : Nat → List UInt32 → List (Array UInt32)
  | 0, _ => []
  | count + 1, ws => (ws.take 16).toArray :: blocks count (ws.drop 16)

/-- The thirty-two bytes of the hash of a message. -/
def hash (message : List UInt8) : List UInt8 :=
  let ws := words (padded message)
  let final := (blocks (ws.length / 16) ws).foldl Words.compress Words.initial
  final.toList.flatMap fun w => bigEndian 4 w.toNat

end RankedPlans.Sha256
