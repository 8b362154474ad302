/-! SHA-256 digests. -/

namespace JsfxSugar.Digest

/-- The state of the hash: eight words. -/
abbrev State := Vector UInt32 8

/-- The first words of the fractional parts of the square roots of the first eight primes. -/
def initial : State :=
  #v[0x6a09e667, 0xbb67ae85, 0x3c6ef372, 0xa54ff53a, 0x510e527f, 0x9b05688c, 0x1f83d9ab, 0x5be0cd19]

/-- The first words of the fractional parts of the cube roots of the first sixty-four primes. -/
def roundConstants : List UInt32 := [
  0x428a2f98, 0x71374491, 0xb5c0fbcf, 0xe9b5dba5, 0x3956c25b, 0x59f111f1, 0x923f82a4, 0xab1c5ed5,
  0xd807aa98, 0x12835b01, 0x243185be, 0x550c7dc3, 0x72be5d74, 0x80deb1fe, 0x9bdc06a7, 0xc19bf174,
  0xe49b69c1, 0xefbe4786, 0x0fc19dc6, 0x240ca1cc, 0x2de92c6f, 0x4a7484aa, 0x5cb0a9dc, 0x76f988da,
  0x983e5152, 0xa831c66d, 0xb00327c8, 0xbf597fc7, 0xc6e00bf3, 0xd5a79147, 0x06ca6351, 0x14292967,
  0x27b70a85, 0x2e1b2138, 0x4d2c6dfc, 0x53380d13, 0x650a7354, 0x766a0abb, 0x81c2c92e, 0x92722c85,
  0xa2bfe8a1, 0xa81a664b, 0xc24b8b70, 0xc76c51a3, 0xd192e819, 0xd6990624, 0xf40e3585, 0x106aa070,
  0x19a4c116, 0x1e376c08, 0x2748774c, 0x34b0bcb5, 0x391c0cb3, 0x4ed8aa4a, 0x5b9cca4f, 0x682e6ff3,
  0x748f82ee, 0x78a5636f, 0x84c87814, 0x8cc70208, 0x90befffa, 0xa4506ceb, 0xbef9a3f7, 0xc67178f2]

/-- Rotation of a word to the right, by less than its width. -/
def rotate (x n : UInt32) : UInt32 :=
  (x >>> n) ||| (x <<< (32 - n))

/-- The sixteen words of the schedule from the current round on. -/
abbrev Window := Vector UInt32 16

/-- The window one round further, with the word that the recurrence adds. -/
def Window.slide (w : Window) : Window :=
  let s₀ := rotate w[1] 7 ^^^ rotate w[1] 18 ^^^ (w[1] >>> 3)
  let s₁ := rotate w[14] 17 ^^^ rotate w[14] 19 ^^^ (w[14] >>> 10)
  (w.tail.push (w[0] + s₀ + w[9] + s₁)).cast (by decide)

/-- One round with its constant and the current word of the schedule. -/
def round (v : State) (k w : UInt32) : State :=
  let s₁ := rotate v[4] 6 ^^^ rotate v[4] 11 ^^^ rotate v[4] 25
  let choice := (v[4] &&& v[5]) ^^^ (~~~v[4] &&& v[6])
  let t₁ := v[7] + s₁ + choice + k + w
  let s₀ := rotate v[0] 2 ^^^ rotate v[0] 13 ^^^ rotate v[0] 22
  let majority := (v[0] &&& v[1]) ^^^ (v[0] &&& v[2]) ^^^ (v[1] &&& v[2])
  #v[t₁ + (s₀ + majority), v[0], v[1], v[2], v[3] + t₁, v[4], v[5], v[6]]

/-- Mixes a block of sixteen words into the state. -/
def compress (h : State) (block : Window) : State :=
  let step := fun (v, w) k => (round v k w[0], Window.slide w)
  Vector.zipWith (· + ·) h (roundConstants.foldl step (h, block)).1

/-- The word that four bytes form, the first one highest. -/
def word (bytes : Vector UInt8 64) (i : Fin 16) : UInt32 :=
  (bytes[4 * i.val].toUInt32 <<< 24) ||| (bytes[4 * i.val + 1].toUInt32 <<< 16) |||
    (bytes[4 * i.val + 2].toUInt32 <<< 8) ||| bytes[4 * i.val + 3].toUInt32

/-- A number as bytes of a given count, the highest first. -/
def bigEndian (count n : Nat) : List UInt8 :=
  (List.range count).map fun i => UInt8.ofNat (n >>> (8 * (count - 1 - i)))

/-- The message with a one bit, zeros up to a whole number of blocks, and its length in bits. -/
def pad (message : List UInt8) : List UInt8 :=
  let zeros := (119 - message.length % 64) % 64
  message ++ [0x80] ++ List.replicate zeros 0 ++ bigEndian 8 (8 * message.length)

theorem length_bigEndian (count n : Nat) : (bigEndian count n).length = count := by
  simp [bigEndian]

theorem length_pad_mod (message : List UInt8) : (pad message).length % 64 = 0 := by
  simp only [pad, List.length_append, List.length_cons, List.length_nil, List.length_replicate,
    length_bigEndian]
  omega

/-- Mixes in the whole blocks of a padded message; there is nothing left after them. -/
def absorb (h : State) (bytes : List UInt8) : State :=
  if hb : 64 ≤ bytes.length then
    let block : Vector UInt8 64 := ⟨(bytes.take 64).toArray, by simp [Nat.min_eq_left hb]⟩
    absorb (compress h (Vector.ofFn (word block))) (bytes.drop 64)
  else h
termination_by bytes.length
decreasing_by
  simp only [List.length_drop]
  omega

/-- The SHA-256 digest of a message. -/
def sha256 (message : List UInt8) : List UInt8 :=
  (absorb initial (pad message)).toList.flatMap fun w => bigEndian 4 w.toNat

end JsfxSugar.Digest
