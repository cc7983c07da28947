/-!
# SipHash

The keyed hash functions SipHash-c-d, from bytes to 64-bit words: four words of
state, `c` rounds of mixing for every eight bytes of the text and `d` rounds at
the end. The last bytes, fewer than eight, are hashed together with the length of
the text.
-/

namespace Monkey.Text.SipHash

/-- The state of the hash function. -/
structure State where
  v₀ : UInt64
  v₁ : UInt64
  v₂ : UInt64
  v₃ : UInt64

/-- A word rotated to the left by `n` bits, where `0 < n < 64`. -/
def rotate (x n : UInt64) : UInt64 :=
  (x <<< n) ||| (x >>> (64 - n))

/-- A round of mixing. -/
def State.round (s : State) : State :=
  let v₀ := s.v₀ + s.v₁
  let v₁ := rotate s.v₁ 13 ^^^ v₀
  let v₀ := rotate v₀ 32
  let v₂ := s.v₂ + s.v₃
  let v₃ := rotate s.v₃ 16 ^^^ v₂
  let v₀ := v₀ + v₃
  let v₃ := rotate v₃ 21 ^^^ v₀
  let v₂ := v₂ + v₁
  let v₁ := rotate v₁ 17 ^^^ v₂
  let v₂ := rotate v₂ 32
  ⟨v₀, v₁, v₂, v₃⟩

/-- `n` rounds of mixing. -/
def State.rounds : Nat → State → State
  | 0, s => s
  | n + 1, s => rounds n s.round

/-- Takes up a word of the text. -/
def State.absorb (c : Nat) (s : State) (word : UInt64) : State :=
  let t := State.rounds c { s with v₃ := s.v₃ ^^^ word }
  { t with v₀ := t.v₀ ^^^ word }

/-- The word of at most eight bytes, the first of which is the lowest. -/
def wordOfBytes (bytes : List UInt8) : UInt64 :=
  bytes.foldr (fun b word => (word <<< 8) ||| b.toUInt64) 0

/-- The words of a text of `length` bytes: eight bytes make one, and the last
    word holds the bytes that remain and, as its highest byte, the length. -/
def words (length : Nat) : List UInt8 → List UInt64
  | b₀ :: b₁ :: b₂ :: b₃ :: b₄ :: b₅ :: b₆ :: b₇ :: bytes =>
    wordOfBytes [b₀, b₁, b₂, b₃, b₄, b₅, b₆, b₇] :: words length bytes
  | bytes => [wordOfBytes bytes ||| (UInt64.ofNat length <<< 56)]

/-- The state for a key of two words. -/
def State.ofKey (k₀ k₁ : UInt64) : State :=
  ⟨k₀ ^^^ 0x736f6d6570736575, k₁ ^^^ 0x646f72616e646f6d,
    k₀ ^^^ 0x6c7967656e657261, k₁ ^^^ 0x7465646279746573⟩

/-- The digest of some bytes under a key of two words. -/
def digest (c d : Nat) (k₀ k₁ : UInt64) (bytes : List UInt8) : UInt64 :=
  let s := (words bytes.length bytes).foldl (State.absorb c) (State.ofKey k₀ k₁)
  let t := State.rounds d { s with v₂ := s.v₂ ^^^ 0xff }
  t.v₀ ^^^ t.v₁ ^^^ t.v₂ ^^^ t.v₃

-- SipHash-2-4 of the bytes 0 to 14 under the key of the bytes 0 to 15.
example :
    digest 2 4 0x0706050403020100 0x0f0e0d0c0b0a0908 ((List.range 15).map UInt8.ofNat) =
      0xa129ca6149be45e5 := by
  decide +kernel

end Monkey.Text.SipHash
