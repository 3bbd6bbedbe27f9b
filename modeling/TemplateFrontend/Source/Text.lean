import TemplateFrontend.Source.Position
import TemplateFrontend.Text.Pieces
/-!
# Source texts and their digests

A source is a text under a path, and its digest tells its content from others. Two sources with the
same path are the same file; two with the same digest have the same content.

`Digest.ofBytes` is the hash function SHA-256: a message is padded to blocks of sixteen 32-bit
words, and each block is mixed into eight words of state in 64 rounds. Contents are compared and
messages are numbered by it.
-/

namespace TemplateFrontend

/-! ### Digests -/

/-- The 32 bytes of a hash. -/
structure Digest where
  bytes : List UInt8
  deriving DecidableEq, Repr, Inhabited

namespace Digest

/-- The first 32 bits of the fractional parts of the cube roots of the first 64 primes. -/
def roundConstants : List UInt32 :=
  [0x428a2f98, 0x71374491, 0xb5c0fbcf, 0xe9b5dba5, 0x3956c25b, 0x59f111f1, 0x923f82a4, 0xab1c5ed5,
   0xd807aa98, 0x12835b01, 0x243185be, 0x550c7dc3, 0x72be5d74, 0x80deb1fe, 0x9bdc06a7, 0xc19bf174,
   0xe49b69c1, 0xefbe4786, 0x0fc19dc6, 0x240ca1cc, 0x2de92c6f, 0x4a7484aa, 0x5cb0a9dc, 0x76f988da,
   0x983e5152, 0xa831c66d, 0xb00327c8, 0xbf597fc7, 0xc6e00bf3, 0xd5a79147, 0x06ca6351, 0x14292967,
   0x27b70a85, 0x2e1b2138, 0x4d2c6dfc, 0x53380d13, 0x650a7354, 0x766a0abb, 0x81c2c92e, 0x92722c85,
   0xa2bfe8a1, 0xa81a664b, 0xc24b8b70, 0xc76c51a3, 0xd192e819, 0xd6990624, 0xf40e3585, 0x106aa070,
   0x19a4c116, 0x1e376c08, 0x2748774c, 0x34b0bcb5, 0x391c0cb3, 0x4ed8aa4a, 0x5b9cca4f, 0x682e6ff3,
   0x748f82ee, 0x78a5636f, 0x84c87814, 0x8cc70208, 0x90befffa, 0xa4506ceb, 0xbef9a3f7, 0xc67178f2]

/-- The eight words between two blocks. -/
structure State where
  a : UInt32
  b : UInt32
  c : UInt32
  d : UInt32
  e : UInt32
  f : UInt32
  g : UInt32
  h : UInt32

/-- The first 32 bits of the fractional parts of the square roots of the first eight primes. -/
def State.initial : State :=
  ⟨0x6a09e667, 0xbb67ae85, 0x3c6ef372, 0xa54ff53a, 0x510e527f, 0x9b05688c, 0x1f83d9ab, 0x5be0cd19⟩

/-- A word turned to the right by `n` bits, `0 < n < 32`. -/
def rotateRight (x n : UInt32) : UInt32 := (x >>> n) ||| (x <<< (32 - n))

/-- The word sixteen places on, from the words 0, 1, 9 and 14 places on. -/
def scheduleWord (w0 w1 w9 w14 : UInt32) : UInt32 :=
  let s0 := rotateRight w1 7 ^^^ rotateRight w1 18 ^^^ (w1 >>> 3)
  let s1 := rotateRight w14 17 ^^^ rotateRight w14 19 ^^^ (w14 >>> 10)
  w0 + s0 + w9 + s1

/-- The words of the rounds: `window` holds the next sixteen, `n` counts the words wanted. -/
def schedule : Nat → List UInt32 → List UInt32
  | 0, _ => []
  | _ + 1, [] => []
  | n + 1, w :: window =>
    let next := scheduleWord w (window.getD 0 0) (window.getD 8 0) (window.getD 13 0)
    w :: schedule n (window ++ [next])

/-- One round, with its constant and its word. -/
def round (s : State) (k w : UInt32) : State :=
  let s1 := rotateRight s.e 6 ^^^ rotateRight s.e 11 ^^^ rotateRight s.e 25
  let choice := (s.e &&& s.f) ^^^ ((~~~ s.e) &&& s.g)
  let t1 := s.h + s1 + choice + k + w
  let s0 := rotateRight s.a 2 ^^^ rotateRight s.a 13 ^^^ rotateRight s.a 22
  let majority := (s.a &&& s.b) ^^^ (s.a &&& s.c) ^^^ (s.b &&& s.c)
  ⟨t1 + s0 + majority, s.a, s.b, s.c, s.d + t1, s.e, s.f, s.g⟩

/-- The state after a block of sixteen words. -/
def mixBlock (s : State) (words : List UInt32) : State :=
  let m := (roundConstants.zip (schedule 64 words)).foldl (fun s (k, w) => round s k w) s
  ⟨s.a + m.a, s.b + m.b, s.c + m.c, s.d + m.d, s.e + m.e, s.f + m.f, s.g + m.g, s.h + m.h⟩

/-- The bytes of `n`, most significant first, in `width` places. -/
def bigEndian : Nat → Nat → List UInt8
  | 0, _ => []
  | width + 1, n => UInt8.ofNat (n / Nat.pow 256 width) :: bigEndian width n

/-- The message, the byte `0x80`, zeros, and the length in bits in eight bytes: a whole number of
blocks. -/
def pad (message : List UInt8) : List UInt8 :=
  let n := message.length
  message ++ 0x80 :: List.replicate ((119 - n % 64) % 64) 0 ++ bigEndian 8 (8 * n)

/-- Bytes read as words, four at a time, the most significant first. -/
def wordsOfBytes : List UInt8 → List UInt32
  | a :: b :: c :: d :: rest =>
    ((a.toUInt32 <<< 24) ||| (b.toUInt32 <<< 16) ||| (c.toUInt32 <<< 8) ||| d.toUInt32) ::
      wordsOfBytes rest
  | _ => []

/-- The state after all blocks of `words`; `n` bounds their number. -/
def mixBlocks : Nat → State → List UInt32 → State
  | 0, s, _ => s
  | _ + 1, s, [] => s
  | n + 1, s, words => mixBlocks n (mixBlock s (words.take 16)) (words.drop 16)

/-- The hash of a sequence of bytes. -/
def ofBytes (message : List UInt8) : Digest :=
  let words := wordsOfBytes (pad message)
  let s := mixBlocks words.length .initial words
  ⟨[s.a, s.b, s.c, s.d, s.e, s.f, s.g, s.h].flatMap fun w => bigEndian 4 w.toNat⟩

/-- The hash of the UTF-8 form of a text. -/
def ofString (s : String) : Digest := ofBytes s.toUTF8.toList

/-- The hash in lower-case hexadecimal digits. -/
def hex (d : Digest) : String :=
  String.ofList <| d.bytes.flatMap fun b =>
    [Nat.digitChar (b.toNat / 16), Nat.digitChar (b.toNat % 16)]

/-- The number written by the first eight bytes. -/
def leadingWord (d : Digest) : UInt64 :=
  (d.bytes.take 8).foldl (fun n b => (n <<< 8) ||| b.toUInt64) 0

end Digest

/-! ### Source texts -/

open Text

/-- A template file before it is read. -/
structure SourceText where
  path : String
  content : String
  deriving DecidableEq, Repr, Inhabited

namespace SourceText

/-- The path without its directories, which end in a slash or a backslash. -/
def fileName (s : SourceText) : String :=
  String.ofList (lastPiece '\\' (lastPiece '/' s.path.toList))

/-- The digest of the content. -/
def digest (s : SourceText) : Digest := .ofString s.content

/-- The location of a range in the source. -/
def location (s : SourceText) (span : Span) : Location :=
  (LineTable.ofText s.content.toList).location s.path span

end SourceText

end TemplateFrontend
