/-!
# DocGraph: bytes as bits

Compressed data is a row of bits, the lowest bit of each byte first. Numbers are stored lowest
bit first, so a number of whole bytes is little endian.
-/

namespace DocGraph.Gzip

abbrev Bits := List Bool

def bitsOf (bytes : List UInt8) : Bits :=
  bytes.flatMap fun b => (List.range 8).map b.toNat.testBit

/-- The number that the first `width` bits make. -/
def number? : (width : Nat) → Bits → Option (Nat × Bits)
  | 0, bits => some (0, bits)
  | _ + 1, [] => none
  | width + 1, b :: bits => (number? width bits).map fun (n, rest) => (2 * n + b.toNat, rest)

/-- Drops the bits up to the next byte; `bits` ends with whole bytes. -/
def alignToByte (bits : Bits) : Bits :=
  bits.drop (bits.length % 8)

/-- The first `count` bytes. -/
def bytes? : (count : Nat) → Bits → Option (List UInt8 × Bits)
  | 0, bits => some ([], bits)
  | count + 1, bits =>
    (number? 8 bits).bind fun (n, rest) =>
      (bytes? count rest).map fun (bytes, rest) => (UInt8.ofNat n :: bytes, rest)

end DocGraph.Gzip
