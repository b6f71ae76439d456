import DocGraph.Gzip.Checksum
import DocGraph.Gzip.Inflate

/-!
# DocGraph: gzip members

A member is a header with optional parts, deflated data, and the checksum and length of what was
deflated. Only the first member of a file is read; what stands behind it is ignored.
-/

namespace DocGraph.Gzip

/-- The two bytes that every member begins with. -/
def magic : List UInt8 := [0x1f, 0x8b]

/-- The bytes behind the first zero. -/
def afterZero? (bytes : List UInt8) : Option (List UInt8) :=
  match bytes.dropWhile (· ≠ 0) with
  | [] => none
  | _ :: rest => some rest

/-- The bytes behind a field that begins with its length. -/
def afterField? : List UInt8 → Option (List UInt8)
  | a :: b :: rest =>
    let length := a.toNat + 256 * b.toNat
    if rest.length < length then none else some (rest.drop length)
  | _ => none

/-- The bytes behind the checksum of a header, which is the lower half of that of the header. -/
def afterChecksum? (header rest : List UInt8) : Option (List UInt8) :=
  match rest with
  | a :: b :: rest =>
    if (checksum (header.take (header.length - rest.length - 2))).toNat % UInt16.size
        = a.toNat + 256 * b.toNat then some rest
    else none
  | _ => none

/-- The deflated data behind the header. The flags tell which optional parts it has; the three
that mean nothing must not be set. -/
def afterHeader? (member : List UInt8) : Option (List UInt8) :=
  match member with
  | 0x1f :: 0x8b :: 8 :: flags :: _ :: _ :: _ :: _ :: _ :: _ :: rest =>
    let has (bit : Nat) : Bool := flags.toNat.testBit bit
    if 32 ≤ flags.toNat then none
    else
      -- an extra field, a name, a comment, a checksum of the header
      (if has 2 then afterField? rest else some rest).bind fun rest =>
        (if has 3 then afterZero? rest else some rest).bind fun rest =>
          (if has 4 then afterZero? rest else some rest).bind fun rest =>
            if has 1 then afterChecksum? member rest else some rest
  | _ => none

/-- What the first member of a file holds. -/
def decompress? (file : List UInt8) : Option (List UInt8) :=
  (afterHeader? file).bind fun body =>
    (inflate? (bitsOf body)).bind fun (data, bits) =>
      (number? 32 (alignToByte bits)).bind fun (sum, bits) =>
        (number? 32 bits).bind fun (length, _) =>
          if (checksum data).toNat = sum && data.length % UInt32.size = length then some data
          else none

end DocGraph.Gzip
