/-!
# DocGraph: the checksum of a gzip member

The cyclic redundancy check of 32 bits over the reversed polynomial `0xedb88320`, bit by bit.
-/

namespace DocGraph.Gzip

/-- Shifts one bit out of the register. -/
def shiftBit (register : UInt32) : UInt32 :=
  if register &&& 1 = 1 then (register >>> 1) ^^^ 0xedb88320 else register >>> 1

def addByte (register : UInt32) (byte : UInt8) : UInt32 :=
  Nat.repeat shiftBit 8 (register ^^^ byte.toUInt32)

def checksum (bytes : List UInt8) : UInt32 :=
  bytes.foldl addByte 0xffffffff ^^^ 0xffffffff

end DocGraph.Gzip
