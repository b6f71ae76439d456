import DocGraph.Gzip.Code

/-!
# DocGraph: deflated data

Deflated data is a row of blocks: stored bytes, or symbols of a code that is fixed or comes with
the block. A symbol is a byte, the end of its block, or a number of bytes to be repeated from
some distance back.
-/

namespace DocGraph.Gzip

/-- The two codes of a block: for bytes and lengths, and for distances. -/
structure Codes where
  symbols : Code
  distances : Code

/-- The least length of each symbol from 257 on, and the number of extra bits. -/
def lengthTable : List (Nat × Nat) :=
  [(3, 0), (4, 0), (5, 0), (6, 0), (7, 0), (8, 0), (9, 0), (10, 0), (11, 1), (13, 1), (15, 1),
    (17, 1), (19, 2), (23, 2), (27, 2), (31, 2), (35, 3), (43, 3), (51, 3), (59, 3), (67, 4),
    (83, 4), (99, 4), (115, 4), (131, 5), (163, 5), (195, 5), (227, 5), (258, 0)]

/-- The least distance of each symbol, and the number of extra bits. -/
def distanceTable : List (Nat × Nat) :=
  [(1, 0), (2, 0), (3, 0), (4, 0), (5, 1), (7, 1), (9, 2), (13, 2), (17, 3), (25, 3), (33, 4),
    (49, 4), (65, 5), (97, 5), (129, 6), (193, 6), (257, 7), (385, 7), (513, 8), (769, 8),
    (1025, 9), (1537, 9), (2049, 10), (3073, 10), (4097, 11), (6145, 11), (8193, 12), (12289, 12),
    (16385, 13), (24577, 13)]

/-- The number that a symbol of a table and the extra bits behind it make. -/
def tableNumber? (table : List (Nat × Nat)) (symbol : Nat) (bits : Bits) : Option (Nat × Bits) :=
  table[symbol]?.bind fun (least, width) =>
    (number? width bits).map fun (extra, rest) => (least + extra, rest)

/-- Repeats `count` bytes from `distance` back, byte by byte, so that they may overlap. -/
def repeatBytes (distance : Nat) : (count : Nat) → Array UInt8 → Array UInt8
  | 0, out => out
  | count + 1, out => repeatBytes distance count (out.push (out.getD (out.size - distance) 0))

/-- Reads symbols to the end of the block. Each takes a bit at least, unless it is the last. -/
def inflateSymbols (codes : Codes) :
    (fuel : Nat) → Bits → Array UInt8 → Option (Bits × Array UInt8)
  | 0, _, _ => none
  | fuel + 1, bits, out =>
    (codes.symbols.decode? bits).bind fun (s, bits) =>
      -- a byte, the end, or a run from further back
      if s < 256 then inflateSymbols codes fuel bits (out.push (UInt8.ofNat s))
      else if s = 256 then some (bits, out)
      else
        (tableNumber? lengthTable (s - 257) bits).bind fun (length, bits) =>
          (codes.distances.decode? bits).bind fun (d, bits) =>
            (tableNumber? distanceTable d bits).bind fun (distance, bits) =>
              -- nothing lies in front of the first byte
              if out.size < distance then none
              else inflateSymbols codes fuel bits (repeatBytes distance length out)

/-! ## The codes of a block -/

def fixedCodes? : Option Codes :=
  let lengths := List.replicate 144 8 ++ List.replicate 112 9 ++ List.replicate 24 7
    ++ List.replicate 8 8
  (Code.ofLengths? lengths).bind fun symbols =>
    (Code.ofLengths? (List.replicate 32 5)).map fun distances => ⟨symbols, distances⟩

/-- The order in which the lengths of the code for lengths are stored. -/
def lengthOrder : List Nat :=
  [16, 17, 18, 0, 8, 7, 9, 6, 10, 5, 11, 4, 12, 3, 13, 2, 14, 1, 15]

/-- Reads `count` numbers of `width` bits. -/
def numbers? (width : Nat) : (count : Nat) → Bits → Option (List Nat × Bits)
  | 0, bits => some ([], bits)
  | count + 1, bits =>
    (number? width bits).bind fun (n, bits) =>
      (numbers? width count bits).map fun (ns, bits) => (n :: ns, bits)

/-- Reads code lengths until there are `total`; `lengths` come last first. Three symbols repeat
the length before or zero. -/
def codeLengths? (code : Code) (total : Nat) :
    (fuel : Nat) → (lengths : List Nat) → Bits → Option (List Nat × Bits)
  | 0, _, _ => none
  | fuel + 1, lengths, bits =>
    -- a run must not go beyond the total
    if total < lengths.length then none
    else if lengths.length = total then some (lengths.reverse, bits)
    else
      (code.decode? bits).bind fun (s, bits) =>
        let again (length width least : Nat) : Option (List Nat × Bits) :=
          (number? width bits).bind fun (extra, bits) =>
            codeLengths? code total fuel (List.replicate (least + extra) length ++ lengths) bits
        match s, lengths with
        | 16, [] => none
        | 16, previous :: _ => again previous 2 3
        | 17, _ => again 0 3 3
        | 18, _ => again 0 7 11
        | s, lengths => codeLengths? code total fuel (s :: lengths) bits

/-- The codes stored in front of a block. -/
def storedCodes? (bits : Bits) : Option (Codes × Bits) :=
  (number? 5 bits).bind fun (symbolCount, bits) =>
    (number? 5 bits).bind fun (distanceCount, bits) =>
      (number? 4 bits).bind fun (lengthCount, bits) =>
        (numbers? 3 (lengthCount + 4) bits).bind fun (widths, bits) =>
          let stored := lengthOrder.zip widths
          let widthOf (s : Nat) : Nat := (stored.lookup s).getD 0
          let symbolCount := symbolCount + 257
          let total := symbolCount + distanceCount + 1
          -- the last symbols of both codes mean nothing
          if 286 < symbolCount || 30 < distanceCount + 1 then none
          else
            (Code.ofLengths? ((List.range 19).map widthOf)).bind fun code =>
              (codeLengths? code total (total + 1) [] bits).bind fun (lengths, bits) =>
                (Code.ofLengths? (lengths.take symbolCount)).bind fun symbols =>
                  (Code.ofLengths? (lengths.drop symbolCount)).map fun distances =>
                    (⟨symbols, distances⟩, bits)

/-! ## Blocks -/

/-- Stored bytes behind their number, which is given twice, the second time inverted. -/
def storedBlock? (bits : Bits) (out : Array UInt8) : Option (Bits × Array UInt8) :=
  (number? 16 (alignToByte bits)).bind fun (count, bits) =>
    (number? 16 bits).bind fun (inverted, bits) =>
      if count + inverted = 0xffff then
        (bytes? count bits).map fun (bytes, bits) => (bits, out ++ bytes)
      else none

def block? (kind : Nat) (bits : Bits) (out : Array UInt8) : Option (Bits × Array UInt8) :=
  match kind with
  | 0 => storedBlock? bits out
  | 1 => fixedCodes?.bind fun codes => inflateSymbols codes (bits.length + 1) bits out
  | 2 =>
    (storedCodes? bits).bind fun (codes, bits) => inflateSymbols codes (bits.length + 1) bits out
  | _ => none

/-- Reads blocks up to the last one. -/
def inflateBlocks : (fuel : Nat) → Bits → Array UInt8 → Option (Bits × Array UInt8)
  | 0, _, _ => none
  | fuel + 1, bits, out =>
    (number? 1 bits).bind fun (last, bits) =>
      (number? 2 bits).bind fun (kind, bits) =>
        (block? kind bits out).bind fun (bits, out) =>
          if last = 1 then some (bits, out) else inflateBlocks fuel bits out

/-- The data that `bits` begin with, and the bits behind it. -/
def inflate? (bits : Bits) : Option (List UInt8 × Bits) :=
  (inflateBlocks (bits.length + 1) bits #[]).map fun (bits, out) => (out.toList, bits)

end DocGraph.Gzip
