import DocGraph.Gzip.Bits

/-!
# DocGraph: canonical codes

A code gives each symbol a word of bits so that no word begins another one. It is fixed by the
lengths of its words alone: words of one length are consecutive numbers in the order of their
symbols, and longer words follow shorter ones.

A code must use up all words, except that a code with fewer than two symbols need not.
-/

namespace DocGraph.Gzip

/-- A code as a tree: the bits of a word lead to its symbol. -/
inductive Code where
  | unused
  | symbol (s : Nat)
  | branch (zero one : Code)

namespace Code

/-- Gives a symbol a word; `none` if the word begins another one or another one begins it. -/
def insert? : Code → (word : List Bool) → (s : Nat) → Option Code
  | .unused, [], s => some (.symbol s)
  | .unused, b :: word, s =>
    (insert? .unused word s).map fun c => if b then .branch .unused c else .branch c .unused
  | .branch zero one, b :: word, s =>
    if b then (insert? one word s).map (.branch zero ·)
    else (insert? zero word s).map (.branch · one)
  | .branch _ _, [], _ => none
  | .symbol _, _, _ => none

/-- No word is left over. -/
def isComplete : Code → Bool
  | .unused => false
  | .symbol _ => true
  | .branch zero one => zero.isComplete && one.isComplete

/-- The `width` bits of a number, the highest first. -/
def wordOf (width n : Nat) : List Bool :=
  (List.range width).reverse.map n.testBit

/-- Gives the symbols of one word length their words, which start at `next`. -/
def insertAll? (width : Nat) : (symbols : List Nat) → (next : Nat) → Code → Option (Code × Nat)
  | [], next, c => some (c, next)
  | s :: rest, next, c =>
    -- there are no more words of this length
    if Nat.pow 2 width ≤ next then none
    else (c.insert? (wordOf width next) s).bind (insertAll? width rest (next + 1))

/-- The longest word has this many bits. -/
def maxWidth : Nat := 15

/-- The code in which the symbol `s` has a word of `lengths[s]` bits, none if that is zero. -/
def ofLengths? (lengths : List Nat) : Option Code :=
  let symbols (width : Nat) : List Nat :=
    (lengths.zipIdx.filter fun (n, _) => n = width).map Prod.snd
  let widths := (List.range maxWidth).map (· + 1)
  -- a word of the next length starts with the first word still free
  let built := widths.foldlM (fun (c, next) width => insertAll? width (symbols width) (2 * next) c)
    (Code.unused, 0)
  built.bind fun (c, _) =>
    if 1 < (lengths.filter (· ≠ 0)).length && !c.isComplete then none else some c

/-- The symbol whose word the bits begin with. -/
def decode? : Code → Bits → Option (Nat × Bits)
  | .unused, _ => none
  | .symbol s, bits => some (s, bits)
  | .branch _ _, [] => none
  | .branch zero one, b :: bits => if b then one.decode? bits else zero.decode? bits

end Code

end DocGraph.Gzip
