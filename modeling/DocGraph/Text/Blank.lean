/-!
# DocGraph: blank text

The characters with the Unicode property `White_Space`, and the texts that hold nothing else. A
blank path names nothing and a blank key is refused, so this one table decides both, and the
space that may stand inside the brackets of a path.

* `toList_ne_nil_of_not_blank`: a text that is not blank has a first character.
-/

namespace DocGraph.Text

/-- The 25 characters with the property `White_Space`, in order. -/
def blanks : List Char :=
  ['\t', '\n', '\x0b', '\x0c', '\r', ' ', '\u0085', '\u00a0', '\u1680', '\u2000', '\u2001',
    '\u2002', '\u2003', '\u2004', '\u2005', '\u2006', '\u2007', '\u2008', '\u2009', '\u200a',
    '\u2028', '\u2029', '\u202f', '\u205f', '\u3000']

def isBlank (c : Char) : Bool :=
  blanks.contains c

/-- A text of blank characters only; the empty text is one. -/
def isBlankText (s : String) : Bool :=
  s.toList.all isBlank

/-- The text without the blank characters at its two ends. -/
def trim (s : String) : String :=
  String.ofList ((s.toList.dropWhile isBlank).reverse.dropWhile isBlank).reverse

/-- The text without the blank characters at its end. -/
def trimEnd (s : String) : String :=
  String.ofList (s.toList.reverse.dropWhile isBlank).reverse

theorem isBlankText_empty : isBlankText "" = true := by
  simp [isBlankText]

theorem toList_ne_nil_of_not_blank {s : String} (hBlank : isBlankText s = false) :
    s.toList ≠ [] := by
  intro hNil
  simp [isBlankText, hNil] at hBlank

end DocGraph.Text
