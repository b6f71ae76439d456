/-!
# DocGraph: text as bytes

Texts are stored as UTF-8. A row of bytes that encodes no text is refused as a whole.
-/

namespace DocGraph.Text

/-- The text that the bytes encode. -/
def ofBytes? (bytes : List UInt8) : Option String :=
  String.fromUTF8? ⟨bytes.toArray⟩

end DocGraph.Text
