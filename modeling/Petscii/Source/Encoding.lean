import Petscii.Text.Utf8
/-!
# Encodings of a source text

A source text is UTF-8 unless a byte order mark says otherwise. The decoders themselves come from outside:
one for UTF-8, and one that looks for a byte order mark before it hands the text to another.
-/

namespace Petscii.Source

/-- Decoders of bytes, which give UTF-8. -/
structure Decoders where
  utf8 : Bytes → Bytes
  /-- The decoder that a byte order mark in front asks for, or the given one if there is no mark. -/
  override : (Bytes → Bytes) → Bytes → Bytes

/-- The bytes of a source text in UTF-8. Without a byte order mark it is taken as UTF-8. -/
def Decoders.normalize (d : Decoders) : Bytes → Bytes :=
  d.override d.utf8

end Petscii.Source
