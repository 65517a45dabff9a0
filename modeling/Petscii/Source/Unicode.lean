import Petscii.Source.Encoding
import Petscii.Text.Utf16
/-!
# Decoders for Unicode texts

The decoders that the command runs with. A UTF-16 mark announces UTF-16 in its byte order and the text is
converted; behind a UTF-8 mark the text is taken as it stands; without a mark it is repaired.
-/

namespace Petscii.Source

def Decoders.unicode : Decoders where
  utf8 := Utf8.repair
  override fallback
    | 0xFF :: 0xFE :: rest => (Utf16.decode .little rest).flatMap String.utf8EncodeChar
    | 0xFE :: 0xFF :: rest => (Utf16.decode .big rest).flatMap String.utf8EncodeChar
    | 0xEF :: 0xBB :: 0xBF :: rest => rest
    | bytes => fallback bytes

end Petscii.Source
