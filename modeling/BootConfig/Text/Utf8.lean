/-!
# UTF-8

The bytes of a text.
-/

namespace BootConfig.Utf8

def encode (text : List Char) : List UInt8 :=
  text.flatMap String.utf8EncodeChar

theorem encode_append (text text' : List Char) :
    encode (text ++ text') = encode text ++ encode text' :=
  List.flatMap_append

theorem encode_singleton (c : Char) : encode [c] = String.utf8EncodeChar c :=
  List.flatMap_singleton _ _

theorem toList_toUTF8 (text : List Char) :
    (String.ofList text).toUTF8.data.toList = encode text := by
  simp [String.toUTF8_eq_toByteArray, List.utf8Encode, encode]

end BootConfig.Utf8
