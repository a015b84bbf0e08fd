import BootConfig.Text.Percent
import BootConfig.Text.Utf8

/-!
# Data URLs of texts

A text becomes a `data:` URL with an empty media type: the scheme, a comma, and the text's UTF-8
bytes in percent coding.
-/

namespace BootConfig.DataUrl

/-- What every URL begins with. -/
def scheme : String := "data:,"

def payload (text : String) : String :=
  String.ofList (Percent.encode (Utf8.encode text.toList))

def ofText (text : String) : String :=
  scheme ++ payload text

end BootConfig.DataUrl
