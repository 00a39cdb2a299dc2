import MarkupEditor.Text.Unsigned

set_option autoImplicit false

namespace MarkupEditor

def identifierOfBits (bits : Nat) : String :=
  let groups := [
    Text.hexDigits 8 (bits >>> 96),
    Text.hexDigits 4 (bits >>> 80),
    Text.hexDigits 4 (0x4000 + (bits >>> 64) % 0x1000),
    Text.hexDigits 4 (0x8000 + (bits >>> 48) % 0x4000),
    Text.hexDigits 12 bits]
  "-".intercalate (groups.map String.ofList)

end MarkupEditor
