import MarkupEditor.Server.Authority
import MarkupEditor.Text.Unsigned

set_option autoImplicit false

namespace MarkupEditor.Target

open Text

def isPathChar (c : Char) : Bool :=
  c.isAlphanum || "!$%&'()*+,-./:;=@[\\]^_|~\"\x7b\x7d".toList.contains c || '\x7f' < c

def isQueryChar (c : Char) : Bool :=
  (isPathChar c && c != '"') || "?\x60".toList.contains c

def isSchemeChar (c : Char) : Bool :=
  c.isAlphanum || "+-.~".toList.contains c

def maxTargetBytes : Nat := 65534

def maxSchemeLength : Nat := 64

def dropFragment (cs : List Char) : List Char :=
  cs.takeWhile (· != '#')

/-- The path of a path with a query, if all characters may stand there. An empty path is the root. -/
def pathOf? (cs : List Char) : Option (List Char) :=
  let cs := dropFragment cs
  let path := cs.takeWhile (· != '?')
  let query := cs.dropWhile (· != '?')
  if path.all isPathChar && query.all isQueryChar then some (if path.isEmpty then ['/'] else path)
  else none

def cutScheme? (cs : List Char) : Option (List Char × List Char) :=
  match cs.dropWhile isSchemeChar with
  | ':' :: '/' :: '/' :: rest => some (cs.takeWhile isSchemeChar, rest)
  | _ => none

def pathAfterAuthority? (cs : List Char) : Option (List Char) :=
  match cutScheme? cs with
  | some (scheme, rest) =>
    let (authority, rest) := cutAuthority rest
    if scheme.length ≤ maxSchemeLength && !authority.isEmpty && isAuthority authority then pathOf? rest
    else none
  | none =>
    let (authority, rest) := cutAuthority cs
    if rest.isEmpty && isAuthority authority then some [] else none

/-- The path of a target; `none` if it cannot be sent. -/
def path? (target : String) : Option (List Char) :=
  if maxTargetBytes < target.utf8ByteSize then none
  else
    match target.toList with
    | [] => none
    | ['*'] => some ['*']
    | '/' :: cs => pathOf? ('/' :: cs)
    | cs => pathAfterAuthority? cs

/-- The bytes that a piece of a path stands for. A percent sign without two digits is itself. -/
def bytesOf : List Char → List UInt8
  | [] => []
  | '%' :: a :: b :: cs =>
    match digitBelow? 16 a, digitBelow? 16 b with
    | some high, some low => UInt8.ofNat (16 * high + low) :: bytesOf cs
    | _, _ => 0x25 :: bytesOf (a :: b :: cs)
  | c :: cs => String.utf8EncodeChar c ++ bytesOf cs

def decode? (piece : List Char) : Option String :=
  String.fromUTF8? ⟨(bytesOf piece).toArray⟩

end MarkupEditor.Target
