/-!
# Authorities

The authority of a request target names a host, perhaps in brackets, with user information before it
and a port after it. It is read once from its beginning. What counts against the host, a colon too many
or a percent sign, is forgotten at an `@`, for it was user information, and at a closing bracket, for
it was an address.
-/

set_option autoImplicit false

namespace MarkupEditor.Target

def isPlainAuthorityChar (c : Char) : Bool :=
  c.isAlphanum || "!$&'()*+,-.;=_~".toList.contains c

def maxColons : Nat := 8

/-- What the beginning of an authority has shown: the colons and the percent signs that may belong to
the host or its port, and the brackets. -/
structure AuthorityScan where
  colons : Nat
  percent : Bool
  opened : Bool
  closed : Bool

namespace AuthorityScan

def start : AuthorityScan := ⟨0, false, false, false⟩

/-- One character further. Only the first opening bracket counts as one, and none after a percent sign;
a closing bracket needs an opening one. -/
def next? (scan : AuthorityScan) (c : Char) : Option AuthorityScan :=
  if c = ':' then
    if scan.colons < maxColons then some { scan with colons := scan.colons + 1 } else none
  else if c = '%' then some { scan with percent := true }
  else if c = '@' then some { scan with colons := 0, percent := false }
  else if c = '[' then
    if scan.percent || scan.opened then none else some { scan with opened := true }
  else if c = ']' then
    if scan.opened && !scan.closed then some ⟨0, false, true, true⟩ else none
  else if isPlainAuthorityChar c then some scan
  else none

def isComplete (scan : AuthorityScan) : Bool :=
  scan.opened == scan.closed && scan.colons ≤ 1 && !scan.percent

end AuthorityScan

/-- Whether a text is an authority. After an `@` a host has to follow. -/
def isAuthority (cs : List Char) : Bool :=
  (cs.foldlM AuthorityScan.next? .start).any AuthorityScan.isComplete && cs.getLast? != some '@'

def cutAuthority (cs : List Char) : List Char × List Char :=
  let inside (c : Char) : Bool := c != '/' && c != '?' && c != '#'
  (cs.takeWhile inside, cs.dropWhile inside)

end MarkupEditor.Target
