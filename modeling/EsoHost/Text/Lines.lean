/-!
# `EsoHost.Text.Lines`: input by the line

Input comes as bytes and is taken line by line. Each line is decoded
when it is taken, so bytes that are no UTF-8 spoil their own line
only.
-/

set_option autoImplicit false

namespace EsoHost.Text

/-- Cuts bytes after every line feed. The bytes after the last line
feed are a line of their own, if there are any. -/
def cutLines : List UInt8 → List (List UInt8)
  | [] => []
  | b :: bytes =>
    if b = 10 then
      [b] :: cutLines bytes
    else
      match cutLines bytes with
      | [] => [[b]]
      | line :: rest => (b :: line) :: rest

/-- The lines of an input, with their line feeds. A line that is not
UTF-8 has no text. -/
def inputLines (bytes : ByteArray) : List (Option String) :=
  (cutLines bytes.toList).map fun line => String.fromUTF8? (ByteArray.mk line.toArray)

/-- The line with a line feed at its end, added if it is missing. -/
def endLine (line : String) : String :=
  if line.toList.getLast? = some '\n' then line else line.push '\n'

end EsoHost.Text
