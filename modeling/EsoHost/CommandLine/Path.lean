import EsoHost.Engine

/-!
# `EsoHost.CommandLine.Path`: the language of a file

The language of a program is guessed from the extension of its file's
name.
-/

set_option autoImplicit false

namespace EsoHost.CommandLine

/-- The name of the file that a path leads to. Slashes at the end and
segments `.` do not count; a path that ends in `..` names no file. -/
def fileName? (path : String) : Option (List Char) :=
  let segments := (path.toList.splitOn '/').filter fun s => s ≠ [] ∧ s ≠ ['.']
  match segments.getLast? with
  | some ['.', '.'] => none
  | name => name

/-- What follows the last dot of a file's name. A dot at the start of
the name begins no extension. -/
def extension? (path : String) : Option String := do
  let name ← fileName? path
  let reversed := name.reverse
  match reversed.dropWhile (· ≠ '.') with
  | [] | [_] => none
  | _ => return String.ofList (reversed.takeWhile (· ≠ '.')).reverse

/-- The language that a file's name suggests. -/
def guessLanguage (path : String) : Language :=
  match extension? path with
  | some "b" | some "bf" => .brainfuck
  | _ => .piet

end EsoHost.CommandLine
