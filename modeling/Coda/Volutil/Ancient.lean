import Mathlib

/-!
How an incremental dump reads the list that the dump before it left behind (`vol-dump.cc`,
`vvlist.cc`): the scan for the header of a vnode class, and the constructor of `vvtable`.

A `FILE` is what `fgets` will deliver of it, whatever that is. What `sscanf` makes of a line is left
open.
-/

namespace Coda.Volutil.Ancient

section Loops

variable {α : Type} {round : α → Option α} {s : α}

/-- A loop comes to an end; `round` is `none` where it is left. -/
def Ends (round : α → Option α) (s : α) : Prop := Acc (fun t s => round s = some t) s

end Loops

abbrev Line := List Char

/-- `cut`: the last line ends with the file and not with a newline, so that `feof` holds after it. -/
structure Stream where
  rest : List Line
  cut : Bool
  eof : Bool

end Coda.Volutil.Ancient
