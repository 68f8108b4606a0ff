import Mos6502.Word

namespace Mos6502

inductive FileEntry where
  | directory
  | regular (bytes : List Byte)
  deriving DecidableEq, Repr

/-- What a path leads to; `none` where nothing is. -/
abbrev Files := String → Option FileEntry

/-- The size the system gives: directories have one too. -/
def FileEntry.size : FileEntry → Nat
  | .directory => 4096
  | .regular bytes => bytes.length

namespace Files

/-- The entry at a list of names below the working directory. A name under which other entries lie is
a directory. -/
def below (entries : List (String × FileEntry)) (names : List String) : Option FileEntry :=
  let path := "/".intercalate names
  if names.isEmpty then some .directory
  else match entries.lookup path with
    | some e => some e
    | none => if entries.any fun e => (path ++ "/").isPrefixOf e.1 then some .directory else none

/-- Follows `steps` from the directory `here`, which is outside the known tree where it is `none`. An
empty step and a dot stay, two dots go up; all of them need a directory to be in. -/
def follow (entries : List (String × FileEntry)) (here : Option (List String)) :
    (steps : List String) → Option FileEntry
  | [] => match here with
    | some names => below entries names
    | none => some .directory
  | step :: steps =>
    let isDirectory := match here with
      | some names => below entries names == some .directory
      | none => true
    if !isDirectory then none
    else if step = "" ∨ step = "." then follow entries here steps
    else if step = ".." then
      follow entries (here.bind fun names => if names.isEmpty then none else some names.dropLast) steps
    else match here with
      | some names => follow entries (some (names ++ [step])) steps
      | none => none

def pathLimit : Nat := 4095

def ofList (entries : List (String × FileEntry)) : Files := fun path =>
  if path = "" ∨ path.contains '\x00' ∨ pathLimit < path.utf8ByteSize then none
  else follow entries (if path.front = '/' then none else some []) (path.splitOn "/")

end Files

end Mos6502
