import MonoTap.Text.Blank
import MonoTap.Text.LowerCase

/-!
# Paths

Paths are texts whose parts are separated by slashes. This file holds the extension of a file name,
the directory of a path, and the joining and comparing of paths.
-/

set_option autoImplicit false

namespace MonoTap.Files

/-- The part of a path after its last slash. -/
def baseName (path : List Char) : List Char :=
  (path.reverse.takeWhile (· != '/')).reverse

/-- The extension of a file name, from its last dot on; empty if the name has no dot after its
leading dots. -/
def extension (path : List Char) : List Char :=
  let name := (baseName path).dropWhile (· == '.')
  if name.contains '.' then
    '.' :: (name.reverse.takeWhile (· != '.')).reverse
  else []

/-- The path up to its last slash; slashes at the end of that part go, unless it holds nothing
else. -/
def directory (path : List Char) : List Char :=
  let head := path.take (path.length - (baseName path).length)
  let trimmed := (head.reverse.dropWhile (· == '/')).reverse
  if trimmed.isEmpty then head else trimmed

/-- A name inside a directory. -/
def join (directory name : List Char) : List Char :=
  if name.head? == some '/' || directory.isEmpty then name
  else if directory.getLast? == some '/' then directory ++ name
  else directory ++ '/' :: name

/-- The parts of a path, with `.` and empty parts left out and `..` cancelling the part before. -/
def parts (path : List Char) : List (List Char) :=
  go [] (Text.splitAt '/' path)
where
  /-- Collects parts, with those so far in reverse order. -/
  go (done : List (List Char)) : List (List Char) → List (List Char)
    | [] => done.reverse
    | part :: rest =>
      if part.isEmpty || part == ['.'] then go done rest
      else if part == ['.', '.'] then
        match done with
        | [] => go [part] rest
        | last :: others => if last == part then go (part :: done) rest else go others rest
      else go (part :: done) rest

/-- The path of `parts` relative to the directory `base`, both below the same place. -/
def relativeTo (base path : List (List Char)) : List Char :=
  let rec common : List (List Char) → List (List Char) → List (List Char) × List (List Char)
    | b :: bs, p :: ps => if b == p then common bs ps else (b :: bs, p :: ps)
    | bs, ps => (bs, ps)
  let (up, down) := common base path
  let steps := up.map (fun _ => ['.', '.']) ++ down
  if steps.isEmpty then ['.'] else Text.joinWith ['/'] steps

end MonoTap.Files
