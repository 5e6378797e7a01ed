import MonoTap.Files.Path
import MonoTap.Text.Quoted
import MonoTap.Text.Utf8

/-!
# File trees

The files below a directory, and what a path means there. A part of a path is looked up in the
directory that the parts before it have led to; an empty part or `.` stays there and `..` leads
back.
-/

set_option autoImplicit false

namespace MonoTap.Files

/-- A file with its bytes, or a directory with its entries. -/
inductive Entry where
  | file (bytes : List UInt8)
  | directory (entries : List (String × Entry))
  deriving Inhabited

/-- Why a path leads to no file. -/
inductive PathFault where
  | noEntry
  | notDirectory
  | isDirectory
  | tooLong
  deriving DecidableEq, Repr

/-- The wording of the fault of a path. -/
def PathFault.message (path : String) (fault : PathFault) : String :=
  (match fault with
    | .noEntry => "[Errno 2] No such file or directory: "
    | .notDirectory => "[Errno 20] Not a directory: "
    | .isDirectory => "[Errno 21] Is a directory: "
    | .tooLong => "[Errno 36] File name too long: ") ++ Text.quoted path

namespace Entry

/-- The entry of a directory with the given name. -/
def child? (e : Entry) (name : String) : Option Entry :=
  match e with
  | .file _ => none
  | .directory entries => (entries.find? (·.1 == name)).map Prod.snd

/-- Whether an entry is a directory. -/
def isDirectory : Entry → Bool
  | .directory _ => true
  | .file _ => false

/-- A place in a tree: the entry there and the ways to it and to the directories above, each a list
of names from the inside out. -/
structure Place where
  entry : Entry
  above : List (String × Entry)

/-- The names on the way to a place. -/
def Place.names (p : Place) : List String :=
  (p.above.map Prod.fst).reverse

/-- The greatest number of bytes in a name. -/
def maxName : Nat := 255

/-- The place that one part of a path leads to. -/
def step (p : Place) (part : List Char) : Except PathFault Place :=
  if !p.entry.isDirectory then .error .notDirectory
  else if part.isEmpty || part == ['.'] then .ok p
  else if part == ['.', '.'] then
    match p.above with
    | [] => .error .noEntry
    | (_, outer) :: above => .ok ⟨outer, above⟩
  else
    let name := String.ofList part
    if maxName < name.utf8ByteSize then .error .tooLong
    else
      match p.entry.child? name with
      | some e => .ok ⟨e, (name, p.entry) :: p.above⟩
      | none => .error .noEntry

/-- The place that a path leads to. The empty path leads nowhere, and so does one from the root. -/
def locate (root : Entry) (path : String) : Except PathFault Place :=
  if path.isEmpty || path.toList.head? == some '/' then .error .noEntry
  else (Text.splitAt '/' path.toList).foldlM step ⟨root, []⟩

/-- Whether a path leads to something. -/
def existsAt (root : Entry) (path : String) : Bool :=
  (root.locate path).toOption.isSome

/-- Whether a path leads to a file. -/
def isFileAt (root : Entry) (path : String) : Bool :=
  (root.locate path).toOption.any fun p => !p.entry.isDirectory

/-- Whether a path leads to a directory. -/
def isDirectoryAt (root : Entry) (path : String) : Bool :=
  (root.locate path).toOption.any fun p => p.entry.isDirectory

/-- The bytes of the file that a path leads to. -/
def read (root : Entry) (path : String) : Except PathFault (List UInt8) := do
  let p ← root.locate path
  match p.entry with
  | .file bytes => return bytes
  | .directory _ => .error .isDirectory

/-- Enters a file under some names, with the directories on the way. -/
def put (bytes : List UInt8) : List String → Entry → Entry
  | [], _ => .file bytes
  | name :: names, e =>
    let entries :=
      match e with
      | .directory entries => entries
      | .file _ => []
    let inner := (e.child? name).getD (.directory [])
    let entered := (name, put bytes names inner)
    if entries.any (·.1 == name) then
      .directory (entries.map fun (n, old) => if n == name then entered else (n, old))
    else .directory (entries ++ [entered])

/-- Enters a directory under some names, with the directories on the way. -/
def putDirectory : List String → Entry → Entry
  | [], e => if e.isDirectory then e else .directory []
  | name :: names, e =>
    let entries :=
      match e with
      | .directory entries => entries
      | .file _ => []
    let inner := (e.child? name).getD (.directory [])
    let entered := (name, putDirectory names inner)
    if entries.any (·.1 == name) then
      .directory (entries.map fun (n, old) => if n == name then entered else (n, old))
    else .directory (entries ++ [entered])

/-- Takes away what stands under some names. -/
def remove : List String → Entry → Entry
  | [], e => e
  | _, .file bytes => .file bytes
  | [name], .directory entries => .directory (entries.filter (·.1 != name))
  | name :: names, .directory entries =>
    .directory (entries.map fun (n, e) => if n == name then (n, remove names e) else (n, e))

/-- Writes the file that a path leads to. -/
def write (root : Entry) (path : String) (bytes : List UInt8) : Except PathFault Entry := do
  let p ← root.locate path
  if p.entry.isDirectory then .error .isDirectory else return put bytes p.names root

mutual

/-- The files of a tree with their paths, seen from the directory `path`. -/
def files (path : List Char) : Entry → List (String × List UInt8)
  | .file bytes => [(String.ofList path, bytes)]
  | .directory entries => filesOfAll path entries

/-- The files of the entries of the directory `path`. -/
def filesOfAll (path : List Char) : List (String × Entry) → List (String × List UInt8)
  | [] => []
  | (name, e) :: es => files (join path name.toList) e ++ filesOfAll path es

end

/-- Entries in the order of their names. -/
def byName {α : Type} (entries : List (String × α)) : List (String × α) :=
  entries.mergeSort fun a b => decide (a.1 ≤ b.1)

/-- The paths of the files directly in a directory, by name. -/
def ownFiles (accept : String → Bool) (path : List Char) (entries : List (String × Entry)) :
    List String :=
  ((byName entries).filter fun (name, e) => !e.isDirectory && accept name).map fun (name, _) =>
    String.ofList (join path name.toList)

mutual

/-- The paths of the accepted files in the directory `path`: first its own and then those of its
directories that are not skipped, both by name. -/
def search (accept skip : String → Bool) (path : List Char) : Entry → List String
  | .file _ => []
  | .directory entries =>
    ownFiles accept path entries ++
      (byName (searchAll accept skip path entries)).flatMap Prod.snd

/-- The accepted files of each directory among the entries of the directory `path`. -/
def searchAll (accept skip : String → Bool) (path : List Char) :
    List (String × Entry) → List (String × List String)
  | [] => []
  | (name, e) :: es =>
    let rest := searchAll accept skip path es
    if e.isDirectory && !skip name then
      (name, search accept skip (join path name.toList) e) :: rest
    else rest

end

/-- The files of the second tree that are not in the first one with the same bytes. -/
def changedFiles (before after : Entry) : List (String × List UInt8) :=
  let old := before.files []
  (after.files []).filter fun (path, bytes) =>
    !old.any fun (p, bs) => p == path && bs == bytes

/-- A file that was entered can be read. -/
theorem child?_directory_cons_self (name : String) (e : Entry) (es : List (String × Entry)) :
    (Entry.directory ((name, e) :: es)).child? name = some e := by
  simp [child?]

end Entry

end MonoTap.Files
