import TreeLint.Path

/-!
# Files

A disk is a finite set of files and folders, each under the list of names that leads to it from
the top. Folders above a file need not be listed.

- `Disk.resolve?` follows a path: every folder passed on the way must exist.
- `Disk.readText?` and `Disk.write?` read and write one file; `Disk.changes` compares two disks.
-/

namespace TreeLint

/-- The names that lead from the top to a file or folder. -/
abbrev Place := List String

/-- Whether a place comes before another or is the same. Names are compared one by one, and a folder
comes before what lies in it. -/
def Place.atMost : Place → Place → Bool
  | [], _ => true
  | _ :: _, [] => false
  | a :: p, b :: q => if a = b then atMost p q else a < b

/-- What stands at a place. -/
inductive DiskEntry where
  | folder
  | file (content : ByteArray)
  deriving Inhabited

/-- The files and folders of a machine. -/
structure Disk where
  entries : List (Place × DiskEntry) := []
  deriving Inhabited

namespace Disk

/-- The content of the file at `place`. -/
def file? (disk : Disk) (place : Place) : Option ByteArray :=
  match disk.entries.lookup place with
  | some (.file content) => some content
  | _ => none

/-- Whether a file stands at `place`. -/
def isFile (disk : Disk) (place : Place) : Bool := (disk.file? place).isSome

/-- Whether `place` is a folder: the top, a listed folder, or above something listed. -/
def isFolder (disk : Disk) (place : Place) : Bool :=
  place.isEmpty || disk.entries.any fun (other, entry) =>
    (other != place && place.isPrefixOf other)
      || (other == place && match entry with | .folder => true | .file _ => false)

/-- Whether anything stands at `place`. -/
def contains (disk : Disk) (place : Place) : Bool := disk.isFile place || disk.isFolder place

/-- One step along a path, from `here` by `part`. Only a folder can be left, and the top has nothing
above it. -/
def step? (disk : Disk) (here : Place) (part : List Char) : Option Place :=
  if part.isEmpty then some here
  else if !disk.isFolder here then none
  else if part == ['.'] then some here
  else if part == ['.', '.'] then some here.dropLast
  else some (here ++ [String.ofList part])

/-- The place to which a path leads from the folder `cwd`; none when a folder on the way is
missing. The last part need not exist. A path that ends in a slash leads to a folder. -/
def resolve? (disk : Disk) (cwd : Place) (path : String) : Option Place :=
  let parts := Text.splitOn '/' path.toList
  let start := if Path.isAbsolute path then [] else cwd
  if path.isEmpty then none
  else
    match parts.foldlM (step? disk) start with
    | some place =>
      if parts.getLast? = some [] && !disk.isFolder place then none else some place
    | none => none

/-- Whether `path` leads from the folder `cwd` to a file. -/
def isFileAt (disk : Disk) (cwd : Place) (path : String) : Bool :=
  ((disk.resolve? cwd path).map disk.isFile).getD false

/-- The content of the file at `path`, if it is text in UTF-8. -/
def readText? (disk : Disk) (cwd : Place) (path : String) : Option String := do
  let place ← disk.resolve? cwd path
  let content ← disk.file? place
  String.fromUTF8? content

/-- Puts `content` into the file at a place. -/
def put (disk : Disk) (place : Place) (content : ByteArray) : Disk :=
  ⟨set disk.entries⟩
where
  /-- Replaces the entry at the place, or adds one. -/
  set : List (Place × DiskEntry) → List (Place × DiskEntry)
    | [] => [(place, .file content)]
    | (other, entry) :: rest =>
      if other = place then (place, .file content) :: rest else (other, entry) :: set rest

/-- Writes `text` to the file at `path`; `none` when `path` leads to a folder or through something
that is none. -/
def write? (disk : Disk) (cwd : Place) (path text : String) : Option Disk := do
  let place ← disk.resolve? cwd path
  if disk.isFolder place || !disk.isFolder place.dropLast then none
  else some (disk.put place text.toUTF8)

/-- The files of `disk` that `before` does not have with the same content. -/
def changes (before disk : Disk) : List (Place × ByteArray) :=
  disk.entries.filterMap fun (place, entry) =>
    match entry with
    | .folder => none
    | .file content =>
      if (before.file? place).map ByteArray.data = some content.data then none
      else some (place, content)

end Disk

end TreeLint
