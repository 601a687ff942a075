import TreeLint.Disk
import TreeLint.Ignore.File

/-!
# Walking a folder

A walk lists the files below a folder, hidden ones included, and leaves out what ignore files say
to ignore. The files `.ignore`, `.gitignore` and `.git/info/exclude` count in every folder from the
top of the disk down to the file in question, and the nearest decides. If they disagree, they count
in this order, and the user's own ignore file comes last. What lies in an ignored folder is not
looked at.
-/

namespace TreeLint

/-- Which ignore files count in a walk. -/
structure WalkSettings where
  /-- Whether the files named `.gitignore` count. -/
  gitignore : Bool := true
  /-- The user's own ignore file, for paths that begin in the current folder. -/
  own : IgnoreFile := {}
  cwd : Place := []
  deriving Inhabited

/-- The text of a path with the given `parts`. -/
def Place.relative (parts : Place) : String := "/".intercalate parts

namespace WalkSettings

/-- The ignore files that may stand in a folder, each as the path that leads to it. The first kind
that decides counts. -/
def kinds (s : WalkSettings) : List Place :=
  [[".ignore"]] ++ (if s.gitignore then [[".gitignore"]] else []) ++ [[".git", "info", "exclude"]]

/-- The ignore file at `place`, an empty one if there is none. -/
def fileAt (disk : Disk) (place : Place) : IgnoreFile :=
  ((disk.file? place).map IgnoreFile.ofBytes).getD {}

/-- All folders above `place`, the nearest first, each with the rest of the path behind it. -/
def above (place : Place) : List (Place × Place) :=
  ((List.range place.length).map fun n => (place.take n, place.drop n)).reverse

/-- Whether the file or folder at `place` is ignored, apart from the folders above it. -/
def ignores (s : WalkSettings) (disk : Disk) (place : Place) (isFolder : Bool) : Bool :=
  let byKind (kind : Place) := (above place).findSome? fun (folder, rest) =>
    (fileAt disk (folder ++ kind)).keeps? (Place.relative rest) isFolder
  let beside := if s.cwd.isPrefixOf place then place.drop s.cwd.length else place
  let keep := (s.kinds.findSome? byKind).or (s.own.keeps? (Place.relative beside) isFolder)
  keep = some false

/-- Whether a walk from the folder `root` reaches the file to which `names` lead from there. -/
def reaches (s : WalkSettings) (disk : Disk) (root names : Place) : Bool :=
  (List.range names.length).all fun n =>
    !s.ignores disk (root ++ names.take (n + 1)) (n + 1 < names.length)

/-- Whether an ignore file in a folder above `root` has a line that cannot be read. -/
def isSpoiled (s : WalkSettings) (disk : Disk) (root : Place) : Bool :=
  (above root).any fun (folder, _) => s.kinds.any fun kind =>
    (fileAt disk (folder ++ kind)).isFaulty

/-- Lists the files below `root`, each by the names that lead to it from there. A walk from a file
lists that file alone. Fails when nothing stands at `root`, and when an ignore file above it cannot
be read. -/
def files? (s : WalkSettings) (disk : Disk) (root : Place) : Option (List Place) :=
  if disk.isFile root then some [[]]
  else if !disk.isFolder root || s.isSpoiled disk root then none
  else some <| disk.entries.filterMap fun (place, entry) =>
    match entry with
    | .folder => none
    | .file _ =>
      if root.isPrefixOf place && s.reaches disk root (place.drop root.length) then
        some (place.drop root.length)
      else none

end WalkSettings

end TreeLint
