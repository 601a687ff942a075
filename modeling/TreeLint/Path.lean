import TreeLint.Text.Search

/-!
# Paths

A path is a text whose parts are separated by slashes. It is absolute when it begins with one.
-/

namespace TreeLint.Path

/-- Whether `path` does not depend on a directory to start from. -/
def isAbsolute (path : String) : Bool := path.toList.head? = some '/'

/-- `path`, when it is relative, taken from the directory `base`. -/
def join (base path : String) : String :=
  if isAbsolute path || base.isEmpty then path
  else if base.toList.getLast? = some '/' then base ++ path
  else base ++ "/" ++ path

/-- The absolute path through folders with the given `names`. -/
def absolute (names : List String) : String := "/" ++ "/".intercalate names

/-- The parts of `path` between slashes, without the empty ones. -/
def parts (path : String) : List String :=
  ((Text.splitOn '/' path.toList).filter (!·.isEmpty)).map String.ofList

/-- Whether `part` changes nothing in a path: between two slashes, or a lone dot. -/
def isIdle (part : List Char) : Bool := part.isEmpty || part == ['.']

/-- The directory that holds the last part of `path`. Parts that are `isIdle` are dropped at its
end; a path of one part has the empty directory. An empty path has none, nor has the top. -/
def directory? (path : String) : Option String :=
  match Text.splitOn '/' path.toList with
  | [] => none
  | first :: rest =>
    match rest.reverse.dropWhile isIdle with
    | [] => if first.isEmpty then none else some ""
    | _ :: above =>
      match (above.dropWhile isIdle).reverse with
      | [] => some (if first.isEmpty then "/" else String.ofList first)
      | above => some (String.ofList (['/'].intercalate (first :: above)))

/-- A path and at most `bound - 1` directories above it, innermost first. -/
def ancestorsWithin : (bound : Nat) → String → List String
  | 0, _ => []
  | bound + 1, path => path :: ((directory? path).map (ancestorsWithin bound)).getD []

/-- The `path` and the directories above it as far as its text tells, innermost first. Each is
shorter than the one before. -/
def ancestors (path : String) : List String := ancestorsWithin (path.length + 1) path

end TreeLint.Path
