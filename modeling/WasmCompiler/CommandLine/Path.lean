/-!
# Paths

A path is names between slashes, from the working directory on or, if it begins with a slash, from
the root. Among the names `.` stands for the directory that has been reached and `..` for the one
above it. The extension of the last name is what follows its last point, unless that point is the
first character.
-/

namespace WasmCompiler.CommandLine

/-! ### Names and extensions -/

/-- Splits the last name of a path off: what is before it, with the slash, and the name. -/
def splitName (path : List Char) : List Char × List Char :=
  let name := (path.reverse.takeWhile (· ≠ '/')).reverse
  (path.take (path.length - name.length), name)

/-- A name without its extension. -/
def stem (name : List Char) : List Char :=
  match name.reverse.dropWhile (· ≠ '.') with
  | _ :: before => if before.isEmpty then name else before.reverse
  | [] => name

/-- The path with another extension. The old extension is taken away and the new one is added; a
path that has no last name stays as it is, and so does what the first step leaves of a name such
as `..x`, because two points are no name. -/
def withExtension (path extension : String) : String :=
  let (parent, name) := splitName path.toList
  if name.isEmpty || name = ['.'] || name = ['.', '.'] then path
  else if stem name = ['.'] then String.ofList (parent ++ ['.', '.'])
  else String.ofList (parent ++ stem name) ++ "." ++ extension

/-! ### Places -/

/-- A directory that is there whatever files there are. -/
inductive Anchor where
  | root
  /-- The working directory, or the one so many levels above it. -/
  | above (levels : Nat)
deriving DecidableEq, Repr

/-- What a path leads to: the names of directories to go through from an anchor on, and the last
name. -/
structure Place where
  anchor : Anchor
  names : List String
deriving DecidableEq, Repr

namespace Place

/-- The root. -/
def root : Place := ⟨.root, []⟩

/-- The working directory. -/
def working : Place := ⟨.above 0, []⟩

/-- The directory above a place; the root is above itself. -/
def parent : Place → Place
  | ⟨.above levels, []⟩ => ⟨.above (levels + 1), []⟩
  | ⟨anchor, names⟩ => ⟨anchor, names.dropLast⟩

/-- What a name stands for at a place. -/
def child (p : Place) (name : String) : Place :=
  if name = "." then p
  else if name = ".." then p.parent
  else ⟨p.anchor, p.names ++ [name]⟩

end Place

/-- The names of a path. -/
def components (path : String) : List String :=
  (path.splitOn "/").filter (· ≠ "")

/-- Where a path begins. -/
def start (path : String) : Place :=
  if path.startsWith "/" then .root else .working

/-- Where a path leads if every directory on the way is there. -/
def place (path : String) : Place :=
  (components path).foldl Place.child (start path)

end WasmCompiler.CommandLine
