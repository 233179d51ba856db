import LineBasic.Host.Path

/-!
# Files

What a host can read: files by their paths below the working directory, and directories. Looking a
path up goes through its parts one by one, so a path through something that is not there is not
there either, even if it comes back.

## Main definitions

* `FileTree` — the files and directories of a host
* `FileTree.read` — the text of a file
* `FileReader` — a way to read files
-/

namespace LineBasic

/-- The files of a host, and those of its directories that hold none. Paths are lists of parts. -/
structure FileTree where
  files : List (List Bytes × Bytes) := []
  directories : List (List Bytes) := []

namespace FileTree

/-- Why a file cannot be read. -/
inductive Refusal where
  | notFound
  | notDirectory
  | isDirectory
  | denied
deriving DecidableEq

/-- What is said of a file that cannot be read. -/
def Refusal.text (path : Bytes) : Refusal → Bytes
  | .notFound => utf8 "open " ++ path ++ utf8 ": no such file or directory"
  | .notDirectory => utf8 "open " ++ path ++ utf8 ": not a directory"
  | .isDirectory => utf8 "read " ++ path ++ utf8 ": is a directory"
  | .denied => utf8 "open " ++ path ++ utf8 ": permission denied"

/-- A tree of the given files. -/
def ofFiles (files : List (Bytes × Bytes)) (directories : List Bytes) : FileTree :=
  { files := files.map fun (path, text) => (Path.parts path, text)
    directories := directories.map Path.parts }

/-- Whether there is a directory at a path. -/
def isDirectory (t : FileTree) (path : List Bytes) : Bool :=
  path.isEmpty || t.directories.any (path.isPrefixOf ·)
    || t.files.any fun (p, _) => path.isPrefixOf p && path.length < p.length

/-- Goes from a path along further parts. -/
def walk (t : FileTree) : (path : List Bytes) → List Bytes → Except Refusal (List Bytes)
  | path, [] => .ok path
  | path, part :: rest =>
    if !t.isDirectory path then
      .error (if (t.files.lookup path).isSome then .notDirectory else .notFound)
    else if part.isEmpty || part == [Path.dot] then walk t path rest
    else if part == [Path.dot, Path.dot] then
      if path.isEmpty then .error .notFound else walk t path.dropLast rest
    else walk t (path ++ [part]) rest

/-- The text of a file. -/
def read (t : FileTree) (path : Bytes) : Except Refusal Bytes := do
  if path.isEmpty || path.head? == some Path.slash then throw .notFound
  let place ← t.walk [] (Path.parts path)
  match t.files.lookup place with
  | some text => return text
  | none => throw (if t.isDirectory place then .isDirectory else .notFound)

end FileTree

/-- A way to read files by their paths. -/
abbrev FileReader := Bytes → Except FileTree.Refusal Bytes

end LineBasic
