/-!
# FileTree — files by their paths

A tree of files as a program sees it from its working directory.  A directory is there if a file is in it.  Nothing is
known about what lies outside, except that the directories above are there.
-/
namespace Bibstyle

/-- **Why a file cannot be read or written.** -/
inductive FileFault where
  | notFound
  | notDirectory
  | isDirectory
  | nameTooLong
  | notText
  | other (text : String)
  deriving DecidableEq

/-- What the system says. -/
def FileFault.message : FileFault → String
  | notFound => "No such file or directory (os error 2)"
  | notDirectory => "Not a directory (os error 20)"
  | isDirectory => "Is a directory (os error 21)"
  | nameTooLong => "File name too long (os error 36)"
  | notText => "stream did not contain valid UTF-8"
  | other text => text

/-- **A path as the names between its slashes.** -/
abbrev Names := List String

/-- **The files of a tree.** -/
structure FileTree where
  files : List (Names × ByteArray)

namespace FileTree

/-- The names between the slashes of a path. -/
def names (path : String) : Names :=
  path.splitOn "/"

def ofList (files : List (String × ByteArray)) : FileTree :=
  ⟨files.map (fun f => (names f.1, f.2))⟩

/-- **Where a path leads.** -/
inductive Spot where
  | file (content : ByteArray)
  | directory (path : Names)
  | outside

/-- Whether a directory is there. -/
def hasDirectory (t : FileTree) (p : Names) : Bool :=
  t.files.any (fun f => p.isPrefixOf f.1 && p != f.1)

/-- What a directory has under a name. -/
def child (t : FileTree) (p : Names) (name : String) : Except FileFault Spot :=
  if 255 < name.utf8ByteSize then .error .nameTooLong
  else match t.files.lookup (p ++ [name]) with
    | some content => .ok (.file content)
    | none => if t.hasDirectory (p ++ [name]) then .ok (.directory (p ++ [name])) else .error .notFound

/-- Whether a name stays where it is. -/
def stays (name : String) : Bool :=
  name == "" || name == "."

/-- **Follows names from a spot.** -/
def walk (t : FileTree) : Spot → Names → Except FileFault Spot
  | spot, [] => .ok spot
  | .file _, _ :: _ => .error .notDirectory
  | .outside, n :: ns => if stays n || n == ".." then walk t .outside ns else .error .notFound
  | .directory p, n :: ns =>
    if stays n then walk t (.directory p) ns
    else if n == ".." then walk t (if p.isEmpty then .outside else .directory p.dropLast) ns
    else
      match t.child p n with
      | .error e => .error e
      | .ok spot => walk t spot ns

/-- Where a path starts. -/
def origin (path : String) : Spot :=
  if path.startsWith "/" then .outside else .directory []

/-- **Reads a file.** -/
def read (t : FileTree) (path : String) : Except FileFault ByteArray :=
  match t.walk (origin path) (names path) with
  | .error e => .error e
  | .ok (.file content) => .ok content
  | .ok (.directory _) | .ok .outside => .error .isDirectory

/-- A file put in the place of the one with its path, or at the end. -/
def put (p : Names) (content : ByteArray) : List (Names × ByteArray) → List (Names × ByteArray)
  | [] => [(p, content)]
  | f :: fs => if f.1 = p then (p, content) :: fs else f :: put p content fs

/-- **Writes a file**, new or in the place of an old one.  A path that ends in a slash or a dot names a directory. -/
def write (t : FileTree) (path : String) (content : ByteArray) : Except FileFault FileTree :=
  let bare := ((names path).reverse.dropWhile (· == "")).reverse
  match bare.getLast? with
  | none => .error .isDirectory
  | some name =>
    match t.walk (origin path) bare.dropLast with
    | .error e => .error e
    | .ok (.file _) => .error .notDirectory
    | .ok .outside => .error (if stays name || name == ".." then .isDirectory else .notFound)
    | .ok (.directory p) =>
      if stays name || name == ".." || bare != names path || t.hasDirectory (p ++ [name]) then .error .isDirectory
      else if 255 < name.utf8ByteSize then .error .nameTooLong
      else .ok ⟨put (p ++ [name]) content t.files⟩

end FileTree
end Bibstyle
