import TerseMarkup.Files.Path

/-!
# File trees

A tree of files and directories without links, and what a path finds in it. A workspace is a
tree with the directory in which relative paths start.
-/

namespace TerseMarkup

/-- Why a file could not be read or written. -/
inductive Fault where
  | notFound
  | notDirectory
  | isDirectory
  | nameTooLong
  | notUtf8
  /-- Any other reason, which a tree never gives. -/
  | other (reason : String)
  deriving DecidableEq, Repr

/-- The reason that a user sees. -/
def Fault.message : Fault → String
  | notFound => "No such file or directory (os error 2)"
  | notDirectory => "Not a directory (os error 20)"
  | isDirectory => "Is a directory (os error 21)"
  | nameTooLong => "File name too long (os error 36)"
  | notUtf8 => "stream did not contain valid UTF-8"
  | other reason => reason

/-- What stands at a place of a file tree. -/
inductive Entry where
  | file (contents : ByteArray)
  | directory

/-- What stands below the root of a file tree. A place is the list of names that lead to it. -/
structure FileTree where
  entries : List (List String × Entry)

namespace FileTree

/-- A tree with nothing in it. -/
def empty : FileTree := ⟨[]⟩

/-- What stands at a place. The root is a directory. -/
def find? (tree : FileTree) (place : List String) : Option Entry :=
  if place = [] then some .directory else tree.entries.lookup place

/-- Put an entry at a place, instead of the one there. -/
def put (tree : FileTree) (place : List String) (entry : Entry) : FileTree :=
  ⟨tree.entries.filter (·.1 != place) ++ [(place, entry)]⟩

/-- Put a directory at a place and at each place on the way to it, where nothing stands yet. -/
def makeDirectories (tree : FileTree) (place : List String) : FileTree :=
  (List.range (place.length + 1)).foldl (fun tree n ↦
    if (tree.find? (place.take n)).isSome then tree else tree.put (place.take n) .directory) tree

/-- The most bytes that a name may have. -/
def nameLimit : Nat := 255

/-- Follow one segment of a path from a place, which has to be a directory. -/
def step (tree : FileTree) (place : List String) (segment : String) :
    Except Fault (List String) :=
  match tree.find? place with
  | none => .error .notFound
  | some (.file _) => .error .notDirectory
  | some .directory =>
    if Path.stays segment then .ok place
    else if segment = ".." then .ok place.dropLast
    else if nameLimit < segment.utf8ByteSize then .error .nameTooLong
    else .ok (place ++ [segment])

/-- Follow the segments of a path from a place. Nothing need stand where the last one leads. -/
def walk (tree : FileTree) (place : List String) (segments : List String) :
    Except Fault (List String) :=
  segments.foldlM tree.step place

end FileTree

/-- A file tree with the directory in which relative paths start. -/
structure Workspace where
  tree : FileTree
  current : List String

namespace Workspace

/-- A workspace whose current directory holds nothing. -/
def empty (current : List String) : Workspace :=
  ⟨FileTree.empty.makeDirectories current, current⟩

/-- The place where a path starts. -/
def origin (w : Workspace) (path : Path) : List String :=
  if path.isAbsolute then [] else w.current

/-- The most bytes that the text of a path may have. -/
def pathLimit : Nat := 4095

/-- Follow segments of a path, which as a whole may not be too long. -/
def follow (w : Workspace) (path : Path) (segments : List String) : Except Fault (List String) :=
  if pathLimit < path.toText.utf8ByteSize then .error .nameTooLong
  else w.tree.walk (w.origin path) segments

/-- The bytes of the file that a path names. -/
def read (w : Workspace) (path : Path) : Except Fault ByteArray := do
  let place ← w.follow path path.segments
  match w.tree.find? place with
  | none => .error .notFound
  | some .directory => .error .isDirectory
  | some (.file contents) => .ok contents

/-- The text of the file that a path names. -/
def readText (w : Workspace) (path : Path) : Except Fault String := do
  match String.fromUTF8? (← w.read path) with
  | some text => .ok text
  | none => .error .notUtf8

/-- The segments before the slashes at the end of a path. -/
def beforeSlashes (path : Path) : List String :=
  (path.segments.reverse.dropWhile (· == "")).reverse

/-- Write the file that a path names, a new one or over one that is there. A path with a slash at
its end can only name a directory, if what stands before its last name is one. -/
def write (w : Workspace) (path : Path) (contents : ByteArray) : Except Fault Workspace := do
  if beforeSlashes path = path.segments then
    let place ← w.follow path path.segments
    match w.tree.find? place with
    | some .directory => .error .isDirectory
    | _ => .ok { w with tree := w.tree.put place (.file contents) }
  else
    let _ ← w.follow path ((beforeSlashes path).dropLast ++ ["."])
    .error .isDirectory

/-- Put an entry at a place below the current directory, with the directories on the way. -/
def add (w : Workspace) (place : List String) (entry : Entry) : Workspace :=
  let place := w.current ++ place
  { w with tree := (w.tree.makeDirectories place.dropLast).put place entry }

/-- What stands below the current directory, each directory before what it contains and names in
the order of their characters. -/
def listing (w : Workspace) : List (List String × Entry) :=
  let below := w.tree.entries.filterMap fun (place, entry) ↦
    if w.current.isPrefixOf place && place.length > w.current.length then
      some (place.drop w.current.length, entry)
    else none
  below.mergeSort fun a b ↦ !decide (b.1 < a.1)

end Workspace
end TerseMarkup
