/-!
# Paths

A path is its segments between slashes, all of them: an empty segment or a dot leads nowhere, but
it is kept, so that the path is written as it was given.
-/

namespace TerseMarkup

/-- A path as the segments between its slashes. -/
structure Path where
  segments : List String
  deriving DecidableEq, Repr

namespace Path

/-- The parts of a text between slashes. -/
def splitSlashes : List Char → List (List Char)
  | [] => [[]]
  | c :: text =>
    if c = '/' then [] :: splitSlashes text
    else
      match splitSlashes text with
      | [] => [[c]]
      | part :: parts => (c :: part) :: parts

/-- The path that a text names. -/
def ofText (text : String) : Path :=
  ⟨(splitSlashes text.toList).map String.ofList⟩

/-- The text of a path. -/
def toText (path : Path) : String :=
  "/".intercalate path.segments

/-- A segment that stays in its directory. -/
def stays (segment : String) : Bool :=
  segment == "" || segment == "."

/-- A path starts at the root of the file tree if it starts with a slash. -/
def isAbsolute (path : Path) : Bool :=
  match path.segments with
  | "" :: _ :: _ => true
  | _ => false

/-- The segments that tell paths apart: the one that says where the path starts, if it is empty
or a dot, and all that lead somewhere. -/
def components (path : Path) : List String :=
  path.segments.take 1 ++ (path.segments.drop 1).filter (!stays ·)

/-- The segments up to the last one that leads somewhere. -/
def trimmed (path : Path) : List String :=
  (path.segments.reverse.dropWhile stays).reverse

/-- The directory part and the file name of a path. A path that ends with a step up has no file
name. -/
def splitFileName? (path : Path) : Option (List String × String) :=
  match path.trimmed.getLast? with
  | none => none
  | some name => if name = ".." then none else some (path.trimmed.dropLast, name)

/-- The characters of a file name up to its last dot, and that dot. -/
def throughDot (name : String) : List Char :=
  (name.toList.reverse.dropWhile (· != '.')).reverse

/-- A file name without its extension, which is what follows the last dot, unless that dot is the
first character. -/
def stem (name : String) : String :=
  match (throughDot name).dropLast with
  | [] => name
  | before => String.ofList before

/-- A file name whose extension is empty, if it has one. -/
def clearExtension (name : String) : String :=
  match (throughDot name).dropLast with
  | [] => name
  | _ => String.ofList (throughDot name)

/-- A path whose last segment has lost its extension, but not the dot before it. What is left of a
name such as `..x` is a step up. -/
def cleared (path : Path) : Path :=
  ⟨path.segments.dropLast ++ path.segments.getLast?.toList.map clearExtension⟩

/-- Replace the extension of the file name, or add one. The old extension is cleared first, and a
path that has no file name then stays so.

This follows how extensions are replaced at run time, which departs from the documentation for
names such as `..x`. As documented, a new extension `html` would make it `..html`. But what is left
once the `x` is cleared counts as a step up, so the path is `..` and gets no extension. -/
def withExtension (path : Path) (extension : String) : Path :=
  match path.cleared.splitFileName? with
  | none => path.cleared
  | some (directory, name) => ⟨directory ++ [stem name ++ "." ++ extension]⟩

/-- Where the HTML of a file goes by default: beside it, under the extension `html`, or
`out.html` if that would be the file itself. A name that is two dots and an extension gives the
directory above instead, which no file can be written to. -/
def defaultOutput (input : Path) : Path :=
  let output := input.withExtension "html"
  if output.components = input.components then input.withExtension "out.html" else output

end Path
end TerseMarkup
