import RuleAlgebra.Failure
import RuleAlgebra.Text.Lines

/-!
Files by name. A path is read as parts between slashes; empty parts and single dots do not count. A
table of files stands for a working directory, and `Files.read` looks a path up in it.
-/

namespace RuleAlgebra

/-- A path: the slashes that it starts from, and the names after them. -/
structure FileName where
  root : String
  parts : List String
  deriving DecidableEq, Repr

namespace FileName

/-- Two slashes at the start are kept, more count as one. -/
def ofText (path : String) : FileName :=
  let slashes := (path.toList.takeWhile (· == '/')).length
  let root := if slashes = 0 then "" else if slashes = 2 then "//" else "/"
  ⟨root, (Text.splitOn '/' path).filter fun p => p != "" && p != "."⟩

def text (f : FileName) : String :=
  let path := f.root ++ "/".intercalate f.parts
  if path.isEmpty then "." else path

end FileName

abbrev Files := List (String × String)

namespace Files

def contentAt? (files : Files) (place : List String) : Option String :=
  (List.find? (fun (name, _) => (FileName.ofText name).parts == place) files).map (·.2)

def isDirectory (files : Files) (parts : List String) : Bool :=
  parts.isEmpty || files.any fun (name, _) =>
    let place := (FileName.ofText name).parts
    parts.length < place.length && parts.isPrefixOf place

/-- Follows the remaining parts of a path from a directory. Nothing is known about what is not below
the working directory, except that two dots lead to a directory. -/
def follow (files : Files) (shown : String) : Option (List String) → List String →
    Except FileFault String
  | _, [] => throw (.directory shown)
  | here, ".." :: rest =>
    follow files shown (here.bind fun d => if d.isEmpty then none else some d.dropLast) rest
  | none, _ :: _ => throw (.missing shown)
  | some d, p :: rest =>
    let place := d ++ [p]
    if isDirectory files place then follow files shown (some place) rest
    else
      match contentAt? files place with
      | none => throw (.missing shown)
      | some content => if rest.isEmpty then pure content else throw (.notDirectory shown)

def read (files : Files) (path : String) : Except FileFault String :=
  let f := FileName.ofText path
  follow files f.text (if f.root = "" then some [] else none) f.parts

end Files

end RuleAlgebra
