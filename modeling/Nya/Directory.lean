/-!
# The working directory

The files that a command can see: a directory of files, without further directories in it. Of what
lies outside of it only the directories above are known, and nothing in them.
-/

namespace Nya

/-- Why a file cannot be opened or made. A fault without a name here has its wording with it. -/
inductive FileFault where
  | missing
  | noDevice
  | notDirectory
  | isDirectory
  | nameTooLong
  | other (message : String)
  deriving DecidableEq, Repr

/-- The wording of a fault. -/
def FileFault.message : FileFault → String
  | missing => "No such file or directory (os error 2)"
  | noDevice => "No such device (os error 19)"
  | notDirectory => "Not a directory (os error 20)"
  | isDirectory => "Is a directory (os error 21)"
  | nameTooLong => "File name too long (os error 36)"
  | other message => message

/-- The files of a directory, by name. -/
structure Directory where
  files : List (String × List UInt8) := []

/-- Where a path leads. -/
inductive Place where
  | here
  | outside
  | file (name : String)
  deriving DecidableEq, Repr

/-- The most bytes of a name. -/
def maxNameBytes : Nat := 255

/-- The most bytes of a path. -/
def maxPathBytes : Nat := 4095

namespace Directory

/-- The names of the files, sorted. -/
def names (d : Directory) : List String :=
  (d.files.map Prod.fst).mergeSort fun a b => a ≤ b

/-- Whether there is a file of that name. -/
def has (d : Directory) (name : String) : Bool := d.files.any fun f => f.1 == name

/-- The content of a file. -/
def content? (d : Directory) (name : String) : Option (List UInt8) := d.files.lookup name

/-- Makes a file empty, and makes it if there is none. -/
def clear (d : Directory) (name : String) : Directory :=
  ⟨(name, []) :: d.files.filter fun f => f.1 != name⟩

/-! ## Paths -/

/-- Where the steps of a path lead. -/
def walk (d : Directory) : Place → List String → Except FileFault Place
  | place, [] => .ok place
  | .file _, _ :: _ => .error .notDirectory
  | place, step :: steps =>
    if step = "" ∨ step = "." then d.walk place steps
    else if step = ".." then d.walk .outside steps
    else if maxNameBytes < step.utf8ByteSize then .error .nameTooLong
    else if place = .here ∧ d.has step then d.walk (.file step) steps
    else .error .missing

/-- Where a path begins. -/
def start (path : String) : Place := if path.startsWith "/" then .outside else .here

/-- Cuts characters at every slash. -/
def cutAtSlashes : List Char → List (List Char)
  | [] => [[]]
  | c :: cs =>
    if c = '/' then [] :: cutAtSlashes cs
    else
      match cutAtSlashes cs with
      | [] => [[c]]
      | step :: steps => (c :: step) :: steps

/-- The steps of a path. One that ends in a slash has an empty last step. -/
def steps (path : String) : List String := (cutAtSlashes path.toList).map String.ofList

/-- Finds the file or directory at a path. -/
def locate (d : Directory) (path : String) : Except FileFault Place :=
  if maxPathBytes < path.utf8ByteSize then .error .nameTooLong
  else d.walk (start path) (steps path)

/--
Makes an empty file at a path, in place of any file that is there. A path that ends in a slash can
only name a directory.
-/
def create (d : Directory) (path : String) : Except FileFault Directory :=
  let trimmed := (steps path).reverse.dropWhile (· = "")
  if maxPathBytes < path.utf8ByteSize then .error .nameTooLong
  else
    match trimmed with
    | [] => .error .isDirectory
    | last :: above =>
      match d.walk (start path) above.reverse with
      | .error e => .error e
      | .ok (.file _) => .error .notDirectory
      | .ok place =>
        if last = "." ∨ last = ".." ∨ trimmed.length < (steps path).length then
          .error .isDirectory
        else if maxNameBytes < last.utf8ByteSize then .error .nameTooLong
        else if place = .here then .ok (d.clear last)
        else .ok d

end Directory

/-! ## Names of files -/

/-- The last step of a path that is neither empty nor a dot. -/
def fileName? (path : String) : Option String :=
  match (Directory.steps path).reverse.find? fun step => step ≠ "" ∧ step ≠ "." with
  | some ".." => none
  | name => name

/-- What stands after the last dot of a name, if anything stands before that dot. -/
def extension? (path : String) : Option String :=
  (fileName? path).bind fun name =>
    match name.toList.reverse.span (· ≠ '.') with
    | (after, _ :: _ :: _) => some (String.ofList after.reverse)
    | _ => none

end Nya
