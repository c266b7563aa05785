import Lox.Command.Place

/-!
# A directory of files

The files that a command works on, as a value: named byte strings in one working directory
without subdirectories. A path is walked one name at a time, from the working directory or, if
it starts with a slash, from the root; the first name that cannot be walked decides how the
path fails.
-/

namespace Lox

/-- Why a file cannot be used. -/
inductive FileFault where
  | notFound
  | notDirectory
  | isDirectory
  | nameTooLong
  | custom (message : String)
  deriving DecidableEq, Repr

namespace FileFault

def message : FileFault → String
  | notFound => "No such file or directory (os error 2)"
  | notDirectory => "Not a directory (os error 20)"
  | isDirectory => "Is a directory (os error 21)"
  | nameTooLong => "File name too long (os error 36)"
  | custom text => text

end FileFault

structure Directory where
  files : List (String × ByteArray) := []

namespace Directory

def names (d : Directory) : List String :=
  (d.files.map Prod.fst).mergeSort fun a b => a ≤ b

/-- What a place has under a name. -/
def entry? (d : Directory) (name : String) : Place → Option Place
  | .working => if (d.files.lookup name).isSome then some (.file name) else none
  | .system names => Place.systemEntry? names name
  | _ => none

def nameLimit : Nat := 255

/-- Whether a place cannot have a name because the name is too long. -/
def tooLong (place : Place) (name : String) : Bool :=
  !place.isGenerated && nameLimit < name.utf8ByteSize

/-- Look a name up in a place. A file has no names in it, a dot stays and two dots go up. -/
def step (d : Directory) (place : Place) (name : String) : Except FileFault Place :=
  if !place.isDirectory then .error .notDirectory
  else if name = "." then .ok place
  else if name = ".." then .ok place.parent
  else if tooLong place name then .error .nameTooLong
  else match d.entry? name place with
    | some next => .ok next
    | none => .error .notFound

def steps (path : String) : List String := (path.splitOn "/").filter (· != "")

/-- The number of bytes from which on a path is too long. -/
def pathLimit : Nat := 4096

/-- Walk names from the start of a path. -/
def walk (d : Directory) (path : String) (names : List String) : Except FileFault Place :=
  if path.isEmpty then .error .notFound
  else if pathLimit ≤ path.utf8ByteSize then .error .nameTooLong
  else names.foldlM d.step (if path.startsWith "/" then Place.root else .working)

/-- Where a path leads. A path that ends in a slash leads to a directory. -/
def locate (d : Directory) (path : String) : Except FileFault Place := do
  let place ← d.walk path (steps path)
  if path.endsWith "/" && !place.isDirectory then .error .notDirectory else .ok place

/-- The bytes that a path leads to, where `input` is typed. -/
def read (d : Directory) (input : ByteArray) (path : String) : Except FileFault ByteArray := do
  match ← d.locate path with
  | .file name => .ok ((d.files.lookup name).getD .empty)
  | .device .null => .ok .empty
  | .device .typed => .ok input
  | _ => .error .isDirectory

/-- Whether a name in a path can only be one of a directory. -/
def isDots (name : String) : Bool := name = "." || name = ".."

/-- Give a file the given bytes, whether or not it was there. Only the last name of the path
may be new, and no file can be made under a name with a slash behind it. What is made outside
the working directory is not kept. -/
def create (d : Directory) (path : String) (bytes : ByteArray) : Except FileFault Directory := do
  let parent ← d.walk path (steps path).dropLast
  match (steps path).getLast? with
  | none => .error .isDirectory
  | some name =>
    if !parent.isDirectory then .error .notDirectory
    else if isDots name || path.endsWith "/" then .error .isDirectory
    else if tooLong parent name then .error .nameTooLong
    else match parent, d.entry? name parent with
      | .working, _ => .ok ⟨(name, bytes) :: d.files.filter fun f => f.1 != name⟩
      | _, some place => if place.isDirectory then .error .isDirectory else .ok d
      | _, none => if parent.isGenerated then .error .notFound else .ok d

end Directory
end Lox
