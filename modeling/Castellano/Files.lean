/-!
# Castellano.Files

Reading texts from files. What an analysis may read is given to it as a function from paths to
texts, so that the analysis itself stays a pure function. A `Folder` gives such a function for a
tree of directories that is held in memory: `Folder.find` follows the parts of a path, and
`Folder.read` says what a path as a whole must satisfy first.
-/

namespace Castellano

/-! ## Texts -/

/-- Why no text can be read at a path. -/
inductive ReadFailure where
  | notFound
  | isDirectory
  | notADirectory
  /-- The path, or a name in it, is longer than any file system takes. -/
  | nameTooLong
  /-- The path holds the character that ends paths. -/
  | zeroInPath
  | notText
  | other (cause : String)
  deriving DecidableEq

def ReadFailure.message : ReadFailure → String
  | notFound => "No such file or directory (os error 2)"
  | isDirectory => "Is a directory (os error 21)"
  | notADirectory => "Not a directory (os error 20)"
  | nameTooLong => "File name too long (os error 36)"
  | zeroInPath => "file name contained an unexpected NUL byte"
  | notText => "stream did not contain valid UTF-8"
  | other cause => cause

/-- What is read at each path. -/
abbrev Files := String → Except ReadFailure String

def textOf (bytes : ByteArray) : Except ReadFailure String :=
  match String.fromUTF8? bytes with
  | none => .error .notText
  | some text => .ok text

/-! ## Paths -/

/-- The parts of a path, which slashes divide. An absolute path begins with an empty part. -/
def pathParts (path : String) : List String := (path.toList.splitOn '/').map String.ofList

def isAbsolute (path : String) : Bool := path.toList.head? == some '/'

/-- The most bytes of UTF-8 that a name in a directory has. -/
def nameLimit : Nat := 255

/-- The most bytes of UTF-8 that a path has. -/
def pathLimit : Nat := 4095

/-! ## Directories -/

inductive Entry where
  | file (bytes : ByteArray)
  | directory (entries : List (String × Entry))

/-- A directory, seen from which paths are read. -/
structure Folder where
  entries : List (String × Entry)
  /-- The entries of the directories above it, of the nearest one first. -/
  above : List (List (String × Entry))

namespace Folder

def ofEntries (entries : List (String × Entry)) : Folder := ⟨entries, []⟩

def root (folder : Folder) : Folder :=
  match folder.above.getLast? with
  | none => folder
  | some entries => ofEntries entries

/-- The directory above. Above the root there is the root itself. -/
def parent (folder : Folder) : Folder :=
  match folder.above with
  | [] => folder
  | entries :: above => ⟨entries, above⟩

def child (folder : Folder) (entries : List (String × Entry)) : Folder :=
  ⟨entries, folder.entries :: folder.above⟩

/-- The file to which the parts of a path lead. Empty parts and `.` stay in the directory and `..`
leaves it. A file has nothing behind it, not even an empty part. -/
def find (folder : Folder) : List String → Except ReadFailure ByteArray
  | [] => .error .isDirectory
  | part :: parts =>
    if part = "" ∨ part = "." then folder.find parts
    else if part = ".." then folder.parent.find parts
    else if nameLimit < part.utf8ByteSize then .error .nameTooLong
    else
      match folder.entries.lookup part with
      | none => .error .notFound
      | some (.directory entries) => (folder.child entries).find parts
      | some (.file bytes) => if parts = [] then .ok bytes else .error .notADirectory

/-- Reads a file of the tree; no other file exists. A path that cannot be one at all is refused
before any directory is looked at. -/
def read (folder : Folder) : Files := fun path =>
  if path.toList.contains '\x00' then .error .zeroInPath
  else if path = "" then .error .notFound
  else if pathLimit < path.utf8ByteSize then .error .nameTooLong
  else
    match (if isAbsolute path then folder.root else folder).find (pathParts path) with
    | .error cause => .error cause
    | .ok bytes => textOf bytes

end Folder
end Castellano
