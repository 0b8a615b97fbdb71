import MetricRelay.FilePath
import MetricRelay.Text.Utf8
/-!
Files as a program meets them: what can go wrong, the operations that a reader of files needs, and a
directory tree that offers them. Nothing here depends on where the files are kept.
-/
namespace MetricRelay

/-- Why a file cannot be read. -/
inductive FileFault where
  | notFound
  | isDirectory
  /-- Something on the way to the file is a file itself. -/
  | notDirectory
  | nameTooLong
  /-- The path has a NUL character. -/
  | nulInPath
  /-- The content is not UTF-8. -/
  | notText
  /-- Any other fault, in the words of the system. -/
  | other (message : String)
  deriving DecidableEq, Repr

def FileFault.message : FileFault → String
  | .notFound => "No such file or directory (os error 2)"
  | .isDirectory => "Is a directory (os error 21)"
  | .notDirectory => "Not a directory (os error 20)"
  | .nameTooLong => "File name too long (os error 36)"
  | .nulInPath => "file name contained an unexpected NUL byte"
  | .notText => "stream did not contain valid UTF-8"
  | .other message => message

/-- What a path names. -/
inductive FileKind where
  | file (size : Nat)
  | directory
  deriving DecidableEq, Repr

/-- The operations that a reader of files needs. -/
structure FileAccess (m : Type → Type) where
  /-- The directory that relative paths start from. -/
  workingDirectory : m String
  kind : String → m (Except FileFault FileKind)
  read : String → m (Except FileFault Text.Bytes)

/-- A tree of files and directories. Each is known by the names on the way to it from the root, and
every directory on the way to an entry exists. -/
structure FileTree where
  files : List (List String × Text.Bytes) := []
  directories : List (List String) := []

namespace FileTree

/-- The names in a path. -/
def names (path : String) : List String :=
  (Text.splitOn '/' path.toList).map String.ofList

def content? (t : FileTree) (place : List String) : Option Text.Bytes :=
  (t.files.find? (·.1 == place)).map (·.2)

def isDirectory (t : FileTree) (place : List String) : Bool :=
  place.isEmpty || t.directories.any (place.isPrefixOf ·)
    || t.files.any fun (p, _) => place.isPrefixOf p && p != place

/-- Follow names from a place. A point stays, two points go up, and a name is only looked for in a
directory. -/
def follow (t : FileTree) : List String → List String → Except FileFault (List String)
  | place, [] => .ok place
  | place, name :: rest =>
    if !t.isDirectory place then
      .error (if (t.content? place).isSome then .notDirectory else .notFound)
    else if name = "" ∨ name = "." then follow t place rest
    else if name = ".." then follow t place.dropLast rest
    else if name.utf8ByteSize > 255 then .error .nameTooLong
    else follow t (place ++ [name]) rest

/-- The place of a path, seen from the directory `current`. -/
def place (t : FileTree) (current path : String) : Except FileFault (List String) :=
  if path.toList.contains '\x00' then .error .nulInPath
  else if path.isEmpty then .error .notFound
  else if path.utf8ByteSize > 4095 then .error .nameTooLong
  else t.follow [] (names (FilePath.join current path))

def kind (t : FileTree) (current path : String) : Except FileFault FileKind := do
  let place ← t.place current path
  match t.content? place with
  | some content => .ok (.file content.length)
  | none => if t.isDirectory place then .ok .directory else .error .notFound

def read (t : FileTree) (current path : String) : Except FileFault Text.Bytes := do
  let place ← t.place current path
  match t.content? place with
  | some content => .ok content
  | none => .error (if t.isDirectory place then .isDirectory else .notFound)

/-- The tree as seen from the directory `current`. -/
def access (t : FileTree) (current : String) : FileAccess Id where
  workingDirectory := current
  kind := t.kind current
  read := t.read current

/-- Put a file at a place, with the directories on the way to it. -/
def write (t : FileTree) (place : List String) (content : Text.Bytes) : FileTree :=
  { t with
    files := (place, content) :: t.files.filter (·.1 != place)
    directories := place.dropLast :: t.directories }

def makeDirectory (t : FileTree) (place : List String) : FileTree :=
  { t with directories := place :: t.directories }

/-- Take a file away; its directory stays. -/
def remove (t : FileTree) (place : List String) : FileTree :=
  { t with files := t.files.filter (·.1 != place) }

end FileTree
end MetricRelay
