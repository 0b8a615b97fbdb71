import MetricRelay.Text.Blank
import MetricRelay.Text.Lines
/-!
Paths of files as texts: joining a relative path to a directory, and the directory a path is in.
-/
namespace MetricRelay.FilePath

def isAbsolute (path : String) : Bool := path.toList.head? == some '/'

/-- `path` seen from `base`: an absolute path stands for itself, and an empty base adds nothing. -/
def join (base path : String) : String :=
  if isAbsolute path || base.isEmpty then path
  else if base.toList.getLast? = some '/' then base ++ path
  else base ++ "/" ++ path

/-- A part that names nothing: an empty one or a single point. -/
def isIdle (part : List Char) : Bool := part == [] || part == ['.']

def trimIdle (parts : List (List Char)) : List (List Char) :=
  (parts.reverse.dropWhile isIdle).reverse

def slashes (parts : List (List Char)) : List Char := List.intercalate ['/'] parts

/-- The start of a path that its parts cannot take away: the root, or a leading point. -/
def splitLead (cs : List Char) : List Char × List Char :=
  match cs with
  | '/' :: r => (['/'], r)
  | ['.'] => (['.'], [])
  | '.' :: '/' :: r => (['.'], '/' :: r)
  | _ => ([], cs)

/-- The directory that a path is in: all but its last part. The root and the empty path are in the
empty path. -/
def parent (path : String) : String :=
  let (lead, body) := splitLead path.toList
  match trimIdle (Text.splitOn '/' body) with
  | [] => ""
  | parts => String.ofList (lead ++ slashes (trimIdle parts.dropLast))

/-- The text after the last point of the last part, unless that part has no other point than its
first character. -/
def extension? (path : String) : Option String :=
  match (trimIdle (Text.splitOn '/' path.toList)).getLast? with
  | none => none
  | some name =>
    let ending := (name.reverse.takeWhile (· != '.')).reverse
    if name = ['.', '.'] ∨ ending.length = name.length ∨ ending.length + 1 = name.length then none
    else some (String.ofList ending)

end MetricRelay.FilePath
