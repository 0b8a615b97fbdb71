import MetricRelay.Text.Blank
/-!
Locations put together from parts. Two parts are joined with exactly one slash between them; a
second part of nothing but slashes adds nothing. Whether a location can be asked at all is for a
check to say.
-/
namespace MetricRelay.Url

/-- Whether a location can be asked, and if not, why. -/
abbrev Check := String → Except String Unit

def isSlash (c : Char) : Bool := c == '/'

def dropLeading (cs : List Char) : List Char := cs.dropWhile isSlash

def dropTrailing (cs : List Char) : List Char := Text.dropEndWhile isSlash cs

def joinChars (base path : List Char) : List Char :=
  match dropLeading path with
  | [] => base
  | c :: cs => dropTrailing base ++ '/' :: c :: cs

def join (base path : String) : String :=
  String.ofList (joinChars base.toList path.toList)

/-- `path` with a slash in front, unless it has one. -/
def rooted (path : String) : String :=
  match path.toList with
  | '/' :: _ => path
  | cs => String.ofList ('/' :: cs)

def withoutTrailingSlashes (s : String) : String := String.ofList (dropTrailing s.toList)

def withoutLeadingSlashes (s : String) : String := String.ofList (dropLeading s.toList)

end MetricRelay.Url
