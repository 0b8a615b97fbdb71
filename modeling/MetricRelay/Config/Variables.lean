import MetricRelay.Keyed
import MetricRelay.Number.Real
import MetricRelay.Text.Lines
import MetricRelay.Toml.Value
/-!
Variables of the environment, and what they set. A variable whose name starts with the prefix, in
any case, sets the key that the rest of its name spells, with double underscores between the
levels.
-/
namespace MetricRelay.Config

/-- Names with their values, each name once. -/
abbrev Variables := List (String × String)

namespace Variables

def get? (name : String) (vars : Variables) : Option String :=
  (vars.find? (·.1 == name)).map (·.2)

/-- Set a variable unless it is set already. -/
def offer (vars : Variables) (name value : String) : Variables :=
  if (get? name vars).isSome then vars else vars ++ [(name, value)]

/-- The variable that names the main file. -/
def mainFile : String := "SCRAPEPROXY_CONFIG"

/-- What the name of every variable that sets a key starts with, in lower case. -/
def keyPrefix : List Char := "scrapeproxy__".toList

/-- The text without `start`, if it starts so. -/
def dropStart? (start cs : List Char) : Option (List Char) :=
  if start.isPrefixOf cs then some (cs.drop start.length) else none

/-- Each pair of underscores, from the left, becomes a point. -/
def levels : List Char → List Char
  | '_' :: '_' :: cs => '.' :: levels cs
  | c :: cs => c :: levels cs
  | [] => []

/-- A value as it is read from a variable: a boolean in any case, a whole number of 64 bits, a
number, or a text. -/
def scalar (text : String) : Toml :=
  match String.ofList (text.toList.map Char.toLower) with
  | "true" => .boolean true
  | "false" => .boolean false
  | _ =>
    match Number.readSigned? text.toList with
    | some n => .integer n
    | none =>
      match Number.read? text.toList with
      | some x => .float x
      | none => .string text

/-- The keys that the variables set, with their values. -/
def settings (vars : Variables) : List (String × Toml) :=
  Keyed.ofList (vars.filterMap fun (name, value) =>
    (dropStart? keyPrefix (name.toList.map Char.toLower)).map fun key =>
      (String.ofList (levels key), scalar value))

end Variables
end MetricRelay.Config
