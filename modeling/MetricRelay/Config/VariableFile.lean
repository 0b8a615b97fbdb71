import MetricRelay.Config.Variables
import MetricRelay.Text.Blank
import MetricRelay.Text.Utf8
/-!
Files of variables: one `NAME=value` per entry, with comments, two kinds of quotes that may span
lines, escapes, and values of other variables put in by `$NAME`. Entries before the first one that
is not well-formed count; nothing after it does.
-/
namespace MetricRelay.Config.VariableFile

/-! ## Cutting a text into entries -/

/-- Where in an entry a character stands. -/
inductive Place where
  | plain
  | escape
  /-- Right after a blank, where a hash starts a comment. -/
  | blank
  | quoted (quote : Char)
  | quotedEscape (quote : Char)
  deriving DecidableEq

def Place.next (place : Place) (c : Char) : Place :=
  let opened : Place :=
    if c = '\\' then .escape else if c = '"' ∨ c = '\'' then .quoted c else .plain
  match place with
  | .escape => .plain
  | .blank => opened
  | .plain => if Text.isBlank c && c != '\n' && c != '\r' then .blank else opened
  | .quoted q => if c = '\\' then .quotedEscape q else if c = q then .plain else place
  | .quotedEscape q => .quoted q

/-- A piece of text that ends a line, with its line feed if it has one, and the rest. -/
def takeLine : List Char → List Char × List Char
  | [] => ([], [])
  | '\n' :: cs => (['\n'], cs)
  | c :: cs =>
    let (line, rest) := takeLine cs
    (c :: line, rest)

/-- Walk through a line. `none` beside the text means that a comment starts after it. -/
def walk : Place → List Char → List Char × Option Place
  | place, [] => ([], some place)
  | place, c :: cs =>
    if place = .blank ∧ c = '#' then ([], none)
    else
      let (text, last) := walk (place.next c) cs
      (c :: text, last)

def dropLineEnd (cs : List Char) : List Char :=
  match cs.reverse with
  | '\n' :: '\r' :: r => r.reverse
  | '\n' :: r => r.reverse
  | _ => cs

/-- The next entry: as many lines as its quotes and escapes span. A line that starts with a hash is
an empty entry. `none` at a text that ends inside an entry. -/
def takeEntry? : Nat → Place → List Char → List Char → Option (List Char × List Char)
  | 0, _, _, _ => none
  | fuel + 1, place, before, cs =>
    match takeLine cs with
    | ([], _) => none
    | (line, rest) =>
      if (Text.trimStart (before ++ line)).head? = some '#' then some ([], rest)
      else
        match walk place line with
        | (text, none) => some (before ++ text, rest)
        | (text, some .plain) => some (dropLineEnd (before ++ text), rest)
        | (text, some place) => takeEntry? fuel place (before ++ text) rest

/-! ## Reading an entry -/

def isNameStart (c : Char) : Bool := c.isAlpha || c == '_'

def isNameChar (c : Char) : Bool := c.isAlphanum || c == '_' || c == '.'

def takeName? (cs : List Char) : Option (String × List Char) :=
  match cs with
  | c :: _ =>
    if isNameStart c then some (String.ofList (cs.takeWhile isNameChar), cs.dropWhile isNameChar)
    else none
  | [] => none

/-- The value of a variable while a file is read: a set one comes first, then one read before. -/
def value (vars : Variables) (seen : List (String × String)) (name : List Char) : List Char :=
  let name := String.ofList name
  (((vars.get? name).orElse fun _ => (seen.find? (·.1 == name)).map (·.2)).getD "").toList

/-- What a `$` has started. -/
inductive Naming where
  | none
  | bare (name : List Char)
  | braced (name : List Char)

/-- The state of reading a value: its text so far in reverse, the quotes it is in, and whether a
backslash stands before. -/
structure Reading where
  text : List Char := []
  naming : Naming := .none
  single : Bool := false
  double : Bool := false
  escaped : Bool := false
  /-- After the first blank outside quotes only blanks and a comment may follow. -/
  ended : Bool := false

def Reading.push (r : Reading) (cs : List Char) : Reading := { r with text := cs.reverse ++ r.text }

/-- The plain text of an escape. -/
def escape? (c : Char) : Option Char :=
  if c = 'n' then some '\n' else if "\\'\"$ ".toList.contains c then some c else none

/-- Read a character where no name is being read. -/
def Reading.plain? (r : Reading) (c : Char) : Option Reading :=
  if c = '$' then some { r with naming := .bare [] }
  else if r.double then
    if c = '"' then some { r with double := false }
    else if c = '\\' then some { r with escaped := true }
    else some (r.push [c])
  else if c = '\'' then some { r with single := true }
  else if c = '"' then some { r with double := true }
  else if c = '\\' then some { r with escaped := true }
  else if c = ' ' ∨ c = '\t' then some { r with ended := true }
  else some (r.push [c])

/-- Read a character; `lookup` gives the values of names. -/
def Reading.step? (lookup : List Char → List Char) (r : Reading) (c : Char) : Option Reading :=
  if r.escaped then (escape? c).map fun e => { r.push [e] with escaped := false }
  else if r.single then
    some (if c = '\'' then { r with single := false } else r.push [c])
  else
    match r.naming with
    | .none => r.plain? c
    | .bare name =>
      if c.isAlphanum then some { r with naming := .bare (name ++ [c]) }
      else if c = '\x7b' ∧ name.isEmpty then some { r with naming := .braced [] }
      else
        let r := r.push (lookup name)
        some (if c = '$' then { r with naming := .bare [] }
          else { r.push [c] with naming := .none })
    | .braced name =>
      some (if c = '\x7d' then { r.push (lookup name) with naming := .none }
        else { r with naming := .braced (name ++ [c]) })

/-- Read a value to the end of its entry or to the comment after it. -/
def readValue? (lookup : List Char → List Char) (r : Reading) : List Char → Option String
  | [] =>
    if r.single || r.double then none
    else
      match r.naming with
      | .braced _ => none
      | .bare name => some (String.ofList (r.push (lookup name)).text.reverse)
      | .none => some (String.ofList r.text.reverse)
  | c :: cs =>
    if r.ended then
      if c = ' ' ∨ c = '\t' then readValue? lookup r cs
      else if c = '#' then readValue? lookup r []
      else none
    else (r.step? lookup c).bind fun r => readValue? lookup r cs

def takeEquals? (cs : List Char) : Option (List Char) :=
  match cs with
  | '=' :: r => some r
  | _ => none

/-- The name of an entry and what follows its equals sign. The word `export` may stand in front. -/
def takeAssignment? (cs : List Char) : Option (String × List Char) := do
  let (name, rest) ← takeName? cs
  let rest := Text.trimStart rest
  match takeEquals? rest with
  | some rest => some (name, rest)
  | none =>
    if name = "export" then do
      let (name, rest) ← takeName? rest
      let rest ← takeEquals? (Text.trimStart rest)
      some (name, rest)
    else none

/-- An entry that is blank or a comment sets nothing. -/
def readEntry? (lookup : List Char → List Char) (entry : List Char) :
    Option (Option (String × String)) :=
  match Text.trim entry with
  | [] | '#' :: _ => some none
  | cs => do
    let (name, rest) ← takeAssignment? cs
    match Text.trimStart rest with
    | [] | '#' :: _ => some (some (name, ""))
    | rest => (readValue? lookup {} rest).map fun value => some (name, value)

/-- Offer entry after entry to the variables; every entry takes at least a character. -/
def readEntries : Nat → Variables → List (String × String) → List Char → Variables
  | 0, vars, _, _ => vars
  | fuel + 1, vars, seen, cs =>
    match takeEntry? (cs.length + 1) .plain [] cs with
    | none => vars
    | some (entry, rest) =>
      match readEntry? (value vars seen) entry with
      | none => vars
      | some none => readEntries fuel vars seen rest
      | some (some (name, text)) =>
        readEntries fuel (vars.offer name text) ((name, text) :: seen) rest

/-- The part of a text up to its last line feed. -/
def wholeLines (cs : List Char) : List Char := (cs.reverse.dropWhile (· != '\n')).reverse

/-- The text of the file; of one that is not UTF-8 only the lines before the fault count. -/
def text (content : Text.Bytes) : List Char :=
  let cs := match Text.Utf8.decode content with
    | .ok cs => cs
    | .error (.invalid _ i) | .error (.incomplete i) =>
      wholeLines (Text.Utf8.decodeLossy (content.take i))
  match cs with
  | '\uFEFF' :: r => r
  | _ => cs

/-- The variables together with those of a file; a variable that is set keeps its value. -/
def load (vars : Variables) (content : Text.Bytes) : Variables :=
  let cs := text content
  readEntries (cs.length + 1) vars [] cs

end MetricRelay.Config.VariableFile
