import MetricRelay.Toml.Scalar
/-!
The TOML 1.0 reader. Headers and dotted keys build a tree in which each table remembers how it came
about, because that decides what may still be added to it; the tree then becomes a value.
-/
namespace MetricRelay.Toml

/-- How a table came about. -/
inductive Origin where
  /-- On the way to a header or key further down. -/
  | implied
  /-- By a header of its own. -/
  | header
  /-- By a dotted key. -/
  | dotted
  deriving DecidableEq

inductive Item where
  | value (v : Toml)
  | table (origin : Origin) (entries : List (String × Item))
  /-- An array of tables, the last one first. -/
  | tables (last : List (String × Item)) (before : List (List (String × Item)))

abbrev Entries := List (String × Item)

namespace Entries

def get? (key : String) (entries : Entries) : Option Item :=
  (entries.find? (·.1 == key)).map (·.2)

/-- Put `item` under `key`, in place of what is there. -/
def put (key : String) (item : Item) (entries : Entries) : Entries :=
  if entries.any (·.1 == key) then
    entries.map fun (k, old) => if k == key then (k, item) else (k, old)
  else entries ++ [(key, item)]

end Entries

/-- Set a dotted key. Tables of headers of their own and finished values are closed to it. -/
def assign? (value : Item) : List String → Entries → Option Entries
  | [], _ => none
  | [key], entries =>
    match entries.get? key with
    | none => some (entries.put key value)
    | some _ => none
  | key :: keys, entries =>
    match entries.get? key with
    | none => (assign? value keys []).map fun sub => entries.put key (.table .dotted sub)
    | some (.table .header _) => none
    | some (.table origin sub) =>
      (assign? value keys sub).map fun sub => entries.put key (.table origin sub)
    | some _ => none

/-- Change the table that a path of keys leads to, going into the last table of an array. -/
def modifyAt? (f : Entries → Option Entries) : List String → Entries → Option Entries
  | [], entries => f entries
  | key :: keys, entries =>
    match entries.get? key with
    | none => (modifyAt? f keys []).map fun sub => entries.put key (.table .implied sub)
    | some (.table origin sub) =>
      (modifyAt? f keys sub).map fun sub => entries.put key (.table origin sub)
    | some (.tables last before) =>
      (modifyAt? f keys last).map fun sub => entries.put key (.tables sub before)
    | some (.value _) => none

/-- Open a table by its header: it must be new, or only implied so far. -/
def openTable? (key : String) (entries : Entries) : Option Entries :=
  match entries.get? key with
  | none => some (entries.put key (.table .header []))
  | some (.table .implied sub) => some (entries.put key (.table .header sub))
  | some _ => none

/-- Open the next table of an array of tables. -/
def openNext? (key : String) (entries : Entries) : Option Entries :=
  match entries.get? key with
  | none => some (entries.put key (.tables [] []))
  | some (.tables last before) => some (entries.put key (.tables [] (last :: before)))
  | some _ => none

mutual

def Item.toValue : Item → Toml
  | .value v => v
  | .table _ entries => .table (toEntries entries)
  | .tables last before => .array ((toTables before).reverse ++ [.table (toEntries last)])

def toEntries : List (String × Item) → List (String × Toml)
  | [] => []
  | (key, item) :: rest => (key, item.toValue) :: toEntries rest

def toTables : List (List (String × Item)) → List Toml
  | [] => []
  | t :: rest => .table (toEntries t) :: toTables rest

end

mutual

/-- A value at the start of the text. -/
def takeValue? (fuel : Nat) (cs : List Char) : Option (Toml × List Char) :=
  match fuel with
  | 0 => none
  | fuel + 1 =>
    match cs with
    | '"' :: _ | '\'' :: _ => (takeString? cs).map fun (s, rest) => (.string s, rest)
    | '[' :: rest =>
      (takeItems? fuel (skipGaps rest.length rest)).map fun (items, rest) => (.array items, rest)
    | '\x7b' :: rest =>
      match skipInline rest with
      | '\x7d' :: rest => some (.table [], rest)
      | rest =>
        (takeInline? fuel [] rest).map fun (entries, rest) => (.table (toEntries entries), rest)
    | _ => takeToken? cs

/-- The items of an array up to its closing bracket; a comma may follow the last one. -/
def takeItems? (fuel : Nat) (cs : List Char) : Option (List Toml × List Char) :=
  match fuel with
  | 0 => none
  | fuel + 1 =>
    match cs with
    | ']' :: rest => some ([], rest)
    | _ => do
      let (item, rest) ← takeValue? fuel cs
      match skipGaps rest.length rest with
      | ',' :: rest =>
        let (items, rest) ← takeItems? fuel (skipGaps rest.length rest)
        some (item :: items, rest)
      | ']' :: rest => some ([item], rest)
      | _ => none

/-- The pairs of an inline table up to its closing brace, all on one line. -/
def takeInline? (fuel : Nat) (entries : Entries) (cs : List Char) : Option (Entries × List Char) :=
  match fuel with
  | 0 => none
  | fuel + 1 => do
    let (key, rest) ← takeKey? cs.length cs
    let rest ← takeChar? '=' rest
    let (value, rest) ← takeValue? fuel (skipInline rest)
    let entries ← assign? (.value value) key entries
    match skipInline rest with
    | ',' :: rest => takeInline? fuel entries rest
    | '\x7d' :: rest => some (entries, rest)
    | _ => none

end

/-- What is left of a line after its expression must be a comment at most. -/
def endLine? (cs : List Char) : Option (List Char) :=
  match skipComment (skipInline cs) with
  | [] => some []
  | rest => takeNewline? rest

/-- The tree so far and the path of the table that keys go into. -/
structure Reading where
  root : Entries := []
  path : List String := []

def Reading.openHeader? (r : Reading) (key : List String)
    (f : String → Entries → Option Entries) : Option Reading := do
  let last ← key.getLast?
  let root ← modifyAt? (f last) key.dropLast r.root
  some ⟨root, key⟩

/-- One line, or one expression that spans lines, and what follows it. -/
def readExpression? (r : Reading) (cs : List Char) : Option (Reading × List Char) :=
  match skipInline cs with
  | '[' :: '[' :: rest => do
    let (key, rest) ← takeKey? rest.length rest
    let rest ← (takeChar? ']' rest).bind (takeChar? ']')
    let r ← r.openHeader? key openNext?
    some (r, rest)
  | '[' :: rest => do
    let (key, rest) ← takeKey? rest.length rest
    let rest ← takeChar? ']' rest
    let r ← r.openHeader? key openTable?
    some (r, rest)
  | [] => some (r, [])
  | c :: rest =>
    if c = '#' ∨ (takeNewline? (c :: rest)).isSome then some (r, c :: rest)
    else do
      let (key, rest) ← takeKey? (rest.length + 1) (c :: rest)
      let rest ← takeChar? '=' rest
      let (value, rest) ← takeValue? (2 * rest.length + 2) (skipInline rest)
      let root ← modifyAt? (assign? (.value value) key) r.path r.root
      some (⟨root, r.path⟩, rest)

/-- Read line after line; every line takes at least its end. -/
def readLines? : Nat → Reading → List Char → Option Reading
  | 0, _, _ => none
  | fuel + 1, r, cs =>
    match cs with
    | [] => some r
    | _ => do
      let (r, rest) ← readExpression? r cs
      let rest ← endLine? rest
      readLines? fuel r rest

/-- The entries of a whole text; a byte order mark in front is skipped. -/
def read? (cs : List Char) : Option (List (String × Toml)) :=
  let cs := match cs with
    | '\uFEFF' :: rest => rest
    | _ => cs
  (readLines? (cs.length + 1) {} cs).map fun r => toEntries r.root

end MetricRelay.Toml
