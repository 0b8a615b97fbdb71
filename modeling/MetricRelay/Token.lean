import MetricRelay.Catalog
import MetricRelay.Fetch.Request
/-!
The tokens of the auth scopes. A scope has a slot for its current token. Who finds the slot empty
gets in line for the right to request a token, so at most one request of a scope is under way, and
looks again once it has that right.
-/
namespace MetricRelay

namespace Token

/-- Callers are known by numbers. -/
structure Slot where
  source : Catalog.ScopeEntry
  current : Option String := none
  /-- Who has the right to request a token. -/
  holder : Option Nat := none
  /-- Who waits for that right, in order. -/
  line : List Nat := []
  /-- How many requests have been made. -/
  requests : Nat := 0

/-- What a caller has to do. -/
inductive Need where
  | use (token : String)
  | request
  | wait
  deriving DecidableEq, Repr

namespace Slot

/-- A caller that needs a token looks into the slot. -/
def ask (s : Slot) (caller : Nat) : Need × Slot :=
  match s.current with
  | some token => (.use token, s)
  | none =>
    match s.holder with
    | none => (.request, { s with holder := some caller, requests := s.requests + 1 })
    | some _ => (.wait, { s with line := s.line ++ [caller] })

/-- The right goes to the first in line, who may go on. -/
def release (s : Slot) : List Nat × Slot :=
  match s.line with
  | [] => ([], { s with holder := none })
  | next :: rest => ([next], { s with holder := some next, line := rest })

/-- A caller from the line looks again. If it has the right, it uses a token that has come meanwhile
and passes the right on, or else requests one. -/
def resume (s : Slot) (caller : Nat) : Need × List Nat × Slot :=
  if s.holder = some caller then
    match s.current with
    | some token =>
      let (woken, s) := s.release
      (.use token, woken, s)
    | none => (.request, [], { s with requests := s.requests + 1 })
  else (.wait, [], s)

/-- The answer to the holder's request has come: a token is kept, and the right passed on. -/
def settle (s : Slot) (result : Except FetchError String) : List Nat × Slot :=
  let s := match result with
    | .ok token => { s with current := some token }
    | .error _ => s
  s.release

/-- Throw a token away, if it is still the current one. -/
def invalidate (s : Slot) (stale : String) : Slot :=
  if s.current = some stale then { s with current := none } else s

/-- A caller gives up: it passes the right on, or leaves the line. -/
def abandon (s : Slot) (caller : Nat) : List Nat × Slot :=
  if s.holder = some caller then s.release
  else ([], { s with line := s.line.filter (· != caller) })

end Slot

/-- The request for a token. -/
def request (source : Catalog.ScopeEntry) : Request := { method := "GET", url := source.url }

/-- The token in an answer: the text at the path of the source, which must not be empty. -/
def read (source : Catalog.ScopeEntry) (answer : Answer) : Except FetchError String :=
  let failed (reason : String) : FetchError := .auth source.url reason
  let path := source.table.tokenPath
  match answer with
  | .error e => .error (failed e.message)
  | .ok body =>
    match Node.ofJsonBody body with
    | .error e => .error (failed e.message)
    | .ok doc =>
      match (doc.lookup path).bind (·.string? path) with
      | .error e => .error (failed e.message)
      | .ok token =>
        if token.isEmpty then .error (failed s!"empty token at '{path}'") else .ok token

/-- The slots of all scopes. -/
abbrev Slots := List Slot

namespace Slots

def ofCatalog (c : Catalog) : Slots := c.scopes.map fun source => { source }

def slot? (slots : Slots) (scope : AuthScope) : Option Slot :=
  slots.find? (·.source.scope == scope)

def put (slots : Slots) (slot : Slot) : Slots :=
  slots.map fun s => if s.source.scope == slot.source.scope then slot else s

def invalidate (slots : Slots) (scope : AuthScope) (stale : String) : Slots :=
  match slot? slots scope with
  | some slot => put slots (slot.invalidate stale)
  | none => slots

/-- How many token requests a scope has made. -/
def requests (slots : Slots) (scope : AuthScope) : Nat :=
  ((slot? slots scope).map (·.requests)).getD 0

/-- A caller gives up on all slots. -/
def abandon (slots : Slots) (caller : Nat) : List Nat × Slots :=
  slots.foldr (fun s (woken, rest) =>
    let (w, s) := s.abandon caller
    (w ++ woken, s :: rest)) ([], [])

end Slots

/-- The written form of a scope in a message. -/
def scopeText (scope : AuthScope) : String :=
  let resource := match scope.resource with
    | none => "None"
    | some r => "Some(ResourceId(" ++ Number.text r.index ++ "))"
  "AuthScope \x7b service: ServiceId(" ++ Number.text scope.service.index ++ "), resource: "
    ++ resource ++ " \x7d"

/-- There is no slot for a scope. -/
def noSlot (scope : AuthScope) : FetchError := .auth "" ("no token slot for " ++ scopeText scope)

end Token
end MetricRelay
