import MetricRelay.Token
/-!
Callers that talk to a source: one request after another, each sent only when the one before is
answered, with the token slots at hand between them.
-/
namespace MetricRelay

/-- What a caller does next. -/
inductive Move (κ β : Type) where
  /-- Send a request, and go on in this state when it is answered. -/
  | send (request : Request) (state : κ)
  /-- Wait until another caller lets it go on. -/
  | wait (state : κ)
  | done (result : β)

/-- A move, the slots after it, and the callers that may go on. -/
structure Step (κ β : Type) where
  move : Move κ β
  slots : Token.Slots
  woken : List Nat := []

/-- How a caller goes on, by its number and its state. -/
structure Dialogue (κ β : Type) where
  /-- Start, or go on after a wait. -/
  resume : Nat → Token.Slots → κ → Step κ β
  /-- Go on with the answer to the request that is under way. -/
  receive : Nat → Answer → Token.Slots → κ → Step κ β

/-- Where a caller for a token stands. -/
inductive TokenCall where
  | fresh
  /-- In line for the right to request a token. -/
  | inLine
  /-- Its request is under way. -/
  | obtaining
  deriving DecidableEq, Repr

namespace TokenCall

/-- Act on what a slot asks for. -/
def follow (slots : Token.Slots) (need : Token.Need) (woken : List Nat) (slot : Token.Slot) :
    Step TokenCall (Except FetchError String) where
  move := match need with
    | .use token => .done (.ok token)
    | .request => .send (Token.request slot.source) .obtaining
    | .wait => .wait .inLine
  slots := slots.put slot
  woken := woken

/-- The current token of a scope, requested when there is none. -/
def dialogue (scope : AuthScope) : Dialogue TokenCall (Except FetchError String) where
  resume caller slots call :=
    match slots.slot? scope with
    | none => { move := .done (.error (Token.noSlot scope)), slots }
    | some slot =>
      match call with
      | .fresh =>
        let (need, slot) := slot.ask caller
        follow slots need [] slot
      | .inLine =>
        let (need, woken, slot) := slot.resume caller
        follow slots need woken slot
      | .obtaining => { move := .wait call, slots }
  receive _ answer slots _ :=
    match slots.slot? scope with
    | none => { move := .done (.error (Token.noSlot scope)), slots }
    | some slot =>
      let result := Token.read slot.source answer
      let (woken, slot) := slot.settle result
      { move := .done result, slots := slots.put slot, woken }

end TokenCall
end MetricRelay
