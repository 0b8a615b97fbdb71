import MetricRelay.Fetch.Dialogue
/-!
Fetching the body of a resource. Without auth this is one request. With auth a token comes first,
and when the data request fails with a status that makes the token stale, a second token and a
second request follow, and never a third.
-/
namespace MetricRelay

/-- What a fetch needs to know beforehand. -/
structure FetchPlan where
  /-- The data request without its token. -/
  request : Request
  /-- The scope whose token the request needs, and the header that the token goes into. -/
  auth : Option (AuthScope × String)
  policy : RefreshPolicy

/-- The plan for a resource; files need no token. -/
def FetchPlan.ofResource (c : Catalog) (policy : RefreshPolicy) (s : Catalog.Service)
    (r : Catalog.Resource) : FetchPlan where
  request := { method := r.method, url := r.url }
  auth := if s.protocol.isHttp then (c.authFor? r.id).map fun (scope, t) => (scope, t.headerName)
    else none
  policy

/-- Which of its two tries a fetch is at. -/
inductive Attempt where
  | first | second
  deriving DecidableEq, Repr

/-- Where a fetch stands. -/
inductive FetchCall where
  | fresh
  /-- In line for the right to request a token. -/
  | inLine (attempt : Attempt)
  /-- Its token request is under way. -/
  | obtaining (attempt : Attempt)
  /-- Its data request is under way, with this token. -/
  | sent (attempt : Attempt) (token : String)
  /-- Its only request is under way, without a token. -/
  | sentPlain
  deriving DecidableEq, Repr

namespace FetchCall

abbrev FetchStep := Step FetchCall Answer

/-- Send the data request with a token. -/
def sendData (plan : FetchPlan) (attempt : Attempt) (header token : String) :
    Move FetchCall Answer :=
  .send { plan.request with header := some ⟨header, token⟩ } (.sent attempt token)

/-- Act on what a slot asks for. -/
def follow (plan : FetchPlan) (attempt : Attempt) (header : String) (slots : Token.Slots)
    (need : Token.Need) (woken : List Nat) (slot : Token.Slot) : FetchStep where
  move := match need with
    | .use token => sendData plan attempt header token
    | .request => .send (Token.request slot.source) (.obtaining attempt)
    | .wait => .wait (.inLine attempt)
  slots := slots.put slot
  woken := woken

/-- The slot of the scope that a plan needs, and the header. -/
def slotOf? (plan : FetchPlan) (slots : Token.Slots) : Option (String × Token.Slot) :=
  plan.auth.bind fun (scope, header) => (slots.slot? scope).map fun slot => (header, slot)

/-- Send the only request, or look for a token first. -/
def seek (plan : FetchPlan) (attempt : Attempt) (caller : Nat) (slots : Token.Slots) : FetchStep :=
  match plan.auth with
  | none => { move := .send plan.request .sentPlain, slots }
  | some (scope, header) =>
    match slots.slot? scope with
    | none => { move := .done (.error (Token.noSlot scope)), slots }
    | some slot =>
      let (need, slot) := slot.ask caller
      follow plan attempt header slots need [] slot

/-- Start, or go on after a wait in line. -/
def resume (plan : FetchPlan) (caller : Nat) (slots : Token.Slots) : FetchCall → FetchStep
  | .fresh => seek plan .first caller slots
  | .inLine attempt =>
    match slotOf? plan slots with
    | none => { move := .wait (.inLine attempt), slots }
    | some (header, slot) =>
      let (need, woken, slot) := slot.resume caller
      follow plan attempt header slots need woken slot
  | call => { move := .wait call, slots }

/-- The token request has been answered. -/
def obtained (plan : FetchPlan) (attempt : Attempt) (answer : Answer) (slots : Token.Slots) :
    FetchStep :=
  match slotOf? plan slots with
  | none => { move := .done answer, slots }
  | some (header, slot) =>
    let result := Token.read slot.source answer
    let (woken, slot) := slot.settle result
    { move := match result with
        | .ok token => sendData plan attempt header token
        | .error e => .done (.error e)
      slots := slots.put slot
      woken }

/-- The data request has been answered. A stale token is thrown away before the second try. -/
def answered (plan : FetchPlan) (attempt : Attempt) (token : String) (caller : Nat)
    (answer : Answer) (slots : Token.Slots) : FetchStep :=
  match attempt, answer, plan.auth with
  | .first, .error (.status _ status), some (scope, _) =>
    if plan.policy.refreshes status then
      seek plan .second caller (slots.invalidate scope token)
    else { move := .done answer, slots }
  | _, _, _ => { move := .done answer, slots }

/-- Go on with the answer to the request that is under way. -/
def receive (plan : FetchPlan) (caller : Nat) (answer : Answer) (slots : Token.Slots) :
    FetchCall → FetchStep
  | .obtaining attempt => obtained plan attempt answer slots
  | .sent attempt token => answered plan attempt token caller answer slots
  | .sentPlain => { move := .done answer, slots }
  | call => { move := .wait call, slots }

def dialogue (plan : FetchPlan) : Dialogue FetchCall Answer where
  resume := resume plan
  receive := receive plan

end FetchCall
end MetricRelay
