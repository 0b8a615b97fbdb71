import MetricRelay.Fetch.Call
import MetricRelay.Fetch.Disk
import MetricRelay.Fetch.Network
/-!
Sources as callers meet them, and the talk of a caller with them over time: a request is answered at
once, or its caller sleeps until the answer arrives.
-/
namespace MetricRelay

/-- All sources together: scripted locations and files. -/
structure Sources where
  network : Network := {}
  files : FileAccess Id
  /-- Files over this size are not read. -/
  fileLimit : Nat

/-- Send a request to the source of a protocol. -/
def Sources.send (s : Sources) (protocol : Protocol) (r : Request) : Reply × Sources :=
  match protocol with
  | .file => ({ answer := Disk.fetch s.files s.fileLimit r.url }, s)
  | .http | .https =>
    let (reply, network) := s.network.request r
    (reply, { s with network })

/-- What callers share: the sources and the tokens. -/
structure Supply where
  sources : Sources
  slots : Token.Slots

/-- A caller in the middle of its talk: its state, and the answer under way with its time. -/
structure Talk (κ : Type) where
  protocol : Protocol
  state : κ
  coming : Option (Nat × Answer) := none

namespace Talk

/-- Where a talk stops for now. -/
inductive Pause (κ β : Type) where
  | wait (talk : Talk κ)
  | sleep (time : Nat) (talk : Talk κ)
  | done (result : β)

/-- A pause, what is shared then, and the callers that may go on. -/
structure Progress (κ β : Type) where
  pause : Pause κ β
  supply : Supply
  woken : List Nat

variable {κ β : Type}

/-- Follow a caller's moves until it stops. -/
def follow (d : Dialogue κ β) (protocol : Protocol) (now caller : Nat) (sources : Sources) :
    Nat → List Nat → Step κ β → Progress κ β
  | 0, woken, step => {
      pause := match step.move with
        | .send _ state | .wait state => .wait { protocol, state }
        | .done result => .done result
      supply := ⟨sources, step.slots⟩
      woken := woken ++ step.woken }
  | fuel + 1, woken, step =>
    let woken := woken ++ step.woken
    match step.move with
    | .done result => { pause := .done result, supply := ⟨sources, step.slots⟩, woken }
    | .wait state => { pause := .wait { protocol, state }, supply := ⟨sources, step.slots⟩, woken }
    | .send request state =>
      let (reply, sources) := sources.send protocol request
      if reply.delay = 0 then
        follow d protocol now caller sources fuel woken
          (d.receive caller reply.answer step.slots state)
      else
        let due := now + reply.delay
        { pause := .sleep due { protocol, state, coming := some (due, reply.answer) }
          supply := ⟨sources, step.slots⟩
          woken }

/-- More requests than any caller sends in a row. -/
def longest : Nat := 8

/-- Take a turn: start, go on after a wait, or go on with the answer if its time has come. -/
def turn (d : Dialogue κ β) (now caller : Nat) (supply : Supply) (t : Talk κ) : Progress κ β :=
  let go := follow d t.protocol now caller supply.sources longest []
  match t.coming with
  | none => go (d.resume caller supply.slots t.state)
  | some (due, answer) =>
    if now < due then { pause := .wait t, supply, woken := [] }
    else go (d.receive caller answer supply.slots t.state)

end Talk
end MetricRelay
