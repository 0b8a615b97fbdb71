import MetricRelay.Fetch.Talk

/-!
# How a fetch talks to its source

A fetch without auth sends one request and ends with its answer, whenever that
comes. A fetch whose token is at hand sends its data request at once.
-/

namespace MetricRelay

def Talk.Pause.Ends {κ β : Type} (T : Talk κ → Prop) (A : β → Prop) : Talk.Pause κ β → Prop
  | .wait talk => T talk
  | .sleep _ talk => T talk
  | .done result => A result

namespace Talk

variable {κ β : Type} {d : Dialogue κ β} {R : Sources → Prop}

theorem Pause.Ends.imp {T T' : Talk κ → Prop} {A A' : β → Prop} {pause : Pause κ β}
    (h : pause.Ends T A) (htalk : ∀ talk, T talk → T' talk) (hresult : ∀ b, A b → A' b) :
    pause.Ends T' A' := by
  cases pause with
  | wait talk => exact htalk talk h
  | sleep time talk => exact htalk talk h
  | done result => exact hresult result h

theorem Pause.ends_of_forall {T : Talk κ → Prop} {A : β → Prop} (htalk : ∀ talk, T talk)
    (hresult : ∀ b, A b) (pause : Pause κ β) : pause.Ends T A := by
  cases pause with
  | wait talk => exact htalk talk
  | sleep time talk => exact htalk talk
  | done result => exact hresult result

theorem follow_sources (hsend : ∀ s protocol r, R s → R (Sources.send s protocol r).2)
    (protocol : Protocol) (now caller : Nat) {sources : Sources} (h : R sources) (fuel : Nat)
    (woken : List Nat) (step : Step κ β) :
    R (follow d protocol now caller sources fuel woken step).supply.sources := by
  induction fuel generalizing sources woken step with
  | zero => exact h
  | succ fuel ih =>
    rw [follow]
    dsimp only
    split
    · exact h
    · exact h
    · next request state _ =>
      have hnext := hsend sources protocol request h
      split
      · exact ih hnext _ _
      · exact hnext

/-- What all requests leave as it is, a turn of a talk leaves as it is. -/
theorem turn_sources (hsend : ∀ s protocol r, R s → R (Sources.send s protocol r).2)
    {supply : Supply} (h : R supply.sources) (now caller : Nat) (talk : Talk κ) :
    R (talk.turn d now caller supply).supply.sources := by
  unfold turn
  dsimp only
  split
  · exact follow_sources hsend _ now caller h _ _ _
  · split
    · exact h
    · exact follow_sources hsend _ now caller h _ _ _

end Talk

namespace FetchCall

variable {plan : FetchPlan} {now caller : Nat} {supply : Supply}

/-- A talk of a fetch without auth: not begun, or waiting for `answer`. -/
def Plain (protocol : Protocol) (answer : Answer) (talk : Talk FetchCall) : Prop :=
  talk.protocol = protocol ∧
    (talk.state = .fresh ∧ talk.coming = none ∨
      talk.state = .sentPlain ∧ ∃ due, talk.coming = some (due, answer))

theorem plain_fresh (protocol : Protocol) (answer : Answer) :
    Plain protocol answer { protocol, state := .fresh } :=
  ⟨rfl, Or.inl ⟨rfl, rfl⟩⟩

/-- The answer to the only request ends the talk. -/
theorem follow_sentPlain (protocol : Protocol) (sources : Sources) (slots : Token.Slots)
    (answer : Answer) (fuel : Nat) (woken : List Nat) :
    (Talk.follow (dialogue plan) protocol now caller sources (fuel + 1) woken
      ((dialogue plan).receive caller answer slots .sentPlain)).pause = .done answer := by
  rw [Talk.follow]
  rfl

/-- A plain talk stays plain until it ends with the answer to its request. -/
theorem plain_turn (hauth : plan.auth = none) {protocol : Protocol} {answer : Answer}
    (hsend : (supply.sources.send protocol plan.request).1.answer = answer)
    {talk : Talk FetchCall} (h : Plain protocol answer talk) :
    (talk.turn (dialogue plan) now caller supply).pause.Ends (Plain protocol answer)
      (· = answer) := by
  obtain ⟨own, state, coming⟩ := talk
  obtain ⟨rfl, ⟨rfl, rfl⟩ | ⟨rfl, due, rfl⟩⟩ := h
  · have hseek : (dialogue plan).resume caller supply.slots .fresh =
        { move := .send plan.request .sentPlain, slots := supply.slots } := by
      simp only [dialogue, resume, seek, hauth]
    simp only [Talk.turn, Talk.longest, hseek, Talk.follow]
    by_cases hdelay : (supply.sources.send own plan.request).1.delay = 0
    · rw [if_pos hdelay]
      exact hsend
    · rw [if_neg hdelay]
      exact ⟨rfl, Or.inr ⟨rfl, _, by rw [hsend]⟩⟩
  · simp only [Talk.turn]
    by_cases hdue : now < due
    · rw [if_pos hdue]
      exact ⟨rfl, Or.inr ⟨rfl, due, rfl⟩⟩
    · rw [if_neg hdue, Talk.longest, follow_sentPlain]
      rfl

/-- A fetch without auth whose request is answered at once is over in one turn. -/
theorem turn_plain (hauth : plan.auth = none) {protocol : Protocol}
    (hdelay : (supply.sources.send protocol plan.request).1.delay = 0) :
    (Talk.turn (dialogue plan) now caller supply { protocol, state := .fresh }).pause =
      .done (supply.sources.send protocol plan.request).1.answer := by
  have hseek : (dialogue plan).resume caller supply.slots .fresh =
      { move := .send plan.request .sentPlain, slots := supply.slots } := by
    simp only [dialogue, resume, seek, hauth]
  simp only [Talk.turn, Talk.longest, hseek, Talk.follow, if_pos hdelay]
  rfl

/-- A fetch whose token is at hand and whose data request gets a body at once is over in one
turn. -/
theorem turn_token {scope : AuthScope} {header token : String} {slot : Token.Slot}
    (hauth : plan.auth = some (scope, header)) (hslot : supply.slots.slot? scope = some slot)
    (htoken : slot.current = some token) {protocol : Protocol} {body : Text.Bytes}
    (hreply : (supply.sources.send protocol
      { plan.request with header := some ⟨header, token⟩ }).1 = ⟨.ok body, 0⟩) :
    (Talk.turn (dialogue plan) now caller supply { protocol, state := .fresh }).pause =
      .done (.ok body) := by
  have hseek : (dialogue plan).resume caller supply.slots .fresh =
      { move := sendData plan .first header token, slots := supply.slots.put slot } := by
    simp only [dialogue, resume, seek, hauth, hslot, Token.Slot.ask, htoken, follow]
  simp only [Talk.turn, Talk.longest, hseek, Talk.follow, sendData, hreply]
  rfl

end FetchCall
end MetricRelay
