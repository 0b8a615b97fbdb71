import MetricRelay.Proofs.Token.Slots

/-!
# The turns of calls on one auth scope

A call that is alone on the processor goes on until it has to wait. Whatever its
dialogue does in such a turn is a row of moves of that call on the slot of its
scope. They send what the turn sends, take the answer that it is given and no
other, and wake whoever gets the right to request. So whatever order the turns
of many calls have, what they come to is what some run of moves comes to.
-/

namespace MetricRelay.Token

open TokenCall (dialogue follow)

def Move.caller? : Move → Option Nat
  | .look n | .lock n | .resume n | .answer n _ | .store n _ => some n
  | .invalidate _ => none

def Move.answer? : Move → Option Answer
  | .answer _ got => some got
  | _ => none

/-- The requests at the end of a turn. -/
def sent : MetricRelay.Move TokenCall (Except FetchError String) → List Request
  | .send request _ => [request]
  | .wait _ | .done _ => []

namespace Stage

def ofCall : TokenCall → Stage
  | .fresh => .fresh
  | .inLine => .inLine
  | .obtaining => .requesting

def ofMove : MetricRelay.Move TokenCall (Except FetchError String) → Stage
  | .send _ call | .wait call => .ofCall call
  | .done result => .done result

end Stage

variable {source : Catalog.ScopeEntry} {moves more : List Move} {t t' : Traffic}
  {scope : AuthScope} {slots : Slots} {slot new : Slot} {need : Need} {woken : List Nat}
  {caller : Nat} {answers : List Answer}
  {turn : MetricRelay.Step TokenCall (Except FetchError String)}

/-- Whoever gets the right to request from a call is let go on, and nobody else. -/
def Slot.Wakes (before : Slot) (caller : Nat) (woken : List Nat) (after : Slot) : Prop :=
  ∀ n, n ∈ woken ↔ n ≠ caller ∧ before.holder ≠ some n ∧ after.holder = some n

/-- Some more moves of a run come to the same as a turn of the dialogue of one call. The call does
not stop before it has to. -/
structure ComesTo (source : Catalog.ScopeEntry) (moves : List Move) (t : Traffic) (caller : Nat)
    (slots : Slots) (answers : List Answer)
    (turn : MetricRelay.Step TokenCall (Except FetchError String)) (more : List Move)
    (t' : Traffic) : Prop where
  run : Run source (moves ++ more) t'
  own : ∀ m ∈ more, m.caller? = some caller
  calls : t'.calls = Function.update t.calls caller (.ofMove turn.move)
  slots : turn.slots = slots.put t'.slot
  answers : more.filterMap Move.answer? = answers
  sent : ∀ request ∈ sent turn.move, request = Token.request source
  requests : t'.slot.requests = t.slot.requests + (Token.sent turn.move).length
  wakes : t.slot.Wakes caller turn.woken t'.slot
  held : ∀ call, turn.move = .wait call → t'.slot.holder ≠ some caller

/-! ### The slot and its word -/

/-- How a slot stands after its word to a call. -/
structure Slot.Tells (before : Slot) (caller : Nat) (need : Need) (woken : List Nat)
    (after : Slot) : Prop where
  source : after.source = before.source
  requests : after.requests = before.requests + if need = .request then 1 else 0
  wakes : before.Wakes caller woken after
  held : need = .wait → after.holder ≠ some caller

namespace Slot

theorem wakes_self (s : Slot) (caller : Nat) : s.Wakes caller [] s :=
  fun _ => iff_of_false List.not_mem_nil fun hnext => hnext.2.1 hnext.2.2

/-- Who passes the right on wakes the next in line, who has not had it before. -/
theorem wakes_release (hnodup : slot.queue.Nodup) (hholder : slot.holder = some caller) :
    slot.Wakes caller slot.release.1 slot.release.2 := by
  intro n
  rw [mem_release]
  refine ⟨fun hnext => ?_, fun hnext => hnext.2.2⟩
  have hline : n ∈ slot.line := by
    rw [← release_queue, queue, hnext]
    exact List.mem_cons_self
  rw [queue, hholder, Option.toList_some, List.singleton_append, List.nodup_cons] at hnodup
  have hne : n ≠ caller := by
    rintro rfl
    exact hnodup.1 hline
  exact ⟨hne, fun hsame => hne (Option.some.inj (hsame.symm.trans hholder)), hnext⟩

theorem wakes_settle (hnodup : slot.queue.Nodup) (hholder : slot.holder = some caller)
    (result : Except FetchError String) :
    slot.Wakes caller (slot.settle result).1 (slot.settle result).2 := by
  cases result with
  | error e => exact wakes_release hnodup hholder
  | ok token => exact @wakes_release { slot with current := some token } caller hnodup hholder

theorem tells_ask (hnew : slot.holder ≠ some caller) :
    slot.Tells caller (slot.ask caller).1 [] (slot.ask caller).2 := by
  cases hcurrent : slot.current with
  | some token =>
    rw [ask_of_some hcurrent]
    exact ⟨rfl, rfl, slot.wakes_self caller, by rintro ⟨⟩⟩
  | none =>
    cases hholder : slot.holder with
    | none =>
      simp only [ask, hcurrent, hholder]
      refine ⟨rfl, rfl, fun n => ?_, by rintro ⟨⟩⟩
      exact iff_of_false List.not_mem_nil fun hnext => hnext.1 (Option.some.inj hnext.2.2).symm
    | some other =>
      simp only [ask, hcurrent, hholder]
      refine ⟨rfl, rfl, fun n => ?_, fun _ => hholder ▸ hnew⟩
      exact iff_of_false List.not_mem_nil fun hnext => hnext.2.1 (hholder.trans hnext.2.2)

theorem tells_resume (hnodup : slot.queue.Nodup) :
    slot.Tells caller (slot.resume caller).1 (slot.resume caller).2.1
      (slot.resume caller).2.2 := by
  obtain ⟨hholder, heq⟩ | ⟨token, hholder, -, heq⟩ | ⟨-, -, heq⟩ := slot.resume_cases caller
  · rw [heq]
    exact ⟨rfl, rfl, slot.wakes_self caller, fun _ => hholder⟩
  · rw [heq]
    exact ⟨slot.release_source, slot.release_requests, wakes_release hnodup hholder,
      by rintro ⟨⟩⟩
  · rw [heq]
    exact ⟨rfl, rfl, slot.wakes_self caller, by rintro ⟨⟩⟩

end Slot

/-! ### Turns of one call -/

/-- A call acts on the word of the slot. -/
theorem comesTo_follow (htells : t.slot.Tells caller need woken new)
    (hsource : t.slot.source = source)
    (hrun : Run source (moves ++ more) (t.put new caller need.stage))
    (hown : ∀ m ∈ more, m.caller? = some caller) (hanswers : more.filterMap Move.answer? = []) :
    ComesTo source moves t caller slots [] (follow slots need woken new) more
      (t.put new caller need.stage) where
  run := hrun
  own := hown
  calls := by cases need <;> rfl
  slots := rfl
  answers := hanswers
  sent := by
    have hnew := htells.source.trans hsource
    cases need <;> simp [follow, sent, hnew]
  requests := by
    refine htells.requests.trans ?_
    cases need <;> rfl
  wakes := htells.wakes
  held := by
    intro call hwait
    refine htells.held ?_
    cases need with
    | wait => rfl
    | use token => cases hwait
    | request => cases hwait

/-- A call starts: it looks, and where the slot is empty it gets in line and looks again. -/
theorem Run.turn_fresh (h : Run source moves t) (hfound : slots.slot? scope = some t.slot)
    (hstage : t.calls caller = .fresh) :
    ∃ more t', ComesTo source moves t caller slots []
      ((dialogue scope).resume caller slots .fresh) more t' := by
  -- Who has not looked yet has no place in the queue.
  have hnew : t.slot.holder ≠ some caller := by
    intro hholder
    have hqueued := h.orderly.queued caller (by simp [Slot.queue, hholder])
    rw [hstage] at hqueued
    rcases hqueued with hinLine | hbusy
    · cases hinLine
    · cases hbusy
  simp only [dialogue, hfound]
  suffices hmore : ∃ more, Run source (moves ++ more)
      (t.put (t.slot.ask caller).2 caller (t.slot.ask caller).1.stage) ∧
      (∀ m ∈ more, m.caller? = some caller) ∧ more.filterMap Move.answer? = [] by
    obtain ⟨more, hrun, hown, hanswers⟩ := hmore
    exact ⟨more, _, comesTo_follow (Slot.tells_ask hnew) h.traced.origin hrun hown hanswers⟩
  cases hcurrent : t.slot.current with
  | some token =>
    rw [Slot.ask_of_some hcurrent]
    exact ⟨[.look caller], h.step (.hit caller hstage hcurrent), by simp [Move.caller?], rfl⟩
  | none =>
    rw [Slot.ask_of_none hcurrent hnew]
    have hmissed := h.step (.miss caller hstage hcurrent)
    have hlocked := hmissed.step (.lock caller (Traffic.put_self ..))
    have hresumed := hlocked.step (.resume caller (Traffic.put_self ..))
    refine ⟨[.look caller, .lock caller, .resume caller], ?_, by simp [Move.caller?], rfl⟩
    simpa [Traffic.put, List.append_assoc] using hresumed

/-- A call goes on that waited in line. -/
theorem Run.turn_inLine (h : Run source moves t) (hfound : slots.slot? scope = some t.slot)
    (hstage : t.calls caller = .inLine) :
    ∃ more t', ComesTo source moves t caller slots []
      ((dialogue scope).resume caller slots .inLine) more t' := by
  simp only [dialogue, hfound]
  exact ⟨[.resume caller], _, comesTo_follow (Slot.tells_resume h.orderly.nodup) h.traced.origin
    (h.step (.resume caller hstage)) (by simp [Move.caller?]) rfl⟩

/-- A call goes on with the answer to its request. -/
theorem Run.turn_obtaining (h : Run source moves t) (hfound : slots.slot? scope = some t.slot)
    (hstage : t.calls caller = .requesting) (answer : Answer) :
    ∃ more t', ComesTo source moves t caller slots [answer]
      ((dialogue scope).receive caller answer slots .obtaining) more t' := by
  have hholder : t.slot.holder = some caller := h.orderly.right caller (hstage ▸ .requesting)
  have hwakes := Slot.wakes_settle h.orderly.nodup hholder
  simp only [dialogue, hfound]
  cases hread : Token.read t.slot.source answer with
  | error e =>
    exact ⟨[.answer caller answer], _, {
      run := h.step (.refuse caller hstage hread)
      own := by simp [Move.caller?]
      calls := rfl
      slots := rfl
      answers := rfl
      sent := by rintro _ ⟨⟩
      requests := t.slot.settle_requests _
      wakes := hwakes _
      held := by rintro _ ⟨⟩ }⟩
  | ok token =>
    have hissued := h.step (.issue caller hstage hread)
    have hstored := hissued.step (.store caller (Traffic.put_self ..))
    exact ⟨[.answer caller answer, .store caller token], _, {
      run := by simpa [List.append_assoc] using hstored
      own := by simp [Move.caller?]
      calls := Function.update_idem ..
      slots := rfl
      answers := rfl
      sent := by rintro _ ⟨⟩
      requests := t.slot.settle_requests _
      wakes := hwakes _
      held := by rintro _ ⟨⟩ }⟩

/-- Whatever a call does in a turn of its dialogue, it does in moves: where no request is under way
it goes on by itself, and else with the answer to that request. To throw a token away is a move
too. -/
theorem Run.turns (h : Run source moves t) (hfound : slots.slot? scope = some t.slot) :
    (∀ caller call, t.calls caller = .ofCall call → call ≠ .obtaining → ∃ more t',
      ComesTo source moves t caller slots [] ((dialogue scope).resume caller slots call) more t') ∧
    (∀ caller answer, t.calls caller = .ofCall .obtaining → ∃ more t',
      ComesTo source moves t caller slots [answer]
        ((dialogue scope).receive caller answer slots .obtaining) more t') ∧
    ∀ stale, ∃ t', Run source (moves ++ [.invalidate stale]) t' ∧ t'.calls = t.calls ∧
      slots.invalidate scope stale = slots.put t'.slot := by
  refine ⟨fun caller call hstage hidle => ?_, fun caller answer hstage => ?_, fun stale => ?_⟩
  · cases call with
    | fresh => exact h.turn_fresh hfound hstage
    | inLine => exact h.turn_inLine hfound hstage
    | obtaining => exact absurd rfl hidle
  · exact h.turn_obtaining hfound hstage answer
  · refine ⟨_, h.step (.invalidate t stale), rfl, ?_⟩
    simp only [Slots.invalidate, hfound]

/-! ### Turns of many calls -/

/-- What calls on a scope come to that take turns in any order, while tokens are thrown away. Each
of them stands where its last turn has left it. -/
inductive Talks (scope : AuthScope) (start : Slots) : Slots → (Nat → Stage) → Prop
  | start : Talks scope start start fun _ => .fresh
  | resume {slots : Slots} {stages : Nat → Stage} (caller : Nat) (call : TokenCall)
      (turn : MetricRelay.Step TokenCall (Except FetchError String)) :
      Talks scope start slots stages → stages caller = .ofCall call → call ≠ .obtaining →
      (dialogue scope).resume caller slots call = turn →
      Talks scope start turn.slots (Function.update stages caller (.ofMove turn.move))
  | receive {slots : Slots} {stages : Nat → Stage} (caller : Nat) (answer : Answer)
      (turn : MetricRelay.Step TokenCall (Except FetchError String)) :
      Talks scope start slots stages → stages caller = .ofCall .obtaining →
      (dialogue scope).receive caller answer slots .obtaining = turn →
      Talks scope start turn.slots (Function.update stages caller (.ofMove turn.move))
  | invalidate {slots : Slots} {stages : Nat → Stage} (stale : String) :
      Talks scope start slots stages → Talks scope start (slots.invalidate scope stale) stages

/-- The slot that is found after a turn is that of the run. -/
theorem ComesTo.found (h : ComesTo source moves t caller slots answers turn more t')
    (hrun : Run source moves t) (hfound : slots.slot? scope = some t.slot) :
    turn.slots.slot? scope = some t'.slot := by
  rw [h.slots]
  exact Slots.slot?_put hfound (h.run.traced.origin.trans hrun.traced.origin.symm)

/-- Whatever the turns of all calls on a scope come to, some run of moves comes to. -/
theorem Talks.run {start : Slots} {stages : Nat → Stage} (h : Talks scope start slots stages)
    (hempty : start.slot? scope = some { source }) :
    ∃ moves t, Run source moves t ∧ slots.slot? scope = some t.slot ∧ t.calls = stages := by
  induction h with
  | start => exact ⟨[], _, .start, hempty, rfl⟩
  | resume caller call turn _ hstage hidle hturn ih =>
    obtain ⟨moves, t, hrun, hfound, rfl⟩ := ih
    obtain ⟨more, t', hmore⟩ := (hrun.turns hfound).1 caller call hstage hidle
    rw [hturn] at hmore
    exact ⟨_, t', hmore.run, hmore.found hrun hfound, hmore.calls⟩
  | receive caller answer turn _ hstage hturn ih =>
    obtain ⟨moves, t, hrun, hfound, rfl⟩ := ih
    obtain ⟨more, t', hmore⟩ := (hrun.turns hfound).2.1 caller answer hstage
    rw [hturn] at hmore
    exact ⟨_, t', hmore.run, hmore.found hrun hfound, hmore.calls⟩
  | invalidate stale _ ih =>
    obtain ⟨moves, t, hrun, hfound, rfl⟩ := ih
    obtain ⟨t', hmore, hcalls, hslots⟩ := (hrun.turns hfound).2.2 stale
    refine ⟨_, t', hmore, ?_, hcalls⟩
    rw [hslots]
    exact Slots.slot?_put hfound (hmore.traced.origin.trans hrun.traced.origin.symm)

/-- However their turns follow each other, two calls on a scope never have requests under way at the
same time. -/
theorem Talks.requesting_unique {start : Slots} {stages : Nat → Stage}
    (h : Talks scope start slots stages) (hempty : start.slot? scope = some { source }) {a b : Nat}
    (ha : stages a = .requesting) (hb : stages b = .requesting) : a = b := by
  obtain ⟨moves, t, hrun, -, rfl⟩ := h.run hempty
  exact hrun.orderly.busy_unique (ha ▸ .requesting) (hb ▸ .requesting)

end MetricRelay.Token
