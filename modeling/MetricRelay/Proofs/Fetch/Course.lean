import MetricRelay.Proofs.Catalog.Auth
import MetricRelay.Proofs.Catalog.Indexed
import MetricRelay.Proofs.Fetch.Traffic

/-!
# The course of a fetch

What a fetch has done and got by the time it stands somewhere, and where its
tokens came from. Main result: a fetch without auth sends one plain request; any
other one sends a request for each of at most two tokens of its own scope, the
second only after the first was refused with a status that calls for it, and
what it returns is the answer to its last request or the reason why it got no
token.
-/

namespace MetricRelay.FetchCall

open Token (Slot Slots)

/-! ### Courses -/

/-- How a fetch without auth goes. -/
inductive PlainCourse (plan : FetchPlan) : Post → List Event → Prop
  | fresh : PlainCourse plan (.standing .fresh) []
  | sent : PlainCourse plan (.standing .sentPlain) [.request plan.request]
  | ended (answer : Answer) :
      PlainCourse plan (.ended answer) [.request plan.request, .answer answer]
  | dropped {post : Post} {events : List Event} (course : PlainCourse plan post events) :
      PlainCourse plan .dropped events

/-- What comes before an attempt: before the second one, a first data request whose answer made the
token stale. -/
inductive Opening (plan : FetchPlan) (header : String) : Attempt → List Event → Prop
  | first : Opening plan header .first []
  | second (token : String) (answer : Answer) (stale : plan.Refreshes answer) :
      Opening plan header .second
        [.token (.ok token), .request (plan.withToken header token), .answer answer]

/-- How a fetch with auth ends, and with which result. -/
inductive Outcome (plan : FetchPlan) (header : String) : List Event → Answer → Prop
  | refused {attempt : Attempt} {events : List Event}
      (opening : Opening plan header attempt events) (error : FetchError) :
      Outcome plan header (events ++ [.token (.error error)]) (.error error)
  | answered {attempt : Attempt} {events : List Event}
      (opening : Opening plan header attempt events) (token : String) (answer : Answer)
      (last : attempt = .first → ¬ plan.Refreshes answer) :
      Outcome plan header (events ++
        [.token (.ok token), .request (plan.withToken header token), .answer answer]) answer

def Post.attempt? : Post → Option Attempt
  | .standing .fresh => some .first
  | .standing (.inLine attempt) => some attempt
  | .standing (.obtaining attempt) => some attempt
  | .missed attempt => some attempt
  | .storing attempt _ => some attempt
  | .stale _ | .retrying => some .second
  | _ => none

/-- How a fetch with auth goes. -/
inductive TokenCourse (plan : FetchPlan) (header : String) : Post → List Event → Prop
  | seeking {post : Post} {attempt : Attempt} {events : List Event}
      (seeks : post.attempt? = some attempt) (opening : Opening plan header attempt events) :
      TokenCourse plan header post events
  | sent {attempt : Attempt} {events : List Event} (opening : Opening plan header attempt events)
      (token : String) :
      TokenCourse plan header (.standing (.sent attempt token))
        (events ++ [.token (.ok token), .request (plan.withToken header token)])
  | ended {answer : Answer} {events : List Event} (outcome : Outcome plan header events answer) :
      TokenCourse plan header (.ended answer) events
  | dropped {post : Post} {events : List Event} (course : TokenCourse plan header post events) :
      TokenCourse plan header .dropped events

theorem Post.Seeks.attempt? {post : Post} {attempt : Attempt} (h : post.Seeks attempt) :
    post.attempt? = some attempt := by
  cases h <;> rfl

section Course

variable {plan : FetchPlan} {header : String} {caller : Nat} {post : Post} {attempt : Attempt}
  {events : List Event} {call call' : Caller} {slot new : Slot} {replies : List TokenReply}

theorem TokenCourse.opening (h : TokenCourse plan header post events)
    (hseeks : post.attempt? = some attempt) : Opening plan header attempt events := by
  cases h with
  | seeking seeks opening =>
    cases seeks.symm.trans hseeks
    exact opening
  | sent opening token => cases hseeks
  | ended outcome => cases hseeks
  | dropped course => cases hseeks

theorem TokenCourse.of_sent {token : String}
    (h : TokenCourse plan header (.standing (.sent attempt token)) events) :
    ∃ before, Opening plan header attempt before ∧
      events = before ++ [.token (.ok token), .request (plan.withToken header token)] := by
  cases h with
  | seeking seeks opening => cases seeks
  | sent opening token => exact ⟨_, opening, rfl⟩

/-- A course goes on when its fetch makes a move on a slot. -/
theorem TokenCourse.act (h : TokenCourse plan header call.post call.history)
    (hact : Act plan header caller slot call new call' replies) :
    TokenCourse plan header call'.post call'.history := by
  have hsame : ∀ {attempt}, call.post.attempt? = some attempt → ∀ {post : Post},
      post.attempt? = some attempt → TokenCourse plan header post (call.history ++ []) := by
    intro attempt hold post hnew
    rw [List.append_nil]
    exact .seeking hnew (h.opening hold)
  cases hact with
  | hit seeks current => exact .sent (h.opening seeks.attempt?) _
  | miss seeks current => exact hsame seeks.attempt? rfl
  | lock post => exact hsame (by rw [post]; rfl) rfl
  | pass post holder current => exact .sent (h.opening (by rw [post]; rfl)) _
  | ask post holder current => exact hsame (by rw [post]; rfl) rfl
  | refuse answer post read => exact .ended (.refused (h.opening (by rw [post]; rfl)) _)
  | issue answer post read => exact hsame (by rw [post]; rfl) rfl
  | store post => exact .sent (h.opening (by rw [post]; rfl)) _
  | discard post => exact hsame (by rw [post]; rfl) rfl

theorem PlainCourse.of_fresh (h : PlainCourse plan (.standing .fresh) events) : events = [] := by
  cases h
  rfl

theorem PlainCourse.of_sentPlain (h : PlainCourse plan (.standing .sentPlain) events) :
    events = [.request plan.request] := by
  cases h
  rfl

theorem PlainCourse.of_ended {answer : Answer} (h : PlainCourse plan (.ended answer) events) :
    events = [.request plan.request, .answer answer] := by
  cases h
  rfl

theorem TokenCourse.of_ended {answer : Answer}
    (h : TokenCourse plan header (.ended answer) events) : Outcome plan header events answer := by
  cases h with
  | seeking seeks opening => cases seeks
  | ended outcome => exact outcome

/-- The answer to the last request ends a course. -/
theorem PlainCourse.finish {answer : Answer} (h : PlainCourse plan post events)
    (hends : post.Ends plan answer) :
    PlainCourse plan (.ended answer) (events ++ [.answer answer]) := by
  cases hends with
  | plain =>
    rw [h.of_sentPlain]
    exact .ended answer
  | sent attempt token last => cases h

theorem TokenCourse.finish {answer : Answer} (h : TokenCourse plan header post events)
    (hends : post.Ends plan answer) :
    TokenCourse plan header (.ended answer) (events ++ [.answer answer]) := by
  cases hends with
  | plain =>
    cases h with
    | seeking seeks opening => cases seeks
  | sent attempt token last =>
    obtain ⟨before, hopening, rfl⟩ := h.of_sent
    rw [List.append_assoc]
    exact .ended (.answered hopening token answer last)

/-- A stale token leads to the second attempt. -/
theorem TokenCourse.refresh {token : String} {answer : Answer}
    (h : TokenCourse plan header (.standing (.sent .first token)) events)
    (hstale : plan.Refreshes answer) :
    TokenCourse plan header (.stale token) (events ++ [.answer answer]) := by
  obtain ⟨before, hopening, rfl⟩ := h.of_sent
  cases hopening
  exact .seeking rfl (.second token answer hstale)

theorem PlainCourse.requests (h : PlainCourse plan post events) :
    events.filterMap Event.request? <+: [plan.request] := by
  induction h with
  | fresh => exact List.nil_prefix
  | sent => exact List.prefix_rfl
  | ended answer => exact List.prefix_rfl
  | dropped _ ih => exact ih

/-- The data requests for two tokens at most, each with the token that came before it. -/
structure Measured (plan : FetchPlan) (header : String) (events : List Event) : Prop where
  length : (events.filterMap Event.request?).length ≤ 2
  tokens : ∀ q, .request q ∈ events →
    ∃ token, .token (.ok token) ∈ events ∧ q = plan.withToken header token

theorem Opening.measured (h : Opening plan header attempt events) :
    Measured plan header events ∧ (events.filterMap Event.request?).length ≤ 1 := by
  cases h with
  | first => exact ⟨⟨by simp, by simp⟩, by simp⟩
  | second token answer stale =>
    exact ⟨⟨by simp [List.filterMap_cons], by simp⟩, by simp [List.filterMap_cons]⟩

/-- One more request, with a token that has just been got. -/
theorem Opening.measured_sent (h : Opening plan header attempt events) (token : String)
    (after : List Event) (hafter : ∀ event ∈ after, event.request? = none) :
    Measured plan header (events ++
      ([.token (.ok token), .request (plan.withToken header token)] ++ after)) := by
  obtain ⟨hbefore, hlength⟩ := h.measured
  have hnone : after.filterMap Event.request? = [] := List.filterMap_eq_nil_iff.mpr hafter
  constructor
  · simpa [List.filterMap_cons, hnone] using hlength
  · intro q hq
    rcases List.mem_append.mp hq with hold | hnew
    · obtain ⟨used, hused, heq⟩ := hbefore.tokens q hold
      exact ⟨used, List.mem_append_left _ hused, heq⟩
    · refine ⟨token, by simp, ?_⟩
      have hlate : Event.request q ∉ after := fun hmem => by cases hafter _ hmem
      simpa [hlate] using hnew

theorem Opening.measured_refused (h : Opening plan header attempt events) (error : FetchError) :
    Measured plan header (events ++ [.token (.error error)]) := by
  obtain ⟨hbefore, -⟩ := h.measured
  constructor
  · simpa [List.filterMap_cons] using hbefore.length
  · intro q hq
    obtain ⟨used, hused, heq⟩ := hbefore.tokens q (by simpa using hq)
    exact ⟨used, List.mem_append_left _ hused, heq⟩

theorem TokenCourse.measured (h : TokenCourse plan header post events) :
    Measured plan header events := by
  induction h with
  | seeking seeks opening => exact opening.measured.1
  | sent opening token => exact opening.measured_sent token [] (by simp)
  | ended outcome =>
    cases outcome with
    | refused opening error => exact opening.measured_refused error
    | answered opening token answer last =>
      exact opening.measured_sent token [.answer _] (by simp)
  | dropped _ ih => exact ih

end Course

def OnCourse (plans : Nat → FetchPlan) (t : Traffic) : Prop :=
  ∀ n, ((plans n).auth = none → PlainCourse (plans n) (t.calls n).post (t.calls n).history ∧
      (t.calls n).asked = []) ∧
    ∀ scope header, (plans n).auth = some (scope, header) →
      TokenCourse (plans n) header (t.calls n).post (t.calls n).history

namespace OnCourse

variable {plans : Nat → FetchPlan} {t t' : Traffic} {caller : Nat} {call : Caller} {slots : Slots}
  {replies : List TokenReply}

theorem put (h : OnCourse plans t)
    (hplain : (plans caller).auth = none →
      PlainCourse (plans caller) call.post call.history ∧ call.asked = [])
    (htoken : ∀ scope header, (plans caller).auth = some (scope, header) →
      TokenCourse (plans caller) header call.post call.history) :
    OnCourse plans (t.put slots caller call replies) := by
  intro n
  obtain ⟨rfl, heq⟩ | ⟨-, heq⟩ := t.put_calls slots caller call replies n
  · rw [heq]
    exact ⟨hplain, htoken⟩
  · rw [heq]
    exact h n

theorem step (h : OnCourse plans t) (hstep : Step plans t caller t') : OnCourse plans t' := by
  have hplain := (h caller).1
  have htoken := (h caller).2
  cases hstep with
  | plain caller post auth =>
    refine h.put (fun _ => ?_) (fun scope header hauth => absurd (auth.symm.trans hauth) (by simp))
    obtain ⟨hcourse, hasked⟩ := hplain auth
    have hnew : (t.calls caller).history = [] := (post ▸ hcourse).of_fresh
    refine ⟨?_, hasked⟩
    simpa [Caller.move, hnew] using PlainCourse.sent
  | unknown caller seeks auth unlisted =>
    refine h.put (fun hauth => absurd (auth.symm.trans hauth) (by simp))
      fun scope header hauth => ?_
    exact .ended (.refused ((htoken scope header hauth).opening seeks.attempt?) _)
  | act caller auth found act =>
    refine h.put (fun hauth => absurd (auth.symm.trans hauth) (by simp))
      fun scope header hauth => ?_
    cases auth.symm.trans hauth
    exact (htoken _ _ hauth).act act
  | finish caller answer ends =>
    exact h.put (fun hauth => ⟨(hplain hauth).1.finish ends, (hplain hauth).2⟩)
      fun scope header hauth => (htoken scope header hauth).finish ends
  | refresh caller answer post stale =>
    refine h.put (fun hauth => ?_) fun scope header hauth => ?_
    · have hcourse := (hplain hauth).1
      rw [post] at hcourse
      cases hcourse
    · exact (post ▸ htoken scope header hauth).refresh stale
  | drop caller live =>
    refine h.put (fun hauth => ⟨?_, (hplain hauth).2⟩) fun scope header hauth => ?_
    · simpa [Caller.move] using PlainCourse.dropped (hplain hauth).1
    · simpa [Caller.move] using TokenCourse.dropped (htoken scope header hauth)

end OnCourse

/-! ### Where tokens come from -/

def Issued (replies : List TokenReply) (source : Catalog.ScopeEntry) (token : String) : Prop :=
  ∃ answer, (source, answer) ∈ replies ∧ Token.read source answer = .ok token

/-- A source has been asked for a token and has answered without one. -/
def Denied (replies : List TokenReply) (source : Catalog.ScopeEntry) (error : FetchError) : Prop :=
  ∃ answer, (source, answer) ∈ replies ∧ Token.read source answer = .error error

/-- All that a fetch has got is from one source. -/
structure Honest (replies : List TokenReply) (source : Catalog.ScopeEntry) (call : Caller) :
    Prop where
  storing : ∀ attempt token, call.post = .storing attempt token → Issued replies source token
  issued : ∀ token, .token (.ok token) ∈ call.history → Issued replies source token
  denied : ∀ error, .token (.error error) ∈ call.history → Denied replies source error
  asked : ∀ q ∈ call.asked, q = Token.request source

section Honest

variable {plan : FetchPlan} {header : String} {caller : Nat} {replies more : List TokenReply}
  {source : Catalog.ScopeEntry} {call call' : Caller} {slot new : Slot} {token : String}

theorem Issued.mono (h : Issued replies source token) (more : List TokenReply) :
    Issued (replies ++ more) source token := by
  obtain ⟨answer, hmem, hread⟩ := h
  exact ⟨answer, List.mem_append_left _ hmem, hread⟩

theorem Denied.mono {error : FetchError} (h : Denied replies source error)
    (more : List TokenReply) : Denied (replies ++ more) source error := by
  obtain ⟨answer, hmem, hread⟩ := h
  exact ⟨answer, List.mem_append_left _ hmem, hread⟩

theorem Honest.mono (h : Honest replies source call) (more : List TokenReply) :
    Honest (replies ++ more) source call where
  storing attempt token hpost := (h.storing attempt token hpost).mono more
  issued token hmem := (h.issued token hmem).mono more
  denied error hmem := (h.denied error hmem).mono more
  asked := h.asked

/-- A fetch moves on with nothing new from its source. -/
theorem Honest.move (h : Honest replies source call) {post : Post} {events : List Event}
    (hpost : ∀ attempt token, post = .storing attempt token → Issued replies source token)
    (hevents : ∀ result, .token result ∉ events) :
    Honest replies source (call.move post events) where
  storing := hpost
  issued token hmem := h.issued token ((List.mem_append.mp hmem).resolve_right (hevents _))
  denied error hmem := h.denied error ((List.mem_append.mp hmem).resolve_right (hevents _))
  asked := h.asked

theorem Honest.use (h : Honest replies source call) {attempt : Attempt}
    (htoken : Issued replies source token) :
    Honest replies source (call.use plan header attempt token) where
  storing _ _ heq := by cases heq
  issued used hmem := by
    rcases List.mem_append.mp hmem with hold | hnew
    · exact h.issued used hold
    · obtain rfl : used = token := by simpa using hnew
      exact htoken
  denied error hmem := h.denied error ((List.mem_append.mp hmem).resolve_right (by simp))
  asked := h.asked

theorem Honest.fail (h : Honest replies source call) {error : FetchError}
    (hdenied : Denied replies source error) : Honest replies source (call.fail error) where
  storing _ _ heq := by cases heq
  issued token hmem := h.issued token ((List.mem_append.mp hmem).resolve_right (by simp))
  denied other hmem := by
    rcases List.mem_append.mp hmem with hold | hnew
    · exact h.denied other hold
    · obtain rfl : other = error := by simpa using hnew
      exact hdenied
  asked := h.asked

theorem Honest.ask (h : Honest replies source call) {post : Post}
    (hpost : ∀ attempt token, post ≠ .storing attempt token) :
    Honest replies source
      { call.move post [] with asked := call.asked ++ [Token.request source] } where
  storing attempt token heq := absurd heq (hpost attempt token)
  issued token hmem := h.issued token (by simpa [Caller.move] using hmem)
  denied error hmem := h.denied error (by simpa [Caller.move] using hmem)
  asked q hq := by
    rcases List.mem_append.mp hq with hold | hnew
    · exact h.asked q hold
    · exact List.mem_singleton.mp hnew

/-- A fetch that makes a move on a slot gets what the slot or its source has. -/
theorem Honest.act (h : Honest replies slot.source call)
    (hact : Act plan header caller slot call new call' more)
    (hcurrent : ∀ token, slot.current = some token → Issued replies slot.source token) :
    Honest (replies ++ more) slot.source call' ∧
      ∀ token, new.current = some token → Issued (replies ++ more) slot.source token := by
  cases hact with
  | hit seeks current =>
    rw [List.append_nil]
    exact ⟨h.use (hcurrent _ current), hcurrent⟩
  | miss seeks current =>
    rw [List.append_nil]
    exact ⟨h.move (by simp) (by simp), hcurrent⟩
  | lock post =>
    rw [List.append_nil]
    exact ⟨h.move (by simp) (by simp), fun token htoken => hcurrent token (by simpa using htoken)⟩
  | pass post holder current =>
    rw [List.append_nil]
    exact ⟨h.use (hcurrent _ current), fun token htoken => hcurrent token (by simpa using htoken)⟩
  | ask post holder current =>
    rw [List.append_nil]
    exact ⟨h.ask (by simp), hcurrent⟩
  | refuse answer post read =>
    have hdenied : Denied (replies ++ [(slot.source, answer)]) slot.source _ :=
      ⟨answer, by simp, read⟩
    refine ⟨(h.mono _).fail hdenied, fun token htoken => (hcurrent token ?_).mono _⟩
    exact (Slot.release_current slot).symm.trans htoken
  | @issue attempt token answer post read =>
    have hissued : Issued (replies ++ [(slot.source, answer)]) slot.source token :=
      ⟨answer, by simp, read⟩
    refine ⟨(h.mono _).move ?_ (by simp), fun token htoken => (hcurrent token htoken).mono _⟩
    rintro _ _ ⟨⟩
    exact hissued
  | store post =>
    rw [List.append_nil]
    have hissued := h.storing _ _ post
    refine ⟨h.use hissued, fun token htoken => ?_⟩
    rw [Slot.settle_ok, Slot.release_current] at htoken
    cases htoken
    exact hissued
  | discard post =>
    rw [List.append_nil]
    refine ⟨h.move (by simp) (by simp), fun token htoken => hcurrent token ?_⟩
    rw [Slot.invalidate] at htoken
    split at htoken
    · cases htoken
    · exact htoken

end Honest

/-- All tokens at hand come from the sources of their scopes. -/
structure Sourced (plans : Nat → FetchPlan) (sources : List Catalog.ScopeEntry) (t : Traffic) :
    Prop where
  kept : t.slots.sources = sources
  current : ∀ slot ∈ t.slots, ∀ token, slot.current = some token →
    Issued t.replies slot.source token
  honest : ∀ n, ∀ source ∈ sources, scope? (plans n) = some source.scope →
    Honest t.replies source (t.calls n)

namespace Sourced

variable {plans : Nat → FetchPlan} {sources : List Catalog.ScopeEntry} {t t' : Traffic}
  {caller : Nat} {call : Caller} {slots : Slots} {replies : List TokenReply}

theorem put (h : Sourced plans sources t) (hsources : slots.sources = sources)
    (hcurrent : ∀ slot ∈ slots, ∀ token, slot.current = some token →
      Issued (t.replies ++ replies) slot.source token)
    (hself : ∀ source ∈ sources, scope? (plans caller) = some source.scope →
      Honest (t.replies ++ replies) source call) :
    Sourced plans sources (t.put slots caller call replies) where
  kept := hsources
  current := hcurrent
  honest := by
    intro n source hmem hscope
    obtain ⟨rfl, heq⟩ | ⟨-, heq⟩ := t.put_calls slots caller call replies n
    · rw [heq]
      exact hself source hmem hscope
    · rw [heq]
      exact (h.honest n source hmem hscope).mono replies

/-- A fetch moves on apart from the slots, with nothing new from its source. -/
theorem turn (h : Sourced plans sources t) {post : Post} {events : List Event}
    (hpost : ∀ attempt token, post ≠ .storing attempt token)
    (hevents : ∀ result, .token result ∉ events) :
    Sourced plans sources (t.turn caller post events) := by
  refine h.put h.kept ?_ fun source hmem hscope => ?_
  · rw [List.append_nil]
    exact h.current
  · rw [List.append_nil]
    exact (h.honest caller source hmem hscope).move
      (fun attempt token heq => absurd heq (hpost attempt token)) hevents

/-- A slot that is found belongs to the source of its scope. -/
theorem source_eq (h : Sourced plans sources t) (hsources : (sources.map (·.scope)).Nodup)
    {scope : AuthScope} {slot : Slot} (hfound : t.slots.slot? scope = some slot)
    {source : Catalog.ScopeEntry} (hmem : source ∈ sources) (hscope : source.scope = scope) :
    slot.source = source := by
  have hslot : slot.source ∈ sources :=
    h.kept ▸ List.mem_map_of_mem (Token.Slots.mem_of_slot? hfound)
  exact List.inj_on_of_nodup_map hsources hslot hmem
    ((Token.Slots.scope_of_slot? hfound).trans hscope.symm)

theorem step (h : Sourced plans sources t) (hsources : (sources.map (·.scope)).Nodup)
    (hstep : Step plans t caller t') : Sourced plans sources t' := by
  have hapart : t.slots.Apart := by rw [Token.Slots.Apart, h.kept]; exact hsources
  have hkept := (hstep.sources hapart).trans h.kept
  cases hstep with
  | plain caller post auth => exact h.turn (by simp) (by simp)
  | @unknown attempt scope header caller seeks auth unlisted =>
    refine h.put hkept ?_ fun source hmem hscope => ?_
    · rw [List.append_nil]
      exact h.current
    · have hlisted : source ∈ t.slots.sources := h.kept.symm ▸ hmem
      obtain ⟨slot, hslot, rfl⟩ := List.mem_map.mp hlisted
      have hfound := Token.Slots.slot?_of_mem hapart hslot
      rw [scope?, auth, Option.map_some, Option.some.injEq] at hscope
      rw [← hscope, unlisted] at hfound
      cases hfound
  | @act scope header slot new call replies caller auth found act =>
    have hscope : scope? (plans caller) = some scope := by rw [scope?, auth, Option.map_some]
    have hslot := Token.Slots.mem_of_slot? found
    have hlisted : slot.source ∈ sources := h.kept ▸ List.mem_map_of_mem hslot
    have hown : scope? (plans caller) = some slot.source.scope := by
      rw [hscope, Token.Slots.scope_of_slot? found]
    obtain ⟨hcall, hnew⟩ :=
      (h.honest caller slot.source hlisted hown).act act (h.current slot hslot)
    refine h.put hkept (fun s hs token htoken => ?_) fun source hmem hneeds => ?_
    · obtain ⟨old, hold, rfl⟩ := List.mem_map.mp hs
      split at htoken
      · next heq =>
        rw [if_pos heq, act.source]
        exact hnew token htoken
      · next hother =>
        rw [if_neg hother]
        exact (h.current old hold token htoken).mono replies
    · have heq : slot.source = source := by
        refine h.source_eq hsources found hmem ?_
        exact Option.some.inj (hneeds.symm.trans hscope)
      exact heq ▸ hcall
  | finish caller answer ends => exact h.turn (by simp) (by simp)
  | refresh caller answer post stale => exact h.turn (by simp) (by simp)
  | drop caller live =>
    refine h.put hkept (fun s hs token htoken => ?_) fun source hmem hneeds => ?_
    · rw [Token.Slots.abandon_snd] at hs
      obtain ⟨old, hold, rfl⟩ := List.mem_map.mp hs
      rw [Token.Slots.abandon_current] at htoken
      rw [List.append_nil, Token.Slots.abandon_source]
      exact h.current old hold token htoken
    · rw [List.append_nil]
      exact (h.honest caller source hmem hneeds).move (by simp) (by simp)

end Sourced

/-- The reason why a fetch gets no token names the location of its source. -/
theorem auth_of_denied {replies : List TokenReply} {source : Catalog.ScopeEntry}
    {error : FetchError} (h : Denied replies source error) :
    ∃ reason, error = .auth source.url reason := by
  obtain ⟨answer, -, hread⟩ := h
  exact Token.auth_of_read hread

/-! ### Whole runs -/

namespace Run

variable {definitions : List Config.Definition} {policy : RefreshPolicy}
  {aims : Nat → (Catalog.build definitions).Aim} {movers : List Nat} {t : Traffic}

theorem onCourse {plans : Nat → FetchPlan} {slots : Slots} (h : Run plans slots movers t) :
    OnCourse plans t := by
  induction h with
  | start => exact fun n => ⟨fun _ => ⟨.fresh, rfl⟩, fun _ _ _ => .seeking rfl .first⟩
  | step _ hstep ih => exact ih.step hstep

theorem sourced (h : Run (fun n => (aims n).plan policy)
    (Slots.ofCatalog (Catalog.build definitions)) movers t) :
    Sourced (fun n => (aims n).plan policy) (Catalog.build definitions).scopes t := by
  induction h with
  | start =>
    refine ⟨Token.Slots.sources_ofCatalog _, fun slot hslot token htoken => ?_,
      fun n source _ _ => ⟨?_, ?_, ?_, ?_⟩⟩
    · obtain ⟨source, -, rfl⟩ := List.mem_map.mp hslot
      cases htoken
    · rintro _ _ ⟨⟩
    · rintro _ ⟨⟩
    · rintro _ ⟨⟩
    · rintro _ ⟨⟩
  | step _ hstep ih => exact ih.step (Catalog.nodup_scopes _) hstep

/-- Side by side, a fetch without auth sends one plain request and returns its answer. Any other one
has a source of tokens. It sends requests for two tokens at most, each issued by that source, and
the second only after the answer to the first made its token stale; it returns the answer to the
last one, or the reason why it got no token from that source. A fetch is over after a few moves,
and while one is not, it can move or waits for one of its scope that can. -/
theorem one_refresh (h : Run (fun n => (aims n).plan policy)
    (Slots.ofCatalog (Catalog.build definitions)) movers t) :
    (∀ n, (aims n).Unguarded → (t.calls n).asked = [] ∧
      (t.calls n).requests <+: [(aims n).request] ∧
      ∀ answer, (t.calls n).post = .ended answer →
        (t.calls n).history = [.request (aims n).request, .answer answer]) ∧
    (∀ n, ¬ (aims n).Unguarded → ∃ source, (aims n).Guarded source) ∧
    (∀ n source, (aims n).Guarded source →
      (∀ q ∈ (t.calls n).asked, q = Token.request source) ∧
      (t.calls n).requests.length ≤ 2 ∧
      (∀ q ∈ (t.calls n).requests, ∃ token, Issued t.replies source token ∧
        q = { (aims n).request with header := some ⟨source.table.headerName, token⟩ }) ∧
      (∀ error, .token (.error error) ∈ (t.calls n).history →
        Denied t.replies source error ∧ ∃ reason, error = .auth source.url reason) ∧
      ∀ answer, (t.calls n).post = .ended answer →
        Outcome ((aims n).plan policy) source.table.headerName (t.calls n).history answer) ∧
    (∀ n, movers.count n ≤ 13 ∧ ((t.calls n).post.Live → ∃ m,
      CanMove (fun n => (aims n).plan policy) t m ∧
        (m = n ∨ scope? ((aims m).plan policy) = scope? ((aims n).plan policy)))) := by
  have hindexed := Catalog.build_indexed definitions
  refine ⟨fun n hopen => ?_, fun n => Catalog.Aim.exists_guarded, fun n source hguarded => ?_,
    fun n => ⟨by have := h.left n; omega, fun hlive => ?_⟩⟩
  · obtain ⟨hcourse, hasked⟩ := (h.onCourse n).1 (Catalog.Aim.plan_auth_of_unguarded policy hopen)
    refine ⟨hasked, hcourse.requests, fun answer hended => ?_⟩
    rw [hended] at hcourse
    exact hcourse.of_ended
  · have hauth := Catalog.Aim.plan_auth_of_guarded policy hguarded
    have hcourse := (h.onCourse n).2 _ _ hauth
    have hscope : scope? ((aims n).plan policy) = some source.scope := by
      rw [scope?, hauth, Option.map_some]
    have hhonest := h.sourced.honest n source (hguarded.tabled.mem_scopes hindexed) hscope
    refine ⟨hhonest.asked, hcourse.measured.length, fun q hq => ?_, fun error herror => ?_,
      fun answer hended => ?_⟩
    · obtain ⟨event, hevent, hrequest⟩ := List.mem_filterMap.mp hq
      cases event with
      | request sent =>
        cases hrequest
        obtain ⟨token, htoken, heq⟩ := hcourse.measured.tokens q hevent
        exact ⟨token, hhonest.issued token htoken, heq⟩
      | _ => cases hrequest
    · have hdenied := hhonest.denied error herror
      exact ⟨hdenied, auth_of_denied hdenied⟩
    · rw [hended] at hcourse
      exact hcourse.of_ended
  · refine (h.orderly fun slot hslot => ?_).not_stuck hlive
    obtain ⟨source, -, rfl⟩ := List.mem_map.mp hslot
    rfl

end Run

/-! ### A token that turns out to be stale -/

def lockedDefinition : Config.Definition where
  service := ⟨"node", .http, "node", 80, "", some ⟨"X-CSRF-Token", "/csrf", "/t"⟩⟩
  metrics := []
  resources := [⟨"stats", "/stats", "GET", .api, .json, [], none⟩]

def lockedAim : (Catalog.build [lockedDefinition]).Aim where
  resource := Catalog.resource ⟨0⟩ (Catalog.appendedService {} lockedDefinition) []
    ⟨"stats", "/stats", "GET", .api, .json, [], none⟩
  service := Catalog.appendedService {} lockedDefinition
  listed := rfl
  owner := rfl

def lockedSource : Catalog.ScopeEntry :=
  ⟨⟨⟨0⟩, none⟩, ⟨"X-CSRF-Token", "/csrf", "/t"⟩, Url.join lockedAim.service.baseUrl "/csrf"⟩

theorem lockedAim_guarded : lockedAim.Guarded lockedSource where
  http := rfl
  tabled := .inherited _ rfl rfl rfl

/-- Sources with one path find the same tokens in their answers. -/
theorem read_of_tokenPath {source other : Catalog.ScopeEntry} {answer : Answer} {token : String}
    (hpath : other.table.tokenPath = source.table.tokenPath)
    (h : Token.read source answer = .ok token) : Token.read other answer = .ok token := by
  simp only [Token.read, hpath] at h ⊢
  cases answer with
  | error e => cases h
  | ok body =>
    cases hdoc : Node.ofJsonBody body with
    | error e => simp only [hdoc] at h; cases h
    | ok doc =>
      simp only [hdoc] at h ⊢
      cases hfound : (doc.lookup source.table.tokenPath).bind
          (·.string? source.table.tokenPath) with
      | error e => simp only [hfound] at h; cases h
      | ok found =>
        simp only [hfound] at h ⊢
        split at h
        · cases h
        · next hempty => rw [if_neg hempty]; exact h

/-- The token of fetch 0 turns out to be stale after fetch 1, which was in line, has got it too. -/
theorem run_staleToken : ∃ movers t, Run (fun _ => lockedAim.plan .auth)
    (Slots.ofCatalog (Catalog.build [lockedDefinition])) movers t ∧
      (t.calls 0).post = .ended (.ok [49]) ∧ (t.calls 1).post = .ended (.ok [48]) := by
  obtain ⟨ha, hb⟩ := Token.read_letterAnswer
  have hpath : lockedSource.table.tokenPath = Token.loginScope.table.tokenPath := rfl
  have ha' := read_of_tokenPath hpath ha
  have hb' := read_of_tokenPath hpath hb
  have hauth : (lockedAim.plan .auth).auth = some (lockedSource.scope, "X-CSRF-Token") := rfl
  have h₁ := (Run.start : Run (fun _ => lockedAim.plan .auth)
    (Slots.ofCatalog (Catalog.build [lockedDefinition])) [] _).step
      (.act 0 hauth rfl (.miss .first rfl))
  have h₂ := (h₁.step (.act 1 hauth rfl (.miss .first rfl))).step (.act 0 hauth rfl (.lock rfl))
  have h₃ := (h₂.step (.act 0 hauth rfl (.ask rfl rfl rfl))).step (.act 1 hauth rfl (.lock rfl))
  have h₄ := h₃.step (.act 0 hauth rfl (.issue _ rfl ha'))
  have h₅ := (h₄.step (.act 0 hauth rfl (.store rfl))).step (.act 1 hauth rfl (.pass rfl rfl rfl))
  have h₆ := h₅.step (.refresh 0 (.error (.status "" 401)) rfl ⟨"", 401, rfl, rfl⟩)
  have h₇ := (h₆.step (.act 0 hauth rfl (.discard rfl))).step (.act 0 hauth rfl (.miss .second rfl))
  have h₈ := h₇.step (.finish 1 (.ok [48]) (.sent .first "a" (by rintro - ⟨_, _, ⟨⟩, -⟩)))
  have h₉ := (h₈.step (.act 0 hauth rfl (.lock rfl))).step (.act 0 hauth rfl (.ask rfl rfl rfl))
  have h₁₀ := h₉.step (.act 0 hauth rfl (.issue _ rfl hb'))
  have h₁₁ := h₁₀.step (.act 0 hauth rfl (.store rfl))
  have h₁₂ := h₁₁.step (.finish 0 (.ok [49]) (.sent .second "b" (by rintro ⟨⟩)))
  exact ⟨_, _, h₁₂, rfl, rfl⟩

theorem one_refresh_staleToken : ∃ movers t, Run (fun _ => lockedAim.plan .auth)
    (Slots.ofCatalog (Catalog.build [lockedDefinition])) movers t ∧
    lockedAim.Guarded lockedSource ∧ (t.calls 0).post = .ended (.ok [49]) ∧
    Outcome (lockedAim.plan .auth) "X-CSRF-Token" (t.calls 0).history (.ok [49]) ∧
    Outcome (lockedAim.plan .auth) "X-CSRF-Token" (t.calls 1).history (.ok [48]) ∧
    (t.calls 0).requests.length ≤ 2 ∧ movers.count 0 ≤ 13 := by
  obtain ⟨movers, t, h, hfirst, hsecond⟩ := run_staleToken
  obtain ⟨-, -, hguarded, hmoves⟩ := Run.one_refresh h
  obtain ⟨-, hlength, -, -, houtcome⟩ := hguarded 0 lockedSource lockedAim_guarded
  obtain ⟨-, -, -, -, houtcome'⟩ := hguarded 1 lockedSource lockedAim_guarded
  exact ⟨movers, t, h, lockedAim_guarded, hfirst, houtcome _ hfirst, houtcome' _ hsecond, hlength,
    (hmoves 0).1⟩

end MetricRelay.FetchCall
