import Mathlib.Logic.Relation
import MetricRelay.Proofs.Fetch.Traffic

/-!
# The turns of a fetch

A fetch that is alone on the processor goes on until it has to wait. Whatever
its dialogue does in such a turn is a row of moves of that fetch: they send what
the turn sends, take the answer that it is given and no other, and wake whoever
gets the right to request. So what holds of all runs of moves holds of all runs
of dialogues.
-/

namespace MetricRelay.FetchCall

open Relation (ReflTransGen)
open Token (Slot Slots)

/-! ### What a turn shows -/

/-- What a fetch sends, and the answers that it takes. -/
structure Mail where
  data : List Request := []
  asked : List Request := []
  answers : List Answer := []
  /-- The answers to requests for tokens. -/
  replies : List Answer := []

namespace Mail

instance : Append Mail where
  append a b :=
    ⟨a.data ++ b.data, a.asked ++ b.asked, a.answers ++ b.answers, a.replies ++ b.replies⟩

theorem append_eq (a b : Mail) : a ++ b =
    ⟨a.data ++ b.data, a.asked ++ b.asked, a.answers ++ b.answers, a.replies ++ b.replies⟩ := rfl

@[simp] theorem append_nil (a : Mail) : a ++ {} = a := by
  simp [append_eq]

@[simp] theorem nil_append (a : Mail) : {} ++ a = a := rfl

theorem append_assoc (a b c : Mail) : a ++ b ++ c = a ++ (b ++ c) := by
  simp [append_eq]

/-- A request after which a fetch waits for a token is one for a token. -/
def sent : Move FetchCall Answer → Mail
  | .send request (.obtaining _) => { asked := [request] }
  | .send request _ => { data := [request] }
  | .wait _ | .done _ => {}

def taken (answer : Answer) : FetchCall → Mail
  | .obtaining _ => { replies := [answer] }
  | .sent .. | .sentPlain => { answers := [answer] }
  | .fresh | .inLine _ => {}

end Mail

/-- A request of the fetch is under way. -/
def Asks : FetchCall → Prop
  | .obtaining _ | .sent .. | .sentPlain => True
  | .fresh | .inLine _ => False

def Event.answer? : Event → Option Answer
  | .answer a => some a
  | _ => none

/-- The answers to its data requests. -/
def Caller.answers (call : Caller) : List Answer := call.history.filterMap Event.answer?

namespace Caller

variable (call : Caller) (post : Post) (events : List Event)

@[simp] theorem requests_move : (call.move post events).requests =
    call.requests ++ events.filterMap Event.request? :=
  List.filterMap_append

@[simp] theorem answers_move : (call.move post events).answers =
    call.answers ++ events.filterMap Event.answer? :=
  List.filterMap_append

@[simp] theorem asked_move : (call.move post events).asked = call.asked := rfl

variable (plan : FetchPlan) (header token : String) (attempt : Attempt)

@[simp] theorem requests_use : (call.use plan header attempt token).requests =
    call.requests ++ [plan.withToken header token] :=
  call.requests_move _ _

@[simp] theorem answers_use : (call.use plan header attempt token).answers = call.answers :=
  (call.answers_move _ _).trans (List.append_nil _)

@[simp] theorem asked_use : (call.use plan header attempt token).asked = call.asked := rfl

@[simp] theorem requests_ask (asked : List Request) :
    { call with asked }.requests = call.requests := rfl

@[simp] theorem answers_ask (asked : List Request) :
    { call with asked }.answers = call.answers := rfl

end Caller

/-- What a fetch has sent so far, and all answers so far, also those to the token requests of
others. -/
def Traffic.mail (t : Traffic) (caller : Nat) : Mail where
  data := (t.calls caller).requests
  asked := (t.calls caller).asked
  answers := (t.calls caller).answers
  replies := t.replies.map (·.2)

@[simp] theorem Traffic.replies_put (t : Traffic) (slots : Slots) (caller : Nat) (call : Caller)
    (replies : List TokenReply) : (t.put slots caller call replies).replies =
      t.replies ++ replies := rfl

/-- A fetch is in line, and it is not its turn. -/
def Held (plan : FetchPlan) (slots : Slots) (caller : Nat) : FetchCall → Prop
  | .inLine _ => ∃ scope slot, scope? plan = some scope ∧ slots.slot? scope = some slot ∧
      slot.holder ≠ some caller
  | _ => False

/-- Who gets the right to request from a fetch is woken. -/
def Handed (before : Slots) (caller : Nat) (after : Slots) (woken : List Nat) : Prop :=
  ∀ scope n, n ≠ caller → (after.slot? scope).bind (·.holder) = some n →
    (before.slot? scope).bind (·.holder) = some n ∨ n ∈ woken

def Post.ofMove : Move FetchCall Answer → Post
  | .send _ call => .standing call
  | .wait call => .standing call
  | .done answer => .ended answer

def Moves (plans : Nat → FetchPlan) (caller : Nat) : Traffic → Traffic → Prop :=
  ReflTransGen fun t t' => Step plans t caller t'

/-- The moves of one fetch that come to the same as a turn of its dialogue. The fetch does not stop
before it has to. -/
structure ComesTo (plans : Nat → FetchPlan) (caller : Nat) (t : Traffic) (mail : Mail)
    (turn : FetchStep) (t' : Traffic) : Prop where
  moves : Moves plans caller t t'
  slots : t'.slots = turn.slots
  post : (t'.calls caller).post = .ofMove turn.move
  mail : t'.mail caller = t.mail caller ++ mail
  handed : Handed t.slots caller turn.slots turn.woken
  held : ∀ state, turn.move = .wait state → Held (plans caller) turn.slots caller state

def Turns (plans : Nat → FetchPlan) (caller : Nat) (t : Traffic) (mail : Mail)
    (turn : FetchStep) : Prop :=
  ∃ t', ComesTo plans caller t mail turn t'

variable {plans : Nat → FetchPlan} {caller : Nat} {t t' : Traffic} {slots : Slots}
  {movers : List Nat} {attempt : Attempt} {scope : AuthScope} {header : String} {slot new : Slot}
  {call : Caller} {replies : List TokenReply} {turn : FetchStep} {mail mail' : Mail}
  {woken : List Nat}

/-- Moves in a row lead from run to run, and leave all other fetches alone. -/
theorem Run.moves (h : Run plans slots movers t) (hmoves : Moves plans caller t t') :
    (∃ more, Run plans slots (movers ++ more) t') ∧
      ∀ n, n ≠ caller → t'.calls n = t.calls n := by
  induction hmoves with
  | refl => exact ⟨⟨[], by simpa using h⟩, fun n _ => rfl⟩
  | tail _ hstep ih =>
    obtain ⟨⟨more, hrun⟩, hothers⟩ := ih
    refine ⟨⟨more ++ [caller], ?_⟩, fun n hn => (hstep.others hn).trans (hothers n hn)⟩
    rw [← List.append_assoc]
    exact hrun.step hstep

/-! ### The right to request -/

theorem handed_self (slots : Slots) : Handed slots caller slots woken :=
  fun _ _ _ hholder => Or.inl hholder

theorem Handed.trans {first second third : Slots} (h : Handed first caller second [])
    (h' : Handed second caller third woken) : Handed first caller third woken := by
  intro scope n hn hholder
  rcases h' scope n hn hholder with hbefore | hwoken
  · exact Or.inl ((h scope n hn hbefore).resolve_right List.not_mem_nil)
  · exact Or.inr hwoken

theorem handed_put (hfound : slots.slot? scope = some slot) (hsource : new.source = slot.source)
    (hholder : ∀ n, n ≠ caller → new.holder = some n → slot.holder = some n ∨ n ∈ woken) :
    Handed slots caller (slots.put new) woken := by
  intro other n hn hnew
  by_cases hother : other = scope
  · subst hother
    rw [Token.Slots.slot?_put hfound hsource] at hnew
    rw [hfound]
    exact hholder n hn hnew
  · have hscope : new.source.scope = scope := hsource ▸ Token.Slots.scope_of_slot? hfound
    rw [Token.Slots.slot?_put_of_ne (hscope ▸ hother)] at hnew
    exact Or.inl hnew

/-! ### One move after another -/

theorem Turns.step (hstep : Step plans t caller t') (hmail : t'.mail caller = t.mail caller ++ mail)
    (hhanded : Handed t.slots caller t'.slots []) (h : Turns plans caller t' mail' turn) :
    Turns plans caller t (mail ++ mail') turn := by
  obtain ⟨t'', h⟩ := h
  refine ⟨t'', h.moves.head hstep, h.slots, h.post, ?_, hhanded.trans h.handed, h.held⟩
  rw [h.mail, hmail, Mail.append_assoc]

/-- A turn of one move on a slot. -/
theorem turns_act (hauth : (plans caller).auth = some (scope, header))
    (hfound : t.slots.slot? scope = some slot)
    (hact : Act (plans caller) header caller slot (t.calls caller) new call replies)
    (hslots : turn.slots = t.slots.put new) (hpost : call.post = .ofMove turn.move)
    (hmail : (t.put (t.slots.put new) caller call replies).mail caller = t.mail caller ++ mail)
    (hholder : ∀ n, n ≠ caller → new.holder = some n → slot.holder = some n ∨ n ∈ turn.woken)
    (hheld : ∀ state, turn.move = .wait state → Held (plans caller) turn.slots caller state) :
    Turns plans caller t mail turn := by
  refine ⟨_, .single (.act caller hauth hfound hact), hslots.symm, ?_, hmail, ?_, hheld⟩
  · rw [Traffic.put_self]
    exact hpost
  · rw [hslots]
    exact handed_put hfound hact.source hholder

theorem turns_turn {post : Post} {events : List Event}
    (hstep : Step plans t caller (t.turn caller post events)) (hslots : turn.slots = t.slots)
    (hpost : post = .ofMove turn.move)
    (hmail : (t.turn caller post events).mail caller = t.mail caller ++ mail)
    (hheld : ∀ state, turn.move ≠ .wait state) : Turns plans caller t mail turn := by
  refine ⟨_, .single hstep, hslots.symm, ?_, hmail, ?_, fun state h => absurd h (hheld state)⟩
  · rw [Traffic.turn, Traffic.put_self]
    exact hpost
  · rw [hslots]
    exact handed_self t.slots

/-- What a fetch sees of the slot of its scope after a move on it. -/
theorem slot?_act (hfound : t.slots.slot? scope = some slot)
    (hact : Act (plans caller) header caller slot (t.calls caller) new call replies) :
    (t.put (t.slots.put new) caller call replies).slots.slot? scope = some new :=
  Token.Slots.slot?_put hfound hact.source

/-! ### Looks for a token -/

/-- From the empty slot to the request, or to the place in line. -/
theorem turns_lock (hauth : (plans caller).auth = some (scope, header))
    (hfound : t.slots.slot? scope = some slot) (hcurrent : slot.current = none)
    (hpost : (t.calls caller).post = .missed attempt)
    (hturn : follow (plans caller) attempt header t.slots ((slot.lock caller).resume caller).1 []
      ((slot.lock caller).resume caller).2.2 = turn) :
    Turns plans caller t (.sent turn.move) turn := by
  have hlock : Act (plans caller) header caller slot (t.calls caller) (slot.lock caller)
      ((t.calls caller).move (.standing (.inLine attempt)) []) [] := .lock hpost
  have hfoundLock := slot?_act hfound hlock
  obtain ⟨hholder, hresume⟩ | ⟨token, -, htoken, -⟩ | ⟨hholder, -, hresume⟩ :=
    (slot.lock caller).resume_cases caller
  · rw [hresume] at hturn
    subst hturn
    refine turns_act hauth hfound hlock rfl rfl
      (by simp [Mail.append_eq, Traffic.mail, follow, Mail.sent])
      (fun n hn h => Or.inl (Slot.holder_of_lock hn h)) ?_
    rintro _ ⟨⟩
    exact ⟨scope, slot.lock caller, by rw [scope?, hauth, Option.map_some], hfoundLock, hholder⟩
  · rw [Slot.lock_current, hcurrent] at htoken
    cases htoken
  · rw [hresume] at hturn
    subst hturn
    rw [← Mail.nil_append (.sent _)]
    refine .step (.act caller hauth hfound hlock) (by simp [Traffic.mail])
      (handed_put hfound hlock.source fun n hn h => Or.inl (Slot.holder_of_lock hn h)) ?_
    refine turns_act hauth hfoundLock
      (.ask (by rw [Traffic.put_self]; rfl) hholder (by rw [Slot.lock_current, hcurrent]))
      (Token.Slots.put_put t.slots (slot.lock caller) _ (by rfl)).symm rfl ?_
      (fun n _ h => Or.inl h) (by rintro _ ⟨⟩)
    simp [Mail.append_eq, Traffic.mail, follow, Mail.sent]

/-- The look for a token, up to the request or the place in line. -/
theorem turns_seek (h : Orderly plans t) (hseeks : (t.calls caller).post.Seeks attempt)
    (hauth : (plans caller).auth = some (scope, header))
    (hturn : seek (plans caller) attempt caller t.slots = turn) :
    Turns plans caller t (.sent turn.move) turn := by
  cases hfound : t.slots.slot? scope with
  | none =>
    simp only [seek, hauth, hfound] at hturn
    subst hturn
    refine turns_turn (.unknown caller hseeks hauth hfound) rfl rfl ?_ (by rintro _ ⟨⟩)
    simp [Traffic.turn, Traffic.mail, Mail.sent, Event.answer?]
  | some slot =>
    simp only [seek, hauth, hfound] at hturn
    cases hcurrent : slot.current with
    | some token =>
      rw [Slot.ask_of_some hcurrent] at hturn
      subst hturn
      refine turns_act hauth hfound (.hit hseeks hcurrent) rfl rfl ?_ (fun n _ h => Or.inl h)
        (by rintro _ ⟨⟩)
      simp [Mail.append_eq, Traffic.mail, follow, sendData, Mail.sent, FetchPlan.withToken]
    | none =>
      have hnew : slot.holder ≠ some caller := by
        intro hholder
        have hmem : caller ∈ slot.queue := by simp [Slot.queue, hholder]
        exact hseeks.not_queued (((h.inTurn scope slot hfound).queued caller).mp hmem).2
      rw [Slot.ask_of_none hcurrent hnew] at hturn
      have hmiss : Act (plans caller) header caller slot (t.calls caller) slot
          ((t.calls caller).move (.missed attempt) []) [] := .miss hseeks hcurrent
      have hsame : t.slots.put ((slot.lock caller).resume caller).2.2 =
          (t.slots.put slot).put ((slot.lock caller).resume caller).2.2 := by
        refine (Token.Slots.put_put t.slots slot _ ?_).symm
        rw [Slot.resume_source, Slot.lock_source]
      simp only [follow, hsame] at hturn
      rw [← Mail.nil_append (.sent _)]
      refine .step (.act caller hauth hfound hmiss) (by simp [Traffic.mail])
        (handed_put hfound rfl fun n _ h => Or.inl h) ?_
      exact turns_lock hauth (slot?_act hfound hmiss) hcurrent (by rw [Traffic.put_self]; rfl)
        hturn

/-- A fetch starts. -/
theorem turns_fresh (h : Orderly plans t) (hpost : (t.calls caller).post = .standing .fresh)
    (hturn : resume (plans caller) caller t.slots .fresh = turn) :
    Turns plans caller t (.sent turn.move) turn := by
  cases hauth : (plans caller).auth with
  | none =>
    simp only [resume, seek, hauth] at hturn
    subst hturn
    refine turns_turn (.plain caller hpost hauth) rfl rfl ?_ (by rintro _ ⟨⟩)
    simp [Mail.append_eq, Traffic.turn, Traffic.mail, Mail.sent, Event.answer?]
  | some need => exact turns_seek h (by rw [hpost]; exact .first) hauth hturn

/-- The slot of a fetch that has looked into it. -/
theorem Orderly.slotOf? (h : Orderly plans t) (hinvolved : (t.calls caller).post.Involved) :
    ∃ scope header slot, (plans caller).auth = some (scope, header) ∧
      t.slots.slot? scope = some slot ∧
      FetchCall.slotOf? (plans caller) t.slots = some (header, slot) := by
  obtain ⟨scope, slot, hscope, hfound⟩ := h.found caller hinvolved
  obtain ⟨⟨_, header⟩, hauth, rfl⟩ := Option.map_eq_some_iff.mp hscope
  refine ⟨_, header, slot, hauth, hfound, ?_⟩
  simp only [FetchCall.slotOf?, hauth, Option.bind_some, hfound, Option.map_some]

/-- A fetch that waited in line goes on. -/
theorem turns_inLine (h : Orderly plans t) (hapart : t.slots.Apart)
    (hpost : (t.calls caller).post = .standing (.inLine attempt))
    (hturn : resume (plans caller) caller t.slots (.inLine attempt) = turn) :
    Turns plans caller t (.sent turn.move) turn := by
  obtain ⟨scope, header, slot, hauth, hfound, hslot⟩ := h.slotOf? (by rw [hpost]; trivial)
  simp only [resume, hslot] at hturn
  obtain ⟨hholder, heq⟩ | ⟨token, hholder, hcurrent, heq⟩ | ⟨hholder, hcurrent, heq⟩ :=
    slot.resume_cases caller
  · have hsame : t.slots.put slot = t.slots := Token.Slots.put_self hapart hfound
    rw [heq, follow, hsame] at hturn
    subst hturn
    refine ⟨t, .refl, rfl, hpost, (Mail.append_nil _).symm, handed_self t.slots, ?_⟩
    rintro _ ⟨⟩
    exact ⟨scope, slot, by rw [scope?, hauth, Option.map_some], hfound, hholder⟩
  · rw [heq] at hturn
    subst hturn
    refine turns_act hauth hfound (.pass hpost hholder hcurrent) rfl rfl ?_
      (fun n _ h => Or.inr (Slot.mem_release.mpr h)) (by rintro _ ⟨⟩)
    simp [Mail.append_eq, Traffic.mail, follow, sendData, Mail.sent, FetchPlan.withToken]
  · rw [heq] at hturn
    subst hturn
    refine turns_act hauth hfound (.ask hpost hholder hcurrent) rfl rfl ?_ (fun n _ h => Or.inl h)
      (by rintro _ ⟨⟩)
    simp [Mail.append_eq, Traffic.mail, follow, Mail.sent]

/-! ### Answers -/

/-- A fetch goes on with the answer to its token request. -/
theorem turns_obtained (h : Orderly plans t)
    (hpost : (t.calls caller).post = .standing (.obtaining attempt)) (answer : Answer)
    (hturn : receive (plans caller) caller answer t.slots (.obtaining attempt) = turn) :
    Turns plans caller t (.taken answer (.obtaining attempt) ++ .sent turn.move) turn := by
  obtain ⟨scope, header, slot, hauth, hfound, hslot⟩ := h.slotOf? (by rw [hpost]; trivial)
  simp only [receive, obtained, hslot] at hturn
  cases hread : Token.read slot.source answer with
  | error e =>
    rw [hread] at hturn
    subst hturn
    refine turns_act hauth hfound (.refuse answer hpost hread) rfl rfl ?_
      (fun n _ h => Or.inr (Slot.mem_release.mpr h)) (by rintro _ ⟨⟩)
    simp [Mail.append_eq, Traffic.mail, Mail.sent, Mail.taken, Caller.fail, Event.answer?]
  | ok token =>
    rw [hread] at hturn
    have hissue : Act (plans caller) header caller slot (t.calls caller) slot
        ((t.calls caller).move (.storing attempt token) []) [(slot.source, answer)] :=
      .issue answer hpost hread
    have hput : t.slots.put (slot.settle (.ok token)).2 =
        (t.slots.put slot).put (slot.settle (.ok token)).2 := by
      refine (Token.Slots.put_put t.slots slot _ ?_).symm
      rw [Slot.settle_ok, Slot.release_source]
    subst hturn
    refine .step (.act caller hauth hfound hissue)
      (by simp [Mail.append_eq, Traffic.mail, Mail.taken])
      (handed_put hfound rfl fun n _ h => Or.inl h) ?_
    refine turns_act hauth (slot?_act hfound hissue) (.store (by rw [Traffic.put_self]; rfl)) hput
      rfl ?_ (fun n _ h => Or.inr (Slot.mem_release.mpr h)) (by rintro _ ⟨⟩)
    simp [Mail.append_eq, Traffic.mail, sendData, Mail.sent, FetchPlan.withToken]

/-- A fetch goes on with the answer to its data request. -/
theorem turns_answered (h : Orderly plans t) {token : String}
    (hpost : (t.calls caller).post = .standing (.sent attempt token)) (answer : Answer)
    (hturn : receive (plans caller) caller answer t.slots (.sent attempt token) = turn) :
    Turns plans caller t (.taken answer (.sent attempt token) ++ .sent turn.move) turn := by
  by_cases hrefresh : attempt = .first ∧ (plans caller).Refreshes answer
  · obtain ⟨rfl, url, status, rfl, hstatus⟩ := hrefresh
    obtain ⟨scope, header, slot, hauth, hfound, -⟩ := h.slotOf? (by rw [hpost]; trivial)
    simp only [receive, answered, hauth, hstatus, if_true] at hturn
    have hrefresh := Step.refresh caller _ hpost ⟨url, status, rfl, hstatus⟩
    have hmail : (t.turn caller (.stale token) [.answer (.error (.status url status))]).mail
        caller = t.mail caller ++ .taken (.error (.status url status)) (.sent .first token) := by
      simp [Mail.append_eq, Traffic.turn, Traffic.mail, Mail.taken, Event.answer?]
    generalize hstale : t.turn caller (.stale token) _ = t₁ at hrefresh hmail
    have hpost₁ : (t₁.calls caller).post = .stale token := by
      rw [← hstale, Traffic.turn, Traffic.put_self]
      rfl
    have hslots₁ : t₁.slots = t.slots := hstale ▸ rfl
    have hfound₁ : t₁.slots.slot? scope = some slot := hslots₁ ▸ hfound
    have hdiscard := Step.act caller hauth hfound₁ (.discard hpost₁)
    -- The second look comes after the stale token is out of the slot.
    have hinvalidate : t.slots.invalidate scope token = t₁.slots.put (slot.invalidate token) := by
      simp only [Token.Slots.invalidate, hfound, hslots₁]
    rw [hinvalidate] at hturn
    refine .step hrefresh hmail (hslots₁ ▸ handed_self t.slots) ?_
    rw [← Mail.nil_append (.sent _)]
    refine .step hdiscard (by simp [Traffic.mail])
      (handed_put hfound₁ (slot.invalidate_source token) fun n _ h => Or.inl ?_) ?_
    · exact (invalidate_queue slot token).1 ▸ h
    · refine turns_seek ((h.step hrefresh).step hdiscard) ?_ hauth hturn
      rw [Traffic.put_self]
      exact .second
  · have hdone : receive (plans caller) caller answer t.slots (.sent attempt token) =
        { move := .done answer, slots := t.slots } := by
      simp only [receive, answered]
      split
      · next url status scope header hauth =>
        rw [if_neg]
        exact fun hstatus => hrefresh ⟨rfl, url, status, rfl, hstatus⟩
      · rfl
    rw [hdone] at hturn
    subst hturn
    refine turns_turn (.finish caller answer ?_) rfl rfl ?_ (by rintro _ ⟨⟩)
    · rw [hpost]
      exact .sent attempt token fun hfirst hstale => hrefresh ⟨hfirst, hstale⟩
    · simp [Mail.append_eq, Traffic.turn, Traffic.mail, Mail.sent, Mail.taken, Event.answer?]

theorem turns_sentPlain (hpost : (t.calls caller).post = .standing .sentPlain) (answer : Answer) :
    Turns plans caller t (.taken answer .sentPlain)
      (receive (plans caller) caller answer t.slots .sentPlain) := by
  refine turns_turn (.finish caller answer ?_) rfl rfl ?_ (by rintro _ ⟨⟩)
  · rw [hpost]
    exact .plain
  · simp [Mail.append_eq, Traffic.turn, Traffic.mail, Mail.taken, Event.answer?]

/-- Whatever a fetch does in a turn of its dialogue, it does in moves: where no request is under way
it goes on by itself, and else with the answer to that request. -/
theorem Run.turns (hapart : slots.Apart) (hempty : ∀ slot ∈ slots, slot.queue = [])
    (h : Run plans slots movers t) {state : FetchCall}
    (hpost : (t.calls caller).post = .standing state) :
    (¬ state.Asks → ∀ turn, (dialogue (plans caller)).resume caller t.slots state = turn →
      Turns plans caller t (.sent turn.move) turn) ∧
    (state.Asks → ∀ answer turn,
      (dialogue (plans caller)).receive caller answer t.slots state = turn →
      Turns plans caller t (.taken answer state ++ .sent turn.move) turn) := by
  have horderly := h.orderly hempty
  cases state with
  | fresh => exact ⟨fun _ _ => turns_fresh horderly hpost, False.elim⟩
  | inLine attempt =>
    have hkept : t.slots.Apart := Token.Slots.apart_of_sources hapart (h.sources hapart)
    exact ⟨fun _ _ => turns_inLine horderly hkept hpost, False.elim⟩
  | obtaining attempt =>
    exact ⟨fun hidle => absurd trivial hidle, fun _ answer _ =>
      turns_obtained horderly hpost answer⟩
  | sent attempt token =>
    exact ⟨fun hidle => absurd trivial hidle, fun _ answer _ =>
      turns_answered horderly hpost answer⟩
  | sentPlain =>
    refine ⟨fun hidle => absurd trivial hidle, fun _ answer turn hturn => ?_⟩
    subst hturn
    exact turns_sentPlain hpost answer

/-! ### Turns of many fetches -/

/-- A fetch stands here, and has sent and taken this. -/
structure Caller.Shows (call : Caller) (shown : Post × Mail) : Prop where
  post : call.post = shown.1
  data : call.requests = shown.2.data
  asked : call.asked = shown.2.asked
  answers : call.answers = shown.2.answers

/-- What fetches come to that take turns in any order, each with an answer where it has a request
under way. Between two turns a fetch may be dropped. -/
inductive Talks (plans : Nat → FetchPlan) (start : Slots) : Slots → (Nat → Post × Mail) → Prop
  | start : Talks plans start start fun _ => (.standing .fresh, {})
  | resume {slots : Slots} {calls : Nat → Post × Mail} (caller : Nat) (state : FetchCall)
      (turn : FetchStep) : Talks plans start slots calls →
      (calls caller).1 = .standing state → ¬ state.Asks →
      (dialogue (plans caller)).resume caller slots state = turn →
      Talks plans start turn.slots
        (Function.update calls caller (.ofMove turn.move, (calls caller).2 ++ .sent turn.move))
  | receive {slots : Slots} {calls : Nat → Post × Mail} (caller : Nat) (answer : Answer)
      (state : FetchCall) (turn : FetchStep) : Talks plans start slots calls →
      (calls caller).1 = .standing state → state.Asks →
      (dialogue (plans caller)).receive caller answer slots state = turn →
      Talks plans start turn.slots (Function.update calls caller
        (.ofMove turn.move, (calls caller).2 ++ (.taken answer state ++ .sent turn.move)))
  | drop {slots : Slots} {calls : Nat → Post × Mail} (caller : Nat) (state : FetchCall) :
      Talks plans start slots calls → (calls caller).1 = .standing state →
      Talks plans start (slots.abandon caller).2
        (Function.update calls caller (.dropped, (calls caller).2))

/-- What a fetch shows after a turn, and what all others show. -/
theorem ComesTo.shows (h : ComesTo plans caller t mail turn t') (hrun : Run plans slots movers t)
    {calls : Nat → Post × Mail} (hcalls : ∀ n, (t.calls n).Shows (calls n)) :
    (∃ more, Run plans slots (movers ++ more) t') ∧ ∀ n, (t'.calls n).Shows
      (Function.update calls caller (.ofMove turn.move, (calls caller).2 ++ mail) n) := by
  obtain ⟨hmore, hothers⟩ := hrun.moves h.moves
  refine ⟨hmore, fun n => ?_⟩
  by_cases hn : n = caller
  · subst hn
    rw [Function.update_self]
    have hshows := hcalls n
    refine ⟨h.post, ?_, ?_, ?_⟩
    · exact (congrArg Mail.data h.mail).trans (congrArg (· ++ mail.data) hshows.data)
    · exact (congrArg Mail.asked h.mail).trans (congrArg (· ++ mail.asked) hshows.asked)
    · exact (congrArg Mail.answers h.mail).trans (congrArg (· ++ mail.answers) hshows.answers)
  · rw [Function.update_of_ne hn, hothers n hn]
    exact hcalls n

/-- Whatever the turns of all fetches come to, some run of moves comes to. -/
theorem Talks.run {start : Slots} {calls : Nat → Post × Mail} (hapart : start.Apart)
    (hempty : ∀ slot ∈ start, slot.queue = []) (h : Talks plans start slots calls) :
    ∃ movers t, Run plans start movers t ∧ t.slots = slots ∧
      ∀ n, (t.calls n).Shows (calls n) := by
  induction h with
  | start => exact ⟨[], _, .start, rfl, fun n => ⟨rfl, rfl, rfl, rfl⟩⟩
  | resume caller state turn _ hpost hidle hturn ih =>
    obtain ⟨movers, t, hrun, rfl, hcalls⟩ := ih
    obtain ⟨t', hcomes⟩ := (hrun.turns hapart hempty ((hcalls caller).post.trans hpost)).1 hidle
      turn hturn
    obtain ⟨⟨more, hmore⟩, hshows⟩ := hcomes.shows hrun hcalls
    exact ⟨_, t', hmore, hcomes.slots, hshows⟩
  | receive caller answer state turn _ hpost hasks hturn ih =>
    obtain ⟨movers, t, hrun, rfl, hcalls⟩ := ih
    obtain ⟨t', hcomes⟩ := (hrun.turns hapart hempty ((hcalls caller).post.trans hpost)).2 hasks
      answer turn hturn
    obtain ⟨⟨more, hmore⟩, hshows⟩ := hcomes.shows hrun hcalls
    exact ⟨_, t', hmore, hcomes.slots, hshows⟩
  | drop caller state _ hpost ih =>
    obtain ⟨movers, t, hrun, rfl, hcalls⟩ := ih
    have hlive : (t.calls caller).post.Live := by
      rw [(hcalls caller).post, hpost]
      trivial
    refine ⟨_, _, hrun.step (.drop caller hlive), rfl, fun n => ?_⟩
    by_cases hn : n = caller
    · subst hn
      rw [Function.update_self, Traffic.put_self]
      have hshows := hcalls n
      exact ⟨rfl, by simp [hshows.data], by simp [hshows.asked], by simp [hshows.answers]⟩
    · rw [Function.update_of_ne hn, Traffic.put_of_ne hn]
      exact hcalls n

end MetricRelay.FetchCall
