import MetricRelay.Fetch.Call
import MetricRelay.Proofs.Token.Slots

/-!
# Fetches side by side

Any number of fetches, for any resources, share the token slots of all scopes.
A fetch may be overtaken between any two of its moves, also where its dialogue
goes on without a pause: between the look into an empty slot and the place in
line, before a token that it got is in the slot, and before and after a stale
token is thrown away. It may be dropped at any time.
-/

namespace MetricRelay

namespace FetchPlan

def withToken (plan : FetchPlan) (header token : String) : Request :=
  { plan.request with header := some ⟨header, token⟩ }

/-- An answer to the first data request that makes its token stale. -/
def Refreshes (plan : FetchPlan) (answer : Answer) : Prop :=
  ∃ url status, answer = .error (.status url status) ∧ plan.policy.refreshes status

end FetchPlan

namespace FetchCall

open Token (Slot Slots)

/-- Where a fetch stands. -/
inductive Post where
  /-- Where its dialogue lets it stand. -/
  | standing (call : FetchCall)
  /-- It has found the slot empty and is not in line. -/
  | missed (attempt : Attempt)
  /-- The token it got is not in the slot yet. -/
  | storing (attempt : Attempt) (token : String)
  /-- The token is stale and has not been thrown away. -/
  | stale (token : String)
  /-- It looks for its second token. -/
  | retrying
  | ended (result : Answer)
  | dropped

namespace Post

inductive Seeks : Post → Attempt → Prop
  | first : Seeks (.standing .fresh) .first
  | second : Seeks .retrying .second

/-- A fetch uses the right to request. -/
def Busy : Post → Prop
  | .standing (.obtaining _) | .storing _ _ => True
  | _ => False

/-- A fetch has its place in the queue of the slot. -/
def Queued : Post → Prop
  | .standing (.inLine _) | .standing (.obtaining _) | .storing _ _ => True
  | _ => False

/-- A fetch has looked into a slot, and neither returned nor been dropped. -/
def Involved : Post → Prop
  | .standing .fresh | .standing .sentPlain | .ended _ | .dropped => False
  | _ => True

inductive Ends (plan : FetchPlan) (answer : Answer) : Post → Prop
  | plain : Ends plan answer (.standing .sentPlain)
  | sent (attempt : Attempt) (token : String)
      (last : attempt = .first → ¬ plan.Refreshes answer) :
      Ends plan answer (.standing (.sent attempt token))

/-- A fetch has neither returned nor been dropped. -/
def Live : Post → Prop
  | .ended _ | .dropped => False
  | _ => True

variable {post : Post} {attempt : Attempt} {plan : FetchPlan} {answer : Answer}

theorem Busy.queued (h : post.Busy) : post.Queued := by
  cases post with
  | standing call => cases call <;> first | exact h | trivial
  | storing attempt token => trivial
  | _ => exact h

theorem Seeks.not_queued (h : post.Seeks attempt) : ¬ post.Queued := by
  cases h <;> exact id

theorem Ends.not_queued (h : post.Ends plan answer) : ¬ post.Queued := by
  cases h <;> exact id

end Post

/-- What happens to a fetch, token requests apart. -/
inductive Event where
  /-- It has got a token, or will get none. -/
  | token (result : Except FetchError String)
  /-- It has sent a data request. -/
  | request (request : Request)
  | answer (answer : Answer)

def Event.request? : Event → Option Request
  | .request q => some q
  | _ => none

@[simp] theorem Event.request?_token (result : Except FetchError String) :
    (Event.token result).request? = none := rfl

@[simp] theorem Event.request?_request (q : Request) : (Event.request q).request? = some q := rfl

@[simp] theorem Event.request?_answer (a : Answer) : (Event.answer a).request? = none := rfl

structure Caller where
  post : Post := .standing .fresh
  history : List Event := []
  /-- The requests for tokens that it has sent. -/
  asked : List Request := []

namespace Caller

def requests (call : Caller) : List Request := call.history.filterMap Event.request?

def move (call : Caller) (post : Post) (events : List Event) : Caller :=
  { call with post, history := call.history ++ events }

def use (call : Caller) (plan : FetchPlan) (header : String) (attempt : Attempt) (token : String) :
    Caller :=
  call.move (.standing (.sent attempt token))
    [.token (.ok token), .request (plan.withToken header token)]

def fail (call : Caller) (error : FetchError) : Caller :=
  call.move (.ended (.error error)) [.token (.error error)]

end Caller

/-- A source of tokens, and an answer that it gave. -/
abbrev TokenReply := Catalog.ScopeEntry × Answer

/-- A move of a fetch that needs a token, on the slot of its scope. -/
inductive Act (plan : FetchPlan) (header : String) (caller : Nat) (slot : Slot) (call : Caller) :
    Slot → Caller → List TokenReply → Prop
  | hit {attempt : Attempt} {token : String} (seeks : call.post.Seeks attempt)
      (current : slot.current = some token) :
      Act plan header caller slot call slot (call.use plan header attempt token) []
  | miss {attempt : Attempt} (seeks : call.post.Seeks attempt) (current : slot.current = none) :
      Act plan header caller slot call slot (call.move (.missed attempt) []) []
  | lock {attempt : Attempt} (post : call.post = .missed attempt) :
      Act plan header caller slot call (slot.lock caller)
        (call.move (.standing (.inLine attempt)) []) []
  | pass {attempt : Attempt} {token : String} (post : call.post = .standing (.inLine attempt))
      (holder : slot.holder = some caller) (current : slot.current = some token) :
      Act plan header caller slot call slot.release.2 (call.use plan header attempt token) []
  | ask {attempt : Attempt} (post : call.post = .standing (.inLine attempt))
      (holder : slot.holder = some caller) (current : slot.current = none) :
      Act plan header caller slot call { slot with requests := slot.requests + 1 }
        { call.move (.standing (.obtaining attempt)) [] with
          asked := call.asked ++ [Token.request slot.source] } []
  | refuse {attempt : Attempt} {error : FetchError} (answer : Answer)
      (post : call.post = .standing (.obtaining attempt))
      (read : Token.read slot.source answer = .error error) :
      Act plan header caller slot call (slot.settle (.error error)).2 (call.fail error)
        [(slot.source, answer)]
  | issue {attempt : Attempt} {token : String} (answer : Answer)
      (post : call.post = .standing (.obtaining attempt))
      (read : Token.read slot.source answer = .ok token) :
      Act plan header caller slot call slot (call.move (.storing attempt token) [])
        [(slot.source, answer)]
  | store {attempt : Attempt} {token : String} (post : call.post = .storing attempt token) :
      Act plan header caller slot call (slot.settle (.ok token)).2
        (call.use plan header attempt token) []
  | discard {token : String} (post : call.post = .stale token) :
      Act plan header caller slot call (slot.invalidate token) (call.move .retrying []) []

structure Traffic where
  slots : Slots
  calls : Nat → Caller := fun _ => {}
  /-- What the sources of tokens have answered. -/
  replies : List TokenReply := []

namespace Traffic

def put (t : Traffic) (slots : Slots) (caller : Nat) (call : Caller) (replies : List TokenReply) :
    Traffic where
  slots
  calls := Function.update t.calls caller call
  replies := t.replies ++ replies

/-- A fetch moves on apart from the slots. -/
def turn (t : Traffic) (caller : Nat) (post : Post) (events : List Event) : Traffic :=
  t.put t.slots caller ((t.calls caller).move post events) []

end Traffic

inductive Step (plans : Nat → FetchPlan) : Traffic → Nat → Traffic → Prop
  | plain {t : Traffic} (caller : Nat) (post : (t.calls caller).post = .standing .fresh)
      (auth : (plans caller).auth = none) :
      Step plans t caller
        (t.turn caller (.standing .sentPlain) [.request (plans caller).request])
  | unknown {t : Traffic} {attempt : Attempt} {scope : AuthScope} {header : String} (caller : Nat)
      (seeks : (t.calls caller).post.Seeks attempt)
      (auth : (plans caller).auth = some (scope, header)) (unlisted : t.slots.slot? scope = none) :
      Step plans t caller
        (t.put t.slots caller ((t.calls caller).fail (Token.noSlot scope)) [])
  | act {t : Traffic} {scope : AuthScope} {header : String} {slot new : Slot} {call : Caller}
      {replies : List TokenReply} (caller : Nat)
      (auth : (plans caller).auth = some (scope, header)) (found : t.slots.slot? scope = some slot)
      (act : Act (plans caller) header caller slot (t.calls caller) new call replies) :
      Step plans t caller (t.put (t.slots.put new) caller call replies)
  | finish {t : Traffic} (caller : Nat) (answer : Answer)
      (ends : (t.calls caller).post.Ends (plans caller) answer) :
      Step plans t caller (t.turn caller (.ended answer) [.answer answer])
  | refresh {t : Traffic} {token : String} (caller : Nat) (answer : Answer)
      (post : (t.calls caller).post = .standing (.sent .first token))
      (stale : (plans caller).Refreshes answer) :
      Step plans t caller (t.turn caller (.stale token) [.answer answer])
  | drop {t : Traffic} (caller : Nat) (live : (t.calls caller).post.Live) :
      Step plans t caller
        (t.put (t.slots.abandon caller).2 caller ((t.calls caller).move .dropped []) [])

/-- The fetches that moved, one after another, and what this has led to. -/
inductive Run (plans : Nat → FetchPlan) (slots : Slots) : List Nat → Traffic → Prop
  | start : Run plans slots [] { slots }
  | step {movers : List Nat} {t t' : Traffic} {caller : Nat} :
      Run plans slots movers t → Step plans t caller t' → Run plans slots (movers ++ [caller]) t'

namespace Traffic

variable {t : Traffic} {slots : Slots} {caller other : Nat} {call : Caller}
  {replies : List TokenReply}

@[simp] theorem put_self : (t.put slots caller call replies).calls caller = call :=
  Function.update_self ..

theorem put_of_ne (h : other ≠ caller) :
    (t.put slots caller call replies).calls other = t.calls other :=
  Function.update_of_ne h ..

/-- A fetch is the one that moved, or stands where it stood. -/
theorem put_calls (t : Traffic) (slots : Slots) (caller : Nat) (call : Caller)
    (replies : List TokenReply) (other : Nat) :
    (other = caller ∧ (t.put slots caller call replies).calls other = call) ∨
      (other ≠ caller ∧ (t.put slots caller call replies).calls other = t.calls other) :=
  Keyed.update_cases t.calls caller call other

end Traffic

/-! ### What a move does to the slot -/

section Slot

variable {plan : FetchPlan} {header : String} {caller : Nat} {slot new : Slot} {call call' : Caller}
  {replies : List TokenReply}

theorem invalidate_queue (slot : Slot) (stale : String) :
    (slot.invalidate stale).holder = slot.holder ∧
      (slot.invalidate stale).line = slot.line := by
  rw [Slot.invalidate]
  split <;> exact ⟨rfl, rfl⟩

theorem Act.source (h : Act plan header caller slot call new call' replies) :
    new.source = slot.source := by
  cases h with
  | lock post => exact slot.lock_source caller
  | pass post holder current => exact slot.release_source
  | refuse answer post read => exact slot.settle_source (.error _)
  | store post => exact slot.settle_source (.ok _)
  | discard post => exact slot.invalidate_source _
  | _ => rfl

theorem free_of_release (slot : Slot) (h : slot.release.2.holder = none) :
    slot.release.2.line = [] := by
  rw [Slot.release] at h ⊢
  split
  · next hline => exact hline
  · next hline => simp [hline] at h

/-- Giving up takes a fetch out of the queue. -/
theorem abandon_queue (caller : Nat) (h : slot.queue.Nodup) :
    (slot.abandon caller).2.queue = slot.queue.filter (· != caller) := by
  rw [Slot.abandon]
  split
  · next hholder =>
    have hall : slot.queue = caller :: slot.line := by simp [Slot.queue, hholder]
    have hline : caller ∉ slot.line := (List.nodup_cons.mp (hall ▸ h)).1
    rw [Slot.release_queue, hall, List.filter_cons_of_neg (by simp)]
    refine (List.filter_eq_self.mpr fun other hother => ?_).symm
    simp only [bne_iff_ne, ne_eq]
    rintro rfl
    exact hline hother
  · next hholder =>
    cases hcase : slot.holder with
    | none => simp [Slot.queue, hcase]
    | some holder =>
      have hne : holder ≠ caller := by simpa [hcase] using hholder
      simp [Slot.queue, hcase, hne]

end Slot

/-! ### Everyone in turn -/

def scope? (plan : FetchPlan) : Option AuthScope := plan.auth.map Prod.fst

/-- The queue of a slot holds the fetches of its scope that have their place in it, and who uses
the right to request holds it. -/
structure InTurn (plans : Nat → FetchPlan) (t : Traffic) (scope : AuthScope) (slot : Slot) :
    Prop where
  nodup : slot.queue.Nodup
  queued : ∀ n, n ∈ slot.queue ↔ scope? (plans n) = some scope ∧ (t.calls n).post.Queued
  right : ∀ n, scope? (plans n) = some scope → (t.calls n).post.Busy → slot.holder = some n
  free : slot.holder = none → slot.line = []

namespace InTurn

variable {plans : Nat → FetchPlan} {t : Traffic} {scope : AuthScope} {slot new : Slot}
  {slots : Slots} {caller : Nat} {call : Caller} {replies : List TokenReply}

/-- One fetch moves. The queue stays right if it is right about that fetch, and the same as before
about the others. -/
theorem move (h : InTurn plans t scope slot) (hnodup : new.queue.Nodup)
    (hothers : ∀ n, n ≠ caller → (n ∈ new.queue ↔ n ∈ slot.queue))
    (hself : caller ∈ new.queue ↔ scope? (plans caller) = some scope ∧ call.post.Queued)
    (hright : scope? (plans caller) = some scope → call.post.Busy → new.holder = some caller)
    (hholder : ∀ n, n ≠ caller → slot.holder = some n → new.holder = some n)
    (hfree : new.holder = none → new.line = []) :
    InTurn plans (t.put slots caller call replies) scope new where
  nodup := hnodup
  queued := by
    intro n
    obtain ⟨rfl, heq⟩ | ⟨hne, heq⟩ := t.put_calls slots caller call replies n
    · rw [heq]
      exact hself
    · rw [heq, hothers n hne]
      exact h.queued n
  right := by
    intro n hscope hbusy
    obtain ⟨rfl, heq⟩ | ⟨hne, heq⟩ := t.put_calls slots caller call replies n
    · exact hright hscope (heq ▸ hbusy)
    · exact hholder n hne (h.right n hscope (heq ▸ hbusy))
  free := hfree

/-- A fetch moves and keeps its place, or stays without one. -/
theorem stay (h : InTurn plans t scope slot)
    (hsame : new.holder = slot.holder ∧ new.line = slot.line)
    (hpost : scope? (plans caller) = some scope →
      ((t.calls caller).post.Queued ↔ call.post.Queued))
    (hright : scope? (plans caller) = some scope → call.post.Busy → slot.holder = some caller) :
    InTurn plans (t.put slots caller call replies) scope new := by
  have hqueue : new.queue = slot.queue := by rw [Slot.queue, Slot.queue, hsame.1, hsame.2]
  refine h.move (hqueue ▸ h.nodup) (fun n _ => by rw [hqueue]) ?_
    (fun hscope hbusy => hsame.1 ▸ hright hscope hbusy) (fun n _ hholder => hsame.1 ▸ hholder)
    (fun hnone => hsame.2.trans (h.free (hsame.1 ▸ hnone)))
  rw [hqueue, h.queued]
  exact and_congr_right hpost

/-- A fetch gets in line. -/
theorem lock (h : InTurn plans t scope slot) (hscope : scope? (plans caller) = some scope)
    (hold : ¬ (t.calls caller).post.Queued) (hnew : call.post.Queued) (hidle : ¬ call.post.Busy) :
    InTurn plans (t.put slots caller call replies) scope (slot.lock caller) := by
  have hperm := slot.lock_queue caller
  have hout : caller ∉ slot.queue := fun hmem => hold ((h.queued caller).mp hmem).2
  refine h.move (hperm.nodup_iff.mpr (List.nodup_cons.mpr ⟨hout, h.nodup⟩)) (fun n hne => ?_) ?_
    (fun _ hbusy => absurd hbusy hidle) (fun n _ hholder => Slot.lock_holder hholder caller) ?_
  · rw [hperm.mem_iff, List.mem_cons]
    exact or_iff_right hne
  · exact iff_of_true (hperm.mem_iff.mpr List.mem_cons_self) ⟨hscope, hnew⟩
  · intro hnone
    cases hholder : slot.holder with
    | none => simp [Slot.lock, hholder] at hnone
    | some other => simp [Slot.lock, hholder] at hnone

/-- The holder of the right passes it on. -/
theorem leave (h : InTurn plans t scope slot) (hholder : slot.holder = some caller)
    (hnew : ¬ call.post.Queued) (current : Option String) :
    InTurn plans (t.put slots caller call replies) scope { slot with current }.release.2 := by
  have hall : slot.queue = caller :: slot.line := by simp [Slot.queue, hholder]
  have hqueue : { slot with current }.release.2.queue = slot.line := Slot.release_queue _
  obtain ⟨hout, hline⟩ := List.nodup_cons.mp (hall ▸ h.nodup)
  refine h.move (by rwa [hqueue]) (fun n hne => ?_) ?_
    (fun _ hbusy => absurd hbusy.queued hnew) (fun n hne hother => ?_)
    (free_of_release _)
  · rw [hqueue, hall, List.mem_cons, or_iff_right hne]
  · rw [hqueue]
    exact iff_of_false hout fun hself => hnew hself.2
  · exact absurd (Option.some.inj (hother.symm.trans hholder)) hne

/-- A fetch gives up. -/
theorem abandon (h : InTurn plans t scope slot) (hnew : ¬ call.post.Queued) :
    InTurn plans (t.put slots caller call replies) scope (slot.abandon caller).2 := by
  have hqueue := abandon_queue caller h.nodup
  refine h.move (hqueue ▸ h.nodup.filter _) (fun n hne => ?_) ?_
    (fun _ hbusy => absurd hbusy.queued hnew) (fun n hne hholder => ?_) (fun hnone => ?_)
  · simp [hqueue, List.mem_filter, hne]
  · rw [hqueue]
    exact iff_of_false (by simp [List.mem_filter]) fun hself => hnew hself.2
  · have hother : slot.holder ≠ some caller := by
      rw [hholder]
      exact fun heq => hne (Option.some.inj heq)
    rw [Slot.abandon, if_neg hother]
    exact hholder
  · rw [Slot.abandon] at hnone ⊢
    split at hnone
    · next heq =>
      rw [if_pos heq]
      exact free_of_release slot hnone
    · next hother =>
      rw [if_neg hother]
      simp [h.free hnone]

end InTurn

/-- Everyone is in turn, and no fetch has lost its slot. -/
structure Orderly (plans : Nat → FetchPlan) (t : Traffic) : Prop where
  inTurn : ∀ scope slot, t.slots.slot? scope = some slot → InTurn plans t scope slot
  found : ∀ n, (t.calls n).post.Involved →
    ∃ scope slot, scope? (plans n) = some scope ∧ t.slots.slot? scope = some slot

namespace Orderly

variable {plans : Nat → FetchPlan} {t t' : Traffic} {scope : AuthScope} {header : String}
  {slot new : Slot} {slots : Slots} {caller : Nat} {call : Caller} {replies : List TokenReply}

/-- A fetch outside all queues moves on outside them. -/
theorem turn (h : Orderly plans t) {post : Post} {events : List Event}
    (hold : ¬ (t.calls caller).post.Queued) (hnew : ¬ post.Queued)
    (hinvolved : post.Involved → (t.calls caller).post.Involved) :
    Orderly plans (t.turn caller post events) where
  inTurn := by
    intro scope slot hslot
    exact (h.inTurn scope slot hslot).stay ⟨rfl, rfl⟩ (fun _ => iff_of_false hold hnew)
      (fun _ hbusy => absurd hbusy.queued hnew)
  found := by
    intro n hn
    obtain ⟨rfl, heq⟩ | ⟨-, heq⟩ :=
      t.put_calls t.slots caller ((t.calls caller).move post events) [] n
    · refine h.found n (hinvolved ?_)
      change ((t.put ..).calls n).post.Involved at hn
      rwa [heq] at hn
    · refine h.found n ?_
      change ((t.put ..).calls n).post.Involved at hn
      rwa [heq] at hn

/-- A fetch makes a move on the slot of its scope. -/
theorem act (h : Orderly plans t)
    (hauth : (plans caller).auth = some (scope, header)) (hfound : t.slots.slot? scope = some slot)
    (hact : Act (plans caller) header caller slot (t.calls caller) new call replies) :
    Orderly plans (t.put (t.slots.put new) caller call replies) := by
  have hscope : scope? (plans caller) = some scope := by rw [scope?, hauth, Option.map_some]
  have hsource := hact.source
  have hkept := h.inTurn scope slot hfound
  constructor
  · intro other held hheld
    by_cases hother : other = scope
    · subst hother
      rw [show (t.put (t.slots.put new) caller call replies).slots = t.slots.put new from rfl,
        Token.Slots.slot?_put hfound hsource] at hheld
      cases hheld
      cases hact with
      | hit seeks current =>
        exact hkept.stay ⟨rfl, rfl⟩ (fun _ => iff_of_false seeks.not_queued id)
          (fun _ => False.elim)
      | miss seeks current =>
        exact hkept.stay ⟨rfl, rfl⟩ (fun _ => iff_of_false seeks.not_queued id)
          (fun _ => False.elim)
      | lock post => exact hkept.lock hscope (by rw [post]; exact id) trivial id
      | pass post holder current => exact hkept.leave holder id slot.current
      | ask post holder current =>
        exact hkept.stay ⟨rfl, rfl⟩ (fun _ => iff_of_true (by rw [post]; trivial) trivial)
          (fun _ _ => holder)
      | refuse answer post read =>
        have hholder := hkept.right caller hscope (by rw [post]; trivial)
        exact hkept.leave hholder id slot.current
      | issue answer post read =>
        have hbusy : (t.calls caller).post.Busy := by rw [post]; trivial
        exact hkept.stay ⟨rfl, rfl⟩ (fun _ => iff_of_true hbusy.queued trivial)
          (fun _ _ => hkept.right caller hscope hbusy)
      | store post =>
        have hholder := hkept.right caller hscope (by rw [post]; trivial)
        exact hkept.leave hholder id _
      | discard post =>
        exact hkept.stay (invalidate_queue slot _)
          (fun _ => iff_of_false (by rw [post]; exact id) id) (fun _ => False.elim)
    · rw [show (t.put (t.slots.put new) caller call replies).slots = t.slots.put new from rfl,
        Token.Slots.slot?_put_of_ne] at hheld
      · have helse : ∀ {P : Prop}, scope? (plans caller) = some other → P := fun heq =>
          absurd (Option.some.inj (heq.symm.trans hscope)) hother
        exact (h.inTurn other held hheld).stay ⟨rfl, rfl⟩ helse helse
      · rw [hsource, Token.Slots.scope_of_slot? hfound]
        exact hother
  · intro n hn
    obtain ⟨rfl, -⟩ | ⟨-, heq⟩ := t.put_calls (t.slots.put new) caller call replies n
    · exact ⟨scope, new, hscope, Token.Slots.slot?_put hfound hsource⟩
    · obtain ⟨other, held, hother, hheld⟩ := h.found n (heq ▸ hn)
      obtain ⟨s, hs⟩ := Token.Slots.exists_slot?_put hheld new
      exact ⟨other, s, hother, hs⟩

theorem drop (h : Orderly plans t) : Orderly plans
    (t.put (t.slots.abandon caller).2 caller ((t.calls caller).move .dropped []) []) where
  inTurn := by
    intro scope slot hslot
    rw [show (t.put (t.slots.abandon caller).2 caller _ []).slots =
      (t.slots.abandon caller).2 from rfl, Token.Slots.slot?_abandon] at hslot
    obtain ⟨old, hold, rfl⟩ := Option.map_eq_some_iff.mp hslot
    exact (h.inTurn scope old hold).abandon id
  found := by
    intro n hn
    obtain ⟨rfl, heq⟩ | ⟨-, heq⟩ := t.put_calls (t.slots.abandon caller).2 caller
      ((t.calls caller).move .dropped []) [] n
    · rw [heq] at hn
      exact hn.elim
    · obtain ⟨scope, slot, hscope, hslot⟩ := h.found n (heq ▸ hn)
      exact ⟨scope, _, hscope, Token.Slots.slot?_abandon caller ▸ congrArg (Option.map _) hslot⟩

theorem step (h : Orderly plans t) (hstep : Step plans t caller t') : Orderly plans t' := by
  cases hstep with
  | plain caller post auth => exact h.turn (by rw [post]; exact id) id False.elim
  | unknown caller seeks auth unlisted => exact h.turn seeks.not_queued id False.elim
  | act caller auth found act => exact h.act auth found act
  | finish caller answer ends => exact h.turn ends.not_queued id False.elim
  | refresh caller answer post stale =>
    exact h.turn (by rw [post]; exact id) id fun _ => by rw [post]; trivial
  | drop caller live => exact h.drop

end Orderly

/-! ### Nobody waits for ever -/

def CanMove (plans : Nat → FetchPlan) (t : Traffic) (n : Nat) : Prop :=
  ∃ t', Step plans t n t' ∧ (t'.calls n).post ≠ .dropped

section Progress

variable {plans : Nat → FetchPlan} {t : Traffic} {scope : AuthScope} {header : String}
  {slot new : Slot} {caller : Nat} {call : Caller} {replies : List TokenReply}

theorem CanMove.act (hauth : (plans caller).auth = some (scope, header))
    (hfound : t.slots.slot? scope = some slot)
    (hact : Act (plans caller) header caller slot (t.calls caller) new call replies) :
    CanMove plans t caller := by
  refine ⟨_, .act caller hauth hfound hact, ?_⟩
  rw [Traffic.put_self]
  cases hact <;> rintro ⟨⟩

theorem CanMove.turn {post : Post} {events : List Event} (hpost : post ≠ .dropped)
    (hstep : Step plans t caller (t.turn caller post events)) : CanMove plans t caller := by
  refine ⟨_, hstep, ?_⟩
  rw [Traffic.turn, Traffic.put_self]
  exact hpost

theorem canMove_of_seeks {attempt : Attempt} (hseeks : (t.calls caller).post.Seeks attempt)
    (hauth : (plans caller).auth = some (scope, header)) : CanMove plans t caller := by
  cases hfound : t.slots.slot? scope with
  | none => exact .turn (by rintro ⟨⟩) (.unknown caller hseeks hauth hfound)
  | some slot =>
    cases hcurrent : slot.current with
    | none => exact .act hauth hfound (.miss hseeks hcurrent)
    | some token => exact .act hauth hfound (.hit hseeks hcurrent)

/-- Who holds the right to request can go on. -/
theorem canMove_of_holder (hauth : (plans caller).auth = some (scope, header))
    (hfound : t.slots.slot? scope = some slot) (hholder : slot.holder = some caller)
    (hqueued : (t.calls caller).post.Queued) : CanMove plans t caller := by
  cases hpost : (t.calls caller).post with
  | standing state =>
    rw [hpost] at hqueued
    cases state with
    | inLine attempt =>
      cases hcurrent : slot.current with
      | none => exact .act hauth hfound (.ask hpost hholder hcurrent)
      | some token => exact .act hauth hfound (.pass hpost hholder hcurrent)
    | obtaining attempt =>
      cases hread : Token.read slot.source (.error .cancelled) with
      | error e => exact .act hauth hfound (.refuse _ hpost hread)
      | ok token => exact .act hauth hfound (.issue _ hpost hread)
    | _ => exact hqueued.elim
  | storing attempt token => exact .act hauth hfound (.store hpost)
  | _ =>
    rw [hpost] at hqueued
    exact hqueued.elim

/-- Whoever waits in line waits for a fetch that can go on. -/
theorem Orderly.not_stuck (h : Orderly plans t) (hlive : (t.calls caller).post.Live) :
    ∃ n, CanMove plans t n ∧ (n = caller ∨ scope? (plans n) = scope? (plans caller)) := by
  have hneeds : (t.calls caller).post.Involved → ∃ scope header slot,
      (plans caller).auth = some (scope, header) ∧ t.slots.slot? scope = some slot := by
    intro hinvolved
    obtain ⟨scope, slot, hscope, hfound⟩ := h.found caller hinvolved
    obtain ⟨⟨_, header⟩, hauth, rfl⟩ := Option.map_eq_some_iff.mp hscope
    exact ⟨_, header, slot, hauth, hfound⟩
  have hself : CanMove plans t caller → ∃ n, CanMove plans t n ∧
      (n = caller ∨ scope? (plans n) = scope? (plans caller)) :=
    fun hmove => ⟨caller, hmove, Or.inl rfl⟩
  have hqueue : (t.calls caller).post.Queued → (t.calls caller).post.Involved →
      ∃ n, CanMove plans t n ∧ (n = caller ∨ scope? (plans n) = scope? (plans caller)) := by
    intro hqueued hinvolved
    obtain ⟨scope, header, slot, hauth, hfound⟩ := hneeds hinvolved
    have hscope : scope? (plans caller) = some scope := by rw [scope?, hauth, Option.map_some]
    have hkept := h.inTurn scope slot hfound
    have hmem := (hkept.queued caller).mpr ⟨hscope, hqueued⟩
    cases hholder : slot.holder with
    | none => simp [Slot.queue, hholder, hkept.free hholder] at hmem
    | some n =>
      obtain ⟨hn, hqueued'⟩ := (hkept.queued n).mp (by simp [Slot.queue, hholder])
      obtain ⟨⟨_, header'⟩, hauth', rfl⟩ := Option.map_eq_some_iff.mp hn
      exact ⟨n, canMove_of_holder hauth' hfound hholder hqueued', Or.inr (hn.trans hscope.symm)⟩
  cases hpost : (t.calls caller).post with
  | standing state =>
    cases state with
    | fresh =>
      cases hauth : (plans caller).auth with
      | none => exact hself (.turn (by rintro ⟨⟩) (.plain caller hpost hauth))
      | some need =>
        have hseeks : (t.calls caller).post.Seeks .first := by rw [hpost]; exact .first
        exact hself (canMove_of_seeks hseeks hauth)
    | inLine attempt => exact hqueue (by rw [hpost]; trivial) (by rw [hpost]; trivial)
    | obtaining attempt => exact hqueue (by rw [hpost]; trivial) (by rw [hpost]; trivial)
    | sent attempt token =>
      refine hself (.turn (by rintro ⟨⟩) (.finish caller (.error .cancelled) ?_))
      rw [hpost]
      exact .sent attempt token (by rintro - ⟨_, _, ⟨⟩, -⟩)
    | sentPlain =>
      exact hself (.turn (by rintro ⟨⟩) (.finish caller (.error .cancelled) (hpost ▸ .plain)))
  | missed attempt =>
    obtain ⟨scope, header, slot, hauth, hfound⟩ := hneeds (by rw [hpost]; trivial)
    exact hself (.act hauth hfound (.lock hpost))
  | storing attempt token => exact hqueue (by rw [hpost]; trivial) (by rw [hpost]; trivial)
  | stale token =>
    obtain ⟨scope, header, slot, hauth, hfound⟩ := hneeds (by rw [hpost]; trivial)
    exact hself (.act hauth hfound (.discard hpost))
  | retrying =>
    obtain ⟨scope, header, slot, hauth, hfound⟩ := hneeds (by rw [hpost]; trivial)
    have hseeks : (t.calls caller).post.Seeks .second := by rw [hpost]; exact .second
    exact hself (canMove_of_seeks hseeks hauth)
  | ended result =>
    rw [hpost] at hlive
    exact hlive.elim
  | dropped =>
    rw [hpost] at hlive
    exact hlive.elim

end Progress

/-- How many moves of the second attempt may follow those of this one. -/
def rest : Attempt → Nat
  | .first => 7
  | .second => 0

def Post.left : Post → Nat
  | .standing .fresh => 13
  | .missed attempt => rest attempt + 5
  | .standing (.inLine attempt) => rest attempt + 4
  | .standing (.obtaining attempt) => rest attempt + 3
  | .storing attempt _ => rest attempt + 2
  | .standing (.sent attempt _) => rest attempt + 1
  | .stale _ => 7
  | .retrying => 6
  | .standing .sentPlain => 1
  | .ended _ | .dropped => 0

section Moves

variable {plans : Nat → FetchPlan} {t t' : Traffic} {caller : Nat}

theorem Post.Seeks.left {post : Post} {attempt : Attempt} (h : post.Seeks attempt) :
    post.left = rest attempt + 6 := by
  cases h <;> rfl

theorem Act.left {plan : FetchPlan} {header : String} {slot new : Slot} {call call' : Caller}
    {replies : List TokenReply} (h : Act plan header caller slot call new call' replies) :
    call'.post.left < call.post.left := by
  cases h with
  | hit seeks current =>
    rw [seeks.left]
    simp [Caller.use, Caller.move, Post.left]
  | miss seeks current =>
    rw [seeks.left]
    simp [Caller.move, Post.left]
  | refuse answer post read => simp [Caller.fail, Caller.move, Post.left, post]
  | issue answer post read => simp [Caller.move, Post.left, post]
  | _ post => simp [Caller.use, Caller.move, Post.left, post]

theorem Post.left_pos {post : Post} (h : post.Live) : 0 < post.left := by
  cases post with
  | standing state => cases state <;> simp [left]
  | ended result => exact h.elim
  | dropped => exact h.elim
  | _ => simp [left]

theorem Post.Ends.live {post : Post} {plan : FetchPlan} {answer : Answer}
    (h : post.Ends plan answer) : post.Live := by
  cases h <;> trivial

theorem Step.left (h : Step plans t caller t') :
    (t'.calls caller).post.left < (t.calls caller).post.left := by
  cases h with
  | plain caller post auth => simp [Traffic.turn, Caller.move, Post.left, post]
  | unknown caller seeks auth unlisted =>
    rw [Traffic.put_self, seeks.left]
    exact Nat.succ_pos _
  | act caller auth found act =>
    rw [Traffic.put_self]
    exact act.left
  | finish caller answer ends =>
    rw [Traffic.turn, Traffic.put_self]
    exact Post.left_pos ends.live
  | refresh caller answer post stale => simp [Traffic.turn, Caller.move, Post.left, rest, post]
  | drop caller live =>
    rw [Traffic.put_self]
    exact Post.left_pos live

theorem Step.sources (hapart : t.slots.Apart) (h : Step plans t caller t') :
    t'.slots.sources = t.slots.sources := by
  cases h with
  | act caller auth found act => exact Token.Slots.sources_put hapart found act.source
  | drop caller live => exact Token.Slots.sources_abandon t.slots caller
  | _ => rfl

theorem Step.others (h : Step plans t caller t') {n : Nat} (hn : n ≠ caller) :
    t'.calls n = t.calls n := by
  cases h <;> exact Traffic.put_of_ne hn

theorem Run.left {slots : Slots} {movers : List Nat} (h : Run plans slots movers t) (n : Nat) :
    movers.count n + (t.calls n).post.left ≤ 13 := by
  induction h with
  | start => exact Nat.le_refl 13
  | @step movers t t' caller _ hstep ih =>
    rw [List.count_append, List.count_singleton]
    by_cases hn : caller = n
    · subst hn
      have hleft := hstep.left
      simp only [beq_self_eq_true, if_true]
      omega
    · rw [if_neg (by simpa using hn), hstep.others (Ne.symm hn)]
      exact ih

theorem Run.sources {slots : Slots} {movers : List Nat} (hapart : slots.Apart)
    (h : Run plans slots movers t) : t.slots.sources = slots.sources := by
  induction h with
  | start => rfl
  | step _ hstep ih => exact (hstep.sources (Token.Slots.apart_of_sources hapart ih)).trans ih

theorem Run.orderly {slots : Slots} {movers : List Nat}
    (hslots : ∀ slot ∈ slots, slot.queue = []) (h : Run plans slots movers t) :
    Orderly plans t := by
  induction h with
  | start =>
    constructor
    · intro scope slot hslot
      have hempty := hslots slot (Token.Slots.mem_of_slot? hslot)
      obtain ⟨-, hline⟩ := List.append_eq_nil_iff.mp hempty
      refine ⟨hempty ▸ List.nodup_nil, fun n => ?_, fun n _ hbusy => hbusy.elim, fun _ => hline⟩
      rw [hempty]
      exact iff_of_false List.not_mem_nil fun hqueued => hqueued.2
    · intro n hn
      exact hn.elim
  | step _ hstep ih => exact ih.step hstep

end Moves

end FetchCall
end MetricRelay
