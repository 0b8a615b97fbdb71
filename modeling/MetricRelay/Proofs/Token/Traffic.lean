import Mathlib.Data.List.Dedup
import Mathlib.Data.List.Perm.Subperm
import MetricRelay.Fetch.Dialogue
import MetricRelay.Proofs.Keyed

/-!
# Calls on one auth scope

Any number of calls for the token of a scope, and of calls that throw a token
away, run side by side. A call may be overtaken between any two of its moves:
after its first look into the slot, after it got the right to request, while
its request is in flight, and before the token it got is in the slot.
-/

namespace MetricRelay.Token

namespace Slot

/-- A caller asks for the right to request a token, and stands in line if it is taken. -/
def lock (s : Slot) (caller : Nat) : Slot :=
  match s.holder with
  | none => { s with holder := some caller }
  | some _ => { s with line := s.line ++ [caller] }

def queue (s : Slot) : List Nat := s.holder.toList ++ s.line

theorem ask_of_some {s : Slot} {token : String} (h : s.current = some token) (caller : Nat) :
    s.ask caller = (.use token, s) := by
  rw [ask, h]

/-- Whoever finds the slot empty gets in line and looks again. -/
theorem ask_of_none {s : Slot} {caller : Nat} (h : s.current = none)
    (hnew : s.holder ≠ some caller) :
    s.ask caller = (((s.lock caller).resume caller).1, ((s.lock caller).resume caller).2.2) := by
  cases hholder : s.holder with
  | none => simp [ask, lock, resume, h, hholder]
  | some other =>
    have hother : other ≠ caller := by
      rintro rfl
      exact hnew hholder
    simp [ask, lock, resume, h, hholder, hother]

@[simp] theorem release_source (s : Slot) : s.release.2.source = s.source := by
  rw [release]
  split <;> rfl

@[simp] theorem release_current (s : Slot) : s.release.2.current = s.current := by
  rw [release]
  split <;> rfl

@[simp] theorem release_requests (s : Slot) : s.release.2.requests = s.requests := by
  rw [release]
  split <;> rfl

theorem release_queue (s : Slot) : s.release.2.queue = s.line := by
  rw [release]
  split
  · next h => simp [queue, h]
  · next h => simp [queue, h]

@[simp] theorem lock_source (s : Slot) (caller : Nat) : (s.lock caller).source = s.source := by
  rw [lock]
  split <;> rfl

@[simp] theorem lock_current (s : Slot) (caller : Nat) : (s.lock caller).current = s.current := by
  rw [lock]
  split <;> rfl

theorem lock_queue (s : Slot) (caller : Nat) : (s.lock caller).queue.Perm (caller :: s.queue) := by
  cases h : s.holder with
  | none => simp [lock, queue, h]
  | some other =>
    simp only [lock, queue, h, Option.toList_some, List.singleton_append]
    exact (List.perm_append_singleton caller (other :: s.line)).trans (List.Perm.refl _)

theorem lock_holder {s : Slot} {other : Nat} (h : s.holder = some other) (caller : Nat) :
    (s.lock caller).holder = some other := by
  simp [lock, h]

theorem holder_of_lock {s : Slot} {caller n : Nat} (hn : n ≠ caller)
    (h : (s.lock caller).holder = some n) : s.holder = some n := by
  cases hholder : s.holder with
  | none =>
    rw [lock, hholder] at h
    exact absurd (Option.some.inj h).symm hn
  | some other =>
    rw [lock_holder hholder] at h
    exact h

/-- Who gets the right is let go on, and nobody else. -/
theorem mem_release {s : Slot} {n : Nat} : n ∈ s.release.1 ↔ s.release.2.holder = some n := by
  rw [release]
  split
  · simp
  · simp [eq_comm]

/-- What a second look leads to: who has no right waits on, a token is used and the right passed
on, and an empty slot is a reason to request. -/
theorem resume_cases (s : Slot) (caller : Nat) :
    (s.holder ≠ some caller ∧ s.resume caller = (.wait, [], s)) ∨
    (∃ token, s.holder = some caller ∧ s.current = some token ∧
      s.resume caller = (.use token, s.release)) ∨
    (s.holder = some caller ∧ s.current = none ∧
      s.resume caller = (.request, [], { s with requests := s.requests + 1 })) := by
  by_cases hholder : s.holder = some caller
  · cases hcurrent : s.current with
    | none => exact Or.inr (Or.inr ⟨hholder, rfl, by simp [resume, hholder, hcurrent]⟩)
    | some token =>
      exact Or.inr (Or.inl ⟨token, hholder, rfl, by simp [resume, hholder, hcurrent]⟩)
  · exact Or.inl ⟨hholder, by simp [resume, hholder]⟩

@[simp] theorem ask_source (s : Slot) (caller : Nat) : (s.ask caller).2.source = s.source := by
  rw [ask]
  split
  · rfl
  · split <;> rfl

@[simp] theorem resume_source (s : Slot) (caller : Nat) :
    (s.resume caller).2.2.source = s.source := by
  obtain ⟨-, heq⟩ | ⟨token, -, -, heq⟩ | ⟨-, -, heq⟩ := s.resume_cases caller
  · rw [heq]
  · rw [heq]
    exact s.release_source
  · rw [heq]

@[simp] theorem settle_source (s : Slot) (result : Except FetchError String) :
    (s.settle result).2.source = s.source := by
  cases result with
  | ok token => exact release_source { s with current := some token }
  | error e => exact s.release_source

@[simp] theorem settle_requests (s : Slot) (result : Except FetchError String) :
    (s.settle result).2.requests = s.requests := by
  cases result with
  | ok token => exact release_requests { s with current := some token }
  | error e => exact s.release_requests

@[simp] theorem invalidate_source (s : Slot) (stale : String) :
    (s.invalidate stale).source = s.source := by
  rw [invalidate]
  split <;> rfl

theorem settle_ok (s : Slot) (token : String) :
    s.settle (.ok token) = { s with current := some token }.release := rfl

/-- Only the current token can be thrown away. -/
theorem invalidate_of_ne {s : Slot} {stale : String} (h : s.current ≠ some stale) :
    s.invalidate stale = s := by
  rw [invalidate, if_neg h]

theorem invalidate_of_eq {s : Slot} {stale : String} (h : s.current = some stale) :
    s.invalidate stale = { s with current := none } := by
  rw [invalidate, if_pos h]

end Slot

/-- A token that is read is not empty. -/
theorem read_ne_empty {source : Catalog.ScopeEntry} {answer : Answer} {token : String}
    (h : Token.read source answer = .ok token) : token ≠ "" := by
  simp only [Token.read] at h
  split at h
  · cases h
  split at h
  · cases h
  split at h
  · cases h
  split at h
  · cases h
  · next hempty =>
    cases h
    rintro rfl
    exact hempty rfl

/-- The reason why there is no token names the location of its source. -/
theorem auth_of_read {source : Catalog.ScopeEntry} {answer : Answer} {error : FetchError}
    (h : Token.read source answer = .error error) : ∃ reason, error = .auth source.url reason := by
  simp only [Token.read] at h
  split at h
  · cases h
    exact ⟨_, rfl⟩
  split at h
  · cases h
    exact ⟨_, rfl⟩
  split at h
  · cases h
    exact ⟨_, rfl⟩
  split at h
  · cases h
    exact ⟨_, rfl⟩
  · cases h

/-! ### Calls and their moves -/

inductive Stage where
  | fresh
  /-- It has found the slot empty. -/
  | missed
  /-- It has asked for the right to request, and looks again when it has it. -/
  | inLine
  | requesting
  /-- The token it got is not in the slot yet. -/
  | storing (token : String)
  | done (result : Except FetchError String)

/-- A call uses the right to request. -/
inductive Stage.Busy : Stage → Prop
  | requesting : Busy .requesting
  | storing (token : String) : Busy (.storing token)

/-- A call has its place in the queue of the slot. -/
def Stage.Queued (stage : Stage) : Prop := stage = .inLine ∨ stage.Busy

def Need.stage : Need → Stage
  | .use token => .done (.ok token)
  | .request => .requesting
  | .wait => .inLine

/-- A slot and the calls on it, by their numbers. -/
structure Traffic where
  slot : Slot
  calls : Nat → Stage := fun _ => .fresh

def Traffic.put (t : Traffic) (slot : Slot) (caller : Nat) (stage : Stage) : Traffic :=
  ⟨slot, Function.update t.calls caller stage⟩

inductive Move where
  | look (caller : Nat)
  | lock (caller : Nat)
  | resume (caller : Nat)
  | answer (caller : Nat) (answer : Answer)
  | store (caller : Nat) (token : String)
  | invalidate (stale : String)

inductive Step : Traffic → Move → Traffic → Prop
  | hit {t : Traffic} {token : String} (caller : Nat) (stage : t.calls caller = .fresh)
      (current : t.slot.current = some token) :
      Step t (.look caller) (t.put t.slot caller (.done (.ok token)))
  | miss {t : Traffic} (caller : Nat) (stage : t.calls caller = .fresh)
      (current : t.slot.current = none) :
      Step t (.look caller) (t.put t.slot caller .missed)
  | lock {t : Traffic} (caller : Nat) (stage : t.calls caller = .missed) :
      Step t (.lock caller) (t.put (t.slot.lock caller) caller .inLine)
  | resume {t : Traffic} (caller : Nat) (stage : t.calls caller = .inLine) :
      Step t (.resume caller)
        (t.put (t.slot.resume caller).2.2 caller (t.slot.resume caller).1.stage)
  | refuse {t : Traffic} {answer : Answer} {error : FetchError} (caller : Nat)
      (stage : t.calls caller = .requesting)
      (read : Token.read t.slot.source answer = .error error) :
      Step t (.answer caller answer)
        (t.put (t.slot.settle (.error error)).2 caller (.done (.error error)))
  | issue {t : Traffic} {answer : Answer} {token : String} (caller : Nat)
      (stage : t.calls caller = .requesting)
      (read : Token.read t.slot.source answer = .ok token) :
      Step t (.answer caller answer) (t.put t.slot caller (.storing token))
  | store {t : Traffic} {token : String} (caller : Nat) (stage : t.calls caller = .storing token) :
      Step t (.store caller token)
        (t.put (t.slot.settle (.ok token)).2 caller (.done (.ok token)))
  | invalidate (t : Traffic) (stale : String) :
      Step t (.invalidate stale) { t with slot := t.slot.invalidate stale }

/-- The moves of a run from the empty slot of a scope, and what they lead to. -/
inductive Run (source : Catalog.ScopeEntry) : List Move → Traffic → Prop
  | start : Run source [] { slot := { source } }
  | step {moves : List Move} {t t' : Traffic} {m : Move} :
      Run source moves t → Step t m t' → Run source (moves ++ [m]) t'

def Move.issued? (source : Catalog.ScopeEntry) : Move → Option String
  | .answer _ got => (Token.read source got).toOption
  | _ => none

def Move.stored? : Move → Option String
  | .store _ token => some token
  | _ => none

def Move.stale? : Move → Option String
  | .invalidate stale => some stale
  | _ => none

def issued (source : Catalog.ScopeEntry) (moves : List Move) : List String :=
  moves.filterMap (Move.issued? source)

def stored (moves : List Move) : List String := moves.filterMap Move.stored?

/-- The tokens that were to be thrown away. -/
def stale (moves : List Move) : List String := moves.filterMap Move.stale?

theorem mem_issued {source : Catalog.ScopeEntry} {moves : List Move} {token : String} :
    token ∈ issued source moves ↔ ∃ caller answer,
      Move.answer caller answer ∈ moves ∧ Token.read source answer = .ok token := by
  rw [issued, List.mem_filterMap]
  constructor
  · rintro ⟨m, hm, htoken⟩
    cases m with
    | answer caller answer =>
      refine ⟨caller, answer, hm, ?_⟩
      cases hread : Token.read source answer with
      | error e => simp [Move.issued?, hread, Except.toOption] at htoken
      | ok t =>
        simp only [Move.issued?, hread, Except.toOption, Option.some.injEq] at htoken
        rw [htoken]
    | _ => cases htoken
  · rintro ⟨caller, answer, hm, hread⟩
    exact ⟨_, hm, by simp [Move.issued?, hread, Except.toOption]⟩

theorem issued_append (source : Catalog.ScopeEntry) (moves : List Move) (m : Move) :
    issued source (moves ++ [m]) = issued source moves ++ (m.issued? source).toList := by
  rw [issued, List.filterMap_append, issued]
  cases h : m.issued? source <;> simp [h]

theorem stored_append (moves : List Move) (m : Move) :
    stored (moves ++ [m]) = stored moves ++ m.stored?.toList := by
  rw [stored, List.filterMap_append, stored]
  cases h : m.stored? <;> simp [h]

theorem stale_append (moves : List Move) (m : Move) :
    stale (moves ++ [m]) = stale moves ++ m.stale?.toList := by
  rw [stale, List.filterMap_append, stale]
  cases h : m.stale? <;> simp [h]

namespace Traffic

@[simp] theorem put_self (t : Traffic) (slot : Slot) (caller : Nat) (stage : Stage) :
    (t.put slot caller stage).calls caller = stage :=
  Function.update_self ..

theorem put_of_ne (t : Traffic) (slot : Slot) {caller other : Nat} (h : other ≠ caller)
    (stage : Stage) : (t.put slot caller stage).calls other = t.calls other :=
  Function.update_of_ne h ..

/-- A call is the one that moved, or stands where it stood. -/
theorem put_calls (t : Traffic) (slot : Slot) (caller : Nat) (stage : Stage) (other : Nat) :
    (other = caller ∧ (t.put slot caller stage).calls other = stage) ∨
      (other ≠ caller ∧ (t.put slot caller stage).calls other = t.calls other) :=
  Keyed.update_cases t.calls caller stage other

/-! ### The right to request -/

/-- Only who holds the right to request uses it, and while it is used the slot is empty. -/
structure Orderly (t : Traffic) : Prop where
  nodup : t.slot.queue.Nodup
  queued : ∀ caller ∈ t.slot.queue, (t.calls caller).Queued
  right : ∀ caller, (t.calls caller).Busy → t.slot.holder = some caller
  empty : ∀ caller, (t.calls caller).Busy → t.slot.current = none

namespace Orderly

variable {t : Traffic} {caller : Nat} {stage : Stage} {slot : Slot}

/-- No two calls use the right. -/
theorem busy_unique (h : t.Orderly) {a b : Nat} (ha : (t.calls a).Busy) (hb : (t.calls b).Busy) :
    a = b :=
  Option.some.inj ((h.right a ha).symm.trans (h.right b hb))

theorem not_mem_queue (h : t.Orderly) (hstage : ¬ (t.calls caller).Queued) :
    caller ∉ t.slot.queue :=
  fun hmem => hstage (h.queued caller hmem)

/-- A call outside the queue moves on outside the queue. -/
theorem pass (h : t.Orderly) (hold : ¬ (t.calls caller).Queued) (hnew : ¬ stage.Queued) :
    (t.put t.slot caller stage).Orderly := by
  have hbusy : ∀ other, ((t.put t.slot caller stage).calls other).Busy →
      (t.calls other).Busy := by
    intro other hother
    obtain ⟨-, heq⟩ | ⟨-, heq⟩ := t.put_calls t.slot caller stage other
    · exact (hnew (Or.inr (heq ▸ hother))).elim
    · exact heq ▸ hother
  refine ⟨h.nodup, fun other hmem => ?_, fun other hother => h.right other (hbusy other hother),
    fun other hother => h.empty other (hbusy other hother)⟩
  have hne : other ≠ caller := by
    rintro rfl
    exact h.not_mem_queue hold hmem
  rw [put_of_ne t t.slot hne]
  exact h.queued other hmem

/-- A call gets in line. -/
theorem lock (h : t.Orderly) (hold : ¬ (t.calls caller).Queued) :
    (t.put (t.slot.lock caller) caller .inLine).Orderly := by
  have hqueue := t.slot.lock_queue caller
  have hbusy : ∀ other, ((t.put (t.slot.lock caller) caller .inLine).calls other).Busy →
      (t.calls other).Busy := by
    intro other hother
    obtain ⟨-, heq⟩ | ⟨-, heq⟩ := t.put_calls (t.slot.lock caller) caller .inLine other
    · rw [heq] at hother
      cases hother
    · exact heq ▸ hother
  refine ⟨?_, fun other hmem => ?_, fun other hother => ?_, fun other hother => ?_⟩
  · exact hqueue.nodup_iff.mpr (List.nodup_cons.mpr ⟨h.not_mem_queue hold, h.nodup⟩)
  · obtain ⟨-, heq⟩ | ⟨hne, heq⟩ := t.put_calls (t.slot.lock caller) caller .inLine other
    · rw [heq]
      exact Or.inl rfl
    · have hmem' : other ∈ caller :: t.slot.queue := hqueue.mem_iff.mp hmem
      exact heq ▸ h.queued other ((List.mem_cons.mp hmem').resolve_left hne)
  · exact Slot.lock_holder (h.right other (hbusy other hother)) caller
  · exact (t.slot.lock_current caller).trans (h.empty other (hbusy other hother))

/-- The holder of the right goes on using it. -/
theorem hold (h : t.Orderly) (hholder : t.slot.holder = some caller)
    (hslot : slot.holder = t.slot.holder) (hline : slot.line = t.slot.line)
    (hempty : slot.current = none) (hnew : stage.Busy) : (t.put slot caller stage).Orderly := by
  have hqueue : slot.queue = t.slot.queue := by rw [Slot.queue, hslot, hline, Slot.queue]
  refine ⟨hqueue.symm ▸ h.nodup, fun other hmem => ?_, fun other hother => ?_, fun _ _ => hempty⟩
  · obtain ⟨-, heq⟩ | ⟨-, heq⟩ := t.put_calls slot caller stage other
    · rw [heq]
      exact Or.inr hnew
    · exact heq ▸ h.queued other (hqueue ▸ hmem)
  · obtain ⟨rfl, -⟩ | ⟨-, heq⟩ := t.put_calls slot caller stage other
    · exact hslot.trans hholder
    · exact hslot.trans (h.right other (heq ▸ hother))

/-- The holder of the right passes it on and is done. -/
theorem leave (h : t.Orderly) (hholder : t.slot.holder = some caller)
    (hqueue : slot.queue = t.slot.line) (hnew : ¬ stage.Queued) :
    (t.put slot caller stage).Orderly := by
  have hall : t.slot.queue = caller :: t.slot.line := by simp [Slot.queue, hholder]
  have hnodup : (caller :: t.slot.line).Nodup := hall ▸ h.nodup
  have hidle : ∀ other, ¬ ((t.put slot caller stage).calls other).Busy := by
    intro other hother
    obtain ⟨-, heq⟩ | ⟨hne, heq⟩ := t.put_calls slot caller stage other
    · exact hnew (Or.inr (heq ▸ hother))
    · exact hne (Option.some.inj ((h.right other (heq ▸ hother)).symm.trans hholder))
  refine ⟨hqueue.symm ▸ (List.nodup_cons.mp hnodup).2, fun other hmem => ?_,
    fun other hother => (hidle other hother).elim, fun other hother => (hidle other hother).elim⟩
  have hline : other ∈ t.slot.line := hqueue ▸ hmem
  have hne : other ≠ caller := by
    rintro rfl
    exact (List.nodup_cons.mp hnodup).1 hline
  rw [put_of_ne t _ hne]
  exact h.queued other (hall ▸ List.mem_cons_of_mem _ hline)

theorem invalidate (h : t.Orderly) (old : String) :
    Orderly { t with slot := t.slot.invalidate old } := by
  by_cases hcurrent : t.slot.current = some old
  · rw [Slot.invalidate_of_eq hcurrent]
    exact ⟨h.nodup, h.queued, h.right, fun _ _ => rfl⟩
  · rw [Slot.invalidate_of_ne hcurrent]
    exact h

theorem resume (h : t.Orderly) (hstage : t.calls caller = .inLine) :
    (t.put (t.slot.resume caller).2.2 caller (t.slot.resume caller).1.stage).Orderly := by
  obtain ⟨-, heq⟩ | ⟨token, hholder, hcurrent, heq⟩ | ⟨hholder, hcurrent, heq⟩ :=
    t.slot.resume_cases caller
  · have hsame : t.put t.slot caller .inLine = t := by
      rw [put, ← hstage, Function.update_eq_self]
    rw [heq]
    exact hsame.symm ▸ h
  · rw [heq]
    exact h.leave hholder t.slot.release_queue (by rintro (h | h) <;> cases h)
  · rw [heq]
    exact h.hold hholder rfl rfl hcurrent .requesting

theorem step {t' : Traffic} {m : Move} (h : t.Orderly) (hstep : Step t m t') : t'.Orderly := by
  cases hstep with
  | hit _ hstage _ =>
    exact h.pass (by rw [hstage]; rintro (h | h) <;> cases h) (by rintro (h | h) <;> cases h)
  | miss _ hstage _ =>
    exact h.pass (by rw [hstage]; rintro (h | h) <;> cases h) (by rintro (h | h) <;> cases h)
  | lock _ hstage => exact h.lock (by rw [hstage]; rintro (h | h) <;> cases h)
  | resume _ hstage => exact h.resume hstage
  | refuse _ hstage _ =>
    exact h.leave (h.right _ (hstage ▸ Stage.Busy.requesting)) t.slot.release_queue
      (by rintro (h | h) <;> cases h)
  | issue _ hstage _ =>
    have hbusy : (t.calls _).Busy := hstage ▸ Stage.Busy.requesting
    exact h.hold (h.right _ hbusy) rfl rfl (h.empty _ hbusy) (.storing _)
  | store _ hstage =>
    exact h.leave (h.right _ (hstage ▸ Stage.Busy.storing _)) (Slot.release_queue _)
      (by rintro (h | h) <;> cases h)
  | invalidate old => exact h.invalidate old

end Orderly

/-! ### Where tokens come from and where they go -/

/-- Every token at hand was issued, tokens are stored in the order in which they were issued, and
one that was stored is in the slot until it is thrown away. -/
structure Traced (source : Catalog.ScopeEntry) (moves : List Move) (t : Traffic) : Prop where
  origin : t.slot.source = source
  current : ∀ token, t.slot.current = some token → token ∈ issued source moves
  done : ∀ caller token, t.calls caller = .done (.ok token) → token ∈ issued source moves
  kept : (stored moves).Sublist (issued source moves)
  storing : ∀ caller token, t.calls caller = .storing token →
    (stored moves ++ [token]).Sublist (issued source moves)
  thrown : ∀ token ∈ stored moves, t.slot.current = some token ∨ token ∈ stale moves

namespace Traced

variable {source : Catalog.ScopeEntry} {moves : List Move} {t : Traffic} {caller : Nat}
  {stage : Stage} {slot : Slot} {m : Move}

theorem issued_mono {token : String} (htoken : token ∈ issued source moves) (m : Move) :
    token ∈ issued source (moves ++ [m]) := by
  rw [issued_append]
  exact List.mem_append_left _ htoken

theorem stale_mono {token : String} (htoken : token ∈ stale moves) (m : Move) :
    token ∈ stale (moves ++ [m]) := by
  rw [stale_append]
  exact List.mem_append_left _ htoken

/-- A move that issues nothing and stores nothing. -/
theorem quiet (h : t.Traced source moves) (hissued : m.issued? source = none)
    (hstored : m.stored? = none) (hsource : slot.source = t.slot.source)
    (hcurrent : slot.current = t.slot.current) (hstoring : ∀ token, stage ≠ .storing token)
    (hdone : ∀ token, stage = .done (.ok token) → t.slot.current = some token) :
    (t.put slot caller stage).Traced source (moves ++ [m]) := by
  have hissues : issued source (moves ++ [m]) = issued source moves := by
    simp [issued_append, hissued]
  have hstores : stored (moves ++ [m]) = stored moves := by simp [stored_append, hstored]
  refine ⟨hsource.trans h.origin, fun token htoken => ?_, fun other token htoken => ?_, ?_,
    fun other token htoken => ?_, fun token htoken => ?_⟩
  · exact hissues ▸ h.current token (hcurrent ▸ htoken)
  · rw [hissues]
    obtain ⟨-, heq⟩ | ⟨-, heq⟩ := t.put_calls slot caller stage other
    · exact h.current token (hdone token (heq.symm.trans htoken))
    · exact h.done other token (heq.symm.trans htoken)
  · rw [hstores, hissues]
    exact h.kept
  · obtain ⟨-, heq⟩ | ⟨-, heq⟩ := t.put_calls slot caller stage other
    · exact (hstoring token (heq.symm.trans htoken)).elim
    · rw [hstores, hissues]
      exact h.storing other token (heq.symm.trans htoken)
  · rcases h.thrown token (hstores ▸ htoken) with hin | hout
    · exact Or.inl (hcurrent.trans hin)
    · exact Or.inr (stale_mono hout m)

theorem resume (h : t.Traced source moves) :
    (t.put (t.slot.resume caller).2.2 caller (t.slot.resume caller).1.stage).Traced source
      (moves ++ [.resume caller]) := by
  obtain ⟨-, heq⟩ | ⟨token, -, hcurrent, heq⟩ | ⟨-, -, heq⟩ := t.slot.resume_cases caller
  · rw [heq]
    exact h.quiet rfl rfl rfl rfl (by rintro _ ⟨⟩) (by rintro _ ⟨⟩)
  · rw [heq]
    refine h.quiet rfl rfl t.slot.release_source t.slot.release_current (by rintro _ ⟨⟩) ?_
    rintro used ⟨⟩
    exact hcurrent
  · rw [heq]
    exact h.quiet rfl rfl rfl rfl (by rintro _ ⟨⟩) (by rintro _ ⟨⟩)

/-- A request brings a token. Nobody else has one to store. -/
theorem issue (h : t.Traced source moves) (ho : t.Orderly) {answer : Answer} {token : String}
    (hstage : t.calls caller = .requesting) (hread : Token.read source answer = .ok token) :
    (t.put t.slot caller (.storing token)).Traced source (moves ++ [.answer caller answer]) := by
  have hissues : issued source (moves ++ [.answer caller answer]) =
      issued source moves ++ [token] := by
    simp [issued_append, Move.issued?, hread, Except.toOption]
  have hstores : stored (moves ++ [.answer caller answer]) = stored moves := by
    simp [stored_append, Move.stored?]
  refine ⟨h.origin, fun token htoken => issued_mono (h.current token htoken) _,
    fun other done hdone => ?_, ?_, fun other made hmade => ?_, fun token htoken => ?_⟩
  · obtain ⟨-, heq⟩ | ⟨-, heq⟩ := t.put_calls t.slot caller (.storing token) other
    · cases heq.symm.trans hdone
    · exact issued_mono (h.done other done (heq.symm.trans hdone)) _
  · rw [hstores, hissues]
    exact h.kept.trans (List.sublist_append_left _ _)
  · obtain ⟨-, heq⟩ | ⟨hne, heq⟩ := t.put_calls t.slot caller (.storing token) other
    · cases heq.symm.trans hmade
      rw [hstores, hissues]
      exact h.kept.append (List.Sublist.refl _)
    · have hbusy : (t.calls other).Busy := heq.symm.trans hmade ▸ .storing made
      exact (hne (ho.busy_unique hbusy (hstage ▸ .requesting))).elim
  · rcases h.thrown token (hstores ▸ htoken) with hin | hout
    · exact Or.inl hin
    · exact Or.inr (stale_mono hout _)

/-- A token is stored, over no other one. -/
theorem store (h : t.Traced source moves) (ho : t.Orderly) {token : String}
    (hstage : t.calls caller = .storing token) :
    (t.put (t.slot.settle (.ok token)).2 caller (.done (.ok token))).Traced source
      (moves ++ [.store caller token]) := by
  have hissues : issued source (moves ++ [.store caller token]) = issued source moves := by
    simp [issued_append, Move.issued?]
  have hstores : stored (moves ++ [.store caller token]) = stored moves ++ [token] := by
    simp [stored_append, Move.stored?]
  have hkept := h.storing caller token hstage
  have htoken : token ∈ issued source moves := hkept.subset (by simp)
  have hempty : t.slot.current = none := ho.empty caller (hstage ▸ .storing token)
  have hcurrent : (t.slot.settle (.ok token)).2.current = some token := by
    rw [Slot.settle_ok, Slot.release_current]
  refine ⟨?_, fun held hheld => ?_, fun other done hdone => ?_, ?_, fun other made hmade => ?_,
    fun old hold => ?_⟩
  · exact (Slot.release_source _).trans h.origin
  · cases hcurrent.symm.trans hheld
    exact hissues ▸ htoken
  · rw [hissues]
    obtain ⟨-, heq⟩ | ⟨-, heq⟩ := t.put_calls (t.slot.settle (.ok token)).2 caller
      (.done (.ok token)) other
    · cases heq.symm.trans hdone
      exact htoken
    · exact h.done other done (heq.symm.trans hdone)
  · rw [hstores, hissues]
    exact hkept
  · obtain ⟨-, heq⟩ | ⟨hne, heq⟩ := t.put_calls (t.slot.settle (.ok token)).2 caller
      (.done (.ok token)) other
    · cases heq.symm.trans hmade
    · have hbusy : (t.calls other).Busy := heq.symm.trans hmade ▸ .storing made
      exact (hne (ho.busy_unique hbusy (hstage ▸ .storing token))).elim
  · rw [hstores] at hold
    rcases List.mem_append.mp hold with hbefore | hnow
    · rcases h.thrown old hbefore with hin | hout
      · cases hempty.symm.trans hin
      · exact Or.inr (stale_mono hout _)
    · rw [List.mem_singleton.mp hnow]
      exact Or.inl hcurrent

theorem invalidate (h : t.Traced source moves) (old : String) :
    Traced source (moves ++ [.invalidate old]) { t with slot := t.slot.invalidate old } := by
  have hissues : issued source (moves ++ [.invalidate old]) = issued source moves := by
    simp [issued_append, Move.issued?]
  have hstores : stored (moves ++ [.invalidate old]) = stored moves := by
    simp [stored_append, Move.stored?]
  have hstale : old ∈ stale (moves ++ [.invalidate old]) := by
    simp [stale_append, Move.stale?]
  by_cases hcurrent : t.slot.current = some old
  · rw [Slot.invalidate_of_eq hcurrent]
    refine ⟨h.origin, fun _ hnone => (by cases hnone), fun other token htoken => ?_, ?_,
      fun other token htoken => ?_, fun token htoken => Or.inr ?_⟩
    · exact hissues ▸ h.done other token htoken
    · rw [hstores, hissues]
      exact h.kept
    · rw [hstores, hissues]
      exact h.storing other token htoken
    · rcases h.thrown token (hstores ▸ htoken) with hin | hout
      · cases hcurrent.symm.trans hin
        exact hstale
      · exact stale_mono hout _
  · rw [Slot.invalidate_of_ne hcurrent]
    refine ⟨h.origin, ?_, ?_, ?_, ?_, fun token htoken => ?_⟩
    · exact hissues ▸ h.current
    · exact hissues ▸ h.done
    · rw [hstores, hissues]
      exact h.kept
    · rw [hstores, hissues]
      exact h.storing
    · exact (h.thrown token (hstores ▸ htoken)).imp_right (stale_mono · _)

theorem step {t' : Traffic} (h : t.Traced source moves) (ho : t.Orderly) (hstep : Step t m t') :
    t'.Traced source (moves ++ [m]) := by
  cases hstep with
  | hit _ _ hcurrent =>
    refine h.quiet rfl rfl rfl rfl (by rintro _ ⟨⟩) ?_
    rintro used ⟨⟩
    exact hcurrent
  | miss _ _ _ => exact h.quiet rfl rfl rfl rfl (by rintro _ ⟨⟩) (by rintro _ ⟨⟩)
  | lock _ _ =>
    exact h.quiet rfl rfl (t.slot.lock_source _) (t.slot.lock_current _) (by rintro _ ⟨⟩)
      (by rintro _ ⟨⟩)
  | resume _ _ => exact h.resume
  | refuse _ _ hread =>
    rw [h.origin] at hread
    exact h.quiet (by simp [Move.issued?, hread, Except.toOption]) rfl t.slot.release_source
      t.slot.release_current (by rintro _ ⟨⟩) (by rintro _ ⟨⟩)
  | issue _ hstage hread => exact h.issue ho hstage (h.origin ▸ hread)
  | store _ hstage => exact h.store ho hstage
  | invalidate old => exact h.invalidate old

/-- All stored tokens but the one in the slot have been thrown away. -/
theorem stored_length (h : t.Traced source moves) (hunique : (issued source moves).Nodup) :
    (stored moves).length ≤ 1 + (stale moves).dedup.length := by
  have hnodup : (stored moves).Nodup := h.kept.nodup hunique
  cases hcurrent : t.slot.current with
  | none =>
    have hsub : stored moves ⊆ (stale moves).dedup := by
      intro token htoken
      rcases h.thrown token htoken with hin | hout
      · cases hcurrent.symm.trans hin
      · exact List.mem_dedup.mpr hout
    have := (List.subperm_of_subset hnodup hsub).length_le
    omega
  | some token =>
    have hsub : stored moves ⊆ token :: (stale moves).dedup := by
      intro old hold
      rcases h.thrown old hold with hin | hout
      · cases hcurrent.symm.trans hin
        exact List.mem_cons_self
      · exact List.mem_cons_of_mem _ (List.mem_dedup.mpr hout)
    have := (List.subperm_of_subset hnodup hsub).length_le
    rw [List.length_cons] at this
    omega

end Traced

end Traffic

/-! ### Whole runs -/

namespace Run

variable {source : Catalog.ScopeEntry} {moves : List Move} {t : Traffic}

theorem orderly (h : Run source moves t) : t.Orderly := by
  induction h with
  | start => exact ⟨List.nodup_nil, by rintro _ ⟨⟩, by rintro _ ⟨⟩, by rintro _ ⟨⟩⟩
  | step _ hstep ih => exact ih.step hstep

theorem traced (h : Run source moves t) : t.Traced source moves := by
  induction h with
  | start => exact ⟨rfl, by rintro _ ⟨⟩, by rintro _ _ ⟨⟩, List.Sublist.refl _, by rintro _ _ ⟨⟩,
      by rintro _ ⟨⟩⟩
  | step hrun hstep ih => exact ih.step hrun.orderly hstep

/-- Side by side, calls make one request at a time, end with tokens that were issued, throw away
what they mean to, and store at most one token more than were to be thrown away. -/
theorem single_refresh (h : Run source moves t) :
    (∀ a b, t.calls a = .requesting → t.calls b = .requesting → a = b) ∧
    (∀ caller token, t.calls caller = .done (.ok token) →
      token ≠ "" ∧ ∃ asker answer, Move.answer asker answer ∈ moves ∧
        Token.read source answer = .ok token) ∧
    (∀ old, t.slot.current ≠ some old → t.slot.invalidate old = t.slot) ∧
    ((issued source moves).Nodup → (stored moves).length ≤ 1 + (stale moves).dedup.length) := by
  refine ⟨fun a b ha hb => ?_, fun caller token hdone => ?_, fun old => Slot.invalidate_of_ne, ?_⟩
  · exact h.orderly.busy_unique (ha ▸ .requesting) (hb ▸ .requesting)
  · obtain ⟨asker, answer, hmove, hread⟩ := mem_issued.mp (h.traced.done caller token hdone)
    exact ⟨read_ne_empty hread, asker, answer, hmove, hread⟩
  · exact h.traced.stored_length

end Run

/-! ### A token that two callers share -/

def loginScope : Catalog.ScopeEntry where
  scope := ⟨⟨0⟩, none⟩
  table := ⟨"X-CSRF-Token", "/csrf", "/t"⟩
  url := "http://node/csrf"

def letterAnswer (letter : UInt8) : Answer :=
  .ok [123, 34, 116, 34, 58, 34, letter, 34, 125]

theorem read_letterAnswer : Token.read loginScope (letterAnswer 97) = .ok "a" ∧
    Token.read loginScope (letterAnswer 98) = .ok "b" := by
  have hdecode : ∀ letter ∈ [97, 98],
      Text.Utf8.decode [123, 34, 116, 34, 58, 34, letter, 34, 125] =
        .ok ['\x7b', '"', 't', '"', ':', '"', Char.ofNat letter.toNat, '"', '\x7d'] := by
    simp [Text.Utf8.decode, Text.Utf8.decodeFrom, Text.Utf8.head]
    exact ⟨rfl, rfl⟩
  have ha : Json.read? ['\x7b', '"', 't', '"', ':', '"', Char.ofNat (97 : UInt8).toNat, '"',
      '\x7d'] = some (.object [("t", .string "a")]) := rfl
  have hb : Json.read? ['\x7b', '"', 't', '"', ':', '"', Char.ofNat (98 : UInt8).toNat, '"',
      '\x7d'] = some (.object [("t", .string "b")]) := rfl
  constructor
  · simp only [Token.read, letterAnswer, Node.ofJsonBody, hdecode 97 (by decide), ha]
    rfl
  · simp only [Token.read, letterAnswer, Node.ofJsonBody, hdecode 98 (by decide), hb]
    rfl

/-- One caller waits behind another; their token is thrown away by both, the second time after a
third caller has asked for the next one. -/
def sharedMoves : List Move :=
  [.look 0, .lock 0, .look 1, .resume 0, .lock 1, .answer 0 (letterAnswer 97), .store 0 "a",
    .resume 1, .invalidate "a", .look 2, .lock 2, .resume 2, .answer 2 (letterAnswer 98),
    .store 2 "b", .invalidate "a"]

theorem run_sharedMoves : ∃ t, Run loginScope sharedMoves t := by
  obtain ⟨ha, hb⟩ := read_letterAnswer
  have h₁ := (Run.start : Run loginScope [] _).step (.miss 0 rfl rfl)
  have h₂ := (h₁.step (.lock 0 rfl)).step (.miss 1 rfl rfl)
  have h₃ := (h₂.step (.resume 0 rfl)).step (.lock 1 rfl)
  have h₄ := (h₃.step (.issue 0 rfl ha)).step (.store 0 rfl)
  have h₅ := (h₄.step (.resume 1 rfl)).step (.invalidate _ "a")
  have h₆ := (h₅.step (.miss 2 rfl rfl)).step (.lock 2 rfl)
  have h₇ := (h₆.step (.resume 2 rfl)).step (.issue 2 rfl hb)
  exact ⟨_, (h₇.step (.store 2 rfl)).step (.invalidate _ "a")⟩

theorem single_refresh_shared : ∃ t, Run loginScope sharedMoves t ∧
    (issued loginScope sharedMoves).Nodup ∧
    (∀ a b, t.calls a = .requesting → t.calls b = .requesting → a = b) ∧
    (stored sharedMoves).length ≤ 1 + (stale sharedMoves).dedup.length := by
  obtain ⟨t, h⟩ := run_sharedMoves
  obtain ⟨ha, hb⟩ := read_letterAnswer
  have hissued : issued loginScope sharedMoves = ["a", "b"] := by
    simp [issued, sharedMoves, List.filterMap_cons, Move.issued?, ha, hb, Except.toOption]
  have hunique : (issued loginScope sharedMoves).Nodup := by
    rw [hissued]
    decide
  obtain ⟨hone, -, -, hbound⟩ := Run.single_refresh h
  exact ⟨t, h, hunique, hone, hbound hunique⟩

end MetricRelay.Token
