import IniNode.Lib.Run
import IniNode.Wire
/-!
# The notification bus

One goroutine publishes chain events with `sendNotification`, and `notifyLoop` takes them from the channel and
runs the callbacks. When the channel is full the publisher runs the callbacks itself, and once the loop has
returned nobody reads the channel any more. Every receive and every invocation of a callback is a step, so a
list of steps is an interleaving of the publisher, the loop and `StopNotifications`.

As long as every event finds room and the loop alive, each callback is invoked for the events in the order they
were published, and for all of them once nothing is left to do (`delivered_in_order`).
-/

open IniNode.Lib List Option Function

namespace IniNode

inductive NotificationType where
  | blockAccepted
  | blockConnected
  | blockDisconnected
deriving DecidableEq, Repr

structure Notification where
  type : NotificationType
  data : Block
deriving DecidableEq, Repr

def notifyQueueCapacity : Nat := 1024

/-- Where `notifyLoop` is: in its select, inside `dispatchNotification` with the callback to run next, in the
select of the drain, or returned. -/
inductive NotifyLoop where
  | waiting
  | dispatching (n : Notification) (next : Nat) (quitting : Bool)
  | draining
  | done
deriving DecidableEq

structure NotificationBus where
  notifyChan : List Notification
  loop : NotifyLoop
  /-- The event that the publisher dispatches inline, and the callback to run next. -/
  inline : Option (Notification × Nat)
  /-- `notifyQuit` is closed. -/
  quit : Bool
  published : List Notification
  invoked : Nat → List Notification

inductive BusStep where
  | publish (n : Notification)
  | stopNotifications
  | inlineCall
  | receive
  | call
  | seeQuit
  | drainReceive
  | drainEnd
deriving DecidableEq

/-- The steps that the goroutines take by themselves. -/
def BusStep.internal : List BusStep := [.inlineCall, .receive, .call, .seeQuit, .drainReceive, .drainEnd]

def publications (steps : List BusStep) : List Notification :=
  steps.filterMap fun
    | .publish n => some n
    | _ => none

namespace NotificationBus

def new : NotificationBus := ⟨[], .waiting, none, false, [], fun _ => []⟩

variable (s : NotificationBus)

/-- `callback(n)`. -/
def invoke (c : Nat) (n : Notification) : NotificationBus :=
  { s with invoked := update s.invoked c (s.invoked c ++ [n]) }

section Step
variable (callbacks : Nat)

/-- One step, with so many callbacks registered. -/
def step (s : NotificationBus) : BusStep → Option NotificationBus
  | .publish n =>
    if s.inline.isSome then none
    else if s.notifyChan.length < notifyQueueCapacity then
      some { s with notifyChan := s.notifyChan ++ [n], published := s.published ++ [n] }
    else some { s with inline := some (n, 0), published := s.published ++ [n] }
  | .stopNotifications => some { s with quit := true }
  | .inlineCall =>
    match s.inline with
    | some (n, c) =>
      some (if c < callbacks then { s.invoke c n with inline := some (n, c + 1) } else { s with inline := none })
    | none => none
  | .receive =>
    match s.loop, s.notifyChan with
    | .waiting, n :: rest => some { s with loop := .dispatching n 0 false, notifyChan := rest }
    | _, _ => none
  | .call =>
    match s.loop with
    | .dispatching n c quitting =>
      some
        (if c < callbacks then { s.invoke c n with loop := .dispatching n (c + 1) quitting }
        else { s with loop := if quitting then .draining else .waiting })
    | _ => none
  | .seeQuit => if s.loop = .waiting ∧ s.quit = true then some { s with loop := .draining } else none
  | .drainReceive =>
    match s.loop, s.notifyChan with
    | .draining, n :: rest => some { s with loop := .dispatching n 0 true, notifyChan := rest }
    | _, _ => none
  | .drainEnd => if s.loop = .draining ∧ s.notifyChan = [] then some { s with loop := .done } else none

/-- No goroutine has anything left to do. -/
def AtRest (s : NotificationBus) : Prop := ∀ a ∈ BusStep.internal, s.step callbacks a = none

instance (s : NotificationBus) : Decidable (s.AtRest callbacks) :=
  decidable_of_iff (∀ a ∈ BusStep.internal, (s.step callbacks a).isNone) (by simp [AtRest])

end Step

/-- What a step can do. -/
inductive Move (callbacks : Nat) (s : NotificationBus) : BusStep → NotificationBus → Prop
  | enqueue (n : Notification) (hi : s.inline = none) (hroom : s.notifyChan.length < notifyQueueCapacity) :
    Move callbacks s (.publish n) { s with notifyChan := s.notifyChan ++ [n], published := s.published ++ [n] }
  | inline (n : Notification) (hfull : ¬ s.notifyChan.length < notifyQueueCapacity) :
    Move callbacks s (.publish n) { s with inline := some (n, 0), published := s.published ++ [n] }
  | stop : Move callbacks s .stopNotifications { s with quit := true }
  | inlineCall (n : Notification) (c : Nat) (hi : s.inline = some (n, c)) (hc : c < callbacks) :
    Move callbacks s .inlineCall { s.invoke c n with inline := some (n, c + 1) }
  | inlineDone (n : Notification) (c : Nat) (hi : s.inline = some (n, c)) (hc : ¬ c < callbacks) :
    Move callbacks s .inlineCall { s with inline := none }
  | receive (n : Notification) (rest : List Notification) (hloop : s.loop = .waiting) (hchan : s.notifyChan = n :: rest) :
    Move callbacks s .receive { s with loop := .dispatching n 0 false, notifyChan := rest }
  | drainReceive (n : Notification) (rest : List Notification) (hloop : s.loop = .draining)
    (hchan : s.notifyChan = n :: rest) :
    Move callbacks s .drainReceive { s with loop := .dispatching n 0 true, notifyChan := rest }
  | call (n : Notification) (c : Nat) (quitting : Bool) (hloop : s.loop = .dispatching n c quitting) (hc : c < callbacks) :
    Move callbacks s .call { s.invoke c n with loop := .dispatching n (c + 1) quitting }
  | callDone (n : Notification) (c : Nat) (quitting : Bool) (hloop : s.loop = .dispatching n c quitting)
    (hc : ¬ c < callbacks) : Move callbacks s .call { s with loop := if quitting then .draining else .waiting }
  | seeQuit (hloop : s.loop = .waiting) : Move callbacks s .seeQuit { s with loop := .draining }
  | drainEnd (hloop : s.loop = .draining) (hchan : s.notifyChan = []) :
    Move callbacks s .drainEnd { s with loop := .done }

theorem step_move {callbacks : Nat} {s t : NotificationBus} {a : BusStep} (h : s.step callbacks a = some t) :
    Move callbacks s a t := by
  cases a with
  | publish n =>
    simp only [step] at h
    split at h
    · cases h
    next hi =>
      split at h
      next hroom =>
        cases h
        exact .enqueue n (by simpa using hi) hroom
      next hfull =>
        cases h
        exact .inline n hfull
  | stopNotifications =>
    cases h
    exact .stop
  | inlineCall =>
    simp only [step] at h
    split at h
    next n c hi =>
      cases h
      split
      next hc => exact .inlineCall n c hi hc
      next hc => exact .inlineDone n c hi hc
    next => cases h
  | receive =>
    simp only [step] at h
    split at h
    next n rest hloop hchan =>
      cases h
      exact .receive n rest hloop hchan
    next => cases h
  | call =>
    simp only [step] at h
    split at h
    next n c quitting hloop =>
      cases h
      split
      next hc => exact .call n c quitting hloop hc
      next hc => exact .callDone n c quitting hloop hc
    next => cases h
  | seeQuit =>
    obtain ⟨⟨hloop, -⟩, ⟨⟩⟩ := ite_none_right_eq_some.1 h
    exact .seeQuit hloop
  | drainReceive =>
    simp only [step] at h
    split at h
    next n rest hloop hchan =>
      cases h
      exact .drainReceive n rest hloop hchan
    next => cases h
  | drainEnd =>
    obtain ⟨⟨hloop, hchan⟩, ⟨⟩⟩ := ite_none_right_eq_some.1 h
    exact .drainEnd hloop hchan

/-! ## What is on the way -/

/-- The events a callback is still to be invoked with: one that is being dispatched and has not come to it, and
those in the channel. -/
def pending (c : Nat) : List Notification :=
  match s.loop with
  | .dispatching n next _ => if c < next then s.notifyChan else n :: s.notifyChan
  | _ => s.notifyChan

/-- The publisher has never dispatched inline, every event was delivered or is on the way, and a loop that
returned left nothing behind. -/
structure InOrder (callbacks : Nat) (s : NotificationBus) : Prop where
  inline : s.inline = none
  all : ∀ c, c < callbacks → s.invoked c ++ s.pending c = s.published
  drained : s.loop = .done → s.notifyChan = []

/-- The event finds room in the channel and a loop that has not returned. -/
def Heard : BusStep → Prop
  | .publish _ => s.notifyChan.length < notifyQueueCapacity ∧ s.loop ≠ .done
  | _ => True

section Order
variable {callbacks : Nat} {s t : NotificationBus} {a : BusStep} {steps : List BusStep} {n : Notification} {quitting : Bool}

theorem inOrder_new : InOrder callbacks new := ⟨rfl, fun _ _ => rfl, fun h => by cases h⟩

section

variable (h : InOrder callbacks s)

include h

theorem InOrder.publish (hloop : s.loop ≠ .done) :
    InOrder callbacks { s with notifyChan := s.notifyChan ++ [n], published := s.published ++ [n] } where
  inline := h.inline
  all c hc := by
    have hpending : pending { s with notifyChan := s.notifyChan ++ [n], published := s.published ++ [n] } c =
        s.pending c ++ [n] := by
      unfold pending
      cases s.loop with
      | dispatching n next quitting =>
        dsimp only
        split <;> rfl
      | _ => rfl
    rw [hpending, ← append_assoc, h.all c hc]
  drained hdone := absurd hdone hloop

theorem InOrder.take {rest : List Notification}
    (hchan : s.notifyChan = n :: rest) (hloop : ∀ c, s.pending c = s.notifyChan) :
    InOrder callbacks { s with loop := .dispatching n 0 quitting, notifyChan := rest } where
  inline := h.inline
  all c hc := by
    have := h.all c hc
    rwa [hloop, hchan] at this
  drained hdone := by cases hdone

theorem InOrder.invoke {next : Nat}
    (hloop : s.loop = .dispatching n next quitting) :
    InOrder callbacks { s.invoke next n with loop := .dispatching n (next + 1) quitting } where
  inline := h.inline
  all c hc := by
    have hall := h.all c hc
    unfold pending at hall ⊢
    rw [hloop] at hall
    dsimp only [NotificationBus.invoke] at hall ⊢
    rcases Nat.lt_trichotomy c next with hlt | rfl | hgt
    · rw [if_pos hlt] at hall
      rw [if_pos (Nat.lt_succ_of_lt hlt), update_of_ne (Nat.ne_of_lt hlt)]
      exact hall
    · rw [if_neg (Nat.lt_irrefl c)] at hall
      rw [if_pos (Nat.lt_succ_self c), update_self, append_assoc]
      exact hall
    · rw [if_neg (by omega)] at hall
      rw [if_neg (by omega), update_of_ne (Nat.ne_of_gt hgt)]
      exact hall
  drained hdone := by cases hdone

theorem InOrder.next {next : Nat}
    (hloop : s.loop = .dispatching n next quitting) (hlast : ¬ next < callbacks) :
    InOrder callbacks { s with loop := if quitting then .draining else .waiting } where
  inline := h.inline
  all c hc := by
    have hall := h.all c hc
    unfold pending at hall
    rw [hloop] at hall
    dsimp only at hall
    rw [if_pos (by omega)] at hall
    cases quitting <;> exact hall
  drained hdone := by cases quitting <;> cases hdone

theorem InOrder.step (ha : s.Heard a) (hs : s.step callbacks a = some t) :
    InOrder callbacks t := by
  cases step_move hs with
  | enqueue n hi hroom => exact h.publish ha.2
  | inline n hfull => exact absurd ha.1 hfull
  | stop => exact ⟨h.inline, h.all, h.drained⟩
  | inlineCall n c hi hc | inlineDone n c hi hc =>
    rw [h.inline] at hi
    cases hi
  | receive n rest hloop hchan | drainReceive n rest hloop hchan => exact h.take hchan fun c => by rw [pending, hloop]
  | call n c quitting hloop hc => exact h.invoke hloop
  | callDone n c quitting hloop hc => exact h.next hloop hc
  | seeQuit hloop =>
    refine ⟨h.inline, fun c hc => ?_, fun hdone => by cases hdone⟩
    have := h.all c hc
    rwa [pending, hloop] at this
  | drainEnd hloop hchan =>
    refine ⟨h.inline, fun c hc => ?_, fun _ => hchan⟩
    have := h.all c hc
    rwa [pending, hloop] at this

theorem InOrder.notifyChan_eq_nil (hrest : s.AtRest callbacks) :
    s.notifyChan = [] ∧ ∀ c, s.pending c = [] := by
  have hreceive := hrest .receive (by simp [BusStep.internal])
  have hcall := hrest .call (by simp [BusStep.internal])
  have hdrain := hrest .drainReceive (by simp [BusStep.internal])
  have hchan : s.notifyChan = [] := by
    cases hloop : s.loop with
    | waiting =>
      cases hchan : s.notifyChan with
      | nil => rfl
      | cons n rest => simp [NotificationBus.step, hloop, hchan] at hreceive
    | dispatching n next quitting => simp [NotificationBus.step, hloop] at hcall
    | draining =>
      cases hchan : s.notifyChan with
      | nil => rfl
      | cons n rest => simp [NotificationBus.step, hloop, hchan] at hdrain
    | done => exact h.drained hloop
  refine ⟨hchan, fun c => ?_⟩
  unfold pending
  split
  next n next quitting hloop => simp [NotificationBus.step, hloop] at hcall
  next => exact hchan

end

/-! ## How much is left to do -/

/-- The steps the goroutines can still take. -/
def backlog (callbacks : Nat) (s : NotificationBus) : Nat :=
  s.inline.elim 0 (fun p => callbacks - p.2 + 1) + s.notifyChan.length * (callbacks + 3) +
    match s.loop with
    | .waiting => 2
    | .dispatching _ next _ => callbacks - next + 3
    | .draining => 1
    | .done => 0

theorem backlog_step (ha : a ∈ BusStep.internal) (hs : s.step callbacks a = some t) :
    t.backlog callbacks < s.backlog callbacks := by
  unfold backlog
  cases step_move hs with
  | enqueue n hi hroom | inline n hfull | stop => simp [BusStep.internal] at ha
  | inlineCall n c hi hc =>
    rw [hi]
    simp only [invoke, Option.elim]
    omega
  | inlineDone n c hi hc =>
    rw [hi]
    simp only [Option.elim]
    omega
  | receive n rest hloop hchan | drainReceive n rest hloop hchan =>
    rw [hloop, hchan, length_cons, Nat.succ_mul]
    dsimp only
    omega
  | call n c quitting hloop hc =>
    rw [hloop]
    dsimp only [invoke]
    omega
  | callDone n c quitting hloop hc =>
    rw [hloop]
    cases quitting <;> simp only [Bool.false_eq_true, if_true, if_false] <;> omega
  | seeQuit hloop | drainEnd hloop hchan =>
    rw [hloop]
    dsimp only
    omega

theorem length_le_backlog (hi : ∀ a ∈ steps, a ∈ BusStep.internal) (hr : run (step callbacks) s steps = some t) :
    steps.length ≤ s.backlog callbacks := by
  induction steps generalizing s with
  | nil => exact Nat.zero_le _
  | cons a steps ih =>
    obtain ⟨u, hu, hr⟩ := bind_eq_some_iff.1 hr
    have hlt := backlog_step (hi a mem_cons_self) hu
    have hle := ih (fun b hb => hi b (mem_cons_of_mem _ hb)) hr
    rw [length_cons]
    omega

theorem published_step (hs : s.step callbacks a = some t) : t.published = s.published ++ publications [a] := by
  cases step_move hs with
  | enqueue n hi hroom => rfl
  | inline n hfull => rfl
  | _ => exact (append_nil _).symm

theorem published_run (hr : run (step callbacks) s steps = some t) :
    t.published = s.published ++ publications steps := by
  induction steps generalizing s with
  | nil =>
    cases hr
    exact (append_nil _).symm
  | cons a steps ih =>
    obtain ⟨u, hu, hr⟩ := bind_eq_some_iff.1 hr
    rw [ih hr, published_step hu, append_assoc, publications, publications, ← filterMap_append]
    rfl

/-- When every event finds room in the channel and the loop alive, the callbacks are invoked in the order of the
publications, only so many steps are left after each of them, and when these are taken every callback has been
invoked for every event exactly once. -/
theorem delivered_in_order (hok : Along (step callbacks) Heard new steps) (hr : run (step callbacks) new steps = some s) :
    (∀ c, c < callbacks → s.invoked c <+: publications steps) ∧
      (s.AtRest callbacks → ∀ c, c < callbacks → s.invoked c = publications steps) ∧
      ∀ more t, (∀ a ∈ more, a ∈ BusStep.internal) → run (step callbacks) s more = some t →
        more.length ≤ s.backlog callbacks := by
  have hin : InOrder callbacks s := run_invariant (fun _ _ _ hI ha hs => hI.step ha hs) inOrder_new hok hr
  have hpub : s.published = publications steps := published_run hr
  refine ⟨fun c hc => ?_, fun hrest c hc => ?_, fun more t hmore hr' => length_le_backlog hmore hr'⟩
  · rw [← hpub, ← hin.all c hc]
    exact prefix_append _ _
  · have := hin.all c hc
    rw [(hin.notifyChan_eq_nil hrest).2 c, append_nil] at this
    rw [this, hpub]

/-! ### A bus that has stopped, and one that is full -/

theorem run_publish (hi : s.inline = none) (ns : List Notification)
    (hroom : s.notifyChan.length + ns.length ≤ notifyQueueCapacity) :
    run (step callbacks) s (ns.map .publish) =
      some { s with notifyChan := s.notifyChan ++ ns, published := s.published ++ ns } := by
  induction ns generalizing s with
  | nil => simp [run]
  | cons n ns ih =>
    rw [length_cons] at hroom
    have hstep : s.step callbacks (.publish n) =
        some { s with notifyChan := s.notifyChan ++ [n], published := s.published ++ [n] } := by
      rw [step, hi, if_neg (by simp), if_pos (by omega)]
    have hrest := ih (s := { s with notifyChan := s.notifyChan ++ [n], published := s.published ++ [n] }) hi
      (by simp only [length_append, length_singleton]; omega)
    rw [map_cons, run, hstep, bind_some, hrest]
    simp

/-- Publishing into a full channel invokes the callbacks before they see what is in it. -/
theorem run_publish_full (hi : s.inline = none) (hfull : ¬ s.notifyChan.length < notifyQueueCapacity)
    (hc : 0 < callbacks) (n : Notification) :
    ∃ t, run (step callbacks) s [.publish n, .inlineCall] = some t ∧ t.invoked 0 = s.invoked 0 ++ [n] := by
  refine ⟨{ s.invoke 0 n with inline := some (n, 1), published := s.published ++ [n] }, ?_, by simp [invoke]⟩
  rw [run, step, hi, if_neg (by simp), if_neg hfull, bind_some, run, step]
  dsimp only
  rw [if_pos hc]
  rfl

end Order

section Fixed

def event (type : NotificationType) : Notification := ⟨type, ⟨1, ⟨1, 0, 0, 0, 0, 0⟩, []⟩⟩

/-- The loop has returned when the event is published. -/
def lateSteps : List BusStep := [.stopNotifications, .seeQuit, .drainEnd, .publish (event .blockConnected)]

/-- The event that finds the channel full is dispatched inline. -/
def crowdedSteps : List BusStep :=
  (replicate notifyQueueCapacity (event .blockConnected)).map .publish ++
    [.publish (event .blockDisconnected), .inlineCall]

/-- An event published after the loop has returned stays in the channel, though nothing is left to do; one that
finds the channel full overtakes those that are in it. -/
theorem events_lost_or_overtaken : (∃ s, run (step 1) new lateSteps = some s ∧ s.AtRest 1 ∧ s.invoked 0 = [] ∧
      publications lateSteps = [event .blockConnected]) ∧
    ∃ s, run (step 1) new crowdedSteps = some s ∧ s.invoked 0 = [event .blockDisconnected] ∧
      (publications crowdedSteps).head? = some (event .blockConnected) := by
  constructor
  · refine ⟨_, rfl, ?_, rfl, rfl⟩
    decide
  · let ns := replicate notifyQueueCapacity (event .blockConnected)
    let full : NotificationBus := { new with notifyChan := new.notifyChan ++ ns, published := new.published ++ ns }
    have hfill : run (step 1) new (ns.map .publish) = some full := run_publish rfl ns (by simp [new, ns])
    obtain ⟨t, hrun, hinvoked⟩ :=
      @run_publish_full 1 full rfl (by simp [full, ns]) Nat.one_pos (event .blockDisconnected)
    refine ⟨t, run_append.trans ?_, hinvoked, ?_⟩
    · simp only [ns] at hfill
      simp only [hfill, bind_some, hrun]
    · rfl

/-- The second event is published while the loop is at the first. -/
def orderlySteps : List BusStep :=
  [.publish (event .blockConnected), .receive, .publish (event .blockDisconnected), .call, .call, .receive, .call, .call]

theorem delivered_in_order_two : ∃ s, run (step 1) new orderlySteps = some s ∧
      s.invoked 0 = [event .blockConnected, event .blockDisconnected] := by
  have hok : Along (step 1) Heard new orderlySteps := by
    simp [orderlySteps, Along, Heard, step, new, notifyQueueCapacity]
  exact exists_run rfl fun t hr => (delivered_in_order hok hr).2.1 (by cases hr; decide) 0 Nat.one_pos

end Fixed

end NotificationBus

end IniNode
