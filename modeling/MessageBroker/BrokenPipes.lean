import MessageBroker.ServerRuns

/-!
# Connections that their peers have reset

A subscriber that has closed its end answers the next frame with a reset. The frame after that
raises SIGPIPE, which the server does not handle: it ends in the middle of its effects. If `send`
returns an error first, the unsigned `< 0` of `send_tcp_packet` misses it and the loop sends again.
The kernel may learn of a reset at any time, also for a connection that is not accepted yet.
-/
namespace MessageBroker.BrokenPipes
open ByteStrings WireFormat ServerStops ServerHandlers ServerRuns TransitionRuns

/-- The server with the descriptors that are reset. -/
structure Wire where
  sys : Sys
  reset : List ℕ

inductive WireEvent
  | server (e : Event)
  | reset (fd : ℕ)

inductive WireHalt
  | server (why : Halt)
  | brokenPipe (carriedOut : List Effect)

/-- What is done before SIGPIPE comes. -/
def carriedOut (reset : List ℕ) (effects : List Effect) : List Effect :=
  effects.takeWhile (fun e => match e with
    | .send fd _ => fd ∉ reset
    | .shutdown _ | .close _ | .print _ => true)

def wireStart (k : Sockets) : Wire := ⟨start k, []⟩

/-- A descriptor that is closed is no longer reset. -/
def wireStep : Transition Wire WireEvent (List Effect) WireHalt
  | w, .reset fd => .ok (⟨w.sys, fd :: w.reset⟩, [])
  | w, .server e => do
    let (sys, effects) ← (step w.sys e).mapError .server
    if ∃ q ∈ sends effects, q.1 ∈ w.reset then .error (.brokenPipe (carriedOut w.reset effects))
    else .ok (⟨sys, w.reset.filter (fun fd => fd ∈ w.sys.opened → fd ∈ sys.opened)⟩, effects)

variable {k : Sockets} {w w' : Wire} {effects : List Effect}

theorem wireStep_server {e : Event} {s' : Sys} (hs : step w.sys e = .ok (s', effects))
    (hreset : ∀ q ∈ sends effects, q.1 ∉ w.reset) : wireStep w (.server e) =
      .ok (⟨s', w.reset.filter (fun fd => fd ∈ w.sys.opened → fd ∈ s'.opened)⟩, effects) := by
  have hno : ¬ ∃ q ∈ sends effects, q.1 ∈ w.reset := by
    rintro ⟨q, hq, hr⟩
    exact hreset q hq hr
  rw [wireStep, hs, Except.mapError, ok_bind]
  exact if_neg hno

/-- A step takes in a reset, or it is one of the server that sends nothing to a reset peer. -/
theorem wireStep_cases {e : WireEvent} (hs : wireStep w e = .ok (w', effects)) :
    (∃ fd, e = .reset fd ∧ w'.sys = w.sys ∧ effects = []) ∨
    ∃ e', e = .server e' ∧ step w.sys e' = .ok (w'.sys, effects) ∧
      ∀ q ∈ sends effects, q.1 ∉ w.reset := by
  cases e with
  | reset fd =>
    cases hs
    exact .inl ⟨fd, rfl, rfl, rfl⟩
  | server e =>
    right
    cases hstep : step w.sys e with
    | error why =>
      rw [wireStep, hstep] at hs
      cases hs
    | ok q =>
      rw [wireStep, hstep, Except.mapError, ok_bind] at hs
      dsimp only at hs
      split_ifs at hs with hbroken
      cases hs
      exact ⟨e, rfl, hstep, fun q hq hr => hbroken ⟨q, hq, hr⟩⟩

/-- What the server keeps in each of its steps is kept in a run with resets. -/
theorem sys_of_wireStep {I : Sys → Prop}
    (hI : ∀ s e s' effects, I s → step s e = .ok (s', effects) → I s') {e : WireEvent} (h : I w.sys)
    (hs : wireStep w e = .ok (w', effects)) : I w'.sys := by
  rcases wireStep_cases hs with ⟨fd, -, hsame, -⟩ | ⟨e', -, hstep, -⟩
  · exact hsame ▸ h
  · exact hI _ _ _ _ h hstep

theorem sysInvariant_wire (h : Reachable wireStep (wireStart k) w) : SysInvariant k w.sys :=
  h.invariant (I := fun w => SysInvariant k w.sys) (sysInvariant_start k)
    (fun _ _ _ _ h hs => sys_of_wireStep (fun _ _ _ _ => sysInvariant_step) h hs)

/-- Without resets a run is one of the server. -/
theorem run_without_resets {s s' : Sys} {events : List Event} {os : List (List Effect)}
    (hr : run step s events = .ok (s', os)) :
    run wireStep ⟨s, []⟩ (events.map .server) = .ok (⟨s', []⟩, os) := by
  induction events generalizing s os with
  | nil =>
    obtain ⟨rfl, rfl⟩ : s = s' ∧ [] = os := by simpa [run] using hr
    rfl
  | cons e events ih =>
    obtain ⟨s₁, effects, os', hs, hr', rfl⟩ := run_cons.mp hr
    have hstep := wireStep_server (w := ⟨s, []⟩) hs (fun _ _ => List.not_mem_nil)
    exact run_cons.mpr ⟨_, effects, os', hstep, ih hr', rfl⟩

end MessageBroker.BrokenPipes
