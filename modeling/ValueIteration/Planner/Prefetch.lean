import Mathlib.Data.Option.Basic
import ValueIteration.Lib.Transition

/-!
# Solving the next waypoint ahead of time

`Prefetcher` shares one locked `State` and one cancel flag per solve between the
driving core and a worker. Calls and the worker's critical sections are atomic; the
solve in between is not, and looks at its flag only now and then.
-/

set_option autoImplicit false

namespace ValueIteration

namespace Prefetch

/-- A pose, over the type `F` of its floating-point numbers. -/
structure PoseView (F : Type) where
  x : F
  y : F
  yawRad : F
  deriving DecidableEq, Repr

/-- What two goals are compared by. -/
structure GoalKey (F : Type) where
  goalX : F
  goalY : F
  goalTDeg : Int
  deriving DecidableEq, Repr

/-- Which solve a cancel flag belongs to. -/
abbrev Ticket := Nat

/-- A solved field, known by the solve that produced it. -/
structure CachedGoal (F : Type) where
  key : GoalKey F
  field : Ticket
  deriving DecidableEq, Repr

structure State (F : Type) where
  waypoints : List (PoseView F)
  want : Option (PoseView F)
  solving : Option (PoseView F)
  ready : Option (CachedGoal F)
  cancel : Option Ticket
  deriving DecidableEq, Repr

/-- The locked state and the flags the solves were given. -/
structure Shared (F : Type) where
  state : State F
  flags : List Bool
  deriving DecidableEq, Repr

/-- Where the current goal stands among the waypoints. -/
inductive Position (F : Type) where
  | next (p : PoseView F)
  | last
  | unknown
  deriving DecidableEq, Repr

/-- What one pass of `adopt` under the lock ends with. -/
inductive Adoption (F : Type) where
  | adopted (c : CachedGoal F)
  | none
  | wait
  deriving DecidableEq, Repr

section
variable {F : Type} [BEq F] (yawToGoalThetaDeg : F → Int)

/-- Comparison of floating-point tuples, which need not be reflexive. -/
def goalMatches (a b : GoalKey F) : Bool :=
  a.goalX == b.goalX && a.goalY == b.goalY && a.goalTDeg == b.goalTDeg

def PoseView.key (p : PoseView F) : GoalKey F := ⟨p.x, p.y, yawToGoalThetaDeg p.yawRad⟩

def sameGoal (a : PoseView F) (b : GoalKey F) : Bool :=
  goalMatches (a.key yawToGoalThetaDeg) b

/-- `st.ready.is_some_and(..)`. -/
def State.readyFor (st : State F) (key : GoalKey F) : Bool :=
  st.ready.any fun c => goalMatches c.key key

/-- `[st.solving, st.want].iter().flatten().any(..)`. -/
def State.underway (st : State F) (key : GoalKey F) : Bool :=
  ([st.solving, st.want].filterMap id).any fun g => sameGoal yawToGoalThetaDeg g key

def cancelInFlight (sh : Shared F) : Shared F :=
  match sh.state.cancel with
  | some c => ⟨{ sh.state with want := none, cancel := none }, sh.flags.set c true⟩
  | none => ⟨{ sh.state with want := none }, sh.flags⟩

def discard (sh : Shared F) : Shared F :=
  cancelInFlight ⟨{ sh.state with ready := none, want := none }, sh.flags⟩

def setWaypoints (sh : Shared F) (waypoints : List (PoseView F)) : Shared F :=
  ⟨{ sh.state with waypoints := waypoints }, sh.flags⟩

def positionOf (st : State F) (goal : PoseView F) : Position F :=
  match st.waypoints.findIdx? fun w => sameGoal yawToGoalThetaDeg w (goal.key yawToGoalThetaDeg) with
  | none => .unknown
  | some i =>
    match st.waypoints[i + 1]? with
    | some next => .next next
    | none => .last

def request (sh : Shared F) (next : PoseView F) : Shared F :=
  let key := next.key yawToGoalThetaDeg
  if sh.state.readyFor key || sh.state.underway yawToGoalThetaDeg key then
    sh
  else
    let sh := discard sh
    ⟨{ sh.state with want := some next }, sh.flags⟩

def noteGoal (sh : Shared F) (goal : PoseView F) : Shared F :=
  match positionOf yawToGoalThetaDeg sh.state goal with
  | .next next => request yawToGoalThetaDeg sh next
  | .last => discard sh
  | .unknown => sh

/-- One pass of the loop of `adopt`, which holds the lock until it returns or waits;
a call that waits makes another pass when it is woken. `cancel` is the caller's own
flag. -/
def adopt (sh : Shared F) (goal : PoseView F) (cancel : Bool) : Adoption F × Shared F :=
  let key := goal.key yawToGoalThetaDeg
  let found := sh.state.ready.filter fun c => goalMatches c.key key
  let sh : Shared F := ⟨{ sh.state with ready := none }, sh.flags⟩
  match found with
  | some c => (.adopted c, sh)
  | none =>
    if !sh.state.underway yawToGoalThetaDeg key then
      (.none, cancelInFlight sh)
    else if cancel then
      (.none, sh)
    else
      (.wait, sh)

end

/-! ## The worker -/

/-- How a solve ends; the reason of a failure is only printed. -/
inductive SolveResult where
  | ok
  | cancelled
  | failed
  deriving DecidableEq, Repr

/-- Where the worker is in its loop. -/
inductive Worker (F : Type) where
  /-- Waiting for an order. -/
  | idle
  /-- In `prepare_goal`, which is going to look at its flag again. -/
  | solving (goal : PoseView F) (ticket : Ticket)
  /-- Past the last look at the flag, with the result not yet put down. -/
  | solved (goal : PoseView F) (ticket : Ticket) (result : SolveResult)
  deriving DecidableEq, Repr

/-- The prefetcher with its worker. -/
structure Sys (F : Type) where
  shared : Shared F
  worker : Worker F
  deriving DecidableEq, Repr

/-- A call of the driving core or a step of the worker. -/
inductive Event (F : Type) where
  | setWaypoints (waypoints : List (PoseView F))
  | noteGoal (goal : PoseView F)
  | adopt (goal : PoseView F) (cancel : Bool)
  /-- The worker takes the order. -/
  | take
  /-- The solve looks at its flag. If it was the last time, `ending` says whether the
  solve goes on to succeed. -/
  | look (ending : Option Bool)
  /-- The worker puts the result down. -/
  | publish
  deriving DecidableEq, Repr

section
variable {F : Type}

/-- The order is taken with a fresh flag. -/
def takeOrder (sys : Sys F) : Option (Sys F) :=
  match sys.worker, sys.shared.state.want with
  | .idle, some g =>
    let c := sys.shared.flags.length
    some ⟨⟨{ sys.shared.state with want := none, cancel := some c, solving := some g },
      sys.shared.flags ++ [false]⟩, .solving g c⟩
  | _, _ => none

/-- The solve gives up when it finds its flag raised. -/
def lookAtFlag (sys : Sys F) (ending : Option Bool) : Option (Sys F) :=
  match sys.worker with
  | .solving g c =>
    if sys.shared.flags.getD c false then
      some ⟨sys.shared, .solved g c .cancelled⟩
    else
      match ending with
      | none => some sys
      | some true => some ⟨sys.shared, .solved g c .ok⟩
      | some false => some ⟨sys.shared, .solved g c .failed⟩
  | _ => none

variable [BEq F] (yawToGoalThetaDeg : F → Int)

def publishResult (sys : Sys F) : Option (Sys F) :=
  match sys.worker with
  | .solved g c result =>
    let st := { sys.shared.state with solving := none, cancel := none }
    match result with
    | .ok => some ⟨⟨{ st with ready := some ⟨g.key yawToGoalThetaDeg, c⟩ }, sys.shared.flags⟩, .idle⟩
    | .cancelled => some ⟨⟨st, sys.shared.flags⟩, .idle⟩
    | .failed => some ⟨⟨st, sys.shared.flags⟩, .idle⟩
  | _ => none

def step (sys : Sys F) : Event F → Option (Sys F)
  | .setWaypoints ws => some ⟨setWaypoints sys.shared ws, sys.worker⟩
  | .noteGoal goal => some ⟨noteGoal yawToGoalThetaDeg sys.shared goal, sys.worker⟩
  | .adopt goal cancel => some ⟨(adopt yawToGoalThetaDeg sys.shared goal cancel).2, sys.worker⟩
  | .take => takeOrder sys
  | .look ending => lookAtFlag sys ending
  | .publish => publishResult yawToGoalThetaDeg sys

/-- The state `spawn` starts with. -/
def spawn : Sys F := ⟨⟨⟨[], none, none, none, none⟩, []⟩, .idle⟩

end

/-! ## What every run keeps -/

section
variable {F : Type}

/-- The goal the worker is on, with its flag. -/
def Worker.flight : Worker F → Option (PoseView F × Ticket)
  | .idle => none
  | .solving g c => some (g, c)
  | .solved g c _ => some (g, c)

def Shared.raised (sh : Shared F) (c : Ticket) : Bool := sh.flags.getD c false

/-- The locked state mirrors the worker: `solving` is its goal, and `cancel` is its flag
as long as nobody has raised it. Nothing is ordered beside a solve that may go on. -/
structure Inv (sys : Sys F) : Prop where
  solving : sys.shared.state.solving = sys.worker.flight.map Prod.fst
  cancel : sys.shared.state.cancel =
    (sys.worker.flight.map Prod.snd).filter fun c => !sys.shared.raised c
  issued : ∀ g c, sys.worker.flight = some (g, c) → c < sys.shared.flags.length
  want : sys.shared.state.cancel.isSome = true → sys.shared.state.want = none

theorem inv_spawn : Inv (spawn (F := F)) where
  solving := rfl
  cancel := rfl
  issued _ _ h := by cases h
  want h := by cases h

/-- A call that leaves the solve alone. -/
structure Quiet (sh sh' : Shared F) : Prop where
  flags : sh'.flags = sh.flags
  solving : sh'.state.solving = sh.state.solving
  cancel : sh'.state.cancel = sh.state.cancel
  want : sh'.state.want = sh.state.want
  ready : sh'.state.ready = sh.state.ready ∨ sh'.state.ready = none

/-- A call that tells the solve to stop and lets go of the field that waits. -/
structure Stopped (sh sh' : Shared F) : Prop where
  flags : sh'.flags = sh.state.cancel.elim sh.flags fun c => sh.flags.set c true
  solving : sh'.state.solving = sh.state.solving
  cancel : sh'.state.cancel = none
  ready : sh'.state.ready = none

theorem Quiet.refl (sh : Shared F) : Quiet sh sh := ⟨rfl, rfl, rfl, rfl, Or.inl rfl⟩

theorem cancelInFlight_eq (sh : Shared F) : cancelInFlight sh =
    ⟨{ sh.state with want := none, cancel := none },
      sh.state.cancel.elim sh.flags fun c => sh.flags.set c true⟩ := by
  rw [cancelInFlight]
  cases h : sh.state.cancel with
  | none =>
    simp only [Option.elim_none, Shared.mk.injEq, and_true]
    rw [← h]
  | some c => rfl

theorem discard_stopped (sh : Shared F) : Stopped sh (discard sh) := by
  rw [discard, cancelInFlight_eq]
  exact ⟨rfl, rfl, rfl, rfl⟩

theorem Inv.flight_of_cancel {sys : Sys F} (h : Inv sys) {c : Ticket}
    (hc : sys.shared.state.cancel = some c) :
    (∃ g, sys.worker.flight = some (g, c)) ∧ sys.shared.raised c = false := by
  rw [h.cancel, Option.filter_eq_some_iff] at hc
  obtain ⟨⟨g, d⟩, hflight, hd⟩ := Option.map_eq_some_iff.mp hc.1
  cases hd
  exact ⟨⟨g, hflight⟩, by simpa using hc.2⟩

theorem Inv.cancel_of_flight {sys : Sys F} (h : Inv sys) {g : PoseView F} {c : Ticket}
    (hflight : sys.worker.flight = some (g, c)) (hc : sys.shared.raised c = false) :
    sys.shared.state.cancel = some c := by
  rw [h.cancel, hflight]
  simp [hc]

/-- Stopping raises the flag of the solve under way, whichever it is. -/
theorem Inv.raised_of_stopped {sys : Sys F} (h : Inv sys) {sh' : Shared F}
    (hs : Stopped sys.shared sh') {g : PoseView F} {c : Ticket}
    (hflight : sys.worker.flight = some (g, c)) : sh'.raised c = true := by
  have hlt := h.issued g c hflight
  rw [Shared.raised, hs.flags]
  cases hr : sys.shared.raised c with
  | false =>
    rw [h.cancel_of_flight hflight hr]
    simp [List.getD, hlt]
  | true =>
    cases hc : sys.shared.state.cancel with
    | none => exact hr
    | some d =>
      obtain ⟨⟨g', hd⟩, hlow⟩ := h.flight_of_cancel hc
      rw [hflight] at hd
      cases hd
      rw [hr] at hlow
      cases hlow

end

section
variable {F : Type} [BEq F] {yawToGoalThetaDeg : F → Int}

/-- Whether a call tells the solve under way to stop, as the call itself decides it. -/
def stops (yawToGoalThetaDeg : F → Int) (sh : Shared F) : Event F → Bool
  | .noteGoal goal =>
    match positionOf yawToGoalThetaDeg sh.state goal with
    | .next next => !(sh.state.readyFor (next.key yawToGoalThetaDeg) ||
        sh.state.underway yawToGoalThetaDeg (next.key yawToGoalThetaDeg))
    | .last => true
    | .unknown => false
  | .adopt goal _ => !(sh.state.readyFor (goal.key yawToGoalThetaDeg) ||
      sh.state.underway yawToGoalThetaDeg (goal.key yawToGoalThetaDeg))
  | _ => false

@[simp] theorem underway_ready (st : State F) (ready : Option (CachedGoal F)) (key : GoalKey F) :
    State.underway yawToGoalThetaDeg { st with ready := ready } key =
      st.underway yawToGoalThetaDeg key := rfl

theorem readyFor_eq (st : State F) (key : GoalKey F) :
    st.readyFor key = (st.ready.filter fun c => goalMatches c.key key).isSome := by
  rw [State.readyFor]
  cases st.ready with
  | none => rfl
  | some c => cases h : goalMatches c.key key <;> simp [Option.filter, h]

theorem noteGoal_cases (sh : Shared F) (goal : PoseView F) :
    stops yawToGoalThetaDeg sh (.noteGoal goal) = false ∧
        Quiet sh (noteGoal yawToGoalThetaDeg sh goal) ∨
      stops yawToGoalThetaDeg sh (.noteGoal goal) = true ∧
        Stopped sh (noteGoal yawToGoalThetaDeg sh goal) := by
  simp only [noteGoal, stops]
  cases positionOf yawToGoalThetaDeg sh.state goal with
  | unknown => exact Or.inl ⟨rfl, Quiet.refl sh⟩
  | last => exact Or.inr ⟨rfl, discard_stopped sh⟩
  | next next =>
    simp only [request]
    split
    · next hkept =>
      rw [hkept]
      exact Or.inl ⟨rfl, Quiet.refl sh⟩
    · next hnot =>
      have h := discard_stopped sh
      refine Or.inr ⟨?_, h.flags, h.solving, h.cancel, h.ready⟩
      simp only [Bool.not_eq_true] at hnot
      rw [hnot]
      rfl

theorem adopt_cases (sh : Shared F) (goal : PoseView F) (cancel : Bool) :
    stops yawToGoalThetaDeg sh (.adopt goal cancel) = false ∧
        Quiet sh (adopt yawToGoalThetaDeg sh goal cancel).2 ∨
      stops yawToGoalThetaDeg sh (.adopt goal cancel) = true ∧
        Stopped sh (adopt yawToGoalThetaDeg sh goal cancel).2 := by
  have hquiet : Quiet sh ⟨{ sh.state with ready := none }, sh.flags⟩ :=
    ⟨rfl, rfl, rfl, rfl, Or.inr rfl⟩
  simp only [adopt, stops, readyFor_eq, underway_ready]
  cases sh.state.ready.filter fun c => goalMatches c.key (goal.key yawToGoalThetaDeg) with
  | some c => exact Or.inl ⟨rfl, hquiet⟩
  | none =>
    cases sh.state.underway yawToGoalThetaDeg (goal.key yawToGoalThetaDeg) with
    | false =>
      refine Or.inr ⟨rfl, ?_⟩
      simp only [Bool.not_false, if_true, cancelInFlight_eq]
      exact ⟨rfl, rfl, rfl, rfl⟩
    | true =>
      refine Or.inl ⟨rfl, ?_⟩
      cases cancel with
      | false => exact hquiet
      | true => exact hquiet

/-- Step lemma: what one event can do. -/
theorem step_cases {sys sys' : Sys F} {e : Event F} (h : step yawToGoalThetaDeg sys e = some sys') :
    (stops yawToGoalThetaDeg sys.shared e = false ∧ sys'.worker = sys.worker ∧
      Quiet sys.shared sys'.shared) ∨
    (stops yawToGoalThetaDeg sys.shared e = true ∧ sys'.worker = sys.worker ∧
      Stopped sys.shared sys'.shared) ∨
    (∃ g, sys.worker = .idle ∧ sys.shared.state.want = some g ∧ sys' =
      ⟨⟨{ sys.shared.state with
          want := none, cancel := some sys.shared.flags.length, solving := some g },
        sys.shared.flags ++ [false]⟩, .solving g sys.shared.flags.length⟩) ∨
    (∃ g c result, sys.worker = .solving g c ∧ sys' = ⟨sys.shared, .solved g c result⟩ ∧
      (result = .ok → sys.shared.raised c = false)) ∨
    (∃ g c result ready, sys.worker = .solved g c result ∧ sys' =
      ⟨⟨{ sys.shared.state with solving := none, cancel := none, ready := ready },
        sys.shared.flags⟩, .idle⟩ ∧ (ready = sys.shared.state.ready ∨
          result = .ok ∧ ready = some ⟨g.key yawToGoalThetaDeg, c⟩)) := by
  cases e with
  | setWaypoints ws =>
    cases h
    exact Or.inl ⟨rfl, rfl, rfl, rfl, rfl, rfl, Or.inl rfl⟩
  | noteGoal goal =>
    cases h
    cases @noteGoal_cases F _ yawToGoalThetaDeg sys.shared goal with
    | inl hq => exact Or.inl ⟨hq.1, rfl, hq.2⟩
    | inr hs => exact Or.inr (Or.inl ⟨hs.1, rfl, hs.2⟩)
  | adopt goal cancel =>
    cases h
    cases @adopt_cases F _ yawToGoalThetaDeg sys.shared goal cancel with
    | inl hq => exact Or.inl ⟨hq.1, rfl, hq.2⟩
    | inr hs => exact Or.inr (Or.inl ⟨hs.1, rfl, hs.2⟩)
  | take =>
    simp only [step, takeOrder] at h
    split at h
    · next hw hwant =>
      cases h
      exact Or.inr (Or.inr (Or.inl ⟨_, hw, hwant, rfl⟩))
    · cases h
  | look ending =>
    simp only [step, lookAtFlag] at h
    split at h
    · next g c hw =>
      split at h
      · cases h
        exact Or.inr (Or.inr (Or.inr (Or.inl ⟨g, c, _, hw, rfl, fun h => by cases h⟩)))
      · next hnot =>
        simp only [Bool.not_eq_true] at hnot
        cases ending with
        | none =>
          cases h
          exact Or.inl ⟨rfl, rfl, Quiet.refl _⟩
        | some converged =>
          cases converged with
          | true =>
            cases h
            exact Or.inr (Or.inr (Or.inr (Or.inl ⟨g, c, _, hw, rfl, fun _ => hnot⟩)))
          | false =>
            cases h
            exact Or.inr (Or.inr (Or.inr (Or.inl ⟨g, c, _, hw, rfl, fun h => by cases h⟩)))
    · cases h
  | publish =>
    simp only [step, publishResult] at h
    split at h
    · next g c result hw =>
      cases result with
      | ok =>
        cases h
        exact Or.inr (Or.inr (Or.inr (Or.inr ⟨g, c, _, _, hw, rfl, Or.inr ⟨rfl, rfl⟩⟩)))
      | cancelled =>
        cases h
        exact Or.inr (Or.inr (Or.inr (Or.inr ⟨g, c, _, _, hw, rfl, Or.inl rfl⟩)))
      | failed =>
        cases h
        exact Or.inr (Or.inr (Or.inr (Or.inr ⟨g, c, _, _, hw, rfl, Or.inl rfl⟩)))
    · cases h

/-- Step lemma: the locked state goes on mirroring the worker. -/
theorem Inv.step {sys sys' : Sys F} {e : Event F} (h : Inv sys)
    (hstep : step yawToGoalThetaDeg sys e = some sys') : Inv sys' := by
  rcases step_cases hstep with ⟨-, hw, hq⟩ | ⟨-, hw, hs⟩ | ⟨g, hw, -, rfl⟩ |
    ⟨g, c, result, hw, rfl, -⟩ | ⟨g, c, result, ready, hw, rfl, -⟩
  · have hr : sys'.shared.raised = sys.shared.raised := by
      funext c
      rw [Shared.raised, Shared.raised, hq.flags]
    exact ⟨by rw [hq.solving, hw, h.solving], by rw [hq.cancel, hw, h.cancel, hr],
      by rw [hw, hq.flags]; exact h.issued, by rw [hq.cancel, hq.want]; exact h.want⟩
  · refine ⟨by rw [hs.solving, hw, h.solving], ?_, ?_, fun hc => ?_⟩
    · rw [hs.cancel, hw]
      cases hf : sys.worker.flight with
      | none => rfl
      | some gc =>
        obtain ⟨g, c⟩ := gc
        simp [Option.filter, h.raised_of_stopped hs hf]
    · intro g c hf
      rw [hw] at hf
      have hlt := h.issued g c hf
      rw [hs.flags]
      cases sys.shared.state.cancel with
      | none => exact hlt
      | some d =>
        simp only [Option.elim_some, List.length_set]
        exact hlt
    · rw [hs.cancel] at hc
      cases hc
  · refine ⟨rfl, ?_, ?_, fun _ => rfl⟩
    · simp [Worker.flight, Shared.raised, List.getD, Option.filter]
    · intro g' c' hf
      cases hf
      simp
  · have hf : (Worker.solved g c result).flight = sys.worker.flight := by
      rw [hw]
      rfl
    exact ⟨by rw [hf]; exact h.solving, by rw [hf]; exact h.cancel,
      by rw [hf]; exact h.issued, h.want⟩
  · exact ⟨rfl, rfl, (fun _ _ hf => by cases hf), (fun hc => by cases hc)⟩

theorem Inv.reached {sys : Sys F}
    (h : Transition.Run (Prefetch.step yawToGoalThetaDeg) spawn sys) : Inv sys :=
  h.invariant inv_spawn fun _ _ _ hx _ hstep => hx.step hstep

end

/-! ## At most one field -/

section
variable {F : Type}

/-- Fields alive at once, with the one the driving core runs on. -/
def fieldsAlive (cached : Option (CachedGoal F)) (st : State F) : Nat :=
  cached.toList.length + st.ready.toList.length + st.solving.toList.length

/-- At most one of `ready` and `solving` is occupied, and no field that waits comes from
a solve that was told to stop. -/
structure CancelSafe (sh : Shared F) : Prop where
  one : sh.state.ready = none ∨ sh.state.solving = none
  two : ∀ cached, fieldsAlive cached sh.state ≤ 2
  kept : ∀ r, sh.state.ready = some r → sh.raised r.field = false

/-- What runs that stop in time keep: a finished solve was not told to stop, and beside a
field that waits nothing is solved and nothing ordered. -/
structure Timely (sys : Sys F) : Prop where
  finished : ∀ g c, sys.worker = .solved g c .ok → sys.shared.raised c = false
  alone : ∀ r, sys.shared.state.ready = some r →
    sys.worker = .idle ∧ sys.shared.state.want = none ∧ sys.shared.raised r.field = false

theorem timely_spawn : Timely (spawn (F := F)) where
  finished _ _ h := by cases h
  alone _ h := by cases h

theorem Timely.cancelSafe {sys : Sys F} (hinv : Inv sys) (h : Timely sys) :
    CancelSafe sys.shared := by
  have hone : sys.shared.state.ready = none ∨ sys.shared.state.solving = none := by
    cases hr : sys.shared.state.ready with
    | none => exact Or.inl rfl
    | some r =>
      right
      rw [hinv.solving, (h.alone r hr).1]
      rfl
  refine ⟨hone, ?_, fun r hr => (h.alone r hr).2.2⟩
  intro cached
  have hlen : ∀ {α : Type} (o : Option α), o.toList.length ≤ 1 := by
    intro α o
    cases o <;> simp
  have h1 := hlen cached
  have h2 := hlen sys.shared.state.ready
  have h3 := hlen sys.shared.state.solving
  rw [fieldsAlive]
  cases hone with
  | inl hr =>
    rw [hr]
    simp only [Option.toList_none, List.length_nil]
    omega
  | inr hr =>
    rw [hr]
    simp only [Option.toList_none, List.length_nil]
    omega

end

section
variable {F : Type} [BEq F] {yawToGoalThetaDeg : F → Int}

/-- No call stops a solve that has succeeded past its last look at the flag. -/
def inTime (yawToGoalThetaDeg : F → Int) (sys : Sys F) (e : Event F) : Bool :=
  match sys.worker with
  | .solved _ _ .ok => !stops yawToGoalThetaDeg sys.shared e
  | _ => true

theorem Timely.step {sys sys' : Sys F} {e : Event F} (hinv : Inv sys) (h : Timely sys)
    (hin : inTime yawToGoalThetaDeg sys e = true)
    (hstep : Prefetch.step yawToGoalThetaDeg sys e = some sys') : Timely sys' := by
  rcases step_cases hstep with ⟨-, hw, hq⟩ | ⟨hstop, hw, hs⟩ | ⟨g, hw, hwant, rfl⟩ |
    ⟨g, c, result, hw, rfl, hok⟩ | ⟨g, c, result, ready, hw, rfl, hready⟩
  · refine ⟨?_, ?_⟩
    · intro g c hf
      rw [hw] at hf
      rw [Shared.raised, hq.flags]
      exact h.finished g c hf
    · intro r hr
      cases hq.ready with
      | inl hsame =>
        rw [hsame] at hr
        rw [hw, hq.want, Shared.raised, hq.flags]
        exact h.alone r hr
      | inr hnone =>
        rw [hnone] at hr
        cases hr
  · refine ⟨?_, ?_⟩
    · intro g c hf
      rw [hw] at hf
      rw [inTime, hf, hstop] at hin
      cases hin
    · intro r hr
      rw [hs.ready] at hr
      cases hr
  · refine ⟨(fun _ _ hf => by cases hf), ?_⟩
    intro r hr
    have h' := (h.alone r hr).2.1
    rw [hwant] at h'
    cases h'
  · refine ⟨?_, ?_⟩
    · intro g' c' hf
      cases hf
      exact hok rfl
    · intro r hr
      have h' := (h.alone r hr).1
      rw [hw] at h'
      cases h'
  · refine ⟨(fun _ _ hf => by cases hf), ?_⟩
    intro r hr
    have hflight : sys.worker.flight = some (g, c) := by
      rw [hw]
      rfl
    cases hready with
    | inl hsame =>
      have h' := (h.alone r (hsame ▸ hr)).1
      rw [hw] at h'
      cases h'
    | inr hset =>
      obtain ⟨rfl, rfl⟩ := hset
      cases hr
      have hlow := h.finished g c hw
      refine ⟨rfl, hinv.want ?_, hlow⟩
      rw [hinv.cancel_of_flight hflight hlow]
      rfl

/-- Run lemma: as long as no call comes between the last look of a successful solve and
its publication, there is one field at most and none of a stopped solve. -/
theorem cancelSafe_of_inTime {sys : Sys F}
    (h : Transition.GuardedRun (Prefetch.step yawToGoalThetaDeg)
      (fun x e => inTime yawToGoalThetaDeg x e = true) spawn sys) : CancelSafe sys.shared := by
  have hboth : Inv sys ∧ Timely sys := by
    apply h.invariant (I := fun x => Inv x ∧ Timely x) ⟨inv_spawn, timely_spawn⟩
    intro x e y hx hin hstep
    exact ⟨hx.1.step hstep, hx.2.step hx.1 hin hstep⟩
  exact hboth.2.cancelSafe hboth.1

end

section
variable {F : Type} [BEq F] {yawToGoalThetaDeg : F → Int}

/-- A call that comes too late: the field of the stopped solve is put down. -/
theorem not_cancelSafe_of_late {sys sys' sys'' : Sys F} {e : Event F}
    (hrun : Transition.Run (step yawToGoalThetaDeg) spawn sys)
    (hlate : inTime yawToGoalThetaDeg sys e = false)
    (hstep : step yawToGoalThetaDeg sys e = some sys')
    (hpublish : step yawToGoalThetaDeg sys' .publish = some sys'') : ¬ CancelSafe sys''.shared := by
  intro hsafe
  have hinv := Inv.reached hrun
  rw [inTime] at hlate
  split at hlate
  · next g c hw =>
    rw [Bool.not_eq_false'] at hlate
    have hflight : sys.worker.flight = some (g, c) := by
      rw [hw]
      rfl
    have hstop : sys'.worker = sys.worker ∧ Stopped sys.shared sys'.shared := by
      cases e with
      | noteGoal goal =>
        cases hstep
        cases noteGoal_cases sys.shared goal with
        | inl h => exact absurd (h.1.symm.trans hlate) Bool.false_ne_true
        | inr h => exact ⟨rfl, h.2⟩
      | adopt goal cancel =>
        cases hstep
        cases adopt_cases sys.shared goal cancel with
        | inl h => exact absurd (h.1.symm.trans hlate) Bool.false_ne_true
        | inr h => exact ⟨rfl, h.2⟩
      | _ => cases hlate
    have hraised := hinv.raised_of_stopped hstop.2 hflight
    simp only [step, publishResult, hstop.1, hw] at hpublish
    cases hpublish
    exact Bool.false_ne_true ((hsafe.kept _ rfl).symm.trans hraised)
  · cases hlate

end

/-- A route of three poses on a grid of integers. -/
def pose (n : Int) : PoseView Int := ⟨n, 0, 0⟩

def route : List (PoseView Int) := [pose 1, pose 2, pose 3]

/-- On the way to the first pose the second is solved and waits. -/
theorem cancelSafe_patrol : ∃ sys : Sys Int,
    sys.shared.state.ready = some ⟨(pose 2).key (· % 360), 0⟩ ∧ CancelSafe sys.shared := by
  have hexec : Transition.exec (step (· % 360)) (inTime (· % 360)) spawn
      [.setWaypoints route, .noteGoal (pose 1), .take, .look none, .look (some true), .publish] =
    some _ := rfl
  exact ⟨_, rfl, cancelSafe_of_inTime (Transition.guardedRun_of_exec hexec)⟩

/-- Every run, whatever its calls come between. -/
def PrefetchCancelSafe (yawToGoalThetaDeg : Int → Int) : Prop :=
  ∀ sys, Transition.Run (step yawToGoalThetaDeg) spawn sys → CancelSafe sys.shared

/-- The goal changes while the worker is past its last look: the field of the stopped
solve is put down all the same, and the next solve starts beside it. -/
theorem not_prefetchCancelSafe : ¬ PrefetchCancelSafe (· % 360) := by
  intro h
  have hexec : Transition.exec (step (· % 360)) (fun _ _ => true) spawn
      [.setWaypoints route, .noteGoal (pose 1), .take, .look (some true), .adopt (pose 9) false,
        .noteGoal (pose 2), .publish, .take] = some _ := rfl
  have hsafe := h _ (Transition.guardedRun_of_exec hexec).run
  cases hsafe.one with
  | inl hready => cases hready
  | inr hsolving => cases hsolving

/-! ## No order is lost -/

section
variable {F : Type} [BEq F] {yawToGoalThetaDeg : F → Int}

/-- A pose that stands for `n`. -/
def Denotes (yawToGoalThetaDeg : F → Int) (p n : PoseView F) : Prop :=
  p = n ∨ sameGoal yawToGoalThetaDeg p (n.key yawToGoalThetaDeg) = true

/-- The field of `n` waits, or is ordered, or is being solved by a solve that nobody has
told to stop. -/
def Assured (yawToGoalThetaDeg : F → Int) (sys : Sys F) (n : PoseView F) : Prop :=
  sys.shared.state.readyFor (n.key yawToGoalThetaDeg) = true ∨
    (∃ p, sys.shared.state.want = some p ∧ Denotes yawToGoalThetaDeg p n) ∨
    ∃ p c, sys.worker.flight = some (p, c) ∧ Denotes yawToGoalThetaDeg p n ∧
      sys.shared.raised c = false

/-- A solve of `n` is still to be wound up after it was told to stop, and neither is a
field of `n` waiting nor `n` ordered again. -/
def Unwinding (yawToGoalThetaDeg : F → Int) (sys : Sys F) (n : PoseView F) : Prop :=
  (∃ p c, sys.worker.flight = some (p, c) ∧
    sameGoal yawToGoalThetaDeg p (n.key yawToGoalThetaDeg) = true ∧ sys.shared.raised c = true) ∧
  sys.shared.state.readyFor (n.key yawToGoalThetaDeg) = false ∧
  ∀ p, sys.shared.state.want = some p → ¬ Denotes yawToGoalThetaDeg p n

theorem underway_iff {st : State F} {key : GoalKey F} : st.underway yawToGoalThetaDeg key = true ↔
    (∃ p, st.solving = some p ∧ sameGoal yawToGoalThetaDeg p key = true) ∨
      ∃ p, st.want = some p ∧ sameGoal yawToGoalThetaDeg p key = true := by
  rw [State.underway]
  cases st.solving with
  | none =>
    cases st.want with
    | none => simp
    | some q => simp
  | some p =>
    cases st.want with
    | none => simp
    | some q => simp

/-- What `request` ensures, whatever the state of the worker. -/
theorem request_assures {sys : Sys F} (hinv : Inv sys) (n : PoseView F) :
    Assured yawToGoalThetaDeg ⟨request yawToGoalThetaDeg sys.shared n, sys.worker⟩ n ↔
      ¬ Unwinding yawToGoalThetaDeg sys n := by
  simp only [request]
  split
  · next hkept =>
    constructor
    · intro hassured hunwinding
      obtain ⟨⟨p, c, hflight, -, hraised⟩, hready, hwant⟩ := hunwinding
      rcases hassured with h | ⟨q, hq, hden⟩ | ⟨q, d, hq, -, hlow⟩
      · rw [hready] at h
        cases h
      · exact hwant q hq hden
      · rw [hflight] at hq
        cases hq
        rw [hraised] at hlow
        cases hlow
    · intro hnot
      cases hready : sys.shared.state.readyFor (n.key yawToGoalThetaDeg) with
      | true => exact Or.inl hready
      | false =>
        by_cases hwant : ∃ p, sys.shared.state.want = some p ∧ Denotes yawToGoalThetaDeg p n
        · exact Or.inr (Or.inl hwant)
        · rw [hready, Bool.false_or, underway_iff] at hkept
          cases hkept with
          | inr hw =>
            obtain ⟨p, hp, hsame⟩ := hw
            exact absurd ⟨p, hp, Or.inr hsame⟩ hwant
          | inl hs =>
            obtain ⟨p, hp, hsame⟩ := hs
            rw [hinv.solving] at hp
            obtain ⟨⟨q, c⟩, hflight, hq⟩ := Option.map_eq_some_iff.mp hp
            cases hq
            cases hraised : sys.shared.raised c with
            | false => exact Or.inr (Or.inr ⟨q, c, hflight, Or.inr hsame, hraised⟩)
            | true =>
              refine absurd ⟨⟨q, c, hflight, hsame, hraised⟩, hready, ?_⟩ hnot
              intro p hp hden
              exact hwant ⟨p, hp, hden⟩
  · next hnot =>
    constructor
    · intro _ hunwinding
      obtain ⟨⟨p, c, hflight, hsame, -⟩, -, -⟩ := hunwinding
      apply hnot
      have hsolving : sys.shared.state.solving = some p := by
        rw [hinv.solving, hflight]
        rfl
      rw [Bool.or_eq_true]
      exact Or.inr (underway_iff.mpr (Or.inl ⟨p, hsolving, hsame⟩))
    · intro _
      exact Or.inr (Or.inl ⟨n, rfl, Or.inl rfl⟩)

/-- After `note_goal` the next waypoint is assured, unless its solve was just unwinding. -/
theorem noteGoal_assures_iff {sys sys' : Sys F} {goal n : PoseView F}
    (hrun : Transition.Run (step yawToGoalThetaDeg) spawn sys)
    (hpos : positionOf yawToGoalThetaDeg sys.shared.state goal = .next n)
    (hstep : step yawToGoalThetaDeg sys (.noteGoal goal) = some sys') :
    Assured yawToGoalThetaDeg sys' n ↔ ¬ Unwinding yawToGoalThetaDeg sys n := by
  cases hstep
  rw [noteGoal, hpos]
  exact request_assures (Inv.reached hrun) n

end

/-- While the second pose is solved it stays assured, and so is the third once the second is
the goal. -/
theorem noteGoal_assures_patrol : ∃ sys sys₁ sys₂ : Sys Int,
    sys.worker.flight = some (pose 2, 0) ∧
    step (· % 360) sys (.noteGoal (pose 1)) = some sys₁ ∧ Assured (· % 360) sys₁ (pose 2) ∧
    step (· % 360) sys (.noteGoal (pose 2)) = some sys₂ ∧ Assured (· % 360) sys₂ (pose 3) := by
  have hexec : Transition.exec (step (· % 360)) (fun _ _ => true) spawn
      [.setWaypoints route, .noteGoal (pose 1), .take, .look none] = some _ := rfl
  have hrun := (Transition.guardedRun_of_exec hexec).run
  refine ⟨_, _, _, rfl, rfl, (noteGoal_assures_iff hrun rfl rfl).mpr ?_, rfl,
    (noteGoal_assures_iff hrun rfl rfl).mpr ?_⟩
  · rintro ⟨⟨p, c, hflight, -, hraised⟩, -⟩
    cases hflight
    cases hraised
  · rintro ⟨⟨p, c, hflight, hsame, -⟩, -⟩
    cases hflight
    cases hsame

/-- The next waypoint is assured after every `note_goal`. -/
def NoLostOrder (yawToGoalThetaDeg : Int → Int) : Prop :=
  ∀ sys sys' goal n, Transition.Run (step yawToGoalThetaDeg) spawn sys →
    positionOf yawToGoalThetaDeg sys.shared.state goal = .next n →
    step yawToGoalThetaDeg sys (.noteGoal goal) = some sys' → Assured yawToGoalThetaDeg sys' n

/-- The order for the second pose is dropped while its stopped solve is wound up. -/
theorem not_noLostOrder : ¬ NoLostOrder (· % 360) := by
  intro h
  have hexec : Transition.exec (step (· % 360)) (fun _ _ => true) spawn
      [.setWaypoints route, .noteGoal (pose 1), .take, .look none, .adopt (pose 9) false] =
    some _ := rfl
  have hrun := (Transition.guardedRun_of_exec hexec).run
  rcases h _ _ (pose 1) (pose 2) hrun rfl rfl with hready | ⟨p, hp, -⟩ | ⟨p, c, hp, -, hlow⟩
  · cases hready
  · cases hp
  · cases hp
    cases hlow

end Prefetch

end ValueIteration
