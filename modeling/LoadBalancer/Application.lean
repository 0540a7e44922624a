/-
  `Application`: the threads that run the handlers, and what an exception does to them.

  `selectsHeld_iff`: a run makes every selection on a selector that holds a backend exactly if
  it makes none after an exclusion has thrown for want of backends; with one thread it always
  does.

  A worker runs one handler at a time. The part of a handler before its next selector call is
  one step, so between `ExcludeBackend` and the `SelectBackend` that follows it in the same
  handler other workers may step. An exception leaves `io_context::run`; `Terminate` is a later
  step of that worker, and until then the other workers take further handlers. After it they
  finish the handler they are in.

  The model allows more interleavings than the strands of the sockets and of the resolver do.
-/
import LoadBalancer.Connector.System
import LoadBalancer.Lib.ListSet

namespace LoadBalancer

open Transition

section

variable [Platform]

/-- A thread in `ThreadRoutine`. -/
inductive Worker where
  /-- in `io_context::run`, between two handlers -/
  | idle
  /-- in a handler of a client -/
  | handling (c : Nat)
  /-- an exception left `io_context::run` -/
  | unwinding (e : Exception)
  /-- `Terminate` was called after the exception -/
  | terminated (e : Exception)
  /-- `io_context::run` returned -/
  | exited
  /-- the handler ran into undefined behaviour -/
  | undefined

namespace Phase

/-- What the handler that led to a phase does next. -/
def continuation : Phase → Option ClientEvent
  | .ready => some .selects
  | .session _ _ .cancelled => some .destroys
  | _ => none

/-- The worker of a handler of client `c` that led to a phase. -/
def worker (c : Nat) : Phase → Worker
  | .failed e => .unwinding e
  | .undefined => .undefined
  | phase => if phase.continuation.isSome then .handling c else .idle

end Phase

/-- The events that start a handler. -/
def ClientEvent.isCompletion : ClientEvent → Bool
  | .resolves _ | .connects _ | .completes _ _ => true
  | .selects | .destroys => false

def exitSuccess : Int := 0
def exitFailure : Int := 1

structure Application where
  system : System
  workers : List Worker
  /-- `io_context.stop()` was called -/
  stopped : Bool
  exitCode : Int

inductive AppEvent where
  /-- an idle worker takes the handler of `async_accept`, which goes on to
      `MakeAndRunSession` -/
  | accepts (w : Nat) (endpoint : Endpoint)
  /-- an idle worker takes the completion handler of an operation of client `c` -/
  | starts (w c : Nat) (e : ClientEvent)
  /-- a worker goes on with its handler -/
  | resumes (w : Nat)
  /-- the endpoint of the client's socket is queried, and the socket is not connected -/
  | disconnected (w : Nat)
  /-- `SetExitCode` and `Terminate` after an exception -/
  | terminates (w : Nat)
  /-- an idle worker takes the signal handler -/
  | interrupts (w : Nat)
  /-- `io_context::run` returns -/
  | exits (w : Nat)

namespace Application

/-- `Start`, once the threads have passed the barrier. -/
def start (s : Selector) (threads : Nat) : Application :=
  { system := .initial s
    workers := List.replicate threads .idle
    stopped := false
    exitCode := exitSuccess }

def setExitCode (app : Application) (code : Int) : Application :=
  if code ≠ exitSuccess then { app with exitCode := code } else app

def terminate (app : Application) : Application := { app with stopped := true }

/-- Worker `w` makes a step of client `c`. -/
def perform (app : Application) (w c : Nat) (e : ClientEvent) : Option Application := do
  let system ← app.system.step (.client c e)
  let client ← system.clients[c]?
  return { app with
    system := system
    workers := app.workers.set w (client.phase.worker c) }

def step (app : Application) : AppEvent → Option Application
  | .accepts w endpoint =>
    match app.workers[w]?, app.stopped with
    | some .idle, false => do
      let system ← app.system.step (.accepts endpoint)
      return { app with
        system := system
        workers := app.workers.set w (.handling app.system.clients.length) }
    | _, _ => none
  | .starts w c e =>
    match app.workers[w]?, app.stopped with
    | some .idle, false => if e.isCompletion then app.perform w c e else none
    | _, _ => none
  | .resumes w =>
    match app.workers[w]? with
    | some (.handling c) => do
      let client ← app.system.clients[c]?
      let e ← client.phase.continuation
      app.perform w c e
    | _ => none
  | .disconnected w =>
    match app.workers[w]? with
    | some (.handling c) => do
      let client ← app.system.clients[c]?
      match client.phase with
      | .ready => return { app with workers := app.workers.set w (.unwinding .notConnected) }
      | _ => none
    | _ => none
  | .terminates w =>
    match app.workers[w]? with
    | some (.unwinding e) =>
      some (terminate (setExitCode { app with workers := app.workers.set w (.terminated e) } exitFailure))
    | _ => none
  | .interrupts w =>
    match app.workers[w]?, app.stopped with
    | some .idle, false => some app.terminate
    | _, _ => none
  | .exits w =>
    match app.workers[w]?, app.stopped with
    | some .idle, true => some { app with workers := app.workers.set w .exited }
    | _, _ => none

/-! ## What a step can be -/

inductive StepCase (app : Application) : AppEvent → Application → Prop where
  | accepted {w : Nat} {endpoint : Endpoint} (idle : app.workers[w]? = some .idle)
      (running : app.stopped = false) :
      StepCase app (.accepts w endpoint)
        { app with
          system := { app.system with clients := app.system.clients ++ [Client.new endpoint] }
          workers := app.workers.set w (.handling app.system.clients.length) }
  | performed {event : AppEvent} {w c : Nat} {old : Worker} {e : ClientEvent} {client : Client}
      {system : System} (worker : app.workers[w]? = some old)
      (alive : old = .idle ∨ old = .handling c)
      (stepped : app.system.step (.client c e) = some system)
      (found : system.clients[c]? = some client) :
      StepCase app event
        { app with system := system, workers := app.workers.set w (client.phase.worker c) }
  | disconnected {w c : Nat} (handling : app.workers[w]? = some (.handling c)) :
      StepCase app (.disconnected w)
        { app with workers := app.workers.set w (.unwinding .notConnected) }
  | terminated {w : Nat} {e : Exception} (unwinding : app.workers[w]? = some (.unwinding e)) :
      StepCase app (.terminates w)
        { app with
          workers := app.workers.set w (.terminated e)
          stopped := true
          exitCode := exitFailure }
  | interrupted {w : Nat} (idle : app.workers[w]? = some .idle) :
      StepCase app (.interrupts w) { app with stopped := true }
  | exited {w : Nat} (idle : app.workers[w]? = some .idle) :
      StepCase app (.exits w) { app with workers := app.workers.set w .exited }

theorem stepCase_of_perform {app app' : Application} {event : AppEvent} {w c : Nat}
    {old : Worker} {e : ClientEvent} (worker : app.workers[w]? = some old)
    (alive : old = .idle ∨ old = .handling c) (h : app.perform w c e = some app') :
    StepCase app event app' := by
  obtain ⟨system, hsystem, h⟩ := Option.bind_eq_some_iff.mp h
  obtain ⟨client, hclient, h⟩ := Option.bind_eq_some_iff.mp h
  rw [← Option.some.inj h]
  exact .performed worker alive hsystem hclient

theorem stepCase_of_step {app app' : Application} {event : AppEvent}
    (h : app.step event = some app') : StepCase app event app' := by
  cases event with
  | accepts w endpoint =>
      simp only [step] at h
      split at h
      · next idle running =>
        obtain ⟨system, hsystem, h⟩ := Option.bind_eq_some_iff.mp h
        obtain rfl := System.step_accepts hsystem
        rw [← Option.some.inj h]
        exact .accepted idle running
      · cases h
  | starts w c e =>
      simp only [step] at h
      split at h
      · next idle running =>
        obtain ⟨-, h⟩ := Option.ite_none_right_eq_some.mp h
        exact stepCase_of_perform idle (Or.inl rfl) h
      · cases h
  | resumes w =>
      simp only [step] at h
      split at h
      · next c handling =>
        obtain ⟨client, -, h⟩ := Option.bind_eq_some_iff.mp h
        obtain ⟨e, -, h⟩ := Option.bind_eq_some_iff.mp h
        exact stepCase_of_perform handling (Or.inr rfl) h
      · cases h
  | disconnected w =>
      simp only [step] at h
      split at h
      · next c handling =>
        obtain ⟨client, -, h⟩ := Option.bind_eq_some_iff.mp h
        split at h
        · rw [← Option.some.inj h]
          exact .disconnected handling
        · cases h
      · cases h
  | terminates w =>
      simp only [step] at h
      split at h
      · next e unwinding =>
        rw [← Option.some.inj h]
        exact .terminated unwinding
      · cases h
  | interrupts w =>
      simp only [step] at h
      split at h
      · next idle running =>
        rw [← Option.some.inj h]
        exact .interrupted idle
      · cases h
  | exits w =>
      simp only [step] at h
      split at h
      · next idle running =>
        rw [← Option.some.inj h]
        exact .exited idle
      · cases h

end Application

/-! ## Exhaustion -/

/-- An exclusion left the selector empty, and its exception has left `io_context::run`. -/
def Worker.Exhausted (w : Worker) : Prop :=
  w = .unwinding allBackendsExcluded ∨ w = .terminated allBackendsExcluded

theorem Phase.exhausted_worker (c : Nat) (phase : Phase) :
    (phase.worker c).Exhausted ↔ phase = .failed allBackendsExcluded := by
  cases phase with
  | failed e => simp [worker, Worker.Exhausted]
  | session b v state => cases state <;> simp [worker, continuation, Worker.Exhausted]
  | _ => simp [worker, continuation, Worker.Exhausted]

/-- A step of a client on a selector that holds a backend empties it exactly where the handler
    fails for want of backends. -/
theorem Client.holds_stepCase [LawfulPairingHeap] {s t : Selector} {client client' : Client}
    {e : ClientEvent} (hs : s.Inv) (hclient : client.WellFormed s.type)
    (h : StepCase s client e t client') (hheld : ∃ b, s.Holds b) :
    (∃ b, t.Holds b) ↔ client'.phase ≠ .failed allBackendsExcluded := by
  have hsame : ∀ {u : Selector}, Selector.SameBackends s u → ∃ b, u.Holds b := by
    intro u hu
    obtain ⟨b, hb⟩ := hheld
    exact ⟨b, (hu.holds b).mpr hb⟩
  cases h with
  | @selected b =>
      have hphase : Phase.attempt b ≠ .failed allBackendsExcluded := by
        cases b <;> simp [Phase.attempt]
      exact iff_of_true (hsame (Selector.sameBackends_selectBackend hs _)) hphase
  | unselected ready unselected halted =>
      apply iff_of_true (hsame (Selector.sameBackends_selectBackend hs _))
      rcases halted with rfl | ⟨e, hthrown, rfl⟩
      · simp
      · obtain ⟨b, hb⟩ := hheld
        exact absurd hb (Selector.not_holds_of_selectBackend_thrown hs hthrown b)
  | @refused e b =>
      have hfst := Selector.excludeBackend_fst hs b fun _ => Selector.isEmpty_eq_false.mpr hheld
      rw [← Selector.isEmpty_eq_false, hfst]
      cases (s.excludeBackend b).2.isEmpty <;> simp [throwIfEmpty, Phase.after]
  | resolved => exact iff_of_true hheld (by simp)
  | connected =>
      apply iff_of_true (hsame (Visitor.sameBackends_notify _ _ _ _))
      rw [runSession, notify_eq hs (Visitor.belongsTo_make _ _)]
      simp
  | dropped => exact iff_of_true hheld (by simp)
  | handled running =>
      apply iff_of_true (hsame (Visitor.sameBackends_notify _ _ _ _))
      rw [notify_eq hs (hclient _ _ _ running)]
      simp
  | destroyed cancelled =>
      apply iff_of_true (hsame (Visitor.sameBackends_notify _ _ _ _))
      rw [notify_eq hs (hclient _ _ _ cancelled)]
      simp

namespace Application

def Exhausted (app : Application) : Prop :=
  ∃ w ∈ app.workers, w.Exhausted

/-- The selector is empty exactly where the exception of the exclusion that emptied it has
    left `io_context::run`. -/
structure Inv (app : Application) : Prop where
  system : app.system.Inv
  held : (∃ b, app.system.selector.Holds b) ↔ ¬ app.Exhausted

theorem inv_start {s : Selector} (hs : s.Inv) (hheld : ∃ b, s.Holds b) (threads : Nat) :
    (start s threads).Inv := by
  refine ⟨System.inv_initial hs, iff_of_true hheld ?_⟩
  intro hfailed
  obtain ⟨w, hw, hexhausted⟩ := hfailed
  obtain rfl := List.eq_of_mem_replicate hw
  simp [Worker.Exhausted] at hexhausted

variable [LawfulPairingHeap]

theorem inv_step {app app' : Application} {event : AppEvent} (happ : app.Inv)
    (h : app.step event = some app') : app'.Inv := by
  obtain ⟨hsystem, hheld⟩ := happ
  have hset : ∀ {w old new}, app.workers[w]? = some old → (new.Exhausted ↔ old.Exhausted) →
      ((∃ b, app.system.selector.Holds b) ↔
        ¬ ∃ x ∈ app.workers.set w new, Worker.Exhausted x) := by
    intro w old new hw hiff
    rw [hheld, List.exists_mem_set_congr hw hiff]
    rfl
  cases stepCase_of_step h with
  | accepted idle running =>
      exact ⟨System.inv_step (e := .accepts _) hsystem rfl, hset idle (by simp [Worker.Exhausted])⟩
  | @performed event w c old e client system worker alive stepped found =>
      refine ⟨System.inv_step hsystem stepped, ?_⟩
      have hold : ¬ old.Exhausted := by
        rcases alive with rfl | rfl <;> simp [Worker.Exhausted]
      obtain ⟨before, s, client', hbefore, hcase, rfl⟩ := System.step_client stepped
      obtain rfl : client' = client := by
        obtain ⟨hlt, -⟩ := List.getElem?_eq_some_iff.mp hbefore
        exact Option.some.inj ((List.getElem?_set_self hlt).symm.trans found)
      rw [Exhausted, List.exists_mem_set worker hold, Phase.exhausted_worker, not_or]
      by_cases hempty : ∃ b, app.system.selector.Holds b
      · have hwf := hsystem.clients before (List.mem_of_getElem? hbefore)
        rw [Client.holds_stepCase hsystem.selector hwf hcase hempty]
        exact (and_iff_left (hheld.mp hempty)).symm
      · -- an empty selector stays empty, and its exception has been thrown
        have hlater := System.later_step hsystem stepped
        refine iff_of_false (fun ⟨b, hb⟩ => hempty ⟨b, hlater.holds b hb⟩) fun hnone => ?_
        exact hempty (hheld.mpr hnone.2)
  | disconnected handling =>
      refine ⟨hsystem, hset handling ?_⟩
      simp [Worker.Exhausted, allBackendsExcluded]
  | terminated unwinding => exact ⟨hsystem, hset unwinding (by simp [Worker.Exhausted])⟩
  | interrupted idle => exact ⟨hsystem, hheld⟩
  | exited idle => exact ⟨hsystem, hset idle (by simp [Worker.Exhausted])⟩

/-- What a run from `start` keeps: the invariant, the selector's type and the threads. -/
structure Running (type : SelectorType) (threads : Nat) (app : Application) : Prop where
  inv : app.Inv
  type : app.system.selector.type = type
  threads : app.workers.length = threads

theorem running_step {type : SelectorType} {threads : Nat} {app app' : Application}
    {event : AppEvent} (happ : app.Running type threads) (h : app.step event = some app') :
    app'.Running type threads := by
  refine ⟨inv_step happ.inv h, ?_, ?_⟩
  · cases stepCase_of_step h with
    | performed _ _ stepped =>
        exact (System.later_step happ.inv.system stepped).type.trans happ.type
    | _ => exact happ.type
  · cases stepCase_of_step h with
    | interrupted => exact happ.threads
    | _ => exact List.length_set.trans happ.threads

/-! ## Selections -/

/-- The step calls `SelectBackend` for a client. -/
def Selects (app : Application) (event : AppEvent) (client : Client) : Prop :=
  ∃ w c, event = .resumes w ∧ app.workers[w]? = some (.handling c) ∧
    app.system.clients[c]? = some client ∧ client.phase = .ready

/-- `SelectBackend` is called on a selector that holds a backend. -/
def SelectsHeld (app : Application) (event : AppEvent) : Prop :=
  ∀ client, app.Selects event client → ∃ b, app.system.selector.Holds b

/-- `SelectBackend` returns: no exception and no undefined behaviour. -/
def SelectReturns (app : Application) (event : AppEvent) : Prop :=
  ∀ client, app.Selects event client →
    ∃ b, (app.system.selector.selectBackend client.endpoint).1 = .returned b

/-- `SelectBackend` is called before an exclusion has thrown for want of backends. -/
def BeforeExhaustion (app : Application) (event : AppEvent) : Prop :=
  ∀ client, app.Selects event client → ¬ app.Exhausted

omit [LawfulPairingHeap] in
theorem selectsHeld_iff_before {app : Application} (happ : app.Inv) (event : AppEvent) :
    app.SelectsHeld event ↔ app.BeforeExhaustion event := by
  simp only [SelectsHeld, BeforeExhaustion, happ.held]

theorem selectReturns_iff_held {app : Application} (happ : app.Inv)
    (htype : app.system.selector.type ≠ .consistentHash) (event : AppEvent) :
    app.SelectReturns event ↔ app.SelectsHeld event := by
  have hselectable : ∀ b, app.system.selector.Holds b → app.system.selector.Selectable b := by
    intro b hb
    cases hs : app.system.selector with
    | consistentHash s => exact absurd (by rw [hs]; rfl) htype
    | _ => rw [hs] at hb; exact hb
  refine forall_congr' fun client => imp_congr_right fun _ => ⟨?_, ?_⟩
  · intro hreturns
    obtain ⟨b, hb⟩ := hreturns
    exact ⟨b, (Selector.selectable_of_selectBackend happ.system.selector hb).holds⟩
  · intro hheld
    obtain ⟨b, hb⟩ := hheld
    exact Selector.selectBackend_returns happ.system.selector (hselectable b hb) _

omit [LawfulPairingHeap] in
/-- The only worker has thrown nothing while it is in a handler. -/
theorem beforeExhaustion_of_single {app : Application} (h : app.workers.length = 1)
    (event : AppEvent) : app.BeforeExhaustion event := by
  intro client hselects hfailed
  obtain ⟨w, c, -, hw, -⟩ := hselects
  obtain ⟨x, hx, hexhausted⟩ := hfailed
  obtain ⟨y, hy⟩ := List.length_eq_one_iff.mp h
  rw [hy] at hw hx
  have hhandling := List.mem_singleton.mp (List.mem_of_getElem? hw)
  rw [List.mem_singleton.mp hx, ← hhandling] at hexhausted
  simp [Worker.Exhausted] at hexhausted

/-- With at least one configured endpoint, a run calls `SelectBackend` on selectors that hold a
    backend exactly if it makes no call after an exclusion has thrown for want of backends; for
    all selectors but the hash ring these are the runs in which every call returns. With one
    thread every run is such a run. -/
theorem selectsHeld_iff [LawfulSort] {type : SelectorType} {replicas : Nat} {config : Node}
    {s : Selector} {missed : String} {bs : List Backend} {threads : Nat}
    {events : List AppEvent} {app : Application}
    (h : Selector.configure type replicas config = .ok s)
    (hbs : configuredBackends missed config = .ok bs) (hne : bs ≠ [])
    (hrun : Run (Steps step) (start s threads) events app) :
    (Run (Under SelectsHeld (Steps step)) (start s threads) events app ↔
      Run (Under BeforeExhaustion (Steps step)) (start s threads) events app) ∧
    (type ≠ .consistentHash →
      (Run (Under SelectReturns (Steps step)) (start s threads) events app ↔
        Run (Under BeforeExhaustion (Steps step)) (start s threads) events app)) ∧
    (threads = 1 → Run (Under SelectsHeld (Steps step)) (start s threads) events app) := by
  obtain ⟨htype, hs, bs', hbs', hholds, -⟩ := Selector.configure_spec h
  obtain rfl : bs = bs' := Except.ok.inj (hbs.symm.trans (hbs' missed))
  obtain ⟨b, hb⟩ := List.exists_mem_of_ne_nil bs hne
  have hstart : (start s threads).Running type threads :=
    ⟨inv_start hs ⟨b, (hholds b).mpr hb⟩ threads, htype, List.length_replicate⟩
  have hstep : ∀ (app : Application) event app', app.Running type threads →
      Steps step app event app' → app'.Running type threads :=
    fun app event app' happ h => running_step happ h
  have hheld : ∀ (app : Application) event, app.Running type threads →
      (app.SelectsHeld event ↔ app.BeforeExhaustion event) :=
    fun app event happ => selectsHeld_iff_before happ.inv event
  refine ⟨⟨Run.under_mono hstep (fun app event happ => (hheld app event happ).mp) hstart,
    Run.under_mono hstep (fun app event happ => (hheld app event happ).mpr) hstart⟩, ?_, ?_⟩
  · intro hring
    have hreturns : ∀ (app : Application) event, app.Running type threads →
        (app.SelectReturns event ↔ app.BeforeExhaustion event) := by
      intro app event happ
      have hnotring : app.system.selector.type ≠ .consistentHash := by rwa [happ.type]
      rw [selectReturns_iff_held happ.inv hnotring, hheld app event happ]
    exact ⟨Run.under_mono hstep (fun app event happ => (hreturns app event happ).mp) hstart,
      Run.under_mono hstep (fun app event happ => (hreturns app event happ).mpr) hstart⟩
  · intro hsingle
    refine (hrun.under_invariant hstep hstart).mono fun app event app' hok => ⟨?_, hok.2⟩
    rw [hheld app event hok.1]
    exact beforeExhaustion_of_single (hok.1.threads.trans hsingle) event

end Application

end

/-! ## A selection from an exhausted selector -/

namespace Application

section

open Reference Selector

/-- A round robin over one endpoint. -/
def oneRobin : Selector := .roundRobin ⟨0, [port80]⟩

/-- One thread: the only backend refuses the only client, and the thread terminates. -/
def refusedAlone : List AppEvent :=
  [.accepts 0 somebody, .resumes 0, .starts 0 0 (.connects .connectionRefused), .terminates 0]

def afterRefusedAlone : Application :=
  (refusedAlone.foldlM step (start oneRobin 1)).getD (start oneRobin 1)

theorem selectsHeld_refusedAlone :
    Run (Under SelectsHeld (Steps step)) (start oneRobin 1) refusedAlone afterRefusedAlone := by
  have h : configure .roundRobin 1 oneEntry = .ok oneRobin := by rfl
  have hbs : configuredBackends "" oneEntry = .ok [port80] := by rfl
  have hrun : Run (Steps step) (start oneRobin 1) refusedAlone afterRefusedAlone :=
    .of_foldlM (by rfl)
  exact (selectsHeld_iff h hbs (List.cons_ne_nil _ _) hrun).2.2 rfl

/-- Two threads: the same, and before the first thread calls `Terminate` the second takes a
    new client. -/
def acceptedLate : List AppEvent :=
  [.accepts 0 somebody, .resumes 0, .starts 0 0 (.connects .connectionRefused),
    .accepts 1 somebody]

def afterAcceptedLate : Application :=
  (acceptedLate.foldlM step (start oneRobin 2)).getD (start oneRobin 2)

/-- The second thread calls `SelectBackend` on a selector without backends: the remainder by
    zero of a round robin. -/
theorem not_selectsHeld_acceptedLate :
    configure .roundRobin 1 oneEntry = .ok oneRobin ∧
      Run (Steps step) (start oneRobin 2) acceptedLate afterAcceptedLate ∧
      (∃ app, Steps step afterAcceptedLate (.resumes 1) app) ∧
      (afterAcceptedLate.system.selector.selectBackend somebody).1 = .undefined ∧
      ¬ afterAcceptedLate.SelectsHeld (.resumes 1) := by
  refine ⟨by rfl, .of_foldlM (by rfl), ⟨_, by rfl⟩, by rfl, fun hheld => ?_⟩
  have hselects : afterAcceptedLate.Selects (.resumes 1) (Client.new somebody) :=
    ⟨1, 1, rfl, by rfl, by rfl, rfl⟩
  obtain ⟨b, hb⟩ := hheld _ hselects
  have hempty : afterAcceptedLate.system.selector.isEmpty = true := by rfl
  exact isEmpty_eq_true.mp hempty b hb

end

end Application

end LoadBalancer
