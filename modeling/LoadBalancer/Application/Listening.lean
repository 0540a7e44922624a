/-
  The acceptor and the signal handler around `Application`.

  The handler of `async_accept` starts the next one before it looks at its client, so no handler
  of a client keeps the acceptor from accepting. Where it gets an error it closes the acceptor
  and starts none. `Start` waits for one signal; the handler calls `Stop` first, which throws on
  a closed acceptor, and `Terminate` then.

  Proved:
  * `listening_run`: one accept is pending until one has failed, and none after that.
  * `run_app_iff`: the runs in which no accept fails are the runs of `Application`.
  * `endable`: the server can be brought to its end from every state.
  * `exitCode_iff`: a signal that comes after a failed accept makes the exit code
    `EXIT_FAILURE`.
-/
import LoadBalancer.Application.Shutdown

namespace LoadBalancer

open Transition

/-- `cancel` of an acceptor that is closed. -/
def badDescriptor : Exception := .runtimeError "cancel: Bad file descriptor"

/-- The socket of the `Acceptor`. -/
structure Listener where
  isOpen : Bool
  /-- how many calls of `async_accept` have not completed -/
  pending : Nat

namespace Listener

def doAccept (l : Listener) : Listener := { l with pending := l.pending + 1 }

/-- `Run` of a new acceptor. -/
def run : Listener := doAccept { isOpen := true, pending := 0 }

/-- An `async_accept` completes. -/
def complete (l : Listener) : Listener := { l with pending := l.pending - 1 }

def close (l : Listener) : Listener := { l with isOpen := false }

/-- `Stop`. The accept that is cancelled completes later, with an error. -/
def stop (l : Listener) : Except Exception Listener :=
  if l.isOpen then .ok l else .error badDescriptor

end Listener

section

variable [Platform]

structure Server where
  app : Application
  listener : Listener
  /-- `async_wait` of the signals is pending -/
  waiting : Bool

inductive ServerEvent where
  | app (e : AppEvent)
  /-- an idle worker takes the handler of `async_accept`, which gets an error -/
  | acceptFails (w : Nat)

namespace ServerEvent

def failed : ServerEvent → Bool
  | .acceptFails _ => true
  | .app _ => false

/-- The handler of `async_accept`. -/
def ofAcceptor : ServerEvent → Bool
  | .acceptFails _ | .app (.accepts _ _) => true
  | .app _ => false

/-- The handler of the signals. -/
def ofSignal : ServerEvent → Bool
  | .app (.interrupts _) => true
  | _ => false

end ServerEvent

namespace Server

def start (s : Selector) (threads : Nat) : Server :=
  { app := .start s threads, listener := .run, waiting := true }

def step (srv : Server) : ServerEvent → Option Server
  | .app (.accepts w endpoint) =>
    if srv.listener.isOpen ∧ 0 < srv.listener.pending then do
      let app ← srv.app.step (.accepts w endpoint)
      return { srv with app := app, listener := srv.listener.complete.doAccept }
    else none
  | .app (.interrupts w) =>
    if srv.waiting then
      match srv.listener.stop with
      | .ok listener => do
        let app ← srv.app.step (.interrupts w)
        return { app := app, listener := listener, waiting := false }
      | .error e =>
        match srv.app.workers[w]?, srv.app.stopped with
        | some .idle, false =>
          some { srv with
            app := { srv.app with workers := srv.app.workers.set w (.unwinding e) }
            waiting := false }
        | _, _ => none
    else none
  | .app e => do
    let app ← srv.app.step e
    return { srv with app := app }
  | .acceptFails w =>
    match srv.app.workers[w]?, srv.app.stopped with
    | some .idle, false =>
      if 0 < srv.listener.pending then
        some { srv with listener := srv.listener.complete.close }
      else none
    | _, _ => none

/-! ## What a step can be -/

inductive Acts (srv : Server) : ServerEvent → Server → Prop where
  | accepts {w : Nat} {endpoint : Endpoint} {app : Application}
      (isOpen : srv.listener.isOpen = true) (pending : 0 < srv.listener.pending)
      (stepped : srv.app.step (.accepts w endpoint) = some app) :
      Acts srv (.app (.accepts w endpoint))
        { srv with app := app, listener := srv.listener.complete.doAccept }
  | interrupts {w : Nat} {app : Application} (waiting : srv.waiting = true)
      (isOpen : srv.listener.isOpen = true)
      (stepped : srv.app.step (.interrupts w) = some app) :
      Acts srv (.app (.interrupts w)) { srv with app := app, waiting := false }
  | throws {w : Nat} (waiting : srv.waiting = true) (closed : srv.listener.isOpen = false)
      (idle : srv.app.workers[w]? = some .idle) (running : srv.app.stopped = false) :
      Acts srv (.app (.interrupts w))
        { srv with
          app := { srv.app with workers := srv.app.workers.set w (.unwinding badDescriptor) }
          waiting := false }
  | runs {e : AppEvent} {app : Application} (other : (ServerEvent.app e).ofAcceptor = false)
      (unsignalled : (ServerEvent.app e).ofSignal = false) (stepped : srv.app.step e = some app) :
      Acts srv (.app e) { srv with app := app }
  | acceptFails {w : Nat} (idle : srv.app.workers[w]? = some .idle)
      (running : srv.app.stopped = false) (pending : 0 < srv.listener.pending) :
      Acts srv (.acceptFails w) { srv with listener := srv.listener.complete.close }

theorem acts_of_runs {srv srv' : Server} {e : AppEvent}
    (other : (ServerEvent.app e).ofAcceptor = false)
    (unsignalled : (ServerEvent.app e).ofSignal = false)
    (h : (srv.app.step e).bind (fun app => some { srv with app := app }) = some srv') :
    srv.Acts (.app e) srv' := by
  obtain ⟨app, stepped, h⟩ := Option.bind_eq_some_iff.mp h
  rw [← Option.some.inj h]
  exact .runs other unsignalled stepped

theorem acts_of_step {srv srv' : Server} {event : ServerEvent}
    (h : srv.step event = some srv') : srv.Acts event srv' := by
  cases event with
  | acceptFails w =>
      simp only [step] at h
      split at h
      · next idle running =>
        obtain ⟨pending, h⟩ := Option.ite_none_right_eq_some.mp h
        rw [← Option.some.inj h]
        exact .acceptFails idle running pending
      · cases h
  | app e =>
      cases e with
      | accepts w endpoint =>
          obtain ⟨⟨isOpen, pending⟩, h⟩ := Option.ite_none_right_eq_some.mp h
          obtain ⟨app, stepped, h⟩ := Option.bind_eq_some_iff.mp h
          rw [← Option.some.inj h]
          exact .accepts isOpen pending stepped
      | interrupts w =>
          obtain ⟨waiting, h⟩ := Option.ite_none_right_eq_some.mp h
          unfold Listener.stop at h
          cases hopen : srv.listener.isOpen with
          | true =>
              simp only [hopen, if_true] at h
              obtain ⟨app, stepped, h⟩ := Option.bind_eq_some_iff.mp h
              rw [← Option.some.inj h]
              exact .interrupts waiting hopen stepped
          | false =>
              simp only [hopen, Bool.false_eq_true, if_false] at h
              split at h
              · next idle running =>
                rw [← Option.some.inj h]
                exact .throws waiting hopen idle running
              · cases h
      | starts w c e => exact acts_of_runs rfl rfl h
      | resumes w => exact acts_of_runs rfl rfl h
      | disconnected w => exact acts_of_runs rfl rfl h
      | terminates w => exact acts_of_runs rfl rfl h
      | exits w => exact acts_of_runs rfl rfl h

/-! ## The acceptor -/

/-- One accept is pending on an open acceptor and none on a closed one, the acceptor is open
    until an accept has failed, and one signal is waited for. -/
structure Listens (srv : Server) (events : List ServerEvent) : Prop where
  pending : srv.listener.pending = if srv.listener.isOpen then 1 else 0
  isOpen : srv.listener.isOpen = true ↔ ∀ e ∈ events, e.failed = false
  waiting : srv.waiting = true ↔ ∀ e ∈ events, e.ofSignal = false
  stopped : srv.waiting = false → srv.listener.isOpen = true → srv.app.stopped = true

theorem listens_start (s : Selector) (threads : Nat) : (start s threads).Listens [] where
  pending := rfl
  isOpen := by simp [start, Listener.run, Listener.doAccept]
  waiting := by simp [start]
  stopped h := by cases h

/-- An event of another kind changes nothing about a history. -/
theorem forall_mem_snoc {p : ServerEvent → Bool} {e : ServerEvent} (he : p e = false)
    (events : List ServerEvent) :
    (∀ x ∈ events, p x = false) ↔ ∀ x ∈ events ++ [e], p x = false := by
  simp [or_imp, forall_and, he]

theorem not_forall_mem_snoc {p : ServerEvent → Bool} {e : ServerEvent} (he : p e = true)
    (events : List ServerEvent) : ¬ ∀ x ∈ events ++ [e], p x = false := by
  intro h
  have hlast := h e (List.mem_append_right _ List.mem_cons_self)
  rw [he] at hlast
  cases hlast

theorem stopped_step {app app' : Application} {event : AppEvent} (h : app.step event = some app')
    (hstopped : app.stopped = true) : app'.stopped = true := by
  cases Application.acts_of_step h <;> first | exact hstopped | rfl

theorem listens_step {srv srv' : Server} {events : List ServerEvent} {event : ServerEvent}
    (hsrv : srv.Listens events) (h : srv.step event = some srv') :
    srv'.Listens (events ++ [event]) := by
  have hpending := hsrv.pending
  cases acts_of_step h with
  | @accepts w endpoint app isOpen pending stepped =>
      refine ⟨?_, ?_, ?_, fun hwaiting hopen => ?_⟩
      · rw [isOpen] at hpending
        simp [Listener.complete, Listener.doAccept, hpending, isOpen]
      · exact hsrv.isOpen.trans (forall_mem_snoc rfl events)
      · exact hsrv.waiting.trans (forall_mem_snoc rfl events)
      · exact stopped_step stepped (hsrv.stopped hwaiting isOpen)
  | interrupts waiting isOpen stepped =>
      refine ⟨hpending, ?_, ?_, fun _ _ => ?_⟩
      · exact hsrv.isOpen.trans (forall_mem_snoc rfl events)
      · exact iff_of_false Bool.false_ne_true (not_forall_mem_snoc rfl events)
      · cases Application.acts_of_step stepped
        rfl
  | throws waiting closed idle running =>
      refine ⟨hpending, ?_, ?_, fun _ hopen => ?_⟩
      · exact hsrv.isOpen.trans (forall_mem_snoc rfl events)
      · exact iff_of_false Bool.false_ne_true (not_forall_mem_snoc rfl events)
      · rw [closed] at hopen
        cases hopen
  | @runs e app other unsignalled stepped =>
      refine ⟨hpending, ?_, ?_, fun hwaiting hopen => ?_⟩
      · exact hsrv.isOpen.trans (forall_mem_snoc rfl events)
      · exact hsrv.waiting.trans (forall_mem_snoc unsignalled events)
      · exact stopped_step stepped (hsrv.stopped hwaiting hopen)
  | acceptFails idle running pending =>
      refine ⟨?_, ?_, ?_, fun _ hopen => by cases hopen⟩
      · have hone : srv.listener.pending ≤ 1 := by
          rw [hpending]
          split <;> omega
        show srv.listener.pending - 1 = 0
        omega
      · exact iff_of_false Bool.false_ne_true (not_forall_mem_snoc rfl events)
      · exact hsrv.waiting.trans (forall_mem_snoc rfl events)

theorem listens_run {s : Selector} {threads : Nat} {events : List ServerEvent} {srv : Server}
    (hrun : Run (Steps step) (start s threads) events srv) : srv.Listens events := by
  induction hrun with
  | nil => exact listens_start s threads
  | snoc _ hstep ih => exact listens_step ih hstep

/-- The handlers of `async_accept` run on an open acceptor. -/
theorem isOpen_of_ofAcceptor {srv srv' : Server} {events : List ServerEvent} {event : ServerEvent}
    (hsrv : srv.Listens events) (h : srv.step event = some srv') (hevent : event.ofAcceptor = true) :
    srv.listener.isOpen = true := by
  cases acts_of_step h with
  | accepts isOpen => exact isOpen
  | interrupts => cases hevent
  | throws => cases hevent
  | runs other => rw [other] at hevent; cases hevent
  | acceptFails idle running pending =>
      by_contra hclosed
      have hnone := hsrv.pending
      rw [if_neg hclosed] at hnone
      omega

/-- In every run, one accept is pending until one has failed. An idle thread can then accept a
    client whatever became of the handlers of other clients, and after the failure no accept
    completes any more. -/
theorem listening_run {s : Selector} {threads : Nat} {events : List ServerEvent} {srv : Server}
    (hrun : Run (Steps step) (start s threads) events srv) :
    srv.listener.pending = (if srv.listener.isOpen then 1 else 0) ∧
      (srv.listener.isOpen = true ↔ ∀ e ∈ events, e.failed = false) ∧
      (∀ w endpoint, srv.app.workers[w]? = some .idle → srv.app.stopped = false →
        ((srv.step (.app (.accepts w endpoint))).isSome = true ↔ srv.listener.isOpen = true)) ∧
      events.Pairwise fun e f => e.failed = true → f.ofAcceptor = false := by
  have hlistens := listens_run hrun
  refine ⟨hlistens.pending, hlistens.isOpen, fun w endpoint idle running => ?_, ?_⟩
  · have hpending := hlistens.pending
    cases hopen : srv.listener.isOpen with
    | false => simp [step, hopen]
    | true =>
        rw [hopen] at hpending
        have hacts : srv.app.Acts (.accepts w endpoint) _ := .accepts idle running
        have hstep := Application.step_of_acts hacts
        simp [step, hopen, hpending, hstep]
  · clear hlistens
    induction hrun with
    | nil => exact .nil
    | @snoc u v es e run hstep ih =>
        refine List.pairwise_append.mpr ⟨ih, List.pairwise_singleton _ _, ?_⟩
        intro x hx y hy hfailed
        obtain rfl := List.mem_singleton.mp hy
        have hlistens := listens_run run
        by_contra hevent
        have hopen := isOpen_of_ofAcceptor hlistens hstep (Bool.of_not_eq_false hevent)
        rw [hlistens.isOpen.mp hopen x hx] at hfailed
        cases hfailed

/-! ## Runs in which no accept fails -/

/-- On an open acceptor the server makes the steps of its application. -/
theorem step_app {srv : Server} {events : List ServerEvent} (hsrv : srv.Listens events)
    (hopen : srv.listener.isOpen = true) {e : AppEvent} {app : Application}
    (h : srv.app.step e = some app) : ∃ srv', srv.step (.app e) = some srv' ∧ srv'.app = app := by
  have hpending := hsrv.pending
  rw [if_pos hopen] at hpending
  cases e with
  | accepts w endpoint =>
      exact ⟨{ srv with app := app, listener := srv.listener.complete.doAccept },
        by simp [step, hopen, hpending, h], rfl⟩
  | interrupts w =>
      have hwaiting : srv.waiting = true := by
        by_contra hnot
        have hstopped := hsrv.stopped (Bool.eq_false_iff.mpr hnot) hopen
        cases Application.acts_of_step h with
        | interrupts idle running =>
            rw [hstopped] at running
            cases running
      exact ⟨{ srv with app := app, waiting := false },
        by simp [step, Listener.stop, hopen, hwaiting, h], rfl⟩
  | _ => exact ⟨{ srv with app := app }, by simp [step, h], rfl⟩

theorem app_step {srv srv' : Server} {e : AppEvent} (h : srv.step (.app e) = some srv')
    (hopen : srv.listener.isOpen = true) : srv.app.step e = some srv'.app := by
  cases acts_of_step h with
  | accepts _ _ stepped => exact stepped
  | interrupts _ _ stepped => exact stepped
  | throws _ closed => rw [hopen] at closed; cases closed
  | runs _ _ stepped => exact stepped

theorem isOpen_of_map {srv : Server} {events : List AppEvent}
    (hsrv : srv.Listens (events.map .app)) : srv.listener.isOpen = true := by
  refine hsrv.isOpen.mpr fun e he => ?_
  obtain ⟨x, -, rfl⟩ := List.mem_map.mp he
  rfl

/-- The runs in which no accept fails are the runs of the application, event by event. -/
theorem run_app_iff {s : Selector} {threads : Nat} {events : List AppEvent} {app : Application} :
    Run (Steps Application.step) (.start s threads) events app ↔
      ∃ srv, Run (Steps step) (start s threads) (events.map .app) srv ∧ srv.app = app := by
  constructor
  · intro hrun
    induction hrun with
    | nil => exact ⟨_, .nil _, rfl⟩
    | snoc _ hstep ih =>
        obtain ⟨srv, hsrv, rfl⟩ := ih
        have hlistens := listens_run hsrv
        obtain ⟨srv', hstep', happ⟩ := step_app hlistens (isOpen_of_map hlistens) hstep
        rw [List.map_append]
        exact ⟨srv', hsrv.snoc hstep', happ⟩
  · intro h
    obtain ⟨srv, hrun, rfl⟩ := h
    generalize hall : events.map ServerEvent.app = all at hrun
    induction hrun generalizing events with
    | nil =>
        obtain rfl := List.map_eq_nil_iff.mp hall
        exact .nil _
    | @snoc u v es e hrun hstep ih =>
        obtain ⟨before, last, rfl, rfl, hlast⟩ := List.map_eq_append_iff.mp hall
        obtain ⟨x, rest, rfl, rfl, hrest⟩ := List.map_eq_cons_iff.mp hlast
        obtain rfl := List.map_eq_nil_iff.mp hrest
        have hlistens := listens_run hrun
        exact (ih rfl).snoc (app_step hstep (isOpen_of_map hlistens))

/-! ## The exit code -/

/-- The client whose handler throws where it asks for the endpoint of the client's socket. -/
def deserts (srv : Server) : ServerEvent → Option Nat
  | .app e => srv.app.deserts e
  | .acceptFails _ => none

/-- The exceptions that leave a handler where no client fails. -/
def Thrown (srv : Server) (deserted : List Nat) (e : Exception) : Prop :=
  (e = .notConnected ∧ deserted ≠ []) ∨
    (e = badDescriptor ∧ srv.listener.isOpen = false ∧ srv.waiting = false)

theorem exits_app {srv srv' : Server} {deserted : List Nat} {e : AppEvent} {app : Application}
    (hexits : srv.app.Exits (srv.Thrown deserted)) (stepped : srv.app.step e = some app)
    (hsame : srv'.listener.isOpen = false ∧ srv'.waiting = false ↔
      srv.listener.isOpen = false ∧ srv.waiting = false) :
    app.Exits (srv'.Thrown (deserted ++ (srv.app.deserts e).toList)) := by
  refine (Application.exits_step hexits stepped).congr fun ex => ?_
  unfold Thrown
  rw [hsame]
  cases srv.app.deserts e with
  | none => simp
  | some c =>
      have hmore : deserted ++ [c] ≠ [] := by simp
      simp only [Option.isSome_some, and_true, Option.toList_some, hmore, ne_eq, not_false_eq_true]
      constructor
      · intro h
        rcases h with (⟨hex, -⟩ | hbad) | hex
        · exact Or.inl hex
        · exact Or.inr hbad
        · exact Or.inl hex
      · intro h
        rcases h with hex | hbad
        · exact Or.inr hex
        · exact Or.inl (Or.inr hbad)

theorem exits_step {srv srv' : Server} {events : List ServerEvent} {event : ServerEvent}
    {deserted : List Nat} (hsrv : srv.Listens events)
    (hexits : srv.app.Exits (srv.Thrown deserted)) (h : srv.step event = some srv') :
    srv'.app.Exits (srv'.Thrown (deserted ++ (srv.deserts event).toList)) := by
  cases acts_of_step h with
  | accepts isOpen pending stepped => exact exits_app hexits stepped Iff.rfl
  | interrupts waiting isOpen stepped =>
      refine exits_app hexits stepped (iff_of_false (fun h => ?_) (fun h => ?_))
      · have hclosed : srv.listener.isOpen = false := h.1
        rw [isOpen] at hclosed
        cases hclosed
      · rw [isOpen] at h
        cases h.1
  | runs other unsignalled stepped => exact exits_app hexits stepped Iff.rfl
  | @throws w waiting closed idle running =>
      have hnone : (srv.deserts (.app (.interrupts w))).toList = [] := rfl
      rw [hnone, List.append_nil]
      refine (Application.exits_unwinding hexits idle (by simp [Worker.Threw]) badDescriptor).congr ?_
      intro e
      simp [Thrown, waiting, closed]
  | @acceptFails w idle running pending =>
      have hnone : (srv.deserts (.acceptFails w)).toList = [] := rfl
      rw [hnone, List.append_nil]
      have hopen := isOpen_of_ofAcceptor hsrv h rfl
      have hwaiting : srv.waiting = true := by
        by_contra hnot
        rw [hsrv.stopped (Bool.eq_false_iff.mpr hnot) hopen] at running
        cases running
      refine hexits.congr fun e => ?_
      simp [Thrown, hwaiting]

theorem exits_run {s : Selector} {threads : Nat} {events : List ServerEvent} {srv : Server}
    (hrun : Run (Steps step) (start s threads) events srv) :
    srv.app.Exits (srv.Thrown (observations step deserts (start s threads) events)) := by
  induction hrun with
  | nil =>
      refine (Application.exits_start s threads).congr fun e => ?_
      simp [Thrown, observations, start]
  | snoc run hstep ih =>
      rw [observations_snoc run]
      exact exits_step (listens_run run) ih hstep

/-! ## The way to an end -/

theorem accounted_server {s : Selector} {threads : Nat} {events : List ServerEvent} {srv : Server}
    (hrun : Run (Steps step) (start s threads) events srv) :
    ∃ deserted, srv.app.Accounted deserted := by
  refine hrun.invariant (I := fun srv => ∃ deserted, srv.app.Accounted deserted) ?_
    ⟨[], Application.accounted_start s threads⟩
  intro srv event srv' h hstep
  obtain ⟨deserted, h⟩ := h
  cases acts_of_step hstep with
  | accepts _ _ stepped => exact ⟨_, Application.accounted_step h stepped⟩
  | interrupts _ _ stepped => exact ⟨_, Application.accounted_step h stepped⟩
  | runs _ _ stepped => exact ⟨_, Application.accounted_step h stepped⟩
  | throws _ _ idle =>
      exact ⟨deserted, Application.accounted_workers h idle (by simp) (by simp) rfl rfl⟩
  | acceptFails => exact ⟨deserted, h⟩

/-- A thread that has called `Terminate` has stopped the io_context. -/
def TerminatedStops (app : Application) : Prop :=
  ∀ e, .terminated e ∈ app.workers → app.stopped = true

theorem terminatedStops_set {app app' : Application} (happ : TerminatedStops app) {w : Nat}
    {new : Worker} (hstopped : app'.stopped = app.stopped)
    (hworkers : app'.workers = app.workers.set w new) (hnew : ∀ e, new ≠ .terminated e) :
    TerminatedStops app' := by
  intro e h
  rw [hworkers] at h
  rw [hstopped]
  rcases List.mem_or_eq_of_mem_set h with hmem | heq
  · exact happ e hmem
  · exact absurd heq.symm (hnew e)

theorem terminatedStops_step {app app' : Application} {event : AppEvent}
    (happ : TerminatedStops app) (h : app.step event = some app') : TerminatedStops app' := by
  cases Application.acts_of_step h with
  | accepts => exact terminatedStops_set happ rfl rfl (by simp)
  | starts => exact terminatedStops_set happ rfl rfl (Phase.worker_ne_terminated _ _)
  | resumes => exact terminatedStops_set happ rfl rfl (Phase.worker_ne_terminated _ _)
  | disconnected => exact terminatedStops_set happ rfl rfl (by simp)
  | terminates => exact fun _ _ => rfl
  | interrupts => exact fun _ _ => rfl
  | exits => exact terminatedStops_set happ rfl rfl (by simp)

theorem terminatedStops_run {s : Selector} {threads : Nat} {events : List ServerEvent}
    {srv : Server} (hrun : Run (Steps step) (start s threads) events srv) :
    TerminatedStops srv.app := by
  refine hrun.invariant (I := fun srv => TerminatedStops srv.app) ?_ ?_
  · intro srv event srv' h hstep
    cases acts_of_step hstep with
    | accepts _ _ stepped => exact terminatedStops_step h stepped
    | interrupts _ _ stepped => exact terminatedStops_step h stepped
    | runs _ _ stepped => exact terminatedStops_step h stepped
    | throws => exact terminatedStops_set h rfl rfl (by simp)
    | acceptFails => exact h
  · intro e hmem
    cases List.eq_of_mem_replicate hmem

/-- What a stopped application does, its server does. -/
theorem run_of_last {srv : Server} {rest : List AppEvent} {app : Application}
    (hlast : ∀ e ∈ rest, e.isLast = true) (hrun : Run (Steps Application.step) srv.app rest app) :
    Run (Steps step) srv (rest.map .app) { srv with app := app } := by
  induction hrun with
  | nil => exact .nil _
  | @snoc u v es e hrun hstep ih =>
      have hevent := hlast e (List.mem_append_right _ List.mem_cons_self)
      have hnext : step { srv with app := u } (.app e) = some { srv with app := v } := by
        have hstep : u.step e = some v := hstep
        cases e with
        | accepts w endpoint => cases hevent
        | interrupts w => cases hevent
        | _ => simp [step, hstep]
      rw [List.map_append]
      exact (ih fun x hx => hlast x (List.mem_append_left _ hx)).snoc hnext

theorem ended_of_stopped {s : Selector} {threads : Nat} {events : List ServerEvent} {srv : Server}
    (hrun : Run (Steps step) (start s threads) events srv) (hstopped : srv.app.stopped = true) :
    ∃ rest last, Run (Steps step) srv rest last ∧ last.app.Ended := by
  have happ : srv.app.Stopped := ⟨hstopped, accounted_server hrun⟩
  obtain ⟨rest, app, hrest, hended⟩ := Application.ended_of_stopped happ
  obtain ⟨-, hlast, -, -⟩ := Application.stopped_run happ hrest
  exact ⟨_, _, run_of_last hlast hrest, hended⟩

/-- A worker that has an exception to report stops the io_context. -/
theorem ended_of_unwinding {s : Selector} {threads : Nat} {events : List ServerEvent}
    {srv : Server} (hrun : Run (Steps step) (start s threads) events srv) {w : Nat} {e : Exception}
    (unwinding : srv.app.workers[w]? = some (.unwinding e)) :
    ∃ rest last, Run (Steps step) srv rest last ∧ last.app.Ended := by
  have hstep : srv.step (.app (.terminates w)) = some
      { srv with app := .terminate (.setExitCode
        { srv.app with workers := srv.app.workers.set w (.terminated e) } exitFailure) } := by
    simp [step, Application.step, unwinding]
  obtain ⟨rest, last, hrest, hended⟩ := ended_of_stopped (hrun.snoc hstep) rfl
  exact ⟨_, last, .cons hstep hrest, hended⟩

/-- An idle worker takes the signal, whether its handler then throws or not. -/
theorem ended_of_idle {s : Selector} {threads : Nat} {events : List ServerEvent} {srv : Server}
    (hrun : Run (Steps step) (start s threads) events srv) {w : Nat}
    (idle : srv.app.workers[w]? = some .idle) :
    ∃ rest last, Run (Steps step) srv rest last ∧ last.app.Ended := by
  have hlistens := listens_run hrun
  cases hstopped : srv.app.stopped with
  | true => exact ended_of_stopped hrun hstopped
  | false =>
      cases hwaiting : srv.waiting with
      | true =>
          cases hopen : srv.listener.isOpen with
          | true =>
              obtain ⟨srv', hstep, happ⟩ := step_app hlistens hopen
                (Application.step_of_acts (.interrupts idle hstopped))
              obtain ⟨rest, last, hrest, hended⟩ := ended_of_stopped (hrun.snoc hstep) (by rw [happ])
              exact ⟨_, last, .cons hstep hrest, hended⟩
          | false =>
              have hstep : srv.step (.app (.interrupts w)) = some
                  { srv with
                    app := { srv.app with
                      workers := srv.app.workers.set w (.unwinding badDescriptor) }
                    waiting := false } := by
                simp [step, Listener.stop, hopen, hwaiting, idle, hstopped]
              obtain ⟨hlt, -⟩ := List.getElem?_eq_some_iff.mp idle
              obtain ⟨rest, last, hrest, hended⟩ :=
                ended_of_unwinding (hrun.snoc hstep) (List.getElem?_set_self hlt)
              exact ⟨_, last, .cons hstep hrest, hended⟩
      | false =>
          -- the signal was taken on a closed acceptor, and its exception is still to be reported
          have hclosed : srv.listener.isOpen = false := by
            by_contra hopen
            rw [hlistens.stopped hwaiting (Bool.of_not_eq_false hopen)] at hstopped
            cases hstopped
          obtain ⟨x, hx, hthrew⟩ := ((exits_run hrun).threw badDescriptor).mpr
            (Or.inr (Or.inr ⟨rfl, hclosed, hwaiting⟩))
          rcases hthrew with rfl | rfl
          · obtain ⟨v, hv⟩ := List.mem_iff_getElem?.mp hx
            exact ended_of_unwinding hrun hv
          · rw [terminatedStops_run hrun _ hx] at hstopped
            cases hstopped

/-- In every reachable state, whatever has failed before, the server can be brought to its end: a
    signal is all it takes once a thread is free, and a thread that is in a handler can finish
    it. -/
theorem endable {s : Selector} {threads : Nat} {events : List ServerEvent} {srv : Server}
    (hrun : Run (Steps step) (start s threads) events srv) :
    ∃ rest last, Run (Steps step) srv rest last ∧ last.app.Ended := by
  generalize hn : srv.app.left = n
  induction n using Nat.strong_induction_on generalizing srv events with
  | _ n ih =>
      by_cases hended : srv.app.Ended
      · exact ⟨[], srv, .nil srv, hended⟩
      obtain ⟨worker, hmem, hleft⟩ : ∃ w ∈ srv.app.workers, ¬ w.Ended := by
        simpa [Application.Ended] using hended
      obtain ⟨w, hw⟩ := List.mem_iff_getElem?.mp hmem
      cases worker with
      | idle => exact ended_of_idle hrun hw
      | unwinding e => exact ended_of_unwinding hrun hw
      | handling c =>
          -- its handler goes on, and the worker comes nearer to its end
          obtain ⟨deserted, haccounted⟩ := accounted_server hrun
          obtain ⟨hlt, -⟩ := haccounted.handled w c hw
          have hfound := List.getElem?_eq_getElem hlt
          have hcontinues := (haccounted.between c _ hfound).mpr (Or.inl ⟨w, hw⟩)
          obtain ⟨e, he⟩ := Option.isSome_iff_exists.mp hcontinues
          obtain ⟨⟨sel, client'⟩, hclient⟩ := Client.step_of_continuation srv.app.system.selector he
          have happ := Application.step_of_acts (.resumes hw hfound he hclient)
          have hstep : srv.step (.app (.resumes w)) = some
              { srv with app := srv.app.performed w c sel client' } := by
            simp [step, happ]
          have hsum : ((srv.app.workers.set w (client'.phase.worker c)).map Worker.left).sum + 2 =
              srv.app.left + (client'.phase.worker c).left := List.sum_map_set Worker.left hw
          have hlater := Phase.left_worker (Client.continuation_of_continued he hclient) c
          have hfalls : (srv.app.performed w c sel client').left < n := by
            rw [← hn]
            show ((srv.app.workers.set w (client'.phase.worker c)).map Worker.left).sum < _
            omega
          obtain ⟨rest, last, hrest, hlast⟩ := ih _ hfalls (hrun.snoc hstep) rfl
          exact ⟨_, last, .cons hstep hrest, hlast⟩
      | terminated e => exact absurd rfl hleft
      | exited => exact absurd rfl hleft
      | undefined => exact absurd rfl hleft

/-! ## The system of a server -/

/-- The step that the event makes in the system. -/
def systemEvent (srv : Server) : ServerEvent → Option Event
  | .app e => srv.app.systemEvent e
  | .acceptFails _ => none

/-- A step of a server makes one step of its system or none. -/
theorem system_step {srv srv' : Server} {event : ServerEvent} (h : srv.step event = some srv') :
    Run (Steps System.step) srv.app.system (srv.systemEvent event).toList srv'.app.system := by
  cases acts_of_step h with
  | accepts _ _ stepped => exact Application.system_step stepped
  | interrupts _ _ stepped => exact Application.system_step stepped
  | throws => exact .nil _
  | runs _ _ stepped => exact Application.system_step stepped
  | acceptFails => exact .nil _

theorem run_system {srv srv' : Server} {events : List ServerEvent}
    (hrun : Run (Steps step) srv events srv') :
    Run (Steps System.step) srv.app.system (observations step systemEvent srv events)
      srv'.app.system :=
  run_observed (f := fun srv => srv.app.system) (I := fun _ => True) (fun _ _ _ _ _ => trivial)
    (fun _ _ _ _ hstep => system_step hstep) trivial hrun

variable [LawfulPairingHeap]

theorem drained_run {s : Selector} {threads : Nat} {events : List ServerEvent} {srv : Server}
    (hs : s.Inv) (hrun : Run (Steps step) (start s threads) events srv) :
    srv.app.system.Drained := by
  exact System.drained_run hs (run_system hrun)

/-- A step keeps the selector in order, and empty exactly where its exception has left a
    handler. -/
theorem inv_step {srv srv' : Server} {event : ServerEvent} (hsrv : srv.app.Inv)
    (h : srv.step event = some srv') : srv'.app.Inv := by
  cases acts_of_step h with
  | accepts _ _ stepped => exact Application.inv_step hsrv stepped
  | interrupts _ _ stepped => exact Application.inv_step hsrv stepped
  | runs _ _ stepped => exact Application.inv_step hsrv stepped
  | @throws w waiting closed idle running =>
      refine ⟨hsrv.system, hsrv.held.trans (not_congr ?_)⟩
      refine (List.exists_mem_set_congr idle ?_).symm
      simp [Worker.Exhausted, badDescriptor, allBackendsExcluded]
  | acceptFails => exact hsrv

/-- Where all threads have ended, the exit code is `EXIT_FAILURE` if no backend is left, or a
    handler could not ask for its client's endpoint, or a signal came after an accept had
    failed, and `EXIT_SUCCESS` otherwise. A thread whose handler ran into undefined behaviour
    counts as ended. -/
theorem exitCode_iff [LawfulSort] {type : SelectorType} {replicas : Nat} {config : Node}
    {s : Selector} {missed : String} {bs : List Backend} {threads : Nat}
    {events : List ServerEvent} {srv : Server}
    (h : Selector.configure type replicas config = .ok s)
    (hbs : configuredBackends missed config = .ok bs) (hne : bs ≠ [])
    (hrun : Run (Steps step) (start s threads) events srv) (hended : srv.app.Ended) :
    (srv.app.exitCode = exitFailure ↔ (∀ b, ¬ srv.app.system.selector.Holds b) ∨
      observations step deserts (start s threads) events ≠ [] ∨
      ((∃ e ∈ events, e.failed = true) ∧ ∃ e ∈ events, e.ofSignal = true)) ∧
    (srv.app.exitCode ≠ exitFailure → srv.app.exitCode = exitSuccess) := by
  obtain ⟨-, hs, bs', hbs', hholds, -⟩ := Selector.configure_spec h
  obtain rfl : bs = bs' := Except.ok.inj (hbs.symm.trans (hbs' missed))
  obtain ⟨b, hb⟩ := List.exists_mem_of_ne_nil bs hne
  have hinv : srv.app.Inv := hrun.invariant (I := fun srv => srv.app.Inv)
    (fun _ _ _ h hstep => inv_step h hstep)
    (Application.inv_start hs ⟨b, (hholds b).mpr hb⟩ threads)
  have hlistens := listens_run hrun
  have hclosed : srv.listener.isOpen = false ↔ ∃ e ∈ events, e.failed = true := by
    have hopen := not_congr hlistens.isOpen
    simpa using hopen
  have hsignalled : srv.waiting = false ↔ ∃ e ∈ events, e.ofSignal = true := by
    have hwaiting := not_congr hlistens.waiting
    simpa using hwaiting
  rw [← hclosed, ← hsignalled]
  have hexits := exits_run hrun
  obtain ⟨hcode, hsuccess⟩ := hexits.exitCode hended
  refine ⟨hcode.trans ⟨fun h => ?_, fun hor => ?_⟩, hsuccess⟩
  · obtain ⟨w, hw, e, hthrew⟩ := h
    rcases (hexits.threw e).mp ⟨w, hw, hthrew⟩ with ⟨client, hmem, hfailed⟩ | ⟨-, hlost⟩ | ⟨-, hbad⟩
    · exact Or.inl (drained_run hs hrun client hmem e hfailed)
    · exact Or.inr (Or.inl hlost)
    · exact Or.inr (Or.inr hbad)
  · rcases hor with hempty | hlost | hbad
    · have hexhausted : srv.app.Exhausted := by
        by_contra hnot
        obtain ⟨b, hb⟩ := hinv.held.mpr hnot
        exact hempty b hb
      obtain ⟨w, hw, hthrew⟩ := hexhausted
      exact ⟨w, hw, _, hthrew⟩
    · obtain ⟨w, hw, hthrew⟩ := (hexits.threw .notConnected).mpr (Or.inr (Or.inl ⟨rfl, hlost⟩))
      exact ⟨w, hw, _, hthrew⟩
    · obtain ⟨w, hw, hthrew⟩ := (hexits.threw badDescriptor).mpr (Or.inr (Or.inr ⟨rfl, hbad⟩))
      exact ⟨w, hw, _, hthrew⟩

end Server

end

namespace Server

section

open Reference Selector Application

/-- An accept fails while another thread has a client. -/
def acceptFailed : List ServerEvent := [.app (.accepts 0 somebody), .acceptFails 1]

def afterAcceptFailed : Server :=
  (acceptFailed.foldlM step (start oneRobin 2)).getD (start oneRobin 2)

theorem endable_acceptFailed :
    afterAcceptFailed.app.workers[0]? = some (.handling 0) ∧
      ∃ rest last, Run (Steps step) afterAcceptFailed rest last ∧ last.app.Ended := by
  have hrun : Run (Steps step) (start oneRobin 2) acceptFailed afterAcceptFailed :=
    .of_foldlM (by rfl)
  exact ⟨by rfl, endable hrun⟩

/-- A signal comes after it. -/
def failedAccept : List ServerEvent :=
  acceptFailed ++ [.app (.resumes 0), .app (.interrupts 1), .app (.terminates 1), .app (.exits 0)]

def afterFailedAccept : Server :=
  (failedAccept.foldlM step (start oneRobin 2)).getD (start oneRobin 2)

theorem run_failedAccept : Run (Steps step) (start oneRobin 2) failedAccept afterFailedAccept :=
  .of_foldlM (by rfl)

theorem listening_run_failedAccept :
    afterFailedAccept.listener.pending = 0 ∧
      failedAccept.Pairwise fun e f => e.failed = true → f.ofAcceptor = false := by
  obtain ⟨hpending, -, -, hpairwise⟩ := listening_run run_failedAccept
  exact ⟨hpending, hpairwise⟩

theorem exitCode_failedAccept :
    afterFailedAccept.app.system.selector.Holds port80 ∧
      (afterFailedAccept.app.exitCode = exitFailure ↔
        (∀ b, ¬ afterFailedAccept.app.system.selector.Holds b) ∨
          observations step deserts (start oneRobin 2) failedAccept ≠ [] ∨
          ((∃ e ∈ failedAccept, e.failed = true) ∧ ∃ e ∈ failedAccept, e.ofSignal = true)) := by
  have h : configure .roundRobin 1 oneEntry = .ok oneRobin := by rfl
  have hbs : configuredBackends "" oneEntry = .ok [port80] := by rfl
  have hended : afterFailedAccept.app.Ended := by
    intro w hw
    have hworkers : afterFailedAccept.app.workers = [.exited, .terminated badDescriptor] := by rfl
    rw [hworkers] at hw
    rcases List.mem_cons.mp hw with rfl | hw
    · rfl
    · rw [List.mem_singleton.mp hw]
      rfl
  exact ⟨List.mem_cons_self,
    (exitCode_iff h hbs (List.cons_ne_nil _ _) run_failedAccept hended).1⟩

end

end Server

end LoadBalancer
