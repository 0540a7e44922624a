/-
  What an `HttpSession` with a visitor tells it, from `Run` to the destructor.

  A session ends in one of two ways. A handler that sees an error calls `Cancel` and releases
  the session; or the pending handler is destroyed uncalled, with the `io_context`, and the
  session goes with it. The destructor calls `Cancel` in both, so the visitor hears of the end
  twice in the first.

  Proved:
  * `reached_of_run`: the notifications after any run, by the number of operations that
    succeeded and the way the session ended.
  * `wellBracketed_iff`: a session is announced and dismissed once each exactly if no operation
    of it ended with an error.
-/
import LoadBalancer.Lib.Transition
import LoadBalancer.Session.HttpSession

namespace LoadBalancer

open Transition

/-- What happens to a session after `Run`. -/
inductive SessionEvent where
  /-- the handler of the operation in flight -/
  | completes (ec : ErrorCode)
  /-- the last reference to the session is released -/
  | released

/-- A session and the notifications it has sent. -/
structure NotifiedSession where
  state : SessionState
  sent : List Notification

namespace NotifiedSession

/-- A call of the session: the notification it sends and the state it leaves. -/
def after (sent : List Notification) (call : Notification × SessionState) : NotifiedSession :=
  { state := call.2, sent := sent ++ [call.1] }

def started : NotifiedSession := after [] HttpSession.run

def step (s : NotifiedSession) : SessionEvent → Option NotifiedSession
  | .completes ec =>
    match s.state with
    | .running operation => some (after s.sent (HttpSession.handle operation ec))
    | _ => none
  | .released =>
    match s.state with
    | .destroyed => none
    | _ => some (after s.sent HttpSession.destroy)

end NotifiedSession

/-! ## The language of the notifications -/

namespace Notification

/-- The infinite repetition of the notifications of one request. -/
def cycleAt (i : Nat) : Notification :=
  match i % 4 with
  | 0 => .onRequestReceive
  | 1 => .onRequestSent
  | 2 => .onResponseReceive
  | _ => .onResponseSent

/-- Its first `n` notifications. -/
def cycle (n : Nat) : List Notification := (List.range n).map cycleAt

/-- `OnConnect`, `n` notifications of the cycle and `k` times `OnDisconnect`. -/
def bracketed (n k : Nat) : List Notification :=
  .onConnect :: (cycle n ++ List.replicate k .onDisconnect)

/-- A response is announced right after the request that it answers was sent. -/
def Timed (sent : List Notification) : Prop :=
  ∀ i, sent[i]? = some .onResponseReceive → 0 < i ∧ sent[i - 1]? = some .onRequestSent

structure WellBracketed (sent : List Notification) : Prop where
  shape : ∃ n, sent = .onConnect :: cycle n ++ [.onDisconnect]
  timed : Timed sent
  matched : sent.count .onConnect = sent.count .onDisconnect

theorem cycle_succ (n : Nat) : cycle (n + 1) = cycle n ++ [cycleAt n] := by
  unfold cycle
  rw [List.range_succ, List.map_append]
  rfl

theorem getElem?_bracketed (n k i : Nat) : (bracketed n k)[i + 1]? =
    if i < n then some (cycleAt i) else (List.replicate k .onDisconnect)[i - n]? := by
  have hlength : (cycle n).length = n := by simp [cycle]
  unfold bracketed
  rw [List.getElem?_cons_succ, List.getElem?_append, hlength]
  split
  · next h => simp [cycle, h]
  · rfl

theorem bracketed_snoc (n k : Nat) :
    bracketed n k ++ [.onDisconnect] = bracketed n (k + 1) := by
  simp [bracketed, List.replicate_succ']

theorem cycleAt_ne (i : Nat) : cycleAt i ≠ .onConnect ∧ cycleAt i ≠ .onDisconnect := by
  unfold cycleAt
  split <;> decide

theorem count_onDisconnect_bracketed (n k : Nat) : (bracketed n k).count .onDisconnect = k := by
  have hcycle : (cycle n).count .onDisconnect = 0 := by
    rw [List.count_eq_zero]
    intro hmem
    obtain ⟨i, -, hi⟩ := List.mem_map.mp hmem
    exact (cycleAt_ne i).2 hi
  simp [bracketed, hcycle]

theorem count_onConnect_bracketed (n k : Nat) : (bracketed n k).count .onConnect = 1 := by
  have hcycle : (cycle n).count .onConnect = 0 := by
    rw [List.count_eq_zero]
    intro hmem
    obtain ⟨i, -, hi⟩ := List.mem_map.mp hmem
    exact (cycleAt_ne i).1 hi
  simp [bracketed, hcycle, List.count_replicate]

theorem cycleAt_eq_onResponseReceive {i : Nat} (h : cycleAt i = .onResponseReceive) :
    0 < i ∧ cycleAt (i - 1) = .onRequestSent := by
  have hmod : i % 4 = 2 := by
    unfold cycleAt at h
    split at h <;> first | assumption | cases h
  have hbefore : (i - 1) % 4 = 1 := by omega
  refine ⟨by omega, ?_⟩
  unfold cycleAt
  rw [hbefore]
  rfl

/-- However often the end is told, each response is announced in its turn. -/
theorem timed_bracketed (n k : Nat) : Timed (bracketed n k) := by
  intro i hi
  have hpos : 0 < i := by
    by_contra hzero
    obtain rfl : i = 0 := by omega
    cases hi
  obtain ⟨j, rfl⟩ : ∃ j, i = j + 1 := ⟨i - 1, by omega⟩
  have hj : j < n := by
    by_contra hge
    rw [getElem?_bracketed, if_neg hge] at hi
    cases List.eq_of_mem_replicate (List.mem_of_getElem? hi)
  rw [getElem?_bracketed, if_pos hj] at hi
  obtain ⟨hpos', hbefore⟩ := cycleAt_eq_onResponseReceive (Option.some.inj hi)
  refine ⟨hpos, ?_⟩
  obtain ⟨m, rfl⟩ : ∃ m, j = m + 1 := ⟨j - 1, by omega⟩
  rw [Nat.add_sub_cancel, getElem?_bracketed, if_pos (by omega)]
  exact congrArg some hbefore

theorem wellBracketed_bracketed {n k : Nat} : WellBracketed (bracketed n k) ↔ k = 1 := by
  constructor
  · intro h
    have hmatched := h.matched
    rw [count_onConnect_bracketed, count_onDisconnect_bracketed] at hmatched
    omega
  · intro h
    subst h
    refine ⟨⟨n, rfl⟩, timed_bracketed n 1, ?_⟩
    rw [count_onConnect_bracketed, count_onDisconnect_bracketed]

/-- The handlers follow the cycle. -/
theorem notification_next {operation : Operation} {n : Nat}
    (h : operation.notification = cycleAt n) : operation.next.notification = cycleAt (n + 1) := by
  have hturn : n % 4 = 0 ∧ (n + 1) % 4 = 1 ∨ n % 4 = 1 ∧ (n + 1) % 4 = 2 ∨
      n % 4 = 2 ∧ (n + 1) % 4 = 3 ∨ n % 4 = 3 ∧ (n + 1) % 4 = 0 := by omega
  unfold cycleAt at h ⊢
  rcases hturn with ⟨hn, hnext⟩ | ⟨hn, hnext⟩ | ⟨hn, hnext⟩ | ⟨hn, hnext⟩
  all_goals
    rw [hn] at h
    rw [hnext]
    cases operation <;> first | rfl | cases h

end Notification

/-! ## Runs -/

namespace NotifiedSession

open Notification

/-- An operation ended with an error. -/
def Failed (events : List SessionEvent) : Prop :=
  ∃ ec, .completes ec ∈ events ∧ ec.isError = true

/-- A session after the events; `n` counts the operations that succeeded. -/
inductive Reached (events : List SessionEvent) : NotifiedSession → Prop where
  | running {operation : Operation} {n : Nat} (turn : operation.notification = cycleAt n)
      (succeeded : ¬ Failed events) : Reached events ⟨.running operation, bracketed n 0⟩
  | cancelled {n : Nat} (failed : Failed events) : Reached events ⟨.cancelled, bracketed n 1⟩
  | dropped {n : Nat} (succeeded : ¬ Failed events) :
      Reached events ⟨.destroyed, bracketed n 1⟩
  | destroyed {n : Nat} (failed : Failed events) : Reached events ⟨.destroyed, bracketed n 2⟩

theorem failed_snoc_released {events : List SessionEvent} :
    Failed (events ++ [.released]) ↔ Failed events := by
  simp [Failed]

theorem failed_snoc_completes {events : List SessionEvent} {ec : ErrorCode} :
    Failed (events ++ [.completes ec]) ↔ Failed events ∨ ec.isError = true := by
  simp [Failed, or_and_right, exists_or]

theorem after_onDisconnect (n k : Nat) (state : SessionState) :
    after (bracketed n k) (.onDisconnect, state) = ⟨state, bracketed n (k + 1)⟩ := by
  unfold after
  rw [bracketed_snoc]

theorem after_cycleAt (n : Nat) (state : SessionState) :
    after (bracketed n 0) (cycleAt n, state) = ⟨state, bracketed (n + 1) 0⟩ := by
  unfold after bracketed
  rw [cycle_succ]
  simp

theorem reached_completes {events : List SessionEvent} {operation : Operation} {n : Nat}
    (turn : operation.notification = cycleAt n) (succeeded : ¬ Failed events) (ec : ErrorCode) :
    Reached (events ++ [.completes ec])
      (after (bracketed n 0) (HttpSession.handle operation ec)) := by
  unfold HttpSession.handle
  split
  · next hec =>
    rw [after_onDisconnect]
    exact .cancelled (failed_snoc_completes.mpr (Or.inr hec))
  · next hec =>
    rw [turn, after_cycleAt]
    refine .running (notification_next turn) ?_
    rw [failed_snoc_completes]
    exact not_or_intro succeeded hec

theorem reached_step {events : List SessionEvent} {s t : NotifiedSession} {e : SessionEvent}
    (hs : Reached events s) (h : s.step e = some t) : Reached (events ++ [e]) t := by
  cases hs with
  | @running operation n turn succeeded =>
      cases e with
      | completes ec =>
          rw [← Option.some.inj h]
          exact reached_completes turn succeeded ec
      | released =>
          have ht := (Option.some.inj h).symm.trans (after_onDisconnect n 0 .destroyed)
          rw [ht]
          exact .dropped (failed_snoc_released.not.mpr succeeded)
  | @cancelled n failed =>
      cases e with
      | completes ec => cases h
      | released =>
          have ht := (Option.some.inj h).symm.trans (after_onDisconnect n 1 .destroyed)
          rw [ht]
          exact .destroyed (failed_snoc_released.mpr failed)
  | dropped succeeded => cases e <;> cases h
  | destroyed failed => cases e <;> cases h

/-- What a session has sent after any events. -/
theorem reached_of_run {events : List SessionEvent} {s : NotifiedSession}
    (hrun : Run (Steps step) started events s) : Reached events s := by
  induction hrun with
  | nil =>
      have hnone : ¬ Failed [] := by simp [Failed]
      exact @Reached.running [] .clientRead 0 rfl hnone
  | snoc _ hstep ih => exact reached_step ih hstep

/-- A session that was run and destroyed sent a bracketed sequence exactly if no operation of it
    ended with an error. -/
theorem wellBracketed_iff {events : List SessionEvent} {s : NotifiedSession}
    (hrun : Run (Steps step) started events s) (hdestroyed : s.state = .destroyed) :
    WellBracketed s.sent ↔ ∀ ec, .completes ec ∈ events → ec.isError = false := by
  have hfailed : Failed events ↔ ¬ ∀ ec, .completes ec ∈ events → ec.isError = false := by
    simp [Failed]
  cases reached_of_run hrun with
  | running => cases hdestroyed
  | cancelled => cases hdestroyed
  | dropped succeeded =>
      exact iff_of_true (wellBracketed_bracketed.mpr rfl) (not_not.mp (hfailed.not.mp succeeded))
  | destroyed failed =>
      refine iff_of_false (fun h => ?_) (hfailed.mp failed)
      exact absurd (wellBracketed_bracketed.mp h) (by decide)

/-- One request is answered, and the session goes with the `io_context`. -/
def answeredOnce : List SessionEvent :=
  [.completes .success, .completes .success, .completes .success, .completes .success, .released]

theorem wellBracketed_answeredOnce : WellBracketed (bracketed 4 1) := by
  have hrun : Run (Steps step) started answeredOnce ⟨.destroyed, bracketed 4 1⟩ :=
    Run.of_foldlM rfl
  exact (wellBracketed_iff hrun rfl).mpr (by simp [answeredOnce, ErrorCode.isError])

/-- The client closes its connection without a request, and the visitor hears of the end twice. -/
theorem not_wellBracketed_closed :
    Run (Steps step) started [.completes (.other 1), .released] ⟨.destroyed, bracketed 0 2⟩ ∧
      bracketed 0 2 = [.onConnect, .onDisconnect, .onDisconnect] ∧
      ¬ WellBracketed (bracketed 0 2) := by
  refine ⟨Run.of_foldlM rfl, rfl, fun h => ?_⟩
  exact absurd (wellBracketed_bracketed.mp h) (by decide)

end NotifiedSession

end LoadBalancer
