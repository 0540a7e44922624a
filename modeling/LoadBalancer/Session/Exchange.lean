/-
  The data path of a session against what its visitor is told.

  A run of `Relay`, read for the operations that complete, is a run of the session that
  `NotifiedSession` describes: both take their next state from `HttpSession.handle`. Each kind
  of message is announced as often as the data path has read or written one, and the four
  counts never differ by more than one (`told_run`): one exchange at a time is under way, and
  the operation in flight says how far it has come.
-/
import LoadBalancer.Session.Notifications
import LoadBalancer.Session.Relay

namespace LoadBalancer

open Transition

/-- The place of an operation in an exchange. -/
def Operation.turn : Operation → Nat
  | .clientRead => 0
  | .sendToServer => 1
  | .serverRead => 2
  | .sendToClient => 3

namespace Operation

theorem turn_lt (op : Operation) : op.turn < 4 := by
  cases op <;> decide

theorem turn_inj {op op' : Operation} : op.turn = op'.turn ↔ op = op' := by
  cases op <;> cases op' <;> decide

theorem notification_eq (op : Operation) : op.notification = Notification.cycleAt op.turn := by
  cases op <;> rfl

theorem turn_next (op : Operation) : op.next.turn = (op.turn + 1) % 4 := by
  cases op <;> rfl

end Operation

/-! ## How often a notification is sent -/

namespace Notification

theorem cycleAt_eq_notification {n : Nat} {op : Operation} :
    cycleAt n = op.notification ↔ n % 4 = op.turn := by
  have hturns : n % 4 = 0 ∨ n % 4 = 1 ∨ n % 4 = 2 ∨ n % 4 = 3 := by omega
  unfold cycleAt
  rcases hturns with h | h | h | h
  all_goals
    rw [h]
    cases op <;> decide

/-- Of `n` successful operations, those of one kind. -/
theorem count_cycle (op : Operation) (n : Nat) :
    (cycle n).count op.notification = (n + 3 - op.turn) / 4 := by
  have hturn := op.turn_lt
  induction n with
  | zero =>
      have hnone : (0 + 3 - op.turn) / 4 = 0 := by omega
      rw [hnone]
      rfl
  | succ n ih =>
      rw [cycle_succ, List.count_append, ih, List.count_singleton]
      by_cases hsame : n % 4 = op.turn
      · rw [if_pos (beq_iff_eq.mpr (cycleAt_eq_notification.mpr hsame))]
        omega
      · have hne : ¬ (cycleAt n == op.notification) = true := fun h =>
          hsame (cycleAt_eq_notification.mp (beq_iff_eq.mp h))
        rw [if_neg hne]
        omega

theorem count_bracketed (op : Operation) (n k : Nat) :
    (bracketed n k).count op.notification = (n + 3 - op.turn) / 4 := by
  have hends := cycleAt_ne op.turn
  rw [← op.notification_eq] at hends
  have hconnect : (Notification.onConnect == op.notification) = false :=
    beq_eq_false_iff_ne.mpr hends.1.symm
  have hdisconnect : (Notification.onDisconnect == op.notification) = false :=
    beq_eq_false_iff_ne.mpr hends.2.symm
  unfold bracketed
  rw [List.count_cons, List.count_append, count_cycle, List.count_replicate, hconnect, hdisconnect]
  simp

end Notification

/-! ## The two sides of a session -/

/-- What the visitor's side sees of an event. -/
def RelayEvent.session {Req Resp : Type} : RelayEvent Req Resp → Option SessionEvent
  | .completes ec => some (.completes ec)
  | _ => none

namespace Relay

variable {Req Resp : Type}

/-- The messages that operations of this kind have read or written. -/
def done (r : Relay Req Resp) : Operation → Nat
  | .clientRead => r.requests.read.length
  | .sendToServer => r.requests.written.length
  | .serverRead => r.responses.read.length
  | .sendToClient => r.responses.written.length

/-- `n` operations have succeeded, and the visitor was told of them. -/
structure Paced (r : Relay Req Resp) (n : Nat) (s : NotifiedSession) : Prop where
  state : s.state = r.state
  sent : ∃ k, s.sent = Notification.bracketed n k
  done : ∀ op, r.done op = (n + 3 - op.turn) / 4
  running : ∀ op, r.state = .running op → n % 4 = op.turn ∧ s.sent = Notification.bracketed n 0

variable [Format Req] [Format Resp]

theorem paced_initial : (initial : Relay Req Resp).Paced 0 .started where
  state := rfl
  sent := ⟨0, rfl⟩
  done op := by cases op <;> rfl
  running op h := by
    obtain rfl : Operation.clientRead = op := SessionState.running.inj h
    exact ⟨rfl, rfl⟩

/-- An operation that succeeds counts once, and no other does. -/
theorem done_perform {r t : Relay Req Resp} {op : Operation} (h : r.perform op = some t)
    (op' : Operation) : t.done op' = r.done op' + if op' = op then 1 else 0 := by
  cases op with
  | clientRead =>
      obtain ⟨d, hd, h⟩ := Option.bind_eq_some_iff.mp h
      cases h
      obtain ⟨m, rest, -, rfl⟩ := Direction.completeRead_eq_some hd
      cases op' <;> simp [done]
  | sendToServer =>
      cases h
      cases op' <;> simp [done, Direction.completeWrite]
  | serverRead =>
      obtain ⟨d, hd, h⟩ := Option.bind_eq_some_iff.mp h
      cases h
      obtain ⟨m, rest, -, rfl⟩ := Direction.completeRead_eq_some hd
      cases op' <;> simp [done]
  | sendToClient =>
      cases h
      cases op' <;> simp [done, Direction.completeWrite, Direction.clear]

omit [Format Req] [Format Resp] in
/-- What leaves the state and the histories of messages alone leaves the pace alone. -/
theorem Paced.of_done {r t : Relay Req Resp} {n : Nat} {s : NotifiedSession} (h : r.Paced n s)
    (hstate : t.state = r.state) (hdone : ∀ op, t.done op = r.done op) : t.Paced n s where
  state := h.state.trans hstate.symm
  sent := h.sent
  done op := (hdone op).trans (h.done op)
  running op hop := h.running op (hstate.symm.trans hop)

omit [Format Req] [Format Resp] in
theorem done_receive {Header : Type} [Format Header] {d t : Direction Header} {n : Nat}
    (h : d.receive n = some t) : t.read = d.read ∧ t.written = d.written := by
  obtain ⟨-, -, rfl⟩ := Direction.receive_eq_some h
  exact ⟨rfl, rfl⟩

/-- A completion ends the session or goes on to the next operation, as the handler does. -/
theorem step_completes {r t : Relay Req Resp} {ec : ErrorCode}
    (h : r.step (.completes ec) = some t) : ∃ op, r.state = .running op ∧
      ((ec.isError = true ∧ t = { r with state := .cancelled }) ∨
        (ec.isError = false ∧ ∃ u, r.perform op = some u ∧
          t = { u with state := .running op.next })) := by
  simp only [step] at h
  split at h
  · next op running =>
    refine ⟨op, running, ?_⟩
    split at h
    · next failed =>
      rw [HttpSession.handle, if_pos failed] at h
      exact Or.inl ⟨failed, (Option.some.inj h).symm⟩
    · next succeeded =>
      obtain ⟨u, hu, h⟩ := Option.bind_eq_some_iff.mp h
      rw [HttpSession.handle, if_neg succeeded] at h
      exact Or.inr ⟨Bool.eq_false_iff.mpr succeeded, u, hu, (Option.some.inj h).symm⟩
  · cases h

omit [Format Req] [Format Resp] in
theorem paced_failed {r : Relay Req Resp} {n : Nat} {s : NotifiedSession} (h : r.Paced n s)
    {op : Operation} (running : r.state = .running op) {ec : ErrorCode} (failed : ec.isError = true) :
    ∃ s', s.step (.completes ec) = some s' ∧
      Paced { r with state := .cancelled } n s' := by
  obtain ⟨-, hsent⟩ := h.running op running
  refine ⟨.after s.sent (HttpSession.handle op ec), ?_, ?_⟩
  · simp only [NotifiedSession.step, h.state, running]
  · have hhandle : HttpSession.handle op ec = (.onDisconnect, .cancelled) := if_pos failed
    rw [hhandle, hsent, NotifiedSession.after_onDisconnect]
    exact ⟨rfl, ⟨1, rfl⟩, h.done, fun op' hop' => by cases hop'⟩

theorem paced_succeeded {r u : Relay Req Resp} {n : Nat} {s : NotifiedSession} (h : r.Paced n s)
    {op : Operation} (running : r.state = .running op) (performed : r.perform op = some u)
    {ec : ErrorCode} (succeeded : ec.isError = false) :
    ∃ s', s.step (.completes ec) = some s' ∧
      Paced { u with state := .running op.next } (n + 1) s' := by
  obtain ⟨hturn, hsent⟩ := h.running op running
  have hnotification := Notification.cycleAt_eq_notification.mpr hturn
  refine ⟨.after s.sent (HttpSession.handle op ec), ?_, ?_⟩
  · simp only [NotifiedSession.step, h.state, running]
  · have hhandle : HttpSession.handle op ec = (op.notification, .running op.next) :=
      if_neg (Bool.eq_false_iff.mp succeeded)
    rw [hhandle, hsent, ← hnotification, NotifiedSession.after_cycleAt]
    refine ⟨rfl, ⟨0, rfl⟩, fun op' => ?_, fun op' hop' => ?_⟩
    · have hcount : u.done op' = (n + 1 + 3 - op'.turn) / 4 := by
        rw [done_perform performed, h.done]
        have hlt := op'.turn_lt
        by_cases hsame : op' = op
        · subst hsame
          rw [if_pos rfl]
          omega
        · have hne : op'.turn ≠ op.turn := fun heq => hsame (Operation.turn_inj.mp heq)
          rw [if_neg hsame]
          omega
      cases op' <;> exact hcount
    · obtain rfl : op.next = op' := SessionState.running.inj hop'
      refine ⟨?_, rfl⟩
      rw [Operation.turn_next, ← hturn, Nat.mod_add_mod]

/-- A step of the data path is a step of the visitor's side, or none. -/
theorem paced_step {r t : Relay Req Resp} {n : Nat} {s : NotifiedSession}
    {e : RelayEvent Req Resp} (h : r.Paced n s) (hstep : r.step e = some t) :
    ∃ n' s', Run (Steps NotifiedSession.step) s e.session.toList s' ∧ t.Paced n' s' := by
  cases e with
  | clientWrites m =>
      obtain ⟨-, hstep⟩ := Option.ite_none_right_eq_some.mp hstep
      obtain rfl := Option.some.inj hstep
      refine ⟨n, s, .nil s, h.of_done rfl fun op => ?_⟩
      cases op <;> rfl
  | serverWrites m =>
      obtain ⟨-, hstep⟩ := Option.ite_none_right_eq_some.mp hstep
      obtain rfl := Option.some.inj hstep
      refine ⟨n, s, .nil s, h.of_done rfl fun op => ?_⟩
      cases op <;> rfl
  | receive k =>
      refine ⟨n, s, .nil s, ?_⟩
      cases stepCase_of_step hstep with
      | receiveRequest hd =>
          obtain ⟨hread, hwritten⟩ := done_receive hd
          exact h.of_done rfl fun op => by cases op <;> simp [done, hread, hwritten]
      | receiveResponse hd =>
          obtain ⟨hread, hwritten⟩ := done_receive hd
          exact h.of_done rfl fun op => by cases op <;> simp [done, hread, hwritten]
  | completes ec =>
      obtain ⟨op, running, hcases⟩ := step_completes hstep
      rcases hcases with ⟨failed, rfl⟩ | ⟨succeeded, u, performed, rfl⟩
      · obtain ⟨s', hs', hpaced⟩ := paced_failed h running failed
        exact ⟨n, s', .one hs', hpaced⟩
      · obtain ⟨s', hs', hpaced⟩ := paced_succeeded h running performed succeeded
        exact ⟨n + 1, s', .one hs', hpaced⟩

theorem paced_run {es : List (RelayEvent Req Resp)} {r : Relay Req Resp}
    (hrun : Run (Steps step) initial es r) :
    ∃ n s, Run (Steps NotifiedSession.step) .started (es.filterMap RelayEvent.session) s ∧
      r.Paced n s := by
  induction hrun with
  | nil => exact ⟨0, .started, .nil _, paced_initial⟩
  | @snoc u v es e hrun hstep ih =>
      obtain ⟨n, s, hs, hpaced⟩ := ih
      obtain ⟨n', s', hs', hpaced'⟩ := paced_step hpaced hstep
      have hlast : [e].filterMap RelayEvent.session = e.session.toList := by
        cases he : e.session <;> simp [he]
      rw [List.filterMap_append, hlast]
      exact ⟨n', s', hs.append hs', hpaced'⟩

/-- In every run of the data path the visitor has been told of each kind of message as often as
    one was read or written. The counts fall along an exchange by one at most, and the operation
    in flight says where. -/
theorem told_run {es : List (RelayEvent Req Resp)} {r : Relay Req Resp}
    (hrun : Run (Steps step) initial es r) :
    (∃ sent, Run (Steps NotifiedSession.step) .started (es.filterMap RelayEvent.session)
        ⟨r.state, sent⟩ ∧ ∀ op : Operation, sent.count op.notification = r.done op) ∧
      (∀ op op' : Operation, op.turn ≤ op'.turn →
        r.done op' ≤ r.done op ∧ r.done op ≤ r.done op' + 1) ∧
      ∀ op, r.state = .running op → ∀ op' : Operation,
        r.done op' = r.done .sendToClient + if op'.turn < op.turn then 1 else 0 := by
  obtain ⟨n, ⟨state, sent⟩, hs, hpaced⟩ := paced_run hrun
  obtain rfl : state = r.state := hpaced.state
  obtain ⟨k, rfl⟩ : ∃ k, sent = Notification.bracketed n k := hpaced.sent
  refine ⟨⟨_, hs, fun op => ?_⟩, fun op op' hle => ?_, fun op hop op' => ?_⟩
  · rw [Notification.count_bracketed, hpaced.done]
  · have hlt := op'.turn_lt
    rw [hpaced.done, hpaced.done]
    omega
  · obtain ⟨hturn, -⟩ := hpaced.running op hop
    have hlt := op'.turn_lt
    have hlast : r.done .sendToClient = n / 4 := hpaced.done .sendToClient
    rw [hlast, hpaced.done]
    split <;> omega

/-- After two exchanges each operation has succeeded twice. -/
theorem told_run_twoGets :
    (∀ op : Operation, afterGets.done op = 2) ∧
      ∃ sent, Run (Steps NotifiedSession.step) .started
          (twoGets.filterMap RelayEvent.session) ⟨afterGets.state, sent⟩ ∧
        ∀ op : Operation, sent.count op.notification = afterGets.done op := by
  refine ⟨fun op => ?_, (told_run run_twoGets).1⟩
  cases op <;> rfl

end Relay

end LoadBalancer
