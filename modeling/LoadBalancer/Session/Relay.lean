/-
  The data path of `HttpSession`: bytes, dynamic buffers and the two reused messages.

  One `Direction` is a byte stream from a sender, the dynamic buffer it is read into, and the
  message object that is read and then written to the other side. Requests use
  `client_buffer_` and `client_request_`, responses `server_buffer_` and `server_response_`.
  Both are cleared at one point, `ClientRead`; `clear()` of a message leaves its body, and
  `async_read` appends the parsed body to the body it finds.

  The histories `sent`, `read` and `written` are read by no step.

  Proved:
  * `fidelity_iff`: what is written equals what was read exactly as long as every message but
    the last had an empty body.
  * `delivery_iff`: while no `ClientRead` clears a buffer that holds bytes, no message is
    skipped, and what is written is a prefix of what was sent under the same condition on
    bodies.
-/
import LoadBalancer.Lib.Transition
import LoadBalancer.Session.HttpSession
import LoadBalancer.Session.Message
import Mathlib.Tactic.Tauto

namespace LoadBalancer

open Transition

structure Direction (Header : Type) where
  /-- bytes on the stream that were not received yet -/
  network : List UInt8
  buffer : List UInt8
  message : Message Header
  sent : List (Message Header)
  read : List (Message Header)
  written : List (Message Header)

namespace Direction

variable {Header : Type} [Format Header]

def new : Direction Header :=
  { network := [], buffer := [], message := ⟨Format.noFields, []⟩
    sent := [], read := [], written := [] }

/-- The sender writes a complete message. -/
def send (d : Direction Header) (m : Message Header) : Direction Header :=
  { d with network := d.network ++ Format.wire m, sent := d.sent ++ [m] }

/-- The message at the front of the buffer, once all of it is there. -/
def parsed (d : Direction Header) : Option (Message Header × List UInt8) :=
  Format.parse d.buffer

/-- The pending read needs more bytes and `n` of them arrive. -/
def receive (d : Direction Header) (n : Nat) : Option (Direction Header) :=
  if d.parsed.isNone ∧ 0 < n ∧ n ≤ d.network.length then
    some { d with buffer := d.buffer ++ d.network.take n, network := d.network.drop n }
  else none

/-- `async_read` completes: the header is stored, the body appended. -/
def completeRead (d : Direction Header) : Option (Direction Header) := do
  let (m, rest) ← d.parsed
  return { d with
    buffer := rest
    message := ⟨m.header, d.message.body ++ m.body⟩
    read := d.read ++ [m] }

/-- `async_write` completes. -/
def completeWrite (d : Direction Header) : Direction Header :=
  { d with written := d.written ++ [d.message] }

/-- `buffer.clear()` and `message.clear()` -/
def clear (d : Direction Header) : Direction Header :=
  { d with buffer := [], message := ⟨Format.noFields, d.message.body⟩ }

end Direction

/-- An `HttpSession` with its two streams. -/
structure Relay (Req Resp : Type) where
  state : SessionState
  requests : Direction Req
  responses : Direction Resp

inductive RelayEvent (Req Resp : Type) where
  | clientWrites (m : Message Req)
  | serverWrites (m : Message Resp)
  | receive (n : Nat)
  | completes (ec : ErrorCode)

namespace Relay

variable {Req Resp : Type} [Format Req] [Format Resp]

/-- `ClientRead` of a new session. -/
def initial : Relay Req Resp :=
  { state := HttpSession.run.2, requests := .new, responses := .new }

/-- What a successful operation, and the start of the next one, do to the data. -/
def perform (r : Relay Req Resp) : Operation → Option (Relay Req Resp)
  | .clientRead => do return { r with requests := ← r.requests.completeRead }
  | .sendToServer => some { r with requests := r.requests.completeWrite }
  | .serverRead => do return { r with responses := ← r.responses.completeRead }
  | .sendToClient =>
    -- `ClientRead` clears both buffers and both messages
    some { r with requests := r.requests.clear, responses := r.responses.completeWrite.clear }

def step (r : Relay Req Resp) : RelayEvent Req Resp → Option (Relay Req Resp)
  | .clientWrites m =>
    if Format.complete m then some { r with requests := r.requests.send m } else none
  | .serverWrites m =>
    if Format.complete m then some { r with responses := r.responses.send m } else none
  | .receive n =>
    match r.state with
    | .running .clientRead => do return { r with requests := ← r.requests.receive n }
    | .running .serverRead => do return { r with responses := ← r.responses.receive n }
    | _ => none
  | .completes ec =>
    match r.state with
    | .running operation =>
      if ec.isError then some { r with state := (HttpSession.handle operation ec).2 }
      else do return { ← r.perform operation with state := (HttpSession.handle operation ec).2 }
    | _ => none

/-- The client sends a request after the last response only, the server answers once. -/
def lockStep (r : Relay Req Resp) : RelayEvent Req Resp → Prop
  | .clientWrites _ => r.requests.sent.length = r.responses.written.length
  | .serverWrites _ => r.responses.sent.length < r.requests.written.length
  | _ => True

/-- When a response has been written, no byte is left in either buffer. -/
def buffersEmpty (r : Relay Req Resp) : RelayEvent Req Resp → Prop
  | .completes _ =>
    r.state = .running .sendToClient → r.requests.buffer = [] ∧ r.responses.buffer = []
  | _ => True

instance (r : Relay Req Resp) (e : RelayEvent Req Resp) : Decidable (r.lockStep e) := by
  cases e <;> unfold lockStep <;> infer_instance

instance (r : Relay Req Resp) (e : RelayEvent Req Resp) : Decidable (r.buffersEmpty e) := by
  cases e <;> unfold buffersEmpty <;> infer_instance

/-- What a step can be. -/
inductive StepCase (r : Relay Req Resp) : RelayEvent Req Resp → Relay Req Resp → Prop where
  | clientWrites {m : Message Req} (complete : Format.complete m = true) :
      StepCase r (.clientWrites m) { r with requests := r.requests.send m }
  | serverWrites {m : Message Resp} (complete : Format.complete m = true) :
      StepCase r (.serverWrites m) { r with responses := r.responses.send m }
  | receiveRequest {n : Nat} {d : Direction Req} (received : r.requests.receive n = some d) :
      StepCase r (.receive n) { r with requests := d }
  | receiveResponse {n : Nat} {d : Direction Resp} (received : r.responses.receive n = some d) :
      StepCase r (.receive n) { r with responses := d }
  | failed {ec : ErrorCode} {op : Operation} (running : r.state = .running op) :
      StepCase r (.completes ec) { r with state := .cancelled }
  | succeeded {ec : ErrorCode} {op : Operation} {t : Relay Req Resp}
      (running : r.state = .running op) (performed : r.perform op = some t) :
      StepCase r (.completes ec) { t with state := .running op.next }

theorem stepCase_of_step {r t : Relay Req Resp} {e : RelayEvent Req Resp}
    (h : r.step e = some t) : StepCase r e t := by
  cases e with
  | clientWrites m =>
      obtain ⟨hm, h⟩ := Option.ite_none_right_eq_some.mp h
      obtain rfl := Option.some.inj h
      exact .clientWrites hm
  | serverWrites m =>
      obtain ⟨hm, h⟩ := Option.ite_none_right_eq_some.mp h
      obtain rfl := Option.some.inj h
      exact .serverWrites hm
  | receive n =>
      simp only [step] at h
      split at h
      · obtain ⟨d, hd, h⟩ := Option.bind_eq_some_iff.mp h
        obtain rfl := Option.some.inj h
        exact .receiveRequest hd
      · obtain ⟨d, hd, h⟩ := Option.bind_eq_some_iff.mp h
        obtain rfl := Option.some.inj h
        exact .receiveResponse hd
      · cases h
  | completes ec =>
      simp only [step] at h
      split at h
      · next op hop =>
        split at h
        · next herr =>
          obtain rfl := Option.some.inj h
          rw [HttpSession.handle, if_pos herr]
          exact .failed hop
        · next herr =>
          obtain ⟨u, hu, h⟩ := Option.bind_eq_some_iff.mp h
          obtain rfl := Option.some.inj h
          rw [HttpSession.handle, if_neg herr]
          exact .succeeded hop hu
      · cases h

end Relay

/-! ## Accumulated bodies -/

/-- The messages, each with the bodies of its predecessors before its own. -/
def accumulate {Header : Type} (before : List UInt8) :
    List (Message Header) → List (Message Header)
  | [] => []
  | m :: ms => ⟨m.header, before ++ m.body⟩ :: accumulate (before ++ m.body) ms

section Accumulate

variable {Header : Type}

theorem length_accumulate (before : List UInt8) (ms : List (Message Header)) :
    (accumulate before ms).length = ms.length := by
  induction ms generalizing before with
  | nil => rfl
  | cons m ms ih => simp [accumulate, ih]

theorem accumulate_append_one (before : List UInt8) (ms : List (Message Header))
    (m : Message Header) : accumulate before (ms ++ [m]) =
      accumulate before ms ++ [⟨m.header, before ++ ms.flatMap Message.body ++ m.body⟩] := by
  induction ms generalizing before with
  | nil => simp [accumulate]
  | cons n ns ih => simp [accumulate, ih]

/-- The first `n` accumulated messages are the first `n` messages exactly when nothing comes
    before them and all of them but the last have empty bodies. -/
theorem take_accumulate_iff (before : List UInt8) (ms : List (Message Header)) (n : Nat)
    (hn : n ≤ ms.length) : (accumulate before ms).take n = ms.take n ↔
      n = 0 ∨ before = [] ∧ ∀ m ∈ ms.take (n - 1), m.body = [] := by
  induction ms generalizing before n with
  | nil =>
      have hzero : n = 0 := Nat.le_zero.mp hn
      simp [hzero]
  | cons m ms ih =>
      cases n with
      | zero => simp
      | succ n =>
          have hlen : n ≤ ms.length := Nat.le_of_succ_le_succ hn
          have hhead : (⟨m.header, before ++ m.body⟩ : Message Header) = m ↔ before = [] := by
            cases m
            simp
          rw [accumulate, List.take_succ_cons, List.take_succ_cons, List.cons.injEq, hhead,
            ih _ n hlen]
          cases n with
          | zero => simp
          | succ n =>
              simp only [Nat.add_one_ne_zero, false_or, Nat.add_sub_cancel, List.take_succ_cons,
                List.forall_mem_cons, List.append_eq_nil_iff]
              tauto

theorem prefix_iff_of_prefix_accumulate {written read : List (Message Header)}
    (h : written <+: accumulate [] read) :
    written <+: read ↔ ∀ m ∈ read.take (written.length - 1), m.body = [] := by
  have hlen : written.length ≤ read.length := by
    have := h.length_le
    rwa [length_accumulate] at this
  have hiff := take_accumulate_iff [] read written.length hlen
  rw [← List.prefix_iff_eq_take.mp h] at hiff
  rw [List.prefix_iff_eq_take, hiff]
  constructor
  · intro hor
    rcases hor with hzero | ⟨-, hbodies⟩
    · simp [hzero]
    · exact hbodies
  · exact fun hbodies => Or.inr ⟨rfl, hbodies⟩

end Accumulate

/-! ## Messages read and messages written -/

namespace Direction

variable {Header : Type} [Format Header]

/-- The message object holds all bodies read so far, and what is written is what was read
    with the bodies accumulated; `writing` says that the last message is still being written. -/
structure Relayed (writing : Bool) (d : Direction Header) : Prop where
  body : d.message.body = d.read.flatMap Message.body
  written : d.written ++ (if writing then [d.message] else []) = accumulate [] d.read

theorem relayed_new : (new : Direction Header).Relayed false := ⟨rfl, rfl⟩

theorem Relayed.send {w : Bool} {d : Direction Header} (h : d.Relayed w)
    (m : Message Header) : (d.send m).Relayed w := ⟨h.body, h.written⟩

theorem receive_eq_some {d t : Direction Header} {n : Nat} (h : d.receive n = some t) :
    d.parsed = none ∧ 0 < n ∧
      t = { d with buffer := d.buffer ++ d.network.take n, network := d.network.drop n } := by
  unfold receive at h
  split at h
  · next hguard => exact ⟨Option.isNone_iff_eq_none.mp hguard.1, hguard.2.1, by simpa using h.symm⟩
  · cases h

theorem completeRead_eq_some {d t : Direction Header} (h : d.completeRead = some t) :
    ∃ m rest, d.parsed = some (m, rest) ∧
      t = { d with
            buffer := rest
            message := ⟨m.header, d.message.body ++ m.body⟩
            read := d.read ++ [m] } := by
  obtain ⟨⟨m, rest⟩, hparse, h⟩ := Option.bind_eq_some_iff.mp h
  exact ⟨m, rest, hparse, by simpa using h.symm⟩

theorem Relayed.receive {w : Bool} {d t : Direction Header} {n : Nat} (hd : d.Relayed w)
    (h : d.receive n = some t) : t.Relayed w := by
  obtain ⟨-, -, rfl⟩ := receive_eq_some h
  exact ⟨hd.body, hd.written⟩

theorem Relayed.completeRead {d t : Direction Header} (hd : d.Relayed false)
    (h : d.completeRead = some t) : t.Relayed true := by
  obtain ⟨m, rest, -, rfl⟩ := completeRead_eq_some h
  have hwritten : d.written = accumulate [] d.read := by simpa using hd.written
  constructor
  · simp [hd.body]
  · simp [accumulate_append_one, hwritten, hd.body]

omit [Format Header] in
theorem Relayed.completeWrite {d : Direction Header} (hd : d.Relayed true) :
    d.completeWrite.Relayed false := by
  constructor
  · exact hd.body
  · simpa [Direction.completeWrite] using hd.written

theorem Relayed.clear {d : Direction Header} (hd : d.Relayed false) :
    d.clear.Relayed false := ⟨hd.body, hd.written⟩

omit [Format Header] in
theorem Relayed.prefix_iff {w : Bool} {d : Direction Header} (hd : d.Relayed w) :
    d.written <+: d.read ↔ ∀ m ∈ d.read.take (d.written.length - 1), m.body = [] :=
  prefix_iff_of_prefix_accumulate (hd.written ▸ List.prefix_append _ _)

end Direction

namespace Relay

variable {Req Resp : Type} [Format Req] [Format Resp]

/-- Both directions relay what they read; a message is being written only by the operation
    that writes it. -/
structure Inv (r : Relay Req Resp) : Prop where
  requests : ∃ w, r.requests.Relayed w ∧
    ∀ op, r.state = .running op → w = decide (op = .sendToServer)
  responses : ∃ w, r.responses.Relayed w ∧
    ∀ op, r.state = .running op → w = decide (op = .sendToClient)

theorem inv_initial : (initial : Relay Req Resp).Inv where
  requests := ⟨false, Direction.relayed_new, fun op h => by cases h; rfl⟩
  responses := ⟨false, Direction.relayed_new, fun op h => by cases h; rfl⟩

/-- An operation that succeeds leaves the data as its successor needs it. -/
theorem perform_relayed {r t : Relay Req Resp} {op : Operation}
    (hreq : r.requests.Relayed (decide (op = .sendToServer)))
    (hresp : r.responses.Relayed (decide (op = .sendToClient)))
    (h : r.perform op = some t) :
    t.requests.Relayed (decide (op.next = .sendToServer)) ∧
      t.responses.Relayed (decide (op.next = .sendToClient)) := by
  cases op with
  | clientRead =>
      obtain ⟨d, hd, h⟩ := Option.bind_eq_some_iff.mp h
      cases h
      exact ⟨hreq.completeRead hd, hresp⟩
  | sendToServer =>
      cases h
      exact ⟨hreq.completeWrite, hresp⟩
  | serverRead =>
      obtain ⟨d, hd, h⟩ := Option.bind_eq_some_iff.mp h
      cases h
      exact ⟨hreq, hresp.completeRead hd⟩
  | sendToClient =>
      cases h
      exact ⟨hreq.clear, hresp.completeWrite.clear⟩

theorem inv_step {r t : Relay Req Resp} {e : RelayEvent Req Resp} (hr : r.Inv)
    (h : r.step e = some t) : t.Inv := by
  obtain ⟨⟨w, hreq, hw⟩, ⟨v, hresp, hv⟩⟩ := hr
  cases stepCase_of_step h with
  | clientWrites hm => exact ⟨⟨w, hreq.send _, hw⟩, ⟨v, hresp, hv⟩⟩
  | serverWrites hm => exact ⟨⟨w, hreq, hw⟩, ⟨v, hresp.send _, hv⟩⟩
  | receiveRequest hd => exact ⟨⟨w, hreq.receive hd, hw⟩, ⟨v, hresp, hv⟩⟩
  | receiveResponse hd => exact ⟨⟨w, hreq, hw⟩, ⟨v, hresp.receive hd, hv⟩⟩
  | failed hop =>
      exact ⟨⟨w, hreq, fun op' h' => by cases h'⟩, ⟨v, hresp, fun op' h' => by cases h'⟩⟩
  | succeeded hop hu =>
      obtain ⟨hreq', hresp'⟩ := perform_relayed (hw _ hop ▸ hreq) (hv _ hop ▸ hresp) hu
      exact ⟨⟨_, hreq', fun op' h' => by cases h'; rfl⟩,
        ⟨_, hresp', fun op' h' => by cases h'; rfl⟩⟩

theorem inv_run {es : List (RelayEvent Req Resp)} {r : Relay Req Resp}
    (hrun : Run (Steps step) initial es r) : r.Inv :=
  hrun.invariant (fun _ _ _ hr h => inv_step hr h) inv_initial

/-- Every message but the last one written has an empty body. -/
def BodiesEmpty {Header : Type} (d : Direction Header) : Prop :=
  ∀ m ∈ d.read.take (d.written.length - 1), m.body = []

/-- In every run, the messages written are the messages read, one by one, exactly when every
    message followed by another has an empty body, in both directions. -/
theorem fidelity_iff {es : List (RelayEvent Req Resp)} {r : Relay Req Resp}
    (hrun : Run (Steps step) initial es r) :
    (r.requests.written <+: r.requests.read ∧ r.responses.written <+: r.responses.read) ↔
      (BodiesEmpty r.requests ∧ BodiesEmpty r.responses) := by
  obtain ⟨⟨w, hreq, -⟩, ⟨v, hresp, -⟩⟩ := inv_run hrun
  rw [hreq.prefix_iff, hresp.prefix_iff]
  rfl

/-! ## Two exchanges -/

/-- A request without a body. -/
def get (path : String) : Message HeaderText := ⟨bytes ("GET " ++ path ++ " HTTP/1.1\r\n\r\n"), []⟩

/-- A request with a body of one byte, and a response without a body. -/
def post (b : UInt8) : Message HeaderText :=
  ⟨bytes "POST / HTTP/1.1\r\nContent-Length: 1\r\n\r\n", [b]⟩
def okay : Message HeaderText := ⟨bytes "HTTP/1.1 200 OK\r\nContent-Length: 0\r\n\r\n", []⟩

/-- Each message arrives in one piece, and every operation succeeds. -/
def exchange (request response : Message HeaderText) :
    List (RelayEvent HeaderText HeaderText) :=
  [.clientWrites request, .receive (Format.wire request).length, .completes .success,
    .completes .success, .serverWrites response, .receive (Format.wire response).length,
    .completes .success, .completes .success]

/-- The messages of the second exchange are read into the ones of the first. -/
def twoGets : List (RelayEvent HeaderText HeaderText) :=
  exchange (get "/1") okay ++ exchange (get "/2") okay

def afterGets : Relay HeaderText HeaderText := (twoGets.foldlM step initial).getD initial

theorem run_twoGets : Run (Steps step) initial twoGets afterGets := .of_foldlM (by rfl)

theorem fidelity_twoGets :
    afterGets.requests.written = [get "/1", get "/2"] ∧
      afterGets.responses.written = [okay, okay] ∧
      afterGets.requests.written <+: afterGets.requests.read ∧
      afterGets.responses.written <+: afterGets.responses.read := by
  refine ⟨by rfl, by rfl, (fidelity_iff run_twoGets).mpr ?_⟩
  unfold BodiesEmpty
  decide

def afterTwo : Relay HeaderText HeaderText :=
  ((exchange (post 1) okay ++ exchange (post 2) okay).foldlM step initial).getD initial

/-- The second request is written with the body of the first before its own. -/
theorem no_fidelity_afterTwo :
    Run (Under lockStep (Steps step)) initial (exchange (post 1) okay ++ exchange (post 2) okay)
        afterTwo ∧
      afterTwo.requests.read = [post 1, post 2] ∧
      afterTwo.requests.written = [post 1, ⟨(post 2).header, [1, 2]⟩] ∧
      ¬ afterTwo.requests.written <+: afterTwo.requests.read := by
  refine ⟨.under_of_foldlM (by rfl), by rfl, by rfl, ?_⟩
  decide

end Relay

/-! ## Messages sent and messages read -/

namespace Direction

variable {Header : Type} [Format Header]

/-- The messages not read yet are exactly what is in the buffer and on the stream. -/
structure Lossless (d : Direction Header) (pending : List (Message Header)) : Prop where
  sent : d.sent = d.read ++ pending
  bytes : d.buffer ++ d.network = pending.flatMap Format.wire
  complete : ∀ m ∈ pending, Format.complete m = true

theorem lossless_new : (new : Direction Header).Lossless [] := ⟨rfl, rfl, by simp⟩

theorem Lossless.send {d : Direction Header} {pending : List (Message Header)}
    (hd : d.Lossless pending) {m : Message Header} (hm : Format.complete m = true) :
    (d.send m).Lossless (pending ++ [m]) := by
  refine ⟨?_, ?_, ?_⟩
  · simp [Direction.send, hd.sent]
  · simp [Direction.send, ← hd.bytes]
  · intro n hn
    rcases List.mem_append.mp hn with hn | hn
    · exact hd.complete n hn
    · exact List.mem_singleton.mp hn ▸ hm

theorem Lossless.receive {d t : Direction Header} {pending : List (Message Header)} {n : Nat}
    (hd : d.Lossless pending) (h : d.receive n = some t) : t.Lossless pending := by
  obtain ⟨-, -, rfl⟩ := receive_eq_some h
  refine ⟨hd.sent, ?_, hd.complete⟩
  show d.buffer ++ d.network.take n ++ d.network.drop n = _
  rw [List.append_assoc, List.take_append_drop, hd.bytes]

/-- What a read takes is the next message that was sent. -/
theorem Lossless.completeRead [LawfulFormat Header] {d t : Direction Header}
    {pending : List (Message Header)} (hd : d.Lossless pending)
    (h : d.completeRead = some t) : ∃ rest, t.Lossless rest := by
  obtain ⟨m, rest, hparse, rfl⟩ := completeRead_eq_some h
  cases pending with
  | nil =>
      have hbuffer : d.buffer = [] := (List.append_eq_nil_iff.mp hd.bytes).1
      rw [parsed, hbuffer, LawfulFormat.parse_nil] at hparse
      cases hparse
  | cons m₁ ms =>
      have hm₁ : Format.complete m₁ = true := hd.complete m₁ List.mem_cons_self
      have hbytes : d.buffer ++ d.network = Format.wire m₁ ++ ms.flatMap Format.wire := hd.bytes
      -- either the buffer stops inside the message, or it holds all of it
      rcases List.append_eq_append_iff.mp hbytes with ⟨tail, hwire, hrest⟩ | ⟨tail, hbuffer, hrest⟩
      · by_cases htail : tail = []
        · subst htail
          rw [List.append_nil] at hwire
          have hfull := LawfulFormat.parse_wire m₁ [] hm₁
          rw [List.append_nil, hwire, ← parsed, hparse] at hfull
          cases hfull
          refine ⟨ms, ?_, ?_, fun x hx => hd.complete x (List.mem_cons_of_mem _ hx)⟩
          · simp [hd.sent]
          · simpa using hrest
        · have hprefix : d.buffer <+: Format.wire m₁ := ⟨tail, hwire.symm⟩
          have hne : d.buffer ≠ Format.wire m₁ := by
            intro heq
            rw [hwire] at heq
            exact htail (by simpa using heq.symm)
          rw [parsed, LawfulFormat.parse_of_prefix m₁ d.buffer hm₁ hprefix hne] at hparse
          cases hparse
      · rw [parsed, hbuffer, LawfulFormat.parse_wire m₁ tail hm₁] at hparse
        cases hparse
        refine ⟨ms, ?_, ?_, fun x hx => hd.complete x (List.mem_cons_of_mem _ hx)⟩
        · simp [hd.sent]
        · exact hrest.symm

theorem Lossless.completeWrite {d : Direction Header} {pending : List (Message Header)}
    (hd : d.Lossless pending) : d.completeWrite.Lossless pending :=
  ⟨hd.sent, hd.bytes, hd.complete⟩

theorem Lossless.clear {d : Direction Header} {pending : List (Message Header)}
    (hd : d.Lossless pending) (hempty : d.buffer = []) : d.clear.Lossless pending :=
  ⟨hd.sent, by rw [← hd.bytes, hempty]; rfl, hd.complete⟩

end Direction

namespace Relay

variable {Req Resp : Type} [Format Req] [Format Resp]

/-- No message is lost in either direction. -/
def Lossless (r : Relay Req Resp) : Prop :=
  (∃ ms, r.requests.Lossless ms) ∧ ∃ ms, r.responses.Lossless ms

variable [LawfulFormat Req] [LawfulFormat Resp]

theorem lossless_step {r t : Relay Req Resp} {e : RelayEvent Req Resp} (hr : r.Lossless)
    (hempty : r.buffersEmpty e) (h : r.step e = some t) : t.Lossless := by
  obtain ⟨⟨reqs, hreq⟩, ⟨resps, hresp⟩⟩ := hr
  cases stepCase_of_step h with
  | clientWrites hm => exact ⟨⟨_, hreq.send hm⟩, ⟨_, hresp⟩⟩
  | serverWrites hm => exact ⟨⟨_, hreq⟩, ⟨_, hresp.send hm⟩⟩
  | receiveRequest hd => exact ⟨⟨_, hreq.receive hd⟩, ⟨_, hresp⟩⟩
  | receiveResponse hd => exact ⟨⟨_, hreq⟩, ⟨_, hresp.receive hd⟩⟩
  | failed hop => exact ⟨⟨_, hreq⟩, ⟨_, hresp⟩⟩
  | @succeeded ec op u hop hu =>
      cases op with
      | clientRead =>
          obtain ⟨d, hd, hu⟩ := Option.bind_eq_some_iff.mp hu
          cases hu
          exact ⟨hreq.completeRead hd, ⟨_, hresp⟩⟩
      | sendToServer =>
          cases hu
          exact ⟨⟨_, hreq.completeWrite⟩, ⟨_, hresp⟩⟩
      | serverRead =>
          obtain ⟨d, hd, hu⟩ := Option.bind_eq_some_iff.mp hu
          cases hu
          exact ⟨⟨_, hreq⟩, hresp.completeRead hd⟩
      | sendToClient =>
          cases hu
          obtain ⟨hreqbuf, hrespbuf⟩ := hempty hop
          exact ⟨⟨_, hreq.clear hreqbuf⟩, ⟨_, hresp.completeWrite.clear hrespbuf⟩⟩

theorem lossless_run {es : List (RelayEvent Req Resp)} {r : Relay Req Resp}
    (hrun : Run (Under buffersEmpty (Steps step)) initial es r) : r.Lossless := by
  have hinit : (initial : Relay Req Resp).Lossless :=
    ⟨⟨_, Direction.lossless_new⟩, ⟨_, Direction.lossless_new⟩⟩
  have hstep : ∀ (s : Relay Req Resp) e t, s.Lossless →
      Under buffersEmpty (Steps step) s e t → t.Lossless :=
    fun s e t hs h => lossless_step hs h.1 h.2
  exact hrun.invariant hstep hinit

/-- Where what is read is a prefix of what was sent, what is written is a prefix of it exactly
    when it is a prefix of what was read. -/
theorem written_prefix_iff {Header : Type} {d : Direction Header} {w : Bool}
    (hread : d.read <+: d.sent) (hd : d.Relayed w) :
    d.written <+: d.sent ↔ BodiesEmpty d := by
  have hlen : d.written.length ≤ d.read.length := by
    have hprefix : d.written <+: accumulate [] d.read := hd.written ▸ List.prefix_append _ _
    have := hprefix.length_le
    rwa [length_accumulate] at this
  rw [BodiesEmpty, ← hd.prefix_iff]
  exact ⟨fun h => List.prefix_of_prefix_length_le h hread hlen, fun h => h.trans hread⟩

/-- In every run in which `ClientRead` never clears a buffer that holds bytes, the messages
    read are the first ones sent, in order and without a gap, in both directions; and the
    messages written are the first ones sent exactly when every message followed by another
    has an empty body. -/
theorem delivery_iff {es : List (RelayEvent Req Resp)} {r : Relay Req Resp}
    (hrun : Run (Under buffersEmpty (Steps step)) initial es r) :
    (r.requests.read <+: r.requests.sent ∧ r.responses.read <+: r.responses.sent) ∧
      ((r.requests.written <+: r.requests.sent ∧ r.responses.written <+: r.responses.sent) ↔
        (BodiesEmpty r.requests ∧ BodiesEmpty r.responses)) := by
  obtain ⟨⟨w, hreq, -⟩, ⟨v, hresp, -⟩⟩ := inv_run hrun.of_under
  obtain ⟨⟨reqs, hreqs⟩, ⟨resps, hresps⟩⟩ := lossless_run hrun
  have hreqread : r.requests.read <+: r.requests.sent := ⟨reqs, hreqs.sent.symm⟩
  have hrespread : r.responses.read <+: r.responses.sent := ⟨resps, hresps.sent.symm⟩
  refine ⟨⟨hreqread, hrespread⟩, ?_⟩
  rw [written_prefix_iff hreqread hreq, written_prefix_iff hrespread hresp]

theorem delivery_twoGets :
    (afterGets.requests.written <+: afterGets.requests.sent ∧
      afterGets.responses.written <+: afterGets.responses.sent) ∧
    (afterGets.requests.read <+: afterGets.requests.sent ∧
      afterGets.responses.read <+: afterGets.responses.sent) := by
  have hrun : Run (Under buffersEmpty (Steps step)) initial twoGets afterGets :=
    .under_of_foldlM (by rfl)
  obtain ⟨hread, hwritten⟩ := delivery_iff hrun
  refine ⟨hwritten.mpr ?_, hread⟩
  unfold BodiesEmpty
  decide

/-! ## Two requests in one segment -/

/-- The second request arrives with the first; the third is sent after the first response. -/
def pipelined : List (RelayEvent HeaderText HeaderText) :=
  .clientWrites (get "/1") :: .clientWrites (get "/2") ::
  .receive (Format.wire (get "/1") ++ Format.wire (get "/2")).length ::
  .completes .success :: .completes .success ::
  .serverWrites okay :: .receive (Format.wire okay).length ::
  .completes .success :: .completes .success ::
  .clientWrites (get "/3") :: .receive (Format.wire (get "/3")).length ::
  .completes .success :: .completes .success :: []

def afterPipelined : Relay HeaderText HeaderText :=
  (pipelined.foldlM step initial).getD initial

/-- The second request is cleared with the buffer and never written to the server. -/
theorem no_delivery_afterPipelined :
    Run (Steps step) initial pipelined afterPipelined ∧
      afterPipelined.requests.sent = [get "/1", get "/2", get "/3"] ∧
      afterPipelined.requests.written = [get "/1", get "/3"] ∧
      ¬ afterPipelined.requests.written <+: afterPipelined.requests.sent := by
  refine ⟨.of_foldlM (by rfl), by rfl, by rfl, ?_⟩
  decide

end Relay

end LoadBalancer
