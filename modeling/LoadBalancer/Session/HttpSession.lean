/-
  The control flow of `HttpSession`: which asynchronous operation is in flight, what its
  completion handler calls next, and which notification it sends.

  One operation is in flight at a time. A handler that sees an error calls `Cancel`; the
  session is destroyed when the handler releases the last reference to it, and the destructor
  calls `Cancel` again.
-/
import LoadBalancer.Platform

namespace LoadBalancer

/-- Members of `StateNotifier`. -/
inductive Notification where
  | onConnect
  | onDisconnect
  | onRequestReceive
  | onRequestSent
  | onResponseReceive
  | onResponseSent
deriving DecidableEq

/-- The operation in flight, by the member function that started it. -/
inductive Operation where
  | clientRead
  | sendToServer
  | serverRead
  | sendToClient
deriving DecidableEq

namespace Operation

/-- The operation that the handler starts after a success. -/
def next : Operation → Operation
  | .clientRead => .sendToServer
  | .sendToServer => .serverRead
  | .serverRead => .sendToClient
  | .sendToClient => .clientRead

/-- The notification that the handler sends after a success. -/
def notification : Operation → Notification
  | .clientRead => .onRequestReceive
  | .sendToServer => .onRequestSent
  | .serverRead => .onResponseReceive
  | .sendToClient => .onResponseSent

end Operation

inductive SessionState where
  | running (operation : Operation)
  /-- `Cancel` was called and the last reference is about to be released -/
  | cancelled
  | destroyed
deriving DecidableEq

namespace HttpSession

/-- `Run` -/
def run : Notification × SessionState := (.onConnect, .running .clientRead)

/-- `HandleClientRead`, `HandleSendToServer`, `HandleServerRead`, `HandleSendToClient` -/
def handle (operation : Operation) (ec : ErrorCode) : Notification × SessionState :=
  if ec.isError then (.onDisconnect, .cancelled)
  else (operation.notification, .running operation.next)

/-- `~HttpSession` -/
def destroy : Notification × SessionState := (.onDisconnect, .destroyed)

end HttpSession

end LoadBalancer
