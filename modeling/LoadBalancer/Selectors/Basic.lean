/-
  What the six selectors share: how a call ends, the message of an exhausted selector, and
  the endpoint loop of `Configure`.

  A member function that changes its object is a function from the object to the outcome of
  the call and the object after it, so that what an exception leaves behind is not lost.
  Undefined behaviour (a remainder by zero, an index past the end, `top()` of an empty heap,
  a dereferenced end iterator) is the outcome `undefined`.
-/
import LoadBalancer.Backend
import LoadBalancer.Lib.Except

namespace LoadBalancer

inductive Outcome (α : Type) where
  | returned (value : α)
  | thrown (e : Exception)
  | undefined

/-- An access that is undefined where there is nothing to access. -/
def Outcome.access {α : Type} : Option α → Outcome α
  | some a => .returned a
  | none => .undefined

@[simp] theorem Outcome.access_some {α : Type} (a : α) : Outcome.access (some a) = .returned a :=
  rfl

theorem Outcome.access_eq_returned {α : Type} {o : Option α} {a : α} :
    Outcome.access o = .returned a ↔ o = some a := by
  cases o <;> simp [Outcome.access]

theorem Outcome.access_ne_thrown {α : Type} (o : Option α) (e : Exception) :
    Outcome.access o ≠ .thrown e := by
  cases o <;> simp [Outcome.access]

/-- `EXCEPTION("All backends are excluded!")` -/
def allBackendsExcluded : Exception := .runtimeError "All backends are excluded!"

/-- The emptiness test at the end of an exclusion. -/
def throwIfEmpty (empty : Bool) : Outcome Unit :=
  if empty then .thrown allBackendsExcluded else .returned ()

@[simp] theorem throwIfEmpty_eq_returned {empty : Bool} {u : Unit} :
    throwIfEmpty empty = .returned u ↔ empty = false := by
  cases empty <;> simp [throwIfEmpty]

@[simp] theorem throwIfEmpty_eq_thrown {empty : Bool} {e : Exception} :
    throwIfEmpty empty = .thrown e ↔ empty = true ∧ e = allBackendsExcluded := by
  cases empty <;> simp [throwIfEmpty, eq_comm]

@[simp] theorem throwIfEmpty_ne_undefined (empty : Bool) : throwIfEmpty empty ≠ .undefined := by
  cases empty <;> simp [throwIfEmpty]

inductive SelectorType where
  | roundRobin
  | weightedRoundRobin
  | ipHash
  | consistentHash
  | leastConnections
  | leastResponseTime
deriving DecidableEq

variable [Platform]

/-- The backends of the `endpoints` sequence, read in order. -/
def configuredBackends (missed : String) (config : Node) : Except Exception (List Backend) := do
  (← Backend.endpointNodes missed config).mapM Backend.ofNode

theorem filter_ne_of_not_mem {bs : List Backend} {b : Backend} (hb : b ∉ bs) :
    (bs.filter fun x => x ≠ b) = bs := by
  rw [List.filter_eq_self]
  intro x hx
  simpa using ne_of_mem_of_not_mem hx hb

/-- The selector's own message does not decide whether a configuration is accepted. -/
theorem configuredBackends_missed {missed : String} {config : Node} {bs : List Backend}
    (h : configuredBackends missed config = .ok bs) (other : String) :
    configuredBackends other config = .ok bs := by
  obtain ⟨items, hitems, hbs⟩ := Except.bind_eq_ok.mp h
  obtain ⟨node, hnode, hitems⟩ := Except.bind_eq_ok.mp hitems
  refine Except.bind_eq_ok.mpr ⟨items, Except.bind_eq_ok.mpr ⟨node, hnode, ?_⟩, hbs⟩
  cases node with
  | undefined => cases hitems
  | _ => exact hitems

/-- A `Configure` that reads the endpoints and stores them. -/
theorem configured_eq_ok {α : Type} {missed : String} {config : Node} {f : List Backend → α}
    {a : α} (h : (do return f (← configuredBackends missed config)) = Except.ok a) :
    ∃ bs, (∀ other, configuredBackends other config = .ok bs) ∧ a = f bs := by
  obtain ⟨bs, hbs, h⟩ := Except.bind_eq_ok.mp h
  rw [Except.pure_eq_ok] at h
  exact ⟨bs, configuredBackends_missed hbs, h.symm⟩

end LoadBalancer
