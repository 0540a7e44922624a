/-
  `RoundRobinSelector`: a vector of backends and a cursor that an exclusion leaves alone.
-/
import LoadBalancer.Selectors.Basic

namespace LoadBalancer

variable [Platform]

structure RoundRobinSelector where
  counter : Nat
  backends : List Backend

namespace RoundRobinSelector

def configure (config : Node) : Except Exception RoundRobinSelector := do
  return { counter := 0
           backends := ← configuredBackends "Round-robin endpoints node is missed" config }

def selectBackend (s : RoundRobinSelector) (_notused : Endpoint) :
    Outcome Backend × RoundRobinSelector :=
  if s.backends.isEmpty then
    -- `(counter + 1) % backends_.size()` divides by zero
    (.undefined, s)
  else
    let counter := (s.counter + 1) % s.backends.length
    (.access s.backends[counter]?, { s with counter := counter })

def excludeBackend (s : RoundRobinSelector) (backend : Backend) :
    Outcome Unit × RoundRobinSelector :=
  let backends := s.backends.filter fun b => b ≠ backend
  (throwIfEmpty backends.isEmpty, { s with backends := backends })

theorem configure_eq_ok {config : Node} {s : RoundRobinSelector} (h : configure config = .ok s) :
    ∃ bs, (∀ missed, configuredBackends missed config = .ok bs) ∧ s = ⟨0, bs⟩ :=
  configured_eq_ok h

theorem mem_excludeBackend {s : RoundRobinSelector} {b x : Backend} :
    x ∈ (s.excludeBackend b).2.backends ↔ x ∈ s.backends ∧ x ≠ b := by
  simp [excludeBackend]

theorem excludeBackend_of_not_mem {s : RoundRobinSelector} {b : Backend} (hb : b ∉ s.backends) :
    (s.excludeBackend b).2 = s := by
  unfold excludeBackend
  rw [filter_ne_of_not_mem hb]

@[simp] theorem backends_selectBackend (s : RoundRobinSelector) (client : Endpoint) :
    (s.selectBackend client).2.backends = s.backends := by
  unfold selectBackend
  split <;> rfl

theorem mem_of_selectBackend {s : RoundRobinSelector} (client : Endpoint) {b : Backend}
    (h : (s.selectBackend client).1 = .returned b) : b ∈ s.backends := by
  unfold selectBackend at h
  split at h
  · cases h
  · exact List.mem_of_getElem? (Outcome.access_eq_returned.mp h)

theorem selectBackend_returns {s : RoundRobinSelector} (hne : s.backends ≠ [])
    (client : Endpoint) : ∃ b, (s.selectBackend client).1 = .returned b := by
  have hpos : 0 < s.backends.length := List.length_pos_of_ne_nil hne
  have hlt : (s.counter + 1) % s.backends.length < s.backends.length := Nat.mod_lt _ hpos
  refine ⟨s.backends[(s.counter + 1) % s.backends.length], ?_⟩
  rw [selectBackend, if_neg (by simpa using hne)]
  exact congrArg Outcome.access (List.getElem?_eq_getElem hlt)

end RoundRobinSelector

end LoadBalancer
