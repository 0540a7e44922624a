/-
  `IpHashSelector`: a vector of backends indexed by a hash of the client's address and port.
-/
import LoadBalancer.Selectors.Basic

namespace LoadBalancer

variable [Platform]

structure IpHashSelector where
  backends : List Backend

namespace IpHashSelector

def configure (config : Node) : Except Exception IpHashSelector := do
  return { backends := ← configuredBackends "Ip-hash endpoints node is missed" config }

/-- `ComputeHash`; the arithmetic of `std::size_t` is that of `HashType`. -/
def computeHash (ep : Endpoint) : HashType :=
  Platform.hash (Platform.addressToString ep.address) * .ofNat 37 + .ofNat (ep.port.val * 37 * 37)

def selectBackend (s : IpHashSelector) (clientAddress : Endpoint) :
    Outcome Backend × IpHashSelector :=
  if s.backends.isEmpty then
    -- `% backends_.size()` divides by zero
    (.undefined, s)
  else
    (.access s.backends[(computeHash clientAddress).val % s.backends.length]?, s)

def excludeBackend (s : IpHashSelector) (backend : Backend) : Outcome Unit × IpHashSelector :=
  let backends := s.backends.filter fun b => b ≠ backend
  (throwIfEmpty backends.isEmpty, { backends := backends })

theorem configure_eq_ok {config : Node} {s : IpHashSelector} (h : configure config = .ok s) :
    ∃ bs, (∀ missed, configuredBackends missed config = .ok bs) ∧ s = ⟨bs⟩ :=
  configured_eq_ok h

theorem mem_excludeBackend {s : IpHashSelector} {b x : Backend} :
    x ∈ (s.excludeBackend b).2.backends ↔ x ∈ s.backends ∧ x ≠ b := by
  simp [excludeBackend]

theorem excludeBackend_of_not_mem {s : IpHashSelector} {b : Backend} (hb : b ∉ s.backends) :
    (s.excludeBackend b).2 = s := by
  unfold excludeBackend
  rw [filter_ne_of_not_mem hb]

@[simp] theorem selectBackend_snd (s : IpHashSelector) (client : Endpoint) :
    (s.selectBackend client).2 = s := by
  unfold selectBackend
  split <;> rfl

theorem mem_of_selectBackend {s : IpHashSelector} (client : Endpoint) {b : Backend}
    (h : (s.selectBackend client).1 = .returned b) : b ∈ s.backends := by
  unfold selectBackend at h
  split at h
  · cases h
  · exact List.mem_of_getElem? (Outcome.access_eq_returned.mp h)

theorem selectBackend_returns {s : IpHashSelector} (hne : s.backends ≠ [])
    (client : Endpoint) : ∃ b, (s.selectBackend client).1 = .returned b := by
  have hpos : 0 < s.backends.length := List.length_pos_of_ne_nil hne
  have hlt : (computeHash client).val % s.backends.length < s.backends.length :=
    Nat.mod_lt _ hpos
  refine ⟨s.backends[(computeHash client).val % s.backends.length], ?_⟩
  rw [selectBackend, if_neg (by simpa using hne)]
  exact congrArg Outcome.access (List.getElem?_eq_getElem hlt)

end IpHashSelector

end LoadBalancer
