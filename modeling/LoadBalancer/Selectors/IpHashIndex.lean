/-
  Which backend `IpHashSelector` selects for which client.

  The hash sums the client's address and its source port. So clients with one address share a
  backend where their ports' parts of the sum agree modulo the number of backends: always
  where the ports are equal, and, if the two sums wrap around equally often, exactly where
  this number divides 37 * 37 times the difference of the ports.
-/
import LoadBalancer.Selectors.Exclusion
import Mathlib.Data.Int.ModEq

namespace LoadBalancer

open Transition

section

variable [Platform]

namespace IpHashSelector

/-- The sum of the hash before it wraps around. -/
def hashSum (ep : Endpoint) : Nat :=
  (Platform.hash (Platform.addressToString ep.address)).val * 37 + ep.port.val * 37 * 37

/-- The index that a client has among `n` backends. -/
def index (ep : Endpoint) (n : Nat) : Nat := (computeHash ep).val % n

theorem val_computeHash (ep : Endpoint) : (computeHash ep).val = hashSum ep % 2 ^ 64 := by
  unfold computeHash hashSum HashType.ofNat
  rw [Fin.val_add, Fin.val_mul, Fin.val_ofNat, Fin.val_ofNat]
  omega

theorem index_congr {x y : Endpoint} (haddress : x.address = y.address) (hport : x.port = y.port)
    (n : Nat) : index x n = index y n := by
  unfold index computeHash
  rw [haddress, hport]

/-- Clients with one address whose sums wrap around equally often have the same index exactly
    if the number of backends divides the difference of their sums. -/
theorem index_eq_iff {x y : Endpoint} (haddress : x.address = y.address)
    (hwraps : hashSum x / 2 ^ 64 = hashSum y / 2 ^ 64) (n : Nat) :
    index x n = index y n ↔ (n : Int) ∣ 37 * 37 * ((x.port.val : Int) - y.port.val) := by
  have hdiff : ((hashSum x % 2 ^ 64 : Nat) : Int) - (hashSum y % 2 ^ 64 : Nat) =
      37 * 37 * ((x.port.val : Int) - y.port.val) := by
    have hx := Nat.div_add_mod (hashSum x) (2 ^ 64)
    have hy := Nat.div_add_mod (hashSum y) (2 ^ 64)
    unfold hashSum at hx hy hwraps ⊢
    rw [haddress] at hx hwraps ⊢
    omega
  unfold index
  rw [val_computeHash, val_computeHash, ← hdiff]
  generalize hashSum x % 2 ^ 64 = a
  generalize hashSum y % 2 ^ 64 = b
  rw [← Int.natCast_inj, Int.natCast_mod, Int.natCast_mod]
  exact eq_comm.trans Int.modEq_iff_dvd

theorem selectBackend_eq {s : IpHashSelector} (hne : s.backends ≠ []) (client : Endpoint) :
    ∃ b, s.backends[index client s.backends.length]? = some b ∧
      s.selectBackend client = (.returned b, s) := by
  have hlt : index client s.backends.length < s.backends.length :=
    Nat.mod_lt _ (List.length_pos_iff.mpr hne)
  refine ⟨s.backends[index client s.backends.length], List.getElem?_eq_getElem hlt, ?_⟩
  unfold selectBackend
  rw [if_neg (by simpa using hne)]
  exact congrArg (fun o => (Outcome.access o, s)) (List.getElem?_eq_getElem hlt)

/-- A call drops backends from the vector, or none. -/
theorem sublist_callStep {s : IpHashSelector} {call : Call} {t : Selector}
    (h : Selector.CallStep (.ipHash s) call t) :
    ∃ t', t = .ipHash t' ∧ t'.backends.Sublist s.backends := by
  cases call with
  | select client result =>
      refine ⟨(s.selectBackend client).2, (congrArg Prod.snd h).symm, ?_⟩
      rw [selectBackend_snd]
  | exclude b result => exact ⟨(s.excludeBackend b).2, (congrArg Prod.snd h).symm, List.filter_sublist⟩

theorem sublist_run {s t : IpHashSelector} {calls : List Call}
    (h : Run Selector.CallStep (.ipHash s) calls (.ipHash t)) :
    t.backends.Sublist s.backends := by
  have hrun : ∃ t', Selector.ipHash t = .ipHash t' ∧ t'.backends.Sublist s.backends := by
    refine h.invariant (I := fun u => ∃ u', u = .ipHash u' ∧ u'.backends.Sublist s.backends)
      (fun u call v hu hstep => ?_) ⟨s, rfl, .refl _⟩
    obtain ⟨u', rfl, hsub⟩ := hu
    obtain ⟨v', hv, hsub'⟩ := sublist_callStep hstep
    exact ⟨v', hv, hsub'.trans hsub⟩
  obtain ⟨t', ht, hsub⟩ := hrun
  rw [Selector.ipHash.inj ht]
  exact hsub

/-- In every state after any calls, the index is inside the vector and decides the selection;
    clients with one address are told apart by their ports alone. -/
theorem selectBackend_index {s t : IpHashSelector} {calls : List Call}
    (hrun : Run Selector.CallStep (.ipHash s) calls (.ipHash t)) (hne : t.backends ≠ [])
    {x y : Endpoint} (haddress : x.address = y.address) :
    (∀ client, ∃ b, t.backends[index client t.backends.length]? = some b ∧
      t.selectBackend client = (.returned b, t)) ∧
    (index x t.backends.length = index y t.backends.length →
      (t.selectBackend x).1 = (t.selectBackend y).1) ∧
    (s.backends.Nodup → (t.selectBackend x).1 = (t.selectBackend y).1 →
      index x t.backends.length = index y t.backends.length) ∧
    (x.port = y.port → index x t.backends.length = index y t.backends.length) ∧
    (hashSum x / 2 ^ 64 = hashSum y / 2 ^ 64 →
      (index x t.backends.length = index y t.backends.length ↔
        (t.backends.length : Int) ∣ 37 * 37 * ((x.port.val : Int) - y.port.val))) := by
  obtain ⟨b, hb, hx⟩ := selectBackend_eq hne x
  obtain ⟨b', hb', hy⟩ := selectBackend_eq hne y
  rw [hx, hy]
  refine ⟨selectBackend_eq hne, fun h => ?_, fun hnd h => ?_, fun h => index_congr haddress h _,
    fun h => index_eq_iff haddress h _⟩
  · rw [h, hb'] at hb
    exact congrArg Outcome.returned (Option.some.inj hb).symm
  · obtain rfl := Outcome.returned.inj h
    have hlt : index x t.backends.length < t.backends.length :=
      Nat.mod_lt _ (List.length_pos_iff.mpr hne)
    exact List.getElem?_inj hlt ((sublist_run hrun).nodup hnd) |>.mp (hb.trans hb'.symm)

end IpHashSelector

end

namespace IpHashSelector

section

open Reference

/-- Two endpoints of the local host, and one client with two source ports. -/
def twoHashed : IpHashSelector := ⟨[Selector.port80, Selector.port81]⟩
def firstSource : Endpoint := ⟨localhost, Backend.narrowPort 5000⟩
def secondSource : Endpoint := ⟨localhost, Backend.narrowPort 5002⟩
def oddSource : Endpoint := ⟨localhost, Backend.narrowPort 5001⟩

theorem selectBackend_index_twoHashed :
    (twoHashed.selectBackend firstSource).1 = (twoHashed.selectBackend secondSource).1 := by
  have h := selectBackend_index (s := twoHashed) (t := twoHashed) (.nil _) (by decide)
    (show firstSource.address = secondSource.address from rfl)
  exact h.2.1 ((h.2.2.2.2 (by decide)).mpr (by decide))

/-- The client is sent to one backend from port 5000 and to the other from port 5001. -/
theorem not_sticky_oddSource :
    firstSource.address = oddSource.address ∧
      (twoHashed.selectBackend firstSource).1 = .returned Selector.port80 ∧
      (twoHashed.selectBackend oddSource).1 = .returned Selector.port81 := by
  exact ⟨rfl, by rfl, by rfl⟩

end

end IpHashSelector

end LoadBalancer
