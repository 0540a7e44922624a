/-
  `WeightedRoundRobinSelector`: weighted entries in descending order of weight, a cursor,
  and the progress of each entry.

  `Inv` says that the cursor is inside the vector, or zero in an empty one; every operation
  keeps it, and under it no operation reads outside the vector except a selection from an
  empty one.
-/
import LoadBalancer.Selectors.Basic
import Mathlib.Data.List.InsertIdx

namespace LoadBalancer

variable [Platform]

structure WeightWrapper where
  backend : Backend
  weight : Nat
  current : Nat

structure WeightedRoundRobinSelector where
  backends : List WeightWrapper
  counter : Nat

namespace WeightedRoundRobinSelector

/-- One entry of `endpoints`: the weight is read before the backend. -/
def readEntry (ep : Node) : Except Exception WeightWrapper := do
  let weight ← Backend.readWeight ep
  let url ← ep.get "url"
  if url.isDefined then
    return ⟨← Backend.ofUrlString (← url.asString), weight, 0⟩
  else
    let ip ← ep.get "ip"
    if ip.isDefined then
      let port ← ep.required "port"
      return ⟨← Backend.ofIp (← ip.asString) (← port.asInt), weight, 0⟩
    else throw (.endpointNotDefined ep)

/-- `weight_compare` -/
def weightCompare (a b : WeightWrapper) : Bool := decide (a.weight > b.weight)

def configure (config : Node) : Except Exception WeightedRoundRobinSelector := do
  let items ← Backend.endpointNodes "Weighted-round-robin endpoints node is missed" config
  return { backends := Platform.sort weightCompare (← items.mapM readEntry), counter := 0 }

def advanceCounter (s : WeightedRoundRobinSelector) : WeightedRoundRobinSelector :=
  match s.backends[s.counter]? with
  | none => s
  | some entry =>
    if entry.current + 1 < entry.weight then
      { s with backends := s.backends.set s.counter { entry with current := entry.current + 1 } }
    else
      { backends := s.backends.set s.counter { entry with current := 0 }
        counter := (s.counter + 1) % s.backends.length }

def selectBackend (s : WeightedRoundRobinSelector) (_notused : Endpoint) :
    Outcome Backend × WeightedRoundRobinSelector :=
  -- the entry is bound by reference, but `AdvanceCounter` writes only its progress
  match s.backends[s.counter]? with
  | none => (.undefined, s)
  | some entry => (.returned entry.backend, s.advanceCounter)

/-- Reset the progress of the entry under the cursor. -/
def resetCurrent (s : WeightedRoundRobinSelector) : Option WeightedRoundRobinSelector :=
  match s.backends[s.counter]? with
  | none => none
  | some entry => some { s with backends := s.backends.set s.counter { entry with current := 0 } }

/-- The loop of `ExcludeBackend`: only the first matching entry is erased. -/
def eraseFirst (s : WeightedRoundRobinSelector) (backend : Backend) :
    Option WeightedRoundRobinSelector :=
  match s.backends.findIdx? fun e => e.backend == backend with
  | none => some s
  | some i => do
    let s ← if i ≠ s.counter then s.resetCurrent else some s
    return { s with backends := s.backends.eraseIdx i }

def excludeBackend (s : WeightedRoundRobinSelector) (backend : Backend) :
    Outcome Unit × WeightedRoundRobinSelector :=
  match s.eraseFirst backend with
  | none => (.undefined, s)
  | some s => (throwIfEmpty s.backends.isEmpty, { s with counter := 0 })

/-- The backends of the entries. -/
def held (s : WeightedRoundRobinSelector) : List Backend :=
  s.backends.map WeightWrapper.backend

/-- The cursor is inside the vector. -/
def Inv (s : WeightedRoundRobinSelector) : Prop :=
  s.counter < s.backends.length ∨ s.backends = []

/-! ## Writing the progress of an entry -/

/-- Progress is no part of what an entry is worth. -/
theorem map_set_current {β : Type} {f : WeightWrapper → β}
    (hf : ∀ e n, f { e with current := n } = f e) {es : List WeightWrapper} {i : Nat}
    {e : WeightWrapper} (he : es[i]? = some e) (n : Nat) :
    (es.set i { e with current := n }).map f = es.map f := by
  obtain ⟨hi, rfl⟩ := List.getElem?_eq_some_iff.mp he
  have hi' : i < (es.map f).length := by simpa using hi
  have hget : f es[i] = (es.map f)[i] := by simp
  rw [List.map_set, hf, hget, List.set_getElem_self]

@[simp] theorem held_advanceCounter (s : WeightedRoundRobinSelector) :
    s.advanceCounter.held = s.held := by
  unfold advanceCounter
  split
  · rfl
  · next entry he =>
    split
    · exact map_set_current (fun _ _ => rfl) he _
    · exact map_set_current (fun _ _ => rfl) he _

theorem inv_advanceCounter {s : WeightedRoundRobinSelector} (hs : s.Inv) :
    s.advanceCounter.Inv := by
  unfold advanceCounter
  split
  · exact hs
  · next entry he =>
    obtain ⟨hlt, -⟩ := List.getElem?_eq_some_iff.mp he
    have hpos : 0 < s.backends.length := by omega
    left
    split
    · simpa using hlt
    · simpa using Nat.mod_lt _ hpos

theorem resetCurrent_eq_some {s t : WeightedRoundRobinSelector} (h : s.resetCurrent = some t) :
    t.held = s.held ∧ t.backends.length = s.backends.length := by
  unfold resetCurrent at h
  split at h
  · cases h
  · next entry he =>
    cases h
    exact ⟨map_set_current (fun _ _ => rfl) he _, by simp⟩

theorem resetCurrent_isSome {s : WeightedRoundRobinSelector}
    (h : s.counter < s.backends.length) : ∃ t, s.resetCurrent = some t := by
  rw [resetCurrent, List.getElem?_eq_getElem h]
  exact ⟨_, rfl⟩

/-! ## Selection -/

@[simp] theorem held_selectBackend (s : WeightedRoundRobinSelector) (client : Endpoint) :
    (s.selectBackend client).2.held = s.held := by
  unfold selectBackend
  split
  · rfl
  · exact held_advanceCounter s

theorem inv_selectBackend {s : WeightedRoundRobinSelector} (hs : s.Inv) (client : Endpoint) :
    (s.selectBackend client).2.Inv := by
  unfold selectBackend
  split
  · exact hs
  · exact inv_advanceCounter hs

theorem mem_of_selectBackend {s : WeightedRoundRobinSelector} (client : Endpoint) {b : Backend}
    (h : (s.selectBackend client).1 = .returned b) : b ∈ s.held := by
  unfold selectBackend at h
  split at h
  · cases h
  · next entry he =>
    cases h
    exact List.mem_map_of_mem (List.mem_of_getElem? he)

theorem selectBackend_returns {s : WeightedRoundRobinSelector} (hs : s.Inv)
    (hne : s.backends ≠ []) (client : Endpoint) :
    ∃ b, (s.selectBackend client).1 = .returned b := by
  have hlt : s.counter < s.backends.length := hs.resolve_right hne
  refine ⟨s.backends[s.counter].backend, ?_⟩
  rw [selectBackend, List.getElem?_eq_getElem hlt]

theorem selectBackend_fst (s : WeightedRoundRobinSelector) (client : Endpoint) :
    (s.selectBackend client).1 = .access s.held[s.counter]? := by
  unfold selectBackend held
  rw [List.getElem?_map]
  cases s.backends[s.counter]? with
  | none => rfl
  | some entry => rfl

/-! ## Exclusion -/

theorem eraseFirst_spec {s : WeightedRoundRobinSelector} (hs : s.Inv) (b : Backend) :
    ∃ t, s.eraseFirst b = some t ∧ t.held = s.held.erase b := by
  have herase : s.held.erase b =
      (s.backends.eraseP fun e => e.backend == b).map WeightWrapper.backend := by
    rw [held, List.erase_eq_eraseP', List.eraseP_map]
    rfl
  rw [herase, List.eraseP_eq_eraseIdx, eraseFirst]
  cases hi : s.backends.findIdx? fun e => e.backend == b with
  | none => exact ⟨s, rfl, rfl⟩
  | some i =>
      obtain ⟨hlt, -⟩ := List.findIdx?_eq_some_iff_getElem.mp hi
      have hcounter : s.counter < s.backends.length :=
        hs.resolve_right (List.ne_nil_of_length_pos (by omega))
      by_cases heq : i = s.counter
      · exact ⟨{ s with backends := s.backends.eraseIdx i }, by simp [heq], rfl⟩
      · obtain ⟨t, ht⟩ := resetCurrent_isSome hcounter
        refine ⟨{ t with backends := t.backends.eraseIdx i }, by simp [heq, ht], ?_⟩
        have hheld : t.backends.map WeightWrapper.backend = s.backends.map WeightWrapper.backend :=
          (resetCurrent_eq_some ht).1
        show (t.backends.eraseIdx i).map _ = (s.backends.eraseIdx i).map _
        rw [← List.eraseIdx_map, hheld, List.eraseIdx_map]

/-- An exclusion erases the first entry of the backend and reports an empty vector. -/
theorem excludeBackend_spec {s : WeightedRoundRobinSelector} (hs : s.Inv) (b : Backend) :
    (s.excludeBackend b).2.held = s.held.erase b ∧ (s.excludeBackend b).2.Inv ∧
      (s.excludeBackend b).1 = throwIfEmpty (s.excludeBackend b).2.backends.isEmpty := by
  obtain ⟨t, ht, hheld⟩ := eraseFirst_spec hs b
  rw [excludeBackend, ht]
  refine ⟨hheld, ?_, rfl⟩
  cases hn : t.backends with
  | nil => exact Or.inr hn
  | cons e es => exact Or.inl (by simp [hn])

/-! ## Configuration -/

/-- An accepted entry names the backend that the other selectors would read from it. -/
theorem ofNode_of_readEntry {ep : Node} {e : WeightWrapper} (h : readEntry ep = .ok e) :
    Backend.ofNode ep = .ok e.backend := by
  obtain ⟨weight, -, h⟩ := Except.bind_eq_ok.mp h
  obtain ⟨url, hurl, h⟩ := Except.bind_eq_ok.mp h
  refine Except.bind_eq_ok.mpr ⟨url, hurl, ?_⟩
  split at h
  · next hdef =>
    rw [if_pos hdef]
    obtain ⟨text, htext, h⟩ := Except.bind_eq_ok.mp h
    obtain ⟨b, hb, h⟩ := Except.bind_eq_ok.mp h
    rw [Except.pure_eq_ok] at h
    exact h ▸ Except.bind_eq_ok.mpr ⟨text, htext, hb⟩
  · next hdef =>
    rw [if_neg hdef]
    obtain ⟨ip, hip, h⟩ := Except.bind_eq_ok.mp h
    split at h
    · next hipdef =>
      obtain ⟨port, hport, h⟩ := Except.bind_eq_ok.mp h
      obtain ⟨address, haddress, h⟩ := Except.bind_eq_ok.mp h
      obtain ⟨number, hnumber, h⟩ := Except.bind_eq_ok.mp h
      obtain ⟨b, hb, h⟩ := Except.bind_eq_ok.mp h
      rw [Except.pure_eq_ok] at h
      have hrequired : ep.required "ip" = .ok ip :=
        Except.bind_eq_ok.mpr ⟨ip, hip, if_pos hipdef⟩
      exact h ▸ Except.bind_eq_ok.mpr ⟨ip, hrequired, Except.bind_eq_ok.mpr ⟨port, hport,
        Except.bind_eq_ok.mpr ⟨address, haddress, Except.bind_eq_ok.mpr ⟨number, hnumber, hb⟩⟩⟩⟩
    · cases h

theorem configure_eq_ok {config : Node} {s : WeightedRoundRobinSelector}
    (h : configure config = .ok s) : s.counter = 0 ∧
      ∃ es, configuredBackends "Weighted-round-robin endpoints node is missed" config =
          .ok (es.map WeightWrapper.backend) ∧
        s.backends = Platform.sort weightCompare es := by
  obtain ⟨items, hitems, h⟩ := Except.bind_eq_ok.mp h
  obtain ⟨es, hes, h⟩ := Except.bind_eq_ok.mp h
  rw [Except.pure_eq_ok] at h
  subst h
  have hbs : items.mapM Backend.ofNode = .ok (es.map WeightWrapper.backend) := by
    rw [Except.mapM_eq_ok, List.forall₂_map_right_iff]
    exact (Except.mapM_eq_ok.mp hes).imp fun _ _ he => ofNode_of_readEntry he
  exact ⟨rfl, es, Except.bind_eq_ok.mpr ⟨items, hitems, hbs⟩, rfl⟩

theorem inv_configure {config : Node} {s : WeightedRoundRobinSelector}
    (h : configure config = .ok s) : s.Inv := by
  obtain ⟨hcounter, -⟩ := configure_eq_ok h
  unfold Inv
  cases hn : s.backends with
  | nil => exact Or.inr rfl
  | cons e es => exact Or.inl (by simp [hcounter])

/-- The configured vector is a permutation of the endpoints. -/
theorem held_configure [LawfulSort] {config : Node} {s : WeightedRoundRobinSelector}
    (h : configure config = .ok s) :
    ∃ bs, configuredBackends "Weighted-round-robin endpoints node is missed" config = .ok bs ∧
      s.held.Perm bs := by
  obtain ⟨-, es, hbs, hsort⟩ := configure_eq_ok h
  refine ⟨_, hbs, ?_⟩
  rw [held, hsort]
  exact (LawfulSort.sort_perm _ _).map _

end WeightedRoundRobinSelector

end LoadBalancer
