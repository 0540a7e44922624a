/-
  The selector calls as their threads make them: statement by statement, under the selector's
  mutex.

  A body reads and writes the members of the selector one at a time; a loop that only walks a
  container inside the library is one access. `run_body` says that a body run alone is the call of
  `Selector`, and `guarded_body` that it is one critical section. `LeastConnectionsSelector` needs
  its recursive mutex: `SelectBackend` calls `IncreaseConnectionCount` inside its own section.
-/
import LoadBalancer.Connector.StateNotifier
import LoadBalancer.Lib.CriticalSection

namespace LoadBalancer

open Mutex
open Mutex.Code (load store scopedLock)

variable [Platform]

namespace RoundRobinSelector

def selectBackendBody (_notused : Endpoint) : Code RoundRobinSelector (Outcome Backend) :=
  scopedLock do
    let counter ← load fun s => s.counter
    let size ← load fun s => s.backends.length
    if size = 0 then return .undefined
    else do
      store fun s => { s with counter := (counter + 1) % size }
      let counter ← load fun s => s.counter
      return .access (← load fun s => s.backends[counter]?)

def excludeBackendBody (backend : Backend) : Code RoundRobinSelector (Outcome Unit) :=
  scopedLock do
    store fun s => { s with backends := s.backends.filter fun b => b ≠ backend }
    return throwIfEmpty (← load fun s => s.backends.isEmpty)

theorem run_selectBackendBody (s : RoundRobinSelector) (client : Endpoint) :
    (selectBackendBody client).run s = s.selectBackend client := by
  unfold selectBackendBody selectBackend
  cases hs : s.backends with
  | nil => simp [hs]
  | cons b bs => simp [hs]

theorem run_excludeBackendBody (s : RoundRobinSelector) (b : Backend) :
    (excludeBackendBody b).run s = s.excludeBackend b := by
  simp [excludeBackendBody, excludeBackend]

theorem guarded_selectBackendBody (client : Endpoint) :
    (selectBackendBody client).Guarded false 0 := by
  refine Code.guarded_scopedLock ?_
  refine Code.balanced_load_bind fun counter => Code.balanced_load_bind fun size => ?_
  split
  · exact Code.balanced_pure _
  · exact Code.balanced_store_bind
      (Code.balanced_load_bind fun _ => Code.balanced_load_bind fun _ => Code.balanced_pure _)

theorem guarded_excludeBackendBody (b : Backend) : (excludeBackendBody b).Guarded false 0 :=
  Code.guarded_scopedLock
    (Code.balanced_store_bind (Code.balanced_load_bind fun _ => Code.balanced_pure _))

end RoundRobinSelector

namespace IpHashSelector

def selectBackendBody (clientAddress : Endpoint) : Code IpHashSelector (Outcome Backend) :=
  scopedLock do
    let size ← load fun s => s.backends.length
    if size = 0 then return .undefined
    else return .access (← load fun s => s.backends[(computeHash clientAddress).val % size]?)

def excludeBackendBody (backend : Backend) : Code IpHashSelector (Outcome Unit) :=
  scopedLock do
    store fun s => { backends := s.backends.filter fun b => b ≠ backend }
    return throwIfEmpty (← load fun s => s.backends.isEmpty)

theorem run_selectBackendBody (s : IpHashSelector) (client : Endpoint) :
    (selectBackendBody client).run s = s.selectBackend client := by
  unfold selectBackendBody selectBackend
  cases hs : s.backends with
  | nil => simp [hs]
  | cons b bs => simp [hs]

theorem run_excludeBackendBody (s : IpHashSelector) (b : Backend) :
    (excludeBackendBody b).run s = s.excludeBackend b := by
  simp [excludeBackendBody, excludeBackend]

theorem guarded_selectBackendBody (client : Endpoint) :
    (selectBackendBody client).Guarded false 0 := by
  refine Code.guarded_scopedLock (Code.balanced_load_bind fun size => ?_)
  split
  · exact Code.balanced_pure _
  · exact Code.balanced_load_bind fun _ => Code.balanced_pure _

theorem guarded_excludeBackendBody (b : Backend) : (excludeBackendBody b).Guarded false 0 :=
  Code.guarded_scopedLock
    (Code.balanced_store_bind (Code.balanced_load_bind fun _ => Code.balanced_pure _))

end IpHashSelector

namespace ConsistentHashSelector

open BackendCHTraits (traits)

/-- `SelectNode`: the position found by `lower_bound`, or the first one. -/
def selectBackendBody (client : Endpoint) : Code ConsistentHashSelector (Outcome Backend) :=
  scopedLock do
    if ← load fun s => s.ring.isEmpty then return .thrown Router.noNodes
    else do
      let found ← load fun s => s.ring.ring.successor (traits.getHash (.endpoint client))
      match found with
      | none => return .undefined
      | some entry => return .access (← load fun s => s.ring.deref entry.2)

/-- `EraseNode` -/
def eraseNodeBody (backend : Backend) : Code ConsistentHashSelector Unit := do
  let found ← load fun s => s.ring.ring.find (traits.getHash backend)
  match found with
  | none => return ()
  | some it => do
    store fun s => { ring := s.ring.eraseReplicasOf it }
    store fun s =>
      { ring := { s.ring with
          physicalNodes := s.ring.physicalNodes.filter fun n => n.1 ≠ it } }

def excludeBackendBody (backend : Backend) : Code ConsistentHashSelector (Outcome Unit) :=
  scopedLock do
    eraseNodeBody backend
    return throwIfEmpty (← load fun s => s.ring.isEmpty)

theorem run_selectBackendBody (s : ConsistentHashSelector) (client : Endpoint) :
    (selectBackendBody client).run s = s.selectBackend client := by
  unfold selectBackendBody selectBackend Router.selectNode
  cases hempty : s.ring.isEmpty with
  | true => simp [hempty]
  | false =>
      cases hfound : s.ring.ring.successor (traits.getHash (.endpoint client)) with
      | none => simp [hempty, hfound, Outcome.access]
      | some entry => simp [hempty, hfound]

theorem run_eraseNodeBody (s : ConsistentHashSelector) (b : Backend) :
    (eraseNodeBody b).run s = ((), { ring := s.ring.eraseNode traits b }) := by
  unfold eraseNodeBody Router.eraseNode
  cases hfound : s.ring.ring.find (traits.getHash b) with
  | none => simp [hfound]
  | some it => simp [hfound]

theorem run_excludeBackendBody (s : ConsistentHashSelector) (b : Backend) :
    (excludeBackendBody b).run s = s.excludeBackend b := by
  simp [excludeBackendBody, excludeBackend, run_eraseNodeBody]

theorem guarded_selectBackendBody (client : Endpoint) :
    (selectBackendBody client).Guarded false 0 := by
  refine Code.guarded_scopedLock (Code.balanced_load_bind fun empty => ?_)
  split
  · exact Code.balanced_pure _
  · refine Code.balanced_load_bind fun found => ?_
    cases found with
    | none => exact Code.balanced_pure _
    | some entry => exact Code.balanced_load_bind fun _ => Code.balanced_pure _

theorem guarded_excludeBackendBody (b : Backend) : (excludeBackendBody b).Guarded false 0 := by
  refine Code.guarded_scopedLock (Code.balanced_bind ?_ fun _ => ?_)
  · refine Code.balanced_load_bind fun found => ?_
    cases found with
    | none => exact Code.balanced_pure _
    | some it => exact Code.balanced_store_bind (Code.balanced_store _)
  · exact Code.balanced_load_bind fun _ => Code.balanced_pure _

end ConsistentHashSelector

namespace WeightedRoundRobinSelector

/-- `AdvanceCounter`, which is called with the mutex held. -/
def advanceCounterBody : Code WeightedRoundRobinSelector Unit := do
  let counter ← load fun s => s.counter
  let found ← load fun s => s.backends[counter]?
  match found with
  | none => return ()
  | some entry =>
    if entry.current + 1 < entry.weight then
      store fun s =>
        { s with backends := s.backends.set counter { entry with current := entry.current + 1 } }
    else do
      store fun s => { s with backends := s.backends.set counter { entry with current := 0 } }
      let size ← load fun s => s.backends.length
      store fun s => { s with counter := (counter + 1) % size }

def selectBackendBody (_notused : Endpoint) : Code WeightedRoundRobinSelector (Outcome Backend) :=
  scopedLock do
    let counter ← load fun s => s.counter
    let found ← load fun s => s.backends[counter]?
    match found with
    | none => return .undefined
    | some _ => do
      advanceCounterBody
      -- the backend is read through the reference that was bound before
      let entry ← load fun s => s.backends[counter]?
      return .access (entry.map WeightWrapper.backend)

/-- The loop of `ExcludeBackend` from index `i` on. -/
def excludeLoop (backend : Backend) :
    Nat → Nat → Code WeightedRoundRobinSelector (Outcome Unit)
  | 0, _ => return .returned ()
  | remaining + 1, i => do
    let found ← load fun s => s.backends[i]?
    match found with
    | none => return .returned ()
    | some e =>
      if e.backend = backend then do
        let counter ← load fun s => s.counter
        if i = counter then do
          store fun s => { s with backends := s.backends.eraseIdx i }
          return .returned ()
        else do
          let current ← load fun s => s.backends[counter]?
          match current with
          | none => return .undefined
          | some entry => do
            store fun s =>
              { s with backends := s.backends.set counter { entry with current := 0 } }
            store fun s => { s with backends := s.backends.eraseIdx i }
            return .returned ()
      else excludeLoop backend remaining (i + 1)

def excludeBackendBody (backend : Backend) : Code WeightedRoundRobinSelector (Outcome Unit) :=
  scopedLock do
    let size ← load fun s => s.backends.length
    let result ← excludeLoop backend size 0
    match result with
    | .returned () => do
      store fun s => { s with counter := 0 }
      return throwIfEmpty (← load fun s => s.backends.isEmpty)
    | result => return result

theorem run_advanceCounterBody (s : WeightedRoundRobinSelector) :
    advanceCounterBody.run s = ((), s.advanceCounter) := by
  unfold advanceCounterBody advanceCounter
  cases hfound : s.backends[s.counter]? with
  | none => simp [hfound]
  | some entry =>
      by_cases hlt : entry.current + 1 < entry.weight
      · simp [hfound, hlt]
      · simp [hfound, hlt]

/-- The reference leads to the same backend after `AdvanceCounter`. -/
theorem backend_advanceCounter {s : WeightedRoundRobinSelector} {entry : WeightWrapper}
    (h : s.backends[s.counter]? = some entry) :
    s.advanceCounter.backends[s.counter]?.map WeightWrapper.backend = some entry.backend := by
  obtain ⟨hlt, -⟩ := List.getElem?_eq_some_iff.mp h
  unfold advanceCounter
  rw [h]
  dsimp only
  split
  · rw [List.getElem?_set_self hlt]
    rfl
  · rw [List.getElem?_set_self hlt]
    rfl

theorem run_selectBackendBody (s : WeightedRoundRobinSelector) (client : Endpoint) :
    (selectBackendBody client).run s = s.selectBackend client := by
  unfold selectBackendBody selectBackend
  cases hfound : s.backends[s.counter]? with
  | none => simp [hfound]
  | some entry => simp [hfound, run_advanceCounterBody, backend_advanceCounter hfound]

/-- What the loop does at the index that it stops at. -/
def eraseAt (s : WeightedRoundRobinSelector) (i : Nat) : Option WeightedRoundRobinSelector := do
  let s ← if i ≠ s.counter then s.resetCurrent else some s
  return { s with backends := s.backends.eraseIdx i }

/-- The loop ends at the first entry of the backend, if there is one from `i` on. -/
theorem run_excludeLoop (b : Backend) (s : WeightedRoundRobinSelector) {remaining i : Nat}
    (h : s.backends.length = i + remaining) :
    (excludeLoop b remaining i).run s =
      match (s.backends.drop i).findIdx? fun e => e.backend == b with
      | none => (.returned (), s)
      | some j =>
        match s.eraseAt (i + j) with
        | none => (.undefined, s)
        | some t => (.returned (), t) := by
  induction remaining generalizing i with
  | zero =>
      rw [List.drop_of_length_le (by omega)]
      simp [excludeLoop]
  | succ remaining ih =>
      have hlt : i < s.backends.length := by omega
      have hfound : s.backends[i]? = some s.backends[i] := List.getElem?_eq_getElem hlt
      rw [List.drop_eq_getElem_cons hlt, List.findIdx?_cons]
      by_cases hb : s.backends[i].backend = b
      · by_cases hi : i = s.counter
        · subst hi
          simp [excludeLoop, hfound, hb, eraseAt]
        · cases hcurrent : s.backends[s.counter]? with
          | none => simp [excludeLoop, hfound, hb, hi, hcurrent, eraseAt, resetCurrent]
          | some entry => simp [excludeLoop, hfound, hb, hi, hcurrent, eraseAt, resetCurrent]
      · have hnext := ih (i := i + 1) (by omega)
        simp only [excludeLoop, Code.run_bind, Code.run_load, hfound, if_neg hb, hnext]
        have hne : (s.backends[i].backend == b) = false := by simpa using hb
        rw [hne]
        cases (s.backends.drop (i + 1)).findIdx? fun e => e.backend == b with
        | none => rfl
        | some j => simp [Nat.add_assoc, Nat.add_comm 1 j]

theorem run_excludeBackendBody (s : WeightedRoundRobinSelector) (b : Backend) :
    (excludeBackendBody b).run s = s.excludeBackend b := by
  have hloop := run_excludeLoop b s (i := 0) (Nat.zero_add _).symm
  unfold excludeBackendBody excludeBackend eraseFirst
  rw [List.drop_zero] at hloop
  simp only [Code.run_scopedLock, Code.run_bind, Code.run_load, hloop]
  cases s.backends.findIdx? fun e => e.backend == b with
  | none => simp
  | some j =>
      simp only [Nat.zero_add]
      change _ = match s.eraseAt j with
        | none => (Outcome.undefined, s)
        | some t => (throwIfEmpty t.backends.isEmpty, { t with counter := 0 })
      cases s.eraseAt j with
      | none => simp
      | some t => simp

theorem balanced_advanceCounterBody : advanceCounterBody.Balanced false 0 := by
  refine Code.balanced_load_bind fun counter => Code.balanced_load_bind fun found => ?_
  cases found with
  | none => exact Code.balanced_pure _
  | some entry =>
      dsimp only
      split
      · exact Code.balanced_store _
      · exact Code.balanced_store_bind (Code.balanced_load_bind fun _ => Code.balanced_store _)

theorem guarded_selectBackendBody (client : Endpoint) :
    (selectBackendBody client).Guarded false 0 := by
  refine Code.guarded_scopedLock ?_
  refine Code.balanced_load_bind fun counter => Code.balanced_load_bind fun found => ?_
  cases found with
  | none => exact Code.balanced_pure _
  | some entry =>
      exact Code.balanced_bind balanced_advanceCounterBody fun _ =>
        Code.balanced_load_bind fun _ => Code.balanced_pure _

theorem balanced_excludeLoop (b : Backend) (remaining i : Nat) :
    (excludeLoop b remaining i).Balanced false 0 := by
  induction remaining generalizing i with
  | zero => exact Code.balanced_pure _
  | succ remaining ih =>
      refine Code.balanced_load_bind fun found => ?_
      cases found with
      | none => exact Code.balanced_pure _
      | some e =>
          dsimp only
          split
          · refine Code.balanced_load_bind fun counter => ?_
            split
            · exact Code.balanced_store_bind (Code.balanced_pure _)
            · refine Code.balanced_load_bind fun current => ?_
              cases current with
              | none => exact Code.balanced_pure _
              | some entry =>
                  exact Code.balanced_store_bind (Code.balanced_store_bind (Code.balanced_pure _))
          · exact ih (i + 1)

theorem guarded_excludeBackendBody (b : Backend) : (excludeBackendBody b).Guarded false 0 := by
  refine Code.guarded_scopedLock (Code.balanced_load_bind fun size => ?_)
  refine Code.balanced_bind (balanced_excludeLoop b size 0) fun result => ?_
  cases result with
  | returned u =>
      exact Code.balanced_store_bind (Code.balanced_load_bind fun _ => Code.balanced_pure _)
  | thrown e => exact Code.balanced_pure _
  | undefined => exact Code.balanced_pure _

end WeightedRoundRobinSelector

namespace HeapPool

open MutableHeap Platform

variable {W : Type} {lt : W → W → Bool}

/-- Look an entry up by name, write it through its handle and tell the heap. -/
def updateEntryBody (b : Backend) (f : W → Option (W × HeapUpdate)) :
    Code (HeapPool W lt) (Outcome Unit) :=
  scopedLock do
    let found ← load fun p => p.handlePool b.toString
    match found with
    | none => return .returned ()
    | some handle => do
      let found ← load fun p => find p.backends handle
      match found with
      | none => return .undefined
      | some entry =>
        match f entry with
        | none => return .returned ()
        | some (value, update) => do
          store fun p => { p with backends := set p.backends handle value }
          match update with
          | .increase => store fun p => { p with backends := increase p.backends handle }
          | .decrease => store fun p => { p with backends := decrease p.backends handle }
          return .returned ()

def excludeBackendBody (b : Backend) : Code (HeapPool W lt) (Outcome Unit) :=
  scopedLock do
    let found ← load fun p => p.handlePool b.toString
    match found with
    | none => return .returned ()
    | some handle => do
      let entry ← load fun p => find p.backends handle
      match entry with
      | none => return .undefined
      | some _ => do
        store fun p => { p with backends := erase p.backends handle }
        store fun p => { p with handlePool := Function.update p.handlePool b.toString none }
        return throwIfEmpty (← load fun p => isEmpty p.backends)

theorem run_updateEntryBody (p : HeapPool W lt) (b : Backend)
    (f : W → Option (W × HeapUpdate)) : (updateEntryBody b f).run p = p.updateEntry b f := by
  unfold updateEntryBody updateEntry
  cases hhandle : p.handlePool b.toString with
  | none => simp [hhandle]
  | some handle =>
      cases hentry : find p.backends handle with
      | none => simp [hhandle, hentry]
      | some entry =>
          cases hf : f entry with
          | none => simp [hhandle, hentry, hf]
          | some change =>
              obtain ⟨value, update⟩ := change
              cases update <;> simp [hhandle, hentry, hf]

theorem run_excludeBackendBody (p : HeapPool W lt) (b : Backend) :
    (excludeBackendBody b).run p = p.excludeBackend b := by
  unfold excludeBackendBody excludeBackend
  cases hhandle : p.handlePool b.toString with
  | none => simp [hhandle]
  | some handle =>
      cases hentry : find p.backends handle with
      | none => simp [hhandle, hentry]
      | some entry => simp [hhandle, hentry]

theorem balanced_updateEntry (b : Backend) (f : W → Option (W × HeapUpdate))
    (recursive : Bool) :
    ∃ body : Code (HeapPool W lt) (Outcome Unit), updateEntryBody b f = scopedLock body ∧
      body.Balanced recursive 0 := by
  refine ⟨_, rfl, Code.balanced_load_bind fun found => ?_⟩
  cases found with
  | none => exact Code.balanced_pure _
  | some handle =>
      refine Code.balanced_load_bind fun found => ?_
      cases found with
      | none => exact Code.balanced_pure _
      | some entry =>
          dsimp only
          cases f entry with
          | none => exact Code.balanced_pure _
          | some change =>
              obtain ⟨value, update⟩ := change
              cases update <;>
                exact Code.balanced_store_bind (Code.balanced_store_bind (Code.balanced_pure _))

theorem guarded_updateEntryBody (b : Backend) (f : W → Option (W × HeapUpdate))
    (recursive : Bool) : (updateEntryBody b f : Code (HeapPool W lt) _).Guarded recursive 0 := by
  obtain ⟨body, hbody, hbalanced⟩ := balanced_updateEntry b f recursive
  rw [hbody]
  exact Code.guarded_scopedLock hbalanced

theorem guarded_excludeBackendBody (b : Backend) (recursive : Bool) :
    (excludeBackendBody b : Code (HeapPool W lt) _).Guarded recursive 0 := by
  refine Code.guarded_scopedLock (Code.balanced_load_bind fun found => ?_)
  cases found with
  | none => exact Code.balanced_pure _
  | some handle =>
      refine Code.balanced_load_bind fun entry => ?_
      cases entry with
      | none => exact Code.balanced_pure _
      | some entry =>
          exact Code.balanced_store_bind (Code.balanced_store_bind
            (Code.balanced_load_bind fun _ => Code.balanced_pure _))

end HeapPool

namespace LeastConnectionsSelector

def increaseConnectionCountBody (backend : Backend) :
    Code LeastConnectionsSelector (Outcome Unit) :=
  HeapPool.updateEntryBody backend countUp

def decreaseConnectionCountBody (backend : Backend) :
    Code LeastConnectionsSelector (Outcome Unit) :=
  HeapPool.updateEntryBody backend countDown

/-- The top is read for the result and again for the call, which locks the mutex once more. -/
def selectBackendBody (_notused : Endpoint) : Code LeastConnectionsSelector (Outcome Backend) :=
  scopedLock do
    let result ← load fun s => s.topEntry
    let top ← load fun s => s.topEntry
    match result, top with
    | .returned result, .returned top => do
      let counted ← increaseConnectionCountBody top.b
      match counted with
      | .returned () => return .returned result.b
      | .thrown e => return .thrown e
      | .undefined => return .undefined
    | .thrown e, _ => return .thrown e
    | _, .thrown e => return .thrown e
    | _, _ => return .undefined

theorem run_increaseConnectionCountBody (s : LeastConnectionsSelector) (b : Backend) :
    (increaseConnectionCountBody b).run s = s.increaseConnectionCount b :=
  HeapPool.run_updateEntryBody s b countUp

theorem run_selectBackendBody (s : LeastConnectionsSelector) (client : Endpoint) :
    (selectBackendBody client).run s = s.selectBackend client := by
  unfold selectBackendBody selectBackend
  cases htop : s.topEntry with
  | returned entry =>
      simp only [Code.run_scopedLock, Code.run_bind, Code.run_load, htop,
        run_increaseConnectionCountBody]
      rcases s.increaseConnectionCount entry.b with ⟨result, t⟩
      cases result <;> rfl
  | thrown e => simp [htop]
  | undefined => simp [htop]

theorem guarded_selectBackendBody (client : Endpoint) :
    (selectBackendBody client).Guarded true 0 := by
  refine Code.guarded_scopedLock ?_
  refine Code.balanced_load_bind fun result => Code.balanced_load_bind fun top => ?_
  split
  · next result top =>
    obtain ⟨body, hbody, hbalanced⟩ := HeapPool.balanced_updateEntry top.b countUp true
    refine Code.balanced_bind ?_ fun counted => ?_
    · rw [increaseConnectionCountBody, hbody]
      exact Code.balanced_scopedLock hbalanced
    · cases counted <;> exact Code.balanced_pure _
  · exact Code.balanced_pure _
  · exact Code.balanced_pure _
  · exact Code.balanced_pure _

end LeastConnectionsSelector

namespace LeastResponseTimeSelector

def selectBackendBody (_notused : Endpoint) : Code LeastResponseTimeSelector (Outcome Backend) :=
  scopedLock do
    let top ← load fun s => s.topEntry
    match top with
    | .returned entry => return .returned entry.backend
    | .thrown e => return .thrown e
    | .undefined => return .undefined

def addResponseTimeBody (backend : Backend) (responseTime : Int) :
    Code LeastResponseTimeSelector (Outcome Unit) :=
  HeapPool.updateEntryBody backend (addSample responseTime)

theorem run_selectBackendBody (s : LeastResponseTimeSelector) (client : Endpoint) :
    (selectBackendBody client).run s = s.selectBackend client := by
  unfold selectBackendBody selectBackend
  cases htop : s.topEntry <;> simp [htop]

theorem guarded_selectBackendBody (client : Endpoint) :
    (selectBackendBody client).Guarded false 0 := by
  refine Code.guarded_scopedLock (Code.balanced_load_bind fun top => ?_)
  cases top <;> exact Code.balanced_pure _

end LeastResponseTimeSelector

/-! ## The calls of a selector -/

/-- The selector of a type. -/
def SelectorType.Object : SelectorType → Type
  | .roundRobin => RoundRobinSelector
  | .weightedRoundRobin => WeightedRoundRobinSelector
  | .ipHash => IpHashSelector
  | .consistentHash => ConsistentHashSelector
  | .leastConnections => LeastConnectionsSelector
  | .leastResponseTime => LeastResponseTimeSelector

/-- Behind the interface. -/
def SelectorType.Object.toSelector : {type : SelectorType} → type.Object → Selector
  | .roundRobin, s => .roundRobin s
  | .weightedRoundRobin, s => .weightedRoundRobin s
  | .ipHash, s => .ipHash s
  | .consistentHash, s => .consistentHash s
  | .leastConnections, s => .leastConnections s
  | .leastResponseTime, s => .leastResponseTime s

/-- The type of the selector's mutex: `boost::recursive_mutex` or `boost::mutex`. -/
def SelectorType.recursive : SelectorType → Bool
  | .leastConnections => true
  | _ => false

/-- A call of a selector by a handler. -/
inductive Request where
  | select (client : Endpoint)
  | exclude (backend : Backend)
  | increase (backend : Backend)
  | decrease (backend : Backend)
  | addResponseTime (backend : Backend) (responseTime : Int)

inductive Reply where
  | backend (result : Outcome Backend)
  | done (result : Outcome Unit)

namespace Selector

/-- The call as one step. -/
def call (s : Selector) : Request → Reply × Selector
  | .select client => (s.selectBackend client).map .backend id
  | .exclude b => (s.excludeBackend b).map .done id
  | .increase b => (s.increaseConnectionCount b).map .done id
  | .decrease b => (s.decreaseConnectionCount b).map .done id
  | .addResponseTime b responseTime => (s.addResponseTime b responseTime).map .done id

/-- `SelectBackend` of a type. -/
def selectBody (client : Endpoint) : (type : SelectorType) → Code type.Object (Outcome Backend)
  | .roundRobin => RoundRobinSelector.selectBackendBody client
  | .weightedRoundRobin => WeightedRoundRobinSelector.selectBackendBody client
  | .ipHash => IpHashSelector.selectBackendBody client
  | .consistentHash => ConsistentHashSelector.selectBackendBody client
  | .leastConnections => LeastConnectionsSelector.selectBackendBody client
  | .leastResponseTime => LeastResponseTimeSelector.selectBackendBody client

/-- `ExcludeBackend` of a type. -/
def excludeBody (b : Backend) : (type : SelectorType) → Code type.Object (Outcome Unit)
  | .roundRobin => RoundRobinSelector.excludeBackendBody b
  | .weightedRoundRobin => WeightedRoundRobinSelector.excludeBackendBody b
  | .ipHash => IpHashSelector.excludeBackendBody b
  | .consistentHash => ConsistentHashSelector.excludeBackendBody b
  | .leastConnections => HeapPool.excludeBackendBody b
  | .leastResponseTime => HeapPool.excludeBackendBody b

/-- The calls of the notifications exist for two types only. -/
def increaseBody (b : Backend) : (type : SelectorType) → Code type.Object (Outcome Unit)
  | .leastConnections => LeastConnectionsSelector.increaseConnectionCountBody b
  | _ => return .undefined

def decreaseBody (b : Backend) : (type : SelectorType) → Code type.Object (Outcome Unit)
  | .leastConnections => LeastConnectionsSelector.decreaseConnectionCountBody b
  | _ => return .undefined

def addResponseTimeBody (b : Backend) (responseTime : Int) :
    (type : SelectorType) → Code type.Object (Outcome Unit)
  | .leastResponseTime => LeastResponseTimeSelector.addResponseTimeBody b responseTime
  | _ => return .undefined

def body (type : SelectorType) : Request → Code type.Object Reply
  | .select client => return .backend (← selectBody client type)
  | .exclude b => return .done (← excludeBody b type)
  | .increase b => return .done (← increaseBody b type)
  | .decrease b => return .done (← decreaseBody b type)
  | .addResponseTime b responseTime => return .done (← addResponseTimeBody b responseTime type)

theorem run_selectBody (client : Endpoint) (type : SelectorType) (s : type.Object) :
    ((selectBody client type).run s).map id SelectorType.Object.toSelector =
      s.toSelector.selectBackend client := by
  cases type with
  | roundRobin => exact congrArg _ (RoundRobinSelector.run_selectBackendBody s client)
  | weightedRoundRobin =>
      exact congrArg _ (WeightedRoundRobinSelector.run_selectBackendBody s client)
  | ipHash => exact congrArg _ (IpHashSelector.run_selectBackendBody s client)
  | consistentHash => exact congrArg _ (ConsistentHashSelector.run_selectBackendBody s client)
  | leastConnections =>
      exact congrArg _ (LeastConnectionsSelector.run_selectBackendBody s client)
  | leastResponseTime =>
      exact congrArg _ (LeastResponseTimeSelector.run_selectBackendBody s client)

theorem run_excludeBody (b : Backend) (type : SelectorType) (s : type.Object) :
    ((excludeBody b type).run s).map id SelectorType.Object.toSelector =
      s.toSelector.excludeBackend b := by
  cases type with
  | roundRobin => exact congrArg _ (RoundRobinSelector.run_excludeBackendBody s b)
  | weightedRoundRobin => exact congrArg _ (WeightedRoundRobinSelector.run_excludeBackendBody s b)
  | ipHash => exact congrArg _ (IpHashSelector.run_excludeBackendBody s b)
  | consistentHash => exact congrArg _ (ConsistentHashSelector.run_excludeBackendBody s b)
  | leastConnections => exact congrArg _ (HeapPool.run_excludeBackendBody s b)
  | leastResponseTime => exact congrArg _ (HeapPool.run_excludeBackendBody s b)

theorem run_increaseBody (b : Backend) (type : SelectorType) (s : type.Object) :
    ((increaseBody b type).run s).map id SelectorType.Object.toSelector =
      s.toSelector.increaseConnectionCount b := by
  cases type with
  | leastConnections =>
      exact congrArg _ (LeastConnectionsSelector.run_increaseConnectionCountBody s b)
  | _ => rfl

theorem run_decreaseBody (b : Backend) (type : SelectorType) (s : type.Object) :
    ((decreaseBody b type).run s).map id SelectorType.Object.toSelector =
      s.toSelector.decreaseConnectionCount b := by
  cases type with
  | leastConnections =>
      exact congrArg _ (HeapPool.run_updateEntryBody s b LeastConnectionsSelector.countDown)
  | _ => rfl

theorem run_addResponseTimeBody (b : Backend) (responseTime : Int) (type : SelectorType)
    (s : type.Object) :
    ((addResponseTimeBody b responseTime type).run s).map id SelectorType.Object.toSelector =
      s.toSelector.addResponseTime b responseTime := by
  cases type with
  | leastResponseTime =>
      exact congrArg _
        (HeapPool.run_updateEntryBody s b (LeastResponseTimeSelector.addSample responseTime))
  | _ => rfl

/-- A body run alone is the call in one step. -/
theorem run_body {type : SelectorType} (op : Request) (s : type.Object) :
    (((body type op).run s).1, ((body type op).run s).2.toSelector) = s.toSelector.call op := by
  cases op with
  | select client => simp only [call, body, ← run_selectBody, Code.run_bind, Code.run_pure]; rfl
  | exclude b => simp only [call, body, ← run_excludeBody, Code.run_bind, Code.run_pure]; rfl
  | increase b => simp only [call, body, ← run_increaseBody, Code.run_bind, Code.run_pure]; rfl
  | decrease b => simp only [call, body, ← run_decreaseBody, Code.run_bind, Code.run_pure]; rfl
  | addResponseTime b responseTime => simp only [call, body, ← run_addResponseTimeBody, Code.run_bind, Code.run_pure]; rfl

/-- A body is one critical section of the selector's own mutex, or no access at all. -/
theorem guarded_body (type : SelectorType) (op : Request) :
    (body type op).Guarded type.recursive 0 := by
  cases op with
  | select client =>
      refine Code.guarded_map ?_ _
      cases type with
      | roundRobin => exact RoundRobinSelector.guarded_selectBackendBody client
      | weightedRoundRobin => exact WeightedRoundRobinSelector.guarded_selectBackendBody client
      | ipHash => exact IpHashSelector.guarded_selectBackendBody client
      | consistentHash => exact ConsistentHashSelector.guarded_selectBackendBody client
      | leastConnections => exact LeastConnectionsSelector.guarded_selectBackendBody client
      | leastResponseTime => exact LeastResponseTimeSelector.guarded_selectBackendBody client
  | exclude b =>
      refine Code.guarded_map ?_ _
      cases type with
      | roundRobin => exact RoundRobinSelector.guarded_excludeBackendBody b
      | weightedRoundRobin => exact WeightedRoundRobinSelector.guarded_excludeBackendBody b
      | ipHash => exact IpHashSelector.guarded_excludeBackendBody b
      | consistentHash => exact ConsistentHashSelector.guarded_excludeBackendBody b
      | leastConnections => exact HeapPool.guarded_excludeBackendBody b true
      | leastResponseTime => exact HeapPool.guarded_excludeBackendBody b false
  | increase b =>
      refine Code.guarded_map ?_ _
      cases type with
      | leastConnections =>
          exact HeapPool.guarded_updateEntryBody b LeastConnectionsSelector.countUp true
      | _ => exact Code.guarded_pure _
  | decrease b =>
      refine Code.guarded_map ?_ _
      cases type with
      | leastConnections =>
          exact HeapPool.guarded_updateEntryBody b LeastConnectionsSelector.countDown true
      | _ => exact Code.guarded_pure _
  | addResponseTime b responseTime =>
      refine Code.guarded_map ?_ _
      cases type with
      | leastResponseTime =>
          exact HeapPool.guarded_updateEntryBody b
            (LeastResponseTimeSelector.addSample responseTime) false
      | _ => exact Code.guarded_pure _

end Selector

end LoadBalancer
