/-
  Failover of many clients over a shared set of candidates.

  Each client repeats: take a live candidate, and if it is refused, make sure that the
  candidate is no longer live before taking the next. Candidates never come back. Other
  clients may take candidates away at any time.

  `tried_nodup`: no client takes the same candidate twice, however the clients interleave; so
  with finitely many candidates it makes finitely many attempts.
-/
import LoadBalancer.Lib.Transition
import Mathlib.Data.List.Nodup
import Mathlib.Data.Set.Basic

namespace Failover

open Transition

variable {ι β : Type*}

inductive Status (β : Type*) where
  | idle
  | trying (candidate : β)
  | done

structure State (ι β : Type*) where
  live : Set β
  status : ι → Status β
  tried : ι → List β

/-- What a step may do to the client that takes it. -/
inductive Move (s t : State ι β) (i : ι) : Prop where
  | take {b : β} (idle : s.status i = .idle) (live : b ∈ s.live) (trying : t.status i = .trying b)
      (tried : t.tried i = s.tried i ++ [b])
  | refused {b : β} (trying : s.status i = .trying b) (gone : b ∉ t.live)
      (idle : t.status i = .idle) (tried : t.tried i = s.tried i)
  | stay (status : t.status i = s.status i) (tried : t.tried i = s.tried i)
  | stop (done : t.status i = .done) (tried : t.tried i = s.tried i)

/-- A step of client `i`; candidates may go away, none comes back. -/
structure Step (s : State ι β) (i : ι) (t : State ι β) : Prop where
  live : t.live ⊆ s.live
  status : ∀ j, j ≠ i → t.status j = s.status j
  tried : ∀ j, j ≠ i → t.tried j = s.tried j
  move : Move s t i

/-- What an idle client has tried is gone; what a trying client has tried before is gone. -/
structure ClientInv (candidates live : Set β) (status : Status β) (tried : List β) : Prop where
  mem : ∀ b ∈ tried, b ∈ candidates
  nodup : tried.Nodup
  idle : status = .idle → ∀ b ∈ tried, b ∉ live
  trying : ∀ b, status = .trying b → ∀ x ∈ tried, x ∈ live → x = b

namespace ClientInv

variable {candidates live live' : Set β} {status : Status β} {tried : List β} {b : β}

theorem new : ClientInv candidates live status [] := by
  refine ⟨?_, List.nodup_nil, ?_, ?_⟩
  all_goals simp

theorem shrink (h : ClientInv candidates live status tried) (hsub : live' ⊆ live) :
    ClientInv candidates live' status tried where
  mem := h.mem
  nodup := h.nodup
  idle hidle b hb hlive := h.idle hidle b hb (hsub hlive)
  trying b hb x hx hlive := h.trying b hb x hx (hsub hlive)

/-- A live candidate is not among those an idle client has tried. -/
theorem take (h : ClientInv candidates live .idle tried) (hlive : b ∈ live)
    (hb : b ∈ candidates) : ClientInv candidates live (.trying b) (tried ++ [b]) := by
  have hnew : b ∉ tried := fun hmem => h.idle rfl b hmem hlive
  refine ⟨?_, ?_, ?_, ?_⟩
  · intro x hx
    rcases List.mem_append.mp hx with hx | hx
    · exact h.mem x hx
    · exact List.mem_singleton.mp hx ▸ hb
  · exact List.Nodup.append h.nodup (List.nodup_singleton b) (List.disjoint_singleton.mpr hnew)
  · intro hidle
    cases hidle
  · intro b' hb' x hx hx'
    cases hb'
    rcases List.mem_append.mp hx with hx | hx
    · exact absurd hx' (h.idle rfl x hx)
    · exact List.mem_singleton.mp hx

theorem refused (h : ClientInv candidates live (.trying b) tried) (hgone : b ∉ live) :
    ClientInv candidates live .idle tried := by
  refine ⟨h.mem, h.nodup, ?_, ?_⟩
  · intro _ x hx hlive
    exact hgone (h.trying b rfl x hx hlive ▸ hlive)
  · intro b' hb'
    cases hb'

theorem stop (h : ClientInv candidates live status tried) :
    ClientInv candidates live .done tried := by
  refine ⟨h.mem, h.nodup, ?_, ?_⟩
  · intro hidle
    cases hidle
  · intro b hb
    cases hb

end ClientInv

structure Inv (candidates : Set β) (s : State ι β) : Prop where
  live : s.live ⊆ candidates
  clients : ∀ i, ClientInv candidates s.live (s.status i) (s.tried i)

theorem inv_step {candidates : Set β} {s t : State ι β} {i : ι} (hs : Inv candidates s)
    (h : Step s i t) : Inv candidates t := by
  refine ⟨h.live.trans hs.live, fun j => ?_⟩
  have hj : ClientInv candidates t.live (s.status j) (s.tried j) := (hs.clients j).shrink h.live
  by_cases hji : j = i
  · subst hji
    cases h.move with
    | @take b idle live trying tried =>
        rw [trying, tried]
        have hold : ClientInv candidates s.live .idle (s.tried j) := idle ▸ hs.clients j
        exact (hold.take live (hs.live live)).shrink h.live
    | refused trying gone idle tried =>
        rw [idle, tried]
        rw [trying] at hj
        exact hj.refused gone
    | stay status tried =>
        rw [status, tried]
        exact hj
    | stop done tried =>
        rw [done, tried]
        exact hj.stop
  · rw [h.status j hji, h.tried j hji]
    exact hj

/-- In every run of clients that have tried nothing, what each one tries is pairwise distinct
    and was live at the start. -/
theorem tried_nodup {s t : State ι β} {is : List ι} (hs : ∀ i, s.tried i = [])
    (hrun : Run Step s is t) (i : ι) : (t.tried i).Nodup ∧ ∀ b ∈ t.tried i, b ∈ s.live := by
  have hinit : Inv s.live s := ⟨fun _ h => h, fun j => by rw [hs j]; exact .new⟩
  have ht : Inv s.live t := hrun.invariant (fun _ _ _ h hstep => inv_step h hstep) hinit
  exact ⟨(ht.clients i).nodup, (ht.clients i).mem⟩

end Failover
