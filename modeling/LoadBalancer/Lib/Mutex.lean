/-
  Threads that share one object under a mutex.

  An event takes a thread from one local state to the next, or makes it call the object and go on
  with the result (`Program.next`). In `coarse` a call is one step. In `fine` it runs its body, one
  access at a time, while the other threads run too; `acts` is not possible for a thread that
  waits for the mutex.

  `refines`: a run of `fine` is matched by a run of `coarse` that makes each call where its thread
  gives the mutex back. `reached_iff`: where no call is going on, both reach the same states.
  `completes`: no call is ever stuck. `owner_of_access`: the object is accessed under the mutex
  only.
-/
import LoadBalancer.Lib.CriticalSection
import LoadBalancer.Lib.Transition

namespace Mutex

open Transition

variable {σ τ Local Event New Op ρ : Type*}

/-- What the threads do, what the object is for (`call`) and how its calls are made (`body`). -/
structure Program (σ τ Local Event New Op ρ : Type*) where
  new : New → Local
  next : Local → Event → Option (Local ⊕ (Op × (ρ → Local)))
  call : Op → τ → ρ × τ
  body : Op → Code σ ρ
  abs : σ → τ
  recursive : Bool
  guarded : ∀ op, (body op).Guarded recursive 0
  meaning : ∀ op s, (((body op).run s).1, abs ((body op).run s).2) = call op (abs s)

structure Coarse (τ Local : Type*) where
  shared : τ
  threads : List Local

inductive CoarseEvent (Event New : Type*) where
  | spawns (n : New)
  | steps (t : ℕ) (e : Event)

/-- A call that is going on: how its thread goes on with the result, and what is left of it. -/
structure Call (σ Local Op ρ : Type*) where
  op : Op
  next : ρ → Local
  code : Code σ ρ

structure Fine (σ Local Op ρ : Type*) where
  shared : σ
  /-- the thread that holds the mutex, and how often it locked it -/
  owner : Option (ℕ × ℕ)
  threads : List (Local × Option (Call σ Local Op ρ))

/-- No thread is in a call. -/
def Fine.Quiet (x : Fine σ Local Op ρ) : Prop := ∀ p ∈ x.threads, p.2 = none

/-- A thread, the object and the mutex are replaced. -/
def Fine.put (x : Fine σ Local Op ρ) (s : σ) (owner : Option (ℕ × ℕ)) (t : ℕ)
    (p : Local × Option (Call σ Local Op ρ)) : Fine σ Local Op ρ :=
  { shared := s, owner := owner, threads := x.threads.set t p }

theorem Fine.put_put (x : Fine σ Local Op ρ) {s s' : σ} {owner owner' : Option (ℕ × ℕ)} {t : ℕ}
    {p p' : Local × Option (Call σ Local Op ρ)} :
    (x.put s owner t p).put s' owner' t p' = x.put s' owner' t p' := by
  unfold Fine.put
  rw [List.set_set]

theorem Fine.put_self {x : Fine σ Local Op ρ} {s : σ} {owner : Option (ℕ × ℕ)} {t : ℕ}
    {p p' : Local × Option (Call σ Local Op ρ)} (hp : x.threads[t]? = some p) :
    (x.put s owner t p').threads[t]? = some p' := by
  obtain ⟨hlt, -⟩ := List.getElem?_eq_some_iff.mp hp
  exact List.getElem?_set_self hlt

inductive FineEvent (Event New : Type*) where
  | spawns (n : New)
  /-- a thread that is in no call takes an event -/
  | begins (t : ℕ) (e : Event)
  /-- the next access, lock or unlock of a call -/
  | acts (t : ℕ)
  /-- a call returns to its thread -/
  | ends (t : ℕ)

/-- The events of calls that are going on. -/
def FineEvent.continues : FineEvent Event New → Bool
  | .acts _ | .ends _ => true
  | .spawns _ | .begins _ _ => false

/-- `lock` by thread `t`, where it does not have to wait. -/
def lockedBy (recursive : Bool) (t : ℕ) : Option (ℕ × ℕ) → Option (Option (ℕ × ℕ))
  | none => some (some (t, 1))
  | some (u, n) => if u = t ∧ recursive = true then some (some (t, n + 1)) else none

/-- `unlock` by thread `t`, which holds the mutex. -/
def unlockedBy (t : ℕ) : Option (ℕ × ℕ) → Option (Option (ℕ × ℕ))
  | some (u, 1) => if u = t then some none else none
  | some (u, n + 2) => if u = t then some (some (t, n + 1)) else none
  | _ => none

namespace Program

variable (P : Program σ τ Local Event New Op ρ)

def coarse (y : Coarse τ Local) : CoarseEvent Event New → Option (Coarse τ Local)
  | .spawns n => some { y with threads := y.threads ++ [P.new n] }
  | .steps t e =>
    match y.threads[t]? with
    | none => none
    | some l =>
      match P.next l e with
      | none => none
      | some (.inl l') => some { y with threads := y.threads.set t l' }
      | some (.inr (op, next)) =>
        some { shared := (P.call op y.shared).2
               threads := y.threads.set t (next (P.call op y.shared).1) }

/-- The next action of a call. -/
def act (x : Fine σ Local Op ρ) (t : ℕ) (l : Local) (call : Call σ Local Op ρ) :
    Option (Fine σ Local Op ρ) :=
  match call.code with
  | .done _ => none
  | .access effect next =>
    some { x with
      shared := effect x.shared
      threads := x.threads.set t (l, some { call with code := next x.shared }) }
  | .lock next =>
    (lockedBy P.recursive t x.owner).map fun owner =>
      { x with owner := owner, threads := x.threads.set t (l, some { call with code := next }) }
  | .unlock next =>
    (unlockedBy t x.owner).map fun owner =>
      { x with owner := owner, threads := x.threads.set t (l, some { call with code := next }) }

def fine (x : Fine σ Local Op ρ) : FineEvent Event New → Option (Fine σ Local Op ρ)
  | .spawns n => some { x with threads := x.threads ++ [(P.new n, none)] }
  | .begins t e =>
    match x.threads[t]? with
    | some (l, none) =>
      match P.next l e with
      | none => none
      | some (.inl l') => some { x with threads := x.threads.set t (l', none) }
      | some (.inr (op, next)) =>
        some { x with threads := x.threads.set t (l, some ⟨op, next, P.body op⟩) }
    | _ => none
  | .acts t =>
    match x.threads[t]? with
    | some (l, some call) => P.act x t l call
    | _ => none
  | .ends t =>
    match x.threads[t]? with
    | some (_, some call) =>
      match call.code with
      | .done r => some { x with threads := x.threads.set t (call.next r, none) }
      | _ => none
    | _ => none

/-- The threads and the object, where no call is going on. -/
def atRest (x : Fine σ Local Op ρ) : Coarse τ Local :=
  { shared := P.abs x.shared, threads := x.threads.map Prod.fst }

/-! ## The simulation -/

/-- A thread of `fine` and the same thread of `coarse`, where the mutex has an owner and the two
    objects are `s` and `shared`. -/
inductive Matches (owner : Option (ℕ × ℕ)) (s : σ) (shared : τ) (t : ℕ) :
    Local × Option (Call σ Local Op ρ) → Local → Prop where
  | outside {l : Local} (waits : ∀ n, owner ≠ some (t, n)) : Matches owner s shared t (l, none) l
  /-- the call has begun and is still to be made -/
  | begun {l : Local} {call : Call σ Local Op ρ} {e : Event}
      (asked : P.next l e = some (.inr (call.op, call.next))) (waits : ∀ n, owner ≠ some (t, n))
      (code : call.code = P.body call.op) : Matches owner s shared t (l, some call) l
  /-- the call is in its critical section, and what is left of it ends as the call does -/
  | inside {l : Local} {call : Call σ Local Op ρ} {e : Event} {n : ℕ}
      (asked : P.next l e = some (.inr (call.op, call.next))) (owns : owner = some (t, n))
      (positive : 0 < n) (guarded : call.code.Guarded P.recursive n)
      (result : ((call.code.run s).1, P.abs (call.code.run s).2) = P.call call.op shared) :
      Matches owner s shared t (l, some call) l
  /-- the call is made and its result is on the way -/
  | finished {l : Local} {call : Call σ Local Op ρ} {r : ρ} (waits : ∀ n, owner ≠ some (t, n))
      (code : call.code = .done r) : Matches owner s shared t (l, some call) (call.next r)

structure Represents (x : Fine σ Local Op ρ) (y : Coarse τ Local) : Prop where
  length : x.threads.length = y.threads.length
  threads : ∀ (t : ℕ) p l, x.threads[t]? = some p → y.threads[t]? = some l →
    P.Matches x.owner x.shared y.shared t p l
  held : ∀ t n, x.owner = some (t, n) → t < x.threads.length
  range : ∃ s, y.shared = P.abs s
  free : x.owner = none → y.shared = P.abs x.shared

variable {P}

/-- A thread that does not hold the mutex does not look at the object. -/
theorem Matches.other {owner owner' : Option (ℕ × ℕ)} {s s' : σ} {shared shared' : τ} {t : ℕ}
    {p : Local × Option (Call σ Local Op ρ)} {l : Local}
    (h : P.Matches owner s shared t p l) (hwaits : ∀ n, owner ≠ some (t, n))
    (hwaits' : ∀ n, owner' ≠ some (t, n)) : P.Matches owner' s' shared' t p l := by
  cases h with
  | outside => exact .outside hwaits'
  | begun asked _ code => exact .begun asked hwaits' code
  | inside _ owns => exact absurd owns (hwaits _)
  | finished _ code => exact .finished hwaits' code

/-- Replacing one thread in both. -/
theorem Represents.set {x : Fine σ Local Op ρ} {y : Coarse τ Local} (h : P.Represents x y)
    {t : ℕ} {p' : Local × Option (Call σ Local Op ρ)} {l' : Local} {s' : σ}
    {owner' : Option (ℕ × ℕ)} {shared' : τ}
    (hthread : P.Matches owner' s' shared' t p' l')
    (hothers : ∀ u p l, u ≠ t → P.Matches x.owner x.shared y.shared u p l →
      P.Matches owner' s' shared' u p l)
    (hheld : ∀ u n, owner' = some (u, n) → u < x.threads.length)
    (hrange : ∃ s, shared' = P.abs s) (hfree : owner' = none → shared' = P.abs s') :
    P.Represents { shared := s', owner := owner', threads := x.threads.set t p' }
      { shared := shared', threads := y.threads.set t l' } where
  length := by simp [h.length]
  threads := by
    intro u p l hp hl
    by_cases hu : t = u
    · subst hu
      obtain ⟨hlt, -⟩ := List.getElem?_eq_some_iff.mp hp
      obtain ⟨hlt', -⟩ := List.getElem?_eq_some_iff.mp hl
      rw [List.length_set] at hlt hlt'
      obtain rfl := Option.some.inj ((List.getElem?_set_self hlt).symm.trans hp)
      obtain rfl := Option.some.inj ((List.getElem?_set_self hlt').symm.trans hl)
      exact hthread
    · have hp' : x.threads[u]? = some p := (List.getElem?_set_ne hu).symm.trans hp
      have hl' : y.threads[u]? = some l := (List.getElem?_set_ne hu).symm.trans hl
      exact hothers u p l (Ne.symm hu) (h.threads u p l hp' hl')
  held := by
    intro u n hu
    rw [List.length_set]
    exact hheld u n hu
  range := hrange
  free := hfree

/-- The thread of `coarse` for a thread of `fine`. -/
theorem Represents.thread {x : Fine σ Local Op ρ} {y : Coarse τ Local} (h : P.Represents x y)
    {t : ℕ} {p : Local × Option (Call σ Local Op ρ)} (hp : x.threads[t]? = some p) :
    ∃ l, y.threads[t]? = some l ∧ y.threads.set t l = y.threads ∧
      P.Matches x.owner x.shared y.shared t p l := by
  obtain ⟨hlt, -⟩ := List.getElem?_eq_some_iff.mp hp
  have hlt' : t < y.threads.length := h.length ▸ hlt
  have hl := List.getElem?_eq_getElem hlt'
  exact ⟨_, hl, List.set_getElem_self hlt', h.threads t p _ hp hl⟩

/-- The step of a thread that leaves the mutex and the object alone. -/
theorem Represents.set_quiet {x : Fine σ Local Op ρ} {y : Coarse τ Local} (h : P.Represents x y)
    {t : ℕ} {p' : Local × Option (Call σ Local Op ρ)} {l' : Local}
    (hthread : P.Matches x.owner x.shared y.shared t p' l') :
    P.Represents { x with threads := x.threads.set t p' }
      { y with threads := y.threads.set t l' } :=
  h.set hthread (fun _ _ _ _ hu => hu) h.held h.range h.free

/-- An action of a thread that takes, holds or gives back the mutex. -/
theorem Represents.set_owner {x : Fine σ Local Op ρ} {y : Coarse τ Local} (h : P.Represents x y)
    {t : ℕ} (ht : t < x.threads.length) {p' : Local × Option (Call σ Local Op ρ)} {l' : Local}
    {s' : σ} {owner' : Option (ℕ × ℕ)} {shared' : τ}
    (hthread : P.Matches owner' s' shared' t p' l')
    (howner : ∀ u n, x.owner = some (u, n) → u = t)
    (howner' : ∀ u n, owner' = some (u, n) → u = t)
    (hrange : ∃ s, shared' = P.abs s) (hfree : owner' = none → shared' = P.abs s') :
    P.Represents { shared := s', owner := owner', threads := x.threads.set t p' }
      { shared := shared', threads := y.threads.set t l' } := by
  refine h.set hthread (fun u p l hne hmatch => ?_) (fun u n hu => ?_) hrange hfree
  · exact hmatch.other (fun n hn => hne (howner u n hn)) (fun n hn => hne (howner' u n hn))
  · rw [howner' u n hu]
    exact ht

/-- The first action of a call takes the mutex. -/
theorem Represents.takes {x x' : Fine σ Local Op ρ} {y : Coarse τ Local} (h : P.Represents x y)
    {t : ℕ} {l : Local} {call : Call σ Local Op ρ} {e : Event} (hlt : t < x.threads.length)
    (asked : P.next l e = some (.inr (call.op, call.next))) (waits : ∀ n, x.owner ≠ some (t, n))
    (hcode : call.code = P.body call.op) (hact : P.act x t l call = some x') :
    P.Represents x' { y with threads := y.threads.set t l } := by
  obtain ⟨op, next, code⟩ := call
  have hguarded := P.guarded op
  simp only at hcode
  rw [← hcode] at hguarded
  cases code with
  | done r => cases hact
  | access effect rest => exact absurd hguarded.1 (Nat.lt_irrefl 0)
  | unlock rest => exact hguarded.elim
  | lock rest =>
      simp only [act] at hact
      cases howner : x.owner with
      | some held =>
          obtain ⟨u, n⟩ := held
          rw [howner] at hact
          have hu : u ≠ t := fun heq => waits n (heq ▸ howner)
          simp [lockedBy, hu] at hact
      | none =>
          rw [howner] at hact
          obtain rfl := Option.some.inj hact
          refine h.set_owner hlt ?_ (by simp [howner]) ?_ h.range (by simp)
          · refine .inside asked rfl Nat.one_pos hguarded.2 ?_
            rw [h.free howner, ← P.meaning op x.shared, ← hcode]
            rfl
          · intro u n hu
            exact (Prod.mk.inj (Option.some.inj hu)).1.symm

/-- An action inside a critical section changes nothing that `coarse` sees, and where it gives the
    mutex back, `coarse` makes the call. -/
theorem Represents.goes_on {x x' : Fine σ Local Op ρ} {y : Coarse τ Local} (h : P.Represents x y)
    {t : ℕ} {l : Local} {call : Call σ Local Op ρ} {e : Event} {n : ℕ} (hlt : t < x.threads.length)
    (hl : y.threads[t]? = some l) (asked : P.next l e = some (.inr (call.op, call.next)))
    (owns : x.owner = some (t, n)) (positive : 0 < n)
    (guarded : call.code.Guarded P.recursive n)
    (result : ((call.code.run x.shared).1, P.abs (call.code.run x.shared).2) =
      P.call call.op y.shared) (hact : P.act x t l call = some x') :
    P.Represents x' { y with threads := y.threads.set t l } ∨
      ∃ y', P.coarse y (.steps t e) = some y' ∧ P.Represents x' y' := by
  obtain ⟨op, next, code⟩ := call
  have howner : ∀ u m, x.owner = some (u, m) → u = t := by
    intro u m hu
    rw [owns] at hu
    exact (Prod.mk.inj (Option.some.inj hu)).1.symm
  have howned : ∀ m u k, (some (t, m) : Option (ℕ × ℕ)) = some (u, k) → u = t := by
    intro m u k hu
    exact (Prod.mk.inj (Option.some.inj hu)).1.symm
  cases code with
  | done r => exact absurd guarded (Nat.ne_of_gt positive)
  | access effect rest =>
      obtain rfl := Option.some.inj hact
      refine Or.inl (h.set_owner hlt ?_ howner howner h.range ?_)
      · exact .inside asked owns positive (guarded.2 x.shared) result
      · rw [owns]
        exact fun hnone => nomatch hnone
  | lock rest =>
      simp only [act, owns, lockedBy] at hact
      split at hact
      · obtain rfl := Option.some.inj hact
        refine Or.inl (h.set_owner hlt ?_ howner (howned _) h.range (by simp))
        exact .inside asked rfl (Nat.succ_pos n) guarded.2 result
      · cases hact
  | unlock rest =>
      match n with
      | 0 => exact absurd positive (Nat.lt_irrefl 0)
      | 1 =>
          obtain ⟨r, rfl⟩ := guarded
          simp only [act, owns, unlockedBy, if_true, Option.map_some] at hact
          obtain rfl := Option.some.inj hact
          have hshared : (P.call op y.shared).2 = P.abs x.shared :=
            (congrArg Prod.snd result).symm
          have hresult : (P.call op y.shared).1 = r := (congrArg Prod.fst result).symm
          have hfinished : P.Matches none x.shared (P.call op y.shared).2 t
              (l, some ⟨op, next, .done r⟩) (next r) := .finished (by simp) rfl
          refine Or.inr ⟨_, ?_, h.set_owner hlt hfinished howner (by simp)
            ⟨x.shared, hshared⟩ fun _ => hshared⟩
          simp only [coarse, hl, asked, hresult]
      | n + 2 =>
          simp only [act, owns, unlockedBy, if_true, Option.map_some] at hact
          obtain rfl := Option.some.inj hact
          refine Or.inl (h.set_owner hlt ?_ howner (howned _) h.range (by simp))
          exact .inside asked rfl (Nat.succ_pos n) guarded result

theorem represents_act {x x' : Fine σ Local Op ρ} {y : Coarse τ Local} (h : P.Represents x y)
    {t : ℕ} {l : Local} {call : Call σ Local Op ρ} (hp : x.threads[t]? = some (l, some call))
    (hact : P.act x t l call = some x') :
    P.Represents x' y ∨ ∃ e y', P.coarse y (.steps t e) = some y' ∧ P.Represents x' y' := by
  obtain ⟨l₁, hl, hsame, hmatch⟩ := h.thread hp
  obtain ⟨hlt, -⟩ := List.getElem?_eq_some_iff.mp hp
  -- the state of `coarse`, written with its own thread set again
  have hy : P.Represents x' { y with threads := y.threads.set t l₁ } → P.Represents x' y := by
    intro hx'
    rwa [hsame] at hx'
  cases hmatch with
  | begun asked waits hcode => exact Or.inl (hy (h.takes hlt asked waits hcode hact))
  | inside asked owns positive guarded result =>
      rcases h.goes_on hlt hl asked owns positive guarded result hact with hx' | ⟨y', hstep, hx'⟩
      · exact Or.inl (hy hx')
      · exact Or.inr ⟨_, y', hstep, hx'⟩
  | finished waits hcode =>
      simp only [act, hcode] at hact
      cases hact

/-- A new thread, in both. -/
theorem Represents.spawns {x : Fine σ Local Op ρ} {y : Coarse τ Local} (h : P.Represents x y)
    (l : Local) :
    P.Represents { x with threads := x.threads ++ [(l, none)] }
      { y with threads := y.threads ++ [l] } := by
  refine ⟨?_, ?_, ?_, h.range, h.free⟩
  · simp [h.length]
  · intro t p l hp hl
    rcases Nat.lt_or_ge t x.threads.length with hlt | hge
    · rw [List.getElem?_append_left hlt] at hp
      rw [List.getElem?_append_left (h.length ▸ hlt)] at hl
      exact h.threads t p l hp hl
    · rw [List.getElem?_append_right hge] at hp
      rw [List.getElem?_append_right (h.length ▸ hge)] at hl
      have hp' := List.mem_singleton.mp (List.mem_of_getElem? hp)
      have hl' := List.mem_singleton.mp (List.mem_of_getElem? hl)
      subst hp' hl'
      exact .outside fun n hn => absurd (h.held t n hn) (Nat.not_lt.mpr hge)
  · intro t n hn
    rw [List.length_append]
    exact Nat.lt_add_right _ (h.held t n hn)

/-- Where a call ends, `coarse` has made it, or makes it now if it needs no access. -/
theorem Represents.returns {x : Fine σ Local Op ρ} {y : Coarse τ Local} (h : P.Represents x y)
    {t : ℕ} {l : Local} {call : Call σ Local Op ρ} {r : ρ}
    (hp : x.threads[t]? = some (l, some call)) (hcode : call.code = .done r) :
    P.Represents { x with threads := x.threads.set t (call.next r, none) } y ∨
      ∃ e y', P.coarse y (.steps t e) = some y' ∧
        P.Represents { x with threads := x.threads.set t (call.next r, none) } y' := by
  obtain ⟨l₁, hl, hsame, hmatch⟩ := h.thread hp
  cases hmatch with
  | @begun _ _ e asked waits hbody =>
      -- a call that needs no access
      obtain ⟨s, hs⟩ := h.range
      have hmeaning := P.meaning call.op s
      rw [← hbody, hcode, ← hs] at hmeaning
      refine Or.inr ⟨e, { y with threads := y.threads.set t (call.next r) }, ?_,
        h.set_quiet (.outside waits)⟩
      simp only [coarse, hl, asked, ← hmeaning, Code.run_done, ← hs]
  | inside _ _ positive guarded =>
      rw [hcode] at guarded
      exact absurd guarded (Nat.ne_of_gt positive)
  | @finished _ _ r' waits hdone =>
      obtain rfl := Code.done.inj (hcode.symm.trans hdone)
      have hended : P.Matches x.owner x.shared y.shared t (call.next r, none)
          (call.next r) := .outside waits
      have hset := h.set_quiet hended
      rw [hsame] at hset
      exact Or.inl hset

/-- A step of `fine` is a step of `coarse` or none. -/
theorem represents_step {x x' : Fine σ Local Op ρ} {y : Coarse τ Local}
    {e : FineEvent Event New} (h : P.Represents x y) (hstep : P.fine x e = some x') :
    P.Represents x' y ∨ ∃ e' y', P.coarse y e' = some y' ∧ P.Represents x' y' := by
  cases e with
  | spawns n =>
      obtain rfl := Option.some.inj hstep
      exact Or.inr ⟨.spawns n, _, rfl, h.spawns (P.new n)⟩
  | begins t e =>
      simp only [fine] at hstep
      split at hstep
      · next l hp =>
        obtain ⟨l₁, hl, hsame, hmatch⟩ := h.thread hp
        cases hmatch with
        | outside waits =>
            split at hstep
            · cases hstep
            · next l' hnext =>
              obtain rfl := Option.some.inj hstep
              refine Or.inr ⟨.steps t e, { y with threads := y.threads.set t l' }, ?_,
                h.set_quiet (.outside waits)⟩
              simp only [coarse, hl, hnext]
            · next op next hnext =>
              obtain rfl := Option.some.inj hstep
              have hbegun : P.Matches x.owner x.shared y.shared t
                  (l, some ⟨op, next, P.body op⟩) l := .begun hnext waits rfl
              have hset := h.set_quiet hbegun
              rw [hsame] at hset
              exact Or.inl hset
      · cases hstep
  | acts t =>
      simp only [fine] at hstep
      split at hstep
      · next l call hp =>
        rcases represents_act h hp hstep with hsame | ⟨e, y', hy', hnext⟩
        · exact Or.inl hsame
        · exact Or.inr ⟨_, y', hy', hnext⟩
      · cases hstep
  | ends t =>
      simp only [fine] at hstep
      split at hstep
      · next l call hp =>
        split at hstep
        · next r hcode =>
          obtain rfl := Option.some.inj hstep
          rcases h.returns hp hcode with hsame | ⟨e, y', hy', hnext⟩
          · exact Or.inl hsame
          · exact Or.inr ⟨_, y', hy', hnext⟩
        · cases hstep
      · cases hstep

/-! ## Runs -/

variable (P)

def fineInitial (s : σ) : Fine σ Local Op ρ := { shared := s, owner := none, threads := [] }

def coarseInitial (s : σ) : Coarse τ Local := { shared := P.abs s, threads := [] }

theorem represents_initial (s : σ) : P.Represents (fineInitial s) (P.coarseInitial s) where
  length := rfl
  threads := by
    intro t p l hp
    cases hp
  held := by
    intro t n hn
    cases hn
  range := ⟨s, rfl⟩
  free := fun _ => rfl

/-- Every run of threads that share the object under the mutex is matched by one with atomic
    calls. -/
theorem refines {s : σ} {es : List (FineEvent Event New)} {x : Fine σ Local Op ρ}
    (hrun : Run (Steps P.fine) (fineInitial s) es x) :
    ∃ es' y, Run (Steps P.coarse) (P.coarseInitial s) es' y ∧ P.Represents x y := by
  have hsim : ∀ x e x' y, P.Represents x y → Steps P.fine x e x' →
      P.Represents x' y ∨ ∃ e' y', Steps P.coarse y e' y' ∧ P.Represents x' y' :=
    fun x e x' y h hstep => represents_step h hstep
  exact hrun.simulate_rel hsim (P.represents_initial s)

variable {P}

/-- Only the thread that holds the mutex is at an access of the object. -/
theorem Represents.owner_of_access {x : Fine σ Local Op ρ} {y : Coarse τ Local}
    (h : P.Represents x y) {t : ℕ} {l : Local} {call : Call σ Local Op ρ} {effect : σ → σ}
    {next : σ → Code σ ρ} (hp : x.threads[t]? = some (l, some call))
    (hcode : call.code = .access effect next) : ∃ n, x.owner = some (t, n) := by
  obtain ⟨l₁, -, -, hmatch⟩ := h.thread hp
  cases hmatch with
  | begun _ _ hbody =>
      have hguarded := P.guarded call.op
      rw [← hbody, hcode] at hguarded
      exact absurd hguarded.1 (Nat.lt_irrefl 0)
  | inside _ owns => exact ⟨_, owns⟩
  | finished _ hdone =>
      rw [hcode] at hdone
      cases hdone

theorem Represents.free_of_quiet {x : Fine σ Local Op ρ} {y : Coarse τ Local}
    (h : P.Represents x y) (hquiet : x.Quiet) : x.owner = none := by
  cases howner : x.owner with
  | none => rfl
  | some held =>
      obtain ⟨t, n⟩ := held
      obtain ⟨p, hp⟩ : ∃ p, x.threads[t]? = some p :=
        ⟨_, List.getElem?_eq_getElem (h.held t n howner)⟩
      obtain ⟨l, -, -, hmatch⟩ := h.thread hp
      have hnone := hquiet p (List.mem_of_getElem? hp)
      cases hmatch with
      | outside waits => exact absurd howner (waits n)
      | begun => cases hnone
      | inside => cases hnone
      | finished => cases hnone

/-- Where no call is going on, the two states are the same. -/
theorem Represents.eq_of_quiet {x : Fine σ Local Op ρ} {y : Coarse τ Local}
    (h : P.Represents x y) (hquiet : x.Quiet) : y = P.atRest x := by
  have hshared := h.free (h.free_of_quiet hquiet)
  have hthreads : y.threads = x.threads.map Prod.fst := by
    apply List.ext_getElem?
    intro t
    rw [List.getElem?_map]
    cases hp : x.threads[t]? with
    | none =>
        rw [Option.map_none, List.getElem?_eq_none_iff, ← h.length]
        exact List.getElem?_eq_none_iff.mp hp
    | some p =>
        obtain ⟨l, hl, -, hmatch⟩ := h.thread hp
        have hnone := hquiet p (List.mem_of_getElem? hp)
        rw [hl]
        cases hmatch with
        | outside => rfl
        | begun => cases hnone
        | inside => cases hnone
        | finished => cases hnone
  cases y
  simp only at hshared hthreads
  rw [hshared, hthreads]
  rfl

/-! ## Completing a call -/

/-- The mutex is given back at the end of the critical section, with the result that the rest
    of the section has when it is left alone. -/
theorem leaves {x : Fine σ Local Op ρ} {t n : ℕ} {l : Local} {op : Op} {next : ρ → Local}
    {code : Code σ ρ} (howner : x.owner = some (t, n)) (hpositive : 0 < n)
    (hp : x.threads[t]? = some (l, some ⟨op, next, code⟩)) (hguarded : code.Guarded P.recursive n) :
    ∃ k : ℕ, Run (Steps P.fine) x (List.replicate k (.acts t))
      (x.put (code.run x.shared).2 none t (l, some ⟨op, next, .done (code.run x.shared).1⟩)) := by
  induction code generalizing x n with
  | done r => exact absurd hguarded (Nat.ne_of_gt hpositive)
  | access effect rest ih =>
      have hstep : P.fine x (.acts t) = some
          (x.put (effect x.shared) (some (t, n)) t (l, some ⟨op, next, rest x.shared⟩)) := by
        simp only [fine, hp, ← howner]
        rfl
      obtain ⟨k, hk⟩ := ih x.shared rfl hpositive (Fine.put_self hp) (hguarded.2 x.shared)
      rw [Fine.put_put] at hk
      exact ⟨k + 1, .cons hstep hk⟩
  | lock rest ih =>
      -- the mutex is held, so it is a recursive one
      have hrecursive : P.recursive = true := hguarded.1.resolve_right (Nat.ne_of_gt hpositive)
      have hstep : P.fine x (.acts t) = some
          (x.put x.shared (some (t, n + 1)) t (l, some ⟨op, next, rest⟩)) := by
        simp [fine, hp, act, howner, lockedBy, hrecursive, Fine.put]
      obtain ⟨k, hk⟩ := ih rfl (Nat.succ_pos n) (Fine.put_self hp) hguarded.2
      rw [Fine.put_put] at hk
      exact ⟨k + 1, .cons hstep hk⟩
  | unlock rest ih =>
      match n with
      | 0 => exact absurd hpositive (Nat.lt_irrefl 0)
      | 1 =>
          obtain ⟨r, rfl⟩ := hguarded
          have hstep : P.fine x (.acts t) = some
              (x.put x.shared none t (l, some ⟨op, next, .done r⟩)) := by
            simp [fine, hp, act, howner, unlockedBy, Fine.put]
          exact ⟨1, .one hstep⟩
      | n + 2 =>
          have hstep : P.fine x (.acts t) = some
              (x.put x.shared (some (t, n + 1)) t (l, some ⟨op, next, rest⟩)) := by
            simp [fine, hp, act, howner, unlockedBy, Fine.put]
          obtain ⟨k, hk⟩ := ih rfl (Nat.succ_pos n) (Fine.put_self hp) hguarded
          rw [Fine.put_put] at hk
          exact ⟨k + 1, .cons hstep hk⟩

/-- A call whose code is done ends. -/
theorem fine_ends {x : Fine σ Local Op ρ} {t : ℕ} {l : Local} {op : Op} {next : ρ → Local} {r : ρ}
    (hp : x.threads[t]? = some (l, some ⟨op, next, .done r⟩)) :
    P.fine x (.ends t) = some (x.put x.shared x.owner t (next r, none)) := by
  simp only [fine, hp]
  rfl

/-- With the mutex free, a call that begins can be run to its end. -/
theorem performs {x : Fine σ Local Op ρ} {t : ℕ} {l : Local} {op : Op} {next : ρ → Local}
    (hfree : x.owner = none) (hp : x.threads[t]? = some (l, some ⟨op, next, P.body op⟩)) :
    ∃ k : ℕ, Run (Steps P.fine) x (List.replicate k (.acts t) ++ [.ends t])
      (x.put ((P.body op).run x.shared).2 none t (next ((P.body op).run x.shared).1, none)) := by
  have hguarded := P.guarded op
  cases hbody : P.body op with
  | done r =>
      rw [hbody] at hp
      have hstep := P.fine_ends hp
      rw [hfree] at hstep
      exact ⟨0, .one hstep⟩
  | access effect rest =>
      rw [hbody] at hguarded
      exact absurd hguarded.1 (Nat.lt_irrefl 0)
  | unlock rest =>
      rw [hbody] at hguarded
      exact hguarded.elim
  | lock rest =>
      rw [hbody] at hp hguarded
      have hstep : P.fine x (.acts t) = some
          (x.put x.shared (some (t, 1)) t (l, some ⟨op, next, rest⟩)) := by
        simp [fine, hp, act, hfree, lockedBy, Fine.put]
      obtain ⟨k, hk⟩ := leaves rfl Nat.one_pos (Fine.put_self hp) hguarded.2
      rw [Fine.put_put] at hk
      have hput : (x.put (rest.run x.shared).2 none t
          (l, some ⟨op, next, .done (rest.run x.shared).1⟩)).threads[t]? = _ := Fine.put_self hp
      have hlast := P.fine_ends hput
      rw [Fine.put_put] at hlast
      exact ⟨k + 1, .snoc (.cons hstep hk) hlast⟩

theorem continues_acts (t k : ℕ) :
    ∀ e ∈ List.replicate k (.acts t : FineEvent Event New), e.continues = true := by
  intro e he
  rw [List.eq_of_mem_replicate he]
  rfl

theorem continues_ended {es : List (FineEvent Event New)} (hes : ∀ e ∈ es, e.continues = true)
    (t : ℕ) : ∀ e ∈ es ++ [.ends t], e.continues = true := by
  intro e he
  rcases List.mem_append.mp he with he | he
  · exact hes e he
  · rw [List.mem_singleton.mp he]
    rfl

/-- The thread that holds the mutex can act until it gives it back. -/
theorem Represents.freed {x : Fine σ Local Op ρ} {y : Coarse τ Local} (h : P.Represents x y)
    {u n : ℕ} (howner : x.owner = some (u, n)) :
    ∃ k s p, Run (Steps P.fine) x (List.replicate k (.acts u)) (x.put s none u p) := by
  obtain ⟨q, hq⟩ : ∃ q, x.threads[u]? = some q :=
    ⟨_, List.getElem?_eq_getElem (h.held u n howner)⟩
  obtain ⟨l, -, -, hmatch⟩ := h.thread hq
  cases hmatch with
  | outside waits => exact absurd howner (waits n)
  | begun _ waits => exact absurd howner (waits n)
  | finished waits => exact absurd howner (waits n)
  | inside _ owns positive guarded =>
      obtain ⟨k, hk⟩ := leaves owns positive hq guarded
      exact ⟨k, _, _, hk⟩

/-- Whatever the threads are doing, each call can be run to its end without a new call. -/
theorem Represents.completes {x : Fine σ Local Op ρ} {y : Coarse τ Local} (h : P.Represents x y)
    {t : ℕ} {l : Local} {call : Call σ Local Op ρ} (hp : x.threads[t]? = some (l, some call)) :
    ∃ es x', Run (Steps P.fine) x es x' ∧ (∀ e ∈ es, e.continues = true) ∧
      ∃ l', x'.threads[t]? = some (l', none) := by
  obtain ⟨op, next, code⟩ := call
  obtain ⟨l₁, -, -, hmatch⟩ := h.thread hp
  cases hmatch with
  | @finished _ _ r waits hdone =>
      obtain rfl : code = .done r := hdone
      exact ⟨[] ++ [.ends t], _, .one (P.fine_ends hp), continues_ended (by simp) t, _,
        Fine.put_self hp⟩
  | inside _ owns positive guarded =>
      obtain ⟨k, hk⟩ := leaves owns positive hp guarded
      have hput : (x.put (code.run x.shared).2 none t
          (l, some ⟨op, next, .done (code.run x.shared).1⟩)).threads[t]? = _ := Fine.put_self hp
      exact ⟨_, _, .snoc hk (P.fine_ends hput), continues_ended (continues_acts t k) t, _,
        Fine.put_self hput⟩
  | begun _ waits hbody =>
      obtain rfl : code = P.body op := hbody
      cases howner : x.owner with
      | none =>
          obtain ⟨k, hk⟩ := performs howner hp
          exact ⟨_, _, hk, continues_ended (continues_acts t k) t, _, Fine.put_self hp⟩
      | some held =>
          -- the thread in the critical section leaves it first
          obtain ⟨u, n⟩ := held
          have hne : u ≠ t := by
            rintro rfl
            exact waits n howner
          obtain ⟨j, s, q, hj⟩ := h.freed howner
          have hp' : (x.put s none u q).threads[t]? = some (l, some ⟨op, next, P.body op⟩) :=
            (List.getElem?_set_ne hne).trans hp
          obtain ⟨k, hk⟩ := performs rfl hp'
          refine ⟨_, _, hj.append hk, ?_, _, Fine.put_self hp'⟩
          intro e he
          rcases List.mem_append.mp he with he | he
          · exact continues_acts u j e he
          · exact continues_ended (continues_acts t k) t e he

/-! ## The states reached -/

theorem quiet_put {x : Fine σ Local Op ρ} (h : x.Quiet) (s : σ) (owner : Option (ℕ × ℕ)) (t : ℕ)
    (l : Local) : (x.put s owner t (l, none)).Quiet := by
  intro p hp
  rcases List.mem_or_eq_of_mem_set hp with hp | rfl
  · exact h p hp
  · rfl

theorem atRest_put (x : Fine σ Local Op ρ) (s : σ) (owner : Option (ℕ × ℕ)) (t : ℕ) (l : Local) :
    P.atRest (x.put s owner t (l, none)) =
      { shared := P.abs s, threads := (P.atRest x).threads.set t l } := by
  simp only [atRest, Fine.put, List.map_set]

/-- A step with an atomic call is made by running the call alone. -/
theorem realizes_step {x : Fine σ Local Op ρ} (hquiet : x.Quiet) (hfree : x.owner = none)
    {e : CoarseEvent Event New} {y : Coarse τ Local} (hstep : P.coarse (P.atRest x) e = some y) :
    ∃ es x', Run (Steps P.fine) x es x' ∧ x'.Quiet ∧ x'.owner = none ∧ P.atRest x' = y := by
  cases e with
  | spawns n =>
      obtain rfl := Option.some.inj hstep
      refine ⟨[.spawns n], _, .one rfl, ?_, hfree, ?_⟩
      · intro p hp
        rcases List.mem_append.mp hp with hp | hp
        · exact hquiet p hp
        · rw [List.mem_singleton.mp hp]
      · simp [atRest]
  | steps t e =>
      simp only [coarse, atRest, List.getElem?_map] at hstep
      cases hp : x.threads[t]? with
      | none => simp [hp] at hstep
      | some p =>
          obtain ⟨l, running⟩ := p
          obtain rfl : running = none := hquiet _ (List.mem_of_getElem? hp)
          simp only [hp, Option.map_some] at hstep
          split at hstep
          · cases hstep
          · next l' hnext =>
            obtain rfl := Option.some.inj hstep
            have hbegins : P.fine x (.begins t e) = some (x.put x.shared none t (l', none)) := by
              simp only [fine, hp, hnext, ← hfree]
              rfl
            exact ⟨_, _, .one hbegins, quiet_put hquiet _ _ _ _, rfl, atRest_put _ _ _ _ _⟩
          · next op next hnext =>
            obtain rfl := Option.some.inj hstep
            have hbegins : P.fine x (.begins t e) = some
                (x.put x.shared none t (l, some ⟨op, next, P.body op⟩)) := by
              simp only [fine, hp, hnext, ← hfree]
              rfl
            obtain ⟨k, hk⟩ := performs rfl (Fine.put_self hp)
            rw [Fine.put_put] at hk
            refine ⟨_, _, .cons hbegins hk, quiet_put hquiet _ _ _ _, rfl, ?_⟩
            rw [atRest_put, ← P.meaning op x.shared]
            rfl

/-- With no call going on, the threads reach with the mutex what they reach with atomic calls. -/
theorem reached_iff {s : σ} {y : Coarse τ Local} :
    (∃ es, Run (Steps P.coarse) (P.coarseInitial s) es y) ↔
      ∃ es x, Run (Steps P.fine) (fineInitial s) es x ∧ x.Quiet ∧ P.atRest x = y := by
  constructor
  · intro hreached
    obtain ⟨es, hrun⟩ := hreached
    suffices hall : ∃ es x, Run (Steps P.fine) (fineInitial s) es x ∧ x.Quiet ∧
        x.owner = none ∧ P.atRest x = y by
      obtain ⟨es, x, hx, hquiet, -, hy⟩ := hall
      exact ⟨es, x, hx, hquiet, hy⟩
    induction hrun with
    | nil => exact ⟨[], _, .nil _, by simp [Fine.Quiet, fineInitial], rfl, rfl⟩
    | snoc _ hstep ih =>
        obtain ⟨es, x, hx, hquiet, hfree, rfl⟩ := ih
        obtain ⟨fs, x', hx', hquiet', hfree', hy⟩ := realizes_step hquiet hfree hstep
        exact ⟨_, x', hx.append hx', hquiet', hfree', hy⟩
  · intro hreached
    obtain ⟨es, x, hx, hquiet, rfl⟩ := hreached
    obtain ⟨es', y, hy, hrep⟩ := P.refines hx
    rw [hrep.eq_of_quiet hquiet] at hy
    exact ⟨es', hy⟩

end Program

end Mutex
