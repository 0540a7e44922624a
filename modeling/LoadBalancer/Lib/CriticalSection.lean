/-
  The body of a call that works on a shared object under a mutex.

  `Code σ ρ` is what is left of a call: one access to the object at a time, taking and releasing
  the mutex, and the result. `run` is the call made alone. `Guarded` says that all accesses are
  inside one critical section, at whose end the result is ready; `Balanced` says it of a part
  of such a section. With a recursive mutex a part may contain a section of its own.
-/
import Mathlib.Data.Nat.Notation

namespace Mutex

universe u v

inductive Code (σ : Type u) (ρ : Type v) where
  | done (result : ρ)
  /-- one access: the object after it, and what follows, which depends on the object before it -/
  | access (effect : σ → σ) (next : σ → Code σ ρ)
  | lock (next : Code σ ρ)
  | unlock (next : Code σ ρ)

namespace Code

variable {σ : Type u} {ρ α β : Type v}

def bind : Code σ α → (α → Code σ β) → Code σ β
  | .done a, f => f a
  | .access effect next, f => .access effect fun s => (next s).bind f
  | .lock next, f => .lock (next.bind f)
  | .unlock next, f => .unlock (next.bind f)

instance : Monad (Code σ) where
  pure := .done
  bind := bind

/-- Read a part of the object. -/
def load (f : σ → α) : Code σ α := .access id fun s => .done (f s)

def store (f : σ → σ) : Code σ PUnit := .access f fun _ => .done ⟨⟩

/-- A block with a scoped lock, which is released however the block is left. -/
def scopedLock (body : Code σ ρ) : Code σ ρ := .lock (body.bind fun r => .unlock (.done r))

/-- The result of the call made alone, and the object after it. -/
def run : Code σ ρ → σ → ρ × σ
  | .done r, s => (r, s)
  | .access effect next, s => (next s).run (effect s)
  | .lock next, s => next.run s
  | .unlock next, s => next.run s

@[simp] theorem run_done (r : ρ) (s : σ) : (done r : Code σ ρ).run s = (r, s) := rfl

@[simp] theorem run_pure (r : ρ) (s : σ) : (pure r : Code σ ρ).run s = (r, s) := rfl

@[simp] theorem run_load (f : σ → α) (s : σ) : (load f).run s = (f s, s) := rfl

@[simp] theorem run_store (f : σ → σ) (s : σ) :
    (store f : Code σ PUnit.{v + 1}).run s = (⟨⟩, f s) := rfl

theorem run_bind' (x : Code σ α) (f : α → Code σ β) (s : σ) :
    (x.bind f).run s = (f (x.run s).1).run (x.run s).2 := by
  induction x generalizing s with
  | done a => rfl
  | access effect next ih => exact ih s (effect s)
  | lock next ih => exact ih s
  | unlock next ih => exact ih s

@[simp] theorem run_bind (x : Code σ α) (f : α → Code σ β) (s : σ) :
    (x >>= f).run s = (f (x.run s).1).run (x.run s).2 :=
  run_bind' x f s

@[simp] theorem run_scopedLock (body : Code σ ρ) (s : σ) : (scopedLock body).run s = body.run s :=
  run_bind' body _ s

/-- With the mutex held `depth` times, the rest of the call is one critical section. -/
def Guarded (recursive : Bool) : ℕ → Code σ ρ → Prop
  | depth, .done _ => depth = 0
  | depth, .access _ next => 0 < depth ∧ ∀ s, Guarded recursive depth (next s)
  | depth, .lock next => (recursive = true ∨ depth = 0) ∧ Guarded recursive (depth + 1) next
  | 0, .unlock _ => False
  | 1, .unlock next => ∃ r, next = .done r
  | depth + 2, .unlock next => Guarded recursive (depth + 1) next

/-- A part of a critical section that leaves the mutex as it found it, with `depth` locks of its
    own held. -/
def Balanced (recursive : Bool) : ℕ → Code σ ρ → Prop
  | depth, .done _ => depth = 0
  | depth, .access _ next => ∀ s, Balanced recursive depth (next s)
  | depth, .lock next => recursive = true ∧ Balanced recursive (depth + 1) next
  | 0, .unlock _ => False
  | depth + 1, .unlock next => Balanced recursive depth next

variable {recursive : Bool}

theorem balanced_pure (r : ρ) : Balanced recursive 0 (pure r : Code σ ρ) := rfl

theorem balanced_store (f : σ → σ) : Balanced recursive 0 (store f : Code σ PUnit.{v + 1}) :=
  fun _ => rfl

theorem balanced_load_bind {f : σ → α} {g : α → Code σ β}
    (h : ∀ a, Balanced recursive 0 (g a)) : Balanced recursive 0 (load f >>= g) :=
  fun s => h (f s)

theorem balanced_store_bind {f : σ → σ} {g : PUnit → Code σ β}
    (h : Balanced recursive 0 (g ⟨⟩)) : Balanced recursive 0 (store f >>= g) :=
  fun _ => h

theorem balanced_bind' {x : Code σ α} {f : α → Code σ β} {depth : ℕ}
    (hx : Balanced recursive depth x) (hf : ∀ a, Balanced recursive 0 (f a)) :
    Balanced recursive depth (x.bind f) := by
  induction x generalizing depth with
  | done a =>
      obtain rfl : depth = 0 := hx
      exact hf a
  | access effect next ih => exact fun s => ih s (hx s)
  | lock next ih => exact ⟨hx.1, ih hx.2⟩
  | unlock next ih =>
      cases depth with
      | zero => exact hx.elim
      | succ depth => exact ih hx

theorem balanced_bind {x : Code σ α} {f : α → Code σ β} (hx : Balanced recursive 0 x)
    (hf : ∀ a, Balanced recursive 0 (f a)) : Balanced recursive 0 (x >>= f) :=
  balanced_bind' hx hf

/-- A block with a lock of its own, inside a section of a recursive mutex. -/
theorem balanced_scopedLock {body : Code σ ρ} (h : Balanced true 0 body) :
    Balanced true 0 (scopedLock body) := by
  refine ⟨rfl, ?_⟩
  -- one lock deeper, the block is what is left of it and the release
  suffices hall : ∀ (x : Code σ ρ) depth, Balanced true depth x →
      Balanced true (depth + 1) (x.bind fun r => .unlock (.done r)) from hall body 0 h
  intro x
  induction x with
  | done r =>
      intro depth h
      obtain rfl : depth = 0 := h
      exact rfl
  | access effect next ih => exact fun depth h s => ih s depth (h s)
  | lock next ih => exact fun depth h => ⟨h.1, ih (depth + 1) h.2⟩
  | unlock next ih =>
      intro depth h
      cases depth with
      | zero => exact h.elim
      | succ depth => exact ih depth h

theorem guarded_scopedLock {body : Code σ ρ} (h : Balanced recursive 0 body) :
    Guarded recursive 0 (scopedLock body) := by
  refine ⟨Or.inr rfl, ?_⟩
  suffices hall : ∀ (x : Code σ ρ) depth, Balanced recursive depth x →
      Guarded recursive (depth + 1) (x.bind fun r => .unlock (.done r)) from hall body 0 h
  intro x
  induction x with
  | done r =>
      intro depth h
      obtain rfl : depth = 0 := h
      exact ⟨r, rfl⟩
  | access effect next ih => exact fun depth h => ⟨Nat.succ_pos depth, fun s => ih s depth (h s)⟩
  | lock next ih => exact fun depth h => ⟨Or.inl h.1, ih (depth + 1) h.2⟩
  | unlock next ih =>
      intro depth h
      cases depth with
      | zero => exact h.elim
      | succ depth => exact ih depth h

/-- The result may be turned into another after the section. -/
theorem guarded_map {x : Code σ α} {depth : ℕ} (h : Guarded recursive depth x) (g : α → β) :
    Guarded recursive depth (x >>= fun a => pure (g a)) := by
  change Guarded recursive depth (x.bind fun a => .done (g a))
  induction x generalizing depth with
  | done a => exact h
  | access effect next ih => exact ⟨h.1, fun s => ih s (h.2 s)⟩
  | lock next ih => exact ⟨h.1, ih h.2⟩
  | unlock next ih =>
      match depth with
      | 0 => exact h.elim
      | 1 =>
          obtain ⟨r, rfl⟩ := h
          exact ⟨g r, rfl⟩
      | depth + 2 => exact ih h

theorem guarded_pure (r : ρ) : Guarded recursive 0 (pure r : Code σ ρ) := rfl

end Code

end Mutex
