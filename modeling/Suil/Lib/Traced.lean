import Mathlib

set_option autoImplicit false

/-! # Computations that leave a trace

`Traced ω ε α` is a computation that ends in a value of type `α` or in an error of type `ε`, and
that leaves a list of events of type `ω` behind in either case. -/

/-- Both parts of a computation without a trace that ends well do. -/
theorem Except.ok_of_bind {ε α β : Type} {x : Except ε α} {f : α → Except ε β} {b : β}
    (h : (x >>= f) = .ok b) : ∃ a, x = .ok a ∧ f a = .ok b := by
  cases x with
  | error e => nomatch h
  | ok a => exact ⟨a, rfl, h⟩

theorem Except.bind_of_ok {ε α β : Type} (a : α) (f : α → Except ε β) :
    ((.ok a : Except ε α) >>= f) = f a := rfl

/-- What happened, and how it ended. -/
structure Traced (ω ε α : Type) where
  log : List ω
  res : Except ε α

namespace Traced

variable {ω ε α β : Type}

/-- One event. -/
def emit (w : ω) : Traced ω ε Unit := ⟨[w], .ok ()⟩

/-- A computation that leaves nothing behind. -/
def lift (r : Except ε α) : Traced ω ε α := ⟨[], r⟩

/-- Nothing happens after an error. -/
def andThen (x : Traced ω ε α) (f : α → Traced ω ε β) : Traced ω ε β :=
  match x.res with
  | .error e => ⟨x.log, .error e⟩
  | .ok a => ⟨x.log ++ (f a).log, (f a).res⟩

instance : Monad (Traced ω ε) where
  pure a := lift (.ok a)
  bind := andThen

theorem bind_of_ok {x : Traced ω ε α} {a : α} (f : α → Traced ω ε β) (h : x.res = .ok a) :
    x >>= f = ⟨x.log ++ (f a).log, (f a).res⟩ := by
  show x.andThen f = _
  rw [andThen, h]

theorem bind_of_error {x : Traced ω ε α} {e : ε} (f : α → Traced ω ε β) (h : x.res = .error e) :
    x >>= f = ⟨x.log, .error e⟩ := by
  show x.andThen f = _
  rw [andThen, h]

/-- How the whole ends is how the parts end. -/
theorem res_bind (x : Traced ω ε α) (f : α → Traced ω ε β) :
    (x >>= f).res = x.res >>= fun a => (f a).res := by
  cases h : x.res with
  | error e => rw [bind_of_error f h]; rfl
  | ok a => rw [bind_of_ok f h]; rfl

@[simp] theorem log_pure (a : α) : (pure a : Traced ω ε α).log = [] := rfl

/-- An event that no part leaves behind is not left behind. -/
theorem notMem_bind {m : Traced ω ε α} {f : α → Traced ω ε β} {w : ω} (hm : w ∉ m.log)
    (hf : ∀ a, w ∉ (f a).log) : w ∉ (m >>= f).log := by
  cases h : m.res with
  | error e =>
      rw [bind_of_error f h]
      exact hm
  | ok a =>
      rw [bind_of_ok f h]
      exact fun hmem => (List.mem_append.mp hmem).elim hm (hf a)

/-- A run that ends well consists of two parts that end well. -/
theorem ok_bind {m : Traced ω ε α} {f : α → Traced ω ε β} {b : β} (h : (m >>= f).res = .ok b) :
    ∃ a, m.res = .ok a ∧ (f a).res = .ok b ∧ (m >>= f).log = m.log ++ (f a).log := by
  cases hm : m.res with
  | error e =>
      rw [bind_of_error f hm] at h
      cases h
  | ok a =>
      rw [bind_of_ok f hm] at h
      exact ⟨a, rfl, h, by rw [bind_of_ok f hm]⟩

end Traced
