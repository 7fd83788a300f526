import Mathlib
import Suil.Lib.StepMachine
import Suil.Lib.TicketQueue

set_option autoImplicit false

/-! # The lock of the workers

`Lock` (`worker.h`, `worker.cpp`) is two counters in shared memory, from which the processes take
tickets. The processes are of any type; each of them does one atomic step at a time, in any order.
`safe_of_meets` says for which runs the lock excludes and is never lost. -/

namespace Suil.Lock

def UINT64 : Nat := 2 ^ 64

/-- `Lock_t`. -/
structure Lock_t where
  Serving : Nat
  Next : Nat
  On : Nat
  Id : Nat
  deriving DecidableEq, Repr

/-- `Lock::reset`. -/
def Lock_t.reset (id : Nat) : Lock_t := ⟨0, 0, 0x0A, id⟩

/-- `Lock::cancel`. -/
def Lock_t.cancel (lk : Lock_t) : Lock_t := { lk with On := 0x00 }

/-- Where a process is. In `spin_lock` it has its ticket, and what is left to wait: when it has the
ticket only, `tout` is what it was called with; before the loop and behind a comparison that failed,
it is the time at which to give up. -/
inductive Proc where
  | out
  | requested (ticket : Int) (tout : Int)
  | spinning (ticket : Int) (tout : Int)
  | refused (ticket : Int) (tout : Int)
  | holding
  deriving DecidableEq, Repr

/-- The shared memory, the clock and the processes. -/
structure State (ι : Type) where
  lk : Lock_t
  mnow : Int
  procs : ι → Proc

/-- The atomic steps. -/
inductive Act (ι : Type) where
  | request (p : ι) (tout : Int)
  | arm (p : ι)
  | check (p : ι)
  | look (p : ι)
  | unlock (p : ι)
  | tick (n : Nat)
  deriving DecidableEq

/-- The conversion to `int`. -/
def toInt32 (n : Nat) : Int := if n % 2 ^ 32 < 2 ^ 31 then n % 2 ^ 32 else n % 2 ^ 32 - 2 ^ 32

/-- The conversion of an `int` to `uint64_t`. -/
def toUInt64 (n : Int) : Nat := (n % (2 ^ 64 : Int)).toNat

variable {ι : Type} [DecidableEq ι]

/-- Another place for a process. -/
def State.put (s : State ι) (p : ι) (pc : Proc) : State ι :=
  { s with procs := Function.update s.procs p pc }

/-- One step; there is none for a process that is somewhere else. -/
def step (s : State ι) : Act ι → Option (State ι)
  | .request p tout =>
      -- int ticket = __sync_fetch_and_add(&l.Next, 1);
      if s.procs p = .out then
        let lk := { s.lk with Next := (s.lk.Next + 1) % UINT64 }
        some { s.put p (.requested (toInt32 s.lk.Next) tout) with lk := lk }
      else none
  | .arm p =>
      match s.procs p with
      | .requested ticket tout =>
          some (s.put p (.spinning ticket (if tout > 0 then tout + s.mnow else tout)))
      | _ => none
  | .check p =>
      -- l.On && !__sync_bool_compare_and_swap(&l.Serving, ticket, ticket)
      match s.procs p with
      | .spinning ticket tout =>
          some (s.put p
            (if s.lk.On ≠ 0 ∧ s.lk.Serving ≠ toUInt64 ticket then .refused ticket tout
             else .holding))
      | _ => none
  | .look p =>
      -- the call returns false when it is late
      match s.procs p with
      | .refused ticket tout =>
          some (s.put p (if tout > 0 ∧ tout < s.mnow then .out else .spinning ticket tout))
      | _ => none
  | .unlock p =>
      if s.procs p = .holding then
        let lk := { s.lk with Serving := (s.lk.Serving + 1) % UINT64 }
        some { s.put p .out with lk := lk }
      else none
  | .tick n => some { s with mnow := s.mnow + n }

/-- After `Lock::reset`, with everybody outside. -/
def State.new (id : Nat) (now : Int) : State ι := ⟨.reset id, now, fun _ => .out⟩

/-! ## What the lock is for -/

/-- The ticket of a process that waits. -/
def Proc.ticket : Proc → Option Int
  | .requested ticket _ | .spinning ticket _ | .refused ticket _ => some ticket
  | .out | .holding => none

/-- At most one process holds the lock; when none does, the ticket that is served is the next one,
or a process waits with it. -/
structure Safe (s : State ι) : Prop where
  excludes : ∀ p p', s.procs p = .holding → s.procs p' = .holding → p = p'
  served : (∀ p, s.procs p ≠ .holding) →
    s.lk.Serving = s.lk.Next ∨ ∃ p, ∃ t ∈ (s.procs p).ticket, toUInt64 t = s.lk.Serving

/-- The process is about to give up. -/
def late (now : Int) : Proc → Bool
  | .refused _ tout => tout > 0 && tout < now
  | _ => false

/-- Nobody gives up, and there are tickets left that are the same in an `int`. -/
def Meets (s : State ι) : Act ι → Prop
  | .request _ _ => s.lk.Next < 2 ^ 31
  | .look p => late s.mnow (s.procs p) = false
  | _ => True

instance (s : State ι) : (a : Act ι) → Decidable (Meets s a)
  | .request _ _ => inferInstanceAs (Decidable (s.lk.Next < 2 ^ 31))
  | .look p => inferInstanceAs (Decidable (late s.mnow (s.procs p) = false))
  | .arm _ | .check _ | .unlock _ | .tick _ => inferInstanceAs (Decidable True)

/-! ## The tickets are a queue -/

/-- The number that a process has in the queue. -/
def number (serving : Nat) : Proc → Option Nat
  | .holding => some serving
  | pc => pc.ticket.map toUInt64

/-- The lock as a queue. -/
def State.queue (s : State ι) : TicketQueue ι :=
  ⟨s.lk.Serving, s.lk.Next, fun p => number s.lk.Serving (s.procs p)⟩

/-- The lock is on, and its tickets are a valid queue of numbers below `2^31`. -/
structure Inv (s : State ι) : Prop where
  on : s.lk.On ≠ 0
  narrow : s.lk.Next ≤ 2 ^ 31
  valid : s.queue.Valid

omit [DecidableEq ι] in
private theorem inv_new (id : Nat) (now : Int) : Inv (State.new id now : State ι) :=
  ⟨Nat.succ_ne_zero 9, Nat.zero_le _, TicketQueue.valid_new⟩

omit [DecidableEq ι] in
private theorem safe_of_inv {s : State ι} (h : Inv s) : Safe s := by
  constructor
  · intro p p' hp hp'
    apply h.valid.unique p p' s.lk.Serving
    · show number s.lk.Serving (s.procs p) = _
      rw [hp]
      rfl
    · show number s.lk.Serving (s.procs p') = _
      rw [hp']
      rfl
  · intro hfree
    rcases h.valid.served with heq | ⟨p, hp⟩
    · exact .inl heq
    · right
      have hp' : number s.lk.Serving (s.procs p) = some s.lk.Serving := hp
      have hnot := hfree p
      refine ⟨p, ?_⟩
      cases hpc : s.procs p with
      | holding => exact absurd hpc hnot
      | out =>
          rw [hpc] at hp'
          nomatch hp'
      | requested t tout =>
          rw [hpc] at hp'
          exact ⟨t, rfl, Option.some.inj hp'⟩
      | spinning t tout =>
          rw [hpc] at hp'
          exact ⟨t, rfl, Option.some.inj hp'⟩
      | refused t tout =>
          rw [hpc] at hp'
          exact ⟨t, rfl, Option.some.inj hp'⟩

/-- The tickets that are compared with as they are in the counter: the first `2^31`, and the last
ones before it wraps around. -/
theorem toUInt64_toInt32_iff {n : Nat} (h : n < UINT64) :
    toUInt64 (toInt32 n) = n ↔ n < 2 ^ 31 ∨ 2 ^ 64 - 2 ^ 31 ≤ n := by
  unfold UINT64 at h
  unfold toUInt64 toInt32
  split <;> omega

private theorem queue_put {s : State ι} {p : ι} {pc : Proc}
    (h : number s.lk.Serving pc = number s.lk.Serving (s.procs p)) :
    (s.put p pc).queue = s.queue := by
  have hticket : (fun p' => number s.lk.Serving (Function.update s.procs p pc p')) =
      fun p' => number s.lk.Serving (s.procs p') := by
    funext p'
    by_cases hp' : p' = p
    · rw [hp', Function.update_self, h]
    · rw [Function.update_of_ne hp']
  exact congrArg (TicketQueue.mk s.lk.Serving s.lk.Next) hticket

private theorem inv_put {s : State ι} {p : ι} {pc : Proc} (hs : Inv s)
    (h : number s.lk.Serving pc = number s.lk.Serving (s.procs p)) : Inv (s.put p pc) :=
  ⟨hs.on, hs.narrow, by rw [queue_put h]; exact hs.valid⟩

private theorem inv_request {s : State ι} {p : ι} (hs : Inv s) (hp : s.procs p = .out)
    (hnext : s.lk.Next < 2 ^ 31) (tout : Int) :
    Inv { s.put p (.requested (toInt32 s.lk.Next) tout) with
      lk := { s.lk with Next := (s.lk.Next + 1) % UINT64 } } := by
  have hwrap : (s.lk.Next + 1) % UINT64 = s.lk.Next + 1 := by
    unfold UINT64
    omega
  have hnone : s.queue.ticket p = none := by
    show number s.lk.Serving (s.procs p) = none
    rw [hp]
    rfl
  rw [hwrap]
  refine ⟨hs.on, hnext, ?_⟩
  have hqueue : State.queue { s.put p (.requested (toInt32 s.lk.Next) tout) with
      lk := { s.lk with Next := s.lk.Next + 1 } } = s.queue.take p := by
    have hticket : (fun p' => number s.lk.Serving (Function.update s.procs p
        (.requested (toInt32 s.lk.Next) tout) p')) =
        Function.update (fun p' => number s.lk.Serving (s.procs p')) p (some s.lk.Next) := by
      funext p'
      by_cases hp' : p' = p
      · rw [hp', Function.update_self, Function.update_self]
        have hwide : s.lk.Next < UINT64 := by
          unfold UINT64
          omega
        exact congrArg some ((toUInt64_toInt32_iff hwide).mpr (.inl hnext))
      · rw [Function.update_of_ne hp', Function.update_of_ne hp']
    exact congrArg (TicketQueue.mk s.lk.Serving (s.lk.Next + 1)) hticket
  rw [hqueue]
  exact hs.valid.take hnone

private theorem inv_unlock {s : State ι} {p : ι} (hs : Inv s) (hp : s.procs p = .holding) :
    Inv { s.put p .out with lk := { s.lk with Serving := (s.lk.Serving + 1) % UINT64 } } := by
  have hserving : s.lk.Serving ∈ s.queue.ticket p := by
    show number s.lk.Serving (s.procs p) = _
    rw [hp]
    rfl
  have hle := hs.valid.le
  have hnarrow := hs.narrow
  have hwrap : (s.lk.Serving + 1) % UINT64 = s.lk.Serving + 1 := by
    have : s.lk.Serving ≤ s.lk.Next := hle
    unfold UINT64
    omega
  rw [hwrap]
  refine ⟨hs.on, hnarrow, ?_⟩
  have hqueue : State.queue { s.put p .out with
      lk := { s.lk with Serving := s.lk.Serving + 1 } } = s.queue.leave p := by
    have hticket : (fun p' => number (s.lk.Serving + 1) (Function.update s.procs p .out p')) =
        Function.update (fun p' => number s.lk.Serving (s.procs p')) p none := by
      funext p'
      by_cases hp' : p' = p
      · rw [hp', Function.update_self, Function.update_self]
        rfl
      · rw [Function.update_of_ne hp', Function.update_of_ne hp']
        -- nobody else holds the lock, so that all other numbers are those of tickets
        cases hpc : s.procs p' with
        | holding => exact absurd ((safe_of_inv hs).excludes p' p hpc hp) hp'
        | out => rfl
        | requested t tout => rfl
        | spinning t tout => rfl
        | refused t tout => rfl
    exact congrArg (TicketQueue.mk (s.lk.Serving + 1) s.lk.Next) hticket
  rw [hqueue]
  exact hs.valid.leave hserving

/-- Each step keeps the queue, or takes a ticket, or leaves. -/
private theorem step_inv {s s' : State ι} {a : Act ι} (hs : Inv s) (ha : Meets s a)
    (h : step s a = some s') : Inv s' := by
  cases a with
  | request p tout =>
      rw [step] at h
      split at h
      · next hp =>
          cases h
          exact inv_request hs hp ha tout
      · nomatch h
  | arm p =>
      rw [step] at h
      split at h
      · next ticket tout hp =>
          cases h
          exact inv_put hs (by rw [hp]; rfl)
      · nomatch h
  | check p =>
      rw [step] at h
      split at h
      · next ticket tout hp =>
          cases h
          apply inv_put hs
          rw [hp]
          split
          · rfl
          · next hserved =>
              -- the ticket is the one that is served
              have heq : s.lk.Serving = toUInt64 ticket := by
                by_contra hne
                exact hserved ⟨hs.on, hne⟩
              exact congrArg some heq
      · nomatch h
  | look p =>
      rw [step] at h
      rw [Meets] at ha
      split at h
      · next ticket tout hp =>
          -- in a run that meets the condition nobody has waited too long
          rw [hp, late, Bool.and_eq_false_iff, decide_eq_false_iff_not, decide_eq_false_iff_not,
            ← not_and_or] at ha
          cases h
          rw [if_neg ha]
          exact inv_put hs (by rw [hp]; rfl)
      · nomatch h
  | unlock p =>
      rw [step] at h
      split at h
      · next hp =>
          cases h
          exact inv_unlock hs hp
      · nomatch h
  | tick n =>
      cases h
      exact ⟨hs.on, hs.narrow, hs.valid⟩

/-- From a lock that has been reset on, in any order of steps in which nobody gives up and at most
`2^31` tickets are taken, all states are safe. -/
theorem safe_of_meets (id : Nat) (now : Int) (acts : List (Act ι))
    (h : ∀ p ∈ StepMachine.inputs step (State.new id now) acts, Meets p.1 p.2) :
    ∀ s ∈ StepMachine.visited step (State.new id now : State ι) acts, Safe s := by
  intro s hs
  exact safe_of_inv (StepMachine.forall_visited (I := Inv) (M := Meets)
    (fun _ _ _ hI hM hstep => step_inv hI hM hstep) (inv_new id now) h s hs)

/-- Two processes, one of which comes while the other holds the lock. -/
def handover : List (Act (Fin 2)) :=
  [.request 0 (-1), .arm 0, .request 1 50, .arm 1, .check 1, .check 0, .tick 7, .look 1, .unlock 0,
    .check 1, .unlock 1]

theorem safe_handover :
    List.Forall Safe (StepMachine.visited step (State.new 256 0 : State (Fin 2)) handover) :=
  List.forall_iff_forall_mem.mpr (safe_of_meets 256 0 handover (by decide))

/-- The process that comes second gives up. -/
def givesUp : List (Act (Fin 2)) :=
  [.request 0 (-1), .arm 0, .check 0, .request 1 50, .arm 1, .check 1, .tick 51, .look 1, .unlock 0]

/-- When the other one releases the lock, it serves a ticket that nobody has. -/
theorem not_safe_givesUp : ¬ ∀ acts : List (Act (Fin 2)),
    ∀ s ∈ StepMachine.visited step (State.new 256 0 : State (Fin 2)) acts, Safe s := by
  intro h
  have hlost : ∃ s ∈ StepMachine.visited step (State.new 256 0 : State (Fin 2)) givesUp,
      s.lk.Serving = 1 ∧ s.lk.Next = 2 ∧ ∀ p, s.procs p = .out := by decide
  obtain ⟨s, hs, hserving, hnext, hout⟩ := hlost
  rcases (h givesUp s hs).served (fun p => by rw [hout]; nofun) with heq | ⟨p, t, ht, -⟩
  · rw [hserving, hnext] at heq
    nomatch heq
  · rw [hout] at ht
    nomatch ht

end Suil.Lock
