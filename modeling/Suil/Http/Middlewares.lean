import Mathlib
import Suil.Http.Response
import Suil.Lib.Traced

set_option autoImplicit false

/-! # Middlewares

`Connection::start` answers a request between the handlers of the middlewares (`connection.h`):
`middleware_call_helper` calls `before` of one after the other until the response is completed, and
calls `after` of those it came through on its way back. `after_handlers_call_helper` calls `after` of
all of them. The types of the middlewares are a template pack, here a list. `unwinds_iff` says when
`after` is called once for the middlewares whose `before` was called, and for no other. -/

namespace Suil.Http.Middlewares

open Traced

variable {R C E : Type}

/-- What the handlers work on: the request, the response and the context of the middlewares. -/
structure Exchange (R C : Type) where
  req : R
  res : Response
  ctx : C

/-- A handler leaves the exchange changed, or it raises. -/
abbrev Handler (R C E : Type) : Type := Exchange R C → Except E (Exchange R C)

structure Middleware (R C E : Type) where
  before : Handler R C E
  after : Handler R C E

/-- The handler of the connection: the router. -/
structure Server (R C E : Type) where
  before : Handler R C E
  handle : Handler R C E

/-- The calls that are made while a request is answered. -/
inductive Call where
  | routerBefore
  | before (n : Nat)
  | handle
  | after (n : Nat)
  deriving DecidableEq, Repr

/-! ## The calls -/

/-- One call, which is made whether or not it raises. -/
def call (w : Call) (h : Handler R C E) (x : Exchange R C) : Traced Call E (Exchange R C) := do
  emit w
  lift (h x)

/-- `middleware_call_helper<N>`, with the middlewares from the `N`-th on. -/
def middleware_call_helper (N : Nat) :
    List (Middleware R C E) → Exchange R C → Traced Call E (Bool × Exchange R C)
  | [], x => pure (false, x)
  | mw :: mws, x => do
      let x ← call (.before N) mw.before x
      if x.res.completed then
        let x ← call (.after N) mw.after x
        pure (true, x)
      else
        let (done, x) ← middleware_call_helper (N + 1) mws x
        if done then
          let x ← call (.after N) mw.after x
          pure (true, x)
        else pure (false, x)

/-- `after_handlers_call_helper<n - 1>`. -/
def after_handlers_call_helper (mws : List (Middleware R C E)) :
    (n : Nat) → n ≤ mws.length → Exchange R C → Traced Call E (Exchange R C)
  | 0, _, x => pure x
  | N + 1, h, x => do
      let x ← call (.after N) mws[N].after x
      after_handlers_call_helper mws N (Nat.le_of_succ_le h) x

/-- The `try` block of `start`. -/
def process (server : Server R C E) (mws : List (Middleware R C E)) (x : Exchange R C) :
    Traced Call E (Exchange R C) := do
  let x ← call .routerBefore server.before x
  let (_, x) ← middleware_call_helper 0 mws x
  let x ← (if !x.res.completed then call .handle server.handle x else pure x)
  after_handlers_call_helper mws mws.length (Nat.le_refl _) x

/-! ## What was called -/

/-- The middlewares whose `before` was called, in the order of the calls. -/
def befores (log : List Call) : List Nat :=
  log.filterMap fun
    | .before n => some n
    | _ => none

/-- The middlewares whose `after` was called, in the order of the calls. -/
def afters (log : List Call) : List Nat :=
  log.filterMap fun
    | .after n => some n
    | _ => none

/-- Some `before` completes the response. -/
def completes : List (Middleware R C E) → Exchange R C → Bool
  | [], _ => false
  | mw :: mws, x =>
      match mw.before x with
      | .error _ => false
      | .ok x => x.res.completed || completes mws x

/-- How many middlewares a request comes to: all up to the one that completes the response. -/
def reached : List (Middleware R C E) → Exchange R C → Nat
  | [], _ => 0
  | mw :: mws, x =>
      match mw.before x with
      | .error _ => 1
      | .ok x => if x.res.completed then 1 else reached mws x + 1

/-- The calls unwind: `before` of the middlewares that the request comes to, in order, and `after` of
the same middlewares in reverse. -/
structure Unwinds (mws : List (Middleware R C E)) (x : Exchange R C) (log : List Call) : Prop where
  before : befores log = List.range (reached mws x)
  after : afters log = (List.range (reached mws x)).reverse

/-! ## The logs -/

@[simp] private theorem befores_append (l l' : List Call) :
    befores (l ++ l') = befores l ++ befores l' := List.filterMap_append

@[simp] private theorem afters_append (l l' : List Call) :
    afters (l ++ l') = afters l ++ afters l' := List.filterMap_append

private theorem ok_call {w : Call} {h : Handler R C E} {x y : Exchange R C}
    (hok : (call w h x).res = .ok y) : h x = .ok y ∧ (call w h x).log = [w] := by
  obtain ⟨u, -, hres, hlog⟩ := ok_bind hok
  exact ⟨hres, hlog⟩

/-- **The calls on the way in and back**: `after` is called on the way back from a completed
response. -/
theorem helper_log (mws : List (Middleware R C E)) (N : Nat) {x y : Exchange R C} {done : Bool}
    (h : (middleware_call_helper N mws x).res = .ok (done, y)) :
    done = completes mws x ∧
      befores (middleware_call_helper N mws x).log = List.range' N (reached mws x) ∧
      afters (middleware_call_helper N mws x).log =
        if done then (List.range' N (reached mws x)).reverse else [] := by
  induction mws generalizing N x y done with
  | nil =>
      cases h
      exact ⟨rfl, rfl, rfl⟩
  | cons mw mws ih =>
      obtain ⟨x₁, hbefore, hrest, hlog⟩ := ok_bind h
      obtain ⟨hx₁, hcall⟩ := ok_call hbefore
      rw [middleware_call_helper, hlog, hcall, completes, reached, hx₁]
      by_cases hdone : x₁.res.completed = true
      · -- the response is completed here
        simp only [if_pos hdone] at hrest ⊢
        obtain ⟨x₂, hafter, hret, hlog₂⟩ := ok_bind hrest
        obtain ⟨-, hcall₂⟩ := ok_call hafter
        cases hret
        rw [hlog₂, hcall₂, hdone]
        exact ⟨rfl, rfl, rfl⟩
      · simp only [if_neg hdone] at hrest ⊢
        obtain ⟨⟨done₂, x₂⟩, hhelper, hret, hlog₂⟩ := ok_bind hrest
        obtain ⟨hdone₂, hbefores, hafters⟩ := ih (N + 1) hhelper
        rw [hlog₂, Bool.eq_false_iff.mpr hdone, Bool.false_or, ← hdone₂]
        cases done₂ with
        | true =>
            -- a later middleware has completed it
            obtain ⟨x₃, hafter, hend, hlog₃⟩ := ok_bind hret
            obtain ⟨-, hcall₃⟩ := ok_call hafter
            cases hend
            simp only [if_pos] at hlog₃ hafters ⊢
            rw [hlog₃, hcall₃]
            simp only [befores_append, afters_append, hbefores, hafters, List.range'_succ,
              List.reverse_cons]
            exact ⟨trivial, by simp [befores, log_pure], by simp [afters, log_pure]⟩
        | false =>
            cases hret
            simp only [befores_append, afters_append, hbefores, hafters, List.range'_succ]
            exact ⟨trivial, by simp [befores, log_pure], by simp [afters, log_pure]⟩

/-- **The calls at the end**: `after` of all the middlewares. -/
theorem after_log (mws : List (Middleware R C E)) (n : Nat) (hn : n ≤ mws.length)
    {x y : Exchange R C} (h : (after_handlers_call_helper mws n hn x).res = .ok y) :
    befores (after_handlers_call_helper mws n hn x).log = [] ∧
      afters (after_handlers_call_helper mws n hn x).log = (List.range n).reverse := by
  induction n generalizing x with
  | zero => exact ⟨rfl, rfl⟩
  | succ N ih =>
      -- the last middleware comes first
      obtain ⟨x₁, hafter, hrest, hlog⟩ := ok_bind h
      obtain ⟨-, hcall⟩ := ok_call hafter
      obtain ⟨hbefores, hafters⟩ := ih (Nat.le_of_succ_le hn) hrest
      rw [after_handlers_call_helper, hlog, hcall, befores_append, afters_append, hbefores, hafters,
        List.range_succ, List.reverse_append]
      exact ⟨rfl, rfl⟩

/-- **All calls of a request.** -/
theorem process_log {server : Server R C E} {mws : List (Middleware R C E)} {x y : Exchange R C}
    (h : (process server mws x).res = .ok y) :
    ∃ x₁, server.before x = .ok x₁ ∧
      befores (process server mws x).log = List.range (reached mws x₁) ∧
      afters (process server mws x).log =
        (if completes mws x₁ then (List.range (reached mws x₁)).reverse else []) ++
          (List.range mws.length).reverse := by
  obtain ⟨x₁, hrouter, hrest, hlog⟩ := ok_bind h
  obtain ⟨hx₁, hcall⟩ := ok_call hrouter
  obtain ⟨⟨done, x₂⟩, hhelper, hrest₂, hlog₂⟩ := ok_bind hrest
  obtain ⟨hdone, hbefores, hafters⟩ := helper_log mws 0 hhelper
  obtain ⟨x₃, hhandle, hend, hlog₃⟩ := ok_bind hrest₂
  obtain ⟨hbefores₂, hafters₂⟩ := after_log mws mws.length (Nat.le_refl _) hend
  -- the handler of the request is no middleware
  have hquiet : ∀ m : Traced Call E (Exchange R C),
      m = (if !x₂.res.completed then call .handle server.handle x₂ else pure x₂) →
      m.res = .ok x₃ → befores m.log = [] ∧ afters m.log = [] := by
    intro m hm hres
    rw [hm] at hres ⊢
    split_ifs at hres ⊢
    · obtain ⟨-, hlog⟩ := ok_call hres
      rw [hlog]
      exact ⟨rfl, rfl⟩
    · exact ⟨rfl, rfl⟩
  obtain ⟨hb, ha⟩ := hquiet _ rfl hhandle
  refine ⟨x₁, hx₁, ?_, ?_⟩
  · rw [process, hlog, hcall, hlog₂, hlog₃, befores_append, befores_append, befores_append, hbefores,
      hb, hbefores₂, List.range_eq_range']
    simp [befores]
  · rw [process, hlog, hcall, hlog₂, hlog₃, afters_append, afters_append, afters_append, hafters, ha,
      hafters₂, ← hdone, List.range_eq_range' (n := reached mws x₁)]
    simp [afters]

/-! ## Unwinding -/

private theorem reached_of_quiet {mws : List (Middleware R C E)} {x : Exchange R C} {N : Nat}
    {done : Bool} {y : Exchange R C} (h : (middleware_call_helper N mws x).res = .ok (done, y))
    (hquiet : completes mws x = false) : reached mws x = mws.length := by
  induction mws generalizing N x y done with
  | nil => rfl
  | cons mw mws ih =>
      obtain ⟨x₁, hbefore, hrest, -⟩ := ok_bind h
      obtain ⟨hx₁, -⟩ := ok_call hbefore
      rw [completes, hx₁] at hquiet
      obtain ⟨hopen, hquiet⟩ := Bool.or_eq_false_iff.mp hquiet
      rw [hopen] at hrest
      obtain ⟨⟨done₂, x₂⟩, hhelper, -, -⟩ := ok_bind hrest
      rw [reached, hx₁, List.length_cons]
      simp only [hopen, Bool.false_eq_true, if_false]
      rw [ih hhelper hquiet]

private theorem completes_ne_nil {mws : List (Middleware R C E)} {x : Exchange R C}
    (h : completes mws x = true) : mws ≠ [] := by
  intro hnil
  rw [hnil, completes] at h
  exact Bool.noConfusion h

/-- **The calls unwind exactly when no `before` completes the response**: `after` is called on the
way back from a completed response, and once more for all middlewares. -/
theorem unwinds_iff {server : Server R C E} {mws : List (Middleware R C E)} {x₀ x y : Exchange R C}
    (hrouter : server.before x₀ = .ok x) (h : (process server mws x₀).res = .ok y) :
    Unwinds mws x (process server mws x₀).log ↔ completes mws x = false := by
  obtain ⟨x₁, hx₁, hbefores, hafters⟩ := process_log h
  rw [hrouter] at hx₁
  cases hx₁
  constructor
  · intro hunwinds
    by_contra hdone
    rw [Bool.not_eq_false] at hdone
    -- the calls on the way back and those of all middlewares are too many
    have hboth := hunwinds.after
    rw [hafters, if_pos hdone] at hboth
    have hlen := congrArg List.length hboth
    rw [List.length_append, List.length_reverse, List.length_reverse, List.length_range,
      List.length_range] at hlen
    have hnil : mws = [] := List.length_eq_zero_iff.mp (by omega)
    exact completes_ne_nil hdone hnil
  · intro hquiet
    have hall : reached mws x = mws.length := by
      obtain ⟨x₁, hbefore, hrest, -⟩ := ok_bind h
      obtain ⟨hx₁, -⟩ := ok_call hbefore
      rw [hrouter] at hx₁
      cases hx₁
      obtain ⟨⟨done, x₂⟩, hhelper, -, -⟩ := ok_bind hrest
      exact reached_of_quiet hhelper hquiet
    refine ⟨hbefores, ?_⟩
    rw [hafters, hquiet, hall]
    rfl

/-! ## A middleware that raises -/

/-- The exchange behind the middlewares, when no `before` raises or completes the response. -/
def arrives : List (Middleware R C E) → Exchange R C → Option (Exchange R C)
  | [], x => some x
  | mw :: mws, x =>
      match mw.before x with
      | .error _ => none
      | .ok x => if x.res.completed then none else arrives mws x

private theorem handle_notMem_call {w : Call} (hw : w ≠ .handle) (h : Handler R C E)
    (x : Exchange R C) : Call.handle ∉ (call w h x).log := by
  intro hmem
  have hlog : (call w h x).log = [w] := rfl
  rw [hlog, List.mem_singleton] at hmem
  exact hw hmem.symm

/-- The middlewares are called without the handler. -/
private theorem handle_notMem_helper (mws : List (Middleware R C E)) (N : Nat) (x : Exchange R C) :
    Call.handle ∉ (middleware_call_helper N mws x).log := by
  induction mws generalizing N x with
  | nil => exact List.not_mem_nil
  | cons mw mws ih =>
      have hafter : ∀ y : Exchange R C, Call.handle ∉
          (call (.after N) mw.after y >>= fun x => pure (true, x) : Traced Call E _).log := by
        intro y
        exact notMem_bind (handle_notMem_call (fun h => Call.noConfusion h) _ _)
          fun _ => List.not_mem_nil
      rw [middleware_call_helper]
      apply notMem_bind (handle_notMem_call (fun h => Call.noConfusion h) _ _)
      intro x₁
      split
      · exact hafter x₁
      · apply notMem_bind (ih (N + 1) x₁)
        rintro ⟨done, x₂⟩
        cases done with
        | true => exact hafter x₂
        | false => exact List.not_mem_nil

private theorem helper_raises {pre : List (Middleware R C E)} {mw : Middleware R C E}
    (post : List (Middleware R C E)) {x y : Exchange R C} {e : E} (N : Nat)
    (harrives : arrives pre x = some y) (hraises : mw.before y = .error e) :
    (middleware_call_helper N (pre ++ mw :: post) x).res = .error e := by
  induction pre generalizing N x with
  | nil =>
      obtain rfl : x = y := Option.some.inj harrives
      have hcall : (call (.before N) mw.before x).res = .error e := hraises
      rw [List.nil_append, middleware_call_helper, res_bind, hcall]
      rfl
  | cons first pre ih =>
      rw [arrives] at harrives
      cases hbefore : first.before x with
      | error e' =>
          rw [hbefore] at harrives
          nomatch harrives
      | ok x₁ =>
          rw [hbefore] at harrives
          simp only at harrives
          by_cases hdone : x₁.res.completed = true
          · rw [if_pos hdone] at harrives
            nomatch harrives
          · -- the next middleware is called, and what it raises passes through
            rw [if_neg hdone] at harrives
            have hcall : (call (.before N) first.before x : Traced Call E _).res = .ok x₁ := hbefore
            rw [List.cons_append, middleware_call_helper, bind_of_ok _ hcall]
            simp only [if_neg hdone]
            rw [res_bind, ih (N + 1) harrives]
            rfl

/-- **What the `before` of a middleware raises ends the request**, and it is not handled. -/
theorem process_raises {server : Server R C E} {pre : List (Middleware R C E)}
    {mw : Middleware R C E} (post : List (Middleware R C E)) {x₀ x y : Exchange R C} {e : E}
    (hserver : server.before x₀ = .ok x) (harrives : arrives pre x = some y)
    (hraises : mw.before y = .error e) :
    (process server (pre ++ mw :: post) x₀).res = .error e ∧
      Call.handle ∉ (process server (pre ++ mw :: post) x₀).log := by
  have hcall : (call .routerBefore server.before x₀).res = .ok x := hserver
  have hhelper := helper_raises post 0 harrives hraises
  rw [process, bind_of_ok _ hcall, bind_of_error _ hhelper]
  refine ⟨rfl, ?_⟩
  intro hmem
  rcases List.mem_append.mp hmem with h | h
  · cases List.mem_singleton.mp h
  · exact handle_notMem_helper _ _ _ h

/-! ## A response that is completed early -/

/-- A connection whose router and whose handler leave everything as it is. -/
def idleServer : Server Unit Unit Empty := ⟨.ok, .ok⟩

/-- A middleware that leaves everything as it is. -/
def idle : Middleware Unit Unit Empty := ⟨.ok, .ok⟩

/-- A middleware that ends the response before it is handled, as `JwtAuthorization` does. -/
def ending : Middleware Unit Unit Empty :=
  ⟨fun x => .ok { x with res := x.res.finish .UNAUTHORIZED }, .ok⟩

/-- The exchange as `start` begins it. -/
def fresh : Exchange Unit Unit := ⟨(), Response.new .OK, ()⟩

theorem unwinds_idle : Unwinds [idle, idle] fresh (process idleServer [idle, idle] fresh).log ↔
    completes [idle, idle] fresh = false :=
  unwinds_iff (y := fresh) rfl rfl

/-- Ended by the second of three, the calls of `after` are `1, 0` and then `2, 1, 0`. -/
theorem not_unwinds_ending :
    (process idleServer [idle, ending, idle] fresh).res =
        .ok ⟨(), (Response.new .OK).finish .UNAUTHORIZED, ()⟩ ∧
      ¬ Unwinds [idle, ending, idle] fresh (process idleServer [idle, ending, idle] fresh).log := by
  refine ⟨rfl, ?_⟩
  intro h
  have hafters := h.after
  have hreached : reached [idle, ending, idle] fresh = 2 := rfl
  have hlog : afters (process idleServer [idle, ending, idle] fresh).log = [1, 0, 2, 1, 0] := rfl
  rw [hreached, hlog] at hafters
  exact absurd hafters (by decide)

end Suil.Http.Middlewares
