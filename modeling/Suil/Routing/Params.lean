import Suil.Basic.Bytes

set_option autoImplicit false

/-! # The parameters a route extracts from a URL

`RoutingParams` (`routing_params`, `http/common.h`) collects the values of the placeholders
of a route in one container for each kind. A container counts its capacity in a `uint8_t`
and doubles it when it is full: at 128 the capacity becomes `256 mod 256 = 0`,
`realloc(params, 0)` gives the storage up and the write that follows has no memory to go to.
`ParamsContainer.push` reports this as a fault. -/

namespace Suil.Routing

/-- What ends a search other than by returning: a write through a null pointer, or (never,
for a trie the code builds) a recursion that does not end. -/
inductive Fault where
  | nullWrite
  | fuel
  deriving DecidableEq, Repr

/-! ## One container -/

/-- `params_container`: the null pointer or the live values `params[0 .. back)`, and the
capacity `size`. -/
structure ParamsContainer (α : Type) where
  params : Option (List α) := none
  size : Nat := 0
  deriving DecidableEq, Repr

namespace ParamsContainer

variable {α : Type}

/-- The live values; `back` is their number. -/
def vals (c : ParamsContainer α) : List α := c.params.getD []

/-- `grow`: make room for one more value. -/
def grow (c : ParamsContainer α) : Except Fault (ParamsContainer α) :=
  match c.params with
  | none => .ok { params := some [], size := 8 }
  | some vs =>
      if vs.length = c.size then
        -- `size *= 2` in a `uint8_t`
        let size := c.size * 2 % 256
        if size = 0 then .error .nullWrite else .ok { params := some vs, size := size }
      else .ok c

def push (c : ParamsContainer α) (t : α) : Except Fault (ParamsContainer α) := do
  let c ← c.grow
  .ok { c with params := some (c.vals ++ [t]) }

def pop (c : ParamsContainer α) : ParamsContainer α :=
  { c with params := c.params.map List.dropLast }

/-- The container holds exactly `xs`, and its capacity is one that `grow` reaches. -/
def Holds (c : ParamsContainer α) (xs : List α) : Prop :=
  c.vals = xs ∧ (c.params ≠ none → xs.length ≤ c.size ∧ c.size ∈ [8, 16, 32, 64, 128])

theorem holds_empty : Holds ({} : ParamsContainer α) [] :=
  ⟨rfl, fun h => absurd rfl h⟩

theorem holds_length_le {c : ParamsContainer α} {xs : List α} (h : c.Holds xs) :
    xs.length ≤ 128 := by
  obtain ⟨hv, hs⟩ := h
  cases hp : c.params with
  | none => simp [← hv, vals, hp]
  | some vs =>
      obtain ⟨hle, hmem⟩ := hs (by simp [hp])
      simp at hmem; omega

theorem push_ok {c : ParamsContainer α} {xs : List α} (h : c.Holds xs) (t : α)
    (hlen : xs.length < 128) : ∃ c', c.push t = .ok c' ∧ c'.Holds (xs ++ [t]) := by
  obtain ⟨hv, hs⟩ := h
  cases hp : c.params with
  | none =>
      have hxs : xs = [] := by simpa [vals, hp] using hv.symm
      subst hxs
      exact ⟨⟨some [t], 8⟩, by simp [push, grow, hp, bind, Except.bind, vals], rfl, by simp⟩
  | some vs =>
      have hxs : vs = xs := by simpa [vals, hp] using hv
      subst hxs
      obtain ⟨hle, hmem⟩ := hs (by simp [hp])
      by_cases hfull : vs.length = c.size
      · have hne : c.size * 2 % 256 ≠ 0 := by simp at hmem; omega
        refine ⟨⟨some (vs ++ [t]), c.size * 2 % 256⟩, ?_, rfl, fun _ => ⟨?_, ?_⟩⟩
        · simp [push, grow, hp, bind, Except.bind, hfull, hne, vals]
        · simp at hmem ⊢; omega
        · simp at hmem ⊢; omega
      · refine ⟨⟨some (vs ++ [t]), c.size⟩, ?_, rfl, fun _ => ⟨?_, hmem⟩⟩
        · simp [push, grow, hp, bind, Except.bind, hfull, vals]
        · simp; omega

theorem push_error {c : ParamsContainer α} {xs : List α} (h : c.Holds xs) (t : α)
    (hlen : ¬ xs.length < 128) : c.push t = .error .nullWrite := by
  have hle' := holds_length_le h
  obtain ⟨hv, hs⟩ := h
  cases hp : c.params with
  | none => simp [vals, hp] at hv; subst hv; simp at hlen
  | some vs =>
      have hxs : vs = xs := by simpa [vals, hp] using hv
      subst hxs
      obtain ⟨hle, hmem⟩ := hs (by simp [hp])
      have hsize : c.size = 128 := by simp at hmem; omega
      have hfull : vs.length = 128 := by omega
      simp [push, grow, hp, bind, Except.bind, hfull, hsize]

theorem pop_holds {c : ParamsContainer α} {xs : List α} {t : α} (h : c.Holds (xs ++ [t])) :
    c.pop.Holds xs := by
  obtain ⟨hv, hs⟩ := h
  cases hp : c.params with
  | none => simp [vals, hp] at hv
  | some vs =>
      have hxs : vs = xs ++ [t] := by simpa [vals, hp] using hv
      subst hxs
      obtain ⟨hle, hmem⟩ := hs (by simp [hp])
      refine ⟨by simp [pop, vals, hp], fun _ => ⟨?_, hmem⟩⟩
      simp [pop] at hle ⊢; omega

theorem pop_holds_nil {c : ParamsContainer α} (h : c.Holds []) : c.pop.Holds [] := by
  obtain ⟨hv, hs⟩ := h
  cases hp : c.params with
  | none => exact ⟨by simp [pop, vals, hp], by simp [pop, hp]⟩
  | some vs =>
      have hxs : vs = [] := by simpa [vals, hp] using hv
      subst hxs
      obtain ⟨hle, hmem⟩ := hs (by simp [hp])
      exact ⟨by simp [pop, vals, hp], fun _ => ⟨hle, hmem⟩⟩

end ParamsContainer

/-! ## The four containers -/

/-- The kinds of placeholders (`ParamType`), in the order of the enumeration. -/
inductive ParamType where
  | int
  | uint
  | double
  | string
  | path
  deriving DecidableEq, Repr

def ParamType.all : List ParamType := [.int, .uint, .double, .string, .path]

/-- A value of a placeholder; `δ` stands for the C type `double`. -/
inductive ParamVal (δ : Type) where
  | int (v : Int)
  | uint (v : Nat)
  | double (v : δ)
  | str (v : Bytes)
  deriving DecidableEq, Repr

variable {δ : Type}

/-- The values for one container, in order. -/
def ParamVal.ints (vs : List (ParamVal δ)) : List Int :=
  vs.filterMap (fun v => match v with | .int x => some x | _ => none)

def ParamVal.uints (vs : List (ParamVal δ)) : List Nat :=
  vs.filterMap (fun v => match v with | .uint x => some x | _ => none)

def ParamVal.doubles (vs : List (ParamVal δ)) : List δ :=
  vs.filterMap (fun v => match v with | .double x => some x | _ => none)

def ParamVal.strs (vs : List (ParamVal δ)) : List Bytes :=
  vs.filterMap (fun v => match v with | .str x => some x | _ => none)

@[simp] theorem ParamVal.ints_append (vs ws : List (ParamVal δ)) :
    ParamVal.ints (vs ++ ws) = ParamVal.ints vs ++ ParamVal.ints ws :=
  List.filterMap_append

@[simp] theorem ParamVal.uints_append (vs ws : List (ParamVal δ)) :
    ParamVal.uints (vs ++ ws) = ParamVal.uints vs ++ ParamVal.uints ws :=
  List.filterMap_append

@[simp] theorem ParamVal.doubles_append (vs ws : List (ParamVal δ)) :
    ParamVal.doubles (vs ++ ws) = ParamVal.doubles vs ++ ParamVal.doubles ws :=
  List.filterMap_append

@[simp] theorem ParamVal.strs_append (vs ws : List (ParamVal δ)) :
    ParamVal.strs (vs ++ ws) = ParamVal.strs vs ++ ParamVal.strs ws :=
  List.filterMap_append

@[simp] theorem ParamVal.ints_int (x : Int) : ParamVal.ints [(.int x : ParamVal δ)] = [x] := rfl
@[simp] theorem ParamVal.ints_uint (x : Nat) : ParamVal.ints [(.uint x : ParamVal δ)] = [] := rfl
@[simp] theorem ParamVal.ints_double (x : δ) : ParamVal.ints [.double x] = [] := rfl
@[simp] theorem ParamVal.ints_str (x : Bytes) : ParamVal.ints [(.str x : ParamVal δ)] = [] := rfl
@[simp] theorem ParamVal.uints_int (x : Int) : ParamVal.uints [(.int x : ParamVal δ)] = [] := rfl
@[simp] theorem ParamVal.uints_uint (x : Nat) : ParamVal.uints [(.uint x : ParamVal δ)] = [x] := rfl
@[simp] theorem ParamVal.uints_double (x : δ) : ParamVal.uints [.double x] = [] := rfl
@[simp] theorem ParamVal.uints_str (x : Bytes) : ParamVal.uints [(.str x : ParamVal δ)] = [] := rfl
@[simp] theorem ParamVal.doubles_int (x : Int) :
    ParamVal.doubles [(.int x : ParamVal δ)] = [] := rfl
@[simp] theorem ParamVal.doubles_uint (x : Nat) :
    ParamVal.doubles [(.uint x : ParamVal δ)] = [] := rfl
@[simp] theorem ParamVal.doubles_double (x : δ) : ParamVal.doubles [.double x] = [x] := rfl
@[simp] theorem ParamVal.doubles_str (x : Bytes) :
    ParamVal.doubles [(.str x : ParamVal δ)] = [] := rfl
@[simp] theorem ParamVal.strs_int (x : Int) : ParamVal.strs [(.int x : ParamVal δ)] = [] := rfl
@[simp] theorem ParamVal.strs_uint (x : Nat) : ParamVal.strs [(.uint x : ParamVal δ)] = [] := rfl
@[simp] theorem ParamVal.strs_double (x : δ) : ParamVal.strs [.double x] = [] := rfl
@[simp] theorem ParamVal.strs_str (x : Bytes) : ParamVal.strs [(.str x : ParamVal δ)] = [x] := rfl

/-- `routing_params`. Its `operator=` declares a reference and returns none; nothing reads it, and an
assignment is that of the four containers. -/
structure RoutingParams (δ : Type) where
  intParams : ParamsContainer Int := {}
  uintParams : ParamsContainer Nat := {}
  doubleParams : ParamsContainer δ := {}
  stringParams : ParamsContainer Bytes := {}
  deriving DecidableEq, Repr

namespace RoutingParams

def push (p : RoutingParams δ) : ParamVal δ → Except Fault (RoutingParams δ)
  | .int v => do .ok { p with intParams := ← p.intParams.push v }
  | .uint v => do .ok { p with uintParams := ← p.uintParams.push v }
  | .double v => do .ok { p with doubleParams := ← p.doubleParams.push v }
  | .str v => do .ok { p with stringParams := ← p.stringParams.push v }

def pop (p : RoutingParams δ) : ParamVal δ → RoutingParams δ
  | .int _ => { p with intParams := p.intParams.pop }
  | .uint _ => { p with uintParams := p.uintParams.pop }
  | .double _ => { p with doubleParams := p.doubleParams.pop }
  | .str _ => { p with stringParams := p.stringParams.pop }

/-- The parameters are exactly the values `vs`, in order within each kind. -/
def Carries (p : RoutingParams δ) (vs : List (ParamVal δ)) : Prop :=
  p.intParams.vals = ParamVal.ints vs ∧ p.uintParams.vals = ParamVal.uints vs ∧
    p.doubleParams.vals = ParamVal.doubles vs ∧ p.stringParams.vals = ParamVal.strs vs

/-- The parameters are exactly the values `vs`, in containers of reachable capacities. -/
def Holds (p : RoutingParams δ) (vs : List (ParamVal δ)) : Prop :=
  p.intParams.Holds (ParamVal.ints vs) ∧ p.uintParams.Holds (ParamVal.uints vs) ∧
    p.doubleParams.Holds (ParamVal.doubles vs) ∧ p.stringParams.Holds (ParamVal.strs vs)

/-- The values fit in the containers: at most 128 of each kind. -/
def Fit (vs : List (ParamVal δ)) : Prop :=
  (ParamVal.ints vs).length ≤ 128 ∧ (ParamVal.uints vs).length ≤ 128 ∧
    (ParamVal.doubles vs).length ≤ 128 ∧ (ParamVal.strs vs).length ≤ 128

instance (vs : List (ParamVal δ)) : Decidable (Fit vs) :=
  inferInstanceAs (Decidable (_ ∧ _))

theorem Holds.carries {p : RoutingParams δ} {vs : List (ParamVal δ)} (h : p.Holds vs) :
    p.Carries vs :=
  ⟨h.1.1, h.2.1.1, h.2.2.1.1, h.2.2.2.1⟩

/-- Parameters that carry a list with and without a part in front carry an empty part. -/
theorem Carries.eq_nil {p : RoutingParams δ} {us vs : List (ParamVal δ)} (h : p.Carries vs)
    (h' : p.Carries (us ++ vs)) : us = [] := by
  obtain ⟨hi, hu, hd, hs⟩ := h
  obtain ⟨hi', hu', hd', hs'⟩ := h'
  rw [hi, ParamVal.ints_append, List.self_eq_append_left] at hi'
  rw [hu, ParamVal.uints_append, List.self_eq_append_left] at hu'
  rw [hd, ParamVal.doubles_append, List.self_eq_append_left] at hd'
  rw [hs, ParamVal.strs_append, List.self_eq_append_left] at hs'
  cases us with
  | nil => rfl
  | cons u us =>
      cases u with
      | int x => cases hi'
      | uint x => cases hu'
      | double x => cases hd'
      | str x => cases hs'

theorem holds_empty : ({} : RoutingParams δ).Holds [] :=
  ⟨ParamsContainer.holds_empty, ParamsContainer.holds_empty, ParamsContainer.holds_empty,
    ParamsContainer.holds_empty⟩

theorem Holds.fit {p : RoutingParams δ} {vs : List (ParamVal δ)} (h : p.Holds vs) : Fit vs :=
  ⟨ParamsContainer.holds_length_le h.1, ParamsContainer.holds_length_le h.2.1,
    ParamsContainer.holds_length_le h.2.2.1, ParamsContainer.holds_length_le h.2.2.2⟩

theorem push_ok {p : RoutingParams δ} {vs : List (ParamVal δ)} (h : p.Holds vs)
    (v : ParamVal δ) (hfit : Fit (vs ++ [v])) :
    ∃ p', p.push v = .ok p' ∧ p'.Holds (vs ++ [v]) := by
  obtain ⟨hi, hu, hd, hs⟩ := h
  obtain ⟨fi, fu, fd, fs⟩ := hfit
  cases v with
  | int x =>
      obtain ⟨c, hc, hh⟩ := ParamsContainer.push_ok hi x (by simp at fi; omega)
      exact ⟨{ p with intParams := c }, by simp [push, hc, bind, Except.bind],
        by simpa [Holds] using ⟨hh, hu, hd, hs⟩⟩
  | uint x =>
      obtain ⟨c, hc, hh⟩ := ParamsContainer.push_ok hu x (by simp at fu; omega)
      exact ⟨{ p with uintParams := c }, by simp [push, hc, bind, Except.bind],
        by simpa [Holds] using ⟨hi, hh, hd, hs⟩⟩
  | double x =>
      obtain ⟨c, hc, hh⟩ := ParamsContainer.push_ok hd x (by simp at fd; omega)
      exact ⟨{ p with doubleParams := c }, by simp [push, hc, bind, Except.bind],
        by simpa [Holds] using ⟨hi, hu, hh, hs⟩⟩
  | str x =>
      obtain ⟨c, hc, hh⟩ := ParamsContainer.push_ok hs x (by simp at fs; omega)
      exact ⟨{ p with stringParams := c }, by simp [push, hc, bind, Except.bind],
        by simpa [Holds] using ⟨hi, hu, hd, hh⟩⟩

theorem push_error {p : RoutingParams δ} {vs : List (ParamVal δ)} (h : p.Holds vs)
    (v : ParamVal δ) (hfit : ¬ Fit (vs ++ [v])) : p.push v = .error .nullWrite := by
  obtain ⟨fi, fu, fd, fs⟩ := h.fit
  obtain ⟨hi, hu, hd, hs⟩ := h
  cases v with
  | int x =>
      have hlen : ¬ (ParamVal.ints vs).length < 128 := fun hlt =>
        hfit (by simp [Fit]; omega)
      simp [push, ParamsContainer.push_error hi x hlen, bind, Except.bind]
  | uint x =>
      have hlen : ¬ (ParamVal.uints vs).length < 128 := fun hlt =>
        hfit (by simp [Fit]; omega)
      simp [push, ParamsContainer.push_error hu x hlen, bind, Except.bind]
  | double x =>
      have hlen : ¬ (ParamVal.doubles vs).length < 128 := fun hlt =>
        hfit (by simp [Fit]; omega)
      simp [push, ParamsContainer.push_error hd x hlen, bind, Except.bind]
  | str x =>
      have hlen : ¬ (ParamVal.strs vs).length < 128 := fun hlt =>
        hfit (by simp [Fit]; omega)
      simp [push, ParamsContainer.push_error hs x hlen, bind, Except.bind]

theorem pop_holds {p : RoutingParams δ} {vs : List (ParamVal δ)} {v : ParamVal δ}
    (h : p.Holds (vs ++ [v])) : (p.pop v).Holds vs := by
  cases v with
  | int x =>
      obtain ⟨hi, hu, hd, hs⟩ := by simpa [Holds] using h
      exact ⟨ParamsContainer.pop_holds hi, hu, hd, hs⟩
  | uint x =>
      obtain ⟨hi, hu, hd, hs⟩ := by simpa [Holds] using h
      exact ⟨hi, ParamsContainer.pop_holds hu, hd, hs⟩
  | double x =>
      obtain ⟨hi, hu, hd, hs⟩ := by simpa [Holds] using h
      exact ⟨hi, hu, ParamsContainer.pop_holds hd, hs⟩
  | str x =>
      obtain ⟨hi, hu, hd, hs⟩ := by simpa [Holds] using h
      exact ⟨hi, hu, hd, ParamsContainer.pop_holds hs⟩

/-- Popping an empty container leaves it empty. -/
theorem pop_holds_nil {p : RoutingParams δ} (h : p.Holds []) (v : ParamVal δ) :
    (p.pop v).Holds [] := by
  obtain ⟨hi, hu, hd, hs⟩ := h
  cases v with
  | int x => exact ⟨ParamsContainer.pop_holds_nil hi, hu, hd, hs⟩
  | uint x => exact ⟨hi, ParamsContainer.pop_holds_nil hu, hd, hs⟩
  | double x => exact ⟨hi, hu, ParamsContainer.pop_holds_nil hd, hs⟩
  | str x => exact ⟨hi, hu, hd, ParamsContainer.pop_holds_nil hs⟩

end RoutingParams

end Suil.Routing
