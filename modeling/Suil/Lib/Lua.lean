import Mathlib

set_option autoImplicit false

/-! # The stack of Lua

The values of Lua, and the functions of its C API that read the globals and the fields of tables
over the stack. A table is known by a reference, so that tables can hold each other, and what is
found under a name is a function of the two. There is always room on the stack.

`lookup` follows a path of names from a value. -/

namespace Lua

variable {ν τ : Type}

/-- A value; `other` is a function, a thread or userdata. -/
inductive Value (ν τ : Type) where
  | nil
  | boolean (b : Bool)
  | number (n : ν)
  | string (s : List UInt8)
  | table (t : τ)
  | other
  deriving DecidableEq

/-- The numbers: `δ` is what C gets of them. -/
structure Numbers (ν δ : Type) where
  double : ν → δ
  ofString : List UInt8 → Option ν
  toString : ν → List UInt8

/-- `lua_toboolean`. -/
def Value.toboolean : Value ν τ → Bool
  | .nil => false
  | .boolean b => b
  | _ => true

/-- `lua_tonumber`, where `lua_isnumber` holds. -/
def Value.tonumber {δ : Type} (nums : Numbers ν δ) : Value ν τ → Option δ
  | .number n => some (nums.double n)
  | .string s => (nums.ofString s).map nums.double
  | _ => none

/-- `lua_tostring`, where `lua_isstring` holds. -/
def Value.tostring {δ : Type} (nums : Numbers ν δ) : Value ν τ → Option (List UInt8)
  | .number n => some (nums.toString n)
  | .string s => some s
  | _ => none

/-- The tables and the stack, its top first. -/
structure State (ν τ : Type) where
  globals : τ
  fields : τ → List UInt8 → Value ν τ
  stack : List (Value ν τ)

namespace State

/-- Values are pushed, the last of them first. -/
def push (L : State ν τ) (vs : List (Value ν τ)) : State ν τ := { L with stack := vs ++ L.stack }

/-- `lua_getglobal`. -/
def getglobal (L : State ν τ) (name : List UInt8) : State ν τ := L.push [L.fields L.globals name]

/-- `lua_getfield(L, -1, name)`; it is an error to index what is no table. -/
def getfield (L : State ν τ) (name : List UInt8) : Option (State ν τ) :=
  match L.stack with
  | .table t :: _ => some (L.push [L.fields t name])
  | _ => none

/-- The value at the index -1. -/
def top (L : State ν τ) : Option (Value ν τ) := L.stack.head?

/-- `lua_pop`. -/
def pop (L : State ν τ) (n : Nat) : State ν τ := { L with stack := L.stack.drop n }

@[simp] theorem push_nil (L : State ν τ) : L.push [] = L := rfl

@[simp] theorem push_push (L : State ν τ) (vs ws : List (Value ν τ)) :
    (L.push vs).push ws = L.push (ws ++ vs) := by
  simp [push, List.append_assoc]

/-- What has been pushed is popped again. -/
theorem pop_push (L : State ν τ) (vs : List (Value ν τ)) : (L.push vs).pop vs.length = L := by
  simp [push, pop]

theorem length_pop_push {vs : List (Value ν τ)} {n : Nat} (h : n ≤ vs.length) (L : State ν τ) :
    ((L.push vs).pop n).stack.length + n = L.stack.length + vs.length := by
  simp only [push, pop, List.length_drop, List.length_append]
  omega

theorem getfield_push (L : State ν τ) (t : τ) (vs : List (Value ν τ)) (name : List UInt8) :
    (L.push (.table t :: vs)).getfield name = some (L.push (L.fields t name :: .table t :: vs)) := rfl

/-! ## Paths -/

/-- The value behind the names, unless one of the values on the way to it is nil. -/
def lookup (L : State ν τ) : Value ν τ → List (List UInt8) → Option (Value ν τ)
  | v, [] => some v
  | .table t, name :: names =>
      match L.fields t name with
      | .nil => none
      | v => L.lookup v names
  | _, _ :: _ => none

/-- Only tables are indexed on the way. -/
def IndexesTables (L : State ν τ) : Value ν τ → List (List UInt8) → Prop
  | _, [] => True
  | .table t, name :: names => L.fields t name = .nil ∨ L.IndexesTables (L.fields t name) names
  | _, _ :: _ => False

theorem lookup_cons_of_nil {L : State ν τ} {t : τ} {name : List UInt8} (h : L.fields t name = .nil)
    (names : List (List UInt8)) : L.lookup (.table t) (name :: names) = none := by
  rw [lookup, h]

theorem lookup_cons_of_ne {L : State ν τ} {t : τ} {name : List UInt8} (h : L.fields t name ≠ .nil)
    (names : List (List UInt8)) :
    L.lookup (.table t) (name :: names) = L.lookup (L.fields t name) names := by
  rw [lookup]
  split
  · contradiction
  · rfl

end State

end Lua
