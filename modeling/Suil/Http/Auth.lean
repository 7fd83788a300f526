import Suil.Basic.Json

set_option autoImplicit false

/-! # The roles of a route

`Auth` (`http/common.h`) holds the roles that may use a route. Its two `check` decide whether the
roles of a token are among them: the one for a vector has no `return` behind its loops, and the one
for a JSON array compares the array instead of its elements. The copy assignment adds the roles to
those that are there. `authorises_iff` says which decisions and which assignments are right. -/

namespace Suil.Http

open Json (Object Fault)

/-- `Auth`; its roles are always copies. -/
structure Auth where
  enabled : Bool
  roles : List Str
  copied : ∀ r ∈ roles, r.dup = r

namespace Auth

variable {ν : Type}

private theorem copied_map {α : Type} (f : α → Str) (l : List α) :
    ∀ r ∈ l.map fun a => (f a).dup, r.dup = r := by
  intro r hr
  obtain ⟨a, -, rfl⟩ := List.mem_map.mp hr
  exact (f a).dup_dup

/-! ## Values -/

/-- `Auth(roles...)`. -/
def new (roles : List Bytes) : Auth :=
  ⟨true, roles.map fun r => (Str.ofC r).dup, copied_map Str.ofC roles⟩

/-- `operator=(const Auth&)`, to which `attrs(opt(AUTHORIZE, …))` comes. -/
def copyAssign (a other : Auth) : Auth where
  enabled := other.enabled
  roles := a.roles ++ other.roles.map fun r => r.dup
  copied := by
    intro r hr
    rcases List.mem_append.mp hr with h | h
    · exact a.copied r h
    · exact copied_map id other.roles r h

/-- `operator=(const Auth&&)`. -/
def moveAssign (_ other : Auth) : Auth := ⟨other.enabled, other.roles, other.copied⟩

/-! ## Decisions -/

/-- `check` of a vector; without a value the end of the body is reached. -/
def check (a : Auth) (rs : List Str) : Option Bool :=
  if a.roles = [] then some true
  else if a.roles.any fun r => rs.any fun tmp => r.eq tmp then some true
  else none

/-- The inner loop of `check` of an array, over its elements. -/
def checkElements (rs : Object ν) (r : Str) : List (Json ν) → Except Fault Bool
  | [] => .ok false
  | _ :: es => do
      let s ← rs.toStr
      if !s.comparesEqual r true then .ok true else checkElements rs r es

/-- The outer loop, over the roles. -/
def checkRoles (rs : Object ν) : List Str → Except Fault Bool
  | [] => .ok false
  | r :: roles => do
      if ← checkElements rs r rs.elements then .ok true else checkRoles rs roles

/-- `check` of an array. -/
def checkJson (a : Auth) (rs : Object ν) : Except Fault Bool :=
  if a.roles = [] then .ok true else checkRoles rs a.roles

/-! ## What the decisions are for -/

/-- The route names no roles, or one of the roles of the token. -/
def Granted (roles rs : List Bytes) : Prop := roles = [] ∨ ∃ r ∈ roles, r ∈ rs

instance (roles rs : List Bytes) : Decidable (Granted roles rs) :=
  inferInstanceAs (Decidable (roles = [] ∨ ∃ r ∈ roles, r ∈ rs))

/-- Both overloads decide as they should. -/
structure Decides (ν : Type) (roles rs : List Bytes) : Prop where
  vector : (new roles).check (rs.map Str.ofC) = some (decide (Granted roles rs))
  array : (new roles).checkJson (some (.array (rs.map .string)) : Object ν) =
    .ok (decide (Granted roles rs))

/-- An assignment of a value, or of a temporary. -/
inductive Assignment where
  | copy (other : Auth)
  | move (other : Auth)

/-- What is assigned. -/
def Assignment.other : Assignment → Auth
  | .copy other => other
  | .move other => other

def assign (a : Auth) : Assignment → Auth
  | .copy other => a.copyAssign other
  | .move other => a.moveAssign other

/-- After each assignment the roles are those that were assigned. -/
def Replaces : Auth → List Assignment → Prop
  | _, [] => True
  | a, x :: xs => (a.assign x).roles = x.other.roles ∧ Replaces (a.assign x) xs

/-- What is copied is copied to a value without roles. -/
def Fresh : Auth → List Assignment → Prop
  | _, [] => True
  | a, .copy other :: xs => a.roles = [] ∧ Fresh other xs
  | _, .move other :: xs => Fresh other xs

/-! ## Assignments -/

/-- The copies of roles are the roles. -/
private theorem map_dup (a : Auth) : (a.roles.map fun r => r.dup) = a.roles := by
  calc (a.roles.map fun r => r.dup) = a.roles.map id := List.map_congr_left a.copied
    _ = a.roles := List.map_id _

/-- Copied roles come behind those that were there. -/
theorem copyAssign_roles (a other : Auth) :
    (a.copyAssign other).roles = a.roles ++ other.roles := by
  show a.roles ++ (other.roles.map fun r => r.dup) = _
  rw [map_dup]

private theorem copyAssign_of_nil {a : Auth} (h : a.roles = []) (other : Auth) :
    a.copyAssign other = other := by
  have hroles : (a.copyAssign other).roles = other.roles := by
    rw [copyAssign_roles, h, List.nil_append]
  obtain ⟨enabled, roles, copied⟩ := other
  exact (Auth.mk.injEq ..).mpr ⟨rfl, hroles⟩

/-- **The roles are replaced exactly when nothing is copied onto roles.** -/
theorem replaces_iff (a : Auth) (xs : List Assignment) : Replaces a xs ↔ Fresh a xs := by
  induction xs generalizing a with
  | nil => exact Iff.rfl
  | cons x xs ih =>
      cases x with
      | copy other =>
          -- the copied roles come behind the old ones, so there must be none
          show (a.copyAssign other).roles = other.roles ∧ Replaces (a.copyAssign other) xs ↔
            a.roles = [] ∧ Fresh other xs
          rw [copyAssign_roles, List.append_left_eq_self]
          apply and_congr_right
          intro hnil
          rw [copyAssign_of_nil hnil, ih]
      | move other =>
          show other.roles = other.roles ∧ Replaces other xs ↔ Fresh other xs
          rw [ih]
          exact and_iff_right rfl

/-! ## Decisions -/

private theorem decides_nil (rs : List Bytes) : Decides ν [] rs := by
  have hgranted : decide (Granted [] rs) = true := decide_eq_true (Or.inl rfl)
  refine ⟨?_, ?_⟩
  · rw [hgranted]
    rfl
  · rw [hgranted]
    rfl

/-- The array is no string, so that the first comparison throws. -/
private theorem checkJson_throws {a : Auth} (h : a.roles ≠ []) {es : List (Json ν)} (hes : es ≠ []) :
    a.checkJson (some (.array es)) = .error .notString := by
  obtain ⟨r, roles, hroles⟩ := List.exists_cons_of_ne_nil h
  obtain ⟨e, rest, rfl⟩ := List.exists_cons_of_ne_nil hes
  rw [checkJson, if_neg h, hroles]
  rfl

/-- A role is found only in a vector that is not empty. -/
private theorem ne_nil_of_check {a : Auth} (h : a.roles ≠ []) {rs : List Str} {b : Bool}
    (hcheck : a.check rs = some b) : rs ≠ [] := by
  rintro rfl
  rw [check, if_neg h] at hcheck
  have hnone : (a.roles.any fun r => ([] : List Str).any fun tmp => r.eq tmp) = false := by
    rw [List.any_eq_false]
    intro r _
    exact Bool.false_ne_true
  rw [hnone] at hcheck
  cases hcheck

/-- **The decisions are right exactly for routes without roles.** -/
theorem decides_iff (roles rs : List Bytes) : Decides ν roles rs ↔ roles = [] := by
  constructor
  · intro h
    by_contra hroles
    -- the elements of the array are no strings to the comparison, and the first one throws
    have hnew : (new roles).roles ≠ [] := fun hnil => hroles (List.map_eq_nil_iff.mp hnil)
    have hrs : rs.map Str.ofC ≠ [] := ne_nil_of_check hnew h.vector
    have hes : rs.map (Json.string (ν := ν)) ≠ [] := by
      intro hnil
      apply hrs
      rw [List.map_eq_nil_iff.mp hnil, List.map_nil]
    have harray := h.array
    rw [checkJson_throws hnew hes] at harray
    cases harray
  · rintro rfl
    exact decides_nil rs

/-- **Decisions and assignments together.** -/
theorem authorises_iff (roles rs : List Bytes) (a : Auth) (xs : List Assignment) :
    Decides ν roles rs ∧ Replaces a xs ↔ roles = [] ∧ Fresh a xs := by
  rw [decides_iff, replaces_iff]

/-- A token with another role than the route reaches the end of the one `check` and an exception of
the other, and a second copy keeps the roles of the first. -/
theorem not_authorises_admin :
    (new [str "admin"]).check [.ofC (str "user")] = none ∧
      (new [str "admin"]).checkJson (some (.array [.string (str "admin")]) : Object Empty) =
        .error .notString ∧
      ¬ Decides Empty [str "admin"] [str "user"] ∧
      ¬ Replaces (new []) [.copy (new [str "user"]), .copy (new [str "admin"])] := by
  refine ⟨by decide, rfl, ?_, ?_⟩
  · intro h
    have hnone : (new [str "admin"]).check [.ofC (str "user")] = none := by decide
    have hsome := h.vector
    rw [List.map_cons, List.map_nil, hnone] at hsome
    cases hsome
  · intro h
    have hlen : ((((new []).assign (.copy (new [str "user"]))).assign
        (.copy (new [str "admin"]))).roles).length = 1 := congrArg List.length h.2.1
    exact absurd hlen (by decide)

end Auth

end Suil.Http
