import Suil.Basic.Json
import Suil.Basic.Strncmp

set_option autoImplicit false

/-! # Looking up a member

`operator[]` of `json::Object` has a search for a `const char*` and one for a `String` (`json.cpp`).
The second one stops at the end of the key, and not at the end of the name. `same_iff` says for
which objects and keys both find the member with that name. -/

namespace Suil.Json

variable {ν : Type}

/-- The members of an object in their order; a name is a string in C. -/
structure Members (ν : Type) where
  list : List (Bytes × Json ν)
  names : ∀ m ∈ list, NUL ∉ m.1

/-- `json_find_member(object, name)`: the place of the member that is found. The comparison is
`strcmp`. -/
def json_find_member (ms : List (Bytes × Json ν)) (name : Bytes) : Option Nat :=
  ms.findIdx? fun m => cstr m.1 = cstr name

/-- `json_find_member(object, key, keyLen)`. -/
def json_find_member_n (ms : List (Bytes × Json ν)) (key : Bytes) (keyLen : Nat) : Option Nat :=
  ms.findIdx? fun m => strncmpEq keyLen m.1 key

/-- The place of the first member with this name, if there is one. -/
def exact (ms : List (Bytes × Json ν)) (key : Bytes) : Option Nat :=
  ms.findIdx? fun m => m.1 = key

/-- Both look-ups of the key find the first member with this name, or nothing when there is none. -/
def Same (ms : Members ν) (key : Bytes) : Prop :=
  json_find_member_n ms.list key key.length = exact ms.list key ∧
    json_find_member ms.list key = exact ms.list key

/-- No member whose name goes on behind the key is in front of the one with this name. A key with a
NUL is no name, and what is in front of the NUL is none either. -/
def Met (ms : Members ν) (key : Bytes) : Prop :=
  (NUL ∉ key ∧ ∀ m, ms.list.find? (fun m => key.isPrefixOf m.1) = some m → m.1 = key) ∨
    (NUL ∈ key ∧ ∀ m ∈ ms.list, m.1 ≠ cstr key)

/-! ## Two searches of one list -/

section
variable {α : Type} {p q : α → Bool} {l : List α}

private theorem findIdx?_congr (h : ∀ x ∈ l, p x = q x) : l.findIdx? p = l.findIdx? q := by
  induction l with
  | nil => rfl
  | cons x l ih =>
      rw [List.findIdx?_cons, List.findIdx?_cons, h x List.mem_cons_self,
        ih fun y hy => h y (List.mem_cons_of_mem x hy)]

private theorem find?_eq_findIdx? (p : α → Bool) (l : List α) :
    l.find? p = (l.findIdx? p).bind (l[·]?) := by
  induction l with
  | nil => rfl
  | cons x l ih =>
      by_cases hx : p x = true
      · rw [List.find?_cons_of_pos hx, List.findIdx?_cons, if_pos hx]
        rfl
      · rw [List.find?_cons_of_neg hx, List.findIdx?_cons, if_neg hx, ih]
        cases l.findIdx? p with
        | none => rfl
        | some i => rfl

/-- The wider search finds what the narrower one finds when its first hit is one of that. -/
private theorem findIdx?_eq_iff (hqp : ∀ x, q x = true → p x = true) :
    l.findIdx? p = l.findIdx? q ↔ ∀ x, l.find? p = some x → q x = true := by
  induction l with
  | nil => exact iff_of_true rfl fun x hx => nomatch hx
  | cons x l ih =>
      rw [List.findIdx?_cons, List.findIdx?_cons]
      by_cases hx : p x = true
      · rw [if_pos hx, List.find?_cons_of_pos hx]
        by_cases hq : q x = true
        · rw [if_pos hq]
          refine iff_of_true rfl ?_
          intro y hy
          rw [← Option.some.inj hy]
          exact hq
        · rw [if_neg hq]
          refine iff_of_false ?_ fun h => hq (h x rfl)
          intro h
          obtain ⟨i, -, hi⟩ := Option.map_eq_some_iff.mp h.symm
          exact Nat.succ_ne_zero i hi
      · have hq : ¬ q x = true := fun hq => hx (hqp x hq)
        rw [if_neg hx, if_neg hq, List.find?_cons_of_neg hx, ← ih]
        exact (Option.map_injective Nat.succ_injective).eq_iff

private theorem findIdx?_eq_none (h : ∀ x ∈ l, p x = false) : l.findIdx? p = none :=
  List.findIdx?_eq_none_iff.mpr h

end

/-! ## The two searches in the objects of the other modules -/

/-- `operator[]` for a `String` is the search with a length. -/
theorem get_eq (ms : List (Bytes × Json ν)) (key : Bytes) :
    Object.get (some (.object ms)) key =
      .ok (((json_find_member_n ms key key.length).bind (ms[·]?)).map (·.2)) := by
  rw [Object.get, find?_eq_findIdx?]
  rfl

private theorem find_eq_exact (ms : Members ν) {key : Bytes} (h : NUL ∉ key) :
    json_find_member ms.list key = exact ms.list key := by
  apply findIdx?_congr
  intro m hm
  rw [cstr_eq_self h, cstr_eq_self (ms.names m hm)]

/-- `operator[]` for a `const char*` is the other one. -/
theorem member_eq (ms : Members ν) {key : Bytes} (h : NUL ∉ key) :
    Object.member (some (.object ms.list)) key =
      .ok (((json_find_member ms.list key).bind (ms.list[·]?)).map (·.2)) := by
  rw [Object.member, find?_eq_findIdx?, find_eq_exact ms h]
  rfl

/-! ## The first member with a name -/

private theorem exact_eq_none {ms : Members ν} {key : Bytes} (h : NUL ∈ key) :
    exact ms.list key = none := by
  apply findIdx?_eq_none
  intro m hm
  apply decide_eq_false
  intro heq
  exact ms.names m hm (heq ▸ h)

/-- Without a NUL the search with a length is for a prefix. -/
private theorem find_n_eq (ms : Members ν) {key : Bytes} (h : NUL ∉ key) :
    json_find_member_n ms.list key key.length =
      ms.list.findIdx? fun m => key.isPrefixOf m.1 := by
  apply findIdx?_congr
  intro m hm
  rw [Bool.eq_iff_iff, strncmpEq_prefix h (ms.names m hm), List.isPrefixOf_iff_prefix]

/-- With a NUL both searches are for what is in front of it. -/
private theorem find_n_nul (ms : Members ν) {key : Bytes} (h : NUL ∈ key) :
    json_find_member_n ms.list key key.length = json_find_member ms.list key := by
  apply findIdx?_congr
  intro m hm
  rw [Bool.eq_iff_iff, strncmpEq_nul h (ms.names m hm), decide_eq_true_iff,
    cstr_eq_self (ms.names m hm)]

/-- **Both look-ups find the first member with the name exactly when no other one is met before
it.** -/
theorem same_iff (ms : Members ν) (key : Bytes) : Same ms key ↔ Met ms key := by
  unfold Same Met
  by_cases hkey : NUL ∈ key
  · -- there is no member with this name
    rw [exact_eq_none hkey, find_n_nul ms hkey, and_self, or_iff_right fun h => h.1 hkey,
      and_iff_right hkey, json_find_member, List.findIdx?_eq_none_iff]
    constructor
    · intro hnone m hm heq
      have hne := of_decide_eq_false (hnone m hm)
      rw [cstr_eq_self (ms.names m hm)] at hne
      exact hne heq
    · intro hne m hm
      apply decide_eq_false
      rw [cstr_eq_self (ms.names m hm)]
      exact hne m hm
  · rw [find_n_eq ms hkey, and_iff_left (find_eq_exact ms hkey), or_iff_left fun h => hkey h.1,
      and_iff_right hkey, exact]
    have hprefix : ∀ m : Bytes × Json ν, decide (m.1 = key) = true →
        key.isPrefixOf m.1 = true := by
      intro m hm
      rw [of_decide_eq_true hm]
      exact List.isPrefixOf_iff_prefix.mpr (List.prefix_refl key)
    rw [findIdx?_eq_iff hprefix]
    simp only [decide_eq_true_iff]

/-- The members `ab` and `a`. -/
def extended : Members Unit := ⟨[(str "ab", .null), (str "a", .null)], by decide⟩

/-- The key `a` finds the member `ab` in front of it. -/
theorem not_same_extended : ¬ Same extended (str "a") := by
  intro h
  exact absurd h.1 (by decide)

end Suil.Json
