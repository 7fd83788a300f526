import Mathlib

set_option autoImplicit false

/-! # Cursors over lists of lists

A place is the number of a list and of an element in it. `next` goes to the next element, and behind
the last one to the place behind the last list. `remaining` is what is ahead, each element with its
place; `remaining_cons` is the rule for a step. -/

namespace Cursor

variable {α : Type}

/-- The element at a place. -/
def item (xss : List (List α)) (p : Nat × Nat) : Option α := xss[p.1]?.bind fun xs => xs[p.2]?

/-- The place behind another one. -/
def next (xss : List (List α)) (p : Nat × Nat) : Nat × Nat :=
  match xss[p.1]? with
  | none => p
  | some xs => if xs.length ≤ p.2 + 1 then (p.1 + 1, 0) else (p.1, p.2 + 1)

/-- The elements of one list, from a place in it on. -/
def places (k : Nat) : Nat → List α → List ((Nat × Nat) × α)
  | _, [] => []
  | j, x :: xs => ((k, j), x) :: places k (j + 1) xs

/-- The elements of the lists, the first of which has the number `k`. -/
def numberFrom : Nat → List (List α) → List ((Nat × Nat) × α)
  | _, [] => []
  | k, xs :: xss => places k 0 xs ++ numberFrom (k + 1) xss

/-- All elements with their places, in their order. -/
def numbered (xss : List (List α)) : List ((Nat × Nat) × α) := numberFrom 0 xss

/-- The elements from a place on. -/
def remaining (xss : List (List α)) (p : Nat × Nat) : List ((Nat × Nat) × α) :=
  match xss.drop p.1 with
  | [] => []
  | xs :: rest => places p.1 p.2 (xs.drop p.2) ++ numberFrom (p.1 + 1) rest

theorem remaining_start (xss : List (List α)) : remaining xss (0, 0) = numbered xss := by
  cases xss with
  | nil => rfl
  | cons xs xss => rfl

/-- At the start of a list, what remains is that list and those behind it. -/
theorem remaining_fst (xss : List (List α)) (k : Nat) :
    remaining xss (k, 0) = numberFrom k (xss.drop k) := by
  unfold remaining
  dsimp only
  cases xss.drop k with
  | nil => rfl
  | cons xs rest => rfl

/-- A step of the cursor takes the first of what remains. -/
theorem remaining_cons {xss : List (List α)} {p : Nat × Nat} {x : α} (h : item xss p = some x) :
    remaining xss p = (p, x) :: remaining xss (next xss p) := by
  obtain ⟨k, j⟩ := p
  obtain ⟨xs, hxs, hx⟩ := Option.bind_eq_some_iff.mp h
  dsimp only at hxs hx
  obtain ⟨hk, hget⟩ := List.getElem?_eq_some_iff.mp hxs
  obtain ⟨hj, hgetx⟩ := List.getElem?_eq_some_iff.mp hx
  have hdrop : xss.drop k = xs :: xss.drop (k + 1) := by rw [List.drop_eq_getElem_cons hk, hget]
  have hrow : xs.drop j = x :: xs.drop (j + 1) := by rw [List.drop_eq_getElem_cons hj, hgetx]
  have hhere : remaining xss (k, j) =
      ((k, j), x) :: (places k (j + 1) (xs.drop (j + 1)) ++ numberFrom (k + 1) (xss.drop (k + 1))) := by
    unfold remaining
    dsimp only
    rw [hdrop]
    dsimp only
    rw [hrow, places, List.cons_append]
  rw [hhere]
  congr 1
  unfold next
  dsimp only
  rw [hxs]
  dsimp only
  by_cases hlast : xs.length ≤ j + 1
  · rw [if_pos hlast, remaining_fst, List.drop_eq_nil_of_le hlast, places, List.nil_append]
  · rw [if_neg hlast]
    unfold remaining
    dsimp only
    rw [hdrop]

theorem remaining_of_end {xss : List (List α)} {p : Nat × Nat} (h : xss.length ≤ p.1) :
    remaining xss p = [] := by
  unfold remaining
  rw [List.drop_eq_nil_of_le h]

theorem next_fst_le {xss : List (List α)} {p : Nat × Nat} {x : α} (h : item xss p = some x) :
    (next xss p).1 ≤ xss.length := by
  obtain ⟨xs, hxs, -⟩ := Option.bind_eq_some_iff.mp h
  obtain ⟨hlt, -⟩ := List.getElem?_eq_some_iff.mp hxs
  unfold next
  rw [hxs]
  dsimp only
  split
  · exact hlt
  · exact Nat.le_of_lt hlt

/-- When no list is empty and there is one, there is an element at the start. -/
theorem exists_item_start {xss : List (List α)} (hne : ∀ xs ∈ xss, xs ≠ []) (h : xss ≠ []) :
    ∃ x, item xss (0, 0) = some x := by
  obtain ⟨xs, xss, rfl⟩ := List.exists_cons_of_ne_nil h
  obtain ⟨x, xs, rfl⟩ := List.exists_cons_of_ne_nil (hne xs List.mem_cons_self)
  exact ⟨x, rfl⟩

/-- When no list is empty, there is an element at the next place unless it is the end. -/
theorem exists_item_next {xss : List (List α)} (hne : ∀ xs ∈ xss, xs ≠ []) {p : Nat × Nat} {x : α}
    (h : item xss p = some x) (hlt : (next xss p).1 < xss.length) :
    ∃ y, item xss (next xss p) = some y := by
  obtain ⟨k, j⟩ := p
  obtain ⟨xs, hxs, hx⟩ := Option.bind_eq_some_iff.mp h
  dsimp only at hxs hx
  unfold next at hlt ⊢
  dsimp only at hlt ⊢
  rw [hxs] at hlt ⊢
  dsimp only at hlt ⊢
  by_cases hlast : xs.length ≤ j + 1
  · rw [if_pos hlast] at hlt ⊢
    have hpos : 0 < (xss[k + 1]).length := List.length_pos_iff.mpr (hne _ (List.getElem_mem hlt))
    exact ⟨xss[k + 1][0], by simp [item, List.getElem?_eq_getElem hlt]⟩
  · rw [if_neg hlast]
    exact ⟨xs[j + 1], by simp [item, hxs, List.getElem?_eq_getElem (show j + 1 < xs.length by omega)]⟩

theorem length_places (k : Nat) (xs : List α) (j : Nat) : (places k j xs).length = xs.length := by
  induction xs generalizing j with
  | nil => rfl
  | cons x xs ih => rw [places, List.length_cons, List.length_cons, ih]

/-- There are as many places as elements. -/
theorem length_numbered (xss : List (List α)) : (numbered xss).length = xss.flatten.length := by
  have hfrom : ∀ k, (numberFrom k xss).length = xss.flatten.length := by
    induction xss with
    | nil => exact fun _ => rfl
    | cons xs xss ih =>
        intro k
        rw [numberFrom, List.length_append, length_places, ih, List.flatten_cons, List.length_append]
  exact hfrom 0

end Cursor
