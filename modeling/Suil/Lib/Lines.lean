import Mathlib

set_option autoImplicit false

/-! # Lines

A text in which a line ends with two characters, the second of them not the first one again. `lines`
cuts it in one pass; `lines_append_end` and `lines_unlines` are the rules to reason with. -/

namespace Lines

variable {α : Type} (cr lf : α)

/-- A text of lines. -/
def unlines (ls : List (List α)) : List α := (ls.map (· ++ [cr, lf])).flatten

/-- What can be a line. -/
def Unbroken (u : List α) : Prop := ¬ [cr, lf] <:+: u

section

variable {cr lf}

theorem unlines_cons (u : List α) (ls : List (List α)) :
    unlines cr lf (u :: ls) = u ++ cr :: lf :: unlines cr lf ls := by
  simp [unlines]

theorem unlines_append (ls ls' : List (List α)) :
    unlines cr lf (ls ++ ls') = unlines cr lf ls ++ unlines cr lf ls' := by
  simp [unlines]

theorem unbroken_nil : Unbroken cr lf [] := by simp [Unbroken]

theorem unbroken_cons {x : α} {u : List α} :
    Unbroken cr lf (x :: u) ↔ ¬ (x = cr ∧ u.head? = some lf) ∧ Unbroken cr lf u := by
  unfold Unbroken
  rw [List.infix_cons_iff, not_or]
  refine and_congr_left fun _ => not_congr ?_
  rw [List.cons_prefix_cons, eq_comm]
  refine and_congr_right fun _ => ?_
  cases u with
  | nil => simp
  | cons y u => simp [List.cons_prefix_cons, eq_comm]

theorem unbroken_append {u v : List α} (h : cr ∉ u) : Unbroken cr lf (u ++ v) ↔ Unbroken cr lf v := by
  induction u with
  | nil => rfl
  | cons x u ih =>
      rw [List.mem_cons, not_or] at h
      rw [List.cons_append, unbroken_cons, ih h.2, and_iff_right]
      exact fun hx => h.1 hx.1.symm

/-- The end of a line does not come about behind a line, but for the second of the characters. -/
theorem unbroken_concat {u : List α} {x : α} (h : x ≠ lf) :
    Unbroken cr lf (u ++ [x]) ↔ Unbroken cr lf u := by
  induction u with
  | nil => simp [unbroken_cons, unbroken_nil]
  | cons y u ih =>
      rw [List.cons_append, unbroken_cons, unbroken_cons, ih]
      cases u with
      | nil => simp [h]
      | cons z u => rfl

/-- Every text is made of lines and a rest. -/
theorem exists_unlines (t : List α) : ∃ ls r, t = unlines cr lf ls ++ r ∧
    (∀ u ∈ ls, Unbroken cr lf u) ∧ Unbroken cr lf r := by
  induction t with
  | nil => exact ⟨[], [], rfl, nofun, unbroken_nil⟩
  | cons x t ih =>
      obtain ⟨ls, r, rfl, hls, hr⟩ := ih
      cases ls with
      | nil =>
          by_cases hx : x = cr ∧ r.head? = some lf
          · obtain ⟨rfl, hhead⟩ := hx
            obtain ⟨r', rfl⟩ := List.head?_eq_some_iff.mp hhead
            exact ⟨[[]], r', rfl, by simpa using unbroken_nil, (unbroken_cons.mp hr).2⟩
          · exact ⟨[], x :: r, rfl, nofun, unbroken_cons.mpr ⟨hx, hr⟩⟩
      | cons u ls =>
          rw [List.forall_mem_cons] at hls
          by_cases hx : x = cr ∧ u.head? = some lf
          · obtain ⟨rfl, hhead⟩ := hx
            obtain ⟨u', rfl⟩ := List.head?_eq_some_iff.mp hhead
            refine ⟨[] :: u' :: ls, r, by simp [unlines], ?_, hr⟩
            rw [List.forall_mem_cons, List.forall_mem_cons]
            exact ⟨unbroken_nil, (unbroken_cons.mp hls.1).2, hls.2⟩
          · refine ⟨(x :: u) :: ls, r, by simp [unlines], ?_, hr⟩
            rw [List.forall_mem_cons]
            exact ⟨unbroken_cons.mpr ⟨hx, hls.1⟩, hls.2⟩

end

variable [DecidableEq α]

instance (u : List α) : Decidable (Unbroken cr lf u) := inferInstanceAs (Decidable (¬ _))

/-- The lines of a text that comes behind the part `cur` of its first line, and what is behind the
last one. -/
def linesFrom : List α → List α → List (List α) × List α
  | cur, [] => ([], cur)
  | cur, [x] => ([], cur ++ [x])
  | cur, x :: y :: l =>
      if x = cr ∧ y = lf then
        let r := linesFrom [] l
        (cur :: r.1, r.2)
      else linesFrom (cur ++ [x]) (y :: l)

/-- The lines of a text, and what is behind the last one. -/
def lines (l : List α) : List (List α) × List α := linesFrom cr lf [] l

/-! ## One line -/

variable {cr lf}

theorem linesFrom_unbroken {u : List α} (h : Unbroken cr lf u) (cur : List α) :
    linesFrom cr lf cur u = ([], cur ++ u) := by
  induction u generalizing cur with
  | nil => rw [linesFrom, List.append_nil]
  | cons x u ih =>
      obtain ⟨hx, hu⟩ := unbroken_cons.mp h
      cases u with
      | nil => rw [linesFrom]
      | cons y u =>
          rw [linesFrom, if_neg (by simpa using hx), ih hu, List.append_assoc]
          rfl

theorem linesFrom_append (hne : cr ≠ lf) {u : List α} (h : Unbroken cr lf u) (cur l : List α) :
    linesFrom cr lf cur (u ++ cr :: lf :: l) =
      ((cur ++ u) :: (lines cr lf l).1, (lines cr lf l).2) := by
  induction u generalizing cur with
  | nil =>
      rw [List.nil_append, linesFrom, if_pos ⟨rfl, rfl⟩, List.append_nil]
      rfl
  | cons x u ih =>
      obtain ⟨hx, hu⟩ := unbroken_cons.mp h
      have hgo : linesFrom cr lf cur (x :: (u ++ cr :: lf :: l)) =
          linesFrom cr lf (cur ++ [x]) (u ++ cr :: lf :: l) := by
        cases u with
        | nil => exact (linesFrom.eq_3 cr lf cur x cr (lf :: l)).trans (if_neg fun h => hne h.2)
        | cons y u => exact (linesFrom.eq_3 cr lf cur x y _).trans (if_neg (by simpa using hx))
      rw [List.cons_append, hgo, ih hu, List.append_assoc]
      rfl

/-! ## Texts -/

theorem lines_unlines (hne : cr ≠ lf) {ls : List (List α)} (h : ∀ u ∈ ls, Unbroken cr lf u)
    (l : List α) : lines cr lf (unlines cr lf ls ++ l) =
      (ls ++ (lines cr lf l).1, (lines cr lf l).2) := by
  induction ls with
  | nil => rfl
  | cons u ls ih =>
      rw [List.forall_mem_cons] at h
      rw [unlines_cons, List.append_assoc, List.cons_append, List.cons_append, lines,
        linesFrom_append hne h.1, ih h.2]
      rfl

theorem lines_unbroken {u : List α} (h : Unbroken cr lf u) : lines cr lf u = ([], u) :=
  linesFrom_unbroken h []

/-- The lines of a text are lines, and with what is behind them they are the text. -/
theorem lines_spec (hne : cr ≠ lf) (t : List α) :
    t = unlines cr lf (lines cr lf t).1 ++ (lines cr lf t).2 ∧
      (∀ u ∈ (lines cr lf t).1, Unbroken cr lf u) ∧ Unbroken cr lf (lines cr lf t).2 := by
  obtain ⟨ls, r, rfl, hls, hr⟩ := @exists_unlines α cr lf t
  rw [lines_unlines hne hls, lines_unbroken hr, List.append_nil]
  exact ⟨rfl, hls, hr⟩

/-- A line that ends cuts a text in two. -/
theorem lines_append_end (hne : cr ≠ lf) (t l : List α) :
    lines cr lf (t ++ cr :: lf :: l) =
      ((lines cr lf t).1 ++ (lines cr lf t).2 :: (lines cr lf l).1, (lines cr lf l).2) := by
  obtain ⟨ht, hls, hr⟩ := lines_spec hne t
  calc lines cr lf (t ++ cr :: lf :: l)
      = lines cr lf (unlines cr lf (lines cr lf t).1 ++ ((lines cr lf t).2 ++ cr :: lf :: l)) := by
        rw [← List.append_assoc, ← ht]
    _ = _ := by
        have hrest : lines cr lf ((lines cr lf t).2 ++ cr :: lf :: l) =
            ((lines cr lf t).2 :: (lines cr lf l).1, (lines cr lf l).2) := linesFrom_append hne hr [] l
        rw [lines_unlines hne hls, hrest]

end Lines
