import Mathlib

set_option autoImplicit false

/-! # Scopes

The names of a block stand in front of those around it, and a block has every name once. -/

structure Scope (κ ε : Type) where
  block : List (κ × ε)
  outer : List (κ × ε)

namespace Scope

variable {κ ε : Type} [DecidableEq κ]

/-- What a name stands for. -/
def find (s : Scope κ ε) (x : κ) : Option ε := (s.block ++ s.outer).lookup x

/-- A new name of the block; nothing when it has the name already. -/
def declare (s : Scope κ ε) (x : κ) (e : ε) : Option (Scope κ ε) :=
  if x ∈ s.block.map (·.1) then none else some { s with block := s.block ++ [(x, e)] }

/-- Another value for a name of the block. -/
def assign (s : Scope κ ε) (x : κ) (e : ε) : Scope κ ε :=
  { s with block := s.block.map fun b => if b.1 = x then (x, e) else b }

/-! ## Names that are found -/

theorem lookup_eq_none {l : List (κ × ε)} {x : κ} : l.lookup x = none ↔ x ∉ l.map (·.1) := by
  rw [List.lookup_eq_none_iff, List.mem_map]
  constructor
  · rintro h ⟨b, hb, rfl⟩
    exact absurd (h b hb) (by simp)
  · intro h b hb
    exact bne_iff_ne.mpr fun heq => h ⟨b, hb, heq.symm⟩

theorem find_eq_none {s : Scope κ ε} {x : κ} :
    s.find x = none ↔ x ∉ s.block.map (·.1) ∧ x ∉ s.outer.map (·.1) := by
  rw [find, lookup_eq_none, List.map_append, List.mem_append, not_or]

/-- A name that the block does not have is one of those around it. -/
theorem find_of_notMem {b outer : List (κ × ε)} {x : κ} (h : x ∉ b.map (·.1)) :
    find ⟨b, outer⟩ x = find ⟨[], outer⟩ x := by
  rw [find, List.lookup_append, lookup_eq_none.mpr h, Option.none_or]
  rfl

theorem find_concat {b outer : List (κ × ε)} {x : κ} (h : x ∉ b.map (·.1)) (e : ε) :
    find ⟨b ++ [(x, e)], outer⟩ x = some e := by
  rw [find, List.lookup_append, List.lookup_append, lookup_eq_none.mpr h, Option.none_or,
    List.lookup_cons_self, Option.some_or]

theorem find_outer (outer : List (κ × ε)) (x y : κ) (e : ε) :
    find ⟨[], (y, e) :: outer⟩ x = if x = y then some e else find ⟨[], outer⟩ x := by
  rw [find, List.nil_append, List.lookup_cons]
  by_cases h : x = y
  · rw [if_pos h, beq_iff_eq.mpr h]
  · rw [if_neg h, beq_eq_false_iff_ne.mpr h]
    rfl

/-- The last names of a block are those in front of the names around it. -/
theorem find_append (b c outer : List (κ × ε)) (x : κ) :
    find ⟨b ++ c, outer⟩ x = find ⟨b, c ++ outer⟩ x := by
  rw [find, find, List.append_assoc]

/-- A name of the block is found there. -/
theorem exists_find {b : List (κ × ε)} {x : κ} (h : x ∈ b.map (·.1)) (c outer : List (κ × ε)) :
    ∃ e, (x, e) ∈ b ∧ find ⟨b ++ c, outer⟩ x = some e := by
  induction b with
  | nil => nomatch h
  | cons d b ih =>
      obtain ⟨y, e⟩ := d
      by_cases heq : x = y
      · subst heq
        refine ⟨e, List.mem_cons_self, ?_⟩
        rw [find, List.cons_append, List.cons_append, List.lookup_cons_self]
      · obtain ⟨e', hmem, hfind⟩ := ih ((List.mem_cons.mp h).resolve_left heq)
        refine ⟨e', List.mem_cons_of_mem _ hmem, ?_⟩
        rw [← hfind, find, find, List.cons_append, List.cons_append, List.lookup_cons,
          beq_eq_false_iff_ne.mpr heq]

/-- A name that is new is the last one of the block. -/
theorem assign_concat {b outer : List (κ × ε)} {x : κ} (h : x ∉ b.map (·.1)) (e e' : ε) :
    assign ⟨b ++ [(x, e)], outer⟩ x e' = ⟨b ++ [(x, e')], outer⟩ := by
  have hsame : b.map (fun c => if c.1 = x then (x, e') else c) = b := by
    calc b.map (fun c => if c.1 = x then (x, e') else c) = b.map id := by
          apply List.map_congr_left
          intro c hc
          have hne : c.1 ≠ x := fun heq => h (List.mem_map.mpr ⟨c, hc, heq⟩)
          rw [if_neg hne, id]
      _ = b := List.map_id b
  simp only [assign, List.map_append, hsame, List.map_cons, List.map_nil, if_true]

/-- Names that are distinct are found one by one. -/
theorem mapM_find {α β : Type} (g : ε → Option β) {as : List α} {name : α → κ} {f : α → ε × β}
    {outer : List (κ × ε)} {b : List (κ × ε)} (hb : ∀ a ∈ as, name a ∉ b.map (·.1))
    (hnodup : (as.map name).Nodup) (hg : ∀ a ∈ as, g (f a).1 = some (f a).2) :
    (as.mapM fun a => (find ⟨b ++ as.map fun a => (name a, (f a).1), outer⟩ (name a)).bind g) =
      some (as.map fun a => (f a).2) := by
  induction as generalizing b with
  | nil => rfl
  | cons a as ih =>
      rw [List.map_cons, List.nodup_cons] at hnodup
      have hhead : find ⟨b ++ (name a, (f a).1) :: as.map fun a => (name a, (f a).1), outer⟩
          (name a) = some (f a).1 := by
        rw [find, List.append_assoc, List.lookup_append,
          lookup_eq_none.mpr (hb a List.mem_cons_self), Option.none_or, List.cons_append,
          List.lookup_cons_self]
      have htail := ih (b := b ++ [(name a, (f a).1)]) (fun a' ha' hmem => by
          rw [List.map_append, List.mem_append] at hmem
          rcases hmem with hmem | hmem
          · exact hb a' (List.mem_cons_of_mem _ ha') hmem
          · have heq : name a' = name a := List.mem_singleton.mp hmem
            exact hnodup.1 (List.mem_map.mpr ⟨a', ha', heq⟩)) hnodup.2
        fun a' ha' => hg a' (List.mem_cons_of_mem _ ha')
      rw [List.append_assoc] at htail
      simp only [List.mapM_cons, List.map_cons, hhead, Option.bind_some, hg a List.mem_cons_self]
      simp only [List.singleton_append] at htail
      rw [htail]
      rfl

end Scope
