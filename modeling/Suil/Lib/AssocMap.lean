import Mathlib

set_option autoImplicit false

/-! # Maps over a comparison of keys

A map is the list of its entries. `hit` says whether an entry under one key is found under
another; nothing is asked of it until `find_insertAll`, where it is an equivalence on the keys that
occur. -/

namespace AssocMap

variable {κ α : Type} (hit : κ → κ → Bool)

def find (m : List (κ × α)) (key : κ) : Option α := (m.find? fun e => hit e.1 key).map (·.2)

/-- A key that is there keeps its value. -/
def emplace (m : List (κ × α)) (key : κ) (v : α) : List (κ × α) :=
  if (find hit m key).isSome then m else m ++ [(key, v)]

def insertAll (ins : List (κ × α)) : List (κ × α) :=
  ins.foldl (fun m e => emplace hit m e.1 e.2) []

/-- `hit` is an equivalence on the keys with the property `P`. -/
structure EquivOn (P : κ → Prop) : Prop where
  refl : ∀ a, P a → hit a a = true
  symm : ∀ a b, P a → P b → hit a b = true → hit b a = true
  trans : ∀ a b c, P a → P b → P c → hit a b = true → hit b c = true → hit a c = true

variable {hit}

theorem find_eq_none_iff {m : List (κ × α)} {key : κ} :
    find hit m key = none ↔ ∀ e ∈ m, hit e.1 key = false := by
  rw [find, Option.map_eq_none_iff, List.find?_eq_none]
  simp only [Bool.not_eq_true]

theorem find_append (m m' : List (κ × α)) (key : κ) :
    find hit (m ++ m') key = (find hit m key).or (find hit m' key) := by
  rw [find, List.find?_append, find, find]
  cases m.find? fun e => hit e.1 key with
  | none => rfl
  | some e => rfl

theorem insertAll_concat (ins : List (κ × α)) (e : κ × α) :
    insertAll hit (ins ++ [e]) = emplace hit (insertAll hit ins) e.1 e.2 := by
  rw [insertAll, List.foldl_append]
  rfl

theorem emplace_of_some {m : List (κ × α)} {key : κ} {w : α} (h : find hit m key = some w) (v : α) :
    emplace hit m key v = m := by
  rw [emplace, h]
  rfl

theorem emplace_of_none {m : List (κ × α)} {key : κ} (h : find hit m key = none) (v : α) :
    emplace hit m key v = m ++ [(key, v)] := by
  rw [emplace, h]
  rfl

/-- Keys that are found only under themselves. -/
theorem equivOn_beq [BEq κ] [LawfulBEq κ] : EquivOn (fun a b : κ => a == b) fun _ => True where
  refl a _ := beq_self_eq_true a
  symm a b _ _ h := by
    rw [eq_of_beq h]
    exact beq_self_eq_true b
  trans a b c _ _ _ h h' := by
    rw [eq_of_beq h]
    exact h'

/-- What is found was inserted. -/
theorem mem_of_find {m : List (κ × α)} {key : κ} {v : α} (h : find hit m key = some v) :
    ∃ k, (k, v) ∈ m ∧ hit k key = true := by
  obtain ⟨e, he, rfl⟩ := Option.map_eq_some_iff.mp h
  exact ⟨e.1, List.mem_of_find?_eq_some he, List.find?_some (p := fun e : κ × α => hit e.1 key) he⟩

/-- Entries of which none is found under a later key are all kept. -/
theorem insertAll_of_pairwise {ins : List (κ × α)}
    (h : ins.Pairwise fun e e' => hit e.1 e'.1 = false) : insertAll hit ins = ins := by
  induction ins using List.reverseRecOn with
  | nil => rfl
  | append_singleton ins e ih =>
      obtain ⟨hins, -, hlast⟩ := List.pairwise_append.mp h
      rw [insertAll_concat, ih hins]
      exact emplace_of_none (find_eq_none_iff.mpr fun e' he' =>
        hlast e' he' e (List.mem_singleton_self e)) e.2

theorem mem_emplace_of_mem {m : List (κ × α)} {e : κ × α} (h : e ∈ m) (key : κ) (v : α) :
    e ∈ emplace hit m key v := by
  rw [emplace]
  split_ifs
  · exact h
  · exact List.mem_append_left _ h

/-- What is kept stands in the order of the insertions. -/
theorem insertAll_sublist (ins : List (κ × α)) : (insertAll hit ins).Sublist ins := by
  induction ins using List.reverseRecOn with
  | nil => exact .slnil
  | append_singleton ins e ih =>
      rw [insertAll_concat, emplace]
      split_ifs
      · exact ih.trans (List.sublist_append_left ins [e])
      · exact ih.append_right [e]

/-- Something is kept. -/
theorem insertAll_ne_nil {ins : List (κ × α)} (h : ins ≠ []) : insertAll hit ins ≠ [] := by
  obtain ⟨init, e, rfl⟩ := (List.eq_nil_or_concat' ins).resolve_left h
  rw [insertAll_concat, emplace]
  split_ifs with hfind
  · rintro hnil
    rw [hnil] at hfind
    nomatch hfind
  · exact List.append_ne_nil_of_right_ne_nil _ (List.cons_ne_nil _ _)

/-- Nothing is kept that was not inserted. -/
theorem mem_of_mem_insertAll {ins : List (κ × α)} {e : κ × α} (h : e ∈ insertAll hit ins) :
    e ∈ ins := (insertAll_sublist ins).subset h

/-- No entry is found under the key of a later one. -/
theorem insertAll_pairwise (ins : List (κ × α)) :
    (insertAll hit ins).Pairwise fun e e' => hit e.1 e'.1 = false := by
  induction ins using List.reverseRecOn with
  | nil => exact .nil
  | append_singleton ins e ih =>
      rw [insertAll_concat]
      cases hfind : find hit (insertAll hit ins) e.1 with
      | some v =>
          rw [emplace_of_some hfind]
          exact ih
      | none =>
          rw [emplace_of_none hfind]
          refine List.pairwise_append.mpr ⟨ih, List.pairwise_singleton _ _, ?_⟩
          intro e' he' e'' he''
          rw [List.mem_singleton.mp he'']
          exact find_eq_none_iff.mp hfind e' he'

/-- **Every entry is kept exactly when entries that are found under each other's keys are the same.** -/
theorem forall_mem_insertAll_iff (hsymm : ∀ a b, hit a b = hit b a) {ins : List (κ × α)} :
    (∀ e ∈ ins, e ∈ insertAll hit ins) ↔
      ∀ e ∈ ins, ∀ e' ∈ ins, hit e.1 e'.1 = true → e = e' := by
  constructor
  · intro h e he e' he' hhit
    have : Std.Symm fun a b : κ × α => hit a.1 b.1 = false := ⟨fun a b hab => hsymm b.1 a.1 ▸ hab⟩
    by_contra hne
    rw [(insertAll_pairwise ins).forall (h e he) (h e' he') hne] at hhit
    cases hhit
  · intro h
    induction ins using List.reverseRecOn with
    | nil => exact nofun
    | append_singleton ins e ih =>
        have hrest := ih fun e' he' e'' he'' =>
          h e' (List.mem_append_left _ he') e'' (List.mem_append_left _ he'')
        have hlast := List.mem_append_right ins (List.mem_singleton_self e)
        rw [insertAll_concat]
        intro e' he'
        rcases List.mem_append.mp he' with hold | hnew
        · exact mem_emplace_of_mem (hrest e' hold) _ _
        · rw [List.mem_singleton.mp hnew]
          cases hfind : find hit (insertAll hit ins) e.1 with
          | none =>
              rw [emplace_of_none hfind]
              exact List.mem_append_right _ (List.mem_singleton_self _)
          | some v =>
              rw [emplace_of_some hfind]
              obtain ⟨k, hk, hhit⟩ := mem_of_find hfind
              have hin := mem_of_mem_insertAll hk
              rwa [h _ (List.mem_append_left _ hin) e hlast hhit] at hk

/-- **A key is found with the first value that was inserted under an equivalent key.** -/
theorem find_insertAll {P : κ → Prop} (h : EquivOn hit P) {ins : List (κ × α)} {key : κ}
    (hins : ∀ e ∈ ins, P e.1) (hkey : P key) :
    find hit (insertAll hit ins) key = find hit ins key := by
  induction ins using List.reverseRecOn generalizing key with
  | nil => rfl
  | append_singleton ins e ih =>
      have hrest : ∀ e' ∈ ins, P e'.1 := fun e' he' => hins e' (List.mem_append_left _ he')
      have he : P e.1 := hins e (List.mem_append_right _ (List.mem_singleton_self e))
      rw [insertAll_concat, emplace, ih hrest he, find_append ins]
      cases hfound : find hit ins e.1 with
      | none =>
          rw [if_neg (by simp), find_append, ih hrest hkey]
      | some v =>
          rw [if_pos (Option.isSome_some), ih hrest hkey]
          cases hk : find hit ins key with
          | some w => rfl
          | none =>
              -- an entry that is found under `e.1` would be found under `key`
              have hnot : hit e.1 key = false := by
                by_contra hhit
                rw [Bool.not_eq_false] at hhit
                obtain ⟨e', he', hhit'⟩ : ∃ e' ∈ ins, hit e'.1 e.1 = true := by
                  by_contra hall
                  have hnone : find hit ins e.1 = none := find_eq_none_iff.mpr fun e' he' => by
                    by_contra hne
                    exact hall ⟨e', he', by rwa [Bool.not_eq_false] at hne⟩
                  rw [hnone] at hfound
                  cases hfound
                have htrans := h.trans _ _ _ (hrest e' he') he hkey hhit' hhit
                rw [find_eq_none_iff.mp hk e' he'] at htrans
                cases htrans
              have hlast : find hit [e] key = none := find_eq_none_iff.mpr fun e' he' => by
                cases List.mem_singleton.mp he'
                exact hnot
              rw [hlast]
              rfl

variable (hit) in
/-- The same of a key that is found only under itself, whatever is asked of the others. -/
theorem find_insertAll_of_iff {ins : List (κ × α)} {key : κ}
    (h : ∀ e ∈ ins, hit e.1 key = true ↔ e.1 = key) :
    find hit (insertAll hit ins) key = find hit ins key := by
  induction ins using List.reverseRecOn with
  | nil => rfl
  | append_singleton ins e ih =>
      rw [List.forall_mem_append, List.forall_mem_singleton] at h
      rw [insertAll_concat, emplace, find_append ins, ← ih h.1]
      by_cases he : e.1 = key
      · rw [he]
        cases hfound : find hit (insertAll hit ins) key with
        | none =>
            rw [if_neg (by simp), find_append, hfound, find, find, List.find?_singleton,
              List.find?_singleton, if_pos (h.2.mpr he), if_pos (he ▸ h.2.mpr he)]
            rfl
        | some v =>
            rw [if_pos (Option.isSome_some), hfound]
            rfl
      · have hnot : find hit [e] key = none := find_eq_none_iff.mpr fun e' he' => by
          rw [List.mem_singleton.mp he', ← Bool.not_eq_true, h.2]
          exact he
        rw [hnot, Option.or_none]
        split_ifs
        · rfl
        · rw [find_append]
          exact (congrArg _ hnot).trans (Option.or_none)

end AssocMap
