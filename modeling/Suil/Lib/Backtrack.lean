import Mathlib

set_option autoImplicit false

/-! # Backtracking searches that hold values in a shared store

A depth-first search over a finite tree pushes a label on a shared store when it enters a
branch and pops it when it leaves the branch. A walk that completes takes the whole store
with it and leaves an empty one behind, so that the walks explored later no longer hold the
labels they share with it. The search keeps the first walk with the least positive mark.

* `SearchTree.run` is the search over an arbitrary store.
* `SearchTree.held` says, without running anything, what the store holds at every visit: the
  labels of the walk beyond what it shares with the walk completed last (`beyond`).
* `SearchTree.run_ok` and `SearchTree.run_error` say that the search over a store of bounded room
  succeeds exactly when everything it has to hold fits, and that it then returns
  `SearchTree.chosen`.
-/

namespace Backtrack

variable {ℓ σ ε α β : Type}

/-! ## Keeping the least positive mark -/

/-- Replace `best` by `new` if `new` has a mark and `best` has none or a larger one. -/
def keep (best new : Nat × α) : Nat × α :=
  if new.1 ≠ 0 ∧ (best.1 = 0 ∨ new.1 < best.1) then new else best

theorem keep_zero (b : Nat × α) (x : α) : keep b (0, x) = b := by
  simp [keep]

theorem keep_of_zero {b c : Nat × α} (h : c.1 = 0) : keep b c = b := by
  simp [keep, h]

theorem keep_assoc (b a c : Nat × α) : keep b (keep a c) = keep (keep b a) c := by
  unfold keep
  split_ifs <;> first | rfl | omega

theorem keep_foldl (b a : Nat × α) (cs : List (Nat × α)) :
    keep b (cs.foldl keep a) = cs.foldl keep (keep b a) := by
  induction cs generalizing a with
  | nil => rfl
  | cons c cs ih => rw [List.foldl_cons, List.foldl_cons, ih, keep_assoc]

theorem keep_map (f : α → β) (b c : Nat × α) :
    keep (b.1, f b.2) (c.1, f c.2) = ((keep b c).1, f (keep b c).2) := by
  unfold keep
  split_ifs <;> rfl

theorem foldl_keep_map (f : α → β) (cs : List (Nat × α)) (b : Nat × α) :
    (cs.map (fun c => (c.1, f c.2))).foldl keep (b.1, f b.2)
      = ((cs.foldl keep b).1, f (cs.foldl keep b).2) := by
  induction cs generalizing b with
  | nil => rfl
  | cons c cs ih => rw [List.map_cons, List.foldl_cons, List.foldl_cons, keep_map, ih]

/-- The least positive number of a list, `0` if there is none. -/
def leastPos (ms : List Nat) : Nat := (ms.filter (0 < ·)).min?.getD 0

/-- The least positive number is characterised by being a positive bound that is attained. -/
theorem leastPos_eq_iff (ms : List Nat) (m : Nat) :
    leastPos ms = m ↔
      (m = 0 ∧ ∀ k ∈ ms, k = 0) ∨ (0 < m ∧ m ∈ ms ∧ ∀ k ∈ ms, 0 < k → m ≤ k) := by
  unfold leastPos
  cases hmin : (ms.filter (0 < ·)).min? with
  | none =>
      have hnil : ms.filter (0 < ·) = [] := by simpa using hmin
      have hzero : ∀ k ∈ ms, k = 0 := by
        intro k hk
        have := List.filter_eq_nil_iff.mp hnil k hk
        simp at this; exact this
      simp only [Option.getD_none]
      constructor
      · rintro rfl; exact Or.inl ⟨rfl, hzero⟩
      · rintro (⟨rfl, -⟩ | ⟨hpos, hmem, -⟩)
        · rfl
        · exact absurd (hzero m hmem) (by omega)
  | some a =>
      obtain ⟨hmem, hle⟩ := List.min?_eq_some_iff.mp hmin
      have ha : a ∈ ms ∧ 0 < a := by simpa using hmem
      have hle' : ∀ k ∈ ms, 0 < k → a ≤ k := fun k hk hpos => hle k (by simpa using ⟨hk, hpos⟩)
      simp only [Option.getD_some]
      constructor
      · rintro rfl; exact Or.inr ⟨ha.2, ha.1, hle'⟩
      · rintro (⟨rfl, hz⟩ | ⟨hpos, hm, hmin'⟩)
        · have := hz a ha.1; omega
        · exact Nat.le_antisymm (hle' m hm hpos) (hmin' a ha.1 ha.2)

/-- Two lists with the same positive members have the same least one. -/
theorem leastPos_congr {ms ns : List Nat} (h : ∀ m, 0 < m → (m ∈ ms ↔ m ∈ ns)) :
    leastPos ms = leastPos ns := by
  rw [leastPos_eq_iff]
  rcases (leastPos_eq_iff ns _).mp rfl with ⟨h0, hz⟩ | ⟨hpos, hmem, hle⟩
  · refine Or.inl ⟨h0, fun k hk => ?_⟩
    by_contra hne
    have hk0 : 0 < k := Nat.pos_of_ne_zero hne
    exact hne (hz k ((h k hk0).mp hk))
  · refine Or.inr ⟨hpos, (h _ hpos).mpr hmem, fun k hk hk0 => hle k ((h k hk0).mp hk) hk0⟩

private theorem foldl_keep_least (cs : List (Nat × α)) (b : Nat × α) :
    ((cs.foldl keep b).1 = 0 ∧ ∀ k ∈ b.1 :: cs.map Prod.fst, k = 0) ∨
      (0 < (cs.foldl keep b).1 ∧ (cs.foldl keep b).1 ∈ b.1 :: cs.map Prod.fst ∧
        ∀ k ∈ b.1 :: cs.map Prod.fst, 0 < k → (cs.foldl keep b).1 ≤ k) := by
  induction cs generalizing b with
  | nil =>
      by_cases hb : b.1 = 0
      · exact Or.inl ⟨hb, by simpa using hb⟩
      · exact Or.inr ⟨Nat.pos_of_ne_zero hb, by simp, by simp⟩
  | cons c cs ih =>
      by_cases h : c.1 ≠ 0 ∧ (b.1 = 0 ∨ c.1 < b.1)
      · have hc := ih c
        rw [List.foldl_cons, show keep b c = c from if_pos h]
        simp only [List.map_cons, List.mem_cons, forall_eq_or_imp] at hc ⊢
        rcases hc with ⟨-, h0, -⟩ | ⟨hpos, hmem, hle, hles⟩
        · exact absurd h0 h.1
        · exact Or.inr ⟨hpos, by tauto, by have := hle (by omega); omega, hle, hles⟩
      · have hb := ih b
        rw [List.foldl_cons, show keep b c = b from if_neg h]
        simp only [List.map_cons, List.mem_cons, forall_eq_or_imp] at hb ⊢
        rcases hb with ⟨h0, hz, hzs⟩ | ⟨hpos, hmem, hle, hles⟩
        · exact Or.inl ⟨h0, hz, by omega, hzs⟩
        · refine Or.inr ⟨hpos, by tauto, hle, fun hc0 => ?_, hles⟩
          by_cases hb0 : b.1 = 0
          · exact absurd ⟨by omega, Or.inl hb0⟩ h
          · have := hle (by omega)
            omega

/-- Keeping the best candidate finds the least positive mark. -/
theorem foldl_keep_mark (cs : List (Nat × α)) (x : α) :
    (cs.foldl keep (0, x)).1 = leastPos (cs.map Prod.fst) := by
  symm
  rw [leastPos_eq_iff]
  rcases foldl_keep_least cs (0, x) with ⟨h0, hz⟩ | ⟨hpos, hmem, hle⟩
  · exact Or.inl ⟨h0, fun k hk => hz k (List.mem_cons_of_mem _ hk)⟩
  · refine Or.inr ⟨hpos, ?_, fun k hk => hle k (List.mem_cons_of_mem _ hk)⟩
    rcases List.mem_cons.mp hmem with h | h
    · exact absurd h (by simp; omega)
    · exact h

/-! ## The search -/

/-- A search tree. A node is a chain of branches, explored in order and ended by `done`;
`stop m` is a walk that is complete and carries the mark `m`. -/
inductive SearchTree (ℓ : Type) where
  | stop (mark : Nat)
  | done
  | branch (l : ℓ) (sub next : SearchTree ℓ)

/-- A store of labels: the empty one, pushing a label (which may fail) and popping it. -/
structure Store (ℓ σ ε : Type) where
  empty : σ
  push : ℓ → σ → Except ε σ
  pop : ℓ → σ → σ

/-- The search: returns the best walk found with the store it took, and the store left. -/
def SearchTree.run (S : Store ℓ σ ε) : SearchTree ℓ → Nat × σ → σ → Except ε ((Nat × σ) × σ)
  | .stop m, _, s => .ok ((m, s), S.empty)
  | .done, best, s => .ok (best, s)
  | .branch l sub next, best, s => do
      let s ← S.push l s
      let (ret, s) ← sub.run S (0, S.empty) s
      next.run S (keep best ret) (S.pop l s)

/-- Does some walk of the tree complete? -/
def SearchTree.stops : SearchTree ℓ → Bool
  | .stop _ => true
  | .done => false
  | .branch _ sub next => sub.stops || next.stops

/-- The labels of the branches of a node. -/
def SearchTree.labels : SearchTree ℓ → List ℓ
  | .branch l _ next => l :: next.labels
  | _ => []

/-- Is the tree a chain of branches? -/
def SearchTree.isChain : SearchTree ℓ → Bool
  | .stop _ => false
  | _ => true

/-- The branches of every node have different labels. -/
def SearchTree.Wf : SearchTree ℓ → Prop
  | .branch l sub next => l ∉ next.labels ∧ next.isChain = true ∧ sub.Wf ∧ next.Wf
  | _ => True

/-! ## Visits, and what is held at each -/

/-- A visit of the search: a branch is entered, or a walk completes. -/
inductive Visit (ℓ : Type) where
  | enter (walk : List ℓ)
  | stop (walk : List ℓ) (mark : Nat)

/-- The walk of a visit. -/
def Visit.walk : Visit ℓ → List ℓ
  | .enter p => p
  | .stop p _ => p

/-- The same visit seen from the node above. -/
def Visit.under (l : ℓ) : Visit ℓ → Visit ℓ
  | .enter p => .enter (l :: p)
  | .stop p m => .stop (l :: p) m

/-- The visits of the search, in order. -/
def SearchTree.visits : SearchTree ℓ → List (Visit ℓ)
  | .stop m => [.stop [] m]
  | .done => []
  | .branch l sub next => .enter [l] :: (sub.visits.map (.under l) ++ next.visits)

section

variable [DecidableEq ℓ]

/-- The part of the walk `p` beyond what it shares with the walk `q`. -/
def beyond : List ℓ → List ℓ → List ℓ
  | x :: q, y :: p => if x = y then beyond q p else y :: p
  | _, p => p

/-- What is held of the walk `p`: all of it and the labels `held` held at the root, or the
part beyond the walk completed last. -/
def heldOf : List ℓ ⊕ List ℓ → List ℓ → List ℓ
  | .inl held, p => held ++ p
  | .inr last, p => beyond last p

/-- The walk completed last, after one more visit. -/
def lastAfter (c : List ℓ ⊕ List ℓ) : Visit ℓ → List ℓ ⊕ List ℓ
  | .enter _ => c
  | .stop p _ => .inr p

/-- Every visit with the labels held at it. -/
def replay : List ℓ ⊕ List ℓ → List (Visit ℓ) → List (Visit ℓ × List ℓ)
  | _, [] => []
  | c, v :: vs => (v, heldOf c v.walk) :: replay (lastAfter c v) vs

/-- Every visit of the search with the labels held at it. -/
def SearchTree.held (t : SearchTree ℓ) : List (Visit ℓ × List ℓ) := replay (.inl []) t.visits

end

/-- A completed walk with its mark, and what was held. -/
def stopOf : Visit ℓ × List ℓ → Option (Nat × List ℓ × List ℓ)
  | (.enter _, _) => none
  | (.stop p m, held) => some (m, p, held)

/-- The completed walk the search selects: its mark, the walk and what was held of it. -/
def SearchTree.chosen [DecidableEq ℓ] (t : SearchTree ℓ) : Nat × List ℓ × List ℓ :=
  (t.held.filterMap stopOf).foldl keep (0, [], [])

/-! ### A node with given branches -/

/-- The chain of the branches `bs`. -/
def SearchTree.node (bs : List (ℓ × SearchTree ℓ)) : SearchTree ℓ :=
  bs.foldr (fun b next => .branch b.1 b.2 next) .done

/-- Exploring one branch, with the best walk so far and the store. -/
def exploreBranch (S : Store ℓ σ ε) (r : (Nat × σ) × σ) (b : ℓ × SearchTree ℓ) :
    Except ε ((Nat × σ) × σ) := do
  let s ← S.push b.1 r.2
  let (ret, s) ← b.2.run S (0, S.empty) s
  .ok (keep r.1 ret, S.pop b.1 s)

/-- A node explores its branches in order. -/
theorem SearchTree.run_node (S : Store ℓ σ ε) (bs : List (ℓ × SearchTree ℓ)) (best : Nat × σ)
    (s : σ) :
    (SearchTree.node bs).run S best s = bs.foldlM (exploreBranch S) (best, s) := by
  induction bs generalizing best s with
  | nil => rfl
  | cons b bs ih =>
      have hcons : SearchTree.node (b :: bs) = .branch b.1 b.2 (SearchTree.node bs) := rfl
      rw [hcons, SearchTree.run, List.foldlM_cons, exploreBranch]
      simp only [bind, Except.bind]
      cases S.push b.1 s with
      | error e => rfl
      | ok s₁ =>
          cases hr : b.2.run S (0, S.empty) s₁ with
          | error e => simp only [hr]
          | ok r => simp only [hr, ih]

theorem SearchTree.labels_node (bs : List (ℓ × SearchTree ℓ)) :
    (SearchTree.node bs).labels = bs.map Prod.fst := by
  induction bs with
  | nil => rfl
  | cons b bs ih => exact congrArg _ ih

theorem SearchTree.isChain_node (bs : List (ℓ × SearchTree ℓ)) :
    (SearchTree.node bs).isChain = true := by
  cases bs <;> rfl

theorem SearchTree.wf_node {bs : List (ℓ × SearchTree ℓ)} (hnd : (bs.map Prod.fst).Nodup)
    (hwf : ∀ b ∈ bs, b.2.Wf) : (SearchTree.node bs).Wf := by
  induction bs with
  | nil => trivial
  | cons b bs ih =>
      rw [List.map_cons, List.nodup_cons] at hnd
      have hlabel : b.1 ∉ (SearchTree.node bs).labels := by
        rw [SearchTree.labels_node]
        exact hnd.1
      exact ⟨hlabel, SearchTree.isChain_node bs, hwf b List.mem_cons_self,
        ih hnd.2 (fun c hc => hwf c (List.mem_cons_of_mem _ hc))⟩

theorem SearchTree.mem_visits_node (bs : List (ℓ × SearchTree ℓ)) (v : Visit ℓ) :
    v ∈ (SearchTree.node bs).visits ↔
      ∃ b ∈ bs, v = .enter [b.1] ∨ ∃ w ∈ b.2.visits, v = w.under b.1 := by
  induction bs with
  | nil => simp [SearchTree.node, SearchTree.visits]
  | cons b bs ih =>
      have hcons : SearchTree.node (b :: bs) = .branch b.1 b.2 (SearchTree.node bs) := rfl
      rw [hcons, SearchTree.visits, List.mem_cons, List.mem_append, ih, List.mem_map]
      constructor
      · rintro (rfl | ⟨w, hw, rfl⟩ | ⟨c, hc, h⟩)
        · exact ⟨b, List.mem_cons_self, Or.inl rfl⟩
        · exact ⟨b, List.mem_cons_self, Or.inr ⟨w, hw, rfl⟩⟩
        · exact ⟨c, List.mem_cons_of_mem _ hc, h⟩
      · rintro ⟨c, hc, h⟩
        rcases List.mem_cons.mp hc with rfl | hc
        · rcases h with rfl | ⟨w, hw, rfl⟩
          · exact Or.inl rfl
          · exact Or.inr (Or.inl ⟨w, hw, rfl⟩)
        · exact Or.inr (Or.inr ⟨c, hc, h⟩)

/-! ### The trace by recursion on the tree -/

/-- The visits with what is held at them, by recursion on the tree: `held` is held at the
root, and is lost to the next branch once a walk of this branch completes. -/
def SearchTree.trace : SearchTree ℓ → List ℓ → List (Visit ℓ × List ℓ)
  | .stop m, held => [(.stop [] m, held)]
  | .done, _ => []
  | .branch l sub next, held =>
      (.enter [l], held ++ [l]) ::
        ((sub.trace (held ++ [l])).map (fun v => (v.1.under l, v.2)) ++
          next.trace (if sub.stops then [] else held))

theorem Visit.walk_under (l : ℓ) (v : Visit ℓ) : (v.under l).walk = l :: v.walk := by
  cases v <;> rfl

/-- Every walk below a chain starts with the label of one of its branches. -/
theorem SearchTree.walk_head_mem {t : SearchTree ℓ} (hw : t.Wf) (hc : t.isChain = true) :
    ∀ v ∈ t.visits, ∃ l p, v.walk = l :: p ∧ l ∈ t.labels := by
  induction t with
  | stop m => cases hc
  | done => intro v hv; cases hv
  | branch l sub next _ ihn =>
      intro v hv
      simp only [SearchTree.visits, List.mem_cons, List.mem_append, List.mem_map] at hv
      rcases hv with rfl | ⟨w, _, rfl⟩ | hv
      · exact ⟨l, [], rfl, List.mem_cons_self⟩
      · exact ⟨l, w.walk, w.walk_under l, List.mem_cons_self⟩
      · obtain ⟨k, p, hp, hk⟩ := ihn hw.2.2.2 hw.2.1 v hv
        exact ⟨k, p, hp, List.mem_cons_of_mem _ hk⟩

theorem SearchTree.stops_eq_true_iff (t : SearchTree ℓ) :
    t.stops = true ↔ ∃ p m, Visit.stop p m ∈ t.visits := by
  induction t with
  | stop m => simp [SearchTree.stops, SearchTree.visits]
  | done => simp [SearchTree.stops, SearchTree.visits]
  | branch l sub next ihs ihn =>
      simp only [SearchTree.stops, Bool.or_eq_true, ihs, ihn, SearchTree.visits, List.mem_cons,
        List.mem_append, List.mem_map, reduceCtorEq, false_or]
      constructor
      · rintro (⟨p, m, h⟩ | ⟨p, m, h⟩)
        · exact ⟨l :: p, m, Or.inl ⟨_, h, rfl⟩⟩
        · exact ⟨p, m, Or.inr h⟩
      · rintro ⟨p, m, ⟨v, hv, hvp⟩ | h⟩
        · cases v with
          | enter q => cases hvp
          | stop q k => exact Or.inl ⟨q, k, hv⟩
        · exact Or.inr ⟨p, m, h⟩

section

variable [DecidableEq ℓ]

/-- Walks below the branch `l` hold `l` from the root on, or lie beyond a walk below `l`. -/
private def Below (l : ℓ) : List ℓ ⊕ List ℓ → List ℓ ⊕ List ℓ → Prop
  | .inl held, .inl held' => held' = held ++ [l]
  | .inr last, .inr last' => last = l :: last'
  | _, _ => False

private theorem heldOf_below {l : ℓ} {c c' : List ℓ ⊕ List ℓ} (h : Below l c c')
    (p : List ℓ) : heldOf c (l :: p) = heldOf c' p := by
  cases c <;> cases c' <;> simp_all [Below, heldOf, beyond]

private theorem replay_under {l : ℓ} (vs : List (Visit ℓ)) {c c' : List ℓ ⊕ List ℓ}
    (h : Below l c c') :
    replay c (vs.map (.under l)) = (replay c' vs).map (fun v => (v.1.under l, v.2)) := by
  induction vs generalizing c c' with
  | nil => rfl
  | cons v vs ih =>
      have hlast : Below l (lastAfter c (v.under l)) (lastAfter c' v) := by
        cases v with
        | enter p => exact h
        | stop p m => rfl
      simp only [List.map_cons, replay, Visit.walk_under, heldOf_below h, ih hlast]

private theorem replay_append (c : List ℓ ⊕ List ℓ) (vs ws : List (Visit ℓ)) :
    replay c (vs ++ ws) = replay c vs ++ replay (vs.foldl lastAfter c) ws := by
  induction vs generalizing c with
  | nil => rfl
  | cons v vs ih => simp only [List.cons_append, replay, ih, List.foldl_cons]

omit [DecidableEq ℓ] in
/-- After the walks below `l`, either none completed or the last one starts with `l`. -/
private theorem foldl_lastAfter_under (l : ℓ) (t : SearchTree ℓ) (c : List ℓ ⊕ List ℓ) :
    (t.stops = false ∧ (t.visits.map (.under l)).foldl lastAfter c = c) ∨
      (t.stops = true ∧ ∃ q, (t.visits.map (.under l)).foldl lastAfter c = .inr (l :: q)) := by
  have key : ∀ (vs : List (Visit ℓ)) (c : List ℓ ⊕ List ℓ),
      ((∀ p m, Visit.stop p m ∉ vs) ∧ (vs.map (.under l)).foldl lastAfter c = c) ∨
        ((∃ p m, Visit.stop p m ∈ vs) ∧
          ∃ q, (vs.map (.under l)).foldl lastAfter c = .inr (l :: q)) := by
    intro vs
    induction vs with
    | nil => intro c; exact Or.inl ⟨by simp, rfl⟩
    | cons v vs ih =>
        intro c
        rw [List.map_cons, List.foldl_cons]
        cases v with
        | enter p =>
            rcases ih c with ⟨hn, he⟩ | ⟨⟨p', m, hp⟩, he⟩
            · exact Or.inl ⟨by simpa using hn, he⟩
            · exact Or.inr ⟨⟨p', m, List.mem_cons_of_mem _ hp⟩, he⟩
        | stop p m =>
            refine Or.inr ⟨⟨p, m, List.mem_cons_self⟩, ?_⟩
            rcases ih (.inr (l :: p)) with ⟨-, he⟩ | ⟨-, he⟩
            · exact ⟨p, he⟩
            · exact he
  rcases key t.visits c with ⟨hn, he⟩ | ⟨hs, he⟩
  · refine Or.inl ⟨?_, he⟩
    rw [← Bool.not_eq_true, t.stops_eq_true_iff]
    rintro ⟨p, m, hp⟩
    exact hn p m hp
  · exact Or.inr ⟨t.stops_eq_true_iff.mpr hs, he⟩

/-- Walks that do not start with `l` share nothing with a walk that does. -/
private theorem replay_fresh {l : ℓ} (q : List ℓ) (vs : List (Visit ℓ))
    (h : ∀ v ∈ vs, ∃ k p, v.walk = k :: p ∧ k ≠ l) :
    replay (.inr (l :: q)) vs = replay (.inl []) vs := by
  induction vs with
  | nil => rfl
  | cons v vs ih =>
      obtain ⟨k, p, hp, hk⟩ := h v List.mem_cons_self
      have hheld : heldOf (.inr (l :: q)) v.walk = heldOf (.inl []) v.walk := by
        rw [hp]; simp [heldOf, beyond, Ne.symm hk]
      cases v with
      | enter w =>
          simp only [replay, hheld, lastAfter]
          rw [ih (fun v hv => h v (List.mem_cons_of_mem _ hv))]
      | stop w m => simp only [replay, hheld, lastAfter]

theorem SearchTree.trace_eq_replay {t : SearchTree ℓ} (hw : t.Wf) (held : List ℓ) :
    t.trace held = replay (.inl held) t.visits := by
  induction t generalizing held with
  | stop m => simp [SearchTree.trace, SearchTree.visits, replay, heldOf, Visit.walk]
  | done => rfl
  | branch l sub next ihs ihn =>
      obtain ⟨hl, hc, hws, hwn⟩ := hw
      have hsub : replay (.inl held) (sub.visits.map (.under l))
          = (sub.trace (held ++ [l])).map (fun v => (v.1.under l, v.2)) := by
        have hb : Below l (.inl held) (.inl (held ++ [l])) := rfl
        rw [ihs hws, replay_under sub.visits hb]
      have hnext : replay ((sub.visits.map (.under l)).foldl lastAfter (.inl held)) next.visits
          = next.trace (if sub.stops then [] else held) := by
        rcases foldl_lastAfter_under l sub (.inl held) with ⟨hs, he⟩ | ⟨hs, q, he⟩
        · rw [he, hs, ihn hwn]; rfl
        · rw [he, hs, ihn hwn, replay_fresh]
          · rfl
          · intro v hv
            obtain ⟨k, p, hp, hk⟩ := SearchTree.walk_head_mem hwn hc v hv
            exact ⟨k, p, hp, fun h => hl (h ▸ hk)⟩
      simp only [SearchTree.trace, SearchTree.visits, replay, lastAfter, replay_append, hsub, hnext]
      rfl

theorem SearchTree.trace_nil {t : SearchTree ℓ} (hw : t.Wf) : t.trace [] = t.held :=
  SearchTree.trace_eq_replay hw []

end

/-! ## The search over a store of bounded room -/

/-- The mark of a completed walk with what was held of it. -/
def heldMark : Visit ℓ × List ℓ → Option (Nat × List ℓ)
  | (.enter _, _) => none
  | (.stop _ m, held) => some (m, held)

/-- Everything held when a branch is entered fits. -/
def AllFit (Fit : List ℓ → Prop) (vs : List (Visit ℓ × List ℓ)) : Prop :=
  ∀ p held, (Visit.enter p, held) ∈ vs → Fit held

/-- **A store that models a list of labels with room for those lists that fit.** -/
structure Store.Models (S : Store ℓ σ ε) (Repr : List ℓ → σ → Prop) (Fit : List ℓ → Prop) :
    Prop where
  empty : Repr [] S.empty
  push_ok : ∀ {p l s}, Repr p s → Fit (p ++ [l]) →
    ∃ s', S.push l s = .ok s' ∧ Repr (p ++ [l]) s'
  push_error : ∀ {p l s}, Repr p s → ¬ Fit (p ++ [l]) → ∃ e, S.push l s = .error e
  pop : ∀ {p l s}, Repr (p ++ [l]) s → Repr p (S.pop l s)
  pop_empty : ∀ {l s}, Repr [] s → Repr [] (S.pop l s)

theorem filterMap_heldMark_under (l : ℓ) (vs : List (Visit ℓ × List ℓ)) :
    (vs.map (fun v => (v.1.under l, v.2))).filterMap heldMark = vs.filterMap heldMark := by
  rw [List.filterMap_map]
  congr 1
  funext v
  rcases v with ⟨_ | _, _⟩ <;> rfl

theorem allFit_under (Fit : List ℓ → Prop) (l : ℓ) (vs : List (Visit ℓ × List ℓ)) :
    AllFit Fit (vs.map (fun v => (v.1.under l, v.2))) ↔ AllFit Fit vs := by
  constructor
  · intro h p held hp
    exact h (l :: p) held (List.mem_map.mpr ⟨_, hp, rfl⟩)
  · intro h p held hp
    obtain ⟨⟨v, hv⟩, hmem, heq⟩ := List.mem_map.mp hp
    cases v with
    | stop q m => cases heq
    | enter q => cases heq; exact h q _ hmem

theorem allFit_trace_branch {Fit : List ℓ → Prop} (l : ℓ) (sub next : SearchTree ℓ)
    (held : List ℓ) :
    AllFit Fit ((SearchTree.branch l sub next).trace held) ↔
      Fit (held ++ [l]) ∧ AllFit Fit (sub.trace (held ++ [l])) ∧
        AllFit Fit (next.trace (if sub.stops then [] else held)) := by
  rw [← allFit_under Fit l (sub.trace (held ++ [l]))]
  simp only [AllFit, SearchTree.trace, List.mem_cons, List.mem_append, Prod.mk.injEq,
    Visit.enter.injEq]
  constructor
  · intro h
    exact ⟨h [l] _ (Or.inl ⟨rfl, rfl⟩), fun p x hp => h p x (Or.inr (Or.inl hp)),
      fun p x hp => h p x (Or.inr (Or.inr hp))⟩
  · rintro ⟨h1, h2, h3⟩ p x (⟨-, rfl⟩ | hp | hp)
    · exact h1
    · exact h2 p x hp
    · exact h3 p x hp

section

variable {S : Store ℓ σ ε} {Repr : List ℓ → σ → Prop} {Fit : List ℓ → Prop}

/-- A result of the search agrees with a mark and a list of labels. -/
private def Agree (Repr : List ℓ → σ → Prop) (r : Nat × σ) (h : Nat × List ℓ) : Prop :=
  r.1 = h.1 ∧ (h.1 ≠ 0 → Repr h.2 r.2)

private theorem agree_keep {b r : Nat × σ} {hb hr : Nat × List ℓ} (h : Agree Repr b hb)
    (h' : Agree Repr r hr) : Agree Repr (keep b r) (keep hb hr) := by
  unfold keep
  rw [h.1, h'.1]
  split_ifs
  · exact h'
  · exact h

private theorem run_trace (M : S.Models Repr Fit) {t : SearchTree ℓ} (hw : t.Wf) :
    ∀ {held : List ℓ} {s : σ} {best : Nat × σ} {hb : Nat × List ℓ},
      t.isChain = true ∨ hb.1 = 0 → Repr held s → Agree Repr best hb →
      (AllFit Fit (t.trace held) → ∃ r s', t.run S best s = .ok (r, s') ∧
        Agree Repr r (((t.trace held).filterMap heldMark).foldl keep hb) ∧
        Repr (if t.stops then [] else held) s') ∧
      (¬ AllFit Fit (t.trace held) → ∃ e, t.run S best s = .error e) := by
  -- on the tree; the marks that the pushes have seen are those of the trace
  induction t with
  | stop m =>
      intro held s best hb hc hs hbest
      refine ⟨fun _ => ⟨(m, s), S.empty, rfl, ?_, M.empty⟩, fun h => absurd ?_ h⟩
      · have hb0 : hb.1 = 0 := hc.resolve_left (by simp [SearchTree.isChain])
        show Agree Repr (m, s) (keep hb (m, held))
        by_cases hm : m = 0
        · subst hm; rw [keep_zero]; exact ⟨hb0.symm, fun h => absurd hb0 h⟩
        · rw [keep, if_pos ⟨hm, Or.inl hb0⟩]; exact ⟨rfl, fun _ => hs⟩
      · intro p x hp; simp [SearchTree.trace] at hp
  | done =>
      intro held s best hb hc hs hbest
      refine ⟨fun _ => ⟨best, s, rfl, hbest, hs⟩, fun h => absurd ?_ h⟩
      intro p x hp; cases hp
  | branch l sub next ihs ihn =>
      intro held s best hb hc hs hbest
      obtain ⟨-, hchain, hws, hwn⟩ := hw
      have h0 : Agree Repr (0, S.empty) ((0, []) : Nat × List ℓ) := ⟨rfl, fun h => absurd rfl h⟩
      rw [allFit_trace_branch]
      by_cases hfit : Fit (held ++ [l])
      · obtain ⟨s₁, hpush, hs₁⟩ := M.push_ok hs hfit
        obtain ⟨hsok, hserr⟩ := ihs hws (Or.inr rfl) hs₁ h0
        by_cases hfs : AllFit Fit (sub.trace (held ++ [l]))
        · obtain ⟨r, s₂, hrun, hr, hs₂⟩ := hsok hfs
          -- after the sub-search the state is popped, unless a stop has emptied it
          have hs₃ : Repr (if sub.stops then [] else held) (S.pop l s₂) := by
            cases hst : sub.stops with
            | true => rw [hst] at hs₂; exact M.pop_empty hs₂
            | false => rw [hst] at hs₂; exact M.pop hs₂
          obtain ⟨hnok, hnerr⟩ := ihn hwn (Or.inl hchain) hs₃ (agree_keep hbest hr)
          have hstep : (SearchTree.branch l sub next).run S best s
              = next.run S (keep best r) (S.pop l s₂) := by
            simp only [SearchTree.run, bind, Except.bind, hpush, hrun]
          rw [hstep]
          refine ⟨fun ⟨_, _, hfn⟩ => ?_, fun h => hnerr (fun hfn => h ⟨hfit, hfs, hfn⟩)⟩
          obtain ⟨r', s', hrun', hr', hs'⟩ := hnok hfn
          refine ⟨r', s', hrun', ?_, ?_⟩
          · rw [keep_foldl, keep_of_zero (c := ((0, []) : Nat × List ℓ)) rfl] at hr'
            simp only [SearchTree.trace, List.filterMap_cons, heldMark, List.filterMap_append,
              List.foldl_append, filterMap_heldMark_under]
            exact hr'
          · cases hst : sub.stops <;> simp_all [SearchTree.stops]
        · refine ⟨fun h => absurd h.2.1 hfs, fun _ => ?_⟩
          obtain ⟨e, he⟩ := hserr hfs
          exact ⟨e, by simp only [SearchTree.run, bind, Except.bind, hpush, he]⟩
      · refine ⟨fun h => absurd h.1 hfit, fun _ => ?_⟩
        obtain ⟨e, he⟩ := M.push_error hs hfit
        exact ⟨e, by simp only [SearchTree.run, bind, Except.bind, he]⟩

/-- What was held of the chosen walk, without the walk itself. -/
theorem chosen_heldMark [DecidableEq ℓ] (t : SearchTree ℓ) :
    (t.held.filterMap heldMark).foldl keep (0, []) = (t.chosen.1, t.chosen.2.2) := by
  have h := foldl_keep_map (fun c : List ℓ × List ℓ => c.2) (t.held.filterMap stopOf) (0, [], [])
  rw [List.map_filterMap] at h
  rw [SearchTree.chosen, ← h]
  congr 2
  funext v
  rcases v with ⟨_ | _, _⟩ <;> rfl

variable [DecidableEq ℓ]

/-- **A search whose holdings all fit returns the chosen walk**, with a store that holds
what the store held of it. -/
theorem SearchTree.run_ok (M : S.Models Repr Fit) {t : SearchTree ℓ} (hw : t.Wf) {s : σ}
    (hs : Repr [] s)
    (hfit : AllFit Fit t.held) :
    ∃ r s', t.run S (0, S.empty) s = .ok (r, s') ∧ r.1 = t.chosen.1 ∧
      (t.chosen.1 ≠ 0 → Repr t.chosen.2.2 r.2) := by
  have h0 : Agree Repr (0, S.empty) ((0, []) : Nat × List ℓ) := ⟨rfl, fun h => absurd rfl h⟩
  obtain ⟨hok, -⟩ := run_trace M hw (Or.inr rfl) hs h0
  rw [SearchTree.trace_nil hw, chosen_heldMark] at hok
  obtain ⟨r, s', hrun, hr, -⟩ := hok hfit
  exact ⟨r, s', hrun, hr.1, hr.2⟩

/-- **A search that has to hold what does not fit fails.** -/
theorem SearchTree.run_error (M : S.Models Repr Fit) {t : SearchTree ℓ} (hw : t.Wf) {s : σ}
    (hs : Repr [] s) (hfit : ¬ AllFit Fit t.held) : ∃ e, t.run S (0, S.empty) s = .error e := by
  have h0 : Agree Repr (0, S.empty) ((0, []) : Nat × List ℓ) := ⟨rfl, fun h => absurd rfl h⟩
  obtain ⟨-, herr⟩ := run_trace M hw (Or.inr rfl) hs h0
  rw [SearchTree.trace_nil hw] at herr
  exact herr hfit

end

/-! ## The chosen walk -/

section

variable [DecidableEq ℓ]

/-- The walks of a replay are those of its visits. -/
theorem replay_fst (c : List ℓ ⊕ List ℓ) (vs : List (Visit ℓ)) :
    (replay c vs).map Prod.fst = vs := by
  induction vs generalizing c with
  | nil => rfl
  | cons v vs ih => simp only [replay, List.map_cons, ih]

/-- The marks of the completed walks. -/
def SearchTree.marks (t : SearchTree ℓ) : List Nat :=
  t.visits.filterMap (fun v => match v with | .enter _ => none | .stop _ m => some m)

omit [DecidableEq ℓ] in
theorem SearchTree.mem_marks (t : SearchTree ℓ) (m : Nat) :
    m ∈ t.marks ↔ ∃ p, Visit.stop p m ∈ t.visits := by
  simp only [SearchTree.marks, List.mem_filterMap]
  constructor
  · rintro ⟨v, hv, hm⟩
    cases v with
    | enter p => cases hm
    | stop p k => cases hm; exact ⟨p, hv⟩
  · rintro ⟨p, hp⟩
    exact ⟨_, hp, rfl⟩

/-- The chosen walk has the least positive mark of all. -/
theorem SearchTree.chosen_mark (t : SearchTree ℓ) : t.chosen.1 = leastPos t.marks := by
  rw [SearchTree.chosen, foldl_keep_mark]
  conv_rhs => rw [SearchTree.marks, ← replay_fst (.inl []) t.visits, List.filterMap_map]
  rw [List.map_filterMap]
  congr 2
  funext v
  rcases v with ⟨_ | _, _⟩ <;> rfl

private theorem foldl_keep_mem (cs : List (Nat × α)) (b : Nat × α)
    (h : (cs.foldl keep b) ≠ b) : cs.foldl keep b ∈ cs := by
  induction cs generalizing b with
  | nil => exact absurd rfl h
  | cons c cs ih =>
      rw [List.foldl_cons] at h ⊢
      by_cases hk : cs.foldl keep (keep b c) = keep b c
      · rw [hk] at h ⊢
        unfold keep at h ⊢
        split_ifs at h ⊢ <;> simp_all
      · exact List.mem_cons_of_mem _ (ih _ hk)

/-- The chosen walk is a completed walk of the search. -/
theorem SearchTree.chosen_mem (t : SearchTree ℓ) (h : t.chosen.1 ≠ 0) :
    (Visit.stop t.chosen.2.1 t.chosen.1, t.chosen.2.2) ∈ t.held := by
  have hmem : t.chosen ∈ t.held.filterMap stopOf :=
    foldl_keep_mem _ _ (fun he => h (by rw [SearchTree.chosen, he]))
  obtain ⟨⟨v, x⟩, hv, hs⟩ := List.mem_filterMap.mp hmem
  cases v with
  | enter p => cases hs
  | stop p m =>
      have heq : (m, p, x) = t.chosen := by simpa [stopOf] using hs
      rw [← heq]
      exact hv

/-! ## What was held of a completed walk -/

/-- The walks that complete, in order. -/
def completedOf (vs : List (Visit ℓ)) : List (List ℓ) :=
  vs.filterMap (fun v => match v with | .enter _ => none | .stop p _ => some p)

def SearchTree.completed (t : SearchTree ℓ) : List (List ℓ) := completedOf t.visits

/-- The walk `q` is the one that completes just before `p`. -/
def SearchTree.Before (t : SearchTree ℓ) (q p : List ℓ) : Prop := [q, p] <:+: t.completed

/-- What the walk `p` shares with the walk `q`. -/
def shared : List ℓ → List ℓ → List ℓ
  | x :: q, y :: p => if x = y then y :: shared q p else []
  | _, _ => []

theorem shared_append_beyond (q p : List ℓ) : shared q p ++ beyond q p = p := by
  induction q generalizing p with
  | nil => cases p <;> rfl
  | cons x q ih =>
      cases p with
      | nil => rfl
      | cons y p =>
          by_cases h : x = y
          · simp [shared, beyond, h, ih]
          · simp [shared, beyond, h]

omit [DecidableEq ℓ] in
theorem SearchTree.nodup_completed {t : SearchTree ℓ} (hw : t.Wf) : t.completed.Nodup := by
  induction t with
  | stop m => simp [SearchTree.completed, completedOf, SearchTree.visits]
  | done => simp [SearchTree.completed, completedOf, SearchTree.visits]
  | branch l sub next ihs ihn =>
      obtain ⟨hl, hc, hws, hwn⟩ := hw
      have hsub : completedOf (sub.visits.map (.under l)) = sub.completed.map (l :: ·) := by
        rw [SearchTree.completed, completedOf, completedOf, List.filterMap_map, List.map_filterMap]
        congr 1
        funext v
        cases v <;> rfl
      have heq : (SearchTree.branch l sub next).completed
          = sub.completed.map (l :: ·) ++ next.completed := by
        rw [← hsub, SearchTree.completed, SearchTree.visits, completedOf, List.filterMap_cons,
          List.filterMap_append]
        rfl
      rw [heq, List.nodup_append]
      refine ⟨(ihs hws).map (fun a b h => (List.cons.inj h).2), ihn hwn, ?_⟩
      rintro a ha b hb rfl
      obtain ⟨q, -, rfl⟩ := List.mem_map.mp ha
      obtain ⟨v, hv, hvp⟩ := List.mem_filterMap.mp hb
      cases v with
      | enter p => cases hvp
      | stop p m =>
          cases hvp
          obtain ⟨k, p', hp, hk⟩ := SearchTree.walk_head_mem hwn hc _ hv
          cases hp
          exact hl hk

/-- What a replay says is held of a walk that completes. -/
private theorem held_of_mem_replay {vs : List (Visit ℓ)} {c : List ℓ ⊕ List ℓ} {p x : List ℓ}
    {m : Nat} (h : (Visit.stop p m, x) ∈ replay c vs) :
    ∃ pre post, completedOf vs = pre ++ p :: post ∧
      x = heldOf (match pre.getLast? with | none => c | some q => .inr q) p := by
  induction vs generalizing c with
  | nil => cases h
  | cons v vs ih =>
      rw [replay, List.mem_cons] at h
      cases v with
      | enter q =>
          rcases h with h | h
          · cases h
          · exact ih h
      | stop q k =>
          rcases h with h | h
          · cases h
            exact ⟨[], completedOf vs, rfl, rfl⟩
          · obtain ⟨pre, post, heq, hx⟩ := ih h
            refine ⟨q :: pre, post, by rw [List.cons_append, ← heq]; rfl, ?_⟩
            rw [hx, List.getLast?_cons]
            cases pre.getLast? <;> rfl

omit [DecidableEq ℓ] in
private theorem before_iff {cs pre post : List (List ℓ)} {p : List ℓ} (hnd : cs.Nodup)
    (h : cs = pre ++ p :: post) (q : List ℓ) :
    [q, p] <:+: cs ↔ pre.getLast? = some q := by
  constructor
  · rintro ⟨s, r, hsr⟩
    have hcs : (s ++ [q]) ++ p :: r = pre ++ p :: post := by rw [← h, ← hsr]; simp
    rw [h, ← hcs] at hnd
    have hs : p ∉ s ++ [q] := fun hp => (List.nodup_append.mp hnd).2.2 p hp p (by simp) rfl
    have hr : p ∉ r := (List.nodup_cons.mp (List.nodup_append.mp hnd).2.1).1
    have hpre := ((List.append_cons_inj_of_notMem hs hr).mp hcs).1
    rw [← hpre, List.getLast?_concat]
  · intro hq
    obtain ⟨s, rfl⟩ := List.getLast?_eq_some_iff.mp hq
    exact ⟨s, post, by rw [h]; simp⟩

/-- What is held of the chosen walk: what it does not share with the walk completed just
before it. -/
theorem SearchTree.held_chosen {t : SearchTree ℓ} (hw : t.Wf) (h : t.chosen.1 ≠ 0) :
    (∃ q, t.Before q t.chosen.2.1 ∧ t.chosen.2.2 = beyond q t.chosen.2.1) ∨
      (∀ q, ¬ t.Before q t.chosen.2.1) ∧ t.chosen.2.2 = t.chosen.2.1 := by
  obtain ⟨pre, post, heq, hx⟩ := held_of_mem_replay (t.chosen_mem h)
  have hb := before_iff (SearchTree.nodup_completed hw) heq
  cases hlast : pre.getLast? with
  | some q =>
      rw [hlast] at hx
      exact Or.inl ⟨q, (hb q).mpr hlast, hx⟩
  | none =>
      rw [hlast] at hx
      refine Or.inr ⟨fun q hq => ?_, hx⟩
      have := (hb q).mp hq
      rw [hlast] at this
      cases this

omit [DecidableEq ℓ] in
/-- The walk completed just before another is determined by it. -/
theorem SearchTree.Before.unique {t : SearchTree ℓ} (hw : t.Wf) {q q' p : List ℓ} (h : t.Before q p)
    (h' : t.Before q' p) : q = q' := by
  obtain ⟨s, r, hsr⟩ := id h
  have hcs : t.completed = (s ++ [q]) ++ p :: r := by rw [← hsr]; simp
  have hb := before_iff (SearchTree.nodup_completed hw) hcs
  have h1 := (hb q).mp h
  rw [(hb q').mp h'] at h1
  exact (Option.some.inj h1).symm

theorem SearchTree.chosen_visit (t : SearchTree ℓ) (h : t.chosen.1 ≠ 0) :
    Visit.stop t.chosen.2.1 t.chosen.1 ∈ t.visits := by
  have := List.mem_map_of_mem (f := Prod.fst) (t.chosen_mem h)
  rwa [SearchTree.held, replay_fst] at this

end

/-! ## More walks in a tree -/

/-- The second tree is the first one with other marks, and with branches behind the last ones of
some of its nodes, whose labels are light and under which at most one walk completes. -/
inductive SearchTree.Grafted (Light : ℓ → Prop) : SearchTree ℓ → SearchTree ℓ → Prop where
  | stop (m m' : Nat) : Grafted Light (.stop m) (.stop m')
  | done : Grafted Light .done .done
  | branch {l : ℓ} {sub sub' next next' : SearchTree ℓ} (hsub : Grafted Light sub sub')
      (hnext : Grafted Light next next') :
      Grafted Light (.branch l sub next) (.branch l sub' next')
  | leaf {l : ℓ} (hl : Light l) (m : Nat) : Grafted Light .done (.branch l (.stop m) .done)
  | dead {l : ℓ} (hl : Light l) : Grafted Light .done (.branch l .done .done)

namespace SearchTree.Grafted

variable {Light : ℓ → Prop} {t t' : SearchTree ℓ}

/-- Of a node with the same labels, the branches of the second one grafted, and more of them. -/
theorem node {bs bs' xs : List (ℓ × SearchTree ℓ)}
    (h : List.Forall₂ (fun b b' => b.1 = b'.1 ∧ Grafted Light b.2 b'.2) bs bs')
    (hxs : Grafted Light .done (SearchTree.node xs)) :
    Grafted Light (SearchTree.node bs) (SearchTree.node (bs' ++ xs)) := by
  induction h with
  | nil => exact hxs
  | cons hb _ ih =>
      obtain ⟨hl, hsub⟩ := hb
      rw [List.cons_append]
      show Grafted Light (.branch _ _ _) (.branch _ _ _)
      rw [hl]
      exact .branch hsub ih

theorem stops (h : Grafted Light t t') (hstops : t.stops = true) : t'.stops = true := by
  induction h with
  | stop => rfl
  | done => exact hstops
  | branch hsub hnext ihs ihn =>
      rw [SearchTree.stops, Bool.or_eq_true] at hstops ⊢
      exact hstops.imp ihs ihn
  | leaf => nomatch hstops
  | dead => nomatch hstops

/-- **With more walks no more has to be held**, where light labels need no room. -/
theorem allFit {Fit : List ℓ → Prop} (hmono : ∀ p q, p.Sublist q → Fit q → Fit p)
    (hlight : ∀ l p, Light l → Fit p → Fit (p ++ [l])) (h : Grafted Light t t') :
    ∀ {held held' : List ℓ}, held'.Sublist held → Fit held' → AllFit Fit (t.trace held) →
      AllFit Fit (t'.trace held') := by
  induction h with
  | stop m m' =>
      intro held held' _ _ _ p x hp
      rw [SearchTree.trace, List.mem_singleton] at hp
      nomatch hp
  | done => exact fun _ _ _ p x hp => nomatch hp
  | @branch l sub sub' next next' hsub hnext ihs ihn =>
      intro held held' hle hfit hall
      rw [allFit_trace_branch] at hall ⊢
      obtain ⟨hl, hs, hn⟩ := hall
      have hle' : (held' ++ [l]).Sublist (held ++ [l]) := hle.append_right [l]
      have hfit' : Fit (held' ++ [l]) := hmono _ _ hle' hl
      refine ⟨hfit', ihs hle' hfit' hs, ?_⟩
      -- what the first tree does not hold any longer the second one does not hold either
      refine @ihn (if sub.stops then [] else held) _ ?_ ?_ hn
      · by_cases hstops : sub.stops = true
        · rw [if_pos (hsub.stops hstops), if_pos hstops]
        · rw [if_neg hstops]
          split
          · exact List.nil_sublist held
          · exact hle
      · split
        · exact hmono _ _ (List.nil_sublist held') hfit
        · exact hfit
  | @leaf l hl m =>
      intro held held' _ hfit _
      rw [allFit_trace_branch]
      refine ⟨hlight l held' hl hfit, fun p x hp => ?_, fun p x hp => (nomatch hp)⟩
      rw [SearchTree.trace, List.mem_singleton] at hp
      nomatch hp
  | @dead l hl =>
      intro held held' _ hfit _
      rw [allFit_trace_branch]
      exact ⟨hlight l held' hl hfit, fun p x hp => (nomatch hp), fun p x hp => (nomatch hp)⟩

end SearchTree.Grafted

end Backtrack
