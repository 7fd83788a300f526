import Mathlib

set_option autoImplicit false

/-! # Deterministic machines

A machine is a step function on states; a step goes on, ends with a result or fails. `Reaches` is
the relation of the states of a run, `run` executes a bounded number of steps. -/

namespace StepMachine

/-- What a step that does not fail leads to. -/
inductive Next (σ β : Type) where
  | goon (s : σ)
  | done (result : β)

variable {σ β ε : Type} {step : σ → Except ε (Next σ β)}

/-- At most so many steps; nothing when they are not enough. -/
def run (step : σ → Except ε (Next σ β)) : Nat → σ → Option (Except ε β)
  | 0, _ => none
  | fuel + 1, s =>
      match step s with
      | .error e => some (.error e)
      | .ok (.done b) => some (.ok b)
      | .ok (.goon s) => run step fuel s

/-- A run from the one state meets the other. -/
def Reaches (step : σ → Except ε (Next σ β)) : σ → σ → Prop :=
  Relation.ReflTransGen fun s s' => step s = .ok (.goon s')

theorem Reaches.refl (s : σ) : Reaches step s s := Relation.ReflTransGen.refl

theorem Reaches.trans {s s' s'' : σ} (h : Reaches step s s') (h' : Reaches step s' s'') :
    Reaches step s s'' :=
  Relation.ReflTransGen.trans h h'

theorem Reaches.head {s s' s'' : σ} (h : step s = .ok (.goon s')) (h' : Reaches step s' s'') :
    Reaches step s s'' :=
  Relation.ReflTransGen.head h h'

theorem Reaches.single {s s' : σ} (h : step s = .ok (.goon s')) : Reaches step s s' :=
  Relation.ReflTransGen.single h

/-- What every step keeps holds in every state of a run. -/
theorem Reaches.invariant {P : σ → Prop} {s s' : σ} (h : Reaches step s s') (hs : P s)
    (hstep : ∀ s s', P s → step s = .ok (.goon s') → P s') : P s' := by
  induction h with
  | refl => exact hs
  | tail _ h ih => exact hstep _ _ ih h

/-- A run that returns or fails does so for every larger number of steps. -/
theorem run_mono {n m : Nat} {s : σ} {r : Except ε β} (h : run step n s = some r) (hle : n ≤ m) :
    run step m s = some r := by
  induction n generalizing m s with
  | zero => cases h
  | succ n ih =>
      obtain ⟨m, rfl⟩ : ∃ k, m = k + 1 := ⟨m - 1, by omega⟩
      rw [run] at h ⊢
      cases hs : step s with
      | error e => rw [hs] at h; exact h
      | ok o =>
          rw [hs] at h
          cases o with
          | done b => exact h
          | goon s' => exact ih h (by omega)

/-- With a measure that every step makes smaller the run ends. -/
theorem run_isSome {μ : σ → Nat} {P : σ → Prop} (hinv : ∀ s s', P s → step s = .ok (.goon s') → P s')
    (hμ : ∀ s s', P s → step s = .ok (.goon s') → μ s' < μ s) {n : Nat} {s : σ} (hs : P s)
    (h : μ s < n) : (run step n s).isSome := by
  induction n generalizing s with
  | zero => omega
  | succ n ih =>
      rw [run]
      cases hstep : step s with
      | error e => rfl
      | ok o =>
          cases o with
          | done b => rfl
          | goon s' =>
              have := hμ s s' hs hstep
              exact ih (hinv s s' hs hstep) (by omega)

/-- A run ends as it does from any state that it reaches. -/
theorem run_of_reaches {n m : Nat} {s s' : σ} {r r' : Except ε β} (h : Reaches step s s')
    (hs : run step n s = some r) (hs' : run step m s' = some r') : r = r' := by
  induction h using Relation.ReflTransGen.head_induction_on generalizing n with
  | refl =>
      have h₁ := run_mono hs (Nat.le_max_left n m)
      have h₂ := run_mono hs' (Nat.le_max_right n m)
      exact Option.some.inj (h₁.symm.trans h₂)
  | head hstep _ ih =>
      cases n with
      | zero => cases hs
      | succ n =>
          rw [run, hstep] at hs
          exact ih hs

/-- How a run ends is how its last step ends. -/
theorem exists_last {n : Nat} {s : σ} {r : Except ε β} (h : run step n s = some r) :
    ∃ s', Reaches step s s' ∧
      ((∃ b, step s' = .ok (.done b) ∧ r = .ok b) ∨ ∃ e, step s' = .error e ∧ r = .error e) := by
  induction n generalizing s with
  | zero => cases h
  | succ n ih =>
      rw [run] at h
      cases hstep : step s with
      | error e =>
          rw [hstep] at h
          exact ⟨s, .refl s, .inr ⟨e, hstep, (Option.some.inj h).symm⟩⟩
      | ok o =>
          rw [hstep] at h
          cases o with
          | done b => exact ⟨s, .refl s, .inl ⟨b, hstep, (Option.some.inj h).symm⟩⟩
          | goon s' =>
              obtain ⟨t, ht, hlast⟩ := ih h
              exact ⟨t, .head hstep ht, hlast⟩

/-! ## Machines with inputs -/

variable {γ : Type} {next : σ → γ → Option σ}

/-- The inputs of a run, each with the state that it meets; without a next state the run is
over. -/
def inputs (next : σ → γ → Option σ) : σ → List γ → List (σ × γ)
  | _, [] => []
  | s, c :: cs =>
      (s, c) :: match next s c with
        | none => []
        | some s' => inputs next s' cs

theorem inputs_append_left {s : σ} {cs ds : List γ} {p : σ × γ} (h : p ∈ inputs next s cs) :
    p ∈ inputs next s (cs ++ ds) := by
  induction cs generalizing s with
  | nil => nomatch h
  | cons c cs ih =>
      rw [inputs, List.mem_cons] at h
      rw [List.cons_append, inputs, List.mem_cons]
      refine h.imp_right fun hmem => ?_
      cases hc : next s c with
      | none =>
          rw [hc] at hmem
          nomatch hmem
      | some t =>
          rw [hc] at hmem
          exact ih hmem

/-- The inputs of a run that goes through are followed by those of the run from where it ends. -/
theorem inputs_append {s s' : σ} {cs : List γ} (h : cs.foldlM next s = some s') (ds : List γ) :
    inputs next s (cs ++ ds) = inputs next s cs ++ inputs next s' ds := by
  induction cs generalizing s with
  | nil =>
      cases h
      rfl
  | cons c cs ih =>
      rw [List.foldlM_cons] at h
      cases hc : next s c with
      | none =>
          rw [hc] at h
          nomatch h
      | some t =>
          rw [hc] at h
          rw [List.cons_append, inputs, inputs, hc, List.cons_append]
          exact congrArg ((s, c) :: ·) (ih h)

/-- Two properties of an input that are the same under an invariant are the same along every run
when the one property keeps the invariant. -/
theorem forall_inputs_iff {I : σ → Prop} {P Q : σ → γ → Prop} (hiff : ∀ s c, I s → (P s c ↔ Q s c))
    (hnext : ∀ s c s', I s → P s c → next s c = some s' → I s') {s : σ} (hs : I s) (cs : List γ) :
    (∀ p ∈ inputs next s cs, P p.1 p.2) ↔ ∀ p ∈ inputs next s cs, Q p.1 p.2 := by
  induction cs generalizing s with
  | nil => exact iff_of_true nofun nofun
  | cons c cs ih =>
      rw [inputs, List.forall_mem_cons, List.forall_mem_cons, hiff s c hs]
      apply and_congr_right
      intro hQ
      cases hc : next s c with
      | none => exact iff_of_true nofun nofun
      | some s' => exact ih (hnext s c s' hs ((hiff s c hs).mpr hQ) hc)

/-- The states of a run; it is over after an input without a next state. -/
def visited (next : σ → γ → Option σ) : σ → List γ → List σ
  | s, [] => [s]
  | s, c :: cs =>
      s :: match next s c with
        | none => []
        | some s' => visited next s' cs

/-- What the inputs of a run keep holds in all of its states. -/
theorem forall_visited {I : σ → Prop} {M : σ → γ → Prop}
    (hnext : ∀ s c s', I s → M s c → next s c = some s' → I s') {s : σ} (hs : I s) {cs : List γ}
    (h : ∀ p ∈ inputs next s cs, M p.1 p.2) : ∀ s' ∈ visited next s cs, I s' := by
  induction cs generalizing s with
  | nil => exact fun s' hmem => List.mem_singleton.mp hmem ▸ hs
  | cons c cs ih =>
      rw [inputs, List.forall_mem_cons] at h
      rw [visited, List.forall_mem_cons]
      refine ⟨hs, ?_⟩
      cases hc : next s c with
      | none => exact nofun
      | some s' =>
          rw [hc] at h
          exact ih (hnext s c s' hs h.1 hc) h.2

/-- When every other input leads to a state without the property, the runs in which all states have
it are those with the right inputs. -/
theorem forall_visited_iff {I P : σ → Prop} {M : σ → γ → Prop} (hP : ∀ s, I s → P s)
    (hover : ∀ s c, I s → next s c = none → M s c)
    (hgood : ∀ s c s', I s → M s c → next s c = some s' → I s')
    (hbad : ∀ s c s', I s → ¬ M s c → next s c = some s' → ¬ P s') {s : σ} (hs : I s)
    (cs : List γ) : (∀ s' ∈ visited next s cs, P s') ↔ ∀ p ∈ inputs next s cs, M p.1 p.2 := by
  induction cs generalizing s with
  | nil => exact iff_of_true (fun s' hmem => List.mem_singleton.mp hmem ▸ hP s hs) nofun
  | cons c cs ih =>
      rw [inputs, visited, List.forall_mem_cons, List.forall_mem_cons, and_iff_right (hP s hs)]
      cases hc : next s c with
      | none => exact iff_of_true nofun ⟨hover s c hs hc, nofun⟩
      | some s' =>
          by_cases hM : M s c
          · rw [and_iff_right hM]
            exact ih (hgood s c s' hs hM hc)
          · refine iff_of_false (fun hall => ?_) fun hall => hM hall.1
            apply hbad s c s' hs hM hc
            apply hall
            cases cs with
            | nil => exact List.mem_singleton_self s'
            | cons d ds => exact List.mem_cons_self

/-! ## Machines without an end -/

variable {f : σ → γ → σ}

theorem start_mem_visited (s : σ) (cs : List γ) : s ∈ visited next s cs := by
  cases cs with
  | nil => exact List.mem_singleton_self s
  | cons c cs => exact List.mem_cons_self

/-- Every input has its step. -/
theorem exists_input {c : γ} {cs : List γ} (h : c ∈ cs) (s : σ) :
    ∃ s', (s', c) ∈ inputs (fun s c => some (f s c)) s cs := by
  induction cs generalizing s with
  | nil => nomatch h
  | cons d cs ih =>
      rcases List.mem_cons.mp h with rfl | hmem
      · exact ⟨s, List.mem_cons_self⟩
      · exact (ih hmem (f s d)).imp fun s' h' => List.mem_cons_of_mem _ h'

/-- The last state is one of the run. -/
theorem foldl_mem_visited (s : σ) (cs : List γ) :
    cs.foldl f s ∈ visited (fun s c => some (f s c)) s cs := by
  induction cs generalizing s with
  | nil => exact List.mem_singleton_self s
  | cons c cs ih => exact List.mem_cons_of_mem s (ih (f s c))

/-! ## Machines side by side -/

/-- Machines have turns, in the order of their numbers in a list. -/
def turns (f : σ → σ) (order : List Nat) (ms : List σ) : List σ :=
  order.foldl (fun ms i => ms.modify i f) ms

/-- Each machine makes a step in each of its turns. -/
theorem getElem?_turns (f : σ → σ) (order : List Nat) (ms : List σ) (i : Nat) :
    (turns f order ms)[i]? = ms[i]?.map (f^[order.count i]) := by
  induction order generalizing ms with
  | nil =>
      cases h : ms[i]? with
      | none => exact h
      | some m => exact h
  | cons j order ih =>
      refine (ih (ms.modify j f)).trans ?_
      rw [List.getElem?_modify, List.count_cons]
      cases ms[i]? with
      | none => rfl
      | some m =>
          by_cases h : j = i
          · rw [if_pos (by simpa using h), Function.iterate_succ]
            simp [h]
          · rw [if_neg (by simpa using h)]
            simp [h]

/-- Any number of machines can have any number of turns. -/
theorem exists_order (m n : Nat) : ∃ order : List Nat, ∀ i < m, n ≤ order.count i := by
  induction m with
  | zero => exact ⟨[], nofun⟩
  | succ m ih =>
      obtain ⟨order, horder⟩ := ih
      refine ⟨order ++ List.replicate n m, fun i hi => ?_⟩
      rw [List.count_append]
      rcases Nat.lt_succ_iff_lt_or_eq.mp hi with hlt | rfl
      · exact Nat.le_trans (horder i hlt) (Nat.le_add_right _ _)
      · rw [List.count_replicate_self]
        exact Nat.le_add_left _ _

end StepMachine
