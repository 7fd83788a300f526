import Suil.Lib.StepMachine
import Suil.Routing.Trie

set_option autoImplicit false

/-! # The steps of adding a pattern

`Trie::add` (`http/routing.cpp`) iteration by iteration, with the index that it counts with, an
`unsigned`. `terminates_iff` says for which patterns it comes to an end, and `run_eq_addLoop` that it
then does what `Trie.addLoop` does with what is left of the pattern. -/

namespace Suil.Routing

open StepMachine

def UNSIGNED : Nat := 2 ^ 32

/-- The variables of the loop. -/
structure AddState where
  trie : Trie
  idx : Nat := 0
  i : Nat := 0

namespace Trie

/-- `i ++`, `i --` and `i += n`. -/
def increment (i : Nat) : Nat := (i + 1) % UNSIGNED
def decrement (i : Nat) : Nat := (i + UNSIGNED - 1) % UNSIGNED
def advance (i n : Nat) : Nat := (i + n) % UNSIGNED

/-- The placeholder that the pattern has at an index. -/
def placeholderAt (url : Bytes) (i : Nat) : Option (ParamType × Bytes) :=
  paramTraits.find? fun x => x.2.isPrefixOf (url.drop i)

/-- What stands behind the loop. -/
def finish (ruleIndex : Nat) (t : Trie) (idx : Nat) : Except Trie Trie :=
  if (t.node idx).ruleIndex ≠ 0 then .error t
  else .ok (t.set idx { t.node idx with ruleIndex := ruleIndex })

/-- An iteration of the loop, or, when the index is not below `url.size()`, what stands behind it. -/
def addStep (url : Bytes) (ruleIndex : Nat) (s : AddState) : Except Trie (Next AddState Trie) :=
  match url[s.i]? with
  | none => (finish ruleIndex s.trie s.idx).map .done
  | some c =>
      if c = LBRACE then
        match placeholderAt url s.i with
        | some x =>
            let (t, idx) := s.trie.follow s.idx (.param x.1)
            .ok (.goon ⟨t, idx, increment (decrement (advance s.i x.2.length))⟩)
        | none => .ok (.goon { s with i := increment (decrement s.i) })
      else
        let (t, idx) := s.trie.follow s.idx (.chr c)
        .ok (.goon ⟨t, idx, increment s.i⟩)

/-! ## Patterns whose braces start placeholders -/

/-- Every iteration that does not leave the loop consumes a character, and the call ends. -/
def Terminates (t : Trie) (url : Bytes) (ruleIndex : Nat) : Prop :=
  (∀ s s', Reaches (addStep url ruleIndex) ⟨t, 0, 0⟩ s →
    addStep url ruleIndex s = .ok (.goon s') → s.i < s'.i) ∧
  ∃ n, (run (addStep url ruleIndex) n ⟨t, 0, 0⟩).isSome

/-- Every opening brace up to there starts a placeholder. -/
def BracedUpTo (url : Bytes) (n : Nat) : Prop :=
  ∀ i < n, url[i]? = some LBRACE → ∃ x ∈ paramTraits, x.2 <+: url.drop i

/-- Every opening brace starts a placeholder. -/
def Braced (url : Bytes) : Prop := BracedUpTo url url.length

/-! ## What a step does -/

variable {url : Bytes} {ruleIndex : Nat}

private theorem placeholderAt_some {i : Nat} {x : ParamType × Bytes}
    (h : placeholderAt url i = some x) : x ∈ paramTraits ∧ x.2 <+: url.drop i := by
  refine ⟨List.mem_of_find?_eq_some h, ?_⟩
  have hfound := List.find?_some h
  exact List.isPrefixOf_iff_prefix.mp hfound

private theorem placeholderAt_none {i : Nat} (h : placeholderAt url i = none) :
    ¬ ∃ x ∈ paramTraits, x.2 <+: url.drop i := by
  rintro ⟨x, hx, hprefix⟩
  exact List.find?_eq_none.mp h x hx (List.isPrefixOf_iff_prefix.mpr hprefix)

private theorem step_back (i n : Nat) :
    increment (decrement (advance i n)) = (i + n) % UNSIGNED := by
  unfold increment decrement advance UNSIGNED
  omega

/-- How far an iteration moves the index: over a placeholder, over one character, or not at all. -/
inductive Moves (url : Bytes) (i : Nat) : Nat → Prop where
  | placeholder {x : ParamType × Bytes} (hx : x ∈ paramTraits) ( hprefix : x.2 <+: url.drop i) :
      Moves url i x.2.length
  | chr {c : UInt8} (hget : url[i]? = some c) (hc : c ≠ LBRACE) : Moves url i 1
  | stuck (hget : url[i]? = some LBRACE) (hno : ¬ ∃ x ∈ paramTraits, x.2 <+: url.drop i) :
      Moves url i 0

private theorem addStep_of_lt (ruleIndex : Nat) {s : AddState} (h : s.i < url.length) :
    ∃ s', addStep url ruleIndex s = .ok (.goon s') := by
  rw [addStep, List.getElem?_eq_getElem h]
  dsimp only
  split
  · split
    · exact ⟨_, rfl⟩
    · exact ⟨_, rfl⟩
  · exact ⟨_, rfl⟩

theorem moves_of_addStep {s s' : AddState} (h : addStep url ruleIndex s = .ok (.goon s')) :
    s.i < url.length ∧ ∃ k, Moves url s.i k ∧ s'.i = (s.i + k) % UNSIGNED := by
  rw [addStep] at h
  cases hget : url[s.i]? with
  | none =>
      rw [hget] at h
      dsimp only at h
      unfold finish at h
      split at h <;> nomatch h
  | some c =>
      rw [hget] at h
      dsimp only at h
      refine ⟨(List.getElem?_eq_some_iff.mp hget).1, ?_⟩
      by_cases hc : c = LBRACE
      · rw [if_pos hc] at h
        cases hat : placeholderAt url s.i with
        | none =>
            rw [hat] at h
            cases h
            refine ⟨0, .stuck (hc ▸ hget) (placeholderAt_none hat), ?_⟩
            show increment (decrement s.i) = (s.i + 0) % UNSIGNED
            unfold increment decrement UNSIGNED
            omega
        | some x =>
            rw [hat] at h
            cases h
            obtain ⟨hx, hprefix⟩ := placeholderAt_some hat
            exact ⟨x.2.length, .placeholder hx hprefix, step_back s.i x.2.length⟩
      · rw [if_neg hc] at h
        cases h
        exact ⟨1, .chr hget hc, rfl⟩

/-- A placeholder has its brace at the front, and it has no other one. -/
private theorem paramTraits_brace : ∀ x ∈ paramTraits, 0 < x.2.length ∧ LBRACE ∉ x.2.tail := by
  decide

/-- Over what a step moves every opening brace starts a placeholder. -/
private theorem braced_of_moves {i k : Nat} (hmoves : Moves url i k) (h : BracedUpTo url i) :
    BracedUpTo url (i + k) := by
  intro j hj hget
  by_cases hlt : j < i
  · exact h j hlt hget
  · cases hmoves with
    | stuck => exact absurd hj hlt
    | chr hget' hc =>
        obtain rfl : j = i := by omega
        rw [hget] at hget'
        exact absurd (Option.some.inj hget').symm hc
    | @placeholder x hx hprefix =>
        by_cases hji : j = i
        · exact ⟨x, hx, hji ▸ hprefix⟩
        · -- behind the first character of the name
          obtain ⟨rest, hrest⟩ := hprefix
          obtain ⟨n, hn⟩ : ∃ n, j = i + (n + 1) := ⟨j - i - 1, by omega⟩
          have hname : x.2.tail[n]? = some LBRACE := by
            rw [hn, ← List.getElem?_drop, ← hrest,
              List.getElem?_append_left (by omega)] at hget
            rw [List.getElem?_tail]
            exact hget
          exact absurd (List.mem_of_getElem? hname) (paramTraits_brace x hx).2

/-- With every brace in front of a placeholder a step moves forward, and not beyond the end. -/
private theorem moves_forward (h : Braced url) {i k : Nat} (hi : i < url.length)
    (hmoves : Moves url i k) : 0 < k ∧ i + k ≤ url.length := by
  cases hmoves with
  | stuck hget hno => exact absurd (h i hi hget) hno
  | chr => exact ⟨Nat.one_pos, hi⟩
  | @placeholder x hx hprefix =>
      have hle := hprefix.length_le
      rw [List.length_drop] at hle
      exact ⟨(paramTraits_brace x hx).1, by omega⟩

/-! ## Termination -/

/-- The braces that have been gone over start placeholders, and the index is an `unsigned`. -/
private structure Scanned (url : Bytes) (s : AddState) : Prop where
  braced : BracedUpTo url s.i
  unsigned : s.i < UNSIGNED

private theorem scanned_step {s s' : AddState} (hs : Scanned url s)
    (hstep : addStep url ruleIndex s = .ok (.goon s')) : Scanned url s' := by
  obtain ⟨-, k, hmoves, hi⟩ := moves_of_addStep hstep
  refine ⟨?_, hi ▸ Nat.mod_lt _ (by decide)⟩
  intro j hj
  refine braced_of_moves hmoves hs.braced j ?_
  rw [hi] at hj
  exact Nat.lt_of_lt_of_le hj (Nat.mod_le _ _)

/-- A call that ends has come to the end of the pattern. -/
private theorem length_le_of_end {s : AddState} {r : Except Trie Trie}
    (h : (∃ t, addStep url ruleIndex s = .ok (.done t) ∧ r = .ok t) ∨
      ∃ t, addStep url ruleIndex s = .error t ∧ r = .error t) : url.length ≤ s.i := by
  by_contra hlt
  obtain ⟨s', hgoon⟩ := addStep_of_lt ruleIndex (Nat.not_le.mp hlt)
  rw [hgoon] at h
  rcases h with ⟨t, hstep, -⟩ | ⟨t, hstep, -⟩ <;> nomatch hstep

private theorem next_index (h : Braced url) (hlen : url.length < UNSIGNED) {s s' : AddState}
    (hstep : addStep url ruleIndex s = .ok (.goon s')) : s.i < s'.i ∧ s'.i ≤ url.length := by
  obtain ⟨hi, k, hmoves, hnext⟩ := moves_of_addStep hstep
  obtain ⟨hpos, hle⟩ := moves_forward h hi hmoves
  rw [hnext, Nat.mod_eq_of_lt (Nat.lt_of_le_of_lt hle hlen)]
  exact ⟨by omega, hle⟩

private theorem run_isSome_of_braced (t : Trie) (ruleIndex : Nat) (h : Braced url)
    (hlen : url.length < UNSIGNED) : ∃ n, (run (addStep url ruleIndex) n ⟨t, 0, 0⟩).isSome := by
  refine ⟨url.length + 1, ?_⟩
  -- what is left of the pattern becomes less
  refine run_isSome (μ := fun s => url.length - s.i) (P := fun _ => True) (fun _ _ _ _ => trivial)
    ?_ trivial (Nat.lt_succ_of_le (Nat.sub_le _ _))
  intro s s' _ hstep
  obtain ⟨hlt, hle⟩ := next_index h hlen hstep
  show url.length - s'.i < url.length - s.i
  omega

/-- A call that ends has gone over braces that start placeholders, and not wrapped around. -/
theorem braced_of_run {t : Trie} {n : Nat}
    (hn : (run (addStep url ruleIndex) n ⟨t, 0, 0⟩).isSome) : Braced url ∧ url.length < UNSIGNED := by
  obtain ⟨r, hr⟩ := Option.isSome_iff_exists.mp hn
  obtain ⟨s, hreaches, hlast⟩ := exists_last hr
  have hstart : Scanned url ⟨t, 0, 0⟩ :=
    ⟨fun j hj => absurd hj (Nat.not_lt_zero j), show 0 < UNSIGNED by decide⟩
  have hs := hreaches.invariant hstart fun s s' => scanned_step
  have hle := length_le_of_end hlast
  exact ⟨fun i hi => hs.braced i (Nat.lt_of_lt_of_le hi hle), Nat.lt_of_le_of_lt hle hs.unsigned⟩

/-- **When `add` terminates:** every opening brace starts a placeholder, and an `unsigned` counts the
characters. -/
theorem terminates_iff (t : Trie) (url : Bytes) (ruleIndex : Nat) :
    Terminates t url ruleIndex ↔ Braced url ∧ url.length < UNSIGNED := by
  constructor
  · rintro ⟨-, n, hn⟩
    exact braced_of_run hn
  · rintro ⟨hbraced, hlen⟩
    exact ⟨fun s s' _ hstep => (next_index hbraced hlen hstep).1,
      run_isSome_of_braced t ruleIndex hbraced hlen⟩

/-- A brace in front of no placeholder: the index goes back to it each time. -/
theorem not_terminates_brace : ¬ Terminates {} (str "{x}") 1 := by
  rintro ⟨hforward, -⟩
  exact absurd (hforward _ _ (.refl _) rfl) (by decide)

/-! ## The loop over what is left of the pattern -/

private theorem run_end (fuel : Nat) (t : Trie) (idx : Nat) {i : Nat} (hi : url[i]? = none) :
    run (addStep url ruleIndex) (fuel + 1) ⟨t, idx, i⟩ = some (finish ruleIndex t idx) := by
  rw [run, addStep, hi]
  dsimp only
  cases finish ruleIndex t idx with
  | error t => rfl
  | ok t => rfl

private theorem run_goon {s s' : AddState} (h : addStep url ruleIndex s = .ok (.goon s')) (fuel : Nat) :
    run (addStep url ruleIndex) (fuel + 1) s = run (addStep url ruleIndex) fuel s' := by
  rw [run, h]

/-- Iteration by iteration the call does what the recursion over the rest of the pattern does. -/
theorem run_eq_addLoop (hlen : url.length < UNSIGNED) (fuel : Nat) (t : Trie) (idx : Nat) {i : Nat}
    (hi : i ≤ url.length) :
    run (addStep url ruleIndex) (fuel + 1) ⟨t, idx, i⟩ =
      (addLoop fuel t idx (url.drop i)).map fun r => finish ruleIndex r.1 r.2 := by
  -- on the fuel: each iteration is one round of the recursion
  induction fuel generalizing t idx i with
  | zero =>
      rcases Nat.eq_or_lt_of_le hi with rfl | hlt
      · rw [run_end 0 t idx (List.getElem?_eq_none (Nat.le_refl _)), List.drop_length]
        rfl
      · obtain ⟨s', hgoon⟩ := addStep_of_lt ruleIndex (s := ⟨t, idx, i⟩) hlt
        rw [List.drop_eq_getElem_cons hlt, run_goon hgoon]
        rfl
  | succ fuel ih =>
      rcases Nat.eq_or_lt_of_le hi with rfl | hlt
      · rw [run_end _ t idx (List.getElem?_eq_none (Nat.le_refl _)), List.drop_length]
        rfl
      · have hget := List.getElem?_eq_getElem hlt
        have hdrop := List.drop_eq_getElem_cons hlt
        generalize url[i] = c at hget hdrop
        by_cases hc : c = LBRACE
        · cases hat : placeholderAt url i with
          | none =>
              -- a brace that opens nothing is looked at again
              have hback : increment (decrement i) = i := by
                unfold increment decrement UNSIGNED at *
                omega
              have hstep : addStep url ruleIndex ⟨t, idx, i⟩ = .ok (.goon ⟨t, idx, i⟩) := by
                rw [addStep, hget]
                dsimp only
                rw [if_pos hc, hat, hback]
              unfold placeholderAt at hat
              rw [run_goon hstep, ih t idx hi, hdrop, addLoop, if_pos hc, ← hdrop, hat]
          | some x =>
              have hle := (placeholderAt_some hat).2.length_le
              rw [List.length_drop] at hle
              have hover : increment (decrement (advance i x.2.length)) = i + x.2.length := by
                rw [step_back, Nat.mod_eq_of_lt (by omega)]
              have hstep : addStep url ruleIndex ⟨t, idx, i⟩ =
                  .ok (.goon ⟨(t.follow idx (.param x.1)).1, (t.follow idx (.param x.1)).2,
                    i + x.2.length⟩) := by
                rw [addStep, hget]
                dsimp only
                rw [if_pos hc, hat, ← hover]
              unfold placeholderAt at hat
              rw [run_goon hstep, ih _ _ (by omega), hdrop, addLoop, if_pos hc, ← hdrop, hat]
              dsimp only
              rw [List.drop_drop]
        · have hover : increment i = i + 1 := Nat.mod_eq_of_lt (by omega)
          have hstep : addStep url ruleIndex ⟨t, idx, i⟩ =
              .ok (.goon ⟨(t.follow idx (.chr c)).1, (t.follow idx (.chr c)).2, i + 1⟩) := by
            rw [addStep, hget]
            dsimp only
            rw [if_neg hc, hover]
          rw [run_goon hstep, ih _ _ hlt, hdrop, addLoop, if_neg hc]

/-- The patterns are the texts in which every opening brace starts a placeholder. -/
theorem braced_iff (hlen : url.length < UNSIGNED) : Braced url ↔ ∃ p : Pattern, p.text = url := by
  constructor
  · intro hbraced
    obtain ⟨n, hn⟩ := run_isSome_of_braced {} 1 hbraced hlen
    cases n with
    | zero => nomatch hn
    | succ n =>
        rw [run_eq_addLoop hlen n {} 0 (Nat.zero_le _), Option.isSome_map] at hn
        obtain ⟨r, hr⟩ := Option.isSome_iff_exists.mp hn
        exact text_of_addLoop hr
  · rintro ⟨p, rfl⟩
    have hrun : (run (addStep p.text 1) (p.text.length + 1) ⟨{}, 0, 0⟩).isSome := by
      rw [run_eq_addLoop hlen _ {} 0 (Nat.zero_le _), List.drop_zero,
        addLoop_text p _ (Nat.le_refl _)]
      rfl
    exact (braced_of_run hrun).1

end Trie

end Suil.Routing
