import Mathlib

set_option autoImplicit false

/-! # Queues by ticket

A queue hands out the numbers from `next` on, and serves them in order. `ticket` says who has which
number; the number that is served is with the one whose turn it is. In a valid queue every number
between `serving` and `next` is with exactly one. -/

/-- The numbers, and who has which. -/
structure TicketQueue (ι : Type) where
  serving : Nat
  next : Nat
  ticket : ι → Option Nat

namespace TicketQueue

variable {ι : Type} {q : TicketQueue ι}

/-- Nobody has a ticket yet. -/
def new : TicketQueue ι := ⟨0, 0, fun _ => none⟩

structure Valid (q : TicketQueue ι) : Prop where
  le : q.serving ≤ q.next
  between : ∀ p, ∀ t ∈ q.ticket p, q.serving ≤ t ∧ t < q.next
  unique : ∀ p p' t, t ∈ q.ticket p → t ∈ q.ticket p' → p = p'
  taken : ∀ t, q.serving ≤ t → t < q.next → ∃ p, t ∈ q.ticket p

theorem valid_new : (new : TicketQueue ι).Valid :=
  ⟨Nat.le_refl 0, nofun, nofun, fun t _ ht => absurd ht (Nat.not_lt_zero t)⟩

/-- Somebody has the number that is served, or it is the next one. -/
theorem Valid.served (h : q.Valid) : q.serving = q.next ∨ ∃ p, q.serving ∈ q.ticket p := by
  rcases Nat.lt_or_eq_of_le h.le with hlt | heq
  · exact .inr (h.taken q.serving (Nat.le_refl _) hlt)
  · exact .inl heq

variable [DecidableEq ι]

/-- `p` takes the next number. -/
def take (q : TicketQueue ι) (p : ι) : TicketQueue ι :=
  ⟨q.serving, q.next + 1, Function.update q.ticket p (some q.next)⟩

/-- `p` has been served. -/
def leave (q : TicketQueue ι) (p : ι) : TicketQueue ι :=
  ⟨q.serving + 1, q.next, Function.update q.ticket p none⟩

private theorem mem_update {f : ι → Option Nat} {p p' : ι} {o : Option Nat} {t : Nat} :
    t ∈ Function.update f p o p' ↔ p' = p ∧ t ∈ o ∨ p' ≠ p ∧ t ∈ f p' := by
  by_cases h : p' = p
  · subst h
    simp
  · simp [h]

theorem Valid.take (h : q.Valid) {p : ι} (hp : q.ticket p = none) : (q.take p).Valid := by
  have hnone : ∀ t, t ∉ q.ticket p := fun t ht => by rw [hp] at ht; nomatch ht
  refine ⟨Nat.le_succ_of_le h.le, ?_, ?_, ?_⟩
  · intro p' t ht
    rcases mem_update.mp ht with ⟨-, ht⟩ | ⟨-, ht⟩
    · cases ht
      exact ⟨h.le, Nat.lt_succ_self _⟩
    · obtain ⟨hle, hlt⟩ := h.between p' t ht
      exact ⟨hle, Nat.lt_succ_of_lt hlt⟩
  · intro p₁ p₂ t h₁ h₂
    rcases mem_update.mp h₁ with ⟨rfl, ht⟩ | ⟨-, ht⟩
    · rcases mem_update.mp h₂ with ⟨rfl, -⟩ | ⟨-, ht'⟩
      · rfl
      · cases ht
        exact absurd (h.between p₂ _ ht').2 (Nat.lt_irrefl _)
    · rcases mem_update.mp h₂ with ⟨rfl, ht'⟩ | ⟨-, ht'⟩
      · cases ht'
        exact absurd (h.between p₁ _ ht).2 (Nat.lt_irrefl _)
      · exact h.unique p₁ p₂ t ht ht'
  · intro t hle hlt
    rcases Nat.lt_or_eq_of_le (Nat.lt_succ_iff.mp hlt) with hlt | rfl
    · obtain ⟨p', hp'⟩ := h.taken t hle hlt
      exact ⟨p', mem_update.mpr (.inr ⟨fun heq => hnone t (heq ▸ hp'), hp'⟩)⟩
    · exact ⟨p, mem_update.mpr (.inl ⟨rfl, rfl⟩)⟩

theorem Valid.leave (h : q.Valid) {p : ι} (hp : q.serving ∈ q.ticket p) : (q.leave p).Valid := by
  refine ⟨(h.between p _ hp).2, ?_, ?_, ?_⟩
  · intro p' t ht
    rcases mem_update.mp ht with ⟨-, ht⟩ | ⟨hne, ht⟩
    · nomatch ht
    · obtain ⟨hle, hlt⟩ := h.between p' t ht
      refine ⟨Nat.lt_of_le_of_ne hle ?_, hlt⟩
      rintro rfl
      exact hne (h.unique p' p _ ht hp)
  · intro p₁ p₂ t h₁ h₂
    rcases mem_update.mp h₁ with ⟨-, ht⟩ | ⟨-, ht⟩
    · nomatch ht
    · rcases mem_update.mp h₂ with ⟨-, ht'⟩ | ⟨-, ht'⟩
      · nomatch ht'
      · exact h.unique p₁ p₂ t ht ht'
  · intro t hle hlt
    obtain ⟨p', hp'⟩ := h.taken t (Nat.le_of_succ_le hle) hlt
    refine ⟨p', mem_update.mpr (.inr ⟨?_, hp'⟩)⟩
    rintro rfl
    have heq : t = q.serving := Option.some.inj (hp'.symm.trans hp)
    exact absurd hle (by rw [heq]; exact Nat.not_succ_le_self _)

end TicketQueue
