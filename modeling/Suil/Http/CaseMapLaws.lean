import Mathlib
import Suil.Lib.AssocMap
import Suil.Http.CaseMap

set_option autoImplicit false

/-! # When a case-insensitive map is lawful

The comparison of a `CaseMap` looks at the bytes that both names have, up to a NUL, and its hash
at the bytes of one name with their case. `lawful_iff` says for which sets of names the two agree
with each other and with equality without case. -/

namespace Suil.Http

/-- `data()` of a `String`: null, or its bytes. -/
abbrev Name : Type := Option Bytes

/-- `map_case_eq`. Two names with one pointer and one size are equal either way. -/
def map_case_eq : Name → Name → Bool
  | none, r => r.isNone
  | some l, r => mapCaseEq l (r.getD [])

/-- `hasher`: the `std::hash` of the bytes there are. -/
def hasher (hash : Bytes → UInt64) (s : Name) : UInt64 := hash (s.getD [])

/-- An entry under the first name is found under the second. -/
def nameHit (hash : Bytes → UInt64) (e key : Name) : Bool :=
  hasher hash e = hasher hash key && map_case_eq e key

/-- The `CaseMap` over names that are not null is the one that requests and responses have. -/
theorem find_some (hash : Bytes → UInt64) {α : Type} (m : CaseMap α) (key : Bytes) :
    AssocMap.find (nameHit hash) (m.map fun e => (some e.1, e.2)) (some key) =
      m.find hash key := by
  rw [AssocMap.find, List.find?_map, CaseMap.find, Option.map_map]
  rfl

/-- The names are equal but for the case of ASCII letters. -/
def SameName (a b : Name) : Prop := (a.getD []).map toLower = (b.getD []).map toLower

instance (a b : Name) : Decidable (SameName a b) := inferInstanceAs (Decidable (_ = _))

/-- What is asked of the comparison and the hash on the names of `S`. -/
structure Lawful (hash : Bytes → UInt64) (α : Type) (S : Set Name) : Prop where
  refl : ∀ a ∈ S, map_case_eq a a = true
  symm : ∀ a ∈ S, ∀ b ∈ S, map_case_eq a b = true → map_case_eq b a = true
  trans : ∀ a ∈ S, ∀ b ∈ S, ∀ c ∈ S,
    map_case_eq a b = true → map_case_eq b c = true → map_case_eq a c = true
  same : ∀ a ∈ S, ∀ b ∈ S, (map_case_eq a b = true ↔ SameName a b)
  hashed : ∀ a ∈ S, ∀ b ∈ S, map_case_eq a b = true → hasher hash a = hasher hash b
  found : ∀ ins : List (Name × α), (∀ e ∈ ins, e.1 ∈ S) → ∀ key ∈ S,
    AssocMap.find (nameHit hash) (AssocMap.insertAll (nameHit hash) ins) key =
      (ins.find? fun e => SameName e.1 key).map (·.2)

/-- The bytes that both have, up to a NUL, agree but for their case. -/
def Overlap (x y : Bytes) : Prop :=
  let n := min x.length y.length
  ((x.take n).takeWhile (· ≠ NUL)).map toLower = ((y.take n).takeWhile (· ≠ NUL)).map toLower

/-- The names can be told apart by their first bytes: none of them is null unless all are, those
that agree as far as both go, up to a NUL, are the same name, and the same name has one hash. -/
def Apart (hash : Bytes → UInt64) (S : Set Name) : Prop :=
  (∀ a ∈ S, ∀ b ∈ S, a = none → b = none) ∧
    ∀ x y : Bytes, some x ∈ S → some y ∈ S → Overlap x y →
      SameName (some x) (some y) ∧ hash x = hash y

/-! ## The comparison -/

set_option maxRecDepth 8000 in
private theorem toLower_eq_nul {c : UInt8} : toLower c = NUL ↔ c = NUL :=
  forall_byte (P := fun c => toLower c = NUL ↔ c = NUL) (by decide) c

private theorem strncaseEq_iff (n : Nat) (x y : Bytes) (hx : n ≤ x.length) (hy : n ≤ y.length) :
    strncaseEq n x y = true ↔
      ((x.take n).takeWhile (· ≠ NUL)).map toLower =
        ((y.take n).takeWhile (· ≠ NUL)).map toLower := by
  induction n generalizing x y with
  | zero => simp [strncaseEq]
  | succ n ih =>
      cases x with
      | nil => exact absurd hx (Nat.not_succ_le_zero n)
      | cons b x =>
          cases y with
          | nil => exact absurd hy (Nat.not_succ_le_zero n)
          | cons d y =>
              have hrec := ih x y (Nat.le_of_succ_le_succ hx) (Nat.le_of_succ_le_succ hy)
              rw [strncaseEq_cons, List.take_succ_cons, List.take_succ_cons]
              by_cases hlow : toLower b = toLower d
              · -- a NUL in one is a NUL in the other, and both texts end there
                have hnul : b = NUL ↔ d = NUL := by
                  rw [← toLower_eq_nul, hlow, toLower_eq_nul]
                by_cases hb : b = NUL
                · rw [if_neg (not_not.mpr hlow), if_pos hb,
                    List.takeWhile_cons_of_neg (by simp [hb]),
                    List.takeWhile_cons_of_neg (by simp [hnul.mp hb])]
                  exact iff_of_true rfl rfl
                · rw [if_neg (not_not.mpr hlow), if_neg hb, hrec,
                    List.takeWhile_cons_of_pos (by simp [hb]),
                    List.takeWhile_cons_of_pos (by simp [mt hnul.mpr hb]), List.map_cons,
                    List.map_cons, hlow, List.cons_inj_right]
              · -- the comparison ends here, and so do the texts, or they differ here
                rw [if_pos hlow]
                refine iff_of_false Bool.false_ne_true fun heq => ?_
                by_cases hb : b = NUL
                · have hd : d ≠ NUL := fun hd => hlow (by rw [hb, hd])
                  rw [List.takeWhile_cons_of_neg (by simp [hb]),
                    List.takeWhile_cons_of_pos (by simp [hd])] at heq
                  cases heq
                · by_cases hd : d = NUL
                  · rw [List.takeWhile_cons_of_pos (by simp [hb]),
                      List.takeWhile_cons_of_neg (by simp [hd])] at heq
                    cases heq
                  · rw [List.takeWhile_cons_of_pos (by simp [hb]),
                      List.takeWhile_cons_of_pos (by simp [hd])] at heq
                    exact hlow (List.cons.inj heq).1

/-- **The comparison sees the bytes that both names have, up to a NUL.** -/
theorem mapCaseEq_iff (x y : Bytes) : mapCaseEq x y = true ↔ Overlap x y :=
  strncaseEq_iff _ x y (Nat.min_le_left _ _) (Nat.min_le_right _ _)

private theorem map_takeWhile_ne (s : Bytes) :
    (s.takeWhile (· ≠ NUL)).map toLower = (s.map toLower).takeWhile (· ≠ NUL) := by
  induction s with
  | nil => rfl
  | cons b s ih =>
      by_cases hb : b = NUL
      · rw [List.map_cons, List.takeWhile_cons_of_neg (by simp [hb]),
          List.takeWhile_cons_of_neg (by simp [toLower_eq_nul, hb]), List.map_nil]
      · rw [List.map_cons, List.takeWhile_cons_of_pos (by simp [hb]),
          List.takeWhile_cons_of_pos (by simp [toLower_eq_nul, hb]), List.map_cons, ih]

/-- The same name overlaps. -/
theorem overlap_of_same {x y : Bytes} (h : x.map toLower = y.map toLower) : Overlap x y := by
  have hlen : x.length = y.length := by
    rw [← List.length_map toLower, h, List.length_map]
  rw [Overlap, ← hlen, Nat.min_self]
  show ((x.take x.length).takeWhile _).map toLower = ((y.take x.length).takeWhile _).map toLower
  rw [List.take_length, hlen, List.take_length, map_takeWhile_ne, map_takeWhile_ne, h]

/-! ## The laws -/

/-- **A set of names is lawful exactly when its names can be told apart by their first bytes.** -/
theorem lawful_iff (hash : Bytes → UInt64) (α : Type) (S : Set Name) :
    Lawful hash α S ↔ Apart hash S := by
  constructor
  · intro h
    refine ⟨?_, ?_⟩
    · rintro a ha b hb rfl
      -- a name that is not null equals null, but null does not equal it
      cases b with
      | none => rfl
      | some y =>
          have heq : map_case_eq (some y) none = true := by
            show mapCaseEq y [] = true
            rw [mapCaseEq, List.length_nil, Nat.min_zero]
            rfl
          have hsymm := h.symm _ hb _ ha heq
          cases hsymm
    · intro x y hx hy hover
      have heq : map_case_eq (some x) (some y) = true := (mapCaseEq_iff x y).mpr hover
      exact ⟨(h.same _ hx _ hy).mp heq, h.hashed _ hx _ hy heq⟩
  · rintro ⟨hnull, hover⟩
    -- on such names the comparison is an equality, and the map follows from its laws
    have hsame : ∀ a ∈ S, ∀ b ∈ S, (map_case_eq a b = true ↔ SameName a b) := by
      intro a ha b hb
      cases a with
      | none =>
          rw [hnull _ ha _ hb rfl]
          exact iff_of_true rfl rfl
      | some x =>
          cases b with
          | none => cases hnull _ hb _ ha rfl
          | some y =>
              refine (mapCaseEq_iff x y).trans ⟨fun h => (hover x y ha hb h).1, ?_⟩
              exact fun h => overlap_of_same h
    have hhash : ∀ a ∈ S, ∀ b ∈ S, map_case_eq a b = true → hasher hash a = hasher hash b := by
      intro a ha b hb heq
      cases a with
      | none => rw [hnull _ ha _ hb rfl]
      | some x =>
          cases b with
          | none => cases hnull _ hb _ ha rfl
          | some y => exact (hover x y ha hb ((mapCaseEq_iff x y).mp heq)).2
    have hhit : ∀ a ∈ S, ∀ b ∈ S, (nameHit hash a b = true ↔ SameName a b) := by
      intro a ha b hb
      rw [nameHit, Bool.and_eq_true, decide_eq_true_iff, hsame a ha b hb, and_iff_right_iff_imp]
      exact fun h => hhash a ha b hb ((hsame a ha b hb).mpr h)
    have hequiv : AssocMap.EquivOn (nameHit hash) (· ∈ S) :=
      ⟨fun a ha => (hhit a ha a ha).mpr rfl,
        fun a b ha hb h => (hhit b hb a ha).mpr ((hhit a ha b hb).mp h).symm,
        fun a b c ha hb hc h h' =>
          (hhit a ha c hc).mpr (((hhit a ha b hb).mp h).trans ((hhit b hb c hc).mp h'))⟩
    refine ⟨fun a ha => (hsame a ha a ha).mpr rfl,
      fun a ha b hb h => (hsame b hb a ha).mpr ((hsame a ha b hb).mp h).symm,
      fun a ha b hb c hc h h' =>
        (hsame a ha c hc).mpr (((hsame a ha b hb).mp h).trans ((hsame b hb c hc).mp h')),
      hsame, hhash, fun ins hins key hkey => ?_⟩
    rw [AssocMap.find_insertAll hequiv hins hkey, AssocMap.find]
    congr 1
    apply List.find?_congr
    intro e he
    exact Bool.eq_iff_iff.mpr ((hhit _ (hins e he) _ hkey).trans (decide_eq_true_iff).symm)

/-- A name and a longer one, whatever the hash is. -/
theorem not_lawful : ¬ ∃ hash : Bytes → UInt64,
    Lawful hash Unit {some (str "Accept"), some (str "Accept-Encoding")} := by
  rintro ⟨hash, h⟩
  have heq : map_case_eq (some (str "Accept")) (some (str "Accept-Encoding")) = true := by
    decide
  have hsame := (h.same _ (.inl rfl) _ (.inr rfl)).mp heq
  exact absurd hsame (by decide)

end Suil.Http
