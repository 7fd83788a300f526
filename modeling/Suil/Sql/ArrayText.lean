import Mathlib
import Suil.Basic.CString

set_option autoImplicit false

/-! # Arrays as text

What PostgreSQL reads and writes for an array of texts with one dimension. An element is quoted or
not; in both a backslash stands in front of a character that is meant as it is. `readQuoted_inv` says
which text between two quotes is read as itself. -/

namespace Suil.Sql

/-- The backslash. -/
def ESCAPE : UInt8 := 92

/-! ## Input -/

/-- A quoted element behind its first quote, or behind a backslash in it: its text, and what is behind
the last quote. -/
def readQuoted : Bool → Bytes → Option (Bytes × Bytes)
  | _, [] => none
  | true, c :: l => (readQuoted false l).map fun p => (c :: p.1, p.2)
  | false, c :: l =>
      if c = DQUOTE then some ([], l)
      else if c = ESCAPE then readQuoted true l
      else (readQuoted false l).map fun p => (c :: p.1, p.2)

/-- An element without quotes, or what is behind a backslash in it: its characters, each with whether
a backslash was in front of it, and what is behind it. -/
def readBare : Bool → Bytes → Option (List (UInt8 × Bool) × Bytes)
  | _, [] => none
  | true, c :: l => (readBare false l).map fun p => ((c, true) :: p.1, p.2)
  | false, c :: l =>
      if c = COMMA ∨ c = RBRACE then some ([], c :: l)
      else if c = LBRACE ∨ c = DQUOTE then none
      else if c = ESCAPE then readBare true l
      else (readBare false l).map fun p => ((c, false) :: p.1, p.2)

def isNull (text : Bytes) : Bool := text.map toLower = str "null"

/-- The element that such characters are, without the spaces behind it. -/
def bareElement (cs : List (UInt8 × Bool)) : Option (Option Bytes) :=
  let cs := cs.rdropWhile fun p => !p.2 && isSpace p.1
  if cs = [] then none
  else if cs.all (fun p => !p.2) && isNull (cs.map (·.1)) then some none
  else some (some (cs.map (·.1)))

/-- One element, which nothing stands for when it is NULL. -/
def readElement : Bytes → Option (Option Bytes × Bytes)
  | [] => none
  | c :: l =>
      if c = DQUOTE then (readQuoted false l).map fun p => (some p.1, p.2)
      else do
        let (cs, rest) ← readBare false (c :: l)
        let x ← bareElement cs
        some (x, rest)

/-- So many elements at most, each with what ends it. -/
def readElements : Nat → Bytes → Option (List (Option Bytes) × Bytes)
  | 0, _ => none
  | n + 1, l =>
      match readElement (l.dropWhile isSpace) with
      | none => none
      | some (x, l) =>
          match l.dropWhile isSpace with
          | [] => none
          | c :: l =>
              if c = COMMA then (readElements n l).map fun p => (x :: p.1, p.2)
              else if c = RBRACE then some ([x], l)
              else none

/-- The elements of an array, when the text is an array with one dimension. -/
def arrayIn (text : Bytes) : Option (List (Option Bytes)) :=
  match text.dropWhile isSpace with
  | [] => none
  | c :: l =>
      if c ≠ LBRACE then none
      else if (l.dropWhile isSpace).head? = some RBRACE then
        if (l.dropWhile isSpace).tail.all isSpace then some [] else none
      else
        match readElements text.length l with
        | none => none
        | some (xs, l) => if l.all isSpace then some xs else none

/-! ## Output -/

/-- The characters for which an element is quoted. -/
def special (c : UInt8) : Bool :=
  c = DQUOTE || c = ESCAPE || c = LBRACE || c = RBRACE || c = COMMA || isSpace c

/-- Whether an element is quoted. -/
def quoted (s : Bytes) : Bool := s = [] || isNull s || s.any special

def escaped (s : Bytes) : Bytes := s.flatMap fun c => if c = DQUOTE ∨ c = ESCAPE then [ESCAPE, c] else [c]

def elementOut : Option Bytes → Bytes
  | none => str "NULL"
  | some s => if quoted s then DQUOTE :: (escaped s ++ [DQUOTE]) else s

/-- Elements with commas between them. -/
def elementsOut (xs : List (Option Bytes)) : Bytes := [COMMA].intercalate (xs.map elementOut)

/-- The text of an array whose first element has a number; it is there when it is not 1. -/
def arrayOut (lower : Int) (xs : List (Option Bytes)) : Bytes :=
  (if xs = [] ∨ lower = 1 then []
    else str "[" ++ showInt lower ++ str ":" ++ showInt (lower + xs.length - 1) ++ str "]=") ++
  LBRACE :: (elementsOut xs ++ [RBRACE])

example : arrayIn (arrayOut 1 [some (str "a b"), none, some (str "c"), some (str "\\")]) =
    some [some (str "a b"), none, some (str "c"), some (str "\\")] := by decide

/-! ## Quotes -/

/-- A text that is read between quotes as it is. -/
def Literal (s : Bytes) : Prop := DQUOTE ∉ s ∧ ESCAPE ∉ s ∧ NUL ∉ s

theorem literal_cons {c : UInt8} {s : Bytes} :
    Literal (c :: s) ↔ (c ≠ DQUOTE ∧ c ≠ ESCAPE ∧ c ≠ NUL) ∧ Literal s := by
  unfold Literal
  simp only [List.mem_cons, not_or, ne_eq, eq_comm (b := c)]
  tauto

theorem readQuoted_literal {s : Bytes} (h : Literal s) (rest : Bytes) :
    readQuoted false (s ++ DQUOTE :: rest) = some (s, rest) := by
  induction s with
  | nil => rfl
  | cons c s ih =>
      obtain ⟨⟨hquote, hescape, -⟩, hs⟩ := literal_cons.mp h
      rw [List.cons_append, readQuoted, if_neg hquote, if_neg hescape, ih hs]
      rfl

private theorem map_cons_eq_some {α β : Type} {o : Option (List α × β)} {c d : α} {w : List α} {r : β} :
    (o.map fun p => (c :: p.1, p.2)) = some (d :: w, r) ↔ c = d ∧ o = some (w, r) := by
  cases o with
  | none => simp
  | some p => simp [Prod.ext_iff, and_assoc]

private theorem replicate_append_cons (n : Nat) (t : Bytes) :
    List.replicate n ESCAPE ++ ESCAPE :: t = List.replicate (n + 1) ESCAPE ++ t := by
  rw [List.replicate_succ', List.append_assoc]
  rfl

/-- Backslashes in front of a text do not come out of it: each of them that is read takes one more
from the text. -/
theorem readQuoted_ne (t rest : Bytes) (b : Bool) (n : Nat) (r : Bytes) :
    readQuoted b (cstr (t ++ DQUOTE :: rest)) ≠ some (List.replicate (n + 1) ESCAPE ++ t, r) := by
  induction t generalizing b n with
  | nil =>
      rw [List.nil_append, cstr_cons (by decide)]
      cases b with
      | false =>
          rw [readQuoted, if_pos rfl]
          exact nofun
      | true =>
          intro h
          nomatch (map_cons_eq_some.mp h).1
  | cons c t ih =>
      by_cases hnul : c = NUL
      · rw [hnul, List.cons_append, cstr_nul]
        cases b <;> exact nofun
      · rw [List.cons_append, cstr_cons hnul]
        cases b with
        | true =>
            -- the character behind the backslash is one of those in front
            intro h
            obtain ⟨hescape, hrest⟩ := map_cons_eq_some.mp h
            apply ih false n
            rw [hescape] at hrest
            rw [← replicate_append_cons]
            exact hrest
        | false =>
            rw [readQuoted]
            by_cases hquote : c = DQUOTE
            · rw [if_pos hquote]
              exact nofun
            · rw [if_neg hquote]
              by_cases hescape : c = ESCAPE
              · rw [if_pos hescape, hescape, replicate_append_cons]
                exact ih true (n + 1)
              · rw [if_neg hescape]
                exact fun h => hescape (map_cons_eq_some.mp h).1

/-- Text between quotes that comes out as it is holds no quote, no backslash and no NUL. -/
theorem readQuoted_inv {s rest r : Bytes}
    (h : readQuoted false (cstr (s ++ DQUOTE :: rest)) = some (s, r)) : Literal s ∧ r = cstr rest := by
  induction s with
  | nil =>
      rw [List.nil_append, cstr_cons (by decide), readQuoted, if_pos rfl] at h
      refine ⟨⟨List.not_mem_nil, List.not_mem_nil, List.not_mem_nil⟩, ?_⟩
      exact (Prod.mk.inj (Option.some.inj h)).2.symm
  | cons c s ih =>
      by_cases hnul : c = NUL
      · rw [hnul, List.cons_append, cstr_nul] at h
        nomatch h
      · rw [List.cons_append, cstr_cons hnul, readQuoted] at h
        by_cases hquote : c = DQUOTE
        · rw [if_pos hquote] at h
          nomatch (Prod.mk.inj (Option.some.inj h)).1
        · rw [if_neg hquote] at h
          by_cases hescape : c = ESCAPE
          · rw [if_pos hescape, hescape] at h
            exact absurd h (readQuoted_ne s rest true 0 r)
          · rw [if_neg hescape] at h
            obtain ⟨hs, hrest⟩ := ih (map_cons_eq_some.mp h).2
            exact ⟨literal_cons.mpr ⟨⟨hquote, hescape, hnul⟩, hs⟩, hrest⟩

/-! ## Quoted elements -/

/-- Each element between quotes, and commas between them. -/
def quotedText : List Bytes → Bytes
  | [] => []
  | [s] => DQUOTE :: (s ++ [DQUOTE])
  | s :: v => DQUOTE :: (s ++ DQUOTE :: COMMA :: quotedText v)

/-- What comes behind an element. -/
def behind (v : List Bytes) : Bytes :=
  if v = [] then [RBRACE] else COMMA :: (quotedText v ++ [RBRACE])

theorem quotedText_cons (s : Bytes) (v : List Bytes) :
    quotedText (s :: v) ++ [RBRACE] = DQUOTE :: (s ++ DQUOTE :: behind v) := by
  cases v with
  | nil => simp [quotedText, behind]
  | cons s' v => simp [quotedText, behind]

/-- The first element, as far as the text of a C string goes. -/
theorem readElements_quoted (n : Nat) (s : Bytes) (v : List Bytes) :
    readElements (n + 1) (cstr (quotedText (s :: v) ++ [RBRACE])) =
      match readQuoted false (cstr (s ++ DQUOTE :: behind v)) with
      | none => none
      | some (x, l) =>
          match l.dropWhile isSpace with
          | [] => none
          | c :: l =>
              if c = COMMA then (readElements n l).map fun p => (some x :: p.1, p.2)
              else if c = RBRACE then some ([some x], l)
              else none := by
  rw [quotedText_cons, cstr_cons (by decide), readElements]
  have hspace : (DQUOTE :: cstr (s ++ DQUOTE :: behind v)).dropWhile isSpace =
      DQUOTE :: cstr (s ++ DQUOTE :: behind v) := rfl
  rw [hspace, readElement, if_pos rfl]
  cases readQuoted false (cstr (s ++ DQUOTE :: behind v)) with
  | none => rfl
  | some p => rfl

/-- What is behind an element is read as its end. -/
theorem cstr_behind (v : List Bytes) : cstr (behind v) =
    if v = [] then [RBRACE] else COMMA :: cstr (quotedText v ++ [RBRACE]) := by
  unfold behind
  by_cases hv : v = []
  · rw [if_pos hv, if_pos hv]
    rfl
  · rw [if_neg hv, if_neg hv, cstr_cons (by decide)]

/-- An element comes out as it is when it is literal, and so do the others. -/
theorem readElements_cons_iff {n : Nat} {s : Bytes} {v : List Bytes} {xs : List (Option Bytes)}
    {r : Bytes} : readElements (n + 1) (cstr (quotedText (s :: v) ++ [RBRACE])) = some (some s :: xs, r) ↔
      Literal s ∧ if v = [] then xs = [] ∧ r = []
        else readElements n (cstr (quotedText v ++ [RBRACE])) = some (xs, r) := by
  rw [readElements_quoted]
  have hread : Literal s →
      readQuoted false (cstr (s ++ DQUOTE :: behind v)) = some (s, cstr (behind v)) := by
    intro hs
    have hcstr : cstr (s ++ DQUOTE :: behind v) = s ++ DQUOTE :: cstr (behind v) := by
      rw [cstr_append hs.2.2, cstr_cons (by decide)]
    rw [hcstr]
    exact readQuoted_literal hs _
  have hend : ∀ l, l = cstr (behind v) →
      ((match l.dropWhile isSpace with
        | [] => none
        | c :: l =>
            if c = COMMA then (readElements n l).map fun p => (some s :: p.1, p.2)
            else if c = RBRACE then some ([some s], l)
            else none) = some (some s :: xs, r) ↔
        if v = [] then xs = [] ∧ r = []
        else readElements n (cstr (quotedText v ++ [RBRACE])) = some (xs, r)) := by
    rintro l rfl
    rw [cstr_behind]
    by_cases hv : v = []
    · rw [if_pos hv, if_pos hv]
      show some ([some s], []) = some (some s :: xs, r) ↔ _
      simp [eq_comm]
    · rw [if_neg hv, if_neg hv]
      show ((readElements n _).map fun p => (some s :: p.1, p.2)) = _ ↔ _
      rw [map_cons_eq_some, and_iff_right rfl]
  constructor
  · intro h
    cases hquoted : readQuoted false (cstr (s ++ DQUOTE :: behind v)) with
    | none =>
        rw [hquoted] at h
        nomatch h
    | some p =>
        obtain ⟨x, l⟩ := p
        rw [hquoted] at h
        dsimp only at h
        -- the element that is read is the first one that comes out
        have hx : x = s := by
          cases hl : l.dropWhile isSpace with
          | nil =>
              rw [hl] at h
              nomatch h
          | cons c l' =>
              rw [hl] at h
              dsimp only at h
              by_cases hcomma : c = COMMA
              · rw [if_pos hcomma] at h
                exact Option.some.inj (map_cons_eq_some.mp h).1
              · rw [if_neg hcomma] at h
                by_cases hbrace : c = RBRACE
                · rw [if_pos hbrace] at h
                  exact Option.some.inj (List.cons.inj (Prod.mk.inj (Option.some.inj h)).1).1
                · rw [if_neg hbrace] at h
                  nomatch h
        subst hx
        obtain ⟨hs, hl⟩ := readQuoted_inv hquoted
        exact ⟨hs, (hend l hl).mp h⟩
  · rintro ⟨hs, hrest⟩
    rw [hread hs]
    exact (hend _ rfl).mpr hrest

/-- Elements between quotes are read as they are exactly when they are literal. -/
theorem readElements_iff {n : Nat} {v : List Bytes} {r : Bytes} (hne : v ≠ []) :
    readElements n (cstr (quotedText v ++ [RBRACE])) = some (v.map some, r) ↔
      (∀ s ∈ v, Literal s) ∧ v.length ≤ n ∧ r = [] := by
  induction v generalizing n with
  | nil => exact absurd rfl hne
  | cons s v ih =>
      cases n with
      | zero => exact iff_of_false nofun fun h => nomatch h.2.1
      | succ n =>
          rw [List.map_cons, readElements_cons_iff, List.forall_mem_cons, and_assoc, List.length_cons,
            Nat.succ_le_succ_iff]
          refine and_congr_right fun _ => ?_
          by_cases hv : v = []
          · rw [if_pos hv, hv]
            simp
          · rw [if_neg hv]
            exact ih hv

theorem nul_notMem_quotedText {v : List Bytes} (h : ∀ s ∈ v, Literal s) : NUL ∉ quotedText v := by
  have hquote : NUL ≠ DQUOTE := by decide
  have hcomma : NUL ≠ COMMA := by decide
  induction v with
  | nil => exact List.not_mem_nil
  | cons s v ih =>
      rw [List.forall_mem_cons] at h
      have hs : NUL ∉ s := h.1.2.2
      have hv : NUL ∉ quotedText v := ih h.2
      cases v with
      | nil => simp [quotedText, hs, hquote]
      | cons s' v => simp [quotedText, hs, hv, hquote, hcomma]

theorem length_le_quotedText (v : List Bytes) : v.length ≤ (quotedText v).length := by
  induction v with
  | nil => exact Nat.le_refl 0
  | cons s v ih =>
      cases v with
      | nil => simp [quotedText]
      | cons s' v =>
          simp only [quotedText, List.length_cons, List.length_append] at ih ⊢
          omega

/-- The array of the quoted elements is read as the elements exactly when they are literal. -/
theorem arrayIn_quoted_iff (v : List Bytes) :
    arrayIn (cstr (LBRACE :: (quotedText v ++ [RBRACE]))) = some (v.map some) ↔ ∀ s ∈ v, Literal s := by
  rw [cstr_cons (by decide)]
  cases v with
  | nil => exact iff_of_true rfl nofun
  | cons s v =>
      have hne : s :: v ≠ [] := List.cons_ne_nil s v
      have htext : cstr (quotedText (s :: v) ++ [RBRACE]) = DQUOTE :: cstr (s ++ DQUOTE :: behind v) := by
        rw [quotedText_cons, cstr_cons (by decide)]
      have hin : arrayIn (LBRACE :: cstr (quotedText (s :: v) ++ [RBRACE])) =
          match readElements (LBRACE :: cstr (quotedText (s :: v) ++ [RBRACE])).length
            (cstr (quotedText (s :: v) ++ [RBRACE])) with
          | none => none
          | some (xs, l) => if l.all isSpace then some xs else none := by
        rw [htext]
        rfl
      rw [hin]
      constructor
      · intro h
        cases hread : readElements (LBRACE :: cstr (quotedText (s :: v) ++ [RBRACE])).length
            (cstr (quotedText (s :: v) ++ [RBRACE])) with
        | none =>
            rw [hread] at h
            nomatch h
        | some p =>
            obtain ⟨xs, r⟩ := p
            rw [hread] at h
            dsimp only at h
            split at h
            · rw [Option.some.inj h] at hread
              exact ((readElements_iff hne).mp hread).1
            · nomatch h
      · intro h
        have hcstr : cstr (quotedText (s :: v) ++ [RBRACE]) = quotedText (s :: v) ++ [RBRACE] := by
          rw [cstr_append (nul_notMem_quotedText h)]
          rfl
        -- each element has its quotes in the text, so that the fuel is enough
        have hfuel : (s :: v).length ≤ (LBRACE :: cstr (quotedText (s :: v) ++ [RBRACE])).length := by
          have hle := length_le_quotedText (s :: v)
          rw [hcstr, List.length_cons (a := LBRACE), List.length_append]
          omega
        rw [(readElements_iff (r := []) hne).mpr ⟨h, hfuel, rfl⟩]
        rfl

end Suil.Sql
