import Suil.Basic.Buffer
import Suil.Basic.Str
import Suil.Lib.Traced
import Suil.Sql.ArrayText

set_option autoImplicit false

/-! # Arrays of strings

`vhod_to_vnod` and `parse_array` (`pgsql.h`), which write a vector of strings as the text of an array
and read one. Neither of them looks at what the elements hold. `arrays_iff` says which vectors are
written and which arrays are read as they are. -/

namespace Suil.Sql

open OBuffer (Stop UINT32)
open StepMachine (inputs)

/-! ## Writing and reading vectors -/

/-- `b << d`; an empty string is not appended. -/
def appendString (b : OBuffer) (d : Bytes) : Except Stop OBuffer := if d = [] then .ok b else b.append d

/-- `vhod_to_vnod_append(b, d)`. -/
def vhod_to_vnod_append (b : OBuffer) (d : Bytes) : Except Stop OBuffer := do
  let b ← b.call (.formatted [DQUOTE])
  let b ← appendString b d
  b.call (.formatted [DQUOTE])

/-- `if (!first) b << ',';` -/
def separate (b : OBuffer) (first : Bool) : Except Stop OBuffer :=
  if !first then b.call (.formatted [COMMA]) else .ok b

/-- The loop over the vector. -/
def appendAll (b : OBuffer) (first : Bool) : List Bytes → Except Stop OBuffer
  | [] => .ok b
  | d :: data => do
      let b ← separate b first
      let b ← vhod_to_vnod_append b d
      appendAll b false data

/-- `vhod_to_vnod(b, data)`. -/
def vhod_to_vnod (b : OBuffer) (data : List Bytes) : Except Stop OBuffer := do
  let b ← b.call (.cString (str "\x7b"))
  let b ← appendAll b true data
  b.call (.cString (str "\x7d"))

/-- `bind`: the C string that is the value of the parameter, once `release` has ended it. -/
def bindArray (v : List (Sized UINT32)) : Except Stop Bytes := do
  let b ← vhod_to_vnod (.new 32) (v.map (·.bytes))
  .ok (cstr b.contents)

/-- `__array_value(s, e - s)`. -/
def array_value (s e : Bytes) : Str := Str.dup ⟨some s, (((s.length : Int) - e.length) % UINT32).toNat⟩

/-- The loop of `parse_array`, where `fin` begins with the closing brace. -/
def splitFrom (fin s : Bytes) : List Str :=
  match _h : strchr s COMMA with
  | none => [array_value s fin]
  | some e => array_value s e :: splitFrom fin e.tail
  termination_by s.length
  decreasing_by
    obtain ⟨q, rfl, hlen⟩ := strchr_eq_some _h
    exact hlen

/-- `parse_array(to, from)`. -/
def parse_array (to_ : List Str) (text : Bytes) : List Str :=
  match strchr text LBRACE, strchr text RBRACE with
  | some start, some fin => to_ ++ splitFrom fin start.tail
  | _, _ => to_

/-! ## Vectors and arrays -/

/-- A text that PostgreSQL can hold. -/
structure PgText where
  bytes : Bytes
  plain : NUL ∉ bytes
  bound : bytes.length < 2 ^ 30

/-- The parameter is an array of the elements of the vector. -/
def Denotes (v : List (Sized UINT32)) : Prop :=
  ∃ text, bindArray v = .ok text ∧ arrayIn text = some (v.map fun s => some s.bytes)

/-- A string is an element of an array. -/
def Same (e : Str) (x : Option PgText) : Prop :=
  ∃ t, x = some t ∧ e.len = t.bytes.length ∧ e.bytes = t.bytes

/-- The elements of an array are appended, in order. -/
def Parses (lower : Int) (xs : List (Option PgText)) : Prop :=
  ∀ to_, ∃ es, parse_array to_ (arrayOut lower (xs.map (·.map PgText.bytes))) = to_ ++ es ∧
    List.Forall₂ Same es xs

/-- What is appended to the buffer, one after the other. -/
def pieces (first : Bool) : List Bytes → List Bytes
  | [] => []
  | d :: data =>
      (if !first then [[COMMA]] else []) ++ [[DQUOTE]] ++ (if d = [] then [] else [d]) ++ [[DQUOTE]] ++
        pieces false data

def allPieces (data : List Bytes) : List Bytes := str "\x7b" :: (pieces true data ++ [str "\x7d"])

/-- The strings can stand between quotes as they are, and the text of the array has room in a buffer. -/
structure Writable (v : List (Sized UINT32)) : Prop where
  literal : ∀ s ∈ v, Literal s.bytes
  room : ∀ q ∈ inputs (fun b part => (OBuffer.append b part).toOption) (.new 32)
    (allPieces (v.map (·.bytes))), q.1.Fits q.2.length

/-- The element is not NULL and not quoted. -/
def IsBare (x : Option PgText) : Prop := ∃ t, x = some t ∧ quoted t.bytes = false

/-- There are elements, and all of them are so. -/
def Bare (xs : List (Option PgText)) : Prop := xs ≠ [] ∧ ∀ x ∈ xs, IsBare x

/-! ## Writing -/

theorem character_eq (b : OBuffer) (c : UInt8) : b.call (.formatted [c]) = b.append [c] := by
  have hshort : [c].length < 2048 := by simp
  exact OBuffer.appendv_eq_append hshort

/-- What is appended piece by piece. -/
abbrev puts (ps : List Bytes) (b : OBuffer) : Except Stop OBuffer := ps.foldlM OBuffer.append b

private theorem puts_append (ps qs : List Bytes) (b : OBuffer) :
    puts (ps ++ qs) b = puts ps b >>= puts qs := List.foldlM_append

private theorem puts_singleton (p : Bytes) (b : OBuffer) : puts [p] b = b.append p := bind_pure _

theorem vhod_to_vnod_append_eq (b : OBuffer) (d : Bytes) : vhod_to_vnod_append b d =
    puts ([[DQUOTE]] ++ ((if d = [] then [] else [d]) ++ [[DQUOTE]])) b := by
  have hchar : (fun b : OBuffer => b.call (.formatted [DQUOTE])) = puts [[DQUOTE]] :=
    funext fun b => (character_eq b DQUOTE).trans (puts_singleton _ b).symm
  have hstring : (fun b : OBuffer => appendString b d) = puts (if d = [] then [] else [d]) := by
    funext b
    unfold appendString
    by_cases hd : d = []
    · rw [if_pos hd, if_pos hd]
      rfl
    · rw [if_neg hd, if_neg hd, puts_singleton]
  calc vhod_to_vnod_append b d
      = (fun b : OBuffer => b.call (.formatted [DQUOTE])) b >>= fun b =>
          (fun b : OBuffer => appendString b d) b >>= fun b : OBuffer => b.call (.formatted [DQUOTE]) := rfl
    _ = puts [[DQUOTE]] b >>= fun b => puts (if d = [] then [] else [d]) b >>= puts [[DQUOTE]] := by
        rw [hchar, hstring]
    _ = _ := by
        rw [puts_append]
        refine congrArg (puts [[DQUOTE]] b >>= ·) (funext fun b => ?_)
        exact (puts_append _ _ b).symm

theorem appendAll_eq (data : List Bytes) (b : OBuffer) (first : Bool) :
    appendAll b first data = puts (pieces first data) b := by
  induction data generalizing b first with
  | nil => rfl
  | cons d data ih =>
      have hfirst : separate b first = puts (if !first then [[COMMA]] else []) b := by
        cases first with
        | true => rfl
        | false =>
            unfold separate
            have hnot : (!false) = true := rfl
            rw [if_pos hnot, if_pos hnot, character_eq, puts_singleton]
      have hrest : (fun b : OBuffer => vhod_to_vnod_append b d >>= fun b => appendAll b false data) =
          puts (([[DQUOTE]] ++ ((if d = [] then [] else [d]) ++ [[DQUOTE]])) ++ pieces false data) := by
        funext b
        have hall : (fun b => appendAll b false data) = puts (pieces false data) :=
          funext fun b => ih b false
        rw [vhod_to_vnod_append_eq, hall, ← puts_append]
      calc appendAll b first (d :: data)
          = separate b first >>= fun b => vhod_to_vnod_append b d >>= fun b => appendAll b false data := rfl
        _ = puts (if !first then [[COMMA]] else []) b >>= puts (([[DQUOTE]] ++
              ((if d = [] then [] else [d]) ++ [[DQUOTE]])) ++ pieces false data) := by
            rw [hfirst, ← hrest]
        _ = puts (pieces first (d :: data)) b := by
            rw [← puts_append, pieces]
            simp only [List.append_assoc]

theorem vhod_to_vnod_eq (b : OBuffer) (data : List Bytes) : vhod_to_vnod b data = puts (allPieces data) b := by
  have hend : (fun b : OBuffer => appendAll b true data >>= fun b => b.call (.cString (str "\x7d"))) =
      puts (pieces true data ++ [str "\x7d"]) := by
    funext b
    rw [appendAll_eq, puts_append]
    exact congrArg (puts _ b >>= ·) (funext fun b => (puts_singleton _ b).symm)
  calc vhod_to_vnod b data
      = b.call (.cString (str "\x7b")) >>= fun b =>
          appendAll b true data >>= fun b => b.call (.cString (str "\x7d")) := rfl
    _ = b.append (str "\x7b") >>= puts (pieces true data ++ [str "\x7d"]) := by
        rw [hend]
        rfl
    _ = puts (allPieces data) b := List.foldlM_cons.symm

/-- The pieces are the text of the array. -/
theorem pieces_flatten (data : List Bytes) : (pieces true data).flatten = quotedText data ∧
    (pieces false data).flatten = if data = [] then [] else COMMA :: quotedText data := by
  induction data with
  | nil => exact ⟨rfl, rfl⟩
  | cons d data ih =>
      have hd : (if d = [] then [] else [d]).flatten = d := by
        split
        · rename_i h
          rw [h]
          rfl
        · exact List.append_nil d
      have hquoted : quotedText (d :: data) =
          DQUOTE :: (d ++ DQUOTE :: if data = [] then [] else COMMA :: quotedText data) := by
        cases data with
        | nil => rfl
        | cons d' data => rfl
      rw [hquoted, ← ih.2]
      simp [pieces, hd]

/-- A vector is written as it is exactly when its strings are literal and there is room. -/
theorem denotes_iff (v : List (Sized UINT32)) : Denotes v ↔ Writable v := by
  have hnew := OBuffer.new_shaped 32
  have hbegin : (OBuffer.new 32).Fits (str "\x7b").length := .inl (by decide)
  obtain ⟨b₁, happend, hs, hcontents, hle⟩ := OBuffer.append_of_fits hnew.1 hnew.2 hbegin
  have hone : b₁.contents = [LBRACE] := hcontents
  have hpos : 0 < b₁.offset := by
    rw [← OBuffer.contents_length hs hle, hone]
    exact Nat.one_pos
  have hvhod : vhod_to_vnod (.new 32) (v.map (·.bytes)) =
      (pieces true (v.map (·.bytes)) ++ [str "\x7d"]).foldlM OBuffer.append b₁ := by
    rw [vhod_to_vnod_eq, allPieces, puts, List.foldlM_cons, happend]
    rfl
  have htext : b₁.contents ++ (pieces true (v.map (·.bytes)) ++ [str "\x7d"]).flatten =
      LBRACE :: (quotedText (v.map (·.bytes)) ++ [RBRACE]) := by
    rw [List.flatten_append, (pieces_flatten _).1, hone]
    rfl
  have hiff : ∀ c, (∃ b', (pieces true (v.map (·.bytes)) ++ [str "\x7d"]).foldlM OBuffer.append b₁ = .ok b' ∧
      b'.contents = c) ↔ _ := fun c => OBuffer.foldlM_append_iff hs hle (.inl hpos) c
  have hliteral : (∀ s ∈ v, Literal s.bytes) ↔ ∀ s ∈ v.map (·.bytes), Literal s := by simp
  have hroom : (∀ q ∈ inputs (fun b part => (OBuffer.append b part).toOption) (.new 32)
      (allPieces (v.map (·.bytes))), q.1.Fits q.2.length) ↔
      ∀ q ∈ inputs (fun b part => (OBuffer.append b part).toOption) b₁
        (pieces true (v.map (·.bytes)) ++ [str "\x7d"]), q.1.Fits q.2.length := by
    rw [allPieces, inputs, List.forall_mem_cons, and_iff_right hbegin, happend]
    rfl
  constructor
  · rintro ⟨text, hbind, hin⟩
    obtain ⟨b, hb, htext'⟩ := Except.ok_of_bind hbind
    rw [hvhod] at hb
    obtain ⟨hfits, hc⟩ := (hiff b.contents).mp ⟨b, hb, rfl⟩
    refine ⟨?_, hroom.mpr hfits⟩
    rw [hliteral, ← arrayIn_quoted_iff, ← htext, hc, Except.ok.inj htext', hin, List.map_map]
    rfl
  · rintro ⟨hlit, hfits⟩
    obtain ⟨b, hb, hc⟩ := (hiff _).mpr ⟨hroom.mp hfits, rfl⟩
    refine ⟨cstr b.contents, ?_, ?_⟩
    · rw [bindArray, hvhod, hb]
      rfl
    · rw [hc, htext, (arrayIn_quoted_iff _).mpr (hliteral.mp hlit), List.map_map]
      rfl

/-! ## Reading -/

/-- A search goes on behind what does not hold the character. -/
private theorem strchr_behind {x : Bytes} {c : UInt8} (hx : c ∉ x) (hnul : NUL ∉ x) (y : Bytes) :
    strchr (x ++ y) c = strchr y c := by
  induction x with
  | nil => rfl
  | cons b x ih =>
      rw [List.mem_cons, not_or] at hx hnul
      rw [List.cons_append, strchr, if_neg (Ne.symm hx.1), if_neg (Ne.symm hnul.1), ih hx.2 hnul.2]

theorem splitFrom_comma {fin p q : Bytes} (hcomma : COMMA ∉ p) (hnul : NUL ∉ p) :
    splitFrom fin (p ++ COMMA :: q) = array_value (p ++ COMMA :: q) (COMMA :: q) :: splitFrom fin q := by
  have hfound : strchr (p ++ COMMA :: q) COMMA = some (COMMA :: q) := strchr_append hcomma hnul
  rw [splitFrom]
  split
  · rename_i h
    rw [hfound] at h
    nomatch h
  · rename_i e h
    rw [hfound] at h
    rw [← Option.some.inj h]
    rfl

theorem splitFrom_last {fin s : Bytes} (hcomma : COMMA ∉ s) : splitFrom fin s = [array_value s fin] := by
  have hnone : strchr s COMMA = none := strchr_of_notMem hcomma
  rw [splitFrom]
  split
  · rfl
  · rename_i e h
    rw [hnone] at h
    nomatch h

/-- What is in front of the end is the string. -/
theorem array_value_eq {p : Bytes} (e : Bytes) (hnul : NUL ∉ p) (hlen : p.length < UINT32) :
    (array_value (p ++ e) e).len = p.length ∧ (array_value (p ++ e) e).bytes = p := by
  have hsize : ((((p ++ e).length : Int) - e.length) % UINT32).toNat = p.length := by
    rw [List.length_append, Int.natCast_add, Int.add_sub_cancel, ← Int.natCast_emod, Int.toNat_natCast,
      Nat.mod_eq_of_lt hlen]
  unfold array_value
  rw [hsize]
  by_cases hp : p.length = 0
  · rw [List.length_eq_zero_iff] at hp
    subst hp
    exact ⟨rfl, rfl⟩
  · have htake : ((p ++ e).take p.length).takeWhile (· ≠ NUL) = p := by
      rw [List.take_left']
      · exact cstr_eq_self hnul
      · rfl
    have hdup : Str.dup ⟨some (p ++ e), p.length⟩ = ⟨some p, p.length⟩ := by
      calc Str.dup ⟨some (p ++ e), p.length⟩
          = ⟨some (((p ++ e).take p.length).takeWhile (· ≠ NUL)), p.length⟩ := if_neg hp
        _ = ⟨some p, p.length⟩ := by rw [htake]
    rw [hdup]
    exact ⟨rfl, List.take_length⟩

/-- The string is never longer than that. -/
theorem mem_of_mem_array_value {p e : Bytes} {c : UInt8} (h : c ∈ (array_value (p ++ e) e).bytes) :
    c ∈ p := by
  have hsize : ((((p ++ e).length : Int) - e.length) % UINT32).toNat ≤ p.length := by
    rw [List.length_append, Int.natCast_add, Int.add_sub_cancel, ← Int.natCast_emod, Int.toNat_natCast]
    exact Nat.mod_le _ _
  unfold array_value at h
  generalize ((((p ++ e).length : Int) - e.length) % UINT32).toNat = k at h hsize
  by_cases hk : k = 0
  · rw [show Str.dup ⟨some (p ++ e), k⟩ = Str.null from if_pos hk] at h
    nomatch h
  · rw [show Str.dup ⟨some (p ++ e), k⟩ = ⟨some (((p ++ e).take k).takeWhile (· ≠ NUL)), k⟩ from
      if_neg hk] at h
    have hin : c ∈ (p ++ e).take k := (List.takeWhile_subset _) (List.mem_of_mem_take h)
    rw [List.take_append_of_le_length hsize] at hin
    exact List.mem_of_mem_take hin

/-! ## Elements -/

theorem quoted_of_special {s : Bytes} {c : UInt8} (hc : special c = true) (h : c ∈ s) :
    quoted s = true := by
  unfold quoted
  rw [Bool.or_eq_true]
  exact .inr (List.any_eq_true.mpr ⟨c, h, hc⟩)

theorem length_le_escaped (s : Bytes) : s.length ≤ (escaped s).length ∧
    (escaped s).length ≤ 2 * s.length := by
  induction s with
  | nil => exact ⟨Nat.le_refl 0, Nat.le_refl 0⟩
  | cons c s ih =>
      unfold escaped at ih ⊢
      rw [List.flatMap_cons, List.length_append, List.length_cons]
      split
      · simp only [List.length_cons, List.length_nil]
        omega
      · simp only [List.length_cons, List.length_nil]
        omega

/-- Nothing but backslashes comes in between. -/
theorem mem_of_mem_escaped {s : Bytes} {c : UInt8} (h : c ∈ escaped s) (hc : c ≠ ESCAPE) : c ∈ s := by
  obtain ⟨d, hd, hcd⟩ := List.mem_flatMap.mp h
  split at hcd
  · rw [List.mem_cons, List.mem_singleton] at hcd
    rw [hcd.resolve_left hc]
    exact hd
  · rw [List.mem_singleton.mp hcd]
    exact hd

/-- The text of an element. -/
def PgText.out (x : Option PgText) : Bytes := elementOut (x.map PgText.bytes)

theorem mem_out {x : Option PgText} {c : UInt8} (h : c ∈ PgText.out x) (hc : c ≠ ESCAPE)
    (hquote : c ≠ DQUOTE) (hnull : c ∉ str "NULL") : ∃ t, x = some t ∧ c ∈ t.bytes := by
  cases x with
  | none => exact absurd h hnull
  | some t =>
      refine ⟨t, rfl, ?_⟩
      unfold PgText.out elementOut at h
      dsimp only [Option.map_some] at h
      split at h
      · rw [List.mem_cons, List.mem_append, List.mem_singleton] at h
        exact mem_of_mem_escaped ((h.resolve_left hquote).resolve_right hquote) hc
      · exact h

theorem nul_notMem_out (x : Option PgText) : NUL ∉ PgText.out x := by
  intro h
  obtain ⟨t, -, ht⟩ := mem_out h (by decide) (by decide) (by decide)
  exact t.plain ht

theorem length_out (x : Option PgText) : (PgText.out x).length < UINT32 := by
  cases x with
  | none => decide
  | some t =>
      have hbound := t.bound
      have hescaped := (length_le_escaped t.bytes).2
      unfold PgText.out elementOut
      dsimp only [Option.map_some]
      split
      · rw [List.length_cons, List.length_append, List.length_singleton]
        unfold UINT32
        omega
      · unfold UINT32
        omega

/-- An element that is not quoted is there as it is, and no other one is. -/
theorem out_eq_iff (t : PgText) : (PgText.out (some t)).length = t.bytes.length ∧
    PgText.out (some t) = t.bytes ↔ quoted t.bytes = false := by
  have hescaped := (length_le_escaped t.bytes).1
  unfold PgText.out elementOut
  dsimp only [Option.map_some]
  cases hquoted : quoted t.bytes with
  | true =>
      refine iff_of_false (fun h => ?_) (by exact nofun)
      have hlen := h.1
      rw [if_pos rfl, List.length_cons, List.length_append] at hlen
      omega
  | false => exact iff_of_true ⟨rfl, rfl⟩ rfl

/-- What is cut off behind an element is the element when it is bare. -/
theorem same_out_iff (x : Option PgText) (e : Bytes) :
    Same (array_value (PgText.out x ++ e) e) x ↔ IsBare x := by
  obtain ⟨hlen, hbytes⟩ := array_value_eq e (nul_notMem_out x) (length_out x)
  unfold Same IsBare
  rw [hlen, hbytes]
  apply exists_congr
  intro t
  apply and_congr_right
  rintro rfl
  exact out_eq_iff t

/-- What is cut off inside of an element, at a comma or a brace, is not the element. -/
theorem not_same_inside {x : Option PgText} {p q : Bytes} {c : UInt8} (hc : c = COMMA ∨ c = RBRACE)
    (hx : PgText.out x = p ++ c :: q) (hp : c ∉ p) (e : Bytes) :
    ¬ Same (array_value (p ++ e) e) x ∧ ¬ IsBare x := by
  have hfacts : c ≠ ESCAPE ∧ c ≠ DQUOTE ∧ c ∉ str "NULL" ∧ special c = true := by
    rcases hc with rfl | rfl <;> decide
  obtain ⟨t, rfl, ht⟩ := mem_out (x := x) (c := c) (by rw [hx]; simp) hfacts.1 hfacts.2.1 hfacts.2.2.1
  constructor
  · rintro ⟨t', ht', -, hbytes⟩
    rw [← Option.some.inj ht'] at hbytes
    rw [← hbytes] at ht
    exact hp (mem_of_mem_array_value ht)
  · rintro ⟨t', ht', hquoted⟩
    rw [← Option.some.inj ht', quoted_of_special hfacts.2.2.2 ht] at hquoted
    nomatch hquoted

/-! ## Arrays -/

/-- The text of the elements, up to the closing brace. -/
def outs (xs : List (Option PgText)) : Bytes := elementsOut (xs.map (·.map PgText.bytes)) ++ [RBRACE]

theorem outs_singleton (x : Option PgText) : outs [x] = PgText.out x ++ [RBRACE] := by
  simp [outs, elementsOut, PgText.out]

theorem outs_cons (x : Option PgText) {xs : List (Option PgText)} (h : xs ≠ []) :
    outs (x :: xs) = PgText.out x ++ COMMA :: outs xs := by
  obtain ⟨x', xs, rfl⟩ := List.exists_cons_of_ne_nil h
  simp [outs, elementsOut, PgText.out, List.intercalate]

theorem nul_notMem_outs (xs : List (Option PgText)) : NUL ∉ outs xs := by
  induction xs with
  | nil => decide
  | cons x xs ih =>
      have hx := nul_notMem_out x
      have hcomma : NUL ≠ COMMA := by decide
      have hbrace : NUL ≠ RBRACE := by decide
      by_cases h : xs = []
      · subst h
        rw [outs_singleton]
        simp [hx, hbrace]
      · rw [outs_cons x h]
        simp [hx, hcomma, ih]

/-- A bare element holds neither a comma nor a brace. -/
theorem notMem_out_of_isBare {x : Option PgText} (h : IsBare x) {c : UInt8} (hc : special c = true) :
    c ∉ PgText.out x := by
  obtain ⟨t, rfl, ht⟩ := h
  rw [((out_eq_iff t).mpr ht).2]
  intro hmem
  rw [quoted_of_special hc hmem] at ht
  nomatch ht

/-- The elements are read as they are exactly when they are all bare. -/
theorem splitFrom_iff {xs : List (Option PgText)} (hne : xs ≠ []) {fin : Bytes}
    (hfin : strchr (outs xs) RBRACE = some fin) :
    List.Forall₂ Same (splitFrom fin (outs xs)) xs ↔ ∀ x ∈ xs, IsBare x := by
  induction xs with
  | nil => exact absurd rfl hne
  | cons x xs ih =>
      rw [List.forall_mem_cons]
      -- an element with a comma in it is cut there
      by_cases hcomma : COMMA ∈ PgText.out x
      · obtain ⟨p, q, hx, hp⟩ := List.eq_append_cons_of_mem hcomma
        have hnul : NUL ∉ p := fun h => nul_notMem_out x (by rw [hx]; exact List.mem_append_left _ h)
        have houts : ∃ q', outs (x :: xs) = p ++ COMMA :: q' := by
          by_cases h : xs = []
          · subst h
            exact ⟨q ++ [RBRACE], by rw [outs_singleton, hx]; simp⟩
          · exact ⟨q ++ COMMA :: outs xs, by rw [outs_cons x h, hx]; simp⟩
        obtain ⟨q', houts⟩ := houts
        obtain ⟨hsame, hbare⟩ := not_same_inside (.inl rfl) hx hp (COMMA :: q')
        rw [houts, splitFrom_comma hp hnul, List.forall₂_cons]
        exact iff_of_false (fun h => hsame h.1) fun h => hbare h.1
      · by_cases h : xs = []
        · subst h
          have hlast : COMMA ∉ PgText.out x ++ [RBRACE] := by
            rw [List.mem_append, not_or]
            exact ⟨hcomma, by decide⟩
          rw [outs_singleton] at hfin ⊢
          rw [splitFrom_last hlast, List.forall₂_cons, and_iff_left .nil, and_iff_left (by exact nofun)]
          -- and the last one at a brace in it
          by_cases hbrace : RBRACE ∈ PgText.out x
          · obtain ⟨p, q, hx, hp⟩ := List.eq_append_cons_of_mem hbrace
            have hnul : NUL ∉ p := fun h => nul_notMem_out x (by rw [hx]; exact List.mem_append_left _ h)
            rw [hx, List.append_assoc, List.cons_append, strchr_append hp hnul] at hfin
            obtain ⟨hsame, hbare⟩ := not_same_inside (.inr rfl) hx hp fin
            rw [hx, List.append_assoc, List.cons_append, Option.some.inj hfin]
            exact iff_of_false hsame hbare
          · rw [strchr_append hbrace (nul_notMem_out x)] at hfin
            rw [← Option.some.inj hfin]
            exact same_out_iff x [RBRACE]
        · rw [outs_cons x h, splitFrom_comma hcomma (nul_notMem_out x), List.forall₂_cons, same_out_iff]
          refine and_congr_right fun hbare => ih h ?_
          have hbrace : RBRACE ∉ PgText.out x ++ [COMMA] := by
            rw [List.mem_append, not_or]
            exact ⟨notMem_out_of_isBare hbare (by decide), by decide⟩
          have hnul : NUL ∉ PgText.out x ++ [COMMA] := by
            rw [List.mem_append, not_or]
            exact ⟨nul_notMem_out x, by decide⟩
          rw [outs_cons x h] at hfin
          rw [← strchr_behind hbrace hnul, List.append_assoc]
          exact hfin

/-- What stands in front of an array whose first element has not the number 1. -/
theorem prefix_plain (lower upper : Int) {c : UInt8} (hc : c = LBRACE ∨ c = RBRACE ∨ c = NUL) :
    c ∉ str "[" ++ showInt lower ++ str ":" ++ showInt upper ++ str "]=" := by
  have hshow : ∀ n, c ∉ showInt n := by
    intro n h
    have hdigit : c ∈ showNat n.natAbs → False := by
      intro hmem
      have := isDigit_of_mem_showNat hmem
      rcases hc with rfl | rfl | rfl <;> revert this <;> decide
    unfold showInt at h
    split at h
    · rcases List.mem_append.mp h with h | h
      · rcases hc with rfl | rfl | rfl <;> revert h <;> decide
      · exact hdigit h
    · exact hdigit h
  have hrest : c ∉ str "[" ∧ c ∉ str ":" ∧ c ∉ str "]=" := by
    rcases hc with rfl | rfl | rfl <;> decide
  simp only [List.mem_append, not_or]
  exact ⟨⟨⟨⟨hrest.1, hshow lower⟩, hrest.2.1⟩, hshow upper⟩, hrest.2.2⟩

/-- The loop of `parse_array` begins behind the opening brace. -/
theorem parse_array_eq (lower : Int) (xs : List (Option PgText)) : ∃ fin,
    strchr (outs xs) RBRACE = some fin ∧ ∀ to_,
      parse_array to_ (arrayOut lower (xs.map (·.map PgText.bytes))) = to_ ++ splitFrom fin (outs xs) := by
  have hfront : ∃ front, (∀ c, c = LBRACE ∨ c = RBRACE ∨ c = NUL → c ∉ front) ∧
      arrayOut lower (xs.map (·.map PgText.bytes)) = front ++ LBRACE :: outs xs := by
    unfold arrayOut
    split
    · exact ⟨[], fun c _ => List.not_mem_nil, rfl⟩
    · exact ⟨_, fun c hc => prefix_plain _ _ hc, rfl⟩
  obtain ⟨front, hplain, harray⟩ := hfront
  have hbrace : RBRACE ∈ outs xs := by simp [outs]
  obtain ⟨p, q, hsplit, hp⟩ := List.eq_append_cons_of_mem hbrace
  have hnul : NUL ∉ p := fun h => nul_notMem_outs xs (by rw [hsplit]; exact List.mem_append_left _ h)
  have hfin : strchr (outs xs) RBRACE = some (RBRACE :: q) := by
    rw [hsplit]
    exact strchr_append hp hnul
  refine ⟨RBRACE :: q, hfin, fun to_ => ?_⟩
  have hstart : strchr (front ++ LBRACE :: outs xs) LBRACE = some (LBRACE :: outs xs) :=
    strchr_append (hplain _ (.inl rfl)) (hplain _ (.inr (.inr rfl)))
  have hend : strchr (front ++ LBRACE :: outs xs) RBRACE = some (RBRACE :: q) := by
    rw [strchr_behind (hplain _ (.inr (.inl rfl))) (hplain _ (.inr (.inr rfl)))]
    exact hfin
  unfold parse_array
  rw [harray, hstart, hend]
  rfl

/-- An array is read as it is exactly when it has elements and all of them are bare. -/
theorem parse_array_iff (lower : Int) (xs : List (Option PgText)) : Parses lower xs ↔ Bare xs := by
  obtain ⟨fin, hfin, hparse⟩ := parse_array_eq lower xs
  have helements : Parses lower xs ↔ List.Forall₂ Same (splitFrom fin (outs xs)) xs := by
    unfold Parses
    simp only [hparse, List.append_cancel_left_eq, exists_eq_left', forall_const]
  rw [helements, Bare]
  by_cases hne : xs = []
  · subst hne
    have hcomma : COMMA ∉ outs [] := by decide
    rw [splitFrom_last hcomma]
    exact iff_of_false nofun fun h => h.1 rfl
  · rw [and_iff_right hne]
    exact splitFrom_iff hne hfin

/-- A vector is written as it is when no string holds a quote, a backslash or a NUL and the text has
room in a buffer; an array is read as it is when it is not empty and no element is NULL or one that
PostgreSQL quotes. -/
theorem arrays_iff (v : List (Sized UINT32)) (lower : Int) (xs : List (Option PgText)) :
    (Denotes v ↔ Writable v) ∧ (Parses lower xs ↔ Bare xs) :=
  ⟨denotes_iff v, parse_array_iff lower xs⟩

/-- The empty array is read as one empty string. -/
theorem not_parses_empty : ¬ ∀ (v : List (Sized UINT32)) (lower : Int) (xs : List (Option PgText)),
    Denotes v ∧ Parses lower xs :=
  fun h => ((parse_array_iff 1 []).mp (h [] 1 []).2).1 rfl

end Suil.Sql
