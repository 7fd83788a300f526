import Suil.Basic.Buffer
import Suil.Mustache.Template

set_option autoImplicit false

/-! # Escaping

`Mustache::escape` (`mustache.cpp`) appends a character or its entity at a time to the buffer that is
rendered into. The text can be read back, and `escapes_iff` says for which strings, and into which
buffers, all of it is written. -/

namespace Suil.Mustache

open OBuffer

/-! ## `escape` into a buffer -/

/-- What is appended for a character. -/
def piece (c : UInt8) : Bytes := escape [c]

/-- The loop over the string. The iterator counts with a `size_t` and asks the string for the
character at an `int`, which throws when it is negative. -/
def appendPieces : OBuffer → Nat → Bytes → Except OBuffer.Stop OBuffer
  | out, _, [] => .ok out
  | out, pos, c :: s =>
      if INT_MAX < pos then .error (.thrown out)
      else do
        let out ← out.append (piece c)
        appendPieces out (pos + 1) s

/-- `escape(out, in)`. -/
def escapeTo (out : OBuffer) (s : Bytes) : Except OBuffer.Stop OBuffer :=
  appendPieces (out.reserve (s.length * 2)) 0 s

/-! ## Reading the text back -/

/-- The characters that may not stand in the text by themselves. -/
def special : List UInt8 := [AMP, 60, GT, DQUOTE, 39, SLASH]

/-- The entities and the characters they stand for. -/
def entities : List (UInt8 × Bytes) :=
  [(AMP, str "&amp;"), (60, str "&lt;"), (GT, str "&gt;"), (DQUOTE, str "&quot;"), (39, str "&#39;"),
    (SLASH, str "&#x2f;")]

/-- The entities of a text, with `true`, and its other characters, with `false`. -/
def tokens : Nat → Bytes → List (Bool × UInt8)
  | 0, _ => []
  | n + 1, t =>
      match entities.find? fun e => e.2.isPrefixOf t with
      | some e => (true, e.1) :: tokens n (t.drop e.2.length)
      | none =>
          match t with
          | [] => []
          | c :: t => (false, c) :: tokens n t

/-- No special character stands in the text but in an entity, and the text is of this string. -/
def Encodes (t s : Bytes) : Prop :=
  (∀ c, (false, c) ∈ tokens t.length t → c ∉ special) ∧ (tokens t.length t).map (·.2) = s

/-! ## Buffers that a text is escaped into -/

/-- A buffer in which nothing has wrapped around. -/
structure Sound where
  buffer : OBuffer
  shaped : buffer.Shaped
  offset : buffer.offset ≤ buffer.size

/-- A text that encodes the string is appended to the buffer. -/
def Escapes (out : Sound) (s : Bytes) : Prop :=
  ∃ out' t, escapeTo out.buffer s = .ok out' ∧ out'.contents = out.buffer.contents ++ t ∧ Encodes t s

/-- A capacity of so many bytes becomes one of what is needed by doubling it, without wrapping
around. -/
def Doubles (size need : Nat) : Prop := ∃ k, size * 2 ^ k < UINT32 ∧ need ≤ size * 2 ^ k

/-- The characters have an index each that is not negative, and the capacity, which is 8 bytes at
least when something is stored, does not wrap around. -/
def Writable (out : Sound) (s : Bytes) : Prop :=
  s.length ≤ INT_MAX + 1 ∧ out.buffer.offset ≤ out.buffer.reserved (s.length * 2) ∧
    Doubles (max 8 (out.buffer.reserved (s.length * 2))) (out.buffer.offset + (escape s).length)

/-! ## The text -/

theorem escape_eq (s : Bytes) : escape s = (s.map piece).flatten := by
  induction s with
  | nil => rfl
  | cons c s ih =>
      rw [List.map_cons, List.flatten_cons, ← ih]
      exact @List.flatMap_append _ _ [c] s _

/-- A special character is written as its entity, any other one as it is. -/
private theorem piece_cases (c : UInt8) :
    (c ∈ special ∧ (c, piece c) ∈ entities) ∨ c ∉ special ∧ piece c = [c] := by
  by_cases hc : c ∈ special
  · refine .inl ⟨hc, ?_⟩
    simp only [special, List.mem_cons, List.not_mem_nil, or_false] at hc
    rcases hc with rfl | rfl | rfl | rfl | rfl | rfl <;> decide
  · refine .inr ⟨hc, ?_⟩
    simp only [special, List.mem_cons, List.not_mem_nil, or_false, not_or] at hc
    obtain ⟨h₁, h₂, h₃, h₄, h₅, h₆⟩ := hc
    simp only [piece, escape, List.flatMap_cons, List.flatMap_nil, if_neg h₁, if_neg h₂, if_neg h₃,
      if_neg h₄, if_neg h₅, if_neg h₆, List.append_nil]

private theorem entities_prefixFree :
    ∀ x ∈ entities, ∀ y ∈ entities, x.2.isPrefixOf y.2 = true → x = y := by
  decide

private theorem entities_head : ∀ x ∈ entities, x.2.head? = some AMP := by
  decide

/-- At an entity the search of the table finds it. -/
private theorem find_entity {x : UInt8 × Bytes} (hx : x ∈ entities) (rest : Bytes) :
    entities.find? (fun e => e.2.isPrefixOf (x.2 ++ rest)) = some x := by
  have hself : x.2.isPrefixOf (x.2 ++ rest) = true :=
    List.isPrefixOf_iff_prefix.mpr (List.prefix_append x.2 rest)
  cases hfind : entities.find? (fun e => e.2.isPrefixOf (x.2 ++ rest)) with
  | none => exact absurd hself (List.find?_eq_none.mp hfind x hx)
  | some y =>
      have hy : y ∈ entities := List.mem_of_find?_eq_some hfind
      have hprefix : y.2 <+: x.2 ++ rest :=
        List.isPrefixOf_iff_prefix.mp (by
          have hfound := List.find?_some hfind
          exact hfound)
      -- two prefixes of one text, so that one is a prefix of the other
      rcases List.prefix_or_prefix_of_prefix (List.prefix_append x.2 rest) hprefix with h | h
      · rw [entities_prefixFree x hx y hy (List.isPrefixOf_iff_prefix.mpr h)]
      · rw [entities_prefixFree y hy x hx (List.isPrefixOf_iff_prefix.mpr h)]

private theorem find_plain {c : UInt8} (hc : c ∉ special) (rest : Bytes) :
    entities.find? (fun e => e.2.isPrefixOf (c :: rest)) = none := by
  rw [List.find?_eq_none]
  intro x hx hprefix
  obtain ⟨t, ht⟩ := List.isPrefixOf_iff_prefix.mp hprefix
  have hhead := congrArg List.head? ht
  rw [List.head?_append, entities_head x hx] at hhead
  obtain rfl : AMP = c := Option.some.inj hhead
  exact hc (by decide)

private theorem tokens_entity {x : UInt8 × Bytes} (hx : x ∈ entities) (n : Nat) (rest : Bytes) :
    tokens (n + 1) (x.2 ++ rest) = (true, x.1) :: tokens n rest := by
  conv_lhs => unfold tokens
  rw [find_entity hx]
  dsimp only
  rw [List.drop_left]

private theorem tokens_plain {c : UInt8} (hc : c ∉ special) (n : Nat) (rest : Bytes) :
    tokens (n + 1) (c :: rest) = (false, c) :: tokens n rest := by
  conv_lhs => unfold tokens
  rw [find_plain hc]

private theorem tokens_nil (n : Nat) : tokens n [] = [] := by
  cases n with
  | zero => rfl
  | succ n => rfl

private theorem escape_cons (c : UInt8) (s : Bytes) : escape (c :: s) = piece c ++ escape s := by
  rw [escape_eq, escape_eq, List.map_cons, List.flatten_cons]

private theorem piece_length (c : UInt8) : 0 < (piece c).length ∧ (piece c).length ≤ 8 := by
  rcases piece_cases c with ⟨-, hmem⟩ | ⟨-, hpiece⟩
  · have hall : ∀ x ∈ entities, 0 < x.2.length ∧ x.2.length ≤ 8 := by decide
    exact hall _ hmem
  · rw [hpiece]
    exact ⟨Nat.one_pos, show 1 ≤ 8 by decide⟩

/-- **The tokens of the text are the characters of the string.** -/
theorem tokens_escape (s : Bytes) {n : Nat} (hn : (escape s).length ≤ n) :
    tokens n (escape s) = s.map fun c => (decide (c ∈ special), c) := by
  induction s generalizing n with
  | nil => exact tokens_nil n
  | cons c s ih =>
      rw [escape_cons] at hn ⊢
      rw [List.length_append] at hn
      have hpos := (piece_length c).1
      cases n with
      | zero => omega
      | succ n =>
          have hrest : (escape s).length ≤ n := by omega
          rw [List.map_cons, ← ih hrest]
          rcases piece_cases c with ⟨hc, hmem⟩ | ⟨hc, hpiece⟩
          · rw [tokens_entity hmem, decide_eq_true hc]
          · rw [hpiece, List.singleton_append, tokens_plain hc, decide_eq_false hc]

theorem encodes_escape_iff (s s' : Bytes) : Encodes (escape s) s' ↔ s = s' := by
  unfold Encodes
  rw [tokens_escape s (Nat.le_refl _), List.map_map]
  have hid : s.map ((·.2) ∘ fun c => (decide (c ∈ special), c)) = s := by
    exact List.map_id'' (fun _ => rfl) s
  rw [hid]
  apply and_iff_right
  intro c hc
  obtain ⟨d, -, hd⟩ := List.mem_map.mp hc
  injection hd with hfalse hcd
  rw [← hcd]
  exact of_decide_eq_false hfalse

/-! ## Appending the pieces -/

private theorem doubles_double {size need : Nat} (h : size < need) :
    Doubles size need ↔ Doubles (size + size) need := by
  unfold Doubles
  constructor
  · rintro ⟨k, hwide, hneed⟩
    cases k with
    | zero => omega
    | succ k =>
        refine ⟨k, ?_⟩
        rw [← Nat.two_mul, Nat.mul_comm 2, Nat.mul_assoc, ← Nat.pow_succ']
        exact ⟨hwide, hneed⟩
  · rintro ⟨k, hwide, hneed⟩
    refine ⟨k + 1, ?_⟩
    rw [Nat.pow_succ', ← Nat.mul_assoc, Nat.mul_comm size 2, Nat.two_mul]
    exact ⟨hwide, hneed⟩

private theorem doubles_wide {size need : Nat} (h : Doubles size need) : size < UINT32 := by
  obtain ⟨k, hwide, -⟩ := h
  calc size = size * 1 := (Nat.mul_one size).symm
    _ ≤ size * 2 ^ k := Nat.mul_le_mul_left size Nat.one_le_two_pow
    _ < UINT32 := hwide

private theorem doubles_of_le {size need : Nat} (h : need ≤ size) (hwide : size < UINT32) :
    Doubles size need := by
  refine ⟨0, ?_⟩
  rw [Nat.pow_zero, Nat.mul_one]
  exact ⟨hwide, h⟩

/-- A piece fits as it is, or the capacity is doubled, or it is stored outside of the memory. -/
private theorem append_cases {out : OBuffer} (h : out.Shaped) (ho : out.offset ≤ out.size)
    {p : Bytes} (hp : 0 < p.length ∧ p.length ≤ 8) :
    (∃ out', out.append p = .ok out' ∧ out'.Shaped ∧ out'.contents = out.contents ++ p ∧
      out'.offset ≤ out'.size ∧ out'.offset = out.offset + p.length ∧
        ((out.offset + p.length ≤ max 8 out.size ∧ max 8 out'.size = max 8 out.size) ∨
          max 8 out.size < out.offset + p.length ∧
            max 8 out'.size = max 8 out.size + max 8 out.size)) ∨
      out.append p = .error .overrun ∧ max 8 out.size < out.offset + p.length ∧
        UINT32 ≤ max 8 out.size + max 8 out.size := by
  have hmultiple := h.multiple
  -- without any capacity it becomes one of 8 bytes, and it is doubled otherwise
  have hround : roundUp (max out.size p.length) = max 8 out.size := by
    unfold roundUp align
    split <;> omega
  have hzero : out.size = 0 ∨ 8 ≤ out.size := by omega
  by_cases hfits : out.Fits p.length
  · refine .inl ?_
    obtain ⟨out', happend, hshaped, hcontents, hoffset⟩ := append_of_fits h ho hfits
    have hlength := congrArg List.length hcontents
    rw [contents_length hshaped hoffset, List.length_append, contents_length h ho] at hlength
    have hsize' := append_size h ho happend
    rw [Fits, hround] at hfits
    rw [grown, hround] at hsize'
    refine ⟨out', happend, hshaped, hcontents, hoffset, hlength, ?_⟩
    by_cases hroom : out.offset + p.length ≤ out.size
    · rw [if_pos hroom] at hsize'
      exact .inl ⟨Nat.le_trans hroom (Nat.le_max_right 8 out.size), by rw [hsize']⟩
    · rw [if_neg hroom, Nat.mod_eq_of_lt (hfits.resolve_left hroom)] at hsize'
      omega
  · refine .inr ?_
    have hneeds := hfits
    rw [Fits, hround, not_or] at hneeds
    have hpos : 8 ≤ out.size := by
      unfold UINT32 at hneeds
      omega
    exact ⟨append_overrun h ho (.inl (by omega)) hfits, by omega, by omega⟩

/-- The loop writes the text when there is room for it and the index is an `int`, and it does not
come to its end otherwise. -/
private theorem appendPieces_spec (s : Bytes) : ∀ (out : OBuffer) (pos : Nat), out.Shaped →
    out.offset ≤ out.size → pos ≤ INT_MAX + 1 →
    (pos + s.length ≤ INT_MAX + 1 ∧ Doubles (max 8 out.size) (out.offset + (escape s).length) →
      ∃ out', appendPieces out pos s = .ok out' ∧ out'.contents = out.contents ++ escape s) ∧
    (¬ (pos + s.length ≤ INT_MAX + 1 ∧
        Doubles (max 8 out.size) (out.offset + (escape s).length)) →
      ∀ out', appendPieces out pos s ≠ .ok out') := by
  induction s with
  | nil =>
      intro out pos h ho hpos
      have hwide : max 8 out.size < UINT32 := Nat.max_lt.mpr ⟨by decide, h.wide⟩
      have hdoubles : Doubles (max 8 out.size) (out.offset + (escape []).length) :=
        doubles_of_le (Nat.le_trans ho (Nat.le_max_right 8 out.size)) hwide
      refine ⟨fun _ => ⟨out, rfl, (List.append_nil _).symm⟩, ?_⟩
      exact fun hno => absurd ⟨hpos, hdoubles⟩ hno
  | cons c s ih =>
      intro out pos h ho hpos
      have hp := piece_length c
      rw [escape_cons, List.length_append, List.length_cons]
      by_cases hindex : INT_MAX < pos
      · rw [appendPieces, if_pos hindex]
        exact ⟨fun hyes => by omega, fun _ out' => nofun⟩
      · rcases append_cases h ho hp with
          ⟨out₁, happend, hshaped, hcontents, hle, hoffset, hgrown⟩ | ⟨hstop, hlt, hwrap⟩
        · have hstep : appendPieces out pos (c :: s) = appendPieces out₁ (pos + 1) s := by
            rw [appendPieces, if_neg hindex, happend]
            rfl
          -- what is left to be stored needs the same in the buffer that the piece leaves
          have hsame : Doubles (max 8 out₁.size) (out₁.offset + (escape s).length) ↔
              Doubles (max 8 out.size) (out.offset + ((piece c).length + (escape s).length)) := by
            rw [hoffset, Nat.add_assoc]
            rcases hgrown with ⟨-, hsize₁⟩ | ⟨hlt, hsize₁⟩
            · rw [hsize₁]
            · rw [hsize₁, ← doubles_double (by omega)]
          have hlength : pos + 1 + s.length = pos + (s.length + 1) := by omega
          obtain ⟨hyes, hno⟩ := ih out₁ (pos + 1) hshaped hle (by omega)
          rw [hsame, hlength, ← hstep] at hyes
          rw [hsame, hlength, ← hstep] at hno
          refine ⟨?_, hno⟩
          intro hboth
          obtain ⟨out', hrun, hall⟩ := hyes hboth
          exact ⟨out', hrun, by rw [hall, hcontents, List.append_assoc]⟩
        · have hstep : appendPieces out pos (c :: s) = .error .overrun := by
            rw [appendPieces, if_neg hindex, hstop]
            rfl
          refine ⟨?_, fun _ out' => hstep ▸ nofun⟩
          rintro ⟨-, hdoubles⟩
          rw [doubles_double (by omega)] at hdoubles
          exact absurd (doubles_wide hdoubles) (Nat.not_lt.mpr hwrap)

/-- With a capacity that has wrapped around below the offset, the first piece is stored outside of
the memory. -/
private theorem append_lost {out : OBuffer} (h : out.Shaped) (hlt : out.size < out.offset)
    (hoffset : out.offset + 8 ≤ UINT32) {p : Bytes} (hp : 0 < p.length ∧ p.length ≤ 8) :
    out.append p = .error .overrun := by
  have hremaining : ¬ out.remaining < p.length := by
    unfold remaining UINT32 at *
    omega
  have hmemory : ¬ out.offset + p.length ≤ (out.mem.getD []).length := by
    rw [h.memory]
    split <;> omega
  rw [append, room, if_neg hremaining, store, if_neg, if_neg hmemory]
  · rfl
  · rintro rfl
    cases hp.1

/-- **When the string is escaped:** the index of each character is an `int`, and the capacity does
not wrap around. -/
theorem escapes_iff (out : Sound) (s : Bytes) : Escapes out s ↔ Writable out s := by
  obtain ⟨out, h, ho⟩ := out
  obtain ⟨hextends, hsize, -⟩ := reserve_spec h ho (s.length * 2)
  have hzero : (0 : Nat) ≤ INT_MAX + 1 := Nat.zero_le _
  unfold Escapes Writable escapeTo
  dsimp only
  by_cases hle : out.offset ≤ out.reserved (s.length * 2)
  · rw [and_iff_right hle]
    have hcontents := hextends.contents (hsize ▸ hle)
    obtain ⟨hyes, hno⟩ := appendPieces_spec s (out.reserve (s.length * 2)) 0 hextends.shaped
      (by rw [hextends.offset, hsize]; exact hle) hzero
    rw [hsize, hextends.offset, Nat.zero_add] at hyes hno
    constructor
    · rintro ⟨out', t, hrun, -, -⟩
      by_contra hnot
      exact hno hnot out' hrun
    · intro hboth
      obtain ⟨out', hrun, hall⟩ := hyes hboth
      refine ⟨out', escape s, hrun, ?_, (encodes_escape_iff s s).mpr rfl⟩
      rw [hall, hcontents]
  · refine iff_of_false ?_ (fun hwritable => hle hwritable.2.1)
    rintro ⟨out', t, hrun, -, -⟩
    cases s with
    | nil =>
        refine hle ?_
        show out.offset ≤ out.grown 0 (out.offset + 0 - out.size)
        rw [grown, if_pos (show out.offset + 0 ≤ out.size from ho)]
        exact ho
    | cons c s =>
        have hoffset : out.offset + 8 ≤ UINT32 := by
          have := h.multiple
          have := h.wide
          unfold UINT32 at *
          omega
        have hlost := append_lost hextends.shaped (p := piece c)
          (by rw [hextends.offset, hsize]; exact Nat.not_le.mp hle)
          (by rw [hextends.offset]; exact hoffset) (piece_length c)
        rw [appendPieces, if_neg (Nat.not_lt_zero _), hlost] at hrun
        cases hrun

private theorem not_escapes_of_long {out : Sound} (hzero : out.buffer.offset = 0) {s : Bytes}
    (hs : INT_MAX + 1 < s.length) : ¬ Escapes out s := by
  rintro ⟨out', t, hrun, -⟩
  obtain ⟨hextends, -⟩ := reserve_spec out.shaped out.offset (s.length * 2)
  have hoffset : (out.buffer.reserve (s.length * 2)).offset ≤
      (out.buffer.reserve (s.length * 2)).size := by
    rw [hextends.offset, hzero]
    exact Nat.zero_le _
  refine (appendPieces_spec s _ 0 hextends.shaped hoffset (Nat.zero_le _)).2 ?_ out' hrun
  omega

/-- An empty buffer. -/
def blank : Sound := ⟨⟨none, 0, 0⟩, OBuffer.shaped_null, Nat.zero_le _⟩

/-- So many times the letter `a`. -/
def letters (n : Nat) : Bytes := List.replicate n 97

/-- The character with the index 2^31. -/
theorem not_escapes_letters : ¬ Escapes blank (letters (2 ^ 31 + 1)) := by
  apply not_escapes_of_long rfl
  rw [letters, List.length_replicate, INT_MAX]
  omega

end Suil.Mustache
