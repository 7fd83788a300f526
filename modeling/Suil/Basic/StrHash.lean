import Suil.Basic.StrOrder
import Suil.Lib.StepMachine

set_option autoImplicit false

/-! # The cached hash of strings

A `String` (`zstring.h`, `zstring.cpp`) keeps its hash once it has been asked for, and a copy that does
not own its memory refers to the memory of the other one. `toupper`, `tolower` and `split` write to
that memory. `fresh_of_spared` says in which runs no hash is out of date. -/

namespace Suil.StrHash

open Str (copied_iff)

/-- A `String`: a pointer into a block of memory, or null. -/
structure Obj where
  ptr : Option Nat
  start : Nat
  m_len : Nat
  m_own : Bool
  m_hash : Nat
  deriving DecidableEq

/-- `String()`, and what a string is after it has been moved from. -/
def Obj.null : Obj := ⟨none, 0, 0, false, 0⟩

/-- The strings of a program and the blocks they point into. Blocks that are freed keep their number
and their bytes here, since nothing may refer to them. -/
structure World where
  blocks : List Bytes
  strings : List Obj

def World.block (w : World) (p : Nat) : Bytes := w.blocks.getD p []

/-- The bytes of a string. -/
def World.bytes (w : World) (o : Obj) : Bytes :=
  match o.ptr with
  | none => []
  | some p => ((w.block p).drop o.start).take o.m_len

/-! ## Calls on strings with a cached hash -/

/-- `toupper` of the C locale. -/
def toUpper (c : UInt8) : UInt8 := if 97 ≤ c && c ≤ 122 then c - 32 else c

/-- Bytes of a block are written, each by what is made of it. -/
def World.edit (w : World) (p lo hi : Nat) (f : UInt8 → UInt8) : World :=
  let block := (w.block p).mapIdx fun k b => if lo ≤ k ∧ k < hi then f b else b
  { w with blocks := w.blocks.set p block }

/-- `toupper()` and `tolower()`; the index of the loop is an `int`. -/
def World.convert (w : World) (o : Obj) (f : UInt8 → UInt8) : Option World :=
  match o.ptr with
  | none => some w
  | some p => if o.m_len ≤ 2 ^ 31 then some (w.edit p o.start (o.start + o.m_len) f) else none

/-- `split(delim)`: `strsep` goes up to the NUL behind the pointer, and writes one over every
delimiter. -/
def World.split (w : World) (o : Obj) (delim : Bytes) : Option World :=
  match o.ptr with
  | none => some w
  | some p =>
      let m := (w.block p).drop o.start
      if NUL ∈ m then
        some (w.edit p o.start (o.start + (cstr m).length) fun b => if b ∈ delim then NUL else b)
      else none

/-- `String(const String&)`, and what an assignment takes over. -/
def World.copied (w : World) (o : Obj) : Option (World × Obj) :=
  if o.m_own then
    match o.ptr with
    | none => none
    | some _ =>
        some ({ w with blocks := w.blocks ++ [cstr (w.bytes o) ++ [NUL]] },
          { o with ptr := some w.blocks.length, start := 0 })
  else some (w, o)

/-- `hasher`, where `hash` is `std::hash<strview>`. -/
def hasher (hash : Bytes → Nat) (w : World) (o : Obj) : Nat :=
  if o.m_hash = 0 then hash (w.bytes o) else o.m_hash

/-- What is done with the strings, by their numbers. -/
inductive Call where
  | hash (i : Nat)
  | toupper (i : Nat)
  | tolower (i : Nat)
  | split (i : Nat) (delim : Bytes)
  | copy (i : Nat)
  | move (i : Nat)
  | assign (i j : Nat)
  | moveAssign (i j : Nat)

/-- A string is written at its number. -/
def World.put (w : World) (i : Nat) (o : Obj) : World := { w with strings := w.strings.set i o }

/-- Another string. -/
def World.add (w : World) (o : Obj) : World := { w with strings := w.strings ++ [o] }

/-- A call; there is no next state when there is no such string, or memory is used that is not
there. -/
def next (hash : Bytes → Nat) (w : World) : Call → Option World
  | .hash i => do
      let o ← w.strings[i]?
      some (w.put i { o with m_hash := hasher hash w o })
  | .toupper i => do
      let o ← w.strings[i]?
      w.convert o toUpper
  | .tolower i => do
      let o ← w.strings[i]?
      w.convert o toLower
  | .split i delim => do
      let o ← w.strings[i]?
      w.split o delim
  | .copy i => do
      let o ← w.strings[i]?
      let (w', o') ← w.copied o
      some (w'.add o')
  | .move i => do
      let o ← w.strings[i]?
      some ((w.put i .null).add o)
  | .assign i j => do
      let o ← w.strings[j]?
      if i = j then some w
      else do
        let (w', o') ← w.copied o
        some (w'.put i o')
  | .moveAssign i j => do
      let o ← w.strings[j]?
      if i = j then some w else some ((w.put i o).put j .null)

/-! ## Hashes that are those of the bytes -/

/-- The bytes are in the memory. -/
def World.Inside (w : World) (o : Obj) : Prop :=
  match o.ptr with
  | none => o.m_len = 0
  | some p => p < w.blocks.length ∧ o.start + o.m_len ≤ (w.block p).length

/-- A string has its bytes, and `hash()` gives their hash. -/
def Right (hash : Bytes → Nat) (w : World) (o : Obj) : Prop :=
  w.Inside o ∧ hasher hash w o = hash (w.bytes o)

/-- This holds of every string. -/
def Fresh (hash : Bytes → Nat) (w : World) : Prop := ∀ o ∈ w.strings, Right hash w o

/-- Strings as they are constructed. -/
structure Start where
  world : World
  inside : ∀ o ∈ world.strings, world.Inside o
  unhashed : ∀ o ∈ world.strings, o.m_hash = 0

/-- No byte that is written belongs to a string with a cached hash, unless it stays as it is. -/
def World.Quiet (w : World) (p lo hi : Nat) (f : UInt8 → UInt8) : Prop :=
  ∀ o ∈ w.strings, o.m_hash ≠ 0 → o.ptr = some p → ∀ k b, lo ≤ k → k < hi → o.start ≤ k →
    k < o.start + o.m_len → (w.block p)[k]? = some b → f b = b

/-- Nothing of a string that is copied is behind a NUL. -/
def World.Copyable (w : World) (o : Obj) : Prop := o.m_own = true → NUL ∉ (w.bytes o).dropLast

/-- The condition on a call. -/
def Spared (w : World) : Call → Prop
  | .hash _ | .move _ | .moveAssign _ _ => True
  | .toupper i => ∀ o p, w.strings[i]? = some o → o.ptr = some p →
      w.Quiet p o.start (o.start + o.m_len) toUpper
  | .tolower i => ∀ o p, w.strings[i]? = some o → o.ptr = some p →
      w.Quiet p o.start (o.start + o.m_len) toLower
  | .split i delim => ∀ o p, w.strings[i]? = some o → o.ptr = some p →
      w.Quiet p o.start (o.start + (cstr ((w.block p).drop o.start)).length)
        fun b => if b ∈ delim then NUL else b
  | .copy i => ∀ o, w.strings[i]? = some o → w.Copyable o
  | .assign i j => i ≠ j → ∀ o, w.strings[j]? = some o → w.Copyable o

/-! ## Writing to a block -/

variable {hash : Bytes → Nat} {w w' : World} {o : Obj} {p lo hi : Nat} {f : UInt8 → UInt8}

/-- Another state in which the string has the same bytes. -/
private theorem Right.congr (h : Right hash w o) (hinside : w'.Inside o)
    (hbytes : o.m_hash ≠ 0 → w'.bytes o = w.bytes o) : Right hash w' o := by
  refine ⟨hinside, ?_⟩
  have hfresh := h.2
  unfold hasher at *
  by_cases hzero : o.m_hash = 0
  · rw [if_pos hzero]
  · rw [if_neg hzero] at hfresh ⊢
    rw [hbytes hzero]
    exact hfresh

/-- The same bytes under the same hash. -/
private theorem right_of_hash {o' : Obj} (hinside : w'.Inside o')
    (hhash : o'.m_hash = 0 ∨ o'.m_hash = hash (w'.bytes o')) : Right hash w' o' := by
  refine ⟨hinside, ?_⟩
  unfold hasher
  by_cases hzero : o'.m_hash = 0
  · rw [if_pos hzero]
  · rw [if_neg hzero]
    exact (or_iff_right hzero).mp hhash

private theorem Right.hash_cases (h : Right hash w o) :
    o.m_hash = 0 ∨ o.m_hash = hash (w.bytes o) := by
  have hfresh := h.2
  unfold hasher at hfresh
  by_cases hzero : o.m_hash = 0
  · exact .inl hzero
  · rw [if_neg hzero] at hfresh
    exact .inr hfresh

private theorem right_null (w : World) : Right hash w .null := right_of_hash rfl (.inl rfl)

private theorem block_edit (w : World) (p lo hi : Nat) (f : UInt8 → UInt8) (q : Nat) :
    (w.edit p lo hi f).block q = if q = p then
      (w.block p).mapIdx fun k b => if lo ≤ k ∧ k < hi then f b else b else w.block q := by
  unfold World.edit World.block
  dsimp only
  simp only [List.getD_eq_getElem?_getD]
  by_cases hq : q = p
  · rw [if_pos hq, hq]
    by_cases hp : p < w.blocks.length
    · rw [List.getElem?_set_self hp, Option.getD_some]
    · rw [List.getElem?_eq_none (by rw [List.length_set]; omega),
        List.getElem?_eq_none (Nat.not_lt.mp hp), Option.getD_none, List.mapIdx_nil]
  · rw [if_neg hq, List.getElem?_set_ne (Ne.symm hq)]

private theorem inside_edit (h : w.Inside o) : (w.edit p lo hi f).Inside o := by
  unfold World.Inside at *
  cases hptr : o.ptr with
  | none =>
      rw [hptr] at h
      exact h
  | some q =>
      rw [hptr] at h
      dsimp only at h ⊢
      rw [block_edit]
      refine ⟨?_, ?_⟩
      · rw [World.edit, List.length_set]
        exact h.1
      · split
        · next hq => rw [List.length_mapIdx, ← hq]; exact h.2
        · exact h.2

/-- The window of a string is compared byte by byte. -/
private theorem bytes_edit (hquiet : ∀ k b, lo ≤ k → k < hi → o.start ≤ k →
    k < o.start + o.m_len → (w.block p)[k]? = some b → f b = b) :
    (w.edit p lo hi f).bytes o = w.bytes o := by
  unfold World.bytes
  cases hptr : o.ptr with
  | none => rfl
  | some q =>
      dsimp only
      rw [block_edit]
      by_cases hq : q = p
      · rw [if_pos hq, hq]
        apply List.ext_getElem?
        intro k
        by_cases hk : k < o.m_len
        · rw [List.getElem?_take_of_lt hk, List.getElem?_take_of_lt hk, List.getElem?_drop,
            List.getElem?_drop, List.getElem?_mapIdx]
          cases hb : (w.block p)[o.start + k]? with
          | none => rfl
          | some b =>
              rw [Option.map_some, Option.some_inj]
              split
              · next hin => exact hquiet _ b hin.1 hin.2 (by omega) (by omega) hb
              · rfl
        · rw [List.getElem?_take_eq_none (Nat.not_lt.mp hk),
            List.getElem?_take_eq_none (Nat.not_lt.mp hk)]
      · rw [if_neg hq]

private theorem fresh_edit (h : Fresh hash w) (hquiet : w.Quiet p lo hi f) :
    Fresh hash (w.edit p lo hi f) := by
  intro o ho
  refine (h o ho).congr (inside_edit (h o ho).1) ?_
  intro hhash
  by_cases hptr : o.ptr = some p
  · exact bytes_edit (hquiet o ho hhash hptr)
  · unfold World.bytes
    cases hq : o.ptr with
    | none => rfl
    | some q =>
        dsimp only
        rw [block_edit, if_neg]
        rintro rfl
        exact hptr hq

/-! ## Copies -/

private theorem block_append (w : World) (m : Bytes) {q : Nat} (hq : q < w.blocks.length) :
    (⟨w.blocks ++ [m], w.strings⟩ : World).block q = w.block q := by
  unfold World.block
  rw [List.getD_eq_getElem?_getD, List.getD_eq_getElem?_getD, List.getElem?_append_left hq]

private theorem block_last (w : World) (m : Bytes) :
    (⟨w.blocks ++ [m], w.strings⟩ : World).block w.blocks.length = m := by
  unfold World.block
  rw [List.getD_eq_getElem?_getD, List.getElem?_append_right (Nat.le_refl _), Nat.sub_self]
  rfl

/-- Nothing changes for the strings that are there when there is another block. -/
private theorem Right.append (h : Right hash w o) (m : Bytes) :
    Right hash ⟨w.blocks ++ [m], w.strings⟩ o := by
  have hinside := h.1
  refine h.congr ?_ fun _ => ?_
  · unfold World.Inside at *
    cases hptr : o.ptr with
    | none =>
        rw [hptr] at hinside
        exact hinside
    | some q =>
        rw [hptr] at hinside
        dsimp only at hinside ⊢
        rw [block_append w m hinside.1, List.length_append]
        exact ⟨Nat.lt_add_right _ hinside.1, hinside.2⟩
  · unfold World.Inside at hinside
    unfold World.bytes
    cases hptr : o.ptr with
    | none => rfl
    | some q =>
        rw [hptr] at hinside
        dsimp only
        rw [block_append w m hinside.1]

private theorem length_bytes (h : w.Inside o) : (w.bytes o).length = o.m_len := by
  unfold World.Inside at h
  unfold World.bytes
  cases hptr : o.ptr with
  | none =>
      rw [hptr] at h
      exact h.symm
  | some q =>
      rw [hptr] at h
      dsimp only at h ⊢
      rw [List.length_take, List.length_drop]
      omega

private theorem copied_right {o' : Obj} (ho : Right hash w o) (hcopy : w.Copyable o)
    (h : w.copied o = some (w', o')) :
    w'.strings = w.strings ∧ (∀ x, Right hash w x → Right hash w' x) ∧ Right hash w' o' := by
  unfold World.copied at h
  by_cases hown : o.m_own = true
  · rw [if_pos hown] at h
    cases hptr : o.ptr with
    | none =>
        rw [hptr] at h
        nomatch h
    | some q =>
        rw [hptr] at h
        cases h
        refine ⟨rfl, fun x hx => hx.append _, ?_⟩
        -- all that the copy has is in front of its NUL, or is the NUL
        obtain ⟨hlen, htake⟩ := (copied_iff (w.bytes o)).mpr (hcopy hown)
        rw [length_bytes ho.1] at hlen htake
        have hblock := block_last w (cstr (w.bytes o) ++ [NUL])
        apply right_of_hash
        · show w.blocks.length < (w.blocks ++ [_]).length ∧ 0 + o.m_len ≤ _
          rw [hblock, List.length_append, List.length_singleton, Nat.zero_add]
          exact ⟨Nat.lt_succ_self _, hlen⟩
        · have hbytes : (⟨w.blocks ++ [cstr (w.bytes o) ++ [NUL]], w.strings⟩ : World).bytes
              { o with ptr := some w.blocks.length, start := 0 } = w.bytes o := by
            show ((World.block _ _).drop 0).take o.m_len = _
            rw [hblock, List.drop_zero, htake]
          rw [hbytes]
          exact ho.hash_cases
  · rw [if_neg hown] at h
    cases h
    exact ⟨rfl, fun x hx => hx, ho⟩

/-! ## Calls and runs -/

private theorem fresh_put (h : Fresh hash w) (ho : Right hash w o) (i : Nat) :
    Fresh hash (w.put i o) := by
  intro x hx
  rcases List.mem_or_eq_of_mem_set hx with hx | rfl
  · exact h x hx
  · exact ho

private theorem fresh_add (h : Fresh hash w) (ho : Right hash w o) : Fresh hash (w.add o) := by
  intro x hx
  rcases List.mem_append.mp hx with hx | hx
  · exact h x hx
  · rw [List.mem_singleton.mp hx]
    exact ho

private theorem fresh_convert (h : Fresh hash w)
    (hquiet : ∀ p, o.ptr = some p → w.Quiet p o.start (o.start + o.m_len) f)
    (hw : w.convert o f = some w') : Fresh hash w' := by
  unfold World.convert at hw
  cases hptr : o.ptr with
  | none =>
      rw [hptr] at hw
      cases hw
      exact h
  | some p =>
      rw [hptr] at hw
      dsimp only at hw
      split at hw
      · cases hw
        exact fresh_edit h (hquiet p hptr)
      · nomatch hw

private theorem fresh_split {delim : Bytes} (h : Fresh hash w)
    (hquiet : ∀ p, o.ptr = some p →
      w.Quiet p o.start (o.start + (cstr ((w.block p).drop o.start)).length)
        fun b => if b ∈ delim then NUL else b)
    (hw : w.split o delim = some w') : Fresh hash w' := by
  unfold World.split at hw
  cases hptr : o.ptr with
  | none =>
      rw [hptr] at hw
      cases hw
      exact h
  | some p =>
      rw [hptr] at hw
      dsimp only at hw
      split at hw
      · cases hw
        exact fresh_edit h (hquiet p hptr)
      · nomatch hw

/-- The string that a call is for. -/
private theorem bind_string {i : Nat} {k : Obj → Option World}
    (h : (w.strings[i]? >>= k) = some w') : ∃ o ∈ w.strings, w.strings[i]? = some o ∧ k o = some w' := by
  cases hi : w.strings[i]? with
  | none =>
      rw [hi] at h
      nomatch h
  | some o =>
      rw [hi] at h
      exact ⟨o, List.mem_of_getElem? hi, rfl, h⟩

private theorem bind_copied {k : World × Obj → Option World}
    (h : (w.copied o >>= k) = some w') : ∃ x, w.copied o = some x ∧ k x = some w' := by
  cases hx : w.copied o with
  | none =>
      rw [hx] at h
      nomatch h
  | some x =>
      rw [hx] at h
      exact ⟨x, rfl, h⟩

/-- A call that spares the cached hashes. -/
private theorem fresh_next {c : Call} (h : Fresh hash w) (hc : Spared w c)
    (hnext : next hash w c = some w') : Fresh hash w' := by
  -- a hash that is cached is right when it is made, and the call writes to none that it describes
  cases c with
  | hash i =>
      obtain ⟨o, ho, -, hput⟩ := bind_string hnext
      cases hput
      apply fresh_put h
      apply right_of_hash
      · exact (h o ho).1
      · exact .inr (h o ho).2
  | toupper i =>
      obtain ⟨o, -, hi, hconvert⟩ := bind_string hnext
      exact fresh_convert h (fun p hp => hc o p hi hp) hconvert
  | tolower i =>
      obtain ⟨o, -, hi, hconvert⟩ := bind_string hnext
      exact fresh_convert h (fun p hp => hc o p hi hp) hconvert
  | split i delim =>
      obtain ⟨o, -, hi, hsplit⟩ := bind_string hnext
      exact fresh_split h (fun p hp => hc o p hi hp) hsplit
  | copy i =>
      obtain ⟨o, ho, hi, hcopy⟩ := bind_string hnext
      obtain ⟨⟨w₁, o₁⟩, hcopied, hadd⟩ := bind_copied hcopy
      obtain ⟨hstrings, hold, hnew⟩ := copied_right (h o ho) (hc o hi) hcopied
      cases hadd
      apply fresh_add
      · intro x hx
        exact hold x (h x (hstrings ▸ hx))
      · exact hnew
  | move i =>
      obtain ⟨o, ho, -, hmove⟩ := bind_string hnext
      cases hmove
      exact fresh_add (fresh_put h (right_null w) i) (h o ho)
  | assign i j =>
      obtain ⟨o, ho, hj, hassign⟩ := bind_string hnext
      split at hassign
      · cases hassign
        exact h
      · next hij =>
          obtain ⟨⟨w₁, o₁⟩, hcopied, hput⟩ := bind_copied hassign
          obtain ⟨hstrings, hold, hnew⟩ := copied_right (h o ho) (hc hij o hj) hcopied
          cases hput
          apply fresh_put
          · intro x hx
            exact hold x (h x (hstrings ▸ hx))
          · exact hnew
  | moveAssign i j =>
      obtain ⟨o, ho, -, hassign⟩ := bind_string hnext
      split at hassign
      · cases hassign
        exact h
      · cases hassign
        exact fresh_put (fresh_put h (h o ho) i) (right_null _) j

/-- **When every call of a run spares the cached hashes, each string has the hash of its bytes in
every state.** -/
theorem fresh_of_spared (hash : Bytes → Nat) (s : Start) (calls : List Call)
    (h : ∀ p ∈ StepMachine.inputs (next hash) s.world calls, Spared p.1 p.2) :
    ∀ w ∈ StepMachine.visited (next hash) s.world calls, Fresh hash w := by
  refine StepMachine.forall_visited (I := Fresh hash) (M := Spared) ?_ ?_ h
  · intro w c w' hw hc hnext
    exact fresh_next hw hc hnext
  · intro o ho
    refine ⟨s.inside o ho, ?_⟩
    unfold hasher
    rw [if_pos (s.unhashed o ho)]

/-- A string of two letters that does not own them. -/
def twoLetters : Start where
  world := ⟨[str "ab" ++ [NUL]], [⟨some 0, 0, 2, false, 0⟩]⟩
  inside := by
    intro o ho
    rw [List.mem_singleton.mp ho]
    exact ⟨by decide, by decide⟩
  unhashed := by
    intro o ho
    rw [List.mem_singleton.mp ho]

/-- The hash is asked for after the letters have been changed. -/
theorem fresh_twoLetters : Fresh List.length ⟨[str "AB" ++ [NUL]], [⟨some 0, 0, 2, false, 2⟩]⟩ := by
  apply fresh_of_spared List.length twoLetters [.toupper 0, .hash 0]
  · intro p hp
    rcases List.mem_cons.mp hp with rfl | hp
    · intro o p _ _ x hx hhash
      rw [List.mem_singleton.mp hx] at hhash
      exact absurd rfl hhash
    · rw [List.mem_singleton.mp hp]
      trivial
  · exact List.mem_cons_of_mem _ (List.mem_cons_of_mem _ List.mem_cons_self)

/-- The hash is asked for before that, and kept. -/
theorem not_fresh_twoLetters :
    ¬ ∀ (hash : Bytes → Nat) (s : Start) (calls : List Call),
      ∀ w ∈ StepMachine.visited (next hash) s.world calls, Fresh hash w := by
  intro h
  have hlast := h (fun b => (b.headD NUL).toNat) twoLetters [.hash 0, .toupper 0]
    ⟨[str "AB" ++ [NUL]], [⟨some 0, 0, 2, false, 97⟩]⟩
    (List.mem_cons_of_mem _ (List.mem_cons_of_mem _ List.mem_cons_self))
  have hright := hlast _ List.mem_cons_self
  exact absurd hright.2 (by decide)

end Suil.StrHash
