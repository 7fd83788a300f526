import Suil.Basic.Exception
import Suil.Basic.StrNumber
import Suil.Lib.Traced

set_option autoImplicit false

/-! # The entries of a response

`redis::Response` (`redis.h`) keeps the staged replies in a vector. `get` and `peek` compare an `int`
with its size and then go to an element without another look; the conversions to vectors have loops of
their own. `entries_iff` says when each of them gives the entries. -/

namespace Suil.Redis

/-- The staged replies of a `Response`, as far as they are read: `data`. A vector is not larger than a
`size_t` without its first bit. -/
structure Entries where
  data : List Str
  small : data.length < 2 ^ 63

/-- How an access does not give a value: an exception, a conversion that has failed, or an element that
is not in the vector. -/
inductive EntryFault (ε : Type) where
  | thrown (e : Exception)
  | cast (e : ε)
  | outside

namespace Entries

/-- A conversion of an entry. -/
def ofCast {α ε : Type} : Except ε α → Except (EntryFault ε) α
  | .ok a => .ok a
  | .error e => .error (.cast e)

/-- The exception for an index. -/
def outOfRange (index : CInt) (size : Nat) : Exception :=
  .create 0 [str "index '", showInt index.val, str "' out of range '", showNat size, str "'"]

/-- `entries[idx]`. -/
def at? {ε : Type} (r : Entries) (idx : CInt) : Except (EntryFault ε) Str :=
  match r.data[idx.toSize.toNat]? with
  | some s => .ok s
  | none => .error .outside

/-- The check of `get` and of `peek`. -/
def checkIndex {ε : Type} (r : Entries) (index : CInt) : Except (EntryFault ε) Unit :=
  if (r.data.length : Int) < index.toSize then .error (.thrown (outOfRange index r.data.length))
  else .ok ()

section
variable {α ε : Type} (castreply : Str → Except ε α)

/-- `get<T>(index)`, where `castreply` converts to `T`. -/
def get (r : Entries) (index : CInt) : Except (EntryFault ε) α := do
  r.checkIndex index
  let tmp ← r.at? index
  ofCast (castreply tmp)

/-- `operator std::vector<T>`: `for (int i = 0; i < 0; i++)`. -/
def toVector (r : Entries) : Except (EntryFault ε) (List α) :=
  (List.range 0).mapM fun i => r.get castreply ⟨i % 2 ^ 31, by omega⟩

end

/-- `peek(index)`. -/
def peek (r : Entries) (index : CInt) : Except (EntryFault Empty) Str := do
  r.checkIndex index
  r.at? (.ofNat 0 CInt.zero_lt)

/-- `operator|`: what `f` is called with. -/
def iterate (f : Str → Bool) : List Str → List Str
  | [] => []
  | rp :: rps => rp :: if f rp then iterate f rps else []

/-- `castreply` for an integral type other than `bool`. -/
def castNumber (T : Str.Integral) (tmp : Str) : Except Str.NumberError Int := Str.toNumber T tmp

/-- `castreply` for a `String`. -/
def castString (tmp : Str) : Except Empty Str := .ok tmp.dup

/-! ## Entries of a reply -/

/-- The index is in the vector. -/
def Inside (r : Entries) (i : CInt) : Prop := 0 ≤ i.val ∧ i.val < r.data.length

/-- `get` converts the entry, or throws when there is none. -/
def Gets {α ε : Type} (castreply : Str → Except ε α) (r : Entries) (i : CInt) : Prop :=
  (r.Inside i → ∃ s, r.data[i.val.toNat]? = some s ∧ r.get castreply i = ofCast (castreply s)) ∧
    (¬ r.Inside i → ∃ e, r.get castreply i = .error (.thrown e))

/-- `peek` gives the bytes of the entry, or throws when there is none. -/
def Peeks (r : Entries) (i : CInt) : Prop :=
  (r.Inside i → ∃ s t, r.data[i.val.toNat]? = some s ∧ r.peek i = .ok t ∧ t.bytes = s.bytes) ∧
    (¬ r.Inside i → ∃ e, r.peek i = .error (.thrown e))

/-- The vector has what `get` gives for every index. -/
def Converts {α ε : Type} (castreply : Str → Except ε α) (r : Entries) : Prop :=
  r.toVector castreply = r.data.mapM fun s => ofCast (castreply s)

/-- Going over the entries to the end gives each of them once, in their order. -/
def Iterates (r : Entries) : Prop := ∀ f, (∀ s ∈ r.data, f s = true) → iterate f r.data = r.data

/-- What the accesses of a response give. -/
structure Serves {α ε : Type} (castreply : Str → Except ε α) (r : Entries) (i : CInt) : Prop where
  gets : r.Gets castreply i
  peeks : r.Peeks i
  converts : r.Converts castreply
  iterates : r.Iterates

/-! ## Indices that `peek` serves -/

/-- `peek` reads the first entry: that is as good as the entry of the index. -/
def AsFirst (r : Entries) (i : CInt) : Prop :=
  ∃ s t, r.data[i.val.toNat]? = some s ∧ r.data[0]? = some t ∧ t.bytes = s.bytes

/-- What is needed of the response and of the index. -/
def Served (r : Entries) (i : CInt) : Prop :=
  i.val ≠ r.data.length ∧ (r.Inside i → r.AsFirst i)

/-! ## The check of the index -/

variable {α ε : Type} {castreply : Str → Except ε α} {r : Entries} {i : CInt}

/-- A negative index is a large one. -/
theorem checkIndex_of_neg (h : i.val < 0) :
    r.checkIndex (ε := ε) i = .error (.thrown (outOfRange i r.data.length)) := by
  have hlarge := CInt.toSize_of_neg h
  have hsmall := r.small
  exact if_pos (by omega)

theorem checkIndex_of_lt (h : (r.data.length : Int) < i.val) :
    r.checkIndex (ε := ε) i = .error (.thrown (outOfRange i r.data.length)) := by
  have hsize := CInt.toSize_of_nonneg (n := i) (by omega)
  exact if_pos (by omega)

/-- The number of the entries is let through. -/
theorem checkIndex_of_le (hi : 0 ≤ i.val) (h : i.val ≤ r.data.length) :
    r.checkIndex (ε := ε) i = .ok () := by
  have hsize := CInt.toSize_of_nonneg hi
  exact if_neg (by omega)

/-- Outside the vector and its end there is an exception. -/
theorem checkIndex_of_not_inside (h : ¬ r.Inside i) (hne : i.val ≠ r.data.length) :
    r.checkIndex (ε := ε) i = .error (.thrown (outOfRange i r.data.length)) := by
  by_cases hneg : i.val < 0
  · exact checkIndex_of_neg hneg
  · refine checkIndex_of_lt ?_
    rw [Inside] at h
    omega

theorem at?_of_nonneg {s : Str} (hi : 0 ≤ i.val) (h : r.data[i.val.toNat]? = some s) :
    r.at? (ε := ε) i = .ok s := by
  rw [at?, CInt.toSize_of_nonneg hi, h]

/-- The entry behind the last one is not there. -/
theorem at?_of_eq (h : i.val = r.data.length) : r.at? (ε := ε) i = .error .outside := by
  have hnone : r.data[i.val.toNat]? = none := List.getElem?_eq_none (by omega)
  rw [at?, CInt.toSize_of_nonneg (by omega), hnone]

theorem exists_entry (h : r.Inside i) : ∃ s, r.data[i.val.toNat]? = some s := by
  have hlt : i.val.toNat < r.data.length := by
    have := h.1
    have := h.2
    omega
  exact ⟨_, List.getElem?_eq_getElem hlt⟩

/-! ## The two accesses -/

/-- **`get` does what it should for every index except the number of the entries.** -/
theorem gets_iff (castreply : Str → Except ε α) (r : Entries) (i : CInt) :
    r.Gets castreply i ↔ i.val ≠ r.data.length := by
  constructor
  · rintro ⟨-, hout⟩ heq
    obtain ⟨e, he⟩ := hout fun h => absurd h.2 (by omega)
    have hget : r.get castreply i = .error .outside := by
      rw [get, checkIndex_of_le (by omega) (by omega), at?_of_eq heq]
      rfl
    rw [hget] at he
    nomatch he
  · intro hne
    refine ⟨fun hin => ?_, fun hout => ?_⟩
    · obtain ⟨s, hs⟩ := exists_entry hin
      refine ⟨s, hs, ?_⟩
      rw [get, checkIndex_of_le hin.1 (Int.le_of_lt hin.2), at?_of_nonneg hin.1 hs]
      rfl
    · refine ⟨outOfRange i r.data.length, ?_⟩
      rw [get, checkIndex_of_not_inside hout hne]
      rfl

/-- `peek` behind its check. -/
theorem peek_of_le (hi : 0 ≤ i.val) (h : i.val ≤ r.data.length) :
    r.peek i = r.at? (.ofNat 0) := by
  rw [peek, checkIndex_of_le hi h]
  rfl

/-- **`peek` does what it should when there is an exception to be thrown, or when the entry is as good as
the first.** -/
theorem peeks_iff (r : Entries) (i : CInt) : r.Peeks i ↔ r.Served i := by
  have hfirst : ∀ t, r.data[0]? = some t → r.at? (ε := Empty) (.ofNat 0) = .ok t :=
    fun t ht => at?_of_nonneg (i := .ofNat 0) (by decide) ht
  constructor
  · rintro ⟨hin, hout⟩
    refine ⟨fun heq => ?_, fun hinside => ?_⟩
    · -- behind the last entry: the first one, or none
      obtain ⟨e, he⟩ := hout fun h => absurd h.2 (by omega)
      rw [peek_of_le (by omega) (by omega)] at he
      cases hd : r.data[0]? with
      | none =>
          have hnil : r.data.length = 0 := by simpa using hd
          rw [at?_of_eq (i := .ofNat 0) (by rw [hnil]; rfl)] at he
          nomatch he
      | some t =>
          rw [hfirst t hd] at he
          nomatch he
    · obtain ⟨s, t, hs, ht, hbytes⟩ := hin hinside
      rw [peek_of_le hinside.1 (Int.le_of_lt hinside.2)] at ht
      cases hd : r.data[0]? with
      | none =>
          have hnil : r.data = [] := by simpa using hd
          have hlt := hinside.2
          have hge := hinside.1
          rw [hnil, List.length_nil] at hlt
          omega
      | some u =>
          rw [hfirst u hd] at ht
          cases ht
          exact ⟨s, t, hs, hd, hbytes⟩
  · rintro ⟨hne, hsame⟩
    refine ⟨fun hinside => ?_, fun hout => ?_⟩
    · obtain ⟨s, t, hs, ht, hbytes⟩ := hsame hinside
      refine ⟨s, t, hs, ?_, hbytes⟩
      rw [peek_of_le hinside.1 (Int.le_of_lt hinside.2), hfirst t ht]
    · refine ⟨outOfRange i r.data.length, ?_⟩
      rw [peek, checkIndex_of_not_inside hout hne]
      rfl

/-! ## All of the entries -/

/-- **The vector is always empty.** -/
theorem toVector_eq (castreply : Str → Except ε α) (r : Entries) :
    r.toVector castreply = .ok [] := rfl

theorem converts_iff (castreply : Str → Except ε α) (r : Entries) :
    r.Converts castreply ↔ r.data = [] := by
  rw [Converts, toVector_eq]
  cases hd : r.data with
  | nil => exact iff_of_true rfl rfl
  | cons s rest =>
      refine iff_of_false (fun h => ?_) nofun
      -- one conversion at least gives one element at least
      rw [List.mapM_cons] at h
      obtain ⟨a, -, h⟩ := Except.ok_of_bind h.symm
      obtain ⟨as, -, h⟩ := Except.ok_of_bind h
      nomatch h

/-- **Going over the entries gives each of them once, until the function says that it is enough.** -/
theorem iterate_eq (f : Str → Bool) (rps : List Str) :
    iterate f rps = rps.takeWhile f ++ (rps.dropWhile f).take 1 := by
  induction rps with
  | nil => rfl
  | cons rp rps ih =>
      rw [iterate]
      by_cases h : f rp = true
      · rw [if_pos h, ih, List.takeWhile_cons_of_pos h, List.dropWhile_cons_of_pos h]
        rfl
      · rw [if_neg h, List.takeWhile_cons_of_neg h, List.dropWhile_cons_of_neg h]
        rfl

theorem iterates (r : Entries) : r.Iterates := by
  intro f hf
  have hall : r.data.takeWhile f = r.data := List.takeWhile_eq_self_iff.mpr hf
  have hnone : r.data.dropWhile f = [] := List.dropWhile_eq_nil_iff.mpr hf
  calc iterate f r.data = r.data.takeWhile f ++ (r.data.dropWhile f).take 1 := iterate_eq f r.data
    _ = r.data := by rw [hall, hnone, List.take_nil, List.append_nil]

private theorem serves_iff (castreply : Str → Except ε α) (r : Entries) (i : CInt) :
    Serves castreply r i ↔ r.data = [] ∧ i.val ≠ 0 := by
  constructor
  · intro h
    have hnil := (converts_iff castreply r).mp h.converts
    have hne := (gets_iff castreply r i).mp h.gets
    rw [hnil] at hne
    exact ⟨hnil, hne⟩
  · rintro ⟨hnil, hi⟩
    have hne : i.val ≠ r.data.length := by
      rw [hnil]
      exact hi
    refine ⟨(gets_iff castreply r i).mpr hne, (peeks_iff r i).mpr ⟨hne, fun h => ?_⟩,
      (converts_iff castreply r).mpr hnil, iterates r⟩
    have hge := h.1
    have hlt := h.2
    rw [hnil, List.length_nil] at hlt
    omega

/-- **A response serves all accesses exactly when it has no entry and the index is not zero.** `get`
is right for every index but the number of the entries; `peek` is right when, in addition, an entry that
is there is as good as the first one; the vector is right when there is no entry; and going over the
entries is always right. -/
theorem entries_iff (castreply : Str → Except ε α) (r : Entries) (i : CInt) :
    (Serves castreply r i ↔ r.data = [] ∧ i.val ≠ 0) ∧
      (r.Gets castreply i ↔ i.val ≠ r.data.length) ∧ (r.Peeks i ↔ r.Served i) ∧
        (r.Converts castreply ↔ r.data = []) ∧ r.Iterates :=
  ⟨serves_iff castreply r i, gets_iff castreply r i, peeks_iff r i, converts_iff castreply r,
    iterates r⟩

/-- The second of two numbers. -/
example : (get (castNumber (.signed 31))
    ⟨[⟨some (str "7"), 1⟩, ⟨some (str "42"), 2⟩], by decide⟩ (.ofNat 1)).toOption = some 42 := by decide

/-- One entry, and the index behind it. -/
theorem not_serves_one : ¬ ∀ (r : Entries) (i : CInt), Serves castString r i := by
  intro h
  have hs := h ⟨[⟨some (str "a"), 1⟩], by decide⟩ (.ofNat 1)
  obtain ⟨e, he⟩ := hs.gets.2 (by simp [Inside, CInt.ofNat])
  nomatch he

end Entries

end Suil.Redis
