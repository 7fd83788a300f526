import Suil.Wire.Codec

set_option autoImplicit false

/-! # Writing without room

`Writes` (`Breadboard`) says what is written where there is room. `write_eq_ok_iff` says that there
is no other way for `operator<<` to return: without room for all of a value it throws, and what it
throws names the part of the value that there was no room for. -/

namespace Suil.Wire

open Breadboard

/-- `wr` returns with the bytes `e` appended or throws for lack of room; `n` bounds what it asks for
at once. -/
structure Appends (wr : Breadboard → Except WireFault Breadboard) (e : Bool → Bytes) (n : Nat) :
    Prop where
  ok : ∀ b b', wr b = .ok b' → b.Wrote b' (e b.always)
  error : ∀ b x, wr b = .error x →
    ∃ requested available, x = .outOfMemory requested available ∧ requested < n ∧ available ≤ b.M

theorem forward_appends {e : Bytes} {n : Nat} (h : e.length < n) :
    Appends (fun b => b.forward e) (fun _ => e) n where
  ok b b' hok := by
    rw [forward] at hok
    split at hok
    · cases hok
    · cases hok
      exact ⟨rfl, rfl, rfl, rfl⟩
  error b x herr := by
    rw [forward] at herr
    split at herr
    · cases herr
      exact ⟨e.length, b.M - b.sink.length, rfl, h, Nat.sub_le _ _⟩
    · cases herr

theorem nothing_appends (n : Nat) : Appends .ok (fun _ => []) n where
  ok b b' hok := by
    cases hok
    exact .refl b
  error b x herr := by cases herr

theorem Appends.bind {wr wr' : Breadboard → Except WireFault Breadboard} {e e' : Bool → Bytes}
    {n : Nat} (h : Appends wr e n) (h' : Appends wr' e' n) :
    Appends (fun b => do let b ← wr b; wr' b) (fun a => e a ++ e' a) n where
  ok b b' hok := by
    change (wr b).bind wr' = .ok b' at hok
    cases hwr : wr b with
    | error x =>
        rw [hwr] at hok
        cases hok
    | ok b₁ =>
        rw [hwr] at hok
        have hw := h.ok b b₁ hwr
        have hw' := h'.ok b₁ b' hok
        rw [hw.always] at hw'
        exact hw.trans hw'
  error b x herr := by
    change (wr b).bind wr' = .error x at herr
    cases hwr : wr b with
    | error y =>
        rw [hwr] at herr
        cases herr
        exact h.error b _ hwr
    | ok b₁ =>
        rw [hwr] at herr
        obtain ⟨r, a, hx, hr, ha⟩ := h'.error b₁ x herr
        exact ⟨r, a, hx, hr, (h.ok b b₁ hwr).size ▸ ha⟩

private theorem writeVarInt_appends {n : Nat} (hn : n < 2 ^ 64) :
    Appends (writeVarInt n) (fun _ => varIntBytes n) (2 ^ 64) := by
  have hlen : (LittleEndian.leBytes (varIntLength n) n).length < 2 ^ 64 := by
    rw [LittleEndian.length_leBytes]
    exact Nat.lt_of_le_of_lt (varIntLength_le hn) (by decide)
  have hone : [UInt8.ofNat (varIntLength n)].length < 2 ^ 64 := by
    rw [List.length_singleton]
    decide
  exact Appends.bind (forward_appends hone) (forward_appends hlen)

private theorem writeData_appends (d : Sized) :
    Appends (writeData d) (fun _ => dataBytes d.val) (2 ^ 64) := by
  have hlen : d.val.length < 2 ^ 64 := Nat.lt_trans d.property (by decide)
  exact Appends.bind (writeVarInt_appends hlen) (forward_appends hlen)

private theorem writeEntries_appends {α : Type} {n : Nat}
    {wr : α → Breadboard → Except WireFault Breadboard} {f : Bool → α → Bytes}
    (hwr : ∀ e, Appends (wr e) (fun always => f always e) n) (es : List α) :
    Appends (writeEntries wr es) (fun always => es.flatMap (f always)) n := by
  induction es with
  | nil => exact nothing_appends n
  | cons e es ih =>
      simp only [List.flatMap_cons]
      exact Appends.bind (hwr e) ih

private theorem writeMember_appends {unwire : Bool} {n : Nat}
    {wr : Breadboard → Except WireFault Breadboard} {e : Bool → Bytes} (h : Appends wr e n) :
    Appends (writeMember unwire wr) (fun always => if !unwire || always then e always else []) n where
  ok b b' hok := by
    rw [writeMember] at hok
    by_cases hw : (!unwire || b.always) = true
    · rw [if_pos hw] at hok ⊢
      exact h.ok b b' hok
    · rw [if_neg hw] at hok ⊢
      exact (nothing_appends n).ok b b' hok
  error b x herr := by
    rw [writeMember] at herr
    by_cases hw : (!unwire || b.always) = true
    · rw [if_pos hw] at herr
      exact h.error b x herr
    · rw [if_neg hw] at herr
      cases herr

/-- A value is written as its bytes, or there is no room for them. -/
theorem write_appends (t : Ty) (v : t.Val) :
    Appends (write t v) (fun always => bytes always t v) (2 ^ 64) := by
  induction t with
  | int w =>
      apply forward_appends
      rw [LittleEndian.length_leBytes]
      cases w <;> decide
  | varInt => exact writeVarInt_appends v.isLt
  | data => exact writeData_appends v
  | string => exact writeData_appends v
  | stdString => exact writeData_appends _
  | blob n =>
      apply Appends.bind (writeVarInt_appends n.isLt)
      exact forward_appends (lt_of_eq_of_lt v.property n.isLt)
  | vector t ih =>
      exact Appends.bind (writeVarInt_appends v.property)
        (writeEntries_appends (fun e => ih e) v.val)
  | unit => exact nothing_appends _
  | field unwire t rest iht ihrest =>
      exact Appends.bind (writeMember_appends (iht v.1)) (ihrest v.2)

/-- **A value is written exactly when there is room for its bytes.** -/
theorem exists_write_iff (t : Ty) (v : t.Val) (b : Breadboard) :
    (∃ b', write t v b = .ok b') ↔ b.sink.length + (bytes b.always t v).length ≤ b.M := by
  constructor
  · rintro ⟨b', hok⟩
    have hw := (write_appends t v).ok b b' hok
    have hle := b'.tail_le
    rwa [hw.sink, hw.size, List.length_append] at hle
  · intro hroom
    obtain ⟨b', hok, -⟩ := write_writes t v b hroom
    exact ⟨b', hok⟩

end Suil.Wire
