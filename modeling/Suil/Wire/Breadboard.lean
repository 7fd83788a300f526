import Suil.Basic.Bytes
import Suil.Lib.LittleEndian

set_option autoImplicit false

/-! # The breadboard

`Breadboard` (`wire.h`) is a byte buffer with a tail `T`, where `forward` appends, and a head
`H`, where `reverse` takes off. The bytes from the head to the tail are `rest`; everything that
is read is read off the front of `rest`. -/

namespace Suil.Wire

open LittleEndian

/-- How writing or reading fails. The first two are the exceptions of `Breadboard` with the
size asked for and the size there is; the next two the exception of `Blob::copy` and the
`std::length_error` of a vector; the last three have no defined outcome in the source: a length
byte that makes `>>` write past an eight byte variable, an `int` index that overflows, and a
`String` that is longer than the buffer it owns. -/
inductive WireFault where
  | outOfMemory (requested available : Nat)
  | outOfBytes (requested available : Nat)
  | blobTooSmall
  | lengthError
  | stackOverrun
  | intOverflow
  | stringOverrun
  deriving DecidableEq, Repr

/-- `Breadboard`: `sink` holds the bytes up to the tail `T = sink.length`, `M` is the size of the
buffer. -/
structure Breadboard where
  sink : Bytes
  H : Nat
  M : Nat
  always : Bool
  head_le : H ≤ sink.length
  tail_le : sink.length ≤ M

namespace Breadboard

/-- A breadboard over a buffer of `M` bytes. -/
def new (M : Nat) : Breadboard :=
  { sink := [], H := 0, M := M, always := false, head_le := Nat.le_refl _,
    tail_le := Nat.zero_le _ }

/-- The bytes between the head and the tail. -/
def rest (b : Breadboard) : Bytes := b.sink.drop b.H

def forward (b : Breadboard) (e : Bytes) : Except WireFault Breadboard :=
  if h : b.M - b.sink.length < e.length then
    .error (.outOfMemory e.length (b.M - b.sink.length))
  else
    .ok { b with
      sink := b.sink ++ e
      head_le := by have := b.head_le; rw [List.length_append]; omega
      tail_le := by have := b.tail_le; rw [List.length_append]; omega }

def reverse (b : Breadboard) (es : Nat) : Except WireFault (Bytes × Breadboard) :=
  if h : es ≤ b.sink.length - b.H then
    .ok (b.rest.take es, { b with
      H := b.H + es
      head_le := by have := b.head_le; omega })
  else .error (.outOfBytes es (b.sink.length - b.H))

/-- `b'` is `b` after `e` was written. -/
structure Wrote (b b' : Breadboard) (e : Bytes) : Prop where
  sink : b'.sink = b.sink ++ e
  head : b'.H = b.H
  size : b'.M = b.M
  always : b'.always = b.always

/-- `b'` is `b` after everything in front of `r` was read. -/
structure ReadTo (b b' : Breadboard) (r : Bytes) : Prop where
  sink : b'.sink = b.sink
  size : b'.M = b.M
  always : b'.always = b.always
  rest : b'.rest = r

theorem Wrote.refl (b : Breadboard) : b.Wrote b [] := ⟨by simp, rfl, rfl, rfl⟩

theorem Wrote.trans {b b' b'' : Breadboard} {e e' : Bytes} (h : b.Wrote b' e)
    (h' : b'.Wrote b'' e') : b.Wrote b'' (e ++ e') :=
  ⟨by rw [h'.sink, h.sink, List.append_assoc], h'.head.trans h.head, h'.size.trans h.size,
    h'.always.trans h.always⟩

theorem Wrote.rest {b b' : Breadboard} {e : Bytes} (h : b.Wrote b' e) :
    b'.rest = b.rest ++ e := by
  rw [Breadboard.rest, Breadboard.rest, h.sink, h.head, List.drop_append_of_le_length b.head_le]

theorem ReadTo.refl (b : Breadboard) : b.ReadTo b b.rest := ⟨rfl, rfl, rfl, rfl⟩

theorem ReadTo.trans {b b' b'' : Breadboard} {r r' : Bytes} (h : b.ReadTo b' r)
    (h' : b'.ReadTo b'' r') : b.ReadTo b'' r' :=
  ⟨h'.sink.trans h.sink, h'.size.trans h.size, h'.always.trans h.always, h'.rest⟩

end Breadboard

open Breadboard

/-! ## Rules for writing and reading -/

/-- `wr` appends the bytes `e` wherever there is room for them. -/
def Writes (wr : Breadboard → Except WireFault Breadboard) (e : Bool → Bytes) : Prop :=
  ∀ b : Breadboard, b.sink.length + (e b.always).length ≤ b.M →
    ∃ b', wr b = .ok b' ∧ b.Wrote b' (e b.always)

/-- A read of `b` that gives `got` and leaves `r`, or fails. -/
inductive Outcome {α : Type} (b : Breadboard) (r : Bytes) :
    Except WireFault (α × Breadboard) → Option α → Prop where
  | value {v : α} {b' : Breadboard} : b.ReadTo b' r → Outcome b r (.ok (v, b')) (some v)
  | fault (x : WireFault) : Outcome b r (.error x) none

/-- `rd`, in front of the bytes `e`, takes exactly these and returns `got`, or fails. -/
def Reads {α : Type} (rd : Breadboard → Except WireFault (α × Breadboard)) (e : Bool → Bytes)
    (got : Bool → Option α) : Prop :=
  ∀ (b : Breadboard) (r : Bytes), b.rest = e b.always ++ r → Outcome b r (rd b) (got b.always)

theorem Outcome.exists_ok {α : Type} {b : Breadboard} {r : Bytes}
    {res : Except WireFault (α × Breadboard)} {v : α} (h : Outcome b r res (some v)) :
    ∃ b', res = .ok (v, b') ∧ b.ReadTo b' r := by
  cases h with
  | value hr => exact ⟨_, rfl, hr⟩

theorem Outcome.got_eq {α : Type} {b b' : Breadboard} {r : Bytes} {v : α} {got : Option α}
    (h : Outcome b r (.ok (v, b')) got) : got = some v ∧ b.ReadTo b' r := by
  cases h with
  | value hr => exact ⟨rfl, hr⟩

theorem Outcome.trans {α : Type} {b b' : Breadboard} {r r' : Bytes}
    {res : Except WireFault (α × Breadboard)} {got : Option α} (hr : b.ReadTo b' r)
    (h : Outcome b' r' res got) : Outcome b r' res got := by
  cases h with
  | value hr' => exact .value (hr.trans hr')
  | fault x => exact .fault x

theorem forward_writes (e : Bytes) : Writes (fun b => b.forward e) fun _ => e := by
  intro b (h : b.sink.length + e.length ≤ b.M)
  have := b.tail_le
  exact ⟨_, dif_neg (by omega), rfl, rfl, rfl, rfl⟩

theorem Writes.bind {wr wr' : Breadboard → Except WireFault Breadboard} {e e' : Bool → Bytes}
    (h : Writes wr e) (h' : Writes wr' e') :
    Writes (fun b => do let b ← wr b; wr' b) fun a => e a ++ e' a := by
  intro b hroom
  rw [List.length_append] at hroom
  obtain ⟨b₁, h₁, hw₁⟩ := h b (by omega)
  obtain ⟨b₂, h₂, hw₂⟩ := h' b₁ (by
    rw [hw₁.sink, hw₁.size, hw₁.always, List.length_append]
    omega)
  rw [hw₁.always] at hw₂
  refine ⟨b₂, ?_, hw₁.trans hw₂⟩
  simp only [Bind.bind, Except.bind, h₁, h₂]

theorem reverse_ok {b : Breadboard} {e r : Bytes} (h : b.rest = e ++ r) :
    ∃ b', b.reverse e.length = .ok (e, b') ∧ b.ReadTo b' r := by
  have hlen : e.length + r.length = b.sink.length - b.H := by
    rw [← List.length_append, ← h, Breadboard.rest, List.length_drop]
  have hle : e.length ≤ b.sink.length - b.H := by omega
  have hhead : b.H + e.length ≤ b.sink.length := by have := b.head_le; omega
  refine ⟨{ b with H := b.H + e.length, head_le := hhead }, ?_, rfl, rfl, rfl, ?_⟩
  · rw [reverse, dif_pos hle, h, List.take_left]
  · show b.sink.drop (b.H + e.length) = r
    rw [← List.drop_drop]
    show b.rest.drop e.length = r
    rw [h, List.drop_left]

/-- Reading takes the bytes off the front of `rest`. -/
theorem reverse_reads (e : Bytes) :
    Reads (fun b => b.reverse e.length) (fun _ => e) fun _ => some e := by
  intro b r h
  obtain ⟨b', hb', hr⟩ := reverse_ok h
  show Outcome b r (b.reverse e.length) (some e)
  rw [hb']
  exact .value hr

theorem Reads.pure {α : Type} (v : α) :
    Reads (fun b => .ok (v, b)) (fun _ => []) fun _ => some v :=
  fun _ _ h => .value ⟨rfl, rfl, rfl, h⟩

theorem Reads.fail {α : Type} (x : WireFault) (e : Bool → Bytes) :
    Reads (fun _ => .error x) e fun _ => (none : Option α) :=
  fun _ _ _ => .fault x

theorem Reads.bind {α β : Type} {rd : Breadboard → Except WireFault (α × Breadboard)}
    {k : α → Breadboard → Except WireFault (β × Breadboard)} {e e' : Bool → Bytes}
    {got : Bool → Option α} {got' : α → Bool → Option β} (h : Reads rd e got)
    (h' : ∀ a v, got a = some v → Reads (k v) e' (got' v)) :
    Reads (fun b => do let (v, b) ← rd b; k v b) (fun a => e a ++ e' a)
      fun a => (got a).bind fun v => got' v a := by
  intro b r hrest
  rw [List.append_assoc] at hrest
  have hrd := h b _ hrest
  show Outcome b r (rd b >>= fun x => k x.1 x.2) ((got b.always).bind fun v => got' v b.always)
  cases hres : rd b with
  | error x =>
      rw [hres] at hrd
      generalize got b.always = g at hrd
      cases hrd
      exact .fault x
  | ok res =>
      rw [hres] at hrd
      obtain ⟨hgot, hr⟩ := hrd.got_eq
      have hk := h' b.always res.1 hgot res.2 r (by rw [hr.always]; exact hr.rest)
      rw [hr.always] at hk
      rw [hgot]
      exact hk.trans hr

theorem Reads.map {α β : Type} {rd : Breadboard → Except WireFault (α × Breadboard)}
    {e : Bool → Bytes} {got : Bool → Option α} (h : Reads rd e got) (f : α → β) :
    Reads (fun b => do let (v, b) ← rd b; .ok (f v, b)) e fun a => (got a).map f := by
  have hgot : (fun a => (got a).map f) = fun a => (got a).bind fun v => some (f v) := by
    funext a
    cases got a with
    | none => rfl
    | some v => rfl
  have hbind := h.bind fun _ v _ => Reads.pure (f v)
  simp only [List.append_nil] at hbind
  rw [hgot]
  exact hbind

/-! ## Variable-length integers -/

/-- The loop of `VarInt::length`; a `uint64_t` is zero after at most eight shifts. -/
def lengthLoop : Nat → Nat → Nat
  | 0, _ => 0
  | fuel + 1, tmp => if tmp > 0 then 1 + lengthLoop fuel (tmp / 256) else 0

/-- `VarInt::length`: how many bytes the number takes. -/
def varIntLength (n : Nat) : Nat := lengthLoop 8 n

private theorem lengthLoop_spec (fuel n : Nat) (h : n < 256 ^ fuel) :
    lengthLoop fuel n ≤ fuel ∧ n < 256 ^ lengthLoop fuel n := by
  induction fuel generalizing n with
  | zero => simpa [lengthLoop] using h
  | succ fuel ih =>
      rw [lengthLoop]
      by_cases hn : n > 0
      · have hdiv : n / 256 < 256 ^ fuel := by
          rw [Nat.div_lt_iff_lt_mul (by decide), ← Nat.pow_succ]
          exact h
        obtain ⟨hle, hlt⟩ := ih (n / 256) hdiv
        rw [if_pos hn]
        refine ⟨by omega, ?_⟩
        rw [Nat.add_comm, Nat.pow_succ, ← Nat.div_lt_iff_lt_mul (by decide)]
        exact hlt
      · rw [if_neg hn]
        exact ⟨Nat.zero_le _, by rw [Nat.pow_zero]; omega⟩

theorem varIntLength_le {n : Nat} (h : n < 2 ^ 64) : varIntLength n ≤ 8 :=
  (lengthLoop_spec 8 n (by omega)).1

theorem lt_varIntLength {n : Nat} (h : n < 2 ^ 64) : n < 256 ^ varIntLength n :=
  (lengthLoop_spec 8 n (by omega)).2

/-- The bytes of a `VarInt`: how many there are, and the low bytes of the number. -/
def varIntBytes (n : Nat) : Bytes :=
  UInt8.ofNat (varIntLength n) :: leBytes (varIntLength n) n

/-- `operator<<(const VarInt&)`. -/
def writeVarInt (n : Nat) (b : Breadboard) : Except WireFault Breadboard := do
  let b ← b.forward [UInt8.ofNat (varIntLength n)]
  b.forward (leBytes (varIntLength n) n)

/-- `operator>>(VarInt&)`: the value read. -/
def readVarInt (b : Breadboard) : Except WireFault (Nat × Breadboard) := do
  let (sz, b) ← b.reverse 1
  let sz := leNat sz
  let (tmp, b) ← b.reverse sz
  -- the bytes went into the eight bytes of `tmp`
  if 8 < sz then .error .stackOverrun else .ok (leNat tmp, b)

theorem writeVarInt_writes (n : Nat) : Writes (writeVarInt n) fun _ => varIntBytes n :=
  Writes.bind (forward_writes [UInt8.ofNat (varIntLength n)])
    (forward_writes (leBytes (varIntLength n) n))

theorem readVarInt_reads {n : Nat} (hn : n < 2 ^ 64) :
    Reads readVarInt (fun _ => varIntBytes n) fun _ => some n := by
  have hle := varIntLength_le hn
  have hsz : leNat [UInt8.ofNat (varIntLength n)] = varIntLength n := by
    rw [leNat, leNat, UInt8.toNat_ofNat']
    omega
  have hval : leNat (leBytes (varIntLength n) n) = n := by
    rw [leNat_leBytes, Nat.mod_eq_of_lt (lt_varIntLength hn)]
  intro b r h
  obtain ⟨b₁, h₁, hr₁⟩ := reverse_ok (b := b) (e := [UInt8.ofNat (varIntLength n)])
    (r := leBytes (varIntLength n) n ++ r) h
  obtain ⟨b₂, h₂, hr₂⟩ := reverse_ok hr₁.rest
  rw [List.length_singleton] at h₁
  rw [length_leBytes] at h₂
  have hread : readVarInt b = .ok (n, b₂) := by
    simp only [readVarInt, bind, Except.bind, h₁, hsz, if_neg (Nat.not_lt.mpr hle), h₂, hval]
  rw [hread]
  exact .value (hr₁.trans hr₂)

end Suil.Wire
