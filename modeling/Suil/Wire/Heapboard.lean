import Mathlib
import Suil.Wire.Breadboard

set_option autoImplicit false

/-! # The cursors and the memory of a heapboard

`Heapboard` (`wire.h`, `wire.cpp`) is a `Breadboard` that may own its buffer. This module follows
its cursors `H`, `T` and `M` and the memory behind its pointer through every operation on a set of
boards. `run_sound_iff` is the result: the cursors stay in order and inside the memory in every state
of a run exactly when no step of it is one of those that leave `M` behind.

The bytes of the buffer are left out; `forward_cursors` and `reverse_cursors` connect the cursors
to the breadboard that has them. A constructed buffer is one that `malloc` gave or that its caller
keeps. -/

namespace Suil.Wire

/-- `Heapboard`: `data`, and `sink` with it, is null or has so many bytes allocated behind it. -/
structure Heapboard where
  data : Option UInt64
  own : Bool
  H : UInt64
  T : UInt64
  M : UInt64
  deriving DecidableEq, Repr

namespace Heapboard

def allocated (b : Heapboard) : UInt64 := b.data.getD 0

def size (b : Heapboard) : UInt64 := b.T - b.H

/-- `Heapboard()`. -/
def empty : Heapboard := ⟨none, false, 0, 0, 0⟩

/-- `Heapboard(size)`. -/
def new (size : UInt64) : Heapboard := ⟨some size, true, 0, 0, size⟩

/-- `Heapboard(buf, size)`: the bytes are there to be read. -/
def wrap (size : UInt64) : Heapboard := ⟨some size, false, 0, size, size⟩

/-- `forward`; it throws, and leaves the board as it is, when there is no room. -/
def forward (b : Heapboard) (es : UInt64) : Heapboard :=
  if b.M - b.T < es then b else { b with T := b.T + es }

/-- Both kinds of `reverse`. -/
def reverse (b : Heapboard) (es : UInt64) : Heapboard :=
  if es ≤ b.T - b.H then { b with H := b.H + es } else b

def move (b : Heapboard) (size : UInt64) : Heapboard :=
  if size ≤ b.size then { b with H := b.H + size } else b

def reset (b : Heapboard) : Heapboard := { b with H := 0, T := 0 }

/-- `c2i` does not throw. -/
def isHex (c : UInt8) : Bool := isDigit c || 97 ≤ c && c ≤ 102 || 65 ≤ c && c ≤ 70

/-- `fromHexStr`: two characters for a byte; `utils::bytes` throws when it meets another character
or is given no buffer. -/
def fromHexStr (b : Heapboard) (str : Bytes) : Heapboard :=
  let n := UInt64.ofNat (str.length / 2)
  if b.M - b.T < n then b
  else if b.data = none ∧ b.T = 0 then b
  else if (str.take (2 * (str.length / 2))).all isHex then { b with T := b.T + n }
  else b

/-- `clear`. -/
def clear (b : Heapboard) : Heapboard :=
  if b.own ∧ b.data.isSome then ⟨none, false, b.T, b.T, b.T⟩ else { b with data := none }

/-- `copyfrom(data, sz)`. -/
def copyfrom (b : Heapboard) (data : Option UInt64) (sz : UInt64) : Heapboard :=
  if data.isSome ∧ 0 < sz then ⟨some sz, true, 0, sz, sz⟩ else b

/-- `operator=(const Heapboard&)`; the copy constructor is this on an empty board. -/
def copy (b hb : Heapboard) : Heapboard :=
  if hb.data.isSome then b.copyfrom hb.data hb.M else b

/-- `Heapboard(Heapboard&&)`. -/
def moveNew (hb : Heapboard) : Heapboard := ⟨hb.data, hb.own, hb.H, hb.T, hb.M⟩

/-- `operator=(Heapboard&&)`: `M` stays. -/
def moveTo (b hb : Heapboard) : Heapboard := ⟨hb.data, hb.own, hb.H, hb.T, b.M⟩

/-- `seal`: the bytes of the window move to a buffer of their own, and the cursors stay. -/
def sealed (b : Heapboard) : Heapboard :=
  let tmp := b.size
  if b.own ∧ tmp ≠ 0 ∧ tmp < b.M - (b.M >>> 1) then ⟨some tmp, true, b.H, b.T, b.M⟩ else b

/-- `release`: the memory goes with the `Data` that is returned. -/
def release (b : Heapboard) : Heapboard :=
  if b.size ≠ 0 then { b.sealed with own := false, data := none } else b

/-- The cursors are in order, and inside the memory there is. -/
structure Inv (b : Heapboard) : Prop where
  head_le : b.H ≤ b.T
  tail_le : b.T ≤ b.M
  fits : b.M ≤ b.allocated

/-! ## What each operation does to the invariant -/

theorem empty_inv : empty.Inv := ⟨by decide, by decide, by decide⟩

theorem new_inv (size : UInt64) : (new size).Inv :=
  ⟨UInt64.le_refl _, UInt64.zero_le, UInt64.le_refl _⟩

theorem wrap_inv (size : UInt64) : (wrap size).Inv :=
  ⟨UInt64.zero_le, UInt64.le_refl _, UInt64.le_refl _⟩

theorem Inv.forward {b : Heapboard} (h : b.Inv) (es : UInt64) : (b.forward es).Inv := by
  have hhead := h.head_le
  have htail := h.tail_le
  rw [Heapboard.forward]
  split_ifs with hroom
  · exact h
  · exact ⟨show b.H ≤ b.T + es by grind, show b.T + es ≤ b.M by grind, h.fits⟩

theorem Inv.reverse {b : Heapboard} (h : b.Inv) (es : UInt64) : (b.reverse es).Inv := by
  have hhead := h.head_le
  rw [Heapboard.reverse]
  split_ifs with hle
  · exact ⟨show b.H + es ≤ b.T by grind, h.tail_le, h.fits⟩
  · exact h

/-- `move` takes bytes off the front as `reverse` does. -/
theorem move_eq_reverse (b : Heapboard) (size : UInt64) : b.move size = b.reverse size := rfl

theorem Inv.reset {b : Heapboard} (h : b.Inv) : b.reset.Inv :=
  ⟨UInt64.le_refl _, UInt64.zero_le, h.fits⟩

theorem Inv.fromHexStr {b : Heapboard} (h : b.Inv) (str : Bytes) : (b.fromHexStr str).Inv := by
  have hforward := h.forward (UInt64.ofNat (str.length / 2))
  rw [Heapboard.forward] at hforward
  rw [Heapboard.fromHexStr]
  split_ifs with hroom hnull hhex
  · exact h
  · exact h
  · rw [if_neg hroom] at hforward
    exact hforward
  · exact h

theorem Inv.copyfrom {b : Heapboard} (h : b.Inv) (data : Option UInt64) (sz : UInt64) :
    (b.copyfrom data sz).Inv := by
  rw [Heapboard.copyfrom]
  split_ifs
  · exact ⟨UInt64.zero_le, UInt64.le_refl _, UInt64.le_refl _⟩
  · exact h

theorem Inv.copy {b : Heapboard} (h : b.Inv) (hb : Heapboard) : (b.copy hb).Inv := by
  rw [Heapboard.copy]
  split_ifs
  · exact h.copyfrom _ _
  · exact h

theorem Inv.moveNew {hb : Heapboard} (h : hb.Inv) : hb.moveNew.Inv := ⟨h.head_le, h.tail_le, h.fits⟩

theorem moveTo_inv_iff {b hb : Heapboard} (h : hb.Inv) :
    (b.moveTo hb).Inv ↔ hb.T ≤ b.M ∧ b.M ≤ hb.allocated := by
  constructor
  · exact fun hinv => ⟨hinv.tail_le, hinv.fits⟩
  · rintro ⟨htail, hfits⟩
    exact ⟨h.head_le, htail, hfits⟩

/-- What is sealed has less memory than `M` says. -/
theorem sealed_inv_iff {b : Heapboard} (h : b.Inv) :
    b.sealed.Inv ↔ ¬ (b.own ∧ b.size ≠ 0 ∧ b.size < b.M - (b.M >>> 1)) := by
  rw [sealed]
  constructor
  · intro hinv hshrink
    simp only [if_pos hshrink] at hinv
    have hfits : b.M ≤ b.size := hinv.fits
    have hhalf : b.M >>> 1 ≤ b.M := by
      rw [UInt64.le_iff_toNat_le, UInt64.toNat_shiftRight]
      exact Nat.shiftRight_le _ _
    have hlt := hshrink.2.2
    grind
  · intro hkeep
    simp only [if_neg hkeep]
    exact h

/-- What is released has an `M` and no memory. -/
theorem release_inv_iff {b : Heapboard} (h : b.Inv) : b.release.Inv ↔ b.size = 0 := by
  rw [release]
  constructor
  · intro hinv
    by_contra hsize
    simp only [ne_eq, if_pos hsize] at hinv
    have hfits : b.sealed.M ≤ 0 := hinv.fits
    have hM : b.sealed.M = b.M := by
      rw [sealed]
      split_ifs <;> rfl
    rw [hM] at hfits
    have hhead := h.head_le
    have htail := h.tail_le
    rw [size] at hsize
    grind
  · intro hsize
    simp only [hsize, ne_eq, not_true_eq_false, if_false]
    exact h

theorem clear_inv_iff {b : Heapboard} (h : b.Inv) :
    b.clear.Inv ↔ if b.own ∧ b.data.isSome then b.T = 0 else b.M = 0 := by
  rw [clear]
  split_ifs with hown
  · constructor
    · intro hinv
      have hfits : b.T ≤ 0 := hinv.fits
      grind
    · intro hzero
      exact ⟨UInt64.le_refl _, UInt64.le_refl _, show b.T ≤ 0 by rw [hzero]; decide⟩
  · constructor
    · intro hinv
      have hfits : b.M ≤ 0 := hinv.fits
      grind
    · intro hzero
      exact ⟨h.head_le, h.tail_le, show b.M ≤ 0 by rw [hzero]; decide⟩

end Heapboard

/-! ## Runs -/

/-- A set of boards. -/
abbrev Boards : Type := Nat → Heapboard

/-- The operations, each on the board of its first number. -/
inductive BoardOp where
  | new (i : Nat) (size : UInt64)
  | wrap (i : Nat) (size : UInt64)
  | forward (i : Nat) (es : UInt64)
  | reverse (i : Nat) (es : UInt64)
  | move (i : Nat) (size : UInt64)
  | reset (i : Nat)
  | fromHexStr (i : Nat) (str : Bytes)
  | copyNew (i j : Nat)
  | copy (i j : Nat)
  | moveNew (i j : Nat)
  | moveTo (i j : Nat)
  | copyfrom (i : Nat) (data : Option UInt64) (sz : UInt64)
  | sealed (i : Nat)
  | release (i : Nat)
  | clear (i : Nat)

open Function (update)

/-- One operation. -/
def BoardOp.step (s : Boards) : BoardOp → Boards
  | .new i size => update s i (.new size)
  | .wrap i size => update s i (.wrap size)
  | .forward i es => update s i ((s i).forward es)
  | .reverse i es => update s i ((s i).reverse es)
  | .move i size => update s i ((s i).move size)
  | .reset i => update s i (s i).reset
  | .fromHexStr i str => update s i ((s i).fromHexStr str)
  | .copyNew i j => update s i (Heapboard.empty.copy (s j))
  | .copy i j => update s i ((s i).copy (s j))
  | .moveNew i j => update (update s j .empty) i (s j).moveNew
  | .moveTo i j => update (update s i ((s i).moveTo (s j))) j .empty
  | .copyfrom i data sz => update s i ((s i).copyfrom data sz)
  | .sealed i => update s i (s i).sealed
  | .release i => update s i (s i).release
  | .clear i => update s i (s i).clear

/-- A run starts with boards that have nothing. -/
def runFrom (s : Boards) (ops : List BoardOp) : Boards := ops.foldl BoardOp.step s

/-- The bytes behind the pointer that `forward` or `reverse` touches: a board, an offset and a
number of bytes. -/
def BoardOp.touched (s : Boards) : BoardOp → Option (Nat × UInt64 × UInt64)
  | .forward i es => if (s i).M - (s i).T < es then none else some (i, (s i).T, es)
  | .reverse i es => if es ≤ (s i).T - (s i).H then some (i, (s i).H, es) else none
  | _ => none

/-- Every board has its cursors in order and inside its memory, and so is what `op` touches. -/
def Sound (s : Boards) : Prop :=
  (∀ i, (s i).Inv) ∧ ∀ (op : BoardOp) (i : Nat) (off n : UInt64), op.touched s = some (i, off, n) →
    off.toNat + n.toNat ≤ (s i).allocated.toNat

/-- The step does not leave `M` behind: a board that takes over a buffer has a fitting `M`, no
board is sealed that has a smaller window than half of `M`, none is released that has a window,
and none is cleared that has bytes in it or, when the memory is not its own, an `M`. -/
def Keeps (s : Boards) : BoardOp → Prop
  | .moveTo i j => i = j ∨ ((s j).T ≤ (s i).M ∧ (s i).M ≤ (s j).allocated)
  | .sealed i => ¬ ((s i).own ∧ (s i).size ≠ 0 ∧ (s i).size < (s i).M - ((s i).M >>> 1))
  | .release i => (s i).size = 0
  | .clear i => if (s i).own ∧ (s i).data.isSome then (s i).T = 0 else (s i).M = 0
  | _ => True

instance (s : Boards) (op : BoardOp) : Decidable (Keeps s op) := by
  cases op <;> unfold Keeps <;> infer_instance

/-- Every step of a run keeps. -/
def AllKeep : Boards → List BoardOp → Prop
  | _, [] => True
  | s, op :: ops => Keeps s op ∧ AllKeep (op.step s) ops

/-! ## Soundness of runs -/

private theorem inv_update_iff {s : Boards} (h : ∀ k, (s k).Inv) (i : Nat) (b : Heapboard) :
    (∀ k, (update s i b k).Inv) ↔ b.Inv := by
  constructor
  · intro hall
    have hi := hall i
    rwa [Function.update_self] at hi
  · intro hb k
    by_cases hk : k = i
    · rw [hk, Function.update_self]
      exact hb
    · rw [Function.update_of_ne hk]
      exact h k

/-- **One step keeps the invariant of all boards exactly when it is one that keeps.** -/
theorem step_inv_iff {s : Boards} (h : ∀ i, (s i).Inv) (op : BoardOp) :
    (∀ i, (op.step s i).Inv) ↔ Keeps s op := by
  cases op with
  | new i size => exact iff_of_true ((inv_update_iff h i _).mpr (Heapboard.new_inv size)) trivial
  | wrap i size => exact iff_of_true ((inv_update_iff h i _).mpr (Heapboard.wrap_inv size)) trivial
  | forward i es => exact iff_of_true ((inv_update_iff h i _).mpr ((h i).forward es)) trivial
  | reverse i es => exact iff_of_true ((inv_update_iff h i _).mpr ((h i).reverse es)) trivial
  | move i size => exact iff_of_true ((inv_update_iff h i _).mpr ((h i).reverse size)) trivial
  | reset i => exact iff_of_true ((inv_update_iff h i _).mpr (h i).reset) trivial
  | fromHexStr i str => exact iff_of_true ((inv_update_iff h i _).mpr ((h i).fromHexStr str)) trivial
  | copyNew i j =>
      exact iff_of_true ((inv_update_iff h i _).mpr (Heapboard.empty_inv.copy (s j))) trivial
  | copy i j => exact iff_of_true ((inv_update_iff h i _).mpr ((h i).copy (s j))) trivial
  | moveNew i j =>
      have hj := (inv_update_iff h j _).mpr Heapboard.empty_inv
      exact iff_of_true ((inv_update_iff hj i _).mpr (h j).moveNew) trivial
  | copyfrom i data sz =>
      exact iff_of_true ((inv_update_iff h i _).mpr ((h i).copyfrom data sz)) trivial
  | sealed i => exact (inv_update_iff h i _).trans (Heapboard.sealed_inv_iff (h i))
  | release i => exact (inv_update_iff h i _).trans (Heapboard.release_inv_iff (h i))
  | clear i => exact (inv_update_iff h i _).trans (Heapboard.clear_inv_iff (h i))
  | moveTo i j =>
      by_cases hij : i = j
      · -- the board is emptied last
        have hself : BoardOp.step s (.moveTo i j) = update s j .empty := by
          rw [hij, BoardOp.step, Function.update_idem]
        rw [hself]
        exact iff_of_true ((inv_update_iff h j _).mpr Heapboard.empty_inv) (.inl hij)
      · have hswap : BoardOp.step s (.moveTo i j) =
            update (update s j .empty) i ((s i).moveTo (s j)) :=
          Function.update_comm hij _ _ s
        have hj := (inv_update_iff h j _).mpr Heapboard.empty_inv
        rw [hswap]
        apply ((inv_update_iff hj i _).trans (Heapboard.moveTo_inv_iff (h j))).trans
        exact (or_iff_right hij).symm

/-- What is inside the cursors is inside the memory. -/
theorem sound_of_inv {s : Boards} (h : ∀ i, (s i).Inv) : Sound s := by
  refine ⟨h, ?_⟩
  intro op i off n htouched
  have htail := (h i).tail_le
  have hfits := (h i).fits
  have hhead := (h i).head_le
  rw [UInt64.le_iff_toNat_le] at htail hfits hhead
  cases op with
  | forward j es =>
      rw [BoardOp.touched] at htouched
      split_ifs at htouched with hroom
      cases htouched
      rw [UInt64.lt_iff_toNat_lt, UInt64.toNat_sub_of_le _ _ (h i).tail_le] at hroom
      omega
  | reverse j es =>
      rw [BoardOp.touched] at htouched
      split_ifs at htouched with hle
      cases htouched
      rw [UInt64.le_iff_toNat_le, UInt64.toNat_sub_of_le _ _ (h i).head_le] at hle
      omega
  | _ => cases htouched

/-- **Over whole runs: every state that is reached is sound exactly when every step keeps.** -/
theorem run_sound_iff (ops : List BoardOp) :
    (∀ p, p <+: ops → Sound (runFrom (fun _ => .empty) p)) ↔ AllKeep (fun _ => .empty) ops := by
  suffices hfrom : ∀ s : Boards, (∀ i, (s i).Inv) →
      ((∀ p, p <+: ops → Sound (runFrom s p)) ↔ AllKeep s ops) from
    hfrom _ fun _ => Heapboard.empty_inv
  induction ops with
  | nil =>
      intro s h
      refine iff_of_true (fun p hp => ?_) trivial
      rw [List.prefix_nil.mp hp]
      exact sound_of_inv h
  | cons op ops ih =>
      intro s h
      rw [AllKeep, ← step_inv_iff h]
      constructor
      · intro hsound
        have hstep : ∀ i, (op.step s i).Inv :=
          (hsound [op] (List.cons_prefix_cons.mpr ⟨rfl, List.nil_prefix⟩)).1
        refine ⟨hstep, (ih _ hstep).mp fun p hp => ?_⟩
        exact hsound (op :: p) (List.cons_prefix_cons.mpr ⟨rfl, hp⟩)
      · rintro ⟨hstep, hrest⟩ p hp
        cases p with
        | nil => exact sound_of_inv h
        | cons op' p =>
            obtain ⟨rfl, hrun⟩ := List.cons_prefix_cons.mp hp
            exact (ih _ hstep).mpr hrest p hrun

/-- A board is filled, read from and sealed. -/
def sealedRun : List BoardOp := [.new 0 64, .forward 0 8, .sealed 0]

/-- Eight bytes are left behind the pointer, and `forward` may still write 56. -/
theorem run_unsound : ¬ ∀ p, p <+: sealedRun → Sound (runFrom (fun _ => .empty) p) := by
  intro h
  have hfits := ((h sealedRun (List.prefix_refl _)).1 0).fits
  exact absurd hfits (by decide)

/-! ## The cursors of a breadboard -/

/-- A board over a buffer that its caller keeps, with the cursors of `b`. -/
def Breadboard.cursors (b : Breadboard) : Heapboard :=
  ⟨some (UInt64.ofNat b.M), false, UInt64.ofNat b.H, UInt64.ofNat b.sink.length, UInt64.ofNat b.M⟩

private theorem toNat_ofNat_of_lt {n : Nat} (h : n < 2 ^ 64) : (UInt64.ofNat n).toNat = n := by
  rw [UInt64.toNat_ofNat', Nat.mod_eq_of_lt h]

private theorem ofNat_sub {m n : Nat} (hle : n ≤ m) (h : m < 2 ^ 64) :
    UInt64.ofNat m - UInt64.ofNat n = UInt64.ofNat (m - n) := by
  apply UInt64.toNat_inj.mp
  rw [UInt64.toNat_sub_of_le _ _ (by
    rw [UInt64.le_iff_toNat_le, toNat_ofNat_of_lt (by omega), toNat_ofNat_of_lt h]
    exact hle)]
  rw [toNat_ofNat_of_lt h, toNat_ofNat_of_lt (by omega), toNat_ofNat_of_lt (by omega)]

/-- **`forward` moves the tail as it does here, and throws when it does here.** -/
theorem forward_cursors (b : Breadboard) (e : Bytes) (hM : b.M < 2 ^ 64)
    (he : e.length < 2 ^ 64) :
    (match b.forward e with
      | .ok b' => b'.cursors
      | .error _ => b.cursors) = b.cursors.forward (UInt64.ofNat e.length) := by
  have htail := b.tail_le
  have hroom : UInt64.ofNat (b.M - b.sink.length) < UInt64.ofNat e.length ↔
      b.M - b.sink.length < e.length := by
    rw [UInt64.lt_iff_toNat_lt, toNat_ofNat_of_lt (by omega), toNat_ofNat_of_lt he]
  rw [Breadboard.forward, Heapboard.forward, Breadboard.cursors]
  simp only [ofNat_sub htail hM, hroom]
  split_ifs with h
  · rfl
  · simp only [Breadboard.cursors, List.length_append, UInt64.ofNat_add]

/-- **`reverse` moves the head as it does here, and throws when it does here.** -/
theorem reverse_cursors (b : Breadboard) (es : Nat) (hM : b.M < 2 ^ 64) (he : es < 2 ^ 64) :
    (match b.reverse es with
      | .ok r => r.2.cursors
      | .error _ => b.cursors) = b.cursors.reverse (UInt64.ofNat es) := by
  have htail := b.tail_le
  have hhead := b.head_le
  have hle : UInt64.ofNat es ≤ UInt64.ofNat (b.sink.length - b.H) ↔ es ≤ b.sink.length - b.H := by
    rw [UInt64.le_iff_toNat_le, toNat_ofNat_of_lt he, toNat_ofNat_of_lt (by omega)]
  rw [Breadboard.reverse, Heapboard.reverse, Breadboard.cursors]
  simp only [ofNat_sub hhead (by omega), hle]
  split_ifs with h
  · simp only [Breadboard.cursors, UInt64.ofNat_add]
  · rfl

end Suil.Wire
