import Suil.Wire.Heapboard

set_option autoImplicit false

/-! # Heapboards made of heapboards

The bytes that `raw` gives for a `Heapboard` (`wire.h`, `wire.cpp`), and for the boards that are
copied, moved, sealed or released from it. `raw` is the window from the head to the tail, with its
size in 32 bits. Copies are made from the start of the memory, and a sealed board has its window there.
`remade_iff` says which of the operations give the window again. -/

namespace Suil.Wire

/-- A heapboard with the bytes of its memory. -/
structure Board where
  cursors : Heapboard
  mem : Bytes
  allocated : mem.length = cursors.allocated.toNat

namespace Board

open Heapboard

/-! ## Copying, moving and sealing boards -/

/-- So many bytes from the head on; nothing when they are not all in the memory. -/
def read (b : Board) (n : Nat) : Option Bytes :=
  let h := b.cursors.H.toNat
  if n = 0 then some []
  else if h + n ≤ b.mem.length then some ((b.mem.drop h).take n) else none

/-- `size()` as a `Data` has it, whose size is a `uint32_t`. -/
def dataSize (b : Board) : Nat := b.cursors.size.toNat % 2 ^ 32

/-- `raw()`, read. -/
def raw (b : Board) : Option Bytes := b.read b.dataSize

/-- `Heapboard()`. -/
def empty : Board := ⟨.empty, [], rfl⟩

/-- `Heapboard(size)`, before anything is written. -/
def new (size : UInt64) : Board :=
  ⟨.new size, List.replicate size.toNat 0, List.length_replicate⟩

/-- `Heapboard(data)`. -/
def wrap (data : Suil.Sized (2 ^ 32)) : Board :=
  ⟨.wrap (UInt64.ofNat data.bytes.length), data.bytes, by
    have := data.bound
    show _ = (UInt64.ofNat data.bytes.length).toNat
    rw [UInt64.toNat_ofNat', Nat.mod_eq_of_lt (by omega)]⟩

/-- `copyfrom(data, sz)`, with the memory behind `data`. Nothing when it is read beyond its end. -/
def copyfrom (d : Board) (data : Option Bytes) (sz : UInt64) : Option Board :=
  match data with
  | none => some d
  | some m =>
      if hsz : 0 < sz then
        if hlen : sz.toNat ≤ m.length then
          some ⟨d.cursors.copyfrom (some sz) sz, m.take sz.toNat, by
            rw [Heapboard.copyfrom, if_pos ⟨rfl, hsz⟩, List.length_take, Nat.min_eq_left hlen]
            rfl⟩
        else none
      else some d

/-- `Heapboard(const Heapboard&)`. -/
def copyNew (hb : Board) : Option Board :=
  if hb.cursors.data.isSome then empty.copyfrom (some hb.mem) hb.cursors.M else some empty

/-- `operator=(const Heapboard&)`, of another board. -/
def copyTo (b hb : Board) : Option Board :=
  if hb.cursors.data.isSome then b.copyfrom (some hb.mem) hb.cursors.M else some b

/-- `operator=(const Heapboard&)`, of the board itself: memory of its own is freed first. -/
def copySelf (b : Board) : Option Board :=
  if b.cursors.data.isSome ∧ 0 < b.cursors.M then
    if b.cursors.own then none else b.copyfrom (some b.mem) b.cursors.M
  else some b

/-- `Heapboard(Heapboard&&)`. -/
def moveNew (hb : Board) : Board := ⟨hb.cursors.moveNew, hb.mem, hb.allocated⟩

/-- `operator=(Heapboard&&)`, of another board. -/
def moveTo (b hb : Board) : Board := ⟨b.cursors.moveTo hb.cursors, hb.mem, hb.allocated⟩

/-- `operator=(Heapboard&&)`, of the board itself: it is emptied at the end. -/
def moveSelf (_ : Board) : Board := empty

/-- `seal` has memory to give back. -/
def Shrinks (b : Board) : Prop :=
  b.cursors.own ∧ b.cursors.size ≠ 0 ∧ b.cursors.size < b.cursors.M - (b.cursors.M >>> 1)

instance (b : Board) : Decidable b.Shrinks :=
  inferInstanceAs (Decidable (_ ∧ _ ∧ _))

theorem cursors_sealed {b : Board} (hs : b.Shrinks) : b.cursors.sealed =
    ⟨some b.cursors.size, true, b.cursors.H, b.cursors.T, b.cursors.M⟩ := if_pos hs

theorem length_read {b : Board} {n : Nat} {w : Bytes} (h : b.read n = some w) : w.length = n := by
  rw [read] at h
  split_ifs at h with hn hin
  · cases h
    exact hn.symm
  · cases h
    rw [List.length_take, List.length_drop]
    omega

/-- `seal()`. -/
def sealed (b : Board) : Option Board :=
  if hs : b.Shrinks then
    match h : b.read b.cursors.size.toNat with
    | none => none
    | some td => some ⟨b.cursors.sealed, td, by
        rw [length_read h, cursors_sealed hs]
        rfl⟩
  else some b

/-- `release()`. -/
def release (b : Board) : Option (Suil.Sized (2 ^ 32)) :=
  if b.cursors.size ≠ 0 then
    match b.sealed with
    | none => none
    | some b' =>
        if b.dataSize ≤ b'.mem.length then
          some ⟨b'.mem.take b.dataSize, Nat.lt_of_le_of_lt (List.length_take_le _ _)
            (Nat.mod_lt _ (by decide))⟩
        else none
  else some ⟨[], by decide⟩

/-! ## Boards made of boards -/

/-- What can be made of a board; the boards are others. -/
inductive Remake where
  | copyNew
  | copyTo (d : Board)
  | copySelf
  | moveNew
  | moveTo (d : Board)
  | moveSelf
  | copyfrom (d : Board)
  | sealed
  | rewrap

/-- The bytes of the board that is made. -/
def yields (b : Board) : Remake → Option Bytes
  | .copyNew => b.copyNew.bind raw
  | .copyTo d => (d.copyTo b).bind raw
  | .copySelf => b.copySelf.bind raw
  | .moveNew => b.moveNew.raw
  | .moveTo d => (d.moveTo b).raw
  | .moveSelf => b.moveSelf.raw
  | .copyfrom d =>
      (d.copyfrom (some (b.mem.drop b.cursors.H.toNat)) (UInt64.ofNat b.dataSize)).bind raw
  | .sealed => b.sealed.bind raw
  | .rewrap => b.release.bind fun data => (wrap data).raw

/-- There is something to copy. -/
def Copied (b : Board) : Prop := b.cursors.data.isSome ∧ 0 < b.cursors.M

/-- The `M` bytes from the start of the memory are there, and the window of the copy is that of the
board. -/
def Whole (b : Board) (w : Bytes) : Prop :=
  b.cursors.M.toNat ≤ b.mem.length ∧ b.mem.take (b.cursors.M.toNat % 2 ^ 32) = w

/-- All of the window is in the memory. -/
def Inside (b : Board) : Prop := b.cursors.H.toNat + b.cursors.size.toNat ≤ b.mem.length

/-- The bytes are found a second time where the head is in the memory of the sealed board. -/
def Again (b : Board) (w : Bytes) : Prop :=
  w = [] ∨ b.cursors.H.toNat + w.length ≤ b.cursors.size.toNat ∧
    (b.mem.drop (b.cursors.H.toNat + b.cursors.H.toNat)).take w.length = w

/-- The bytes that are copied or handed over are those of the window. When nothing is copied, the
board that should become a copy has them already. -/
def Fits (b : Board) (w : Bytes) : Remake → Prop
  | .copyNew => b.Copied ∧ b.Whole w ∨ ¬ b.Copied ∧ w = []
  | .copyTo d => b.Copied ∧ b.Whole w ∨ ¬ b.Copied ∧ d.raw = some w
  | .copySelf => b.Copied → b.cursors.own = false ∧ b.Whole w
  | .moveNew | .moveTo _ => True
  | .moveSelf => w = []
  | .copyfrom d => w = [] → d.raw = some []
  | .sealed => b.Shrinks → b.Inside ∧ b.Again w
  | .rewrap => if b.Shrinks then b.Inside else b.mem.take w.length = w

/-! ## The windows of the boards that are made -/

section
variable {b : Board} {w : Bytes}

/-- A board whose window is all of its memory. -/
private theorem raw_all {b : Board} (hH : b.cursors.H = 0)
    (hT : b.cursors.T.toNat = b.mem.length) : b.raw = some (b.mem.take (b.mem.length % 2 ^ 32)) := by
  have hsize : b.dataSize = b.mem.length % 2 ^ 32 := by
    rw [dataSize, size, hH, UInt64.sub_zero, hT]
  have hle := Nat.mod_le b.mem.length (2 ^ 32)
  rw [raw, hsize, read, hH]
  split_ifs with hnil hin
  · rw [hnil, List.take_zero]
  · rfl
  · exact absurd (show 0 + b.mem.length % 2 ^ 32 ≤ b.mem.length by omega) hin

private theorem raw_wrap (data : Suil.Sized (2 ^ 32)) : (wrap data).raw = some data.bytes := by
  have hbound := data.bound
  have hraw := raw_all (b := wrap data) rfl (wrap data).allocated.symm
  rw [hraw, show (wrap data).mem = data.bytes from rfl, Nat.mod_eq_of_lt hbound, List.take_length]

/-- What is copied is the window of the copy. -/
private theorem raw_copyfrom (d : Board) (m : Bytes) {sz : UInt64} (hsz : 0 < sz) :
    (d.copyfrom (some m) sz).bind raw =
      if sz.toNat ≤ m.length then some (m.take (sz.toNat % 2 ^ 32)) else none := by
  rw [copyfrom]
  simp only [dif_pos hsz]
  split_ifs with hlen
  · have hcopied : (m.take sz.toNat).length = sz.toNat := by
      rw [List.length_take, Nat.min_eq_left hlen]
    rw [Option.bind_some, raw_all]
    · show some ((m.take sz.toNat).take ((m.take sz.toNat).length % 2 ^ 32)) = _
      rw [hcopied, List.take_take, Nat.min_eq_left (Nat.mod_le _ _)]
    · show (d.cursors.copyfrom (some sz) sz).H = 0
      rw [Heapboard.copyfrom, if_pos ⟨rfl, hsz⟩]
    · show (d.cursors.copyfrom (some sz) sz).T.toNat = (m.take sz.toNat).length
      rw [Heapboard.copyfrom, if_pos ⟨rfl, hsz⟩, hcopied]
  · rfl

/-- Nothing is copied. -/
private theorem copyfrom_zero (d : Board) (m : Bytes) {sz : UInt64} (hsz : ¬ 0 < sz) :
    d.copyfrom (some m) sz = some d := by
  rw [copyfrom]
  simp only [dif_neg hsz]

private theorem copied_iff (hb : b.Copied) (d : Board) :
    (d.copyfrom (some b.mem) b.cursors.M).bind raw = some w ↔ b.Whole w := by
  rw [raw_copyfrom d b.mem hb.2, Whole]
  split_ifs with hlen
  · rw [Option.some.injEq, and_iff_right hlen]
  · exact iff_of_false nofun fun h => hlen h.1

/-- Both kinds of copies: of the memory, or of nothing. -/
private theorem copyTo_iff (b d : Board) : (d.copyTo b).bind raw = some w ↔
    b.Copied ∧ b.Whole w ∨ ¬ b.Copied ∧ d.raw = some w := by
  by_cases hb : b.Copied
  · rw [copyTo, if_pos hb.1, copied_iff hb]
    tauto
  · have hsame : d.copyTo b = some d := by
      rw [copyTo]
      split_ifs with hdata
      · exact copyfrom_zero d b.mem fun hM => hb ⟨hdata, hM⟩
      · rfl
    rw [hsame, Option.bind_some]
    tauto

private theorem raw_empty : empty.raw = some [] := rfl

/-- The window of a board, as `raw` gives it. -/
private theorem raw_window (h : b.raw = some w) : w.length = b.dataSize ∧
    (w ≠ [] → b.cursors.H.toNat + w.length ≤ b.mem.length ∧
      (b.mem.drop b.cursors.H.toNat).take w.length = w) := by
  have hlen := length_read h
  refine ⟨hlen, fun hne => ?_⟩
  rw [raw, read, ← hlen, if_neg (fun hzero => hne (List.length_eq_zero_iff.mp hzero))] at h
  split_ifs at h with hin
  exact ⟨hin, Option.some.inj h⟩

/-- A sealed board has its window at the start of its memory. -/
private theorem sealed_spec (hs : b.Shrinks) (hin : b.Inside) :
    ∃ b', b.sealed = some b' ∧
      b'.mem = (b.mem.drop b.cursors.H.toNat).take b.cursors.size.toNat ∧
        b'.cursors = b.cursors.sealed := by
  have hpos : b.cursors.size.toNat ≠ 0 := fun hzero => hs.2.1 (UInt64.toNat_inj.mp hzero)
  have hread : b.read b.cursors.size.toNat =
      some ((b.mem.drop b.cursors.H.toNat).take b.cursors.size.toNat) := by
    rw [read, if_neg hpos]
    exact if_pos hin
  rw [Board.sealed, dif_pos hs]
  split
  · next hnone => cases hnone.symm.trans hread
  · next w' hw =>
      cases hw.symm.trans hread
      exact ⟨_, rfl, rfl, rfl⟩

private theorem sealed_of_outside (hs : b.Shrinks) (hout : ¬ b.Inside) : b.sealed = none := by
  have hpos : b.cursors.size.toNat ≠ 0 := fun hzero => hs.2.1 (UInt64.toNat_inj.mp hzero)
  have hread : b.read b.cursors.size.toNat = none := by
    rw [read, if_neg hpos]
    exact if_neg hout
  rw [Board.sealed, dif_pos hs]
  split
  · rfl
  · next hw => cases hw.symm.trans hread

/-- The head stays where it was. -/
private theorem sealed_iff (h : b.raw = some w) :
    b.sealed.bind raw = some w ↔ (b.Shrinks → b.Inside ∧ b.Again w) := by
  by_cases hs : b.Shrinks
  · rw [forall_prop_of_true hs]
    by_cases hin : b.Inside
    · obtain ⟨b', hb, hmem, hcursors⟩ := sealed_spec hs hin
      have hH : b'.cursors.H = b.cursors.H := by
        rw [hcursors, cursors_sealed hs]
      have hsize : b'.dataSize = w.length := by
        rw [(raw_window h).1, dataSize, hcursors, cursors_sealed hs]
        rfl
      have hlen : b'.mem.length = b.cursors.size.toNat := by
        rw [hmem, List.length_take, List.length_drop]
        have : b.cursors.H.toNat + b.cursors.size.toNat ≤ b.mem.length := hin
        omega
      rw [hb, Option.bind_some, raw, hsize, read, hH, hlen, and_iff_right hin, Again]
      by_cases hnil : w = []
      · rw [hnil]
        exact iff_of_true rfl (.inl rfl)
      · rw [if_neg (fun hzero => hnil (List.length_eq_zero_iff.mp hzero)), or_iff_right hnil]
        split_ifs with hfits
        · have hsame : (b'.mem.drop b.cursors.H.toNat).take w.length =
              (b.mem.drop (b.cursors.H.toNat + b.cursors.H.toNat)).take w.length := by
            rw [hmem, List.drop_take, List.take_take, List.drop_drop, Nat.min_eq_left (by omega)]
          rw [Option.some.injEq, hsame, and_iff_right hfits]
        · exact iff_of_false nofun fun hyes => hfits hyes.1
    · rw [sealed_of_outside hs hin]
      exact iff_of_false nofun fun hyes => hin hyes.1
  · refine iff_of_true ?_ fun hyes => absurd hyes hs
    rw [Board.sealed, dif_neg hs]
    exact h

/-- The memory is handed over from its start. -/
private theorem release_of_sealed {b' : Board} (h : b.raw = some w) (hsize : b.cursors.size ≠ 0)
    (hb : b.sealed = some b') (hle : w.length ≤ b'.mem.length) :
    (b.release.bind fun data => (wrap data).raw) = some (b'.mem.take w.length) := by
  have hlen := (raw_window h).1
  rw [hlen] at hle ⊢
  simp only [release, if_pos hsize, hb, if_pos hle, Option.bind_some, raw_wrap]

private theorem release_iff (h : b.raw = some w) :
    (b.release.bind fun data => (wrap data).raw) = some w ↔
      if b.Shrinks then b.Inside else b.mem.take w.length = w := by
  obtain ⟨hlen, hwindow⟩ := raw_window h
  split_ifs with hs
  · by_cases hin : b.Inside
    · obtain ⟨b', hb, hmem, -⟩ := sealed_spec hs hin
      have hle : w.length ≤ b.cursors.size.toNat := by
        rw [hlen]
        exact Nat.mod_le _ _
      have hin' : b.cursors.H.toNat + b.cursors.size.toNat ≤ b.mem.length := hin
      have htake : b'.mem.take w.length = w := by
        rw [hmem, List.take_take, Nat.min_eq_left hle]
        by_cases hnil : w = []
        · rw [hnil]
          exact List.take_zero
        · exact (hwindow hnil).2
      refine iff_of_true ?_ hin
      rw [release_of_sealed h hs.2.1 hb, htake]
      rw [hmem, List.length_take, List.length_drop]
      omega
    · refine iff_of_false ?_ hin
      simp only [release, if_pos hs.2.1, sealed_of_outside hs hin]
      nofun
  · have hb : b.sealed = some b := by rw [Board.sealed, dif_neg hs]
    have hle : w.length ≤ b.mem.length := by
      by_cases hnil : w = []
      · rw [hnil]
        exact Nat.zero_le _
      · exact Nat.le_trans (Nat.le_add_left _ _) (hwindow hnil).1
    by_cases hzero : b.cursors.size = 0
    · have hnil : w = [] := by
        rw [← List.length_eq_zero_iff, hlen, dataSize, hzero]
        rfl
      have hrelease : b.release = some ⟨[], by decide⟩ := by
        simp only [release, hzero, ne_eq, not_true_eq_false, if_false]
      rw [hrelease, Option.bind_some, raw_wrap, hnil]
      exact iff_of_true rfl List.take_zero
    · rw [release_of_sealed h hzero hb hle, Option.some.injEq]

end

/-! ## Which boards -/

variable {b : Board} {w : Bytes}

/-- **The board that is made has the window of the first one exactly when the bytes that are copied
or handed over are those of the window.** -/
theorem remade_iff (h : b.raw = some w) (op : Remake) : b.yields op = some w ↔ b.Fits w op := by
  -- each kind of copy or move with its own condition
  cases op with
  | copyNew =>
      have hcopy : (empty.copyTo b).bind raw = some w ↔ _ := copyTo_iff b empty
      rw [raw_empty, Option.some.injEq, @eq_comm _ [] w] at hcopy
      exact hcopy
  | copyTo d => exact copyTo_iff b d
  | copySelf =>
      show b.copySelf.bind raw = some w ↔ (b.Copied → b.cursors.own = false ∧ b.Whole w)
      by_cases hb : b.Copied
      · rw [copySelf, if_pos (show _ ∧ _ from hb)]
        cases hown : b.cursors.own with
        | true => exact iff_of_false nofun fun hyes => nomatch (hyes hb).1
        | false =>
            rw [if_neg Bool.false_ne_true, copied_iff hb]
            exact ⟨fun hwhole _ => ⟨rfl, hwhole⟩, fun hyes => (hyes hb).2⟩
      · rw [copySelf, if_neg (show ¬ (_ ∧ _) from hb), Option.bind_some]
        exact iff_of_true h fun hyes => absurd hyes hb
  | moveNew => exact iff_of_true h trivial
  | moveTo d => exact iff_of_true h trivial
  | moveSelf =>
      show empty.raw = some w ↔ w = []
      rw [raw_empty, Option.some.injEq, eq_comm]
  | copyfrom d =>
      show (d.copyfrom (some (b.mem.drop b.cursors.H.toNat)) (UInt64.ofNat b.dataSize)).bind raw =
        some w ↔ (w = [] → d.raw = some [])
      obtain ⟨hlen, hwindow⟩ := raw_window h
      have hlt : b.dataSize < 2 ^ 32 := Nat.mod_lt _ (by decide)
      have hto : (UInt64.ofNat b.dataSize).toNat = w.length := by
        rw [UInt64.toNat_ofNat', hlen, Nat.mod_eq_of_lt (by omega)]
      by_cases hnil : w = []
      · have hzero : UInt64.ofNat b.dataSize = 0 := UInt64.toNat_inj.mp (by rw [hto, hnil]; rfl)
        rw [copyfrom_zero d _ (by rw [hzero]; decide), Option.bind_some, hnil]
        exact ⟨fun hraw _ => hraw, fun hyes => hyes rfl⟩
      · obtain ⟨hin, hbytes⟩ := hwindow hnil
        have hpos : 0 < UInt64.ofNat b.dataSize := by
          rw [UInt64.lt_iff_toNat_lt, hto]
          exact List.length_pos_iff.mpr hnil
        rw [raw_copyfrom d _ hpos, hto, if_pos (by rw [List.length_drop]; omega),
          Nat.mod_eq_of_lt (hlen ▸ hlt), hbytes]
        exact iff_of_true rfl fun hyes => absurd hyes hnil
  | sealed => exact sealed_iff h
  | rewrap => exact release_iff h

/-- For cursors in order, with memory for them, what is copied is the window of a board that is full
and of which nothing has been read. -/
theorem whole_iff (h : b.raw = some w) (hinv : b.cursors.Inv) (hwide : b.cursors.M.toNat < 2 ^ 32) :
    b.Whole w ↔ b.cursors.H = 0 ∧ b.cursors.T = b.cursors.M := by
  have hhead := UInt64.le_iff_toNat_le.mp hinv.head_le
  have htail := UInt64.le_iff_toNat_le.mp hinv.tail_le
  have hfits := UInt64.le_iff_toNat_le.mp hinv.fits
  rw [← b.allocated] at hfits
  have hsize : b.cursors.size.toNat = b.cursors.T.toNat - b.cursors.H.toNat :=
    UInt64.toNat_sub_of_le _ _ hinv.head_le
  obtain ⟨hlen, hwindow⟩ := raw_window h
  rw [dataSize, hsize, Nat.mod_eq_of_lt (by omega)] at hlen
  rw [Whole, and_iff_right hfits, Nat.mod_eq_of_lt hwide, ← UInt64.toNat_inj, ← UInt64.toNat_inj]
  show _ ↔ b.cursors.H.toNat = 0 ∧ _
  constructor
  · intro htake
    have htaken := congrArg List.length htake
    rw [List.length_take, hlen] at htaken
    omega
  · rintro ⟨hH, hT⟩
    by_cases hnil : w = []
    · rw [hnil, List.length_nil] at hlen
      rw [show b.cursors.M.toNat = 0 by omega, hnil, List.take_zero]
    · have hbytes := (hwindow hnil).2
      rw [hlen, hH, hT, List.drop_zero, Nat.sub_zero] at hbytes
      exact hbytes

/-- A sealed board has its window again when nothing has been read from the board. -/
theorem again_iff (h : b.raw = some w) (hwide : b.cursors.size.toNat < 2 ^ 32) :
    b.Again w ↔ w = [] ∨ b.cursors.H = 0 := by
  obtain ⟨hlen, hwindow⟩ := raw_window h
  rw [dataSize, Nat.mod_eq_of_lt hwide] at hlen
  rw [Again, ← UInt64.toNat_inj, ← hlen]
  show _ ↔ w = [] ∨ b.cursors.H.toNat = 0
  constructor
  · rintro (hnil | ⟨hfits, -⟩)
    · exact .inl hnil
    · exact .inr (by omega)
  · rintro (hnil | hH)
    · exact .inl hnil
    · by_cases hnil : w = []
      · exact .inl hnil
      · have hbytes := (hwindow hnil).2
        rw [hH] at hbytes ⊢
        exact .inr ⟨by omega, hbytes⟩

/-- Four bytes in memory for eight. -/
def halfFull : Board :=
  ⟨⟨some 8, true, 0, 4, 8⟩, str "abcd" ++ List.replicate 4 0, rfl⟩

/-- A board that is moved keeps its window. -/
theorem remade_halfFull : halfFull.yields .moveNew = some (str "abcd") :=
  (remade_iff (b := halfFull) (w := str "abcd") (by decide) .moveNew).mpr trivial

/-- The copy of a board with room in it has the room in its window. -/
theorem not_remade_halfFull : ¬ ∀ (b : Board) (w : Bytes), b.raw = some w →
    ∀ op, b.yields op = some w := by
  intro h
  have hcopy := h halfFull (str "abcd") (by decide) .copyNew
  exact absurd hcopy (by decide)

end Board

end Suil.Wire
