import Suil.Basic.BlobJson
import Suil.Basic.BufferRoom
import Suil.Wire.Boards

set_option autoImplicit false

/-! # Boards and hexadecimal text

`toHexStr` and `fromHexStr` of `Breadboard` (`wire.cpp`), with `hexstr` and `bytes` of `utils.cpp`.
The digits go into a buffer that is made large enough in 32 bits, and are read from a string by
pairs: whether a digit is left over nobody asks. `hexStr_iff` says when the bytes come back, and
which texts are refused. -/

namespace Suil.Wire

open OBuffer (Stop UINT32 hexDigits)

/-! ## `fromHexStr` and `toHexStr` -/

/-- The loop of `utils::bytes`, over so many pairs of digits: the bytes that are stored, and whether
it goes through. -/
def storePairs : Nat → Bytes → Bytes × Bool
  | 0, _ => ([], true)
  | n + 1, s =>
      match BlobJson.c2i (s.headD NUL), BlobJson.c2i (s.tail.headD NUL) with
      | .ok high, .ok low =>
          let r := storePairs n s.tail.tail
          ((high <<< 4 ||| low) :: r.1, r.2)
      | _, _ => ([], false)

/-- How `fromHexStr` ends: with `true`, with `false`, with an exception, or with an access outside of
the memory. -/
inductive HexRead where
  | done (b : Board)
  | refused
  | thrown (b : Board)
  | overrun

namespace Board

/-- The bytes are stored at the tail. -/
def stored (b : Board) (bs : Bytes) : Option Board :=
  if bs = [] then some b
  else if h : b.cursors.T.toNat + bs.length ≤ b.mem.length then
    some { b with
      mem := OBuffer.overwrite b.cursors.T.toNat bs b.mem
      allocated := (OBuffer.overwrite_length h).trans b.allocated }
  else none

/-- `fromHexStr(str)`. -/
def fromHexStr (b : Board) (s : Bytes) : HexRead :=
  let n := UInt64.ofNat (s.length / 2)
  if b.cursors.M - b.cursors.T < n then .refused
  else if b.cursors.data = none ∧ b.cursors.T = 0 then .thrown b
  else
    let r := storePairs (s.length / 2) s
    match b.stored r.1 with
    | none => .overrun
    | some b' =>
        if r.2 then .done { b' with
          cursors := { b'.cursors with T := b'.cursors.T + n }
          allocated := b'.allocated }
        else .thrown b'

/-- `toHexStr(ob)`. -/
def toHexStr (b : Board) (ob : OBuffer) : Except Stop OBuffer :=
  match b.raw with
  | none => .error .overrun
  | some tmp =>
      let ob := ob.reserve (2 * tmp.length + 2)
      if ob.remaining < 2 * tmp.length then ob.seekBy 0
      else do
        let ob ← ob.store (hexDigits false tmp)
        ob.seekBy (2 * tmp.length)

end Board

/-! ## Boards and their digits -/

/-- A board with its cursors in order and inside its memory. -/
structure Kept extends Board where
  inv : cursors.Inv

namespace Kept

/-- The bytes from the head to the tail. -/
def window (b : Kept) : Bytes :=
  (b.mem.drop b.cursors.H.toNat).take b.cursors.size.toNat

/-- How many bytes there is room for. -/
def left (b : Kept) : Nat := (b.cursors.M - b.cursors.T).toNat

/-- The digits of a board that has bytes, printed into a new buffer, append them to a board with room
for them. -/
def Returns (b d : Kept) (capacity : Nat) : Prop :=
  b.window ≠ [] → b.window.length ≤ d.left →
    ∃ ob d', b.toHexStr (OBuffer.new capacity) = .ok ob ∧ d.fromHexStr ob.contents = .done d' ∧
      d'.read d'.cursors.size.toNat = some (d.window ++ b.window)

/-- The size of the board fits a `Data`, and the capacity of the buffer does not wrap around. -/
def Printable (b : Kept) (capacity : Nat) : Prop :=
  b.window.length < 2 ^ 32 ∧ (OBuffer.new capacity).Room (2 * b.window.length + 2)
    (2 * b.window.length + 2 - (OBuffer.new capacity).size)

/-- `c2i` does not throw for any of the characters, and they are an even number for which there is
room. -/
def Legal (d : Kept) (s : Bytes) : Prop :=
  s.length % 2 = 0 ∧ (∀ c ∈ s, Heapboard.isHex c = true) ∧ s.length / 2 ≤ d.left

/-- Any other text makes it fail, and the window stays as it is. -/
def Rejects (d : Kept) (s : Bytes) : Prop :=
  ¬ d.Legal s → d.fromHexStr s = .refused ∨
    ∃ d', d.fromHexStr s = .thrown d' ∧ d'.raw = d.raw

/-- No digit is left over; or there is no room or no memory, or some other character is in a pair. -/
def Regular (d : Kept) (s : Bytes) : Prop :=
  s.length % 2 = 0 ∨ d.left < s.length / 2 ∨ d.cursors.data = none ∨
    ∃ c ∈ s.take (2 * (s.length / 2)), Heapboard.isHex c = false

end Kept

/-! ## Pairs of digits -/

set_option maxRecDepth 8000 in
private theorem isOk_c2i (c : UInt8) : (BlobJson.c2i c).isOk = Heapboard.isHex c :=
  forall_byte (P := fun c => (BlobJson.c2i c).isOk = Heapboard.isHex c) (by decide) c

set_option maxRecDepth 8000 in
/-- A byte comes back from its two digits. -/
private theorem c2i_i2c (c : UInt8) :
    BlobJson.c2i (OBuffer.i2c (c >>> 4 &&& 0x0F) false) = .ok (c >>> 4 &&& 0x0F) ∧
      BlobJson.c2i (OBuffer.i2c (c &&& 0x0F) false) = .ok (c &&& 0x0F) ∧
        (c >>> 4 &&& 0x0F) <<< 4 ||| (c &&& 0x0F) = c :=
  forall_byte (P := fun c => BlobJson.c2i (OBuffer.i2c (c >>> 4 &&& 0x0F) false) =
    .ok (c >>> 4 &&& 0x0F) ∧ BlobJson.c2i (OBuffer.i2c (c &&& 0x0F) false) = .ok (c &&& 0x0F) ∧
      (c >>> 4 &&& 0x0F) <<< 4 ||| (c &&& 0x0F) = c) (by decide) c

/-- A byte is stored for each pair, up to one that has another character. -/
private theorem storePairs_spec (n : Nat) {s : Bytes} (h : 2 * n ≤ s.length) :
    (storePairs n s).1.length ≤ n ∧
      ((storePairs n s).2 = true → (storePairs n s).1.length = n) ∧
        ((storePairs n s).2 = true ↔ ∀ c ∈ s.take (2 * n), Heapboard.isHex c = true) := by
  induction n generalizing s with
  | zero => exact ⟨Nat.le_refl _, fun _ => rfl, iff_of_true rfl nofun⟩
  | succ n ih =>
      match s, h with
      | a :: b :: s, h =>
        obtain ⟨hle, hall, hiff⟩ := ih (s := s) (by simp only [List.length_cons] at h; omega)
        have ha := isOk_c2i a
        have hb := isOk_c2i b
        rw [show 2 * (n + 1) = 2 * n + 1 + 1 by omega, List.take_succ_cons, List.take_succ_cons,
          List.forall_mem_cons, List.forall_mem_cons, ← hiff, ← ha, ← hb, storePairs, List.headD_cons,
          List.tail_cons, List.headD_cons, List.tail_cons]
        cases BlobJson.c2i a with
        | error e => exact ⟨Nat.zero_le _, nofun, iff_of_false nofun fun h => nomatch h.1⟩
        | ok x =>
            cases BlobJson.c2i b with
            | error e => exact ⟨Nat.zero_le _, nofun, iff_of_false nofun fun h => nomatch h.2.1⟩
            | ok y =>
                refine ⟨Nat.succ_le_succ hle, fun hyes => congrArg (· + 1) (hall hyes), ?_⟩
                exact ⟨fun hyes => ⟨rfl, rfl, hyes⟩, fun hyes => hyes.2.2⟩

private theorem storePairs_hexDigits (w : Bytes) :
    storePairs w.length (hexDigits false w) = (w, true) := by
  induction w with
  | nil => rfl
  | cons c w ih =>
      obtain ⟨hhigh, hlow, hbyte⟩ := c2i_i2c c
      show storePairs (w.length + 1) (OBuffer.i2c (c >>> 4 &&& 0x0F) false ::
        OBuffer.i2c (c &&& 0x0F) false :: hexDigits false w) = _
      rw [storePairs, List.headD_cons, List.tail_cons, List.headD_cons, List.tail_cons, ih, hhigh,
        hlow]
      show (((c >>> 4 &&& 0x0F) <<< 4 ||| (c &&& 0x0F)) :: w, true) = _
      rw [hbyte]

/-! ## Reading text -/

namespace Kept

variable {b d : Kept} {s : Bytes}

private theorem ends (d : Kept) :
    d.cursors.H.toNat + d.cursors.size.toNat = d.cursors.T.toNat ∧
      d.cursors.T.toNat + d.left = d.cursors.M.toNat ∧ d.cursors.M.toNat ≤ d.mem.length := by
  have hhead := UInt64.le_iff_toNat_le.mp d.inv.head_le
  have htail := UInt64.le_iff_toNat_le.mp d.inv.tail_le
  have hfits := UInt64.le_iff_toNat_le.mp d.inv.fits
  rw [← d.allocated] at hfits
  have hsize : d.cursors.size.toNat = d.cursors.T.toNat - d.cursors.H.toNat :=
    UInt64.toNat_sub_of_le _ _ d.inv.head_le
  have hleft : d.left = d.cursors.M.toNat - d.cursors.T.toNat :=
    UInt64.toNat_sub_of_le _ _ d.inv.tail_le
  exact ⟨by omega, by omega, hfits⟩

private theorem window_length (d : Kept) : d.window.length = d.cursors.size.toNat := by
  obtain ⟨hsize, hleft, hfits⟩ := d.ends
  rw [window, List.length_take, List.length_drop]
  omega

/-- What can be read of a board: any of the bytes that are in its memory. -/
private theorem read_of_le {b : Board} {n : Nat} (h : b.cursors.H.toNat + n ≤ b.mem.length) :
    b.read n = some ((b.mem.drop b.cursors.H.toNat).take n) := by
  rw [Board.read]
  split_ifs with hn
  · rw [hn, List.take_zero]
  · rfl

/-- What is stored is behind the window. -/
private theorem stored_spec (d : Kept) {bs : Bytes} (h : bs.length ≤ d.left) :
    ∃ d', d.stored bs = some d' ∧ d'.cursors = d.cursors ∧ ∀ k ≤ bs.length,
      (d'.mem.drop d.cursors.H.toNat).take (d.cursors.size.toNat + k) =
        d.window ++ bs.take k := by
  obtain ⟨hsize, hleft, hfits⟩ := d.ends
  rw [Board.stored]
  by_cases hnil : bs = []
  · rw [if_pos hnil, hnil]
    refine ⟨d.toBoard, rfl, rfl, fun k hk => ?_⟩
    rw [Nat.le_zero.mp hk, List.take_zero, List.append_nil]
    rfl
  · rw [if_neg hnil, dif_pos (show d.cursors.T.toNat + bs.length ≤ d.mem.length by omega)]
    refine ⟨_, rfl, rfl, fun k hk => ?_⟩
    have hold : (d.mem.take d.cursors.T.toNat).length = d.cursors.T.toNat := by
      rw [List.length_take, Nat.min_eq_left (by omega)]
    show ((OBuffer.overwrite d.cursors.T.toNat bs d.mem).drop _).take _ = _
    rw [show d.cursors.size.toNat + k = d.cursors.T.toNat + k - d.cursors.H.toNat by omega,
      ← List.drop_take, OBuffer.overwrite_take (by omega) hk,
      List.drop_append_of_le_length (by omega), List.drop_take, window,
      show d.cursors.T.toNat - d.cursors.H.toNat = d.cursors.size.toNat by omega]

/-- Text for which there is no room. -/
private theorem fromHexStr_long (hs : s.length < 2 ^ 32) (h : d.left < s.length / 2) :
    d.fromHexStr s = .refused := by
  have hn : (UInt64.ofNat (s.length / 2)).toNat = s.length / 2 := by
    rw [UInt64.toNat_ofNat', Nat.mod_eq_of_lt (by omega)]
  rw [Board.fromHexStr]
  apply if_pos
  rw [UInt64.lt_iff_toNat_lt, hn]
  exact h

/-- A board without memory. -/
private theorem fromHexStr_null (hs : s.length < 2 ^ 32) (h : s.length / 2 ≤ d.left)
    (hnull : d.cursors.data = none) : d.fromHexStr s = .thrown d.toBoard := by
  have hn : (UInt64.ofNat (s.length / 2)).toNat = s.length / 2 := by
    rw [UInt64.toNat_ofNat', Nat.mod_eq_of_lt (by omega)]
  obtain ⟨-, hleft, hfits⟩ := d.ends
  have htail : d.cursors.T = 0 := by
    rw [d.allocated, Heapboard.allocated, hnull] at hfits
    apply UInt64.toNat_inj.mp
    show _ = 0
    have : (none.getD (0 : UInt64)).toNat = 0 := rfl
    omega
  rw [Board.fromHexStr, if_neg, if_pos ⟨hnull, htail⟩]
  rw [UInt64.lt_iff_toNat_lt, hn]
  exact Nat.not_lt.mpr h

/-- Pairs for which there is room: they are appended, or the window stays as it is. -/
private theorem fromHexStr_spec (hs : s.length < 2 ^ 32) (h : s.length / 2 ≤ d.left)
    (hnull : d.cursors.data ≠ none) :
    ((storePairs (s.length / 2) s).2 = false →
      ∃ d', d.fromHexStr s = .thrown d' ∧ d'.raw = d.raw) ∧
    ((storePairs (s.length / 2) s).2 = true → ∃ d', d.fromHexStr s = .done d' ∧
      d'.read d'.cursors.size.toNat = some (d.window ++ (storePairs (s.length / 2) s).1)) := by
  have hn : (UInt64.ofNat (s.length / 2)).toNat = s.length / 2 := by
    rw [UInt64.toNat_ofNat', Nat.mod_eq_of_lt (by omega)]
  obtain ⟨hsize, hleft, hfits⟩ := d.ends
  obtain ⟨hle, hall, -⟩ := storePairs_spec (s.length / 2) (s := s) (by omega)
  obtain ⟨d', hstored, hcursors, hwindow⟩ := d.stored_spec (Nat.le_trans hle h)
  have hlen : d'.mem.length = d.mem.length := by
    rw [d'.allocated, d.allocated, hcursors]
  -- the pairs are stored, and the exception is thrown behind the last good one
  have hread : d.fromHexStr s = if (storePairs (s.length / 2) s).2 then .done { d' with
      cursors := { d'.cursors with T := d'.cursors.T + UInt64.ofNat (s.length / 2) }
      allocated := d'.allocated } else .thrown d' := by
    rw [Board.fromHexStr, if_neg, if_neg fun hno => hnull hno.1]
    · simp only [hstored]
    · rw [UInt64.lt_iff_toNat_lt, hn]
      exact Nat.not_lt.mpr h
  constructor
  · intro hfail
    refine ⟨d', by rw [hread, if_neg (hfail ▸ Bool.false_ne_true)], ?_⟩
    -- the exception leaves the cursors, so that the window is the old one
    have hkept := hwindow 0 (Nat.zero_le _)
    rw [List.take_zero, List.append_nil, Nat.add_zero] at hkept
    have hdata : d.dataSize ≤ d.cursors.size.toNat := Nat.mod_le _ _
    have hsame : d'.dataSize = d.dataSize := by rw [Board.dataSize, hcursors, Board.dataSize]
    rw [Board.raw, hsame, Board.raw, read_of_le (by rw [hcursors]; omega), read_of_le (by omega),
      hcursors]
    calc some ((d'.mem.drop d.cursors.H.toNat).take d.dataSize)
        = some (((d'.mem.drop d.cursors.H.toNat).take d.cursors.size.toNat).take d.dataSize) := by
          rw [List.take_take, Nat.min_eq_left hdata]
      _ = some (d.window.take d.dataSize) := by rw [hkept]
      _ = some ((d.mem.drop d.cursors.H.toNat).take d.dataSize) := by
          rw [window, List.take_take, Nat.min_eq_left hdata]
  · intro hyes
    refine ⟨_, by rw [hread, if_pos hyes], ?_⟩
    -- the cursor of the end goes on by the pairs
    have hend : (d.cursors.T + UInt64.ofNat (s.length / 2) - d.cursors.H).toNat =
        d.cursors.size.toNat + s.length / 2 := by
      have hM := d.cursors.M.toNat_lt
      have hsum : (d.cursors.T + UInt64.ofNat (s.length / 2)).toNat =
          d.cursors.T.toNat + s.length / 2 := by
        rw [UInt64.toNat_add, hn, Nat.mod_eq_of_lt (by omega)]
      rw [UInt64.toNat_sub_of_le _ _ (UInt64.le_iff_toNat_le.mpr (by omega)), hsum]
      omega
    rw [read_of_le]
    · show some ((d'.mem.drop d'.cursors.H.toNat).take
        (d'.cursors.T + UInt64.ofNat (s.length / 2) - d'.cursors.H).toNat) = _
      rw [hcursors, hend, hwindow _ (Nat.le_of_eq (hall hyes).symm), List.take_of_length_le]
      exact Nat.le_of_eq (hall hyes)
    · show d'.cursors.H.toNat +
        (d'.cursors.T + UInt64.ofNat (s.length / 2) - d'.cursors.H).toNat ≤ d'.mem.length
      rw [hcursors, hend, hlen]
      omega

/-! ## Printing -/

private theorem new_offset (capacity : Nat) : (OBuffer.new capacity).offset = 0 := by
  rw [OBuffer.new]
  split_ifs <;> rfl

/-- In a new buffer with room for them the digits are printed; else nothing is. -/
private theorem toHexStr_spec (b : Kept) (capacity : Nat) {tmp : Bytes} (hraw : b.raw = some tmp) :
    ((OBuffer.new capacity).Room (2 * tmp.length + 2)
        (2 * tmp.length + 2 - (OBuffer.new capacity).size) →
      2 * tmp.length < 2 ^ 32 ∧
        ∃ ob, b.toHexStr (OBuffer.new capacity) = .ok ob ∧ ob.contents = hexDigits false tmp) ∧
    (¬ (OBuffer.new capacity).Room (2 * tmp.length + 2)
        (2 * tmp.length + 2 - (OBuffer.new capacity).size) →
      ∀ ob, b.toHexStr (OBuffer.new capacity) = .ok ob → ob.contents = []) := by
  obtain ⟨hshaped, hinside⟩ := OBuffer.new_shaped capacity
  have hzero := new_offset capacity
  generalize OBuffer.new capacity = ob₀ at *
  obtain ⟨he, -, hmem⟩ := OBuffer.reserve_spec hshaped hinside (2 * tmp.length + 2)
  have hoffset : (ob₀.reserve (2 * tmp.length + 2)).offset = 0 := he.offset.trans hzero
  have hremaining : (ob₀.reserve (2 * tmp.length + 2)).remaining =
      (ob₀.reserve (2 * tmp.length + 2)).size := by
    rw [OBuffer.remaining_eq he.shaped (by rw [hoffset]; exact Nat.zero_le _), hoffset, Nat.sub_zero]
  obtain ⟨hroomy, hwrapped⟩ := OBuffer.reserve_empty hshaped hzero (n := 2 * tmp.length + 2)
    (Nat.succ_ne_zero _)
  rw [Board.toHexStr, hraw]
  dsimp only
  rw [hremaining]
  constructor
  · intro hroom
    -- there is room, so that the digits are stored at the beginning
    have hfits := hroomy hroom
    have hbelow : (ob₀.reserve (2 * tmp.length + 2)).size < 2 ^ 32 := he.shaped.wide
    refine ⟨by omega, ?_⟩
    rw [if_neg (by omega)]
    have hdigits := OBuffer.hexDigits_length false tmp
    obtain ⟨ob, hstore, -, hobsize, hoboffset, htake⟩ := OBuffer.store_ok he
      (fun _ => hmem (Nat.succ_ne_zero _)) (by rw [hzero]; exact Nat.zero_le _)
      (show ob₀.offset + (hexDigits false tmp).length ≤ _ by rw [hdigits, hzero]; omega)
    rw [hstore, Except.bind_of_ok]
    rw [hzero] at hoboffset htake
    refine ⟨_, OBuffer.seekBy_of_lt (by rw [hoboffset, hobsize]; omega), ?_⟩
    have hcontents := htake (2 * tmp.length) (Nat.le_of_eq hdigits.symm)
    rw [OBuffer.contents, hzero, List.take_zero, List.nil_append,
      List.take_of_length_le (Nat.le_of_eq hdigits)] at hcontents
    show (ob.mem.getD []).take (ob.offset + 2 * tmp.length) = _
    rw [hoboffset]
    exact hcontents
  · -- the capacity has wrapped around, to less than what should be printed
    intro hno ob hob
    have hsmall : (ob₀.reserve (2 * tmp.length + 2)).size < 2 * tmp.length := by
      have := hwrapped hno
      omega
    rw [if_pos hsmall, OBuffer.seekBy, OBuffer.seek, OBuffer.bseek] at hob
    split_ifs at hob
    · cases hob
      show List.take ((ob₀.reserve (2 * tmp.length + 2)).offset + 0) _ = []
      rw [hoffset]
      rfl

/-! ## Which boards and texts -/

/-- Digits are read as the bytes that they are printed from. -/
private theorem fromHexStr_hexDigits {w : Bytes} (hlen : 2 * w.length < 2 ^ 32)
    (h : w.length ≤ d.left) (hnull : d.cursors.data ≠ none) :
    ∃ d', d.fromHexStr (hexDigits false w) = .done d' ∧
      d'.read d'.cursors.size.toNat = some (d.window ++ w) := by
  have hdigits : (hexDigits false w).length = 2 * w.length := OBuffer.hexDigits_length false w
  have hhalf : (hexDigits false w).length / 2 = w.length := by omega
  have hpairs := storePairs_hexDigits w
  obtain ⟨-, hdone⟩ := fromHexStr_spec (d := d) (hdigits ▸ hlen) (hhalf ▸ h) hnull
  rw [hhalf, hpairs] at hdone
  exact hdone rfl

private theorem left_pos (h : 0 < d.left) : d.cursors.data ≠ none := by
  intro hnull
  obtain ⟨-, hleft, hfits⟩ := d.ends
  rw [d.allocated, Heapboard.allocated, hnull] at hfits
  have : (none.getD (0 : UInt64)).toNat = 0 := rfl
  omega

private theorem returns_iff (b d : Kept) (capacity : Nat) : b.Returns d capacity ↔
    (b.window ≠ [] → b.window.length ≤ d.left → b.Printable capacity) := by
  obtain ⟨hsize, hleft, hfits⟩ := b.ends
  -- the size of the data is cut to 32 bits
  have hdata : b.dataSize ≤ b.cursors.size.toNat := Nat.mod_le _ _
  have hraw : b.raw = some (b.window.take b.dataSize) := by
    rw [Board.raw, read_of_le (by omega), window, List.take_take, Nat.min_eq_left hdata]
  have htmp : (b.window.take b.dataSize).length = b.dataSize := by
    rw [List.length_take, b.window_length, Nat.min_eq_left hdata]
  obtain ⟨hprinted, hnothing⟩ := toHexStr_spec b capacity hraw
  rw [htmp] at hprinted hnothing
  refine forall_congr' fun hne => forall_congr' fun hin => ?_
  have hpos : 0 < b.window.length := List.length_pos_iff.mpr hne
  have hnull : d.cursors.data ≠ none := left_pos (Nat.lt_of_lt_of_le hpos hin)
  have hshort : b.dataSize ≤ d.left := by
    rw [b.window_length] at hin
    exact Nat.le_trans hdata hin
  rw [Printable]
  by_cases hroom : (OBuffer.new capacity).Room (2 * b.dataSize + 2)
      (2 * b.dataSize + 2 - (OBuffer.new capacity).size)
  · obtain ⟨hlen, ob, hob, hcontents⟩ := hprinted hroom
    obtain ⟨d', hd', hread⟩ := fromHexStr_hexDigits (w := b.window.take b.dataSize)
      (by rw [htmp]; exact hlen) (by rw [htmp]; exact hshort) hnull
    constructor
    · rintro ⟨ob₁, d₁, hob₁, hd₁, hread₁⟩
      cases hob.symm.trans hob₁
      rw [hcontents, hd'] at hd₁
      cases hd₁
      have happended := List.append_cancel_left (Option.some.inj (hread.symm.trans hread₁))
      -- what came back is as long as what was printed
      have hsame := congrArg List.length happended
      rw [htmp] at hsame
      rw [← hsame]
      exact ⟨Nat.mod_lt _ (by decide), hroom⟩
    · rintro ⟨hwide, -⟩
      rw [b.window_length] at hwide
      have hall : b.window.take b.dataSize = b.window := by
        rw [Board.dataSize, Nat.mod_eq_of_lt hwide, ← b.window_length, List.take_length]
      rw [hall] at hread
      exact ⟨ob, d', hob, hcontents ▸ hd', hread⟩
  · constructor
    · rintro ⟨ob, d₁, hob, hd₁, hread₁⟩
      obtain ⟨d', hd', hread⟩ := fromHexStr_hexDigits (w := []) (by decide) (Nat.zero_le _) hnull
      rw [hnothing hroom ob hob, show ([] : Bytes) = hexDigits false [] from rfl, hd'] at hd₁
      cases hd₁
      exact absurd (List.append_cancel_left (Option.some.inj (hread.symm.trans hread₁))).symm hne
    · rintro ⟨hwide, hyes⟩
      rw [b.window_length] at hwide hyes
      rw [Board.dataSize, Nat.mod_eq_of_lt hwide] at hroom
      exact absurd hyes hroom

private theorem rejects_iff (d : Kept) (hs : s.length < 2 ^ 32) : d.Rejects s ↔ d.Regular s := by
  rw [Rejects, Regular]
  by_cases hlong : d.left < s.length / 2
  · exact iff_of_true (fun _ => .inl (fromHexStr_long hs hlong)) (.inr (.inl hlong))
  have hfits := Nat.le_of_not_lt hlong
  by_cases hnull : d.cursors.data = none
  · exact iff_of_true (fun _ => .inr ⟨_, fromHexStr_null hs hfits hnull, rfl⟩)
      (.inr (.inr (.inl hnull)))
  obtain ⟨hthrown, hdone⟩ := fromHexStr_spec hs hfits hnull
  obtain ⟨-, -, hpairs⟩ := storePairs_spec (s.length / 2) (s := s) (by omega)
  cases hok : (storePairs (s.length / 2) s).2 with
  | false =>
      refine iff_of_true (fun _ => .inr (hthrown hok)) (.inr (.inr (.inr ?_)))
      rw [hok] at hpairs
      have hother := mt hpairs.mpr Bool.false_ne_true
      obtain ⟨c, hc, hhex⟩ := not_forall₂.mp hother
      exact ⟨c, hc, Bool.eq_false_iff.mpr hhex⟩
  | true =>
      have hhex := hpairs.mp hok
      have hregular : (s.length % 2 = 0 ∨ d.left < s.length / 2 ∨ d.cursors.data = none ∨
          ∃ c ∈ s.take (2 * (s.length / 2)), Heapboard.isHex c = false) ↔ s.length % 2 = 0 := by
        refine or_iff_left ?_
        rintro (hno | hno | ⟨c, hc, hno⟩)
        · exact hlong hno
        · exact hnull hno
        · exact Bool.false_ne_true (hno.symm.trans (hhex c hc))
      rw [hregular]
      obtain ⟨d', hd', -⟩ := hdone hok
      rw [hd']
      constructor
      · intro hrejects
        by_contra hodd
        rcases hrejects fun hlegal => hodd hlegal.1 with hno | ⟨d₁, hno, -⟩
        · nomatch hno
        · nomatch hno
      · intro heven hillegal
        rw [show 2 * (s.length / 2) = s.length by omega, List.take_length] at hhex
        exact absurd ⟨heven, hhex, hfits⟩ hillegal

/-- **The bytes of a board come back from their digits exactly when their number fits a `Data` and the
capacity of the buffer does not wrap around; and what is no text of a board is refused exactly when
there is no digit left over, or something else is wrong with it.** -/
theorem hexStr_iff (b d : Kept) (capacity : Nat) (s : Suil.Sized (2 ^ 32)) :
    (b.Returns d capacity ↔
      (b.window ≠ [] → b.window.length ≤ d.left → b.Printable capacity)) ∧
    (d.Rejects s.bytes ↔ d.Regular s.bytes) :=
  ⟨returns_iff b d capacity, rejects_iff d s.bound⟩

/-- Three digits are taken for a byte. -/
theorem not_rejects_odd : ¬ ∀ (b d : Kept) (capacity : Nat) (s : Suil.Sized (2 ^ 32)),
    b.Returns d capacity ∧ d.Rejects s.bytes := by
  intro h
  let d : Kept := ⟨Board.new 8, Heapboard.new_inv 8⟩
  have hrejects := (h d d 0 ⟨str "abc", by decide⟩).2
  have hfits : (str "abc").length / 2 ≤ d.left := by decide
  obtain ⟨-, hdone⟩ := fromHexStr_spec (d := d) (s := str "abc") (by decide) hfits nofun
  obtain ⟨d', hd', -⟩ := hdone rfl
  rcases hrejects fun hlegal => nomatch hlegal.1 with hno | ⟨d₁, hno, -⟩
  · nomatch hd'.symm.trans hno
  · nomatch hd'.symm.trans hno

end Kept

end Suil.Wire
