import Suil.Basic.BufferRoom
import Suil.Basic.Filled
import Suil.Http.FileCache

set_option autoImplicit false

/-! # Reading files

`utils::fs::readall` (`file.cpp`) and `FileServer::read_file` (`fserver.cpp`) read until they have as
many bytes as `stat` has said. What `read` gives, and what is left of the file by then, is up to the
system: it is a sequence of results here. `reading_iff` says for which sequences the loops come to
an end. -/

namespace Suil.Reading

open OBuffer (UINT32 overwrite)

/-! ## `read_file` and `readall` -/

/-- How a file is not read: by an exception or the result `false`, and by an access outside of the
memory there is. -/
inductive Fault where
  | noFile
  | stat
  | tooLarge
  | opening
  | mapping
  | reading
  | outOfRange
  | overrun
  deriving DecidableEq, Repr

/-- The results of one `read` after the other: an error, or bytes, of which it is given no more than
it asks for. -/
abbrev Reads : Type := Nat → Option Bytes

/-- The loop, from the `i`-th read on, with what has been counted and the memory that is read into.
It may need more rounds than there are. -/
def readLoop (reads : Reads) (toread : Nat) :
    Nat → Nat → Nat → Bytes → Option (Except Fault (Nat × Bytes))
  | 0, _, _, _ => none
  | rounds + 1, i, nread, mem =>
      match reads i with
      | none => some (.error .reading)
      | some bs =>
          let got := bs.take (toread - nread)
          if mem.length < nread + got.length then some (.error .overrun)
          else if nread + got.length < toread then
            readLoop reads toread rounds (i + 1) (nread + got.length) (overwrite nread got mem)
          else some (.ok (nread + got.length, overwrite nread got mem))

/-- What `read_file` gets: the descriptor, the size that `stat` gave, and the pages if the file is
mapped. -/
structure Opened where
  fd : Int
  st_size : Nat
  mapped_min : Nat
  pages : Option Bytes
  reads : Reads

/-- The data of a `cached_file_t`. -/
inductive Loaded where
  | mapped (data : Bytes)
  | heap (data : Bytes)
  deriving DecidableEq, Repr

/-- The buffer for a file that is not mapped. -/
def Opened.buffer (f : Opened) : OBuffer := OBuffer.new ((f.st_size % UINT32 + 8) % UINT32)

/-- What `read_file` does behind the loop: the buffer is released with a NUL at its offset. -/
def Opened.release (f : Opened) (mem : Bytes) : Except Fault Loaded :=
  match f.buffer.bseek f.st_size with
  | .error _ => .error .outOfRange
  | .ok _ => .ok (.heap (mem.set f.st_size NUL))

/-- `FileServer::read_file`. -/
def read_file (f : Opened) (rounds : Nat) : Option (Except Fault Loaded) :=
  if f.fd < 0 then some (.error .opening)
  else if f.mapped_min ≤ f.st_size then
    match f.pages with
    | none => some (.error .mapping)
    | some data => some (.ok (.mapped data))
  else
    (readLoop f.reads f.st_size rounds 0 0 (f.buffer.mem.getD [])).map fun r => do
      let (_, mem) ← r
      f.release mem

/-- What `readall` finds out about a path. -/
structure Found where
  present : Bool
  stat : Option Nat
  opened : Bool
  reads : Reads

/-- What `readall(out, path)` does behind the loop, which has read to the start of the memory. -/
def seekTo (out : OBuffer) (nread : Nat) (mem : Bytes) : Except Fault OBuffer :=
  match OBuffer.seek { out with mem := out.mem.map fun _ => mem } nread with
  | .error _ => .error .outOfRange
  | .ok out => .ok out

/-- `readall(out, path)`. -/
def readallInto (out : OBuffer) (f : Found) (rounds : Nat) : Option (Except Fault OBuffer) :=
  if !f.present then some (.error .noFile)
  else
    match f.stat with
    | none => some (.error .stat)
    | some st_size =>
        if 1048576 < st_size then some (.error .tooLarge)
        else if !f.opened then some (.error .opening)
        else
          let out := out.reserve (st_size + 4)
          (readLoop f.reads st_size rounds 0 0 (out.mem.getD [])).map fun r => do
            let (nread, mem) ← r
            seekTo out nread mem

/-- `readall(path)`. -/
def readall (f : Found) (rounds : Nat) : Option (Except Fault Str) :=
  (readallInto (OBuffer.new 512) f rounds).map fun r => r.map OBuffer.toStr

/-! ## What the reads have given -/

/-- What the first reads have given. -/
def delivered (reads : Reads) (toread : Nat) : Nat → Bytes
  | 0 => []
  | i + 1 =>
      delivered reads toread i ++
        ((reads i).getD []).take (toread - (delivered reads toread i).length)

/-- A result is an error, or what it has got is what was read. -/
def Fine {α : Type} (got : α → Bytes → Prop) (reads : Reads) (toread : Nat) :
    Except Fault α → Prop
  | .error e => e ≠ .overrun
  | .ok v => ∃ n, got v (delivered reads toread n)

/-- A function comes to an end, and if it succeeds, what it has got is what was read. -/
def Ends {α : Type} (run : Nat → Option (Except Fault α)) (got : α → Bytes → Prop) (reads : Reads)
    (toread : Nat) : Prop :=
  ∃ rounds r, run rounds = some r ∧ Fine got reads toread r

/-- `read_file` reads the file; a file that is mapped is not read. -/
def Opened.Ends (f : Opened) : Prop :=
  Reading.Ends (read_file f) (fun v data =>
    match v with
    | .mapped _ => True
    | .heap mem => mem.take f.st_size = data) f.reads f.st_size

/-- `readall(path)` reads the file. -/
def Found.Ends (f : Found) : Prop :=
  Reading.Ends (readall f) (fun s data => s.bytes = data) f.reads (f.stat.getD 0)

/-- `readall(out, path)` reads the file. -/
def Found.EndsInto (f : Found) (out : OBuffer) : Prop :=
  Reading.Ends (readallInto out f) (fun b data => b.contents = data) f.reads (f.stat.getD 0)

/-- The loop comes to an end, in memory of that size: some read fails, or there are as many bytes as
were asked for. -/
def Finite (reads : Reads) (toread room : Nat) : Prop :=
  ∃ n, (reads n = none ∨ (delivered reads toread (n + 1)).length = toread) ∧
    (delivered reads toread (n + 1)).length ≤ room

/-- No read fails until there are as many bytes as were asked for. -/
def Complete (reads : Reads) (toread : Nat) : Prop :=
  ∃ n, (∀ i ≤ n, reads i ≠ none) ∧ (delivered reads toread (n + 1)).length = toread

/-! ## The loop -/

section

variable {reads : Reads} {toread : Nat}

theorem delivered_length_le (i : Nat) : (delivered reads toread i).length ≤ toread := by
  induction i with
  | zero => exact Nat.zero_le _
  | succ i ih =>
      rw [delivered, List.length_append, List.length_take]
      omega

theorem delivered_mono {i j : Nat} (h : i ≤ j) :
    (delivered reads toread i).length ≤ (delivered reads toread j).length := by
  induction h with
  | refl => exact Nat.le_refl _
  | step _ ih =>
      rw [delivered, List.length_append]
      omega

theorem delivered_of_none {i : Nat} (h : reads i = none) :
    delivered reads toread (i + 1) = delivered reads toread i := by
  rw [delivered, h, Option.getD_none, List.take_nil, List.append_nil]

/-- What the memory has in it in front of the `i`-th read. -/
structure Filled (reads : Reads) (toread i nread : Nat) (mem : Bytes) : Prop where
  nread_eq : nread = (delivered reads toread i).length
  le_length : nread ≤ mem.length
  take_eq : mem.take nread = delivered reads toread i

/-- One more read. -/
theorem Filled.next {i nread : Nat} {mem bs : Bytes} (h : Filled reads toread i nread mem)
    (hread : reads i = some bs) :
    nread + (bs.take (toread - nread)).length = (delivered reads toread (i + 1)).length ∧
      (nread + (bs.take (toread - nread)).length ≤ mem.length →
        Filled reads toread (i + 1) (nread + (bs.take (toread - nread)).length)
          (overwrite nread (bs.take (toread - nread)) mem)) := by
  have hnext : delivered reads toread (i + 1) =
      delivered reads toread i ++ bs.take (toread - nread) := by
    rw [delivered, hread, Option.getD_some, ← h.nread_eq]
  have hlength : nread + (bs.take (toread - nread)).length =
      (delivered reads toread (i + 1)).length := by
    rw [hnext, List.length_append, ← h.nread_eq]
  refine ⟨hlength, fun hfits => ⟨hlength, ?_, ?_⟩⟩
  · rw [OBuffer.overwrite_length hfits]
    exact hfits
  · rw [OBuffer.overwrite_take h.le_length (Nat.le_refl _), h.take_eq, List.take_length, hnext]

/-- The loop goes on behind the reads in front of the `i`-th. -/
def Going (reads : Reads) (toread i : Nat) : Prop :=
  ∀ j < i, reads j ≠ none ∧ (delivered reads toread (j + 1)).length < toread

/-- **How the loop ends**: with an error, with more bytes than there is room for, or with all bytes
in the memory. -/
theorem readLoop_result {rounds i nread : Nat} {mem : Bytes} {r : Except Fault (Nat × Bytes)}
    (hgoing : Going reads toread i) (hmem : Filled reads toread i nread mem)
    (h : readLoop reads toread rounds i nread mem = some r) :
    ∃ n, Going reads toread n ∧
      ((reads n = none ∧ (delivered reads toread (n + 1)).length ≤ mem.length ∧
          r = .error .reading) ∨
        (mem.length < (delivered reads toread (n + 1)).length ∧ r = .error .overrun) ∨
        (reads n ≠ none ∧ (delivered reads toread (n + 1)).length = toread ∧ toread ≤ mem.length ∧
          ∃ mem', r = .ok (toread, mem') ∧ mem'.length = mem.length ∧
            mem'.take toread = delivered reads toread (n + 1))) := by
  -- on the rounds; the memory holds what the reads have delivered
  induction rounds generalizing i nread mem with
  | zero => nomatch h
  | succ rounds ih =>
      rw [readLoop] at h
      cases hread : reads i with
      | none =>
          rw [hread] at h
          have hle : (delivered reads toread (i + 1)).length ≤ mem.length := by
            rw [delivered_of_none hread, ← hmem.nread_eq]
            exact hmem.le_length
          exact ⟨i, hgoing, .inl ⟨hread, hle, (Option.some.inj h).symm⟩⟩
      | some bs =>
          rw [hread] at h
          dsimp only at h
          obtain ⟨hlength, hnext⟩ := hmem.next hread
          have hsome : reads i ≠ none := by
            rw [hread]
            nofun
          -- no room for the bytes, more to read, or all of them
          split_ifs at h with hover hmore
          · exact ⟨i, hgoing, .inr (.inl ⟨hlength ▸ hover, (Option.some.inj h).symm⟩)⟩
          · have hfits := Nat.le_of_not_lt hover
            have hgoing' : Going reads toread (i + 1) := by
              intro j hj
              rcases Nat.lt_succ_iff_lt_or_eq.mp hj with hlt | rfl
              · exact hgoing j hlt
              · exact ⟨hsome, hlength ▸ hmore⟩
            have hrest := ih hgoing' (hnext hfits) h
            rw [OBuffer.overwrite_length hfits] at hrest
            exact hrest
          · have hfits := Nat.le_of_not_lt hover
            have hall : (delivered reads toread (i + 1)).length = toread :=
              Nat.le_antisymm (delivered_length_le _) (hlength ▸ Nat.le_of_not_lt hmore)
            have htake := (hnext hfits).take_eq
            rw [hlength, hall] at h htake hfits
            exact ⟨i, hgoing, .inr (.inr ⟨hsome, hall, hfits, _, (Option.some.inj h).symm,
              OBuffer.overwrite_length (by rw [hlength, hall]; exact hfits), htake⟩)⟩

/-- It needs no more rounds than there are reads up to the one it ends with. -/
theorem readLoop_ends {n : Nat}
    (hend : reads n = none ∨ (delivered reads toread (n + 1)).length = toread) {k i nread : Nat}
    {mem : Bytes} (hk : i + k = n) (hmem : Filled reads toread i nread mem) :
    ∃ r, readLoop reads toread (k + 1) i nread mem = some r := by
  induction k generalizing i nread mem with
  | zero =>
      obtain rfl : i = n := hk
      rw [readLoop]
      cases hread : reads i with
      | none => exact ⟨_, rfl⟩
      | some bs =>
          obtain ⟨hlength, -⟩ := hmem.next hread
          have hall := hend.resolve_left (by rw [hread]; nofun)
          dsimp only
          rw [hlength, hall, if_neg (Nat.lt_irrefl toread)]
          split_ifs
          · exact ⟨_, rfl⟩
          · exact ⟨_, rfl⟩
  | succ k ih =>
      rw [readLoop]
      cases hread : reads i with
      | none => exact ⟨_, rfl⟩
      | some bs =>
          dsimp only
          split_ifs with hover
          · exact ⟨_, rfl⟩
          · exact ih (by omega) ((hmem.next hread).2 (Nat.le_of_not_lt hover))
          · exact ⟨_, rfl⟩

theorem filled_zero (mem : Bytes) : Filled reads toread 0 0 mem := ⟨rfl, Nat.zero_le _, rfl⟩

theorem going_zero : Going reads toread 0 := fun _ hj => absurd hj (Nat.not_lt_zero _)

/-- A loop that is going on has not come to an end. -/
theorem Going.le {n m : Nat} (hgoing : Going reads toread n)
    (hend : reads m = none ∨ (delivered reads toread (m + 1)).length = toread) : n ≤ m := by
  by_contra hlt
  obtain ⟨hsome, hless⟩ := hgoing m (Nat.lt_of_not_le hlt)
  exact hend.elim hsome (Nat.ne_of_lt hless)

/-- **Where there is an end, the loop comes to it**: with an error, or with all bytes. -/
theorem readLoop_finite {mem : Bytes} (h : Finite reads toread mem.length) :
    ∃ rounds r, readLoop reads toread rounds 0 0 mem = some r ∧
      ((r = .error .reading ∧ ¬ Complete reads toread) ∨
        (toread ≤ mem.length ∧ Complete reads toread ∧ ∃ n mem', r = .ok (toread, mem') ∧
          mem'.length = mem.length ∧ mem'.take toread = delivered reads toread n)) := by
  obtain ⟨m, hend, hroom⟩ := h
  obtain ⟨r, hr⟩ := readLoop_ends hend (Nat.zero_add m) (filled_zero mem)
  refine ⟨m + 1, r, hr, ?_⟩
  obtain ⟨n, hgoing, hresult⟩ := readLoop_result going_zero (filled_zero mem) hr
  rcases hresult with ⟨hnone, -, rfl⟩ | ⟨hover, -⟩ | ⟨hsome, hall, hfits, mem', rfl, hmem⟩
  · refine .inl ⟨rfl, ?_⟩
    rintro ⟨l, hl, hlength⟩
    exact hl n (hgoing.le (.inr hlength)) hnone
  · have hmono : (delivered reads toread (n + 1)).length ≤ (delivered reads toread (m + 1)).length :=
      delivered_mono (Nat.succ_le_succ (hgoing.le hend))
    omega
  · refine .inr ⟨hfits, ⟨n, ?_, hall⟩, n + 1, mem', rfl, hmem⟩
    intro i hi
    rcases Nat.lt_or_eq_of_le hi with hlt | rfl
    · exact (hgoing i hlt).1
    · exact hsome

/-- Where the loop ends without leaving the memory, there is an end. -/
theorem finite_of_readLoop {mem : Bytes} {rounds : Nat} {r : Except Fault (Nat × Bytes)}
    (h : readLoop reads toread rounds 0 0 mem = some r) (hr : r ≠ .error .overrun) :
    Finite reads toread mem.length := by
  obtain ⟨n, -, hresult⟩ := readLoop_result going_zero (filled_zero mem) h
  rcases hresult with ⟨hnone, hle, -⟩ | ⟨-, hover⟩ | ⟨-, hall, hfits, -⟩
  · exact ⟨n, .inl hnone, hle⟩
  · exact (hr hover).elim
  · exact ⟨n, .inr hall, by rw [hall]; exact hfits⟩

/-- Where there is room for all bytes, only the reads decide. -/
theorem finite_iff_of_le {room : Nat} (h : toread ≤ room) : Finite reads toread room ↔
    ∃ n, reads n = none ∨ (delivered reads toread (n + 1)).length = toread :=
  exists_congr fun _ => and_iff_left (Nat.le_trans (delivered_length_le _) h)

end

/-! ## The functions -/

/-- A function that is the loop and what is done behind it. -/
theorem ends_iff_of_loop {α : Type} {run : Nat → Option (Except Fault α)} {got : α → Bytes → Prop}
    {reads : Reads} {toread : Nat} {mem : Bytes} {finish : Nat × Bytes → Except Fault α} {C : Prop}
    (hrun : ∀ rounds, run rounds =
      (readLoop reads toread rounds 0 0 mem).map fun r => r.bind finish)
    (hfinish : ∀ mem', mem'.length = mem.length →
      (∃ n, mem'.take toread = delivered reads toread n) → toread ≤ mem.length →
        (Fine got reads toread (finish (toread, mem')) ↔ C)) :
    Ends run got reads toread ↔
      Finite reads toread mem.length ∧ (Complete reads toread → C) := by
  constructor
  · rintro ⟨rounds, r, hr, hfine⟩
    rw [hrun, Option.map_eq_some_iff] at hr
    obtain ⟨r₀, hloop, rfl⟩ := hr
    have hfinite : Finite reads toread mem.length := by
      apply finite_of_readLoop hloop
      rintro rfl
      exact hfine rfl
    refine ⟨hfinite, fun hcomplete => ?_⟩
    obtain ⟨n, hgoing, hresult⟩ := readLoop_result going_zero (filled_zero mem) hloop
    rcases hresult with ⟨hnone, -⟩ | ⟨-, rfl⟩ | ⟨-, -, hfits, mem', rfl, hlength, htake⟩
    · obtain ⟨l, hl, hall⟩ := hcomplete
      exact (hl n (hgoing.le (.inr hall)) hnone).elim
    · exact (hfine rfl).elim
    · exact (hfinish mem' hlength ⟨n + 1, htake⟩ hfits).mp hfine
  · rintro ⟨hfinite, hC⟩
    obtain ⟨rounds, r, hloop, hresult⟩ := readLoop_finite hfinite
    refine ⟨rounds, _, by rw [hrun, hloop, Option.map_some], ?_⟩
    rcases hresult with ⟨rfl, -⟩ | ⟨hfits, hcomplete, n, mem', rfl, hlength, htake⟩
    · exact nofun
    · exact (hfinish mem' hlength ⟨n, htake⟩ hfits).mpr (hC hcomplete)

theorem opened_ends_iff (f : Opened) : f.Ends ↔ f.fd < 0 ∨ f.mapped_min ≤ f.st_size ∨
    Finite f.reads f.st_size (f.buffer.mem.getD []).length := by
  by_cases hfd : f.fd < 0
  · exact iff_of_true ⟨0, .error .opening, if_pos hfd, nofun⟩ (.inl hfd)
  by_cases hmin : f.mapped_min ≤ f.st_size
  · refine iff_of_true ?_ (.inr (.inl hmin))
    cases hpages : f.pages with
    | none => exact ⟨0, .error .mapping, by rw [read_file, if_neg hfd, if_pos hmin, hpages], nofun⟩
    | some data =>
        exact ⟨0, .ok (.mapped data), by rw [read_file, if_neg hfd, if_pos hmin, hpages], 0, trivial⟩
  rw [or_iff_right hfd, or_iff_right hmin, Opened.Ends]
  refine (@ends_iff_of_loop _ _ _ _ _ _ (fun p => f.release p.2) True ?_ ?_).trans
    (and_iff_left fun _ => trivial)
  · intro rounds
    rw [read_file, if_neg hfd, if_neg hmin]
    rfl
  · rintro mem - ⟨n, htake⟩ -
    refine iff_of_true ?_ trivial
    rw [Opened.release]
    cases f.buffer.bseek f.st_size with
    | error e => exact nofun
    | ok b => exact ⟨n, by dsimp only; rw [List.take_set_of_le (Nat.le_refl _), htake]⟩

/-- The buffer of `read_file` is large enough, unless its size does not fit 32 bits. -/
theorem le_room (f : Opened) (h : f.st_size < UINT32 - 15) :
    f.st_size ≤ (f.buffer.mem.getD []).length ∧ f.st_size < f.buffer.size := by
  have hlt : (f.st_size % UINT32 + 8) % UINT32 = f.st_size + 8 := by
    unfold UINT32 at *
    omega
  obtain ⟨hle, hup⟩ := OBuffer.roundUp_lt (f.st_size + 8)
  obtain ⟨hsize, -, hmem⟩ := OBuffer.new_spec (n := f.st_size + 8) (by unfold UINT32 at *; omega)
  rw [Opened.buffer, hlt, hmem, hsize, if_neg (Nat.succ_ne_zero _)]
  unfold UINT32 at *
  omega

/-- Where the first read gives the whole file, it is what the file server answers from. -/
theorem read_file_whole (srv : Http.FileServer) (st : Http.File) {f : Opened}
    (hf : f = ⟨0, st.content.length, srv.mapped_min, none, fun _ => some st.content⟩)
    (hmin : st.content.length < srv.mapped_min) (hlt : st.content.length < UINT32 - 15) :
    ∃ cf mem, srv.read_file st = .ok cf ∧ read_file f 1 = some (.ok (.heap mem)) ∧
      mem.take st.content.length = cf.content := by
  have hsize : f.st_size = st.content.length := by rw [hf]
  obtain ⟨hroom, hcapacity⟩ := le_room f (hsize ▸ hlt)
  rw [hsize] at hroom hcapacity
  have hsmall : ¬ (st.content.length % 2 ^ 32 + 8) % 2 ^ 32 < st.content.length := by
    unfold UINT32 at *
    omega
  have hserver : srv.read_file st = .ok (Http.FileServer.buffered st 8) := by
    rw [Http.FileServer.read_file, if_neg (Nat.not_le.mpr hmin), if_neg hsmall]
  have hloop : readLoop f.reads f.st_size 1 0 0 (f.buffer.mem.getD []) =
      some (.ok (st.content.length, overwrite 0 st.content (f.buffer.mem.getD []))) := by
    rw [hsize]
    generalize f.buffer.mem.getD [] = mem at hroom
    rw [readLoop, hf]
    dsimp only
    rw [Nat.sub_zero, List.take_length, Nat.zero_add, if_neg (Nat.not_lt.mpr hroom),
      if_neg (Nat.lt_irrefl _)]
  have hseek : f.buffer.bseek st.content.length =
      .ok { f.buffer with offset := st.content.length } := if_pos hcapacity
  have hfd : ¬ f.fd < 0 := by
    rw [hf]
    exact Int.lt_irrefl 0
  have hunmapped : ¬ f.mapped_min ≤ f.st_size := by
    rw [hf]
    exact Nat.not_le.mpr hmin
  refine ⟨_, (overwrite 0 st.content (f.buffer.mem.getD [])).set st.content.length NUL, hserver, ?_, ?_⟩
  · rw [read_file, if_neg hfd, if_neg hunmapped, hloop]
    show some (f.release _) = _
    rw [Opened.release, hsize, hseek]
  · rw [List.take_set_of_le (Nat.le_refl _), overwrite, List.take_zero, List.nil_append,
      List.take_left]
    rfl

/-- The file can be opened and is not too large. -/
structure Found.Opens (f : Found) (st_size : Nat) : Prop where
  present : f.present = true
  stat : f.stat = some st_size
  small : st_size ≤ 1048576
  opened : f.opened = true

/-- A path that cannot be read is refused at once. -/
theorem readallInto_refused (out : OBuffer) {f : Found} (h : ∀ st_size, ¬ f.Opens st_size) :
    ∃ e, e ≠ .overrun ∧ readallInto out f 0 = some (.error e) := by
  rw [readallInto]
  cases hpresent : f.present with
  | false => exact ⟨.noFile, nofun, rfl⟩
  | true =>
      cases hstat : f.stat with
      | none => exact ⟨.stat, nofun, rfl⟩
      | some st_size =>
          by_cases hlarge : 1048576 < st_size
          · exact ⟨.tooLarge, nofun, if_pos hlarge⟩
          · cases hopened : f.opened with
            | false => exact ⟨.opening, nofun, if_neg hlarge⟩
            | true => exact (h st_size ⟨hpresent, hstat, Nat.le_of_not_lt hlarge, hopened⟩).elim

theorem readallInto_eq (out : OBuffer) {f : Found} {st_size : Nat} (h : f.Opens st_size)
    (rounds : Nat) : readallInto out f rounds =
      (readLoop f.reads st_size rounds 0 0 ((out.reserve (st_size + 4)).mem.getD [])).map
        fun r => r.bind fun p => seekTo (out.reserve (st_size + 4)) p.1 p.2 := by
  have hsmall := Nat.not_lt.mpr h.small
  simp only [readallInto, h.present, h.stat, h.opened, Bool.not_true, Bool.false_eq_true, if_false,
    if_neg hsmall]
  rfl

/-- What has been read to the start of a buffer is its contents when there was nothing in it. -/
theorem fine_seekTo_iff {b : OBuffer} (hb : b.Shaped) {reads : Reads} {st_size n : Nat} {mem : Bytes}
    (hlength : mem.length = (b.mem.getD []).length)
    (htake : mem.take st_size = delivered reads st_size n) :
    Fine (fun b data => b.contents = data) reads st_size (seekTo b st_size mem) ↔
      b.offset = 0 ∨ b.size ≤ b.offset + st_size := by
  rw [seekTo, OBuffer.seek, OBuffer.bseek]
  dsimp only
  by_cases hin : b.offset + st_size < b.size
  · have hmem : (b.mem.map fun _ => mem).getD [] = mem := by
      cases hnone : b.mem with
      | none =>
          rw [hnone] at hlength
          exact (List.length_eq_zero_iff.mp hlength).symm
      | some m => rfl
    have hsome : b.mem ≠ none := fun hnone => by
      have := hb.null hnone
      omega
    have hroom := hb.memory
    rw [if_neg hsome] at hroom
    rw [if_pos hin, or_iff_left (Nat.not_le.mpr hin)]
    show (∃ n, ((b.mem.map fun _ => mem).getD []).take (b.offset + st_size) = _) ↔ _
    rw [hmem]
    constructor
    · rintro ⟨m, hm⟩
      have hle : (delivered reads st_size m).length ≤ st_size := delivered_length_le m
      rw [← hm, List.length_take] at hle
      omega
    · intro hzero
      exact ⟨n, by rw [hzero, Nat.zero_add, htake]⟩
  · rw [if_neg hin]
    exact iff_of_true (fun h => by cases h) (.inr (Nat.le_of_not_lt hin))

theorem reserve_offset (b : OBuffer) (n : Nat) : (b.reserve n).offset = b.offset := by
  rw [OBuffer.reserve]
  split
  · rfl
  · rfl

theorem endsInto_iff (f : Found) {out : OBuffer} (hout : out.Shaped) : f.EndsInto out ↔
    ∀ st_size, f.Opens st_size →
      Finite f.reads st_size ((out.reserve (st_size + 4)).mem.getD []).length ∧
        (Complete f.reads st_size →
          out.offset = 0 ∨ (out.reserve (st_size + 4)).size ≤ out.offset + st_size) := by
  by_cases hopens : ∃ st_size, f.Opens st_size
  · obtain ⟨st_size, h⟩ := hopens
    have honly : ∀ {P : Nat → Prop}, (∀ n, f.Opens n → P n) ↔ P st_size := fun {P} =>
      ⟨fun hall => hall st_size h, fun hP n hn => by
        rwa [show n = st_size from Option.some.inj (hn.stat.symm.trans h.stat)]⟩
    rw [honly, Found.EndsInto, h.stat, Option.getD_some, ← reserve_offset out (st_size + 4)]
    apply ends_iff_of_loop (readallInto_eq out h)
    rintro mem hlength ⟨n, htake⟩ -
    exact fine_seekTo_iff (OBuffer.reserve_shaped hout (st_size + 4)) hlength htake
  · obtain ⟨e, he, hrun⟩ := readallInto_refused out (not_exists.mp hopens)
    exact iff_of_true ⟨0, _, hrun, he⟩ fun st_size h => (hopens ⟨st_size, h⟩).elim

theorem toStr_bytes (b : OBuffer) : b.toStr.bytes = b.contents := by
  rw [OBuffer.toStr, Str.bytes, OBuffer.contents]
  cases b.mem with
  | none => rfl
  | some mem => exact List.take_set_of_le (Nat.le_refl _)

theorem ends_iff_endsInto (f : Found) : f.Ends ↔ f.EndsInto (OBuffer.new 512) := by
  rw [Found.Ends, Found.EndsInto, Ends, Ends]
  constructor
  · rintro ⟨rounds, r, hr, hfine⟩
    rw [readall, Option.map_eq_some_iff] at hr
    obtain ⟨r₀, hrun, rfl⟩ := hr
    refine ⟨rounds, r₀, hrun, ?_⟩
    cases r₀ with
    | error e => exact hfine
    | ok b =>
        obtain ⟨n, hn⟩ := hfine
        exact ⟨n, (toStr_bytes b).symm.trans hn⟩
  · rintro ⟨rounds, r, hr, hfine⟩
    refine ⟨rounds, r.map OBuffer.toStr, by rw [readall, hr, Option.map_some], ?_⟩
    cases r with
    | error e => exact hfine
    | ok b =>
        obtain ⟨n, hn⟩ := hfine
        exact ⟨n, (toStr_bytes b).trans hn⟩

/-- An empty buffer has room for every file that is read. -/
theorem le_reserved {b : OBuffer} (h : b.Shaped) (hzero : b.offset = 0) {st_size : Nat}
    (hsmall : st_size ≤ 1048576) : st_size ≤ ((b.reserve (st_size + 4)).mem.getD []).length := by
  have hinside : b.offset ≤ b.size := hzero ▸ Nat.zero_le _
  have hroom : b.Room (st_size + 4) (st_size + 4 - b.size) := by
    refine .inr ⟨hinside, ?_⟩
    obtain ⟨-, hup⟩ := OBuffer.roundUp_lt (max b.size (st_size + 4 - b.size))
    rw [hzero, Nat.zero_add]
    unfold UINT32
    omega
  have hsize : st_size + 4 ≤ (b.reserve (st_size + 4)).size :=
    (OBuffer.reserve_empty h hzero (Nat.succ_ne_zero _)).1 hroom
  obtain ⟨he, -, hmem⟩ := OBuffer.reserve_spec h hinside (st_size + 4)
  rw [he.shaped.memory, if_neg (hmem (Nat.succ_ne_zero _))]
  omega

theorem found_ends_iff (f : Found) : f.Ends ↔ ∀ st_size, f.Opens st_size →
    ∃ n, f.reads n = none ∨ (delivered f.reads st_size (n + 1)).length = st_size := by
  have hshaped := (OBuffer.new_shaped 512).1
  rw [ends_iff_endsInto, endsInto_iff f hshaped]
  refine forall₂_congr fun st_size h => ?_
  rw [finite_iff_of_le (le_reserved hshaped rfl h.small)]
  exact and_iff_left fun _ => .inl rfl

/-- A buffer that a file is read into. -/
structure Out extends OBuffer where
  shaped : toOBuffer.Shaped

/-- **The functions come to an end, and succeed with what was read, exactly when a read fails or the
reads give as many bytes as `stat` has said, the buffer of `read_file` has room for them, and a buffer
that is read into is empty or refuses the offset.** -/
theorem reading_iff (f : Opened) (g : Found) (out : Out) :
    (f.Ends ↔ f.fd < 0 ∨ f.mapped_min ≤ f.st_size ∨
      Finite f.reads f.st_size (f.buffer.mem.getD []).length) ∧
    (g.Ends ↔ ∀ st_size, g.Opens st_size →
      ∃ n, g.reads n = none ∨ (delivered g.reads st_size (n + 1)).length = st_size) ∧
    (g.EndsInto out.toOBuffer ↔ ∀ st_size, g.Opens st_size →
      Finite g.reads st_size ((out.reserve (st_size + 4)).mem.getD []).length ∧
        (Complete g.reads st_size →
          out.offset = 0 ∨ (out.reserve (st_size + 4)).size ≤ out.offset + st_size)) :=
  ⟨opened_ends_iff f, found_ends_iff g, endsInto_iff g out.shaped⟩

/-- A file of five bytes that has been cut to none: `read` gives nothing, again and again. -/
def shrunk : Opened :=
  { fd := 3, st_size := 5, mapped_min := 2048, pages := none, reads := fun _ => some [] }

theorem delivered_shrunk (n : Nat) : delivered shrunk.reads shrunk.st_size n = [] := by
  induction n with
  | zero => rfl
  | succ n ih => rw [delivered, ih, shrunk, Option.getD_some, List.take_nil, List.append_nil]

theorem not_ends_shrunk : ¬ ∀ (f : Opened) (g : Found) (out : Out),
    f.Ends ∧ g.Ends ∧ g.EndsInto out.toOBuffer := by
  intro h
  have hends := (h shrunk ⟨false, none, false, fun _ => none⟩
    ⟨OBuffer.new 8, (OBuffer.new_shaped 8).1⟩).1
  rcases (opened_ends_iff shrunk).mp hends with hfd | hmin | ⟨n, hend, -⟩
  · exact absurd hfd (by decide)
  · exact absurd hmin (by decide)
  · rw [delivered_shrunk] at hend
    rcases hend with hnone | hlength
    · nomatch hnone
    · exact absurd hlength (by decide)

end Suil.Reading
