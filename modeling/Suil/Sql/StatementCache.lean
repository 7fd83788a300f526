import Suil.Basic.Buffer
import Suil.Http.CaseMapLaws
import Suil.Lib.StepMachine

set_option autoImplicit false

/-! # The statements of a connection

`PgSqlConnection::operator()` (`pgsql.cpp`) keeps each statement it makes in a `CaseMap` under its
text, which is looked up before the next one is made. `executes_iff` says for which texts the
statement that comes back is the one that was asked for. -/

namespace Suil.Sql

open Http (Name nameHit)
open OBuffer (Stop UINT32)
open StepMachine (inputs)

/-- `PGSQLStatement`; its connection and settings are those of the `PgSqlConnection`. -/
structure PGSQLStatement where
  stmt : Str
  deriving DecidableEq, Repr

/-- What `PQexecParams` is given: the text up to the NUL, or a null pointer. -/
def PGSQLStatement.executes (s : PGSQLStatement) : Option Bytes := s.stmt.mem.map cstr

/-- `String(s)`, for a string that owns its memory. -/
def copyOf (s : Str) : Str := ⟨s.mem.map fun m => (m.take s.len).takeWhile (· ≠ NUL), s.len⟩

/-- A copy of a statement. -/
def PGSQLStatement.copy (s : PGSQLStatement) : PGSQLStatement := ⟨copyOf s.stmt⟩

/-- The bytes of a key, or null. -/
def nameOf (s : Str) : Name := s.mem.map (·.take s.len)

/-- `stmt_map_t`. -/
abbrev StmtMap := List (Str × PGSQLStatement)

/-- A buffer as its functions leave it. -/
structure Buffer where
  buf : OBuffer
  shaped : buf.Shaped
  bounded : buf.offset ≤ buf.size

/-- The two overloads: a buffer, and a C string. -/
inductive Query where
  | buffer (req : Buffer)
  | text (req : Bytes)

/-- The text that is asked for. -/
def Query.sql : Query → Bytes
  | .buffer req => req.buf.contents
  | .text req => cstr req

section

variable (hash : Bytes → UInt64)

namespace StmtMap

/-- `find`. -/
def find (m : StmtMap) (key : Str) : Option PGSQLStatement :=
  (List.find? (fun e => nameHit hash (nameOf key) (nameOf e.1)) m).map (·.2)

/-- `insert`, with the entry that is in the map afterwards. -/
def insert (m : StmtMap) (key : Str) (s : PGSQLStatement) : PGSQLStatement × StmtMap :=
  match m.find hash key with
  | some s' => (s', m)
  | none => (s, (key, s) :: m)

/-- `operator()(OBuffer&)`. -/
def callBuffer (m : StmtMap) (req : OBuffer) : PGSQLStatement × StmtMap :=
  match m.find hash ⟨req.mem, req.offset⟩ with
  | some s => (s.copy, m)
  | none =>
      let key := req.toStr
      let ret := m.insert hash key ⟨copyOf key⟩
      (ret.1.copy, ret.2)

/-- `operator()(const char *)`. -/
def callText (m : StmtMap) (req : Bytes) : Except Stop (PGSQLStatement × StmtMap) :=
  match m.find hash ⟨some req, (cstr req).length % UINT32⟩ with
  | some s => .ok (s.copy, m)
  | none => do
      let breq ← (OBuffer.new 0).call (.cString req)
      .ok (m.callBuffer hash breq)

def call (m : StmtMap) : Query → Except Stop (PGSQLStatement × StmtMap)
  | .buffer req => .ok (m.callBuffer hash req.buf)
  | .text req => m.callText hash req

/-- The statements after a call. -/
def next (m : StmtMap) (q : Query) : Option StmtMap := (m.call hash q).toOption.map (·.2)

/-- The statement that comes back executes the text that was asked for. -/
def Executes (m : StmtMap) (q : Query) : Prop :=
  ∃ r, m.call hash q = .ok r ∧ r.1.executes = some q.sql

/-- There is a text: a buffer with memory, or a C string that is not empty and that a buffer can
hold, unless its statement has been made. -/
def Given (m : StmtMap) : Query → Prop
  | .buffer req => req.buf.mem ≠ none
  | .text req => cstr req ≠ [] ∧ (cstr req).length + 8 ≤ UINT32 ∨
      ∃ e ∈ m, nameOf e.1 = some (cstr req)

/-- The texts for which that is so: without a NUL, and no other text of a statement that has been
made has the same hash and agrees with it, without case, as far as the shorter one goes. -/
structure Meets (m : StmtMap) (q : Query) : Prop where
  given : m.Given q
  plain : NUL ∉ q.sql
  apart : ∀ e ∈ m, nameHit hash (some q.sql) (nameOf e.1) = true → nameOf e.1 = some q.sql

/-- What the entries are: each is under a text of its own, and executes it. -/
structure Sound (m : StmtMap) : Prop where
  entry : ∀ e ∈ m, ∃ t, nameOf e.1 = some t ∧ e.2.copy.executes = some t ∧ NUL ∉ t ∧
    t.length + 8 ≤ UINT32
  apart : ∀ e ∈ m, ∀ e' ∈ m, nameHit hash (nameOf e.1) (nameOf e'.1) = true →
    nameOf e.1 = nameOf e'.1

end StmtMap

/-! ## Names -/

variable {hash}

theorem overlap_symm {x y : Bytes} (h : Http.Overlap x y) : Http.Overlap y x := by
  unfold Http.Overlap at h ⊢
  rw [Nat.min_comm y.length x.length]
  exact h.symm

/-- Which of two texts is the key makes no difference. -/
theorem nameHit_symm (x y : Bytes) :
    nameHit hash (some x) (some y) = nameHit hash (some y) (some x) := by
  have heq : Http.mapCaseEq x y = Http.mapCaseEq y x := by
    rw [Bool.eq_iff_iff, Http.mapCaseEq_iff, Http.mapCaseEq_iff]
    exact ⟨overlap_symm, overlap_symm⟩
  show (decide (hash x = hash y) && Http.mapCaseEq x y) =
    (decide (hash y = hash x) && Http.mapCaseEq y x)
  rw [heq, decide_eq_decide.mpr (eq_comm (a := hash x))]

theorem nameHit_self (x : Bytes) : nameHit hash (some x) (some x) = true := by
  show (decide (hash x = hash x) && Http.mapCaseEq x x) = true
  rw [decide_eq_true rfl, Bool.true_and, Http.mapCaseEq_iff]
  exact rfl

/-! ## Copies -/

/-- The NUL that ends a string is behind its bytes. -/
private theorem take_set_self (mem : Bytes) (n : Nat) : (mem.set n NUL).take n = mem.take n := by
  rw [List.take_set, List.set_eq_of_length_le (List.length_take_le n mem)]

theorem nameOf_toStr (b : OBuffer) : nameOf b.toStr = b.mem.map fun _ => b.contents := by
  unfold nameOf OBuffer.toStr OBuffer.contents
  cases b.mem with
  | none => rfl
  | some mem => exact congrArg some (take_set_self mem b.offset)

theorem nameOf_request (b : OBuffer) : nameOf ⟨b.mem, b.offset⟩ = b.mem.map fun _ => b.contents := by
  unfold nameOf OBuffer.contents
  cases b.mem <;> rfl

/-- The statement of a buffer executes what is in the buffer, up to a NUL. -/
theorem executes_toStr (b : OBuffer) : (PGSQLStatement.copy ⟨copyOf b.toStr⟩).executes =
    b.mem.map fun _ => cstr b.contents := by
  unfold PGSQLStatement.copy PGSQLStatement.executes copyOf OBuffer.toStr OBuffer.contents cstr
  cases hmem : b.mem with
  | none => rfl
  | some mem =>
      have hshort : ((mem.take b.offset).takeWhile (· ≠ NUL)).length ≤ b.offset := by
        calc ((mem.take b.offset).takeWhile (· ≠ NUL)).length
            ≤ (mem.take b.offset).length := (List.takeWhile_prefix _).length_le
          _ ≤ b.offset := List.length_take_le _ _
      simp only [Option.map_some, Option.getD_some, take_set_self]
      rw [List.take_of_length_le hshort, List.takeWhile_idem, List.takeWhile_idem]

/-! ## Calls -/

namespace StmtMap

variable {m : StmtMap}

theorem find_cases (m : StmtMap) (key : Str) :
    (∃ e ∈ m, nameHit hash (nameOf key) (nameOf e.1) = true ∧ m.find hash key = some e.2) ∨
      (∀ e ∈ m, nameHit hash (nameOf key) (nameOf e.1) = false) ∧ m.find hash key = none := by
  unfold find
  cases hfind : List.find? (fun e => nameHit hash (nameOf key) (nameOf e.1)) m with
  | none =>
      right
      refine ⟨fun e he => ?_, rfl⟩
      exact Bool.eq_false_iff.mpr (List.find?_eq_none.mp hfind e he)
  | some e =>
      left
      exact ⟨e, List.mem_of_find?_eq_some hfind,
        List.find?_some (p := fun e : Str × PGSQLStatement =>
          nameHit hash (nameOf key) (nameOf e.1)) hfind, rfl⟩

/-- A buffer gets the statement of an entry that is found, or one of its own. -/
theorem callBuffer_cases (m : StmtMap) (b : OBuffer) :
    (∃ e ∈ m, nameHit hash (b.mem.map fun _ => b.contents) (nameOf e.1) = true ∧
      m.callBuffer hash b = (e.2.copy, m)) ∨
    (∀ e ∈ m, nameHit hash (b.mem.map fun _ => b.contents) (nameOf e.1) = false) ∧
      m.callBuffer hash b =
        (PGSQLStatement.copy ⟨copyOf b.toStr⟩, (b.toStr, ⟨copyOf b.toStr⟩) :: m) := by
  unfold callBuffer
  rcases find_cases m ⟨b.mem, b.offset⟩ with ⟨e, he, hhit, hfind⟩ | ⟨hnone, hfind⟩
  · left
    rw [hfind]
    exact ⟨e, he, nameOf_request b ▸ hhit, rfl⟩
  · right
    rw [nameOf_request] at hnone
    refine ⟨hnone, ?_⟩
    have hkey : m.find hash b.toStr = none := by
      rcases find_cases m b.toStr with ⟨e, he, hhit, -⟩ | ⟨-, hfind⟩
      · rw [nameOf_toStr, hnone e he] at hhit
        nomatch hhit
      · exact hfind
    rw [hfind]
    unfold insert
    dsimp only
    rw [hkey]

/-- **A buffer with memory gets its own text, when it has no NUL and nothing else is found.** -/
theorem buffer_executes (h : m.Sound hash) {b : OBuffer} (hmem : b.mem ≠ none) :
    (m.callBuffer hash b).1.executes = some b.contents ↔ NUL ∉ b.contents ∧
      ∀ e ∈ m, nameHit hash (some b.contents) (nameOf e.1) = true →
        nameOf e.1 = some b.contents := by
  have hname : (b.mem.map fun _ => b.contents) = some b.contents := by
    obtain ⟨mem, hmem⟩ := Option.ne_none_iff_exists'.mp hmem
    rw [hmem, Option.map_some]
  have hcases := @callBuffer_cases hash m b
  rw [hname] at hcases
  rcases hcases with ⟨e, he, hhit, hcall⟩ | ⟨hnone, hcall⟩
  · obtain ⟨t, hname, hexecutes, hplain, -⟩ := h.entry e he
    rw [hcall, hexecutes, Option.some_inj]
    constructor
    · rintro rfl
      refine ⟨hplain, fun e' he' hhit' => ?_⟩
      rw [← hname] at hhit' ⊢
      exact (h.apart e he e' he' hhit').symm
    · rintro ⟨-, hapart⟩
      exact Option.some.inj (hname.symm.trans (hapart e he hhit))
  · rw [hcall, executes_toStr]
    obtain ⟨mem, hmem⟩ := Option.ne_none_iff_exists'.mp hmem
    rw [hmem, Option.map_some, Option.some_inj, cstr_eq_self_iff]
    refine (and_iff_left fun e he hhit => ?_).symm
    rw [hnone e he] at hhit
    nomatch hhit

/-- A buffer without memory gets a statement without text. -/
theorem null_not_executes (h : m.Sound hash) {b : OBuffer} (hmem : b.mem = none) (t : Bytes) :
    (m.callBuffer hash b).1.executes ≠ some t := by
  have hcases := @callBuffer_cases hash m b
  rw [hmem, Option.map_none] at hcases
  rcases hcases with ⟨e, he, hhit, -⟩ | ⟨-, hcall⟩
  · obtain ⟨t', hname, -⟩ := h.entry e he
    rw [hname, nameHit, Bool.and_eq_true] at hhit
    cases hhit.2
  · rw [hcall, executes_toStr, hmem]
    exact fun h => by cases h

/-- The statements are sound after a buffer. -/
theorem sound_callBuffer (h : m.Sound hash) {b : OBuffer} (hshaped : b.Shaped)
    (hoffset : b.offset ≤ b.size) (hmem : b.mem ≠ none) (hplain : NUL ∉ b.contents) :
    (m.callBuffer hash b).2.Sound hash := by
  have hname : (b.mem.map fun _ => b.contents) = some b.contents := by
    obtain ⟨mem, hmem⟩ := Option.ne_none_iff_exists'.mp hmem
    rw [hmem, Option.map_some]
  have hlength : b.contents.length + 8 ≤ UINT32 := by
    have := hshaped.multiple
    have := hshaped.wide
    rw [OBuffer.contents_length hshaped hoffset]
    unfold UINT32 at *
    omega
  rcases @callBuffer_cases hash m b with ⟨e, he, hhit, hcall⟩ | ⟨hnone, hcall⟩
  · rw [hcall]
    exact h
  · rw [hname] at hnone
    rw [hcall]
    -- the new entry is found under no other text, and no other is found under its own
    have hkey : nameOf b.toStr = some b.contents := (nameOf_toStr b).trans hname
    have hexecutes : (PGSQLStatement.copy ⟨copyOf b.toStr⟩).executes = some b.contents := by
      obtain ⟨mem, hmem⟩ := Option.ne_none_iff_exists'.mp hmem
      rw [executes_toStr, hmem, Option.map_some, cstr_eq_self_iff.mpr hplain]
    constructor
    · intro e he
      rcases List.mem_cons.mp he with rfl | he
      · exact ⟨b.contents, hkey, hexecutes, hplain, hlength⟩
      · exact h.entry e he
    · intro e he e' he' hhit
      rcases List.mem_cons.mp he with rfl | he
      · rcases List.mem_cons.mp he' with rfl | he'
        · rfl
        · rw [hkey, hnone e' he'] at hhit
          nomatch hhit
      · rcases List.mem_cons.mp he' with rfl | he'
        · obtain ⟨t, ht, -⟩ := h.entry e he
          have hnot := hnone e he
          rw [ht, nameHit_symm] at hnot
          rw [hkey, ht, hnot] at hhit
          nomatch hhit
        · exact h.apart e he e' he' hhit

/-! ## C strings -/

private theorem take_cstr (req : Bytes) : req.take (cstr req).length = cstr req :=
  (List.prefix_iff_eq_take.mp (List.takeWhile_prefix _)).symm

/-- What the map sees of a C string. -/
private theorem nameOf_text {req : Bytes} (h : (cstr req).length < UINT32) :
    nameOf ⟨some req, (cstr req).length % UINT32⟩ = some (cstr req) := by
  show some (req.take ((cstr req).length % UINT32)) = _
  rw [Nat.mod_eq_of_lt h, take_cstr]

theorem find_congr {key key' : Str} (h : nameOf key = nameOf key') :
    m.find hash key = m.find hash key' := by
  unfold find
  rw [h]

/-- A C string that a buffer can hold is looked up and made as a buffer. -/
theorem text_call {req : Bytes} (hne : cstr req ≠ []) (hshort : (cstr req).length + 8 ≤ UINT32) :
    ∃ b, m.callText hash req = .ok (m.callBuffer hash b) ∧ b.contents = cstr req ∧ b.mem ≠ none ∧
      b.Shaped ∧ b.offset ≤ b.size := by
  have hlt : (cstr req).length < UINT32 := by omega
  have hfits : (OBuffer.new 0).Fits (cstr req).length := by
    right
    show 0 + OBuffer.roundUp (max 0 (cstr req).length) < UINT32
    have hup := (OBuffer.roundUp_lt (cstr req).length).2
    rw [Nat.zero_max]
    omega
  obtain ⟨b, happend, hshaped, hcontents, hoffset⟩ :=
    OBuffer.append_of_fits (OBuffer.new_shaped 0).1 (OBuffer.new_shaped 0).2 hfits
  have hcontents : b.contents = cstr req := hcontents
  have hmem : b.mem ≠ none := by
    intro hnone
    rw [OBuffer.contents, hnone] at hcontents
    exact hne (hcontents.symm.trans List.take_nil)
  have hcall : (OBuffer.new 0).call (.cString req) = .ok b := by
    show (OBuffer.new 0).append ((cstr req).take ((cstr req).length % UINT32)) = _
    rw [Nat.mod_eq_of_lt hlt, List.take_length, happend]
  have hsame : m.find hash ⟨b.mem, b.offset⟩ =
      m.find hash ⟨some req, (cstr req).length % UINT32⟩ := by
    apply find_congr
    obtain ⟨mem, hsome⟩ := Option.ne_none_iff_exists'.mp hmem
    rw [nameOf_request, nameOf_text hlt, hcontents, hsome, Option.map_some]
  refine ⟨b, ?_, hcontents, hmem, hshaped, hoffset⟩
  unfold callText
  cases hfind : m.find hash ⟨some req, (cstr req).length % UINT32⟩ with
  | some s =>
      unfold callBuffer
      rw [hsame, hfind]
  | none =>
      rw [hcall]
      rfl

/-- The empty C string is found, or gets a statement without text. -/
theorem empty_executes (h : m.Sound hash) {req : Bytes} (hempty : cstr req = []) :
    (∃ r, m.callText hash req = .ok r ∧ r.1.executes = some []) ↔
      (∃ e ∈ m, nameOf e.1 = some []) ∧ ∀ e ∈ m, nameHit hash (some []) (nameOf e.1) = true →
        nameOf e.1 = some [] := by
  have hname : nameOf ⟨some req, (cstr req).length % UINT32⟩ = some [] := by
    rw [hempty]
    rfl
  unfold callText
  rcases @find_cases hash m ⟨some req, (cstr req).length % UINT32⟩ with
    ⟨e, he, hhit, hfind⟩ | ⟨hnone, hfind⟩
  · rw [hname] at hhit
    rw [hfind]
    obtain ⟨t, ht, hexecutes, -⟩ := h.entry e he
    constructor
    · rintro ⟨r, hr, hright⟩
      cases hr
      obtain rfl : t = [] := Option.some.inj (hexecutes.symm.trans hright)
      refine ⟨⟨e, he, ht⟩, fun e' he' hhit' => ?_⟩
      rw [← ht] at hhit' ⊢
      exact (h.apart e he e' he' hhit').symm
    · rintro ⟨-, hapart⟩
      refine ⟨_, rfl, ?_⟩
      rw [hexecutes, ← ht, hapart e he hhit]
  · rw [hname] at hnone
    rw [hfind]
    have hcall : (OBuffer.new 0).call (.cString req) = .ok ⟨none, 0, 0⟩ := by
      show (OBuffer.new 0).append ((cstr req).take ((cstr req).length % UINT32)) = _
      rw [hempty]
      rfl
    refine iff_of_false ?_ ?_
    · rintro ⟨r, hr, hright⟩
      dsimp only at hr
      rw [hcall] at hr
      cases hr
      exact null_not_executes h rfl [] hright
    · rintro ⟨⟨e, he, ht⟩, -⟩
      have hnot := hnone e he
      rw [ht, nameHit_self] at hnot
      nomatch hnot

/-- The capacity wraps around to nothing for the longest texts. -/
private theorem append_overruns {bs : Bytes} (hlt : bs.length < UINT32)
    (hlong : UINT32 < bs.length + 8) : (OBuffer.new 0).append bs = .error .overrun := by
  obtain ⟨hshaped, hoffset⟩ := OBuffer.new_shaped 0
  obtain ⟨hextends, hsize, hmem⟩ := OBuffer.room_spec hshaped hoffset bs.length
  have hpos : bs.length ≠ 0 := by
    unfold UINT32 at hlong
    omega
  have hzero : ((OBuffer.new 0).room bs.length).size = 0 := by
    obtain ⟨hle, hup⟩ := OBuffer.roundUp_lt bs.length
    have hmultiple := OBuffer.roundUp_multiple bs.length
    have hempty : ¬ (OBuffer.new 0).offset + bs.length ≤ (OBuffer.new 0).size := by
      show ¬ 0 + bs.length ≤ 0
      omega
    rw [hsize, OBuffer.grown, if_neg hempty]
    show (0 + OBuffer.roundUp (max 0 bs.length)) % UINT32 = 0
    rw [Nat.zero_max]
    unfold UINT32 at *
    omega
  have hlength := hextends.shaped.memory
  rw [if_neg (hmem hpos), hzero] at hlength
  have hne : bs ≠ [] := fun hnil => hpos (hnil ▸ rfl)
  have hfit : ¬ ((OBuffer.new 0).room bs.length).offset + bs.length ≤
      (((OBuffer.new 0).room bs.length).mem.getD []).length := by
    rw [hlength]
    unfold UINT32 at hlong
    omega
  unfold OBuffer.append OBuffer.store
  rw [if_neg hne, if_neg hfit]
  rfl

/-- A C string that no buffer can hold gets another statement, if any. -/
theorem long_not_executes (h : m.Sound hash) {req : Bytes} (hlong : UINT32 < (cstr req).length + 8) :
    ¬ ∃ r, m.callText hash req = .ok r ∧ r.1.executes = some (cstr req) := by
  -- no entry of a sound cache is as long as this text
  have hentry : ∀ e ∈ m, e.2.copy.executes ≠ some (cstr req) := by
    intro e he hexecutes
    obtain ⟨t, -, ht, -, hlength⟩ := h.entry e he
    obtain rfl := Option.some.inj (ht.symm.trans hexecutes)
    omega
  rintro ⟨r, hr, hright⟩
  unfold callText at hr
  rcases @find_cases hash m ⟨some req, (cstr req).length % UINT32⟩ with
    ⟨e, he, -, hfind⟩ | ⟨-, hfind⟩
  · rw [hfind] at hr
    cases hr
    exact hentry e he hright
  · rw [hfind] at hr
    dsimp only at hr
    rw [OBuffer.call] at hr
    by_cases hlt : (cstr req).length < UINT32
    · rw [Nat.mod_eq_of_lt hlt, List.take_length, append_overruns hlt hlong] at hr
      cases hr
    · -- what is appended is as long as the remainder
      cases happend : (OBuffer.new 0).append
          ((cstr req).take ((cstr req).length % UINT32)) with
      | error e =>
          rw [happend] at hr
          cases hr
      | ok b =>
          rw [happend] at hr
          cases hr
          have hoffset : b.offset < UINT32 := by
            unfold OBuffer.append at happend
            cases hstore : ((OBuffer.new 0).room ((cstr req).take
                ((cstr req).length % UINT32)).length).store
                  ((cstr req).take ((cstr req).length % UINT32)) with
            | error e =>
                rw [hstore] at happend
                cases happend
            | ok b' =>
                rw [hstore] at happend
                cases happend
                exact Nat.mod_lt _ (by decide)
          rcases @callBuffer_cases hash m b with ⟨e, he, -, hcall⟩ | ⟨-, hcall⟩
          · rw [hcall] at hright
            exact hentry e he hright
          · rw [hcall, executes_toStr] at hright
            obtain ⟨mem, -, hcontents⟩ := Option.map_eq_some_iff.mp hright
            -- the text of the buffer is no longer than its offset
            have hle : (cstr b.contents).length ≤ b.offset := by
              calc (cstr b.contents).length
                  ≤ b.contents.length := (List.takeWhile_prefix _).length_le
                _ ≤ b.offset := List.length_take_le _ _
            rw [hcontents] at hle
            omega

/-! ## Runs -/

/-- A call that returns the statement of its text is one that meets the condition. -/
theorem executes_step (h : m.Sound hash) (q : Query) : m.Executes hash q ↔ m.Meets hash q := by
  cases q with
  | buffer req =>
      have hcall : m.Executes hash (.buffer req) ↔
          (m.callBuffer hash req.buf).1.executes = some req.buf.contents := by
        constructor
        · rintro ⟨r, hr, hright⟩
          cases hr
          exact hright
        · exact fun hright => ⟨_, rfl, hright⟩
      rw [hcall]
      by_cases hmem : req.buf.mem = none
      · refine iff_of_false (null_not_executes h hmem _) ?_
        exact fun hmeets => hmeets.given hmem
      · rw [buffer_executes h hmem]
        exact ⟨fun hright => ⟨hmem, hright.1, hright.2⟩, fun hmeets => ⟨hmeets.plain, hmeets.apart⟩⟩
  | text req =>
      have hplain := nul_notMem_cstr req
      by_cases hempty : cstr req = []
      · have hcall := empty_executes h hempty
        rw [← hempty] at hcall
        refine hcall.trans ⟨fun hright => ⟨.inr hright.1, hplain, hright.2⟩, fun hmeets => ?_⟩
        refine ⟨hmeets.given.resolve_left fun hshort => hshort.1 hempty, hmeets.apart⟩
      · by_cases hshort : (cstr req).length + 8 ≤ UINT32
        · obtain ⟨b, hcall, hcontents, hmem, -, -⟩ := @text_call hash m req hempty hshort
          have hright := buffer_executes h hmem
          rw [hcontents] at hright
          constructor
          · rintro ⟨r, hr, hexecutes⟩
            cases hcall.symm.trans hr
            obtain ⟨-, hapart⟩ := hright.mp hexecutes
            exact ⟨.inl ⟨hempty, hshort⟩, hplain, hapart⟩
          · exact fun hmeets => ⟨_, hcall, hright.mpr ⟨hplain, hmeets.apart⟩⟩
        · refine iff_of_false (long_not_executes h (by omega)) fun hmeets => ?_
          rcases hmeets.given with hgiven | ⟨e, he, hname⟩
          · exact hshort hgiven.2
          · obtain ⟨t, ht, -, -, hlength⟩ := h.entry e he
            obtain rfl := Option.some.inj (ht.symm.trans hname)
            exact hshort hlength

theorem sound_next (h : m.Sound hash) {q : Query} (hmeets : m.Meets hash q) {m' : StmtMap}
    (hnext : m.next hash q = some m') : m'.Sound hash := by
  cases q with
  | buffer req =>
      obtain rfl := Option.some.inj hnext
      exact sound_callBuffer h req.shaped req.bounded hmeets.given hmeets.plain
  | text req =>
      rcases hmeets.given with ⟨hempty, hshort⟩ | ⟨e, he, hname⟩
      · obtain ⟨b, hcall, hcontents, hmem, hshaped, hoffset⟩ :=
          @text_call hash m req hempty hshort
        have hnext : (m.callText hash req).toOption.map (·.2) = some m' := hnext
        rw [hcall] at hnext
        obtain rfl := Option.some.inj hnext
        exact sound_callBuffer h hshaped hoffset hmem (hcontents ▸ hmeets.plain)
      · -- its own entry is found, so that nothing is made
        obtain ⟨t, ht, -, -, hlength⟩ := h.entry e he
        obtain rfl := Option.some.inj (ht.symm.trans hname)
        have hlt : (cstr req).length < UINT32 := by omega
        have hnext : (m.callText hash req).toOption.map (·.2) = some m' := hnext
        unfold callText at hnext
        rcases @find_cases hash m ⟨some req, (cstr req).length % UINT32⟩ with
          ⟨e', -, -, hfind⟩ | ⟨hnone, -⟩
        · rw [hfind] at hnext
          obtain rfl := Option.some.inj hnext
          exact h
        · have hself := hnone e he
          rw [nameOf_text hlt, hname, nameHit_self] at hself
          nomatch hself

end StmtMap

/-- **In every run, each call returns a statement that executes its text exactly when each text is
one: without a NUL, of a size that a buffer has, and apart from the other texts before.** -/
theorem executes_iff (hash : Bytes → UInt64) (qs : List Query) :
    (∀ p ∈ inputs (StmtMap.next hash) [] qs, p.1.Executes hash p.2) ↔
      ∀ p ∈ inputs (StmtMap.next hash) [] qs, p.1.Meets hash p.2 := by
  apply StepMachine.forall_inputs_iff (I := StmtMap.Sound hash)
  · exact fun m q h => StmtMap.executes_step h q
  · exact fun m q m' h hright hnext =>
      StmtMap.sound_next h ((StmtMap.executes_step h q).mp hright) hnext
  · exact ⟨nofun, nofun⟩

end

/-! ## Two texts with one hash -/

/-- `shift_mix`. -/
def shiftMix (v : UInt64) : UInt64 := v ^^^ (v >>> 47)

/-- `load_bytes`: up to eight bytes, the first one is the lowest. -/
def loadBytes : Bytes → UInt64
  | [] => 0
  | b :: bs => (loadBytes bs <<< 8) + b.toUInt64

def hashMul : UInt64 := 0xc6a4a7935bd1e995

/-- Eight bytes at a time, and then what is left. -/
def hashBlocks : Nat → UInt64 → Bytes → UInt64
  | 0, h, _ => h
  | n + 1, h, bs =>
      if bs = [] then h
      else if bs.length < 8 then (h ^^^ loadBytes bs) * hashMul
      else
        let data := shiftMix (loadBytes (bs.take 8) * hashMul) * hashMul
        hashBlocks n ((h ^^^ data) * hashMul) (bs.drop 8)

/-- `std::hash` of the bytes of a view, as the GNU library has it. -/
def stdHash (bs : Bytes) : UInt64 :=
  let h := hashBlocks (bs.length + 1) (0xc70f6907 ^^^ (UInt64.ofNat bs.length * hashMul)) bs
  shiftMix (shiftMix h * hashMul)

/-- The rows of one user are deleted with the statement that deletes all. -/
theorem not_executes_delete : ¬ ∀ (qs : List Query),
    ∀ p ∈ inputs (StmtMap.next stdHash) [] qs, p.1.Executes stdHash p.2 := by
  intro h
  let qs : List Query := [.text (str "DELETE FROM users"),
    .text (str "DELETE FROM users WHERE id=1 --nAnPlc 7mj8sOTaZP")]
  have hother : ∃ p ∈ inputs (StmtMap.next stdHash) [] qs,
      (p.1.call stdHash p.2).toOption.map (fun r => r.1.executes) =
        some (some (str "DELETE FROM users")) ∧ p.2.sql ≠ str "DELETE FROM users" := by
    decide
  obtain ⟨p, hp, hcall, hne⟩ := hother
  obtain ⟨r, hr, hexecutes⟩ := h qs p hp
  rw [hr] at hcall
  have hexecuted : r.1.executes = some (str "DELETE FROM users") := Option.some.inj hcall
  exact hne (Option.some.inj (hexecutes.symm.trans hexecuted))

end Suil.Sql

