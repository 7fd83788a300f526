import Suil.Http.Multipart
import Suil.Lib.AssocMap
import Suil.Lib.Traced

set_option autoImplicit false

/-! # What a failed multipart parser leaves behind

A part is put into the form as soon as its last byte has been read, before anything is known of the
parts behind it. `multipart_atomic_iff` says when a call that fails leaves the form as it was, which is empty:
`parseForm` calls the parser once for a request, and `clear` empties the form. -/

namespace Suil.Http.Multipart

open StepMachine PState

/-! ## Turns that store and turns that fail -/

/-- A call that returns false has stored nothing. The buffer that a part points into is released with
such a call. -/
def Atomic (hash : Bytes → UInt64) (boundary body : Bytes) (behind : UInt8) : Prop :=
  ∀ form files, parse_multipart_form hash boundary body behind = .ok (false, form, files) →
    form = [] ∧ files = []

/-- The condition of the loop. -/
def Running (m : Machine) : Prop := m.cap = true ∨ m.p ≠ m.e

/-- The turn stores a part. -/
def Saving (m : Machine) : Prop :=
  Running m ∧ (m.next_state = state_save_data ∨ m.next_state = state_save_file)

/-- The body is over, or there is an error in it. -/
def Failing (m : Machine) : Prop := ¬ Running m ∨ m.next_state = state_error

/-! ## What a turn does -/

def weight : PState → Nat
  | state_save_data | state_save_file => 2
  | state_begin | state_is_boundary | state_boundary | state_header | state_content => 1
  | state_data | state_error | state_end => 0

/-- How many turns there can be. -/
def cost (m : Machine) : Nat := 2 * (m.buf.length + 1 - m.p) + weight m.next_state

/-- What is known of a machine from its next state. -/
def Shape (m : Machine) : Prop :=
  match m.next_state with
  | state_data => m.p ≤ m.buf.length
  | state_is_boundary => m.state = state_data
  | state_save_data | state_save_file => m.state = state_content ∨ m.state = state_end
  | _ => True

/-- From one turn to the next; the maps are the same, but for a part that is stored. -/
structure Moves (m m' : Machine) : Prop where
  length : m'.buf.length = m.buf.length
  shape : Shape m'
  cost_lt : cost m' < cost m

def SameMaps (m m' : Machine) : Prop := m'.form = m.form ∧ m'.files = m.files

/-- The turn goes on, unless it fails, and with such a machine. -/
def Yields (P : Machine → Prop) (x : Step) : Prop := ∀ o, x = .ok o → ∃ m', o = .goon m' ∧ P m'

theorem Yields.bind {α : Type} {P : Machine → Prop} {x : Except Fault α} {f : α → Step}
    (h : ∀ a, x = .ok a → Yields P (f a)) : Yields P (x >>= f) := by
  intro o ho
  obtain ⟨a, hx, hf⟩ := Except.ok_of_bind ho
  exact h a hx o hf

theorem yields_goon {P : Machine → Prop} {m : Machine} (h : P m) : Yields P (.ok (.goon m)) := by
  intro o ho
  exact ⟨m, (Except.ok.inj ho).symm, h⟩

/-! ## The helpers -/

theorem load_lt {buf : Bytes} {p : Nat} {c : UInt8} (h : load buf p = .ok c) : p < buf.length := by
  rw [load] at h
  by_contra hge
  rw [List.getElem?_eq_none (Nat.le_of_not_lt hge)] at h
  nomatch h

theorem clear_length {buf buf' : Bytes} {p : Nat} (h : clear buf p = .ok buf') :
    buf'.length = buf.length := by
  rw [clear] at h
  split_ifs at h
  rw [← Except.ok.inj h, List.length_set]

theorem chr_le {c : UInt8} {s : Bytes} {p q : Nat} (h : chr c s p = .ok (some q)) : p ≤ q := by
  induction s generalizing p with
  | nil => nomatch h
  | cons b s ih =>
      rw [chr] at h
      split_ifs at h
      · cases h
        exact Nat.le_refl _
      · cases h
      · exact Nat.le_of_succ_le (ih h)

theorem eat_space_le {s : Bytes} {p q : Nat} (h : eat_space s p = .ok q) : p ≤ q := by
  induction s generalizing p with
  | nil => nomatch h
  | cons b s ih =>
      rw [eat_space] at h
      split_ifs at h
      · exact Nat.le_of_succ_le (ih h)
      · cases h
        exact Nat.le_refl _

theorem goto_cr_le {e : Nat} {s : Bytes} {p q : Nat} (h : goto_cr e s p = .ok q) : p ≤ q := by
  induction s generalizing p with
  | nil => nomatch h
  | cons b s ih =>
      rw [goto_cr] at h
      split_ifs at h
      · exact Nat.le_of_succ_le (ih h)
      · cases h
        exact Nat.le_refl _

/-- A header that is there ends inside of the buffer. -/
theorem get_header_spec {buf : Bytes} {p e : Nat} {h : Header} (hh : get_header buf p e = .ok h) :
    h.buf.length = buf.length ∧ p ≤ h.p ∧ (h.ok = true → p < h.p ∧ h.p < buf.length) := by
  rw [get_header] at hh
  obtain ⟨r, hr, hh⟩ := Except.ok_of_bind hh
  cases r with
  | none =>
      cases hh
      exact ⟨rfl, Nat.le_refl p, nofun⟩
  | some q =>
      have hpq := chr_le hr
      obtain ⟨buf', hbuf, hh⟩ := Except.ok_of_bind hh
      obtain ⟨v, hv, hh⟩ := Except.ok_of_bind hh
      obtain ⟨z, hz, hh⟩ := Except.ok_of_bind hh
      obtain ⟨c, hc, hh⟩ := Except.ok_of_bind hh
      have hlength := clear_length hbuf
      have hqv := eat_space_le hv
      have hvz := goto_cr_le hz
      split_ifs at hh
      · obtain ⟨d, hd, hh⟩ := Except.ok_of_bind hh
        have hlt := load_lt hd
        cases hh
        exact ⟨hlength, by dsimp only; omega, fun _ => by dsimp only; omega⟩
      · cases hh
        exact ⟨hlength, by dsimp only; omega, nofun⟩

theorem get_quoted_length {buf buf' : Bytes} {p e q : Nat}
    (h : get_quoted buf p e = .ok (some (buf', q))) : buf'.length = buf.length := by
  rw [get_quoted] at h
  obtain ⟨z, -, h⟩ := Except.ok_of_bind h
  obtain ⟨c, -, h⟩ := Except.ok_of_bind h
  split_ifs at h
  · obtain ⟨buf'', hbuf, h⟩ := Except.ok_of_bind h
    dsimp only at h
    obtain ⟨d, -, h⟩ := Except.ok_of_bind h
    obtain ⟨q', -, h⟩ := Except.ok_of_bind h
    cases h
    exact clear_length hbuf
  · cases h

theorem get_disposition_length {e fuel : Nat} {buf : Bytes} {p : Nat} {name filename : Option Nat}
    {d : Disposition} (h : get_disposition e fuel buf p name filename = .ok d) :
    d.buf.length = buf.length := by
  induction fuel generalizing buf p name filename with
  | zero => nomatch h
  | succ fuel ih =>
      rw [get_disposition] at h
      obtain ⟨c, -, h⟩ := Except.ok_of_bind h
      split_ifs at h
      · obtain ⟨isName, -, h⟩ := Except.ok_of_bind h
        split_ifs at h
        · dsimp only at h
          obtain ⟨r, hr, h⟩ := Except.ok_of_bind h
          cases r with
          | none => cases h; rfl
          | some r => exact (ih h).trans (get_quoted_length hr)
        · obtain ⟨isFilename, -, h⟩ := Except.ok_of_bind h
          split_ifs at h
          · dsimp only at h
            obtain ⟨r, hr, h⟩ := Except.ok_of_bind h
            cases r with
            | none => cases h; rfl
            | some r => exact (ih h).trans (get_quoted_length hr)
          · cases h; rfl
      · cases h; rfl

/-! ## The turns -/

section

variable {m : Machine}

/-- A turn goes to a state of less weight, or it moves the cursor. -/
theorem cost_lt {m' : Machine} {w v : Nat} (hlen : m'.buf.length = m.buf.length)
    (hw : weight m.next_state = w) (hv : weight m'.next_state = v)
    (h : m.p ≤ m'.p ∧ v < w ∨ m.p < m'.p ∧ m.p ≤ m.buf.length ∧ v ≤ w + 1) :
    cost m' < cost m := by
  rw [cost, cost, hlen]
  omega

theorem isBoundary_yields (h : m.state = state_data ∨ m.state = state_error)
    (hw : weight m.next_state = 1) :
    Yields (fun m' => Moves m m' ∧ SameMaps m m') (isBoundary m) := by
  have hback : ∀ p, m.p ≤ p → p < m.buf.length →
      Moves m { m with p := p, next_state := m.state } := by
    intro p hle hlt
    have hv : weight m.state = 0 := by
      rcases h with hs | hs
      · rw [hs]
        rfl
      · rw [hs]
        rfl
    refine ⟨rfl, ?_, cost_lt rfl hw hv (.inl ⟨hle, by decide⟩)⟩
    rcases h with hs | hs
    · rw [Shape, hs]
      exact Nat.le_of_lt hlt
    · rw [Shape, hs]
      trivial
  rw [isBoundary]
  refine .bind fun c hc => ?_
  have hp := load_lt hc
  split_ifs
  · refine .bind fun d hd => ?_
    have hp' := load_lt hd
    split_ifs
    · refine yields_goon ⟨⟨rfl, trivial, cost_lt (v := 1) rfl hw rfl (.inr ⟨?_, ?_, by decide⟩)⟩,
        rfl, rfl⟩
      · exact Nat.lt_add_of_pos_right (by decide)
      · exact Nat.le_of_lt hp
    · exact yields_goon ⟨hback _ (Nat.le_succ _) hp', rfl, rfl⟩
  · exact yields_goon ⟨hback _ (Nat.le_refl _) hp, rfl, rfl⟩

theorem pair_lt {buf : Bytes} {p : Nat} {a b : UInt8} (h : pair buf p a b = .ok true) :
    p + 1 < buf.length := by
  rw [pair] at h
  obtain ⟨c, -, h⟩ := Except.ok_of_bind h
  split_ifs at h
  · obtain ⟨d, hd, -⟩ := Except.ok_of_bind h
    exact load_lt hd
  · nomatch h

theorem atBoundary_yields (boundary : Bytes) (hw : weight m.next_state = 1) :
    Yields (fun m' => Moves m m' ∧ SameMaps m m') (atBoundary boundary m) := by
  rw [atBoundary]
  dsimp only
  refine .bind fun same _ => ?_
  by_cases hsame : same = true
  swap
  · rw [if_neg hsame]
    exact yields_goon ⟨⟨rfl, trivial, cost_lt (v := 0) rfl hw rfl
      (.inl ⟨Nat.le_refl _, by decide⟩)⟩, rfl, rfl⟩
  rw [if_pos hsame]
  refine .bind fun el hel => .bind fun eb heb => ?_
  by_cases hend : (el || eb) = true
  swap
  · rw [if_neg hend]
    exact yields_goon ⟨⟨rfl, trivial, cost_lt (v := 0) rfl hw rfl
      (.inl ⟨Nat.le_add_right _ _, by decide⟩)⟩, rfl, rfl⟩
  rw [if_pos hend]
  have hlt : m.p + boundary.length + 1 < m.buf.length := by
    rcases Bool.or_eq_true_iff.mp hend with rfl | rfl
    · exact pair_lt hel
    · exact pair_lt heb
  have hstate : (if el = true then state_content else state_end) = state_content ∨
      (if el = true then state_content else state_end) = state_end := by
    cases el with
    | true => exact .inl rfl
    | false => exact .inr rfl
  generalize (if el = true then state_content else state_end) = st at hstate
  -- what was read so far is stored before the next part begins
  have hmove : ∀ v ≤ 2, m.p < m.p + boundary.length + 2 ∧ m.p ≤ m.buf.length ∧ v ≤ 1 + 1 :=
    fun v hv => ⟨by omega, by omega, hv⟩
  by_cases hfile : m.filename.isSome = true
  · rw [if_pos hfile]
    exact yields_goon ⟨⟨rfl, hstate, cost_lt (v := 2) rfl hw rfl (.inr (hmove 2 (by decide)))⟩,
      rfl, rfl⟩
  rw [if_neg hfile]
  by_cases hname : m.name.isSome = true
  · rw [if_pos hname]
    exact yields_goon ⟨⟨rfl, hstate, cost_lt (v := 2) rfl hw rfl (.inr (hmove 2 (by decide)))⟩,
      rfl, rfl⟩
  rw [if_neg hname]
  rcases hstate with rfl | rfl
  · exact yields_goon ⟨⟨rfl, trivial, cost_lt (v := 1) rfl hw rfl (.inr (hmove 1 (by decide)))⟩,
      rfl, rfl⟩
  · exact yields_goon ⟨⟨rfl, trivial, cost_lt (v := 0) rfl hw rfl (.inr (hmove 0 (by decide)))⟩,
      rfl, rfl⟩

theorem atContent_yields (hw : weight m.next_state = 1) :
    Yields (fun m' => Moves m m' ∧ SameMaps m m') (atContent m) := by
  rw [atContent]
  dsimp only
  refine .bind fun h hh => ?_
  obtain ⟨hlength, hle, hok⟩ := get_header_spec hh
  -- without a disposition there is an error
  have herror : ∀ (buf : Bytes) (p : Nat) (name filename : Option Nat), buf.length = m.buf.length →
      m.p ≤ p → Moves m { m with
        buf := buf, p := p, name := name, filename := filename, state := state_content,
        next_state := state_error } := by
    intro buf p name filename hbuf hp
    exact ⟨hbuf, trivial, cost_lt (v := 0) hbuf hw rfl (.inl ⟨hp, by decide⟩)⟩
  by_cases hyes : h.ok = true
  swap
  · rw [Bool.not_eq_true] at hyes
    rw [hyes]
    exact yields_goon ⟨herror h.buf h.p _ _ hlength hle, rfl, rfl⟩
  obtain ⟨hlt, hin⟩ := hok hyes
  rw [hyes]
  refine .bind fun disp _ => ?_
  by_cases hdisp : disp = true
  swap
  · rw [if_neg hdisp]
    exact yields_goon ⟨herror h.buf h.p _ _ hlength hle, rfl, rfl⟩
  rw [if_pos hdisp]
  refine .bind fun buf hbuf => .bind fun form _ => ?_
  have hlength' := (clear_length hbuf).trans hlength
  by_cases hform : form = true
  swap
  · rw [if_neg hform]
    exact yields_goon ⟨herror buf (h.p + 1) _ _ hlength' (Nat.le_succ_of_le hle), rfl, rfl⟩
  rw [if_pos hform]
  refine .bind fun val _ => .bind fun d hd => ?_
  have hlength'' := (get_disposition_length hd).trans hlength'
  by_cases hdone : d.ok = true
  · rw [if_pos hdone]
    refine yields_goon ⟨⟨hlength'', trivial, cost_lt (v := 1) hlength'' hw rfl (.inr ⟨?_, ?_, by decide⟩)⟩,
      rfl, rfl⟩
    · exact Nat.lt_succ_of_le hle
    · omega
  · rw [if_neg hdone]
    exact yields_goon ⟨herror d.buf (h.p + 1) _ _ hlength'' (Nat.le_succ_of_le hle), rfl, rfl⟩

/-- From the place of the field on, the turn goes on with the next header. -/
theorem atField_yields {m₁ : Machine} (hbuf : m₁.buf = m.buf) (hp : m.p ≤ m₁.p)
    (hin : m.p < m.buf.length) (hmaps : SameMaps m m₁) (hnext : m₁.next_state = state_header)
    (hw : weight m.next_state = 1) :
    Yields (fun m' => Moves m m' ∧ SameMaps m m') (atField m₁) := by
  rw [atField]
  refine .bind fun h hh => ?_
  obtain ⟨hlength, hle, hok⟩ := get_header_spec hh
  rw [hbuf] at hlength
  dsimp only
  by_cases hyes : h.ok = true
  · obtain ⟨hlt, -⟩ := hok hyes
    rw [if_pos hyes]
    refine .bind fun buf hclear => ?_
    have hlength' := (clear_length hclear).trans hlength
    refine yields_goon ⟨⟨hlength', ?_, cost_lt (v := 1) hlength' hw ?_ (.inr ⟨?_, ?_, by decide⟩)⟩,
      hmaps⟩
    · rw [Shape, hnext]
      trivial
    · show weight m₁.next_state = 1
      rw [hnext]
      rfl
    · show m.p < h.p + 1
      omega
    · exact Nat.le_of_lt hin
  · rw [if_neg hyes]
    exact yields_goon ⟨⟨hlength, trivial, cost_lt (v := 0) hlength hw rfl
      (.inl ⟨Nat.le_trans hp hle, by decide⟩)⟩, hmaps⟩

theorem atHeader_yields (hnext : m.next_state = state_header) :
    Yields (fun m' => Moves m m' ∧ SameMaps m m') (atHeader m) := by
  have hw : weight m.next_state = 1 := by rw [hnext]; rfl
  rw [atHeader]
  dsimp only
  refine .bind fun c hc => ?_
  have hin := load_lt hc
  split_ifs
  · refine .bind fun d hd => ?_
    have hin' := load_lt hd
    split_ifs
    · exact yields_goon ⟨⟨rfl, hin', cost_lt (v := 0) rfl hw rfl
        (.inl ⟨Nat.le_add_right _ _, by decide⟩)⟩, rfl, rfl⟩
    · exact atField_yields rfl (Nat.le_succ _) hin ⟨rfl, rfl⟩ hnext hw
  · exact atField_yields rfl (Nat.le_refl _) hin ⟨rfl, rfl⟩ hnext hw

/-- There is a part in one of the maps. -/
def Holding (m : Machine) : Prop := m.form ≠ [] ∨ m.files ≠ []

theorem emplace_ne_nil {α : Type} (hash : Bytes → UInt64) (map : CaseMap α) (key : Bytes) (v : α) :
    map.emplace hash key v ≠ [] := by
  rw [CaseMap.emplace]
  split_ifs with hfound
  · rintro rfl
    cases hfound
  · exact List.append_ne_nil_of_right_ne_nil _ (List.cons_ne_nil _ _)

theorem weight_saved (h : m.state = state_content ∨ m.state = state_end) : weight m.state ≤ 1 := by
  rcases h with h | h
  · rw [h]
    decide
  · rw [h]
    decide

theorem shape_saved {m' : Machine} (h : m.state = state_content ∨ m.state = state_end)
    (hnext : m'.next_state = m.state) : Shape m' := by
  rw [Shape, hnext]
  rcases h with h | h
  · rw [h]
    trivial
  · rw [h]
    trivial

theorem saveData_yields (hash : Bytes → UInt64) (h : m.state = state_content ∨ m.state = state_end)
    (hw : weight m.next_state = 2) :
    Yields (fun m' => Moves m m' ∧ Holding m') (saveData hash m) := by
  have hlow := weight_saved h
  rw [saveData]
  refine .bind fun dend _ => .bind fun _ _ => .bind fun buf hbuf => .bind fun tmp _ =>
    .bind fun data _ => ?_
  refine yields_goon ⟨⟨clear_length hbuf, shape_saved h rfl, ?_⟩, .inl (emplace_ne_nil _ _ _ _)⟩
  exact cost_lt (clear_length hbuf) hw rfl (.inl ⟨Nat.le_refl _, Nat.lt_succ_of_le hlow⟩)

theorem saveFile_yields (hash : Bytes → UInt64) (h : m.state = state_content ∨ m.state = state_end)
    (hw : weight m.next_state = 2) :
    Yields (fun m' => Moves m m' ∧ Holding m') (saveFile hash m) := by
  have hlow := weight_saved h
  rw [saveFile]
  refine .bind fun dend _ => .bind fun buf hbuf => .bind fun _ _ => .bind fun tmp _ =>
    .bind fun tmp_name _ => .bind fun data _ => ?_
  refine yields_goon ⟨⟨clear_length hbuf, shape_saved h rfl, ?_⟩, .inr (emplace_ne_nil _ _ _ _)⟩
  exact cost_lt (clear_length hbuf) hw rfl (.inl ⟨Nat.le_refl _, Nat.lt_succ_of_le hlow⟩)

theorem running_iff : (m.cap || decide (m.p ≠ m.e)) = true ↔ Running m := by
  rw [Bool.or_eq_true, decide_eq_true_eq, Running]

/-- A turn that fails returns the maps as they are. -/
theorem step_failing (hash : Bytes → UInt64) (boundary : Bytes) (h : Failing m) :
    step hash boundary m = .ok (.done (false, m.form, m.files)) := by
  rw [step]
  by_cases hrun : Running m
  · rw [if_pos (running_iff.mpr hrun), h.resolve_left (not_not.mpr hrun)]
  · rw [if_neg (mt running_iff.mp hrun)]

/-- What a turn does that does not leave the buffer: it ends the run, or goes on with the maps as they
are, or with one more part in them. -/
theorem step_cases {hash : Bytes → UInt64} {boundary : Bytes} (h : Shape m) {o : Next Machine Result}
    (ho : step hash boundary m = .ok o) :
    (∃ ok, o = .done (ok, m.form, m.files) ∧ (ok = false → Failing m)) ∨
      ∃ m', o = .goon m' ∧ Moves m m' ∧ (Saving m ∧ Holding m' ∨ ¬ Saving m ∧ SameMaps m m') := by
  rw [step] at ho
  by_cases hrun : Running m
  swap
  · rw [if_neg (mt running_iff.mp hrun)] at ho
    exact .inl ⟨false, (Except.ok.inj ho).symm, fun _ => .inl hrun⟩
  rw [if_pos (running_iff.mpr hrun)] at ho
  have hnot : weight m.next_state < 2 → ¬ Saving m := by
    rintro hw ⟨-, hs | hs⟩
    · rw [hs] at hw
      exact absurd hw (by decide)
    · rw [hs] at hw
      exact absurd hw (by decide)
  have hsame : ∀ {x : Step}, weight m.next_state < 2 →
      Yields (fun m' => Moves m m' ∧ SameMaps m m') x → x = .ok o →
      ∃ m', o = .goon m' ∧ Moves m m' ∧ (Saving m ∧ Holding m' ∨ ¬ Saving m ∧ SameMaps m m') := by
    intro x hw hx hxo
    obtain ⟨m', hm', hmoves, hmaps⟩ := hx o hxo
    exact ⟨m', hm', hmoves, .inr ⟨hnot hw, hmaps⟩⟩
  have hstored : ∀ {x : Step}, Saving m → Yields (fun m' => Moves m m' ∧ Holding m') x → x = .ok o →
      ∃ m', o = .goon m' ∧ Moves m m' ∧ (Saving m ∧ Holding m' ∨ ¬ Saving m ∧ SameMaps m m') := by
    intro x hsaving hx hxo
    obtain ⟨m', hm', hmoves, hholding⟩ := hx o hxo
    exact ⟨m', hm', hmoves, .inl ⟨hsaving, hholding⟩⟩
  rw [Shape] at h
  cases hnext : m.next_state with
  | state_begin =>
      rw [hnext] at ho
      -- the first boundary is looked for like the others
      obtain ⟨m', hm', hmoves, hmaps⟩ := isBoundary_yields (.inr rfl) rfl o ho
      refine .inr ⟨m', hm', ⟨hmoves.length, hmoves.shape, ?_⟩, .inr ⟨hnot ?_, hmaps⟩⟩
      · have hcost := hmoves.cost_lt
        rw [cost] at hcost ⊢
        rw [cost, hnext]
        exact hcost
      · rw [hnext]
        decide
  | state_is_boundary =>
      rw [hnext] at ho h
      exact .inr (hsame (by rw [hnext]; decide) (isBoundary_yields (.inl h) (by rw [hnext]; rfl)) ho)
  | state_boundary =>
      rw [hnext] at ho
      exact .inr (hsame (by rw [hnext]; decide) (atBoundary_yields boundary (by rw [hnext]; rfl)) ho)
  | state_save_data =>
      rw [hnext] at ho h
      exact .inr (hstored ⟨hrun, .inl hnext⟩ (saveData_yields hash h (by rw [hnext]; rfl)) ho)
  | state_save_file =>
      rw [hnext] at ho h
      exact .inr (hstored ⟨hrun, .inr hnext⟩ (saveFile_yields hash h (by rw [hnext]; rfl)) ho)
  | state_header =>
      rw [hnext] at ho
      exact .inr (hsame (by rw [hnext]; decide) (atHeader_yields hnext) ho)
  | state_content =>
      rw [hnext] at ho
      exact .inr (hsame (by rw [hnext]; decide) (atContent_yields (by rw [hnext]; rfl)) ho)
  | state_data =>
      rw [hnext] at ho h
      refine .inr ⟨_, (Except.ok.inj ho).symm, ⟨rfl, rfl, ?_⟩, .inr ⟨hnot ?_, rfl, rfl⟩⟩
      · exact cost_lt (v := 1) (w := 0) rfl (by rw [hnext]; rfl) rfl
          (.inr ⟨Nat.lt_succ_self _, h, by decide⟩)
      · rw [hnext]
        decide
  | state_error =>
      rw [hnext] at ho
      exact .inl ⟨false, (Except.ok.inj ho).symm, fun _ => .inr hnext⟩
  | state_end =>
      rw [hnext] at ho
      exact .inl ⟨true, (Except.ok.inj ho).symm, nofun⟩

end

/-! ## Runs -/

section

variable {hash : Bytes → UInt64} {boundary body : Bytes} {behind : UInt8}

theorem step_moves {m m' : Machine} (h : Shape m) (hstep : step hash boundary m = .ok (.goon m')) :
    Moves m m' ∧ (Saving m ∧ Holding m' ∨ ¬ Saving m ∧ SameMaps m m') := by
  rcases step_cases h hstep with ⟨ok, hdone, -⟩ | ⟨m'', hgoon, hmoves⟩
  · nomatch hdone
  · cases hgoon
    exact hmoves

theorem reaches_shape {m m' : Machine} (h : Shape m) (hreach : Reaches (step hash boundary) m m') :
    Shape m' :=
  hreach.invariant h fun _ _ hm hstep => (step_moves hm hstep).1.shape

/-- The loop ends. -/
theorem parse_run (hash : Bytes → UInt64) (boundary body : Bytes) (behind : UInt8) :
    (run (step hash boundary) (5 * body.length + 8) (start body behind)).isSome := by
  refine run_isSome (μ := cost) (P := Shape) (fun _ _ h hstep => (step_moves h hstep).1.shape)
    (fun _ _ h hstep => (step_moves h hstep).1.cost_lt) trivial ?_
  rw [cost]
  simp only [start, weight, List.length_append, List.length_singleton]
  omega

theorem parse_eq {r : Except Fault Result}
    (h : run (step hash boundary) (5 * body.length + 8) (start body behind) = some r)
    (hcap : body.length < capacity body.length) :
    parse_multipart_form hash boundary body behind = r := by
  rw [parse_multipart_form]
  split_ifs with hempty hlong
  · subst hempty
    exact Option.some.inj h
  · exact absurd hcap (Nat.not_lt.mpr hlong)
  · rw [h]

/-- A part that is in the maps stays there. -/
theorem holding_of_reaches {m m' : Machine} (hshape : Shape m) (h : Holding m)
    (hreach : Reaches (step hash boundary) m m') : Holding m' := by
  refine (hreach.invariant (P := fun m => Shape m ∧ Holding m) ⟨hshape, h⟩ ?_).2
  rintro s s' ⟨hs, hholding⟩ hstep
  obtain ⟨hmoves, ⟨-, hnew⟩ | ⟨-, hform, hfiles⟩⟩ := step_moves hs hstep
  · exact ⟨hmoves.shape, hnew⟩
  · rw [Holding, ← hform, ← hfiles] at hholding
    exact ⟨hmoves.shape, hholding⟩

/-- There is nothing in the maps before a turn stores a part. -/
theorem saved_of_holding {m : Machine} (hreach : Reaches (step hash boundary) (start body behind) m)
    (h : Holding m) : ∃ s, Reaches (step hash boundary) (start body behind) s ∧ Saving s ∧
      Reaches (step hash boundary) s m := by
  induction hreach with
  | refl => exact absurd h (by rw [Holding, not_or, not_not, not_not]; exact ⟨rfl, rfl⟩)
  | tail hreach hstep ih =>
      have hshape := reaches_shape (m := start body behind) trivial hreach
      obtain ⟨-, ⟨hsaving, -⟩ | ⟨-, hform, hfiles⟩⟩ := step_moves hshape hstep
      · exact ⟨_, hreach, hsaving, .single hstep⟩
      · rw [Holding, hform, hfiles] at h
        obtain ⟨s, hs, hsaving, hrest⟩ := ih h
        exact ⟨s, hs, hsaving, hrest.trans (.single hstep)⟩

/-- **A call that fails has stored nothing exactly when no turn that finds an error, or the end of the
body, comes behind a turn that stores a part.** -/
theorem multipart_atomic_iff (hash : Bytes → UInt64) (boundary body : Bytes) (behind : UInt8) :
    Atomic hash boundary body behind ↔ (body.length < capacity body.length → ∀ s m,
      Reaches (step hash boundary) (start body behind) s → Saving s →
      Reaches (step hash boundary) s m → ¬ Failing m) := by
  obtain ⟨r, hr⟩ := Option.isSome_iff_exists.mp (parse_run hash boundary body behind)
  constructor
  · intro h hcap s m hs hsaving hm hfailing
    have hshape := reaches_shape (m := start body behind) trivial hs
    have hstep := step_failing hash boundary hfailing
    -- behind the turn that stores a part there is one in the maps
    have hholding : Holding m := by
      rcases Relation.ReflTransGen.cases_head hm with rfl | ⟨s', hnext, hrest⟩
      · rcases hfailing with hover | herror
        · exact absurd hsaving.1 hover
        · rcases hsaving.2 with hsave | hsave
          · rw [herror] at hsave
            cases hsave
          · rw [herror] at hsave
            cases hsave
      · obtain ⟨hmoves, ⟨-, hnew⟩ | ⟨hnot, -⟩⟩ := step_moves hshape hnext
        · exact holding_of_reaches hmoves.shape hnew hrest
        · exact absurd hsaving hnot
    have hrun : run (step hash boundary) 1 m = some (.ok (false, m.form, m.files)) := by
      rw [run, hstep]
    have hres := run_of_reaches (hs.trans hm) hr hrun
    obtain ⟨hform, hfiles⟩ := h m.form m.files ((parse_eq hr hcap).trans hres)
    exact hholding.elim (fun hne => hne hform) fun hne => hne hfiles
  · intro h form files hparse
    by_cases hcap : body.length < capacity body.length
    · rw [parse_eq hr hcap] at hparse
      obtain ⟨m, hm, ⟨b, hdone, hb⟩ | ⟨e, -, he⟩⟩ := exists_last hr
      · have hshape := reaches_shape (m := start body behind) trivial hm
        rw [hb] at hparse
        rw [Except.ok.inj hparse] at hdone
        rcases step_cases hshape hdone with ⟨ok, hok, hfail⟩ | ⟨m', hgoon, -⟩
        · obtain ⟨rfl, rfl, rfl⟩ : false = ok ∧ form = m.form ∧ files = m.files := by
            cases hok
            exact ⟨rfl, rfl, rfl⟩
          by_contra hnone
          have hholding : Holding m := not_and_or.mp hnone
          obtain ⟨s, hs, hsaving, hrest⟩ := saved_of_holding hm hholding
          exact h hcap s m hs hsaving hrest (hfail rfl)
        · cases hgoon
      · rw [he] at hparse
        cases hparse
    · have hnil : body ≠ [] := by
        rintro rfl
        exact hcap (by decide)
      rw [parse_multipart_form, if_neg hnil, if_pos (Nat.le_of_not_lt hcap)] at hparse
      cases hparse

end

/-- One part, and nothing behind the last delimiter: the call fails and the part is in the form. -/
theorem not_atomic_bareEnd : ¬ ∀ (hash : Bytes → UInt64) (boundary body : Bytes) (behind : UInt8),
    Atomic hash boundary body behind := by
  intro h
  have hparse : (parse_multipart_form (fun _ => 0) (str "X")
      (str "--X\r\nContent-Disposition:form-data;name=\"a\"\r\n\r\n1\r\n--X--") NUL).toOption.any
        (fun r => !r.1 && r.2.1 == [(str "a", str "1")]) = true := by decide +kernel
  cases hres : parse_multipart_form (fun _ => 0) (str "X")
      (str "--X\r\nContent-Disposition:form-data;name=\"a\"\r\n\r\n1\r\n--X--") NUL with
  | error e =>
      rw [hres] at hparse
      nomatch hparse
  | ok res =>
      obtain ⟨ok, form, files⟩ := res
      rw [hres] at hparse
      simp only [Except.toOption, Option.any_some, Bool.and_eq_true, Bool.not_eq_true',
        beq_iff_eq] at hparse
      rw [hparse.1] at hres
      rw [(h _ _ _ _ _ _ hres).1] at hparse
      nomatch hparse.2

end Suil.Http.Multipart
