import Suil.Basic.BlobJson
import Suil.Lib.StepMachine

set_option autoImplicit false

/-! # Where the scans of strings read

`fill<suil::String>` and `fill<suil::Data>` (`json.h`) look for the closing quote with a cursor of their
own, `end`, while `eof()` (`iod/json.hh`) looks at `pos`, which stays where it is. Every access is
checked here. `scans_iff` says for which texts and positions they stay inside the text. -/

namespace Suil.BlobJson

open Json (BACKSLASH)
open StepMachine (Next)

/-! ## Scanning with the decoder -/

/-- `str[i]`. -/
def Parser.read (p : Parser) (i : Nat) : Except Fault UInt8 :=
  match p.str[i]? with
  | some c => .ok c
  | none => .error .overrun

/-- `operator>>(char)`. -/
def Parser.accept (p : Parser) (t : UInt8) : Except Fault Parser := do
  let c ← p.read p.pos
  if c = t then .ok { p with pos := p.pos + 1 } else .error (.expected t)

def Parser.eof (p : Parser) : Bool := p.pos = p.str.length

/-- `while (str[end] != '"') end++;`, over what there is from `end` on. -/
def seekQuote : Bytes → Nat → Except Fault Nat
  | [], _ => .error .overrun
  | c :: s, stop => if c ≠ DQUOTE then seekQuote s (stop + 1) else .ok stop

/-- `while (!eof() and str[end] != '"') end++;`. -/
def Parser.seek (p : Parser) (stop : Nat) : Except Fault Nat :=
  if p.eof then .ok stop else seekQuote (p.str.drop stop) stop

/-- `end - sb`, behind the loop that counts the backslashes in front of `end`. -/
def Parser.behind (p : Parser) (stop : Nat) : Nat :=
  ((p.str.take stop).reverse.takeWhile (· = BACKSLASH)).length + 1

/-- One round of the outer loop. -/
def Parser.round (p : Parser) (stop : Nat) : Except Fault (Next Nat Nat) := do
  let stop ← p.seek stop
  if p.behind stop % 2 = 1 then .ok (.done stop) else .ok (.goon (stop + 1))

/-- The loop, in at most as many rounds as the text has characters, and one more. -/
def Parser.scan (p : Parser) : Option (Except Fault Nat) :=
  StepMachine.run p.round (p.str.length + 1) p.pos

/-- `fill<suil::String>`; nothing when it does not come to an end. -/
def Parser.readString (p : Parser) : Option (Except Fault (Str × Parser)) :=
  match p.accept DQUOTE with
  | .error f => some (.error f)
  | .ok p => p.scan.map fun r => do
      let stop ← r
      .ok (Str.dup ⟨some (p.str.drop p.pos), (stop - p.pos) % OBuffer.UINT32⟩,
        { p with pos := stop + 1 })

/-- `fill<suil::Data>`: the quote is asked for again by the `fill` of a string. -/
def Parser.readData (fresh : UInt8 × UInt8) (p : Parser) : Option (Except Fault (Bytes × Parser)) :=
  match p.accept DQUOTE with
  | .error f => some (.error f)
  | .ok p =>
      match p.scan with
      | none => none
      | some (.error f) => some (.error f)
      | some (.ok stop) => p.readString.map fun r => do
          let (tmp, p) ← r
          let out ← bytes tmp (tmp.len / 2 + 2)
          .ok (out ++ [fresh.1, fresh.2], { p with pos := stop + 1 })

/-! ## Strings with a closing quote -/

/-- The characters of a string: a backslash takes the next one with it. -/
inductive Units : Bytes → Prop where
  | nil : Units []
  | plain {c : UInt8} {s : Bytes} (hquote : c ≠ DQUOTE) (hback : c ≠ BACKSLASH) (h : Units s) :
      Units (c :: s)
  | escaped (c : UInt8) {s : Bytes} (h : Units s) : Units (BACKSLASH :: c :: s)

/-- There is a closing quote for a string whose characters start here. -/
def Closed (s : Bytes) : Prop := ∃ chars rest, Units chars ∧ s = chars ++ DQUOTE :: rest

/-- The call comes to an end, reads inside the text only, and gives an error when there is no closing
quote. -/
def Guarded {α : Type} (p : Parser) (out : Option (Except Fault α)) : Prop :=
  ∃ r, out = some r ∧ r ≠ .error .overrun ∧
    (¬ Closed (p.str.drop (p.pos + 1)) → ∃ f, r = .error f)

/-! ## Closing quotes -/

/-- An odd number of backslashes at the end. -/
def oddRun (s : Bytes) : Bool := (s.reverse.takeWhile (· = BACKSLASH)).length % 2 = 1

theorem oddRun_snoc (s : Bytes) (c : UInt8) :
    oddRun (s ++ [c]) = (decide (c = BACKSLASH) && !oddRun s) := by
  rw [oddRun, List.reverse_append, List.reverse_singleton, List.singleton_append, List.takeWhile_cons]
  by_cases hc : c = BACKSLASH
  · rw [if_pos (decide_eq_true hc), List.length_cons, decide_eq_true hc, Bool.true_and, oddRun]
    rcases Nat.mod_two_eq_zero_or_one (s.reverse.takeWhile (· = BACKSLASH)).length with h | h
    · simp [h, Nat.add_mod]
    · simp [h, Nat.add_mod]
  · rw [if_neg (by simpa using hc), decide_eq_false hc]
    rfl

/-- The quote is looked for behind characters that are no quotes. -/
theorem quoteAt_append {w : Bytes} (h : DQUOTE ∉ w) (pre s : Bytes) :
    quoteAt (oddRun pre) (w ++ s) = (quoteAt (oddRun (pre ++ w)) s).map (· + w.length) := by
  induction w generalizing pre with
  | nil => simp
  | cons c w ih =>
      have hc : c ≠ DQUOTE := fun heq => h (heq ▸ List.mem_cons_self)
      have hw : DQUOTE ∉ w := fun hmem => h (List.mem_cons_of_mem c hmem)
      have hnext : pre ++ c :: w = pre ++ [c] ++ w := by simp
      rw [List.cons_append, quoteAt, if_neg fun heq => hc heq.1, ← oddRun_snoc, ih hw, hnext,
        Option.map_map]
      rfl

theorem quoteAt_none {w : Bytes} (h : DQUOTE ∉ w) (odd : Bool) : quoteAt odd w = none := by
  induction w generalizing odd with
  | nil => rfl
  | cons c w ih =>
      have hc : c ≠ DQUOTE := fun heq => h (heq ▸ List.mem_cons_self)
      rw [quoteAt, if_neg fun heq => hc heq.1, ih fun hmem => h (List.mem_cons_of_mem c hmem)]
      rfl

/-- A character that a backslash has taken. -/
theorem quoteAt_taken (c : UInt8) (s : Bytes) :
    quoteAt true (c :: s) = (quoteAt false s).map (· + 1) := by
  rw [quoteAt, if_neg fun heq => by cases heq.2]
  simp

/-- A backslash takes the next character with it. -/
theorem quoteAt_escaped (c : UInt8) (s : Bytes) :
    quoteAt false (BACKSLASH :: c :: s) = (quoteAt false s).map (· + 2) := by
  have hfirst : quoteAt false (BACKSLASH :: c :: s) = (quoteAt true (c :: s)).map (· + 1) := rfl
  rw [hfirst, quoteAt_taken, Option.map_map]
  rfl

theorem quoteAt_cons {c : UInt8} (hquote : c ≠ DQUOTE) (hback : c ≠ BACKSLASH) (s : Bytes) :
    quoteAt false (c :: s) = (quoteAt false s).map (· + 1) := by
  rw [quoteAt, if_neg fun heq => hquote heq.1, decide_eq_false hback, Bool.false_and]

/-- Complete characters are not looked at any more. -/
theorem quoteAt_units {chars : Bytes} (h : Units chars) (s : Bytes) :
    quoteAt false (chars ++ s) = (quoteAt false s).map (· + chars.length) := by
  induction h with
  | nil => simp
  | plain hquote hback _ ih =>
      rw [List.cons_append, quoteAt_cons hquote hback, ih, Option.map_map]
      rfl
  | escaped c _ ih =>
      rw [List.cons_append, List.cons_append, quoteAt_escaped, ih, Option.map_map]
      rfl

/-- **The quote that is found closes the string.** -/
theorem quoteAt_eq_some_iff {s : Bytes} {n : Nat} : quoteAt false s = some n ↔
    ∃ chars rest, Units chars ∧ s = chars ++ DQUOTE :: rest ∧ chars.length = n := by
  constructor
  · intro h
    induction hlen : s.length using Nat.strong_induction_on generalizing s n with
    | _ k ih =>
        cases s with
        | nil => cases h
        | cons c s =>
            by_cases hquote : c = DQUOTE
            · rw [quoteAt, if_pos ⟨hquote, rfl⟩] at h
              cases h
              exact ⟨[], s, .nil, by rw [hquote]; rfl, rfl⟩
            by_cases hback : c = BACKSLASH
            · cases s with
              | nil =>
                  rw [hback] at h
                  cases h
              | cons d s =>
                  rw [hback, quoteAt_escaped] at h
                  obtain ⟨m, hm, rfl⟩ := Option.map_eq_some_iff.mp h
                  have hless : s.length < k := by
                    rw [← hlen, List.length_cons, List.length_cons]
                    omega
                  obtain ⟨chars, rest, hunits, rfl, rfl⟩ := ih s.length hless hm rfl
                  exact ⟨BACKSLASH :: d :: chars, rest, .escaped d hunits, by rw [hback]; rfl, rfl⟩
            · rw [quoteAt_cons hquote hback] at h
              obtain ⟨m, hm, rfl⟩ := Option.map_eq_some_iff.mp h
              have hless : s.length < k := by
                rw [← hlen, List.length_cons]
                omega
              obtain ⟨chars, rest, hunits, rfl, rfl⟩ := ih s.length hless hm rfl
              exact ⟨c :: chars, rest, .plain hquote hback hunits, rfl, rfl⟩
  · rintro ⟨chars, rest, hunits, rfl, rfl⟩
    rw [quoteAt_units hunits, quoteAt, if_pos ⟨rfl, rfl⟩]
    simp

theorem closed_iff (s : Bytes) : Closed s ↔ ∃ n, quoteAt false s = some n := by
  constructor
  · rintro ⟨chars, rest, hunits, rfl⟩
    exact ⟨chars.length, quoteAt_eq_some_iff.mpr ⟨chars, rest, hunits, rfl, rfl⟩⟩
  · rintro ⟨n, hn⟩
    obtain ⟨chars, rest, hunits, hs, -⟩ := quoteAt_eq_some_iff.mp hn
    exact ⟨chars, rest, hunits, hs⟩

/-! ## The loops -/

variable {p : Parser}

/-- The inner loop stops at the next quote, or behind the text. -/
theorem seekQuote_spec (s : Bytes) (stop : Nat) :
    (∃ w rest, DQUOTE ∉ w ∧ s = w ++ DQUOTE :: rest ∧ seekQuote s stop = .ok (stop + w.length)) ∨
      (DQUOTE ∉ s ∧ seekQuote s stop = .error .overrun) := by
  induction s generalizing stop with
  | nil => exact .inr ⟨List.not_mem_nil, rfl⟩
  | cons c s ih =>
      by_cases hc : c = DQUOTE
      · refine .inl ⟨[], s, List.not_mem_nil, by rw [hc]; rfl, ?_⟩
        rw [seekQuote, if_neg (not_not.mpr hc)]
        rfl
      · rw [seekQuote, if_pos hc]
        rcases ih (stop + 1) with ⟨w, rest, hw, rfl, hstop⟩ | ⟨hnone, hstop⟩
        · refine .inl ⟨c :: w, rest, ?_, rfl, ?_⟩
          · exact List.not_mem_cons_of_ne_of_not_mem (fun h => hc h.symm) hw
          · rw [hstop, List.length_cons, Nat.add_right_comm, Nat.add_assoc]
        · exact .inr ⟨List.not_mem_cons_of_ne_of_not_mem (fun h => hc h.symm) hnone, hstop⟩

theorem behind_iff (p : Parser) (stop : Nat) :
    p.behind stop % 2 = 1 ↔ oddRun (p.str.take stop) = false := by
  rw [Parser.behind, oddRun, decide_eq_false_iff_not]
  omega

/-- What the outer loop finds, when these characters are behind it and in front of it. -/
def closing (pre s : Bytes) : Except Fault Nat :=
  match quoteAt (oddRun pre) s with
  | some n => .ok (pre.length + n)
  | none => .error .overrun

/-- A round that ends at a quote. -/
private theorem round_quote (heof : p.eof = false) {pre w rest : Bytes}
    (hstr : p.str = pre ++ (w ++ DQUOTE :: rest))
    (hseek : seekQuote (w ++ DQUOTE :: rest) pre.length = .ok (pre.length + w.length)) :
    p.round pre.length = if oddRun (pre ++ w) = false then .ok (.done (pre.length + w.length))
      else .ok (.goon (pre.length + w.length + 1)) := by
  have htake : p.str.take (pre.length + w.length) = pre ++ w := by
    rw [hstr, ← List.append_assoc, List.take_left' List.length_append]
  have hrest : p.seek pre.length = .ok (pre.length + w.length) := by
    rw [Parser.seek, heof, hstr, List.drop_left]
    exact hseek
  rw [Parser.round, hrest, Except.bind_of_ok]
  by_cases hodd : oddRun (pre ++ w) = false
  · rw [if_pos hodd, if_pos ((behind_iff p _).mpr (by rw [htake]; exact hodd))]
  · rw [if_neg hodd, if_neg fun h => hodd (by rw [← htake]; exact (behind_iff p _).mp h)]

/-- The loop from anywhere: each round goes up to a quote, and the next one starts behind it. -/
private theorem run_round (heof : p.eof = false) {fuel : Nat} {pre s : Bytes}
    (hstr : p.str = pre ++ s) (hfuel : s.length < fuel) :
    StepMachine.run p.round fuel pre.length = some (closing pre s) := by
  induction fuel generalizing pre s with
  | zero => omega
  | succ fuel ih =>
      rcases seekQuote_spec s pre.length with ⟨w, rest, hw, rfl, hseek⟩ | ⟨hnone, hseek⟩
      · rw [StepMachine.run, round_quote heof hstr hseek, closing, quoteAt_append hw]
        cases hodd : oddRun (pre ++ w) with
        | false =>
            rw [if_pos rfl, quoteAt, if_pos ⟨rfl, rfl⟩]
            simp
        | true =>
            have hnext : p.str = (pre ++ w ++ [DQUOTE]) ++ rest := by simp [hstr]
            have hlength : (pre ++ w ++ [DQUOTE]).length = pre.length + w.length + 1 := by
              rw [List.length_append, List.length_append, List.length_singleton]
            have heven : oddRun (pre ++ w ++ [DQUOTE]) = false := by
              rw [oddRun_snoc, hodd]
              rfl
            have hless : rest.length < fuel := by
              rw [List.length_append, List.length_cons] at hfuel
              omega
            have hrun := ih hnext hless
            rw [hlength, closing, heven, hlength] at hrun
            rw [if_neg Bool.false_ne_true.symm, quoteAt_taken]
            refine hrun.trans (congrArg some ?_)
            cases quoteAt false rest with
            | none => rfl
            | some n =>
                show Except.ok (pre.length + w.length + 1 + n) =
                  Except.ok (pre.length + (n + 1 + w.length))
                congr 1
                omega
      · have hseek' : p.seek pre.length = .error .overrun := by
          rw [Parser.seek, heof, hstr, List.drop_left]
          exact hseek
        rw [StepMachine.run, Parser.round, hseek', closing, quoteAt_none hnone]
        rfl

/-- **The loop ends.** It gives the closing quote, or leaves the text when there is none. -/
theorem scan_eq (hpos : p.pos < p.str.length)
    (hquote : ∃ pre, p.str.take p.pos = pre ++ [DQUOTE]) :
    p.scan = some (closing (p.str.take p.pos) (p.str.drop p.pos)) ∧
      oddRun (p.str.take p.pos) = false := by
  obtain ⟨pre, hpre⟩ := hquote
  have heof : p.eof = false := decide_eq_false (Nat.ne_of_lt hpos)
  have hlength : (p.str.take p.pos).length = p.pos := List.length_take_of_le (Nat.le_of_lt hpos)
  have hfuel : (p.str.drop p.pos).length < p.str.length + 1 := by
    rw [List.length_drop]
    omega
  have hrun := run_round heof (List.take_append_drop p.pos p.str).symm hfuel
  rw [hlength] at hrun
  refine ⟨hrun, ?_⟩
  rw [hpre, oddRun_snoc]
  rfl

/-- At the end of the text the loop stops at once. -/
theorem scan_eof (hpos : p.pos = p.str.length) (hquote : ∃ pre, p.str = pre ++ [DQUOTE]) :
    p.scan = some (.ok p.pos) := by
  obtain ⟨pre, hpre⟩ := hquote
  have hseek : p.seek p.pos = .ok p.pos := if_pos (decide_eq_true hpos)
  have heven : oddRun (p.str.take p.pos) = false := by
    rw [hpos, List.take_length, hpre, oddRun_snoc]
    rfl
  rw [Parser.scan, StepMachine.run, Parser.round, hseek, Except.bind_of_ok,
    if_pos ((behind_iff p p.pos).mpr heven)]

/-! ## The decoders -/

theorem accept_of_none (h : p.str[p.pos]? = none) (t : UInt8) : p.accept t = .error .overrun := by
  rw [Parser.accept, Parser.read, h]
  rfl

theorem accept_of_some {c : UInt8} (h : p.str[p.pos]? = some c) (t : UInt8) :
    p.accept t = if c = t then .ok { p with pos := p.pos + 1 } else .error (.expected t) := by
  rw [Parser.accept, Parser.read, h]
  rfl

/-- Inside the text the quote is asked for as it is. -/
theorem accept_eq (h : p.pos < p.str.length) (t : UInt8) : p.accept t = p.expect t := by
  have hsome : p.str[p.pos]? = some (p.str.getD p.pos NUL) := by
    rw [List.getD_eq_getElem?_getD, List.getElem?_eq_getElem h]
    rfl
  rw [accept_of_some hsome, Parser.expect]

/-- What the loop finds behind an opening quote. -/
theorem scan_behind_quote (h : p.str[p.pos]? = some DQUOTE) :
    ({ p with pos := p.pos + 1 } : Parser).scan =
      some (({ p with pos := p.pos + 1 } : Parser).textLength.map (p.pos + 1 + ·)) := by
  have hlt := (List.getElem?_eq_some_iff.mp h).1
  have htake : p.str.take (p.pos + 1) = p.str.take p.pos ++ [DQUOTE] := by
    rw [List.take_add_one, h]
    rfl
  rcases Nat.lt_or_eq_of_le (Nat.succ_le_of_lt hlt) with hless | hend
  · obtain ⟨hscan, heven⟩ := scan_eq (p := { p with pos := p.pos + 1 }) hless ⟨_, htake⟩
    have hne : p.str.drop (p.pos + 1) ≠ [] := by
      intro hnil
      have := List.drop_eq_nil_iff.mp hnil
      omega
    have hlength : (p.str.take (p.pos + 1)).length = p.pos + 1 := List.length_take_of_le hless.le
    rw [hscan, closing, heven, hlength, Parser.textLength, if_neg hne]
    cases quoteAt false (p.str.drop (p.pos + 1)) with
    | none => rfl
    | some n => rfl
  · have hall : p.str = p.str.take p.pos ++ [DQUOTE] := by
      rw [← htake, List.take_of_length_le (Nat.le_of_eq hend.symm)]
    have hnil : p.str.drop (p.pos + 1) = [] := List.drop_of_length_le (Nat.le_of_eq hend.symm)
    rw [scan_eof (p := { p with pos := p.pos + 1 }) hend ⟨_, hall⟩, Parser.textLength, if_pos hnil]
    rfl

/-- **Where there is a character, the loops are what `fillString` takes them for.** -/
theorem readString_eq (h : p.pos < p.str.length) : p.readString = some p.fillString := by
  rw [Parser.readString, Parser.fillString, ← accept_eq h]
  have hsome := List.getElem?_eq_getElem h
  rw [accept_of_some hsome]
  by_cases hquote : p.str[p.pos] = DQUOTE
  · rw [hquote] at hsome
    rw [if_pos hquote]
    dsimp only
    rw [scan_behind_quote hsome, Except.bind_of_ok]
    cases ({ p with pos := p.pos + 1 } : Parser).textLength with
    | error f => rfl
    | ok n =>
        show some (Except.ok (Str.dup ⟨_, (p.pos + 1 + n - (p.pos + 1)) % OBuffer.UINT32⟩, _)) = _
        rw [Nat.add_sub_cancel_left]
        rfl
  · rw [if_neg hquote]
    rfl

/-! ## Where they read -/

/-- Outside of the text there is no character to compare with. -/
private theorem not_guarded_of_overrun {α : Type} {out : Option (Except Fault α)}
    (h : out = some (.error .overrun)) : ¬ Guarded p out := by
  rintro ⟨r, hr, hne, -⟩
  rw [h] at hr
  exact hne (Option.some.inj hr).symm

private theorem guarded_of_error {α : Type} {out : Option (Except Fault α)} {f : Fault}
    (h : out = some (.error f)) (hf : f ≠ .overrun) : Guarded p out :=
  ⟨.error f, h, fun heq => hf (Except.error.inj heq), fun _ => ⟨f, rfl⟩⟩

private theorem guarded_of_ok {α : Type} {out : Option (Except Fault α)} {a : α}
    (h : out = some (.ok a)) : Guarded p out ↔ Closed (p.str.drop (p.pos + 1)) := by
  constructor
  · rintro ⟨r, hr, -, hreported⟩
    rw [h] at hr
    obtain rfl := Option.some.inj hr
    by_contra hopen
    obtain ⟨f, hf⟩ := hreported hopen
    nomatch hf
  · intro hclosed
    exact ⟨.ok a, h, nofun, fun hopen => absurd hclosed hopen⟩

/-- What the loop finds, and when there is something to find. -/
private theorem textLength_spec (p : Parser) :
    (p.str.drop p.pos = [] ∧ p.textLength = .ok 0) ∨
      (Closed (p.str.drop p.pos) ∧ ∃ n, p.textLength = .ok n) ∨
        (p.str.drop p.pos ≠ [] ∧ ¬ Closed (p.str.drop p.pos) ∧ p.textLength = .error .overrun) := by
  by_cases hnil : p.str.drop p.pos = []
  · exact .inl ⟨hnil, by rw [Parser.textLength, if_pos hnil]⟩
  · refine .inr ?_
    rw [Parser.textLength, if_neg hnil, closed_iff]
    cases hquote : quoteAt false (p.str.drop p.pos) with
    | none => exact .inr ⟨hnil, (fun h => h.elim fun _ h => by cases h), rfl⟩
    | some n => exact .inl ⟨⟨n, rfl⟩, n, rfl⟩

theorem not_closed_nil : ¬ Closed [] := by
  rw [closed_iff]
  exact nofun

/-- The decoder of strings, behind an opening quote. -/
theorem fillString_of_quote (h : p.str[p.pos]? = some DQUOTE) :
    p.fillString = ({ p with pos := p.pos + 1 } : Parser).textLength.map fun n =>
      (Str.dup ⟨some (p.str.drop (p.pos + 1)), n % OBuffer.UINT32⟩,
        { p with pos := p.pos + 1 + n + 1 }) := by
  have hlt := (List.getElem?_eq_some_iff.mp h).1
  rw [Parser.fillString, ← accept_eq hlt, accept_of_some h, if_pos rfl, Except.bind_of_ok]
  cases ({ p with pos := p.pos + 1 } : Parser).textLength with
  | error f => rfl
  | ok n => rfl

private theorem fillString_of_other (hlt : p.pos < p.str.length) (h : p.str[p.pos]? ≠ some DQUOTE) :
    p.fillString = .error (.expected DQUOTE) := by
  have hsome := List.getElem?_eq_getElem hlt
  rw [hsome, Ne, Option.some_inj] at h
  rw [Parser.fillString, ← accept_eq hlt, accept_of_some hsome, if_neg h]
  rfl

/-- **`fill` of a string stays inside the text exactly when there is a character at the position, and a
closing quote if the character is a quote.** -/
theorem readString_guarded_iff (p : Parser) : Guarded p p.readString ↔
    p.pos < p.str.length ∧
      (p.str[p.pos]? = some DQUOTE → Closed (p.str.drop (p.pos + 1))) := by
  by_cases hlt : p.pos < p.str.length
  swap
  · have hnone : p.str[p.pos]? = none := List.getElem?_eq_none (Nat.le_of_not_lt hlt)
    refine iff_of_false (not_guarded_of_overrun ?_) fun h => hlt h.1
    rw [Parser.readString, accept_of_none hnone]
  rw [and_iff_right hlt, readString_eq hlt]
  by_cases hquote : p.str[p.pos]? = some DQUOTE
  swap
  · refine iff_of_true (guarded_of_error (f := .expected DQUOTE) ?_ nofun) fun h => absurd h hquote
    rw [fillString_of_other hlt hquote]
  rw [forall_prop_of_true hquote, fillString_of_quote hquote]
  rcases textLength_spec { p with pos := p.pos + 1 } with ⟨-, hlen⟩ | ⟨-, n, hlen⟩ | ⟨-, hopen, hlen⟩
  · rw [hlen]
    exact guarded_of_ok rfl
  · rw [hlen]
    exact guarded_of_ok rfl
  · rw [hlen]
    exact iff_of_false (not_guarded_of_overrun rfl) hopen

theorem c2i_ne_overrun (c : UInt8) : c2i c ≠ .error .overrun := by
  rw [c2i]
  split_ifs
  · exact nofun
  · exact nofun
  · exact nofun
  · exact nofun

/-- The digits of a copy are in its memory: the NUL behind them is no digit. -/
theorem digitPairs_ne_overrun (n : Nat) (s : Bytes) : digitPairs n s ≠ .error .overrun := by
  induction n generalizing s with
  | zero => exact fun h => by cases h
  | succ n ih =>
      rw [digitPairs]
      cases hhigh : c2i (s.headD NUL) with
      | error f =>
          intro h
          cases h
          exact c2i_ne_overrun _ hhigh
      | ok high =>
          cases hlow : c2i (s.tail.headD NUL) with
          | error f =>
              intro h
              cases h
              exact c2i_ne_overrun _ hlow
          | ok low =>
              cases hrest : digitPairs n s.tail.tail with
              | error f =>
                  intro h
                  cases h
                  exact ih s.tail.tail hrest
              | ok out => exact fun h => by cases h

theorem bytes_ne_overrun (s : Str) (olen : Nat) : bytes s olen ≠ .error .overrun := by
  rw [bytes]
  split_ifs
  · exact nofun
  · exact digitPairs_ne_overrun _ _

/-- What is made of the string that is read second. -/
private theorem guarded_of_decoded {fresh : UInt8 × UInt8} {x : Except Fault (Str × Parser)} {n : Nat}
    {out : Option (Except Fault (Bytes × Parser))}
    (hout : out = some (x >>= fun r => bytes r.1 (r.1.len / 2 + 2) >>= fun o =>
      .ok (o ++ [fresh.1, fresh.2], { r.2 with pos := n })))
    (hclosed : Closed (p.str.drop (p.pos + 1))) : Guarded p out ↔ x ≠ .error .overrun := by
  cases x with
  | error f =>
      constructor
      · rintro ⟨r, hr, hne, -⟩ heq
        rw [hout, heq] at hr
        exact hne (Option.some.inj hr).symm
      · exact fun h => guarded_of_error hout fun heq => h (congrArg _ heq)
  | ok r =>
      refine iff_of_true ?_ nofun
      cases hbytes : bytes r.1 (r.1.len / 2 + 2) with
      | error f =>
          rw [Except.bind_of_ok, hbytes] at hout
          exact guarded_of_error hout fun heq => bytes_ne_overrun r.1 _ (heq ▸ hbytes)
      | ok o =>
          rw [Except.bind_of_ok, hbytes] at hout
          exact (guarded_of_ok hout).mpr hclosed

/-- A string is read without leaving the text. -/
private theorem fillString_ne_overrun_iff (hlt : p.pos < p.str.length) :
    p.fillString ≠ .error .overrun ↔ (p.str[p.pos]? = some DQUOTE →
      p.str.drop (p.pos + 1) = [] ∨ Closed (p.str.drop (p.pos + 1))) := by
  by_cases hquote : p.str[p.pos]? = some DQUOTE
  swap
  · rw [fillString_of_other hlt hquote]
    exact iff_of_true nofun fun h => absurd h hquote
  rw [forall_prop_of_true hquote, fillString_of_quote hquote]
  rcases textLength_spec { p with pos := p.pos + 1 } with
    ⟨hnil, hlen⟩ | ⟨hclosed, n, hlen⟩ | ⟨hne, hopen, hlen⟩
  · rw [hlen]
    exact iff_of_true nofun (.inl hnil)
  · rw [hlen]
    exact iff_of_true nofun (.inr hclosed)
  · rw [hlen]
    exact iff_of_false (fun h => h rfl) fun h => h.elim hne hopen

/-- **`fill` of data does so exactly when, in addition, a second quote right behind the first one is
followed by nothing or by a closing quote of its own.** -/
theorem readData_guarded_iff (fresh : UInt8 × UInt8) (p : Parser) : Guarded p (p.readData fresh) ↔
    p.pos < p.str.length ∧ (p.str[p.pos]? = some DQUOTE → Closed (p.str.drop (p.pos + 1)) ∧
      (p.str[p.pos + 1]? = some DQUOTE →
        p.str.drop (p.pos + 2) = [] ∨ Closed (p.str.drop (p.pos + 2)))) := by
  by_cases hlt : p.pos < p.str.length
  swap
  · have hnone : p.str[p.pos]? = none := List.getElem?_eq_none (Nat.le_of_not_lt hlt)
    refine iff_of_false (not_guarded_of_overrun ?_) fun h => hlt h.1
    rw [Parser.readData, accept_of_none hnone]
  rw [and_iff_right hlt, Parser.readData]
  by_cases hquote : p.str[p.pos]? = some DQUOTE
  swap
  · have hsome := List.getElem?_eq_getElem hlt
    refine iff_of_true (guarded_of_error (f := .expected DQUOTE) ?_ nofun) fun h => absurd h hquote
    rw [accept_of_some hsome, if_neg]
    rwa [hsome, Option.some_inj] at hquote
  rw [forall_prop_of_true hquote, accept_of_some hquote, if_pos rfl]
  dsimp only
  rw [scan_behind_quote hquote]
  -- the length is looked for from the first quote on, before the text is read
  rcases textLength_spec { p with pos := p.pos + 1 } with
    ⟨hnil, hlen⟩ | ⟨hclosed, n, hlen⟩ | ⟨-, hopen, hlen⟩
  · -- the text ends behind the quote: the second one is looked for outside of it
    have hnone : p.str[p.pos + 1]? = none :=
      List.getElem?_eq_none (List.drop_eq_nil_iff.mp hnil)
    refine iff_of_false (not_guarded_of_overrun ?_) fun h => ?_
    · rw [hlen]
      show Option.map _ (Parser.readString { p with pos := p.pos + 1 }) = _
      rw [Parser.readString, accept_of_none (p := { p with pos := p.pos + 1 }) hnone]
      rfl
    · have hclosed := h.1
      rw [show p.str.drop (p.pos + 1) = [] from hnil] at hclosed
      exact not_closed_nil hclosed
  · have hnext : p.pos + 1 < p.str.length := by
      by_contra hge
      have hnil : p.str.drop (p.pos + 1) = [] := List.drop_of_length_le (Nat.le_of_not_lt hge)
      exact not_closed_nil (hnil ▸ hclosed)
    rw [and_iff_right hclosed, hlen]
    show Guarded p (Option.map _ (Parser.readString { p with pos := p.pos + 1 })) ↔ _
    rw [readString_eq (p := { p with pos := p.pos + 1 }) hnext]
    exact (guarded_of_decoded rfl hclosed).trans (fillString_ne_overrun_iff hnext)
  · rw [hlen]
    exact iff_of_false (not_guarded_of_overrun rfl) fun h => hopen h.1

/-- **The scans of strings stay inside the text, and say that it is not closed, exactly when there is a
character at the position and a closing quote wherever they have taken an opening one.** -/
theorem scans_iff (fresh : UInt8 × UInt8) (text : Sized (2 ^ 31)) (pos : Nat) :
    (Guarded ⟨text.bytes, pos⟩ (Parser.readString ⟨text.bytes, pos⟩) ↔
      pos < text.bytes.length ∧
        (text.bytes[pos]? = some DQUOTE → Closed (text.bytes.drop (pos + 1)))) ∧
    (Guarded ⟨text.bytes, pos⟩ (Parser.readData fresh ⟨text.bytes, pos⟩) ↔
      pos < text.bytes.length ∧ (text.bytes[pos]? = some DQUOTE →
        Closed (text.bytes.drop (pos + 1)) ∧ (text.bytes[pos + 1]? = some DQUOTE →
          text.bytes.drop (pos + 2) = [] ∨ Closed (text.bytes.drop (pos + 2))))) :=
  ⟨readString_guarded_iff _, readData_guarded_iff fresh _⟩

/-- A quote and a letter. -/
theorem not_scans_unclosed : ¬ ∀ (text : Sized (2 ^ 31)) (pos : Nat), pos < text.bytes.length →
    Guarded ⟨text.bytes, pos⟩ (Parser.readString ⟨text.bytes, pos⟩) := by
  intro h
  obtain ⟨r, hr, hne, -⟩ := h ⟨[DQUOTE, 97], by decide⟩ 0 (by decide)
  have hread : Parser.readString ⟨[DQUOTE, 97], 0⟩ = some (.error .overrun) := rfl
  rw [hread] at hr
  exact hne (Option.some.inj hr).symm

end Suil.BlobJson
