import Mathlib
import Suil.Cmdl.Cmd
import Suil.Lib.AssocMap
import Suil.Lib.Traced

set_option autoImplicit false

/-! # What a command line gives

`Written` is the reference: how the elements of a command line give arguments their values.
`parseLoop_iff` says that the loop of `parse` accepts what is written this way, as long as no argument is
repeated in the long form, and `meets_iff` when `parse` does what is expected of it. -/

namespace Suil.Cmdl

open Http (CaseMap)

/-! ## Arguments as they are given -/

/-- An argument that is given, its value, and whether it is in the short form. -/
structure Given where
  arg : Arg
  value : Bytes
  short : Bool

def Given.name (g : Given) : Bytes := g.arg.lf.bytes

def Given.pair (g : Given) : Bytes × Bytes := (g.name, g.value)

/-- An option that is given. -/
def Given.flag (short : Bool) (a : Arg) : Given := ⟨a, str "1", short⟩

/-- The arguments of a command, without the one that asks for help. -/
structure Has (cmd : Cmd) (option : Bool) (a : Arg) : Prop where
  mem : a ∈ cmd.args
  option : a.option = option
  noHelp : a.sf ≠ HELP

/-- The name of the long form starts with a letter, and there is no `=` in it. -/
structure LongName (a : Arg) : Prop where
  letter : ∃ c s, a.lf.bytes = c :: s ∧ isalpha c = true
  free : EQUALS ∉ a.lf.bytes

/-- The short form: the first one is a letter, and none is a `=`. -/
structure Shorts (as : List Arg) : Prop where
  letter : ∃ a as', as = a :: as' ∧ isalpha a.sf = true
  free : EQUALS ∉ as.map Arg.sf

def DASHES : Bytes := [DASH, DASH]

/-- What an element gives, maybe with the next one as a value. -/
inductive Element (cmd : Cmd) : Bytes → Option Bytes → List Given → Prop where
  | longFlag {a : Arg} (ha : Has cmd true a) (hname : LongName a) :
      Element cmd (DASHES ++ a.lf.bytes) none [.flag false a]
  | longEquals {a : Arg} (v : Bytes) (ha : Has cmd false a) (hname : LongName a) :
      Element cmd (DASHES ++ (a.lf.bytes ++ EQUALS :: v)) none [⟨a, v, false⟩]
  | longNext {a : Arg} (v : Bytes) (ha : Has cmd false a) (hname : LongName a) :
      Element cmd (DASHES ++ a.lf.bytes) (some v) [⟨a, v, false⟩]
  | shortFlags {as : List Arg} (has : ∀ a ∈ as, Has cmd true a) (hshorts : Shorts as) :
      Element cmd (DASH :: as.map Arg.sf) none (as.map (.flag true))
  | shortEquals {a : Arg} (v : Bytes) (ha : Has cmd false a) (hshorts : Shorts [a]) :
      Element cmd (DASH :: a.sf :: EQUALS :: v) none [⟨a, v, true⟩]
  | shortNext {as : List Arg} {a : Arg} (v : Bytes) (has : ∀ a ∈ as, Has cmd true a)
      (ha : Has cmd false a) (hshorts : Shorts (as ++ [a])) :
      Element cmd (DASH :: (as ++ [a]).map Arg.sf) (some v) (as.map (.flag true) ++ [⟨a, v, true⟩])

/-- What a command line gives. -/
inductive Written (cmd : Cmd) : List CStr → List Given → Prop where
  | done : Written cmd [] []
  | one {e : CStr} {rest : List CStr} {gs gs' : List Given} (he : Element cmd e.bytes none gs)
      (hrest : Written cmd rest gs') : Written cmd (e :: rest) (gs ++ gs')
  | two {e v : CStr} {rest : List CStr} {gs gs' : List Given}
      (he : Element cmd e.bytes (some v.bytes) gs) (hrest : Written cmd rest gs') :
      Written cmd (e :: v :: rest) (gs ++ gs')

/-- No argument is given twice. -/
def Once (gs : List Given) : Prop := gs.Pairwise fun g g' => g.name ≠ g'.name

/-- Every required argument is given, or can be asked for. -/
def Complete (cmd : Cmd) (gs : List Given) : Prop :=
  cmd.inter = true ∨ ∀ a ∈ cmd.args, a.required = true → a.lf.bytes ∈ gs.map Given.name

/-- What is recorded: what is given, and what an interactive command has asked for. -/
def record (cmd : Cmd) (console : Arg → Bytes) (gs : List Given) : Calls :=
  gs.map Given.pair ++ (cmd.args.filter fun a => a.required && a.lf.bytes ∉ gs.map Given.name).map
    fun a => (a.lf.bytes, console a)

/-- The name or the letter of the argument that asks for help is in this element. -/
def Asks (cmd : Cmd) (e : Bytes) : Prop :=
  ∃ a ∈ cmd.args, a.sf = HELP ∧
    ((∃ x, e = DASHES ++ (a.lf.bytes ++ x)) ∨ ∃ cs x, e = DASH :: (cs ++ HELP :: x))

/-- Help is asked for, behind elements that give something. -/
def AsksHelp (cmd : Cmd) (argv : List CStr) : Prop :=
  ∃ before e after gs, argv = before ++ e :: after ∧ Written cmd before gs ∧ Asks cmd e.bytes

/-- What is expected of `parse`: it succeeds when all elements give something, no argument is given
twice and no required one is missing, and then this is recorded and nothing else; it shows the help when
it is asked for; everything else is an exception. The long and the short form have the same outcome. -/
structure Meets (hash : Bytes → UInt64) (console : Arg → Bytes) (cmd : Cmd) (argv : List CStr) :
    Prop where
  accepted : ∀ m, cmd.parse hash console argv = .ok (false, m) ↔
    ∃ gs, Written cmd argv gs ∧ Once gs ∧ Complete cmd gs ∧ m = record cmd console gs
  asked : ∀ m, cmd.parse hash console argv = .ok (true, m) → AsksHelp cmd argv
  same : ∀ argv' gs gs', Written cmd argv gs → Written cmd argv' gs' →
    gs'.map Given.pair = gs.map Given.pair → (∀ g ∈ gs', g.short = false) →
      ∀ m, cmd.parse hash console argv = .ok (false, m) ↔
        cmd.parse hash console argv' = .ok (false, m)

/-- The names of the arguments have different hashes. -/
def HashesApart (hash : Bytes → UInt64) (cmd : Cmd) : Prop :=
  ∀ a ∈ cmd.args, ∀ b ∈ cmd.args, hash a.lf.bytes = hash b.lf.bytes → a.lf.bytes = b.lf.bytes

/-! ## Elements and their values -/

theorem splitValue_of_notMem {s : Bytes} (h : EQUALS ∉ s) : splitValue s = (s, none) := by
  rw [splitValue, strchr_of_notMem h]

theorem splitValue_append {x v : Bytes} (hx : EQUALS ∉ x) (hnul : NUL ∉ x) :
    splitValue (x ++ EQUALS :: v) = (x, some v) := by
  rw [splitValue, strchr_append hx hnul]
  dsimp only
  rw [List.length_append, Nat.add_sub_cancel, List.take_left, List.tail_cons]

/-- An element has no value, or one behind its first `=`. -/
theorem splitValue_cases {s : Bytes} (hnul : NUL ∉ s) :
    (EQUALS ∉ s ∧ splitValue s = (s, none)) ∨
      ∃ x v, s = x ++ EQUALS :: v ∧ EQUALS ∉ x ∧ NUL ∉ x ∧ splitValue s = (x, some v) := by
  by_cases h : EQUALS ∈ s
  · obtain ⟨x, v, rfl, hx⟩ := List.eq_append_cons_of_mem h
    have hx' : NUL ∉ x := fun hmem => hnul (List.mem_append_left _ hmem)
    exact .inr ⟨x, v, rfl, hx, hx', splitValue_append hx hx'⟩
  · exact .inl ⟨h, splitValue_of_notMem h⟩

set_option maxRecDepth 8000 in
theorem isvalid_dashes {c : UInt8} {s : Bytes} (hc : isalpha c = true) :
    Cmd.isvalid (DASHES ++ c :: s) = 2 := by
  have hno : ∀ d : UInt8, isalpha d = true → d ≠ NUL ∧ d ≠ DASH :=
    forall_byte (P := fun d => isalpha d = true → d ≠ NUL ∧ d ≠ DASH) (by decide)
  have hgo : (c ≠ NUL && c ≠ DASH && isalpha c) = true := by
    rw [Bool.and_eq_true, Bool.and_eq_true, decide_eq_true_iff, decide_eq_true_iff]
    exact ⟨hno c hc, hc⟩
  exact if_pos hgo

set_option maxRecDepth 8000 in
theorem isvalid_dash {c : UInt8} {s : Bytes} (hc : isalpha c = true) :
    Cmd.isvalid (DASH :: c :: s) = 1 := by
  have hno : ∀ d : UInt8, isalpha d = true → d ≠ NUL ∧ d ≠ DASH :=
    forall_byte (P := fun d => isalpha d = true → d ≠ NUL ∧ d ≠ DASH) (by decide)
  have hgo : (c ≠ NUL && isalpha c) = true := by
    rw [Bool.and_eq_true, decide_eq_true_iff]
    exact ⟨(hno c hc).1, hc⟩
  have hdash : ¬ (DASH :: c :: s).getD 1 NUL = DASH := (hno c hc).2
  rw [Cmd.isvalid, if_pos (show (DASH :: c :: s).getD 0 NUL = DASH from rfl), if_neg hdash]
  exact if_pos hgo

theorem isvalid_cases (flag : Bytes) : Cmd.isvalid flag = 0 ∨
    (Cmd.isvalid flag = 2 ∧ ∃ c s, flag = DASHES ++ c :: s ∧ isalpha c = true) ∨
      (Cmd.isvalid flag = 1 ∧ ∃ c s, flag = DASH :: c :: s ∧ isalpha c = true) := by
  -- a character that is read and is no NUL is there
  have hget : ∀ (x : Bytes) (i : Nat), isalpha (x.getD i NUL) = true → i < x.length := by
    intro x i h
    by_contra hle
    rw [List.getD_eq_default _ _ (Nat.le_of_not_lt hle)] at h
    exact absurd h (by decide)
  unfold Cmd.isvalid
  split_ifs with h0 h1 h2 h2
  · right; left
    refine ⟨rfl, ?_⟩
    rw [Bool.and_eq_true] at h2
    have hlen := hget _ _ h2.2
    match flag, h0, h1, h2, hlen with
    | _ :: _ :: c :: s, rfl, rfl, h2, _ => exact ⟨c, s, rfl, h2.2⟩
  · exact .inl rfl
  · right; right
    refine ⟨rfl, ?_⟩
    rw [Bool.and_eq_true] at h2
    have hlen := hget _ _ h2.2
    match flag, h0, h2, hlen with
    | _ :: c :: s, rfl, h2, _ => exact ⟨c, s, rfl, h2.2⟩
  · exact .inl rfl
  · exact .inl rfl

/-! ## The arguments of a command -/

theorem eq_ofC_iff {x y : Bytes} (hx : NUL ∉ x) (hy : NUL ∉ y) :
    Str.eq (.ofC x) (.ofC y) = true ↔ x = y := by
  have hcut : ∀ z : Bytes, NUL ∉ z → z.takeWhile (· ≠ NUL) = z := fun z hz =>
    List.takeWhile_eq_self_iff.mpr fun c hc => decide_eq_true fun heq => hz (heq ▸ hc)
  unfold Str.eq Str.ofC
  dsimp only
  rw [hcut x hx, hcut y hy, Bool.and_eq_true, decide_eq_true_iff]
  constructor
  · rintro ⟨hlen, hcmp⟩
    exact (strncmpEq_length hx hlen).mp hcmp
  · rintro rfl
    exact ⟨rfl, strncmpEq_self _ _⟩

private theorem find_eq_some_iff_of_unique {α : Type} {p : α → Bool} {l : List α} {a : α}
    (h : l.Pairwise fun a b => ¬ (p a = true ∧ p b = true)) :
    l.find? p = some a ↔ a ∈ l ∧ p a = true := by
  induction l with
  | nil => exact iff_of_false nofun fun h => nomatch h.1
  | cons b l ih =>
      obtain ⟨hb, hl⟩ := List.pairwise_cons.mp h
      rw [List.find?_cons]
      cases hpb : p b with
      | true =>
          dsimp only
          constructor
          · intro heq
            cases heq
            exact ⟨List.mem_cons_self, hpb⟩
          · rintro ⟨hmem, hpa⟩
            rcases List.mem_cons.mp hmem with rfl | hmem
            · rfl
            · exact absurd ⟨hpb, hpa⟩ (hb a hmem)
      | false =>
          dsimp only
          rw [ih hl, List.mem_cons]
          refine ⟨fun hboth => ⟨.inr hboth.1, hboth.2⟩, fun ⟨hmem, hpa⟩ => ⟨?_, hpa⟩⟩
          rcases hmem with rfl | hmem
          · rw [hpb] at hpa
            nomatch hpa
          · exact hmem

section
variable {cmd : Cmd}

theorem check_long_iff {a : Arg} {name : Bytes} (hname : NUL ∉ name) :
    a.check NOSF (.ofC name) = true ↔ a.lf.bytes = name := by
  rw [Arg.check, Bool.or_eq_true, eq_ofC_iff a.lf.free hname]
  exact or_iff_right fun h => absurd h Bool.false_ne_true

theorem check_short_iff {a : Arg} {c : UInt8} (hc : c ≠ NUL) :
    a.check c .null = true ↔ a.sf = c := by
  have hnull : Str.eq (.ofC a.lf.bytes) .null = false := rfl
  rw [Arg.check, hnull, Bool.or_false, Bool.and_eq_true, decide_eq_true_iff, decide_eq_true_iff]
  exact ⟨fun h => h.2.symm, fun h => ⟨hc, h.symm⟩⟩

theorem Cmd.check_eq_ok_iff {lf : Str} {c : UInt8} {a : Arg}
    (h : cmd.args.Pairwise fun a b => ¬ (a.check c lf = true ∧ b.check c lf = true)) :
    cmd.check lf c = .ok a ↔ a ∈ cmd.args ∧ a.check c lf = true := by
  rw [← find_eq_some_iff_of_unique h, Cmd.check]
  cases cmd.args.find? fun a => a.check c lf with
  | none => exact iff_of_false nofun nofun
  | some b => exact ⟨fun h => by cases h; rfl, fun h => by cases h; rfl⟩

theorem Cmd.check_long {a : Arg} {name : Bytes} (hname : NUL ∉ name) :
    cmd.check (.ofC name) NOSF = .ok a ↔ a ∈ cmd.args ∧ a.lf.bytes = name := by
  rw [Cmd.check_eq_ok_iff, check_long_iff hname]
  apply cmd.distinct.imp
  rintro a b hab ⟨ha, hb⟩
  rw [check_long_iff hname] at ha hb
  have hsame : Str.eq (.ofC a.lf.bytes) (.ofC b.lf.bytes) = true :=
    (eq_ofC_iff a.lf.free b.lf.free).mpr (ha.trans hb.symm)
  rw [Arg.check, hsame, Bool.or_true] at hab
  nomatch hab

theorem Cmd.check_short {a : Arg} {c : UInt8} (hc : c ≠ NUL) :
    cmd.check .null c = .ok a ↔ a ∈ cmd.args ∧ a.sf = c := by
  rw [Cmd.check_eq_ok_iff, check_short_iff hc]
  apply cmd.distinct.imp
  rintro a b hab ⟨ha, hb⟩
  rw [check_short_iff hc] at ha hb
  have hsame : (decide (b.sf ≠ NOSF) && decide (b.sf = a.sf)) = true := by
    rw [Bool.and_eq_true, decide_eq_true_iff, decide_eq_true_iff, ha, hb]
    exact ⟨hc, rfl⟩
  rw [Arg.check, hsame, Bool.true_or] at hab
  nomatch hab

end

/-! ## One element -/

/-- The next element is taken for the value `v`, or there is no such value. -/
inductive Follows (next : Option CStr) : Bool → Option Bytes → Prop where
  | none : Follows next false none
  | next {n : CStr} (h : next = some n) : Follows next true (some n.bytes)

section
variable {hash : Bytes → UInt64} {cmd : Cmd} {next : Option CStr} {cval : Option Bytes} {scan : Scan}
  {calls : Calls}

/-- What is in the long form is not there yet. -/
def LongFresh (hash : Bytes → UInt64) : Calls → List Given → Prop
  | _, [] => True
  | calls, g :: gs => (g.short = false → isPassed hash calls g.arg.lf = false) ∧
      LongFresh hash (calls ++ [g.pair]) gs

theorem longFresh_append {gs gs' : List Given} : LongFresh hash calls (gs ++ gs') ↔
    LongFresh hash calls gs ∧ LongFresh hash (calls ++ gs.map Given.pair) gs' := by
  induction gs generalizing calls with
  | nil =>
      rw [List.nil_append, List.map_nil, List.append_nil]
      exact (and_iff_right trivial).symm
  | cons g gs ih =>
      rw [List.cons_append, LongFresh, LongFresh, ih, List.map_cons, and_assoc, List.append_assoc]
      rfl

theorem longFresh_shorts {gs : List Given} (h : ∀ g ∈ gs, g.short = true) :
    LongFresh hash calls gs := by
  induction gs generalizing calls with
  | nil => exact trivial
  | cons g gs ih =>
      obtain ⟨hg, hgs⟩ := List.forall_mem_cons.mp h
      exact ⟨fun hlong => absurd (hg.symm.trans hlong) (by decide), ih hgs⟩

theorem takeValue_some {arg : Arg} {v val : Bytes} {taken : Bool}
    (h : takeValue arg (some v) next = .ok (val, taken)) : val = v ∧ taken = false := by
  cases h
  exact ⟨rfl, rfl⟩

theorem takeValue_none {arg : Arg} {val : Bytes} {taken : Bool}
    (h : takeValue arg none next = .ok (val, taken)) :
    ∃ n, next = some n ∧ val = n.bytes ∧ taken = true := by
  cases next with
  | none => nomatch h
  | some n =>
      cases h
      exact ⟨n, rfl, rfl, rfl⟩

/-- What the long form does: it asks for help, or it gives one argument that is not there yet. -/
theorem parseLong_reads {name : Bytes} (hname : NUL ∉ name)
    (h : parseLong hash cmd name cval next calls = .ok scan) :
    ∃ a ∈ cmd.args, a.lf.bytes = name ∧ ((a.sf = HELP ∧ scan.ishelp = true) ∨
      (a.sf ≠ HELP ∧ scan.ishelp = false ∧ isPassed hash calls a.lf = false ∧
        ∃ v, scan.calls = calls ++ [(a.lf.bytes, v)] ∧
          ((a.option = true ∧ cval = none ∧ v = str "1" ∧ scan.taken = false) ∨
            (a.option = false ∧ takeValue a cval next = .ok (v, scan.taken))))) := by
  obtain ⟨a, ha, h⟩ := Except.ok_of_bind h
  obtain ⟨hmem, hlf⟩ := (Cmd.check_long hname).mp ha
  refine ⟨a, hmem, hlf, ?_⟩
  split_ifs at h with hhelp hpassed hoption hval
  · cases h
    exact .inl ⟨hhelp, rfl⟩
  · nomatch h
  · obtain ⟨⟨v, taken⟩, hv, h⟩ := Except.ok_of_bind h
    cases h
    rw [Bool.not_eq_true'] at hoption
    exact .inr ⟨hhelp, rfl, Bool.eq_false_iff.mpr hpassed, v, rfl, .inr ⟨hoption, hv⟩⟩
  · nomatch h
  · cases h
    rw [Bool.not_eq_true', Bool.not_eq_false] at hoption
    rw [Bool.not_eq_true, Option.isSome_eq_false_iff, Option.isNone_iff_eq_none] at hval
    exact .inr ⟨hhelp, rfl, Bool.eq_false_iff.mpr hpassed, _, rfl, .inl ⟨hoption, hval, rfl, rfl⟩⟩

/-- What the short form does: the letters are flags up to one that asks for help, or up to the last
one, which may have a value. -/
theorem parseShorts_reads {cs : Bytes} (hcs : NUL ∉ cs)
    (h : parseShorts cmd cval next cs calls = .ok scan) :
    (scan.ishelp = true ∧ ∃ cs' x, cs = cs' ++ HELP :: x ∧ ∃ a ∈ cmd.args, a.sf = HELP) ∨
      (scan.ishelp = false ∧ ∃ as, (∀ a ∈ as, Has cmd true a) ∧ (as ≠ [] → cval = none) ∧
        ((cs = as.map Arg.sf ∧ scan.taken = false ∧
            scan.calls = calls ++ (as.map (Given.flag true)).map Given.pair) ∨
          ∃ (a : Arg) (v : Bytes), cs = (as ++ [a]).map Arg.sf ∧ Has cmd false a ∧
            takeValue a cval next = .ok (v, scan.taken) ∧
              scan.calls = calls ++
                (as.map (Given.flag true) ++ [(⟨a, v, true⟩ : Given)]).map Given.pair)) := by
  -- on the letters, with the calls of those in front of them
  induction cs generalizing calls with
  | nil =>
      cases h
      exact .inr ⟨rfl, [], nofun, fun hne => absurd rfl hne,
        .inl ⟨rfl, rfl, (List.append_nil _).symm⟩⟩
  | cons c cs ih =>
      rw [List.mem_cons, not_or] at hcs
      obtain ⟨a, ha, h⟩ := Except.ok_of_bind h
      obtain ⟨hmem, hsf⟩ := (Cmd.check_short (Ne.symm hcs.1)).mp ha
      -- help; a letter that needs a value, in front of others or at the end; a flag, with a value or without
      split_ifs at h with hhelp hoption hmore hval
      · cases h
        exact .inl ⟨rfl, [], cs, by rw [← hsf, hhelp]; rfl, a, hmem, hhelp⟩
      · nomatch h
      · obtain ⟨⟨v, taken⟩, hv, h⟩ := Except.ok_of_bind h
        cases h
        rw [Bool.not_eq_true'] at hoption
        rw [not_not] at hmore
        refine .inr ⟨rfl, [], nofun, fun hne => absurd rfl hne, .inr ⟨a, v, ?_, ?_, hv, rfl⟩⟩
        · rw [hmore, ← hsf]
          rfl
        · exact ⟨hmem, hoption, hhelp⟩
      · nomatch h
      · rw [Bool.not_eq_true', Bool.not_eq_false] at hoption
        rw [Bool.not_eq_true, Option.isSome_eq_false_iff, Option.isNone_iff_eq_none] at hval
        rcases ih hcs.2 h with ⟨hask, cs', x, rfl, hmem'⟩ | ⟨hno, as, has, -, hread⟩
        · exact .inl ⟨hask, c :: cs', x, rfl, hmem'⟩
        · refine .inr ⟨hno, a :: as, List.forall_mem_cons.mpr ⟨⟨hmem, hoption, hhelp⟩, has⟩,
            fun _ => hval, ?_⟩
          rcases hread with ⟨rfl, htaken, hcalls⟩ | ⟨b, v, rfl, hb, hv, hcalls⟩
          · refine .inl ⟨by rw [← hsf]; rfl, htaken, ?_⟩
            rw [hcalls, List.append_assoc]
            rfl
          · refine .inr ⟨b, v, by rw [← hsf]; rfl, hb, hv, ?_⟩
            rw [hcalls, List.append_assoc]
            rfl

/-- What one round of the loop does. -/
theorem parseElement_reads {e : Bytes} (he : NUL ∉ e)
    (h : parseElement hash cmd e next calls = .ok scan) :
    (scan.ishelp = true ∧ Asks cmd e) ∨
      (scan.ishelp = false ∧ ∃ v gs, Follows next scan.taken v ∧ Element cmd e v gs ∧
        LongFresh hash calls gs ∧ scan.calls = calls ++ gs.map Given.pair) := by
  -- the element in front of its value, and the value
  obtain ⟨flag, cval, hsplit, hequals, hnul, hvalue⟩ : ∃ flag cval, splitValue e = (flag, cval) ∧
      EQUALS ∉ flag ∧ NUL ∉ flag ∧
        ((cval = none ∧ e = flag) ∨ ∃ v, cval = some v ∧ e = flag ++ EQUALS :: v) := by
    rcases splitValue_cases he with ⟨hno, hsplit⟩ | ⟨x, v, hsplit, hno, hnul, heq⟩
    · exact ⟨e, none, hsplit, hno, he, .inl ⟨rfl, rfl⟩⟩
    · exact ⟨x, some v, heq, hno, hnul, .inr ⟨v, rfl, hsplit⟩⟩
  have hrest : ∃ x, e = flag ++ x := by
    rcases hvalue with ⟨-, rfl⟩ | ⟨v, -, rfl⟩
    · exact ⟨[], (List.append_nil _).symm⟩
    · exact ⟨_, rfl⟩
  rw [parseElement, hsplit] at h
  dsimp only at h
  rcases isvalid_cases flag with hvalid | ⟨hvalid, c, s, rfl, hc⟩ | ⟨hvalid, c, s, rfl, hc⟩
  · rw [hvalid] at h
    nomatch h
  · rw [hvalid] at h
    have hname : NUL ∉ c :: s := fun hmem => hnul (List.mem_append_right _ hmem)
    obtain ⟨a, hmem, hlf, ⟨hhelp, hish⟩ | ⟨hhelp, hish, hfresh, v, hcalls, hread⟩⟩ :=
      parseLong_reads hname h
    · obtain ⟨x, rfl⟩ := hrest
      refine .inl ⟨hish, a, hmem, hhelp, .inl ⟨x, ?_⟩⟩
      rw [hlf, List.append_assoc]
    · have hlong : LongName a := ⟨⟨c, s, hlf, hc⟩, fun hmem' => hequals
        (List.mem_append_right _ (hlf ▸ hmem'))⟩
      have hfreshAll : ∀ short, LongFresh hash calls [⟨a, v, short⟩] := fun _ =>
        ⟨fun _ => hfresh, trivial⟩
      refine .inr ⟨hish, ?_⟩
      rcases hread with ⟨hoption, rfl, rfl, htaken⟩ | ⟨hoption, hv⟩
      · obtain ⟨-, rfl⟩ | ⟨v, hne, -⟩ := hvalue
        · refine ⟨none, _, htaken ▸ .none, ?_, hfreshAll false, hcalls⟩
          rw [← hlf]
          exact .longFlag ⟨hmem, hoption, hhelp⟩ hlong
        · nomatch hne
      · obtain ⟨rfl, rfl⟩ | ⟨v', rfl, rfl⟩ := hvalue
        · obtain ⟨n, hnext, rfl, htaken⟩ := takeValue_none hv
          refine ⟨some n.bytes, _, htaken ▸ .next hnext, ?_, hfreshAll false, hcalls⟩
          rw [← hlf]
          exact .longNext n.bytes ⟨hmem, hoption, hhelp⟩ hlong
        · obtain ⟨rfl, htaken⟩ := takeValue_some hv
          refine ⟨none, _, htaken ▸ .none, ?_, hfreshAll false, hcalls⟩
          rw [← hlf, List.append_assoc]
          exact .longEquals v ⟨hmem, hoption, hhelp⟩ hlong
  · rw [hvalid] at h
    have hletters : NUL ∉ c :: s := fun hmem => hnul (List.mem_cons_of_mem _ hmem)
    rcases parseShorts_reads hletters h with
      ⟨hish, cs', x, hcs, a, hmem, hhelp⟩ | ⟨hish, as, has, hval, hread⟩
    · obtain ⟨y, rfl⟩ := hrest
      refine .inl ⟨hish, a, hmem, hhelp, .inr ⟨cs', x ++ y, ?_⟩⟩
      rw [hcs, List.cons_append, List.append_assoc]
      rfl
    · have hshorts : ∀ as' : List Arg, c :: s = as'.map Arg.sf → Shorts as' := by
        intro as' heq
        refine ⟨?_, fun hmem => hequals (List.mem_cons_of_mem _ (heq ▸ hmem))⟩
        cases as' with
        | nil => nomatch heq
        | cons a as' => exact ⟨a, as', rfl, (List.cons.inj heq).1 ▸ hc⟩
      refine .inr ⟨hish, ?_⟩
      rcases hread with ⟨hcs, htaken, hcalls⟩ | ⟨a, v, hcs, ha, hv, hcalls⟩
      · have hne : as ≠ [] := by
          rintro rfl
          nomatch hcs
        obtain ⟨-, rfl⟩ | ⟨v, rfl, -⟩ := hvalue
        · refine ⟨none, _, htaken ▸ .none, ?_, longFresh_shorts ?_, hcalls⟩
          · rw [hcs]
            exact .shortFlags has (hshorts _ hcs)
          · exact List.forall_mem_map.mpr fun a _ => rfl
        · nomatch hval hne
      · have hfreshAll : LongFresh hash calls (as.map (Given.flag true) ++ [⟨a, v, true⟩]) := by
          apply longFresh_shorts
          rw [List.forall_mem_append]
          exact ⟨List.forall_mem_map.mpr fun a _ => rfl, List.forall_mem_singleton.mpr rfl⟩
        obtain ⟨rfl, rfl⟩ | ⟨v', rfl, rfl⟩ := hvalue
        · obtain ⟨n, hnext, rfl, htaken⟩ := takeValue_none hv
          refine ⟨some n.bytes, _, htaken ▸ .next hnext, ?_, hfreshAll, hcalls⟩
          rw [hcs]
          exact .shortNext n.bytes has ha (hshorts _ hcs)
        · obtain ⟨rfl, htaken⟩ := takeValue_some hv
          have hnil : as = [] := by
            by_contra hne
            nomatch hval hne
          subst hnil
          refine ⟨none, _, htaken ▸ .none, ?_, hfreshAll, hcalls⟩
          obtain ⟨rfl, rfl⟩ := List.cons.inj hcs
          exact .shortEquals v ha (hshorts [a] rfl)

section
variable {a : Arg} {v : Bytes} {taken : Bool}

theorem parseLong_flag (ha : Has cmd true a) (hfresh : isPassed hash calls a.lf = false) :
    parseLong hash cmd a.lf.bytes none next calls =
      .ok ⟨false, false, calls ++ [(a.lf.bytes, str "1")]⟩ := by
  have hcheck := (Cmd.check_long a.lf.free).mpr ⟨ha.mem, rfl⟩
  rw [parseLong, hcheck, Except.bind_of_ok, if_neg ha.noHelp, hfresh, ha.option]
  rfl

theorem parseLong_value (ha : Has cmd false a) (hfresh : isPassed hash calls a.lf = false)
    (hv : takeValue a cval next = .ok (v, taken)) :
    parseLong hash cmd a.lf.bytes cval next calls =
      .ok ⟨false, taken, calls ++ [(a.lf.bytes, v)]⟩ := by
  have hcheck := (Cmd.check_long a.lf.free).mpr ⟨ha.mem, rfl⟩
  rw [parseLong, hcheck, Except.bind_of_ok, if_neg ha.noHelp, hfresh, ha.option, hv]
  rfl

theorem parseShorts_flags {as : List Arg} {cs : Bytes} (has : ∀ a ∈ as, Has cmd true a)
    (hnul : NUL ∉ as.map Arg.sf) :
    parseShorts cmd none next (as.map Arg.sf ++ cs) calls =
      parseShorts cmd none next cs (calls ++ (as.map (Given.flag true)).map Given.pair) := by
  induction as generalizing calls with
  | nil => rw [List.map_nil, List.map_nil, List.map_nil, List.append_nil]; rfl
  | cons a as ih =>
      rw [List.map_cons, List.mem_cons, not_or] at hnul
      obtain ⟨ha, has⟩ := List.forall_mem_cons.mp has
      have hcheck := (Cmd.check_short (Ne.symm hnul.1)).mpr ⟨ha.mem, rfl⟩
      rw [List.map_cons, List.cons_append, parseShorts, hcheck, Except.bind_of_ok,
        if_neg ha.noHelp, ha.option, if_neg (by decide), if_neg (by decide), ih has hnul.2,
        List.append_assoc]
      rfl

theorem parseShorts_value (ha : Has cmd false a) (hnul : a.sf ≠ NUL)
    (hv : takeValue a cval next = .ok (v, taken)) :
    parseShorts cmd cval next [a.sf] calls =
      .ok ⟨false, taken, calls ++ [(a.lf.bytes, v)]⟩ := by
  have hcheck := (Cmd.check_short hnul).mpr ⟨ha.mem, rfl⟩
  rw [parseShorts, hcheck, Except.bind_of_ok, if_neg ha.noHelp, ha.option, if_pos (by decide),
    if_neg (not_not.mpr rfl), hv]
  rfl

end

/-- An element that gives something is taken for what it gives. -/
theorem parseElement_takes {e : Bytes} {v : Option Bytes} {gs : List Given} {taken : Bool}
    (he : NUL ∉ e) (helem : Element cmd e v gs) (hnext : Follows next taken v)
    (hfresh : LongFresh hash calls gs) :
    parseElement hash cmd e next calls = .ok ⟨false, taken, calls ++ gs.map Given.pair⟩ := by
  -- what is in front of the value, with its dashes
  have hlong : ∀ a : Arg, LongName a → EQUALS ∉ DASHES ++ a.lf.bytes ∧
      NUL ∉ DASHES ++ a.lf.bytes ∧ Cmd.isvalid (DASHES ++ a.lf.bytes) = 2 := by
    rintro a ⟨⟨c, s, hlf, hc⟩, hfree⟩
    refine ⟨?_, ?_, hlf ▸ isvalid_dashes hc⟩
    · exact List.not_mem_append (by decide) hfree
    · exact List.not_mem_append (by decide) a.lf.free
  have hshort : ∀ as : List Arg, Shorts as → EQUALS ∉ DASH :: as.map Arg.sf ∧
      Cmd.isvalid (DASH :: as.map Arg.sf) = 1 := by
    rintro as ⟨⟨a, as', rfl, hc⟩, hfree⟩
    exact ⟨List.not_mem_cons_of_ne_of_not_mem (by decide) hfree, isvalid_dash hc⟩
  cases helem with
  | @longFlag a ha hname =>
      obtain ⟨hequals, -, hvalid⟩ := hlong a hname
      cases hnext
      rw [parseElement, splitValue_of_notMem hequals]
      dsimp only
      rw [hvalid]
      exact parseLong_flag ha (hfresh.1 rfl)
  | @longEquals a v ha hname =>
      obtain ⟨hequals, hnul, hvalid⟩ := hlong a hname
      cases hnext
      rw [← List.append_assoc, parseElement, splitValue_append hequals hnul]
      dsimp only
      rw [hvalid]
      exact parseLong_value ha (hfresh.1 rfl) rfl
  | @longNext a v ha hname =>
      obtain ⟨hequals, -, hvalid⟩ := hlong a hname
      cases hnext with
      | next hn =>
          rw [parseElement, splitValue_of_notMem hequals]
          dsimp only
          rw [hvalid]
          exact parseLong_value ha (hfresh.1 rfl) (by rw [hn]; rfl)
  | @shortFlags as has hshorts =>
      obtain ⟨hequals, hvalid⟩ := hshort as hshorts
      have hnul : NUL ∉ as.map Arg.sf := fun hmem => he (List.mem_cons_of_mem _ hmem)
      cases hnext
      rw [parseElement, splitValue_of_notMem hequals]
      dsimp only
      rw [hvalid]
      have hflags : parseShorts cmd none next (as.map Arg.sf ++ []) calls = _ :=
        parseShorts_flags has hnul
      rwa [List.append_nil] at hflags
  | @shortEquals a v ha hshorts =>
      obtain ⟨hequals, hvalid⟩ := hshort [a] hshorts
      have hnul : NUL ∉ DASH :: [a.sf] := fun hmem => he (List.mem_append_left (EQUALS :: v) hmem)
      have hsf : a.sf ≠ NUL := fun heq =>
        hnul (List.mem_cons_of_mem _ (heq ▸ List.mem_singleton_self _))
      cases hnext
      have hsplit : splitValue (DASH :: a.sf :: EQUALS :: v) = (DASH :: [a].map Arg.sf, some v) :=
        splitValue_append (x := [DASH, a.sf]) hequals hnul
      rw [parseElement, hsplit]
      dsimp only
      rw [hvalid]
      exact parseShorts_value ha hsf rfl
  | @shortNext as a v has ha hshorts =>
      obtain ⟨hequals, hvalid⟩ := hshort (as ++ [a]) hshorts
      have hnul : NUL ∉ (as ++ [a]).map Arg.sf := fun hmem => he (List.mem_cons_of_mem _ hmem)
      rw [List.map_append, List.mem_append, not_or] at hnul
      have hsf : a.sf ≠ NUL := fun heq => hnul.2 (heq ▸ List.mem_singleton_self _)
      cases hnext with
      | next hn =>
          rw [parseElement, splitValue_of_notMem hequals]
          dsimp only
          rw [hvalid]
          have hflags : parseShorts cmd none next (as.map Arg.sf ++ [a.sf]) calls = _ :=
            parseShorts_flags has hnul.1
          rw [parseShorts_value ha hsf (by rw [hn]; rfl)] at hflags
          rw [List.map_append, List.map_append, ← List.append_assoc]
          exact hflags

/-! ## The loop -/

/-- One round of the loop; it goes on behind the element, maybe behind the next one. -/
private theorem parseLoop_cons (e : CStr) (rest : List CStr) :
    parseLoop hash cmd (e :: rest) calls =
      parseElement hash cmd e.bytes rest.head? calls >>= fun scan =>
        if scan.ishelp then .ok (true, scan.calls)
        else parseLoop hash cmd (if scan.taken then rest.tail else rest) scan.calls := by
  cases rest with
  | nil =>
      rw [parseLoop, List.head?_nil]
      congr 1
      funext scan
      rw [List.tail_nil, ite_self, parseLoop]
      cases scan.ishelp <;> rfl
  | cons v rest =>
      rw [parseLoop, List.head?_cons]
      congr 1
      funext scan
      cases scan.taken <;> rfl

/-- Where the loop succeeds, the elements give something, up to one that asks for help. -/
theorem parseLoop_reads {argv : List CStr} {ishelp : Bool} {calls' : Calls}
    (h : parseLoop hash cmd argv calls = .ok (ishelp, calls')) :
    (ishelp = true ∧ AsksHelp cmd argv) ∨
      (ishelp = false ∧ ∃ gs, Written cmd argv gs ∧ LongFresh hash calls gs ∧
        calls' = calls ++ gs.map Given.pair) := by
  -- on what is left of the arguments; an element may take the one behind it
  induction hn : argv.length using Nat.strong_induction_on generalizing argv calls with
  | _ n ih =>
  cases argv with
  | nil =>
      cases h
      exact .inr ⟨rfl, [], .done, trivial, (List.append_nil _).symm⟩
  | cons e rest =>
      rw [parseLoop_cons] at h
      obtain ⟨⟨help, taken, calls₁⟩, hscan, h⟩ := Except.ok_of_bind h
      rcases parseElement_reads e.free hscan with ⟨hhelp, hasks⟩ | ⟨hhelp, v, gs, hnext, hgs⟩
      · cases hhelp
        rw [if_pos rfl] at h
        cases h
        exact .inl ⟨rfl, [], e, rest, [], rfl, .done, hasks⟩
      · cases hhelp
        obtain ⟨helem, hfresh, rfl⟩ := hgs
        rw [if_neg Bool.false_ne_true] at h
        cases hnext with
        | none =>
            rcases ih _ (by rw [← hn]; exact Nat.lt_succ_self _) h rfl with
              ⟨hish, before, e', after, gs', hargv, hbefore, hasks⟩ | ⟨hish, gs', hgs', hfresh', rfl⟩
            · refine .inl ⟨hish, e :: before, e', after, gs ++ gs', ?_, .one helem hbefore, hasks⟩
              rw [show rest = _ from hargv, List.cons_append]
            · refine .inr ⟨hish, gs ++ gs', .one helem hgs', longFresh_append.mpr ⟨hfresh, hfresh'⟩,
                ?_⟩
              rw [List.map_append, List.append_assoc]
        | @next n hhead =>
            obtain ⟨rest, rfl⟩ := List.head?_eq_some_iff.mp hhead
            have hlt : rest.length < (e :: n :: rest).length :=
              Nat.lt_succ_of_lt (Nat.lt_succ_self _)
            rcases ih _ (hn ▸ hlt) h rfl with
              ⟨hish, before, e', after, gs', hargv, hbefore, hasks⟩ | ⟨hish, gs', hgs', hfresh', rfl⟩
            · refine .inl ⟨hish, e :: n :: before, e', after, gs ++ gs', ?_, .two helem hbefore,
                hasks⟩
              rw [show rest = _ from hargv, List.cons_append, List.cons_append]
            · refine .inr ⟨hish, gs ++ gs', .two helem hgs', longFresh_append.mpr ⟨hfresh, hfresh'⟩,
                ?_⟩
              rw [List.map_append, List.append_assoc]

/-- What gives something is taken for it, as long as nothing is repeated in the long form. -/
theorem parseLoop_takes {argv : List CStr} {gs : List Given} (h : Written cmd argv gs)
    (hfresh : LongFresh hash calls gs) :
    parseLoop hash cmd argv calls = .ok (false, calls ++ gs.map Given.pair) := by
  induction h generalizing calls with
  | done => rw [parseLoop, List.map_nil, List.append_nil]
  | @one e rest gs gs' he hrest ih =>
      obtain ⟨hgs, hgs'⟩ := longFresh_append.mp hfresh
      rw [parseLoop_cons, parseElement_takes e.free he .none hgs, Except.bind_of_ok,
        if_neg Bool.false_ne_true, if_neg Bool.false_ne_true, ih hgs', List.map_append,
        List.append_assoc]
  | @two e v rest gs gs' he hrest ih =>
      obtain ⟨hgs, hgs'⟩ := longFresh_append.mp hfresh
      rw [parseLoop_cons, parseElement_takes e.free he (.next List.head?_cons) hgs,
        Except.bind_of_ok, if_neg Bool.false_ne_true, if_pos rfl, List.tail_cons, ih hgs',
        List.map_append, List.append_assoc]

end

/-! ## What is recorded -/

section
variable {hash : Bytes → UInt64} {console : Arg → Bytes} {cmd : Cmd} {argv : List CStr}
  {calls : Calls} {gs : List Given}

theorem Cmd.names_distinct (cmd : Cmd) :
    cmd.args.Pairwise fun a b => a.lf.bytes ≠ b.lf.bytes := by
  apply cmd.distinct.imp
  intro a b hab hsame
  rw [Arg.check, (eq_ofC_iff a.lf.free b.lf.free).mpr hsame, Bool.or_true] at hab
  nomatch hab

theorem Element.mem {e : Bytes} {v : Option Bytes} (h : Element cmd e v gs) :
    ∀ g ∈ gs, g.arg ∈ cmd.args := by
  cases h with
  | longFlag ha hname => exact List.forall_mem_singleton.mpr ha.mem
  | longEquals v ha hname => exact List.forall_mem_singleton.mpr ha.mem
  | longNext v ha hname => exact List.forall_mem_singleton.mpr ha.mem
  | shortFlags has hshorts => exact List.forall_mem_map.mpr fun a ha => (has a ha).mem
  | shortEquals v ha hshorts => exact List.forall_mem_singleton.mpr ha.mem
  | shortNext v has ha hshorts =>
      exact List.forall_mem_append.mpr ⟨List.forall_mem_map.mpr fun a ha => (has a ha).mem,
        List.forall_mem_singleton.mpr ha.mem⟩

theorem Written.mem (h : Written cmd argv gs) : ∀ g ∈ gs, g.arg ∈ cmd.args := by
  induction h with
  | done => exact nofun
  | one he hrest ih => exact List.forall_mem_append.mpr ⟨he.mem, ih⟩
  | two he hrest ih => exact List.forall_mem_append.mpr ⟨he.mem, ih⟩

/-- The calls are for arguments of the command. -/
def Named (cmd : Cmd) (calls : Calls) : Prop :=
  ∀ name ∈ calls.map Prod.fst, ∃ a ∈ cmd.args, a.lf.bytes = name

theorem named_nil (cmd : Cmd) : Named cmd [] := fun _ hmem => absurd hmem List.not_mem_nil

/-- Whether an entry of `passed` is found under a name. -/
private def hit (hash : Bytes → UInt64) (x y : Bytes) : Bool :=
  hash x = hash y && Http.mapCaseEq x y

private theorem hit_iff (hhash : HashesApart hash cmd) {a b : Arg} (ha : a ∈ cmd.args)
    (hb : b ∈ cmd.args) : hit hash a.lf.bytes b.lf.bytes = true ↔ a.lf.bytes = b.lf.bytes := by
  rw [hit, Bool.and_eq_true, decide_eq_true_iff]
  refine ⟨fun h => hhash a ha b hb h.1, fun h => ?_⟩
  rw [h, Http.mapCaseEq, strncaseEq_self]
  exact ⟨rfl, rfl⟩

theorem isPassed_iff (hhash : HashesApart hash cmd) (hcalls : Named cmd calls) {a : Arg}
    (ha : a ∈ cmd.args) :
    isPassed hash calls a.lf = true ↔ a.lf.bytes ∈ calls.map Prod.fst := by
  have hall : ∀ e ∈ calls, hit hash e.1 a.lf.bytes = true ↔ e.1 = a.lf.bytes := by
    intro e he
    obtain ⟨b, hb, hname⟩ := hcalls _ (List.mem_map_of_mem he)
    rw [← hname]
    exact hit_iff hhash hb ha
  have hfind : (passed hash calls).find hash a.lf.bytes =
      AssocMap.find (hit hash) calls a.lf.bytes :=
    AssocMap.find_insertAll_of_iff (hit hash) hall
  rw [isPassed, hfind, AssocMap.find, Option.isSome_map, List.find?_isSome, List.mem_map]
  exact exists_congr fun e => and_congr_right fun he => hall e he

/-- Calls for different arguments are all recorded. -/
theorem passed_of_distinct (hhash : HashesApart hash cmd) (hcalls : Named cmd calls)
    (h : (calls.map Prod.fst).Pairwise (· ≠ ·)) : passed hash calls = calls := by
  show AssocMap.insertAll (hit hash) calls = calls
  apply AssocMap.insertAll_of_pairwise
  apply (List.pairwise_map.mp h).imp_of_mem
  intro e e' he he' hne
  obtain ⟨a, ha, hname⟩ := hcalls _ (List.mem_map_of_mem he)
  obtain ⟨b, hb, hname'⟩ := hcalls _ (List.mem_map_of_mem he')
  rw [← hname, ← hname', Bool.eq_false_iff, ne_eq, hit_iff hhash ha hb, hname, hname']
  exact hne

/-- No argument is repeated in the long form. -/
def LongOnce (gs : List Given) : Prop :=
  gs.Pairwise fun g g' => g'.short = false → g.name ≠ g'.name

theorem map_pair_fst (gs : List Given) : (gs.map Given.pair).map Prod.fst = gs.map Given.name :=
  List.map_map

theorem longFresh_iff (hhash : HashesApart hash cmd) (hcalls : Named cmd calls)
    (hgs : ∀ g ∈ gs, g.arg ∈ cmd.args) : LongFresh hash calls gs ↔
      (∀ g ∈ gs, g.short = false → g.name ∉ calls.map Prod.fst) ∧ LongOnce gs := by
  induction gs generalizing calls with
  | nil => exact iff_of_true trivial ⟨nofun, .nil⟩
  | cons g gs ih =>
      obtain ⟨hg, hgs⟩ := List.forall_mem_cons.mp hgs
      have hcalls' : Named cmd (calls ++ [g.pair]) := by
        unfold Named
        rw [List.map_append, List.forall_mem_append]
        exact ⟨hcalls, List.forall_mem_singleton.mpr ⟨g.arg, hg, rfl⟩⟩
      have hfresh : isPassed hash calls g.arg.lf = false ↔ g.name ∉ calls.map Prod.fst := by
        rw [← Bool.not_eq_true, isPassed_iff hhash hcalls hg]
        exact Iff.rfl
      rw [LongFresh, ih hcalls' hgs, hfresh]
      unfold LongOnce
      rw [List.pairwise_cons, List.forall_mem_cons, List.map_append]
      simp only [List.mem_append, not_or, List.map_cons, List.map_nil, List.mem_singleton]
      constructor
      · rintro ⟨hhead, hrest, honce⟩
        exact ⟨⟨hhead, fun g' hg' hlong => (hrest g' hg' hlong).1⟩,
          fun g' hg' hlong => Ne.symm (hrest g' hg' hlong).2, honce⟩
      · rintro ⟨⟨hhead, hrest⟩, hne, honce⟩
        exact ⟨hhead, fun g' hg' hlong => ⟨hrest g' hg' hlong, Ne.symm (hne g' hg' hlong)⟩, honce⟩

/-! ## The required arguments -/

/-- The arguments that are required and not given. -/
def missing (cmd : Cmd) (gs : List Given) : List Arg :=
  cmd.args.filter fun a => a.required && a.lf.bytes ∉ gs.map Given.name

theorem Complete.iff_missing :
    Complete cmd gs ↔ cmd.inter = true ∨ missing cmd gs = [] := by
  rw [Complete, missing, List.filter_eq_nil_iff]
  simp only [Bool.and_eq_true, decide_eq_true_iff, not_and, not_not]

/-- The check of the arguments in `args`, when `P` has the names that are there. -/
private theorem verifyRequired_eq (hhash : HashesApart hash cmd) (inter : Bool) {args : List Arg}
    (hargs : ∀ a ∈ args, a ∈ cmd.args) (hdistinct : args.Pairwise fun a b => a.lf.bytes ≠ b.lf.bytes)
    (hcalls : Named cmd calls) (names : List Bytes) :
    verifyRequired hash inter console args calls names =
      (calls ++ (if inter then (args.filter fun a =>
          a.required && a.lf.bytes ∉ calls.map Prod.fst).map (fun a => (a.lf.bytes, console a))
        else []),
      names ++ (args.filter fun a =>
        a.required && a.lf.bytes ∉ calls.map Prod.fst).map fun a => a.lf.bytes) := by
  induction args generalizing calls names with
  | nil =>
      rw [verifyRequired, List.filter_nil, List.map_nil, List.map_nil, ite_self, List.append_nil,
        List.append_nil]
  | cons a args ih =>
      obtain ⟨ha, hargs⟩ := List.forall_mem_cons.mp hargs
      obtain ⟨hne, hdistinct⟩ := List.pairwise_cons.mp hdistinct
      have hcond : (a.required && !isPassed hash calls a.lf) =
          (a.required && decide (a.lf.bytes ∉ calls.map Prod.fst)) := by
        congr 1
        rw [Bool.eq_iff_iff, Bool.not_eq_true', ← Bool.not_eq_true, isPassed_iff hhash hcalls ha,
          decide_eq_true_iff]
      rw [verifyRequired, hcond, List.filter_cons]
      by_cases hmiss : (a.required && decide (a.lf.bytes ∉ calls.map Prod.fst)) = true
      · rw [if_pos hmiss, if_pos hmiss]
        cases inter with
        | false =>
            rw [if_neg Bool.false_ne_true, ih hargs hdistinct hcalls, if_neg Bool.false_ne_true,
              List.map_cons, List.append_assoc]
            rfl
        | true =>
            have hcalls' : Named cmd (calls ++ [(a.lf.bytes, console a)]) := by
              unfold Named
              rw [List.map_append, List.forall_mem_append]
              exact ⟨hcalls, List.forall_mem_singleton.mpr ⟨a, ha, rfl⟩⟩
            -- asking for this argument makes no other one known
            have hsame : (args.filter fun b =>
                b.required && b.lf.bytes ∉ (calls ++ [(a.lf.bytes, console a)]).map Prod.fst) =
                args.filter fun b => b.required && b.lf.bytes ∉ calls.map Prod.fst := by
              apply List.filter_congr
              intro b hb
              congr 1
              rw [decide_eq_decide, List.map_append, List.mem_append, not_or]
              exact and_iff_left fun hmem => hne b hb (List.mem_singleton.mp hmem).symm
            rw [if_pos rfl, ih hargs hdistinct hcalls', hsame, if_pos rfl, if_pos rfl, List.map_cons,
              List.map_cons, List.append_assoc, List.append_assoc]
            rfl
      · rw [if_neg hmiss, if_neg hmiss, ih hargs hdistinct hcalls]

/-- When `parse` succeeds, and with what. -/
theorem parse_eq_ok_iff (hhash : HashesApart hash cmd) {m : CaseMap Bytes} :
    cmd.parse hash console argv = .ok (false, m) ↔ ∃ gs, Written cmd argv gs ∧ LongOnce gs ∧
      Complete cmd gs ∧ m = passed hash (record cmd console gs) := by
  -- what follows on the loop
  have hverify : ∀ gs : List Given, (∀ g ∈ gs, g.arg ∈ cmd.args) →
      verifyRequired hash cmd.inter console cmd.args (gs.map Given.pair) [] =
        (gs.map Given.pair ++ (if cmd.inter then
          (missing cmd gs).map (fun a => (a.lf.bytes, console a)) else []),
        (missing cmd gs).map fun a => a.lf.bytes) := by
    intro gs hgs
    have hcalls : Named cmd (gs.map Given.pair) := by
      unfold Named
      rw [map_pair_fst]
      exact List.forall_mem_map.mpr fun g hg => ⟨g.arg, hgs g hg, rfl⟩
    rw [verifyRequired_eq hhash cmd.inter (fun a ha => ha) cmd.names_distinct hcalls, map_pair_fst]
    rfl
  have hfresh : ∀ gs : List Given, (∀ g ∈ gs, g.arg ∈ cmd.args) →
      (LongFresh hash [] gs ↔ LongOnce gs) := fun gs hgs =>
    (longFresh_iff hhash (named_nil cmd) hgs).trans (and_iff_right fun _ _ _ => List.not_mem_nil)
  have hafter : ∀ gs : List Given, Written cmd argv gs → LongFresh hash [] gs →
      (cmd.parse hash console argv = .ok (false, m) ↔
        Complete cmd gs ∧ m = passed hash (record cmd console gs)) := by
    intro gs hgs hlong
    rw [Cmd.parse, parseLoop_takes hgs hlong, Except.bind_of_ok, List.nil_append]
    dsimp only
    rw [if_neg Bool.false_ne_true, hverify gs hgs.mem, Complete.iff_missing]
    dsimp only
    by_cases hbad : ((missing cmd gs).map (fun a => a.lf.bytes) ≠ [] && !cmd.inter) = true
    · rw [if_pos hbad]
      rw [Bool.and_eq_true, decide_eq_true_iff, Bool.not_eq_true', ne_eq, List.map_eq_nil_iff] at hbad
      refine iff_of_false nofun fun h => ?_
      rcases h.1 with hinter | hnone
      · exact absurd (hbad.2.symm.trans hinter) (by decide)
      · exact hbad.1 hnone
    · rw [if_neg hbad]
      have hcomplete : cmd.inter = true ∨ missing cmd gs = [] := by
        rw [Bool.and_eq_true, decide_eq_true_iff, Bool.not_eq_true', ne_eq, List.map_eq_nil_iff,
          not_and_or, not_not, Bool.not_eq_false] at hbad
        exact hbad.symm
      have hrecord : gs.map Given.pair ++ (if cmd.inter then
          (missing cmd gs).map (fun a => (a.lf.bytes, console a)) else []) =
          record cmd console gs := by
        rcases hcomplete with hinter | hnone
        · rw [if_pos hinter]
          rfl
        · rw [record, show cmd.args.filter _ = missing cmd gs from rfl, hnone, List.map_nil, ite_self]
      rw [hrecord, and_iff_right hcomplete, Except.ok.injEq, Prod.mk.injEq, and_iff_right rfl]
      exact eq_comm
  constructor
  · intro h
    obtain ⟨⟨ishelp, calls⟩, hloop, hrest⟩ := Except.ok_of_bind h
    rcases parseLoop_reads hloop with ⟨rfl, -⟩ | ⟨rfl, gs, hgs, hlong, -⟩
    · dsimp only at hrest
      rw [if_pos rfl] at hrest
      nomatch hrest
    · obtain ⟨hcomplete, hm⟩ := (hafter gs hgs hlong).mp h
      exact ⟨gs, hgs, (hfresh gs hgs.mem).mp hlong, hcomplete, hm⟩
  · rintro ⟨gs, hgs, honce, hcomplete, hm⟩
    exact (hafter gs hgs ((hfresh gs hgs.mem).mpr honce)).mpr ⟨hcomplete, hm⟩

/-- When nothing is repeated, everything is recorded as it is given. -/
theorem passed_record (hhash : HashesApart hash cmd) (hgs : ∀ g ∈ gs, g.arg ∈ cmd.args)
    (h : Once gs) : passed hash (record cmd console gs) = record cmd console gs := by
  have hkeys : (record cmd console gs).map Prod.fst =
      gs.map Given.name ++ (missing cmd gs).map fun a => a.lf.bytes := by
    rw [record, List.map_append, map_pair_fst, List.map_map]
    rfl
  apply passed_of_distinct hhash
  · unfold Named
    rw [hkeys, List.forall_mem_append]
    exact ⟨List.forall_mem_map.mpr fun g hg => ⟨g.arg, hgs g hg, rfl⟩,
      List.forall_mem_map.mpr fun a ha => ⟨a, List.mem_of_mem_filter ha, rfl⟩⟩
  · rw [hkeys, List.pairwise_append]
    refine ⟨List.pairwise_map.mpr h, List.pairwise_map.mpr (cmd.names_distinct.filter _), ?_⟩
    rintro x hx _ hy rfl
    obtain ⟨a, ha, rfl⟩ := List.mem_map.mp hy
    have hnot := (List.mem_filter.mp ha).2
    rw [Bool.and_eq_true, decide_eq_true_iff] at hnot
    exact hnot.2 hx

/-! ## What is given is unique -/

/-- What is said of an argument, and in which form. -/
def Given.said (g : Given) : (Bytes × Bytes) × Bool := (g.pair, g.short)

theorem Element.fresh {e : Bytes} {v : Option Bytes} (h : Element cmd e v gs) :
    LongFresh hash [] gs := by
  cases h with
  | longFlag ha hname => exact ⟨fun _ => rfl, trivial⟩
  | longEquals v ha hname => exact ⟨fun _ => rfl, trivial⟩
  | longNext v ha hname => exact ⟨fun _ => rfl, trivial⟩
  | shortFlags has hshorts => exact longFresh_shorts (List.forall_mem_map.mpr fun _ _ => rfl)
  | shortEquals v ha hshorts => exact longFresh_shorts (List.forall_mem_singleton.mpr rfl)
  | shortNext v has ha hshorts =>
      exact longFresh_shorts (List.forall_mem_append.mpr
        ⟨List.forall_mem_map.mpr fun _ _ => rfl, List.forall_mem_singleton.mpr rfl⟩)

/-- The form of an element is told from its second character. -/
theorem Element.form {e : Bytes} {v : Option Bytes} (h : Element cmd e v gs) :
    ∀ g ∈ gs, g.short = decide (e.getD 1 NUL ≠ DASH) := by
  have hletter : ∀ (as : List Arg) (x : Bytes), Shorts as →
      decide ((DASH :: (as.map Arg.sf ++ x)).getD 1 NUL ≠ DASH) = true := by
    rintro as x ⟨⟨a, as', rfl, hc⟩, -⟩
    refine decide_eq_true fun heq => ?_
    rw [show a.sf = DASH from heq] at hc
    exact absurd hc (by decide)
  cases h with
  | longFlag ha hname => exact List.forall_mem_singleton.mpr rfl
  | longEquals v ha hname => exact List.forall_mem_singleton.mpr rfl
  | longNext v ha hname => exact List.forall_mem_singleton.mpr rfl
  | @shortFlags as has hshorts =>
      have hform := hletter as [] hshorts
      rw [List.append_nil] at hform
      rw [hform]
      exact List.forall_mem_map.mpr fun _ _ => rfl
  | @shortEquals a v ha hshorts =>
      exact List.forall_mem_singleton.mpr (hletter [a] (EQUALS :: v) hshorts).symm
  | @shortNext as a v has ha hshorts =>
      have hform := hletter (as ++ [a]) [] hshorts
      rw [List.append_nil] at hform
      rw [hform]
      exact List.forall_mem_append.mpr
        ⟨List.forall_mem_map.mpr fun _ _ => rfl, List.forall_mem_singleton.mpr rfl⟩

theorem Element.unique {e : CStr} {v v' : Option Bytes} {taken taken' : Bool}
    {gs' : List Given} (next : Option CStr) (h : Element cmd e.bytes v gs) (h' : Element cmd e.bytes v' gs')
    (hv : Follows next taken v) (hv' : Follows next taken' v') :
    taken = taken' ∧ gs.map Given.said = gs'.map Given.said := by
  have hscan : parseElement (fun _ => 0) cmd e.bytes next [] = _ :=
    parseElement_takes e.free h hv h.fresh
  rw [parseElement_takes e.free h' hv' h'.fresh] at hscan
  obtain ⟨-, htaken, hpairs⟩ := Scan.mk.inj (Except.ok.inj hscan)
  have hsaid : ∀ {gs : List Given} {b : Bool}, (∀ g ∈ gs, g.short = b) →
      gs.map Given.said = (gs.map Given.pair).map fun x => (x, b) := by
    intro gs b hb
    rw [List.map_map]
    exact List.map_congr_left fun g hg => congrArg (g.pair, ·) (hb g hg)
  rw [List.nil_append, List.nil_append] at hpairs
  exact ⟨htaken.symm, by rw [hsaid h.form, hsaid h'.form, hpairs]⟩

theorem Written.unique {gs' : List Given} (h : Written cmd argv gs) (h' : Written cmd argv gs') :
    gs.map Given.said = gs'.map Given.said := by
  induction h generalizing gs' with
  | done =>
      cases h'
      rfl
  | one he hrest ih =>
      cases h' with
      | one he' hrest' =>
          rw [List.map_append, List.map_append, (he.unique none he' .none .none).2,
            ih hrest']
      | @two _ v _ _ _ he' hrest' =>
          nomatch (he.unique (some v) he' .none (.next rfl)).1
  | @two e v rest gs₁ gs₂ he hrest ih =>
      cases h' with
      | one he' hrest' => nomatch (he.unique (some v) he' (.next rfl) .none).1
      | two he' hrest' =>
          rw [List.map_append, List.map_append,
            (he.unique (some v) he' (.next rfl) (.next rfl)).2, ih hrest']

/-! ## When parsing meets what is expected -/

theorem once_iff : Once gs ↔ ((gs.map Given.pair).map Prod.fst).Pairwise (· ≠ ·) := by
  rw [map_pair_fst]
  exact List.pairwise_map.symm

theorem Once.long (h : Once gs) : LongOnce gs :=
  List.Pairwise.imp (S := fun g g' : Given => g'.short = false → g.name ≠ g'.name)
    (fun hne _ => hne) h

theorem Once.congr {gs' : List Given} (h : gs.map Given.pair = gs'.map Given.pair)
    (honce : Once gs) : Once gs' := by
  rwa [once_iff, h, ← once_iff] at honce

theorem Complete.congr {gs' : List Given} (h : gs.map Given.pair = gs'.map Given.pair)
    (hcomplete : Complete cmd gs) : Complete cmd gs' := by
  rwa [Complete, ← map_pair_fst, h, map_pair_fst] at hcomplete

theorem record_congr {gs' : List Given} (h : gs.map Given.pair = gs'.map Given.pair) :
    record cmd console gs = record cmd console gs' := by
  rw [record, record, ← map_pair_fst, h, map_pair_fst]

theorem Written.pairs {gs' : List Given} (h : Written cmd argv gs) (h' : Written cmd argv gs') :
    gs.map Given.pair = gs'.map Given.pair := by
  have hsaid := congrArg (List.map Prod.fst) (h.unique h')
  rwa [List.map_map, List.map_map] at hsaid

/-- What is given in the long form only is not given twice when it is not repeated in this form. -/
theorem LongOnce.once {gs' : List Given} (h : gs.map Given.said = gs'.map Given.said)
    (hlong : ∀ g ∈ gs', g.short = false) (honce : LongOnce gs) : Once gs := by
  have hshort : ∀ g ∈ gs, g.short = false := by
    intro g hg
    have hmem : g.said ∈ gs'.map Given.said := h ▸ List.mem_map_of_mem hg
    obtain ⟨g', hg', hsaid⟩ := List.mem_map.mp hmem
    exact (congrArg Prod.snd hsaid).symm.trans (hlong g' hg')
  exact honce.imp_of_mem fun _ hg' hne => hne (hshort _ hg')

/-- **`parse` does what is expected unless something is repeated in the short form only.** -/
theorem meets_iff (hhash : HashesApart hash cmd) : Meets hash console cmd argv ↔
    ∀ gs, Written cmd argv gs → Complete cmd gs → LongOnce gs → Once gs := by
  constructor
  · intro h gs hgs hcomplete honce
    have hok : cmd.parse hash console argv = .ok (false, passed hash (record cmd console gs)) :=
      (parse_eq_ok_iff hhash).mpr ⟨gs, hgs, honce, hcomplete, rfl⟩
    obtain ⟨gs', hgs', honce', -⟩ := (h.accepted _).mp hok
    exact honce'.congr (hgs'.pairs hgs)
  · intro h
    refine ⟨fun m => ?_, fun m hm => ?_, fun argv' gs gs' hgs hgs' hpairs hlong m => ?_⟩
    · rw [parse_eq_ok_iff hhash]
      constructor
      · rintro ⟨gs, hgs, hlong, hcomplete, rfl⟩
        have honce := h gs hgs hcomplete hlong
        exact ⟨gs, hgs, honce, hcomplete, passed_record hhash hgs.mem honce⟩
      · rintro ⟨gs, hgs, honce, hcomplete, rfl⟩
        exact ⟨gs, hgs, honce.long, hcomplete, (passed_record hhash hgs.mem honce).symm⟩
    · obtain ⟨⟨ishelp, calls⟩, hloop, hrest⟩ := Except.ok_of_bind hm
      rcases parseLoop_reads hloop with ⟨-, hasks⟩ | ⟨rfl, -⟩
      · exact hasks
      · dsimp only at hrest
        rw [if_neg Bool.false_ne_true] at hrest
        split_ifs at hrest
        nomatch hrest
    · rw [parse_eq_ok_iff hhash, parse_eq_ok_iff hhash]
      constructor
      · rintro ⟨gs₁, hgs₁, honce, hcomplete, rfl⟩
        have hsame : gs₁.map Given.pair = gs'.map Given.pair := (hgs₁.pairs hgs).trans hpairs.symm
        exact ⟨gs', hgs', ((h gs₁ hgs₁ hcomplete honce).congr hsame).long, hcomplete.congr hsame,
          by rw [record_congr hsame]⟩
      · rintro ⟨gs₁, hgs₁, honce, hcomplete, rfl⟩
        have hsame : gs₁.map Given.pair = gs.map Given.pair := (hgs₁.pairs hgs').trans hpairs
        exact ⟨gs, hgs, ((honce.once (hgs₁.unique hgs') hlong).congr hsame).long,
          hcomplete.congr hsame, by rw [record_congr hsame]⟩

end

/-- A flag `-a`, `--all`. -/
def all : Arg := ⟨⟨str "all", by decide⟩, 97, true, false⟩

def allCmd : Cmd where
  args := [all]
  inter := false
  named := List.forall_mem_singleton.mpr (by decide)
  distinct := List.pairwise_singleton _ _

theorem meets_all : Meets (fun _ => 0) (fun _ => []) allCmd [⟨str "-a", by decide⟩] ↔
    ∀ gs, Written allCmd [⟨str "-a", by decide⟩] gs → Complete allCmd gs → LongOnce gs → Once gs :=
  meets_iff fun a ha b hb _ => by rw [List.mem_singleton.mp ha, List.mem_singleton.mp hb]

/-- The flag is accepted twice. -/
theorem not_meets_twice : ¬ ∀ (hash : Bytes → UInt64) (console : Arg → Bytes) (cmd : Cmd)
    (argv : List CStr), HashesApart hash cmd → Meets hash console cmd argv := by
  intro h
  have hflag : Element allCmd (DASH :: [all].map Arg.sf) none ([all].map (.flag true)) :=
    .shortFlags (List.forall_mem_singleton.mpr ⟨List.mem_singleton_self _, rfl,
      by decide⟩) ⟨⟨all, [], rfl, by decide⟩, by decide⟩
  have htwice : Written allCmd [⟨str "-a", by decide⟩, ⟨str "-a", by decide⟩]
      ([.flag true all] ++ ([.flag true all] ++ [])) := .one hflag (.one hflag .done)
  have hparse : allCmd.parse (fun _ => 0) (fun _ => []) [⟨str "-a", by decide⟩,
      ⟨str "-a", by decide⟩] = .ok (false, [(str "all", str "1")]) := by decide
  have hmeets := h (fun _ => 0) (fun _ => []) allCmd [⟨str "-a", by decide⟩, ⟨str "-a", by decide⟩]
    fun a ha b hb _ => by rw [List.mem_singleton.mp ha, List.mem_singleton.mp hb]
  obtain ⟨gs, hgs, honce, -⟩ := (hmeets.accepted _).mp hparse
  have honce' := honce.congr (hgs.pairs htwice)
  exact (List.pairwise_cons.mp honce').1 _ (List.mem_singleton_self _) rfl

end Suil.Cmdl
