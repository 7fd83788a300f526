import Suil.Cmdl.Parsing

set_option autoImplicit false

/-! # Registering arguments

Arguments are registered with `Cmd::operator<<`, global flags with `Parser::operator<<` (`cmdl.cpp`).
Both look for what is there already, each with a lookup of its own: that of a parser takes the sign of an
argument without a short form for a short form. `registers_iff` says when every registration succeeds. -/

namespace Suil.Cmdl

/-! ## Registries

A registry has a list of items; an insertion appends one when it is free, and fails otherwise. -/

section
variable {α σ ε : Type} {insert : σ → α → Except ε σ} {items : σ → List α}
  {Free : List α → α → Prop}

/-- Every item is free behind those in front of it. -/
def Admits (Free : List α → α → Prop) : List α → List α → Prop
  | _, [] => True
  | done, a :: as => Free done a ∧ Admits Free (done ++ [a]) as

/-- What an insertion does. -/
structure Appends (insert : σ → α → Except ε σ) (items : σ → List α) (Free : List α → α → Prop) :
    Prop where
  free : ∀ s a, Free (items s) a → ∃ s', insert s a = .ok s'
  items : ∀ s a s', insert s a = .ok s' → Free (items s) a ∧ items s' = items s ++ [a]

theorem Appends.foldlM_ok (h : Appends insert items Free) {as : List α} {s s' : σ}
    (hs : as.foldlM insert s = .ok s') : Admits Free (items s) as ∧ items s' = items s ++ as := by
  induction as generalizing s with
  | nil =>
      cases hs
      exact ⟨trivial, (List.append_nil _).symm⟩
  | cons a as ih =>
      obtain ⟨s₁, h₁, hs₁⟩ := Except.ok_of_bind hs
      obtain ⟨hfree, hitems⟩ := h.items s a s₁ h₁
      obtain ⟨hadmits, hall⟩ := ih hs₁
      rw [hitems] at hadmits hall
      refine ⟨⟨hfree, hadmits⟩, ?_⟩
      calc items s' = items s ++ [a] ++ as := hall
        _ = items s ++ a :: as := List.append_cons _ _ _ |>.symm

theorem Appends.foldlM_of_admits (h : Appends insert items Free) {as : List α} {s : σ}
    (hs : Admits Free (items s) as) : ∃ s', as.foldlM insert s = .ok s' := by
  induction as generalizing s with
  | nil => exact ⟨s, rfl⟩
  | cons a as ih =>
      obtain ⟨hfree, hrest⟩ := hs
      obtain ⟨s₁, h₁⟩ := h.free s a hfree
      rw [← (h.items s a s₁ h₁).2] at hrest
      obtain ⟨s', hs'⟩ := ih hrest
      refine ⟨s', ?_⟩
      rw [List.foldlM_cons, h₁]
      exact hs'

theorem admits_of_pairwise {R : α → α → Prop} {done as : List α}
    (hfree : ∀ pre a, a ∈ as → pre.Pairwise R → (∀ x ∈ pre, R x a) → Free pre a)
    (h : (done ++ as).Pairwise R) : Admits Free done as := by
  induction as generalizing done with
  | nil => trivial
  | cons a as ih =>
      rw [List.append_cons] at h
      have hboth := List.pairwise_append.mp (List.pairwise_append.mp h).1
      refine ⟨hfree done a List.mem_cons_self hboth.1 fun x hx =>
        hboth.2.2 x hx a List.mem_cons_self, ?_⟩
      exact ih (fun pre b hb => hfree pre b (List.mem_cons_of_mem a hb)) h

end

/-! ## The parser -/

/-- `Parser`: its global flags. -/
structure Parser where
  globals : List Arg

/-- `Parser::findarg(name, sf)`. -/
def Parser.findarg (p : Parser) (name : Str) (sf : UInt8 := NOSF) : Option Arg :=
  p.globals.find? fun a => a.sf = sf || Str.eq (.ofC a.lf.bytes) name

/-- `Parser::operator<<`. -/
def Parser.insert (p : Parser) (arg : Arg) : Except Exception Parser :=
  match p.findarg (.ofC arg.lf.bytes) with
  | none => .ok ⟨p.globals ++ [arg]⟩
  | some _ =>
      .error (.create 0 [str "duplicate global argument '", arg.lf.bytes, str " already registered"])

/-- The flag that asks for help. -/
def helpFlag : Arg := ⟨⟨str "help", by decide⟩, HELP, true, false⟩

/-- `Parser(app, version, descript)`. -/
def Parser.new : Except Exception Parser := Parser.insert ⟨[]⟩ helpFlag

/-- `Cmd(name, descript, help)`. -/
def Cmd.new (help : Bool) : Except Exception Cmd :=
  let cmd : Cmd := ⟨[], false, nofun, .nil⟩
  if help then cmd.insert helpFlag else .ok cmd

/-- The argument that the constructor registers. -/
def ownFlags (help : Bool) : List Arg := if help then [helpFlag] else []

/-! ## Names that are told apart -/

/-- The long names are pairwise distinct, and so are the short ones where there are any. -/
structure Apart (args : List Arg) : Prop where
  named : ∀ a ∈ args, a.lf.bytes ≠ []
  names : args.Pairwise fun a b => a.lf.bytes ≠ b.lf.bytes
  letters : args.Pairwise fun a b => a.sf ≠ NOSF → a.sf ≠ b.sf

/-- Arguments to register behind those of the constructor. -/
structure Flags (own : List Arg) where
  args : List Arg
  apart : Apart (own ++ args)

/-- Every registration succeeds, and each argument is found by its long and by its short name. -/
def Cmd.Registers (help : Bool) (args : List Arg) : Prop :=
  ∃ cmd, (Cmd.new help >>= args.foldlM Cmd.insert) = .ok cmd ∧ ∀ a ∈ ownFlags help ++ args,
    cmd.check (.ofC a.lf.bytes) NOSF = .ok a ∧ (a.sf ≠ NOSF → cmd.check .null a.sf = .ok a)

def Parser.Registers (args : List Arg) : Prop :=
  ∃ p, (Parser.new >>= args.foldlM Parser.insert) = .ok p ∧ ∀ a ∈ helpFlag :: args,
    p.findarg (.ofC a.lf.bytes) = some a ∧ (a.sf ≠ NOSF → p.findarg .null a.sf = some a)

/-! ## Commands -/

private theorem check_eq_false_iff {a b : Arg} : a.check b.sf (.ofC b.lf.bytes) = false ↔
    a.lf.bytes ≠ b.lf.bytes ∧ (b.sf ≠ NOSF → a.sf ≠ b.sf) := by
  have hname : Str.eq (.ofC a.lf.bytes) (.ofC b.lf.bytes) = false ↔ a.lf.bytes ≠ b.lf.bytes := by
    rw [← Bool.not_eq_true, eq_ofC_iff a.lf.free b.lf.free]
  rw [Arg.check, Bool.or_eq_false_iff, hname, and_comm, Bool.and_eq_false_imp, decide_eq_true_iff,
    decide_eq_false_iff_not]
  exact and_congr_right fun _ => ⟨fun h hb heq => h hb heq.symm, fun h hb heq => h hb heq.symm⟩

/-- An argument with a name can be registered when it is none of those that are there. -/
private theorem cmd_appends : Appends Cmd.insert Cmd.args fun done a =>
    a.lf.bytes ≠ [] ∧ ∀ x ∈ done, x.check a.sf (.ofC a.lf.bytes) = false where
  free := by
    rintro cmd a ⟨hname, hsame⟩
    rw [Cmd.insert, dif_neg hname, dif_pos hsame]
    exact ⟨_, rfl⟩
  items := by
    intro cmd a cmd' h
    rw [Cmd.insert] at h
    split_ifs at h with hname hsame
    cases h
    exact ⟨⟨hname, hsame⟩, rfl⟩

private theorem Cmd.new_eq (help : Bool) :
    Cmd.new help = (ownFlags help).foldlM Cmd.insert ⟨[], false, nofun, .nil⟩ := by
  cases help with
  | false => rfl
  | true =>
      rw [Cmd.new, ownFlags, if_pos rfl, if_pos rfl, List.foldlM_cons]
      cases Cmd.insert ⟨[], false, nofun, .nil⟩ helpFlag with
      | error e => rfl
      | ok cmd => rfl

private theorem cmd_registers (help : Bool) (fs : Flags (ownFlags help)) :
    Cmd.Registers help fs.args := by
  obtain ⟨args, hnamed, hnames, hletters⟩ := fs
  have hadmits : Admits (fun done a => a.lf.bytes ≠ [] ∧ ∀ x ∈ done,
      x.check a.sf (.ofC a.lf.bytes) = false) [] (ownFlags help ++ args) := by
    refine admits_of_pairwise (fun pre a ha _ hpre => ⟨hnamed a ha, fun x hx => ?_⟩)
      (hnames.and hletters)
    obtain ⟨hne, hsf⟩ := hpre x hx
    refine check_eq_false_iff.mpr ⟨hne, fun hb heq => ?_⟩
    exact hsf (heq ▸ hb) heq
  obtain ⟨cmd, hcmd⟩ := cmd_appends.foldlM_of_admits
    (s := (⟨[], false, nofun, .nil⟩ : Cmd)) hadmits
  have hargs : cmd.args = ownFlags help ++ args := (cmd_appends.foldlM_ok hcmd).2
  refine ⟨cmd, ?_, fun a ha => ?_⟩
  · rw [Cmd.new_eq, ← List.foldlM_append]
    exact hcmd
  · rw [← hargs] at ha
    exact ⟨(Cmd.check_long a.lf.free).mpr ⟨ha, rfl⟩,
      fun hsf => (Cmd.check_short hsf).mpr ⟨ha, rfl⟩⟩

/-! ## Parsers -/

/-- A flag can be registered when it has another name than those that are there, and all of them have a
short form. -/
private theorem parser_appends : Appends Parser.insert Parser.globals fun done a =>
    ∀ x ∈ done, x.sf ≠ NOSF ∧ x.lf.bytes ≠ a.lf.bytes := by
  have hfind : ∀ (p : Parser) (a : Arg), p.findarg (.ofC a.lf.bytes) = none ↔
      ∀ x ∈ p.globals, x.sf ≠ NOSF ∧ x.lf.bytes ≠ a.lf.bytes := by
    intro p a
    rw [Parser.findarg, List.find?_eq_none]
    refine forall₂_congr fun x _ => ?_
    rw [Bool.or_eq_true, decide_eq_true_iff, eq_ofC_iff x.lf.free a.lf.free, not_or]
  refine ⟨fun p a h => ?_, fun p a p' h => ?_⟩
  · rw [Parser.insert, (hfind p a).mpr h]
    exact ⟨_, rfl⟩
  · rw [Parser.insert] at h
    cases hnone : p.findarg (.ofC a.lf.bytes) with
    | none =>
        rw [hnone] at h
        cases h
        exact ⟨(hfind p a).mp hnone, rfl⟩
    | some x =>
        rw [hnone] at h
        nomatch h

/-- All of the flags in front of the last one have a short form. -/
private theorem admits_flags_iff {done as : List Arg} (hdone : ∀ a ∈ done, a.sf ≠ NOSF)
    (hnames : (done ++ as).Pairwise fun a b => a.lf.bytes ≠ b.lf.bytes) :
    Admits (fun done a => ∀ x ∈ done, x.sf ≠ NOSF ∧ x.lf.bytes ≠ a.lf.bytes) done as ↔
      ∀ a ∈ as.dropLast, a.sf ≠ NOSF := by
  induction as generalizing done with
  | nil => exact iff_of_true trivial nofun
  | cons a as ih =>
      have hfree : ∀ x ∈ done, x.sf ≠ NOSF ∧ x.lf.bytes ≠ a.lf.bytes := fun x hx =>
        ⟨hdone x hx, (List.pairwise_append.mp hnames).2.2 x hx a List.mem_cons_self⟩
      rw [Admits, and_iff_right hfree]
      cases as with
      | nil => exact iff_of_true trivial nofun
      | cons b as =>
          rw [List.dropLast_cons_cons, List.forall_mem_cons]
          by_cases ha : a.sf = NOSF
          · -- the next one is not taken for a new flag
            refine iff_of_false (fun h => ?_) fun h => h.1 ha
            exact (h.1 a (List.mem_append_right _ List.mem_cons_self)).1 ha
          · rw [and_iff_right ha]
            refine ih (List.forall_mem_append.mpr ⟨hdone, List.forall_mem_singleton.mpr ha⟩) ?_
            rw [← List.append_cons]
            exact hnames

private theorem find?_append_cons {α : Type} {p : α → Bool} {pre : List α} {a : α} (post : List α)
    (hpre : ∀ x ∈ pre, p x = false) (ha : p a = true) : (pre ++ a :: post).find? p = some a := by
  have hnone : pre.find? p = none :=
    List.find?_eq_none.mpr fun x hx => Bool.eq_false_iff.mp (hpre x hx)
  rw [List.find?_append, hnone, Option.none_or, List.find?_cons_of_pos ha]

/-- A flag is found when every flag in front of it has a short form. -/
private theorem findarg_of_apart {as : List Arg} (h : Apart as)
    (hsf : ∀ a ∈ as.dropLast, a.sf ≠ NOSF) {a : Arg} (ha : a ∈ as) :
    Parser.findarg ⟨as⟩ (.ofC a.lf.bytes) = some a ∧
      (a.sf ≠ NOSF → Parser.findarg ⟨as⟩ .null a.sf = some a) := by
  obtain ⟨pre, post, rfl⟩ := List.append_of_mem ha
  obtain ⟨-, hnames, hletters⟩ := h
  have hbefore : ∀ x ∈ pre, x.sf ≠ NOSF := by
    intro x hx
    apply hsf
    rw [List.dropLast_append_of_ne_nil (List.cons_ne_nil a post)]
    exact List.mem_append_left _ hx
  constructor
  · refine find?_append_cons post (fun x hx => ?_) ?_
    · have hne := (List.pairwise_append.mp hnames).2.2 x hx a List.mem_cons_self
      rw [Bool.or_eq_false_iff, decide_eq_false_iff_not, ← Bool.not_eq_true,
        eq_ofC_iff x.lf.free a.lf.free]
      exact ⟨hbefore x hx, hne⟩
    · rw [(eq_ofC_iff a.lf.free a.lf.free).mpr rfl, Bool.or_true]
  · intro _
    have hnull : ∀ x : Arg, Str.eq (.ofC x.lf.bytes) .null = false := fun _ => rfl
    refine find?_append_cons post (fun x hx => ?_) ?_
    · have hne := (List.pairwise_append.mp hletters).2.2 x hx a List.mem_cons_self
      rw [hnull, Bool.or_false, decide_eq_false_iff_not]
      exact hne (hbefore x hx)
    · rw [decide_eq_true rfl, Bool.true_or]

private theorem parser_registers_iff (fs : Flags [helpFlag]) :
    Parser.Registers fs.args ↔ ∀ a ∈ fs.args.dropLast, a.sf ≠ NOSF := by
  obtain ⟨args, hapart⟩ := fs
  have hnew : Parser.new = .ok ⟨[helpFlag]⟩ := rfl
  have hhelp : ∀ a ∈ [helpFlag], a.sf ≠ NOSF := List.forall_mem_singleton.mpr (by decide)
  have hadmits := admits_flags_iff hhelp hapart.names
  rw [Parser.Registers, hnew, Except.bind_of_ok]
  constructor
  · rintro ⟨p, hp, -⟩
    exact hadmits.mp (parser_appends.foldlM_ok hp).1
  · intro hsf
    obtain ⟨p, hp⟩ := parser_appends.foldlM_of_admits (s := (⟨[helpFlag]⟩ : Parser))
      (hadmits.mpr hsf)
    obtain rfl : p = ⟨[helpFlag] ++ args⟩ := congrArg Parser.mk (parser_appends.foldlM_ok hp).2
    refine ⟨_, hp, fun a ha => findarg_of_apart hapart (fun x hx => ?_) ha⟩
    cases args with
    | nil => nomatch hx
    | cons b args =>
        rcases List.mem_cons.mp hx with rfl | hx
        · decide
        · exact hsf x hx

/-! ## Both -/

/-- **Arguments with names of their own can always be registered with a command. Global flags can be
registered with a parser, and be found, exactly when all of them but the last one have a short form.** -/
theorem registers_iff (help : Bool) (fs : Flags (ownFlags help)) (gs : Flags [helpFlag]) :
    Cmd.Registers help fs.args ∧
      (Parser.Registers gs.args ↔ ∀ a ∈ gs.args.dropLast, a.sf ≠ NOSF) :=
  ⟨cmd_registers help fs, parser_registers_iff gs⟩

/-- Two global flags, `--alpha` and `--beta`, without a short form. -/
theorem not_registers_alphaBeta :
    ¬ ∀ (help : Bool) (fs : Flags (ownFlags help)) (gs : Flags [helpFlag]),
      Cmd.Registers help fs.args ∧ Parser.Registers gs.args := by
  intro h
  let alpha : Arg := ⟨⟨str "alpha", by decide⟩, NOSF, true, false⟩
  let beta : Arg := ⟨⟨str "beta", by decide⟩, NOSF, true, false⟩
  have hapart : Apart ([helpFlag] ++ [alpha, beta]) :=
    ⟨by decide, by decide, by decide⟩
  obtain ⟨p, hp, -⟩ := (h false ⟨[], by decide, by decide, by decide⟩ ⟨[alpha, beta], hapart⟩).2
  nomatch hp

end Suil.Cmdl
