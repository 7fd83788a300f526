import Mathlib
import Suil.Basic.Strncmp
import Suil.Routing.AddSteps
import Suil.Routing.Rules

set_option autoImplicit false

/-! # The tag of a pattern

The kinds of the placeholders of a pattern are read three times: by `get_parameter_tag` when the
program is compiled, by `get_parameter_tag_runtime` for dynamic rules (both in `http/common.h`), and by
`Trie::add`. The first two pack them into a number in base 6, which `is_parameter_tag_compatible`
compares with the number of a handler. `handlers_served_iff` says for which patterns and handlers they
agree and the handler, if it is accepted, receives the values of the placeholders. -/

namespace Suil.Routing

/-! ## The scanners -/

/-- How a scan fails: with an exception, or (which `Scanner.tag_eq` excludes) without fuel. -/
inductive TagFault where
  | runtimeError (what : Bytes)
  | outOfRange
  | outOfFuel
  deriving DecidableEq, Repr

def UINT64 : Nat := 2 ^ 64

/-- The tests of a scan in their order, each with what it adds to the tag. -/
def tagTable : List (Bytes × Nat) :=
  [(str "{int}", 1), (str "{uint}", 2), (str "{float}", 3), (str "{double}", 3), (str "{str}", 4),
    (str "{string}", 4), (str "{path}", 5)]

/-- What a scan does at a position `p`, each with the text from there on: `s[p] == 0` or
`p == s.size()`, the comparison with a placeholder, and the search of the closing brace. -/
structure Scanner where
  ends : Bytes → Bool
  is : Bytes → Bytes → Bool
  findClosingTag : Bytes → Except TagFault Bytes

/-- The recursion that the two scans share. -/
def Scanner.tag (S : Scanner) : Nat → Bytes → Except TagFault Nat
  | 0, _ => .error .outOfFuel
  | n + 1, s =>
      if S.ends s then .ok 0
      else if s.headD NUL = LBRACE then
        match tagTable.find? fun x => S.is s x.1 with
        | some x => do
            let closing ← S.findClosingTag s
            let t ← S.tag n closing
            .ok ((t * 6 + x.2) % UINT64)
        | none => .error (.runtimeError (str "invalid parameter type"))
      else S.tag n s.tail

/-- `find_closing_tag_runtime`. -/
def findClosingTagRuntime : Bytes → Except TagFault Bytes
  | [] => .error (.runtimeError (str "unmatched tag \x7b"))
  | c :: s =>
      if c = NUL then .error (.runtimeError (str "unmatched tag \x7b"))
      else if c = RBRACE then .ok (c :: s)
      else findClosingTagRuntime s

/-- `find_closing_tag`. -/
def findClosingTag : Bytes → Except TagFault Bytes
  | [] => .error .outOfRange
  | c :: s => if c = RBRACE then .ok (c :: s) else findClosingTag s

/-- `is_equ_n`. -/
def isEquN : Nat → Bytes → Bytes → Bool
  | 0, _, _ => true
  | n + 1, a :: s, b :: t => if a ≠ b then false else isEquN n s t
  | _ + 1, _, _ => false

/-- The scan of a C string. -/
def runtimeScanner : Scanner where
  ends s := s.headD NUL = NUL
  is s name := strncmpEq name.length s name
  findClosingTag := findClosingTagRuntime

/-- The scan of a `const_str`. -/
def constScanner : Scanner where
  ends s := s.isEmpty
  is s name := isEquN name.length s name
  findClosingTag := findClosingTag

/-- `get_parameter_tag_runtime(s.c_str())`. -/
def getParameterTagRuntime (s : Bytes) : Except TagFault Nat := runtimeScanner.tag (s.length + 1) s

/-- `get_parameter_tag(s)`. -/
def getParameterTag (s : Bytes) : Except TagFault Nat := constScanner.tag (s.length + 1) s

/-! ## What `add` recognises -/

/-- The placeholder of an edge. -/
def Key.kind : Key → Option ParamType
  | .chr _ => none
  | .param k => some k

/-- The edges that the loop of `add` follows. -/
def Trie.addKeys : Nat → Bytes → Option (List Key)
  | _, [] => some []
  | 0, _ :: _ => none
  | fuel + 1, c :: rest =>
      if c = LBRACE then
        match paramTraits.find? (fun x => x.2.isPrefixOf (c :: rest)) with
        | some x => (addKeys fuel ((c :: rest).drop x.2.length)).map (.param x.1 :: ·)
        | none => addKeys fuel (c :: rest)
      else (addKeys fuel rest).map (.chr c :: ·)

/-- The kinds of the placeholders that `add` finds in a pattern, nothing when it does not end. -/
def recognised (url : Bytes) : Option (List ParamType) :=
  (Trie.addKeys url.length url).map (·.filterMap Key.kind)

/-- They are the edges that it follows in any trie. -/
theorem Trie.addLoop_eq_addKeys (fuel : Nat) (t : Trie) (idx : Nat) (url : Bytes) :
    addLoop fuel t idx url = (addKeys fuel url).map (t.followAll idx) := by
  induction fuel generalizing t idx url with
  | zero => cases url <;> rfl
  | succ fuel ih =>
      cases url with
      | nil => rfl
      | cons c rest =>
          rw [addLoop, addKeys]
          by_cases hc : c = LBRACE
          · rw [if_pos hc, if_pos hc]
            cases paramTraits.find? (fun x => x.2.isPrefixOf (c :: rest)) with
            | none => exact ih t idx (c :: rest)
            | some x =>
                dsimp only
                rw [ih, Option.map_map]
                rfl
          · rw [if_neg hc, if_neg hc]
            dsimp only
            rw [ih, Option.map_map]
            rfl

/-! ## Handlers -/

/-- The types of the arguments of a handler behind the request and the response; integers by the type
they are promoted to. -/
inductive ArgKind where
  | int
  | uint
  | double
  | float
  | string
  deriving DecidableEq, Repr

/-- `parameter_tag`. A `float` has none. -/
def ArgKind.tag : ArgKind → Nat
  | .int => 1
  | .uint => 2
  | .double => 3
  | .float => 0
  | .string => 4

/-- `promote`. -/
def ArgKind.promote : ArgKind → ArgKind
  | .float => .double
  | h => h

/-- `compute_parameter_tag_from_args_list`. It is a constant of the type `int`: a handler for which it
is larger does not compile. -/
def computeParameterTag : List ArgKind → Option Nat
  | [] => some 0
  | h :: hs => do
      let sub_value ← computeParameterTag hs
      if h.tag = 0 then some sub_value
      else if sub_value * 6 + h.tag < 2 ^ 31 then some (sub_value * 6 + h.tag)
      else none

/-- `is_parameter_tag_compatible`. Both digits are those of `a`. -/
def isParameterTagCompatible (a b : Nat) : Bool :=
  if a = 0 then b = 0
  else if b = 0 then a = 0
  else
    let sa := a % 6
    let sb := a % 6
    let sa := if sa = 5 then 4 else sa
    let sb := if sb = 5 then 4 else sb
    if sa ≠ sb then false else isParameterTagCompatible (a / 6) (b / 6)
termination_by a
decreasing_by exact Nat.div_lt_self (Nat.pos_of_ne_zero ‹_›) (by decide)

/-- `single_tag_to_type`. -/
def singleTagToType : Nat → Option ArgKind
  | 1 => some .int
  | 2 => some .uint
  | 3 => some .double
  | 4 => some .string
  | 5 => some .string
  | _ => none

/-- `arguments`: the arguments of the handlers of a tagged rule. -/
def arguments (tag : Nat) : Option (List ArgKind) :=
  if tag = 0 then some []
  else do
    let sub ← arguments (tag / 6)
    let arg ← singleTagToType (tag % 6)
    some (arg :: sub)
termination_by tag
decreasing_by exact Nat.div_lt_self (Nat.pos_of_ne_zero ‹_›) (by decide)

variable {δ : Type}

/-- `params_container::operator[]`. -/
def ParamsContainer.get {α : Type} (c : ParamsContainer α) (idx : Nat) : Except Bytes α :=
  match c.vals[idx]? with
  | some v => .ok v
  | none => .error (str "index out of bounds")

/-- `get<T>(pos)` for the promoted type. -/
def RoutingParams.get (params : RoutingParams δ) : ArgKind → Nat → Except Bytes (ParamVal δ)
  | .int, pos => (params.intParams.get pos).map .int
  | .uint, pos => (params.uintParams.get pos).map .uint
  | .double, pos | .float, pos => (params.doubleParams.get pos).map .double
  | .string, pos => (params.stringParams.get pos).map .str

/-- `NInt`, `NUint`, `NDouble` and `NString`: how many arguments of each type come before. -/
structure Counts where
  nInt : Nat := 0
  nUint : Nat := 0
  nDouble : Nat := 0
  nString : Nat := 0

def Counts.pos (n : Counts) : ArgKind → Nat
  | .int => n.nInt
  | .uint => n.nUint
  | .double | .float => n.nDouble
  | .string => n.nString

def Counts.push (n : Counts) : ArgKind → Counts
  | .int => { n with nInt := n.nInt + 1 }
  | .uint => { n with nUint := n.nUint + 1 }
  | .double | .float => { n with nDouble := n.nDouble + 1 }
  | .string => { n with nString := n.nString + 1 }

/-- `call`: the arguments that a handler is called with. -/
def call (params : RoutingParams δ) : Counts → List ArgKind → Except Bytes (List (ParamVal δ))
  | _, [] => .ok []
  | n, h :: hs => do
      let v ← params.get h (n.pos h)
      let vs ← call params (n.push h) hs
      .ok (v :: vs)

/-- The handlers that are accepted for a pattern: by a dynamic rule those with a compatible tag, by a
tagged rule those with its arguments. -/
inductive Accepted (s : Bytes) (hs : List ArgKind) : Prop where
  | dynamicRule {a b : Nat} (ha : getParameterTagRuntime s = .ok a)
      (hb : computeParameterTag hs = some b) (h : isParameterTagCompatible a b = true)
  | taggedRule {a : Nat} (ha : getParameterTag s = .ok a) (h : arguments a = some hs)

/-! ## Patterns and their handlers -/

/-- The digit of a placeholder. -/
def ParamType.digit : ParamType → Nat
  | .int => 1
  | .uint => 2
  | .double => 3
  | .string => 4
  | .path => 5

/-- The argument for a placeholder. -/
def ParamType.arg : ParamType → ArgKind
  | .int => .int
  | .uint => .uint
  | .double => .double
  | .string => .string
  | .path => .string

/-- The argument for a value. -/
def ParamVal.arg : ParamVal δ → ArgKind
  | .int _ => .int
  | .uint _ => .uint
  | .double _ => .double
  | .str _ => .string

/-- The digits of both tags are the kinds that `add` recognises, in order, or all three refuse the
pattern. -/
def Agrees (s : Bytes) : Prop :=
  match recognised s with
  | some ks => ∃ a, getParameterTagRuntime s = .ok a ∧ getParameterTag s = .ok a ∧
      Nat.digits 6 a = ks.map ParamType.digit
  | none => (∃ e, getParameterTagRuntime s = .error e) ∧ ∃ e, getParameterTag s = .error e

/-- A handler that is accepted receives the values of the placeholders, whatever they are. -/
def Receives (s : Bytes) (hs : List ArgKind) : Prop :=
  Accepted s hs → ∀ ks, recognised s = some ks → ∀ (δ : Type) (params : RoutingParams δ)
    (vs : List (ParamVal δ)), vs.map ParamVal.arg = ks.map ParamType.arg → params.Carries vs →
      call params {} hs = .ok vs

def Served (s : Bytes) (hs : List ArgKind) : Prop := Agrees s ∧ Receives s hs

/-- A pattern that can be a string literal, with at most 24 placeholders. -/
structure Route where
  text : Bytes
  short : text.length + 1 < UNSIGNED
  few : ∀ ks, recognised text = some ks → ks.length ≤ 24

/-! ## Patterns -/

/-- The kinds of the placeholders of a pattern. -/
def Pattern.kinds (p : Pattern) : List ParamType := p.keys.filterMap Key.kind

theorem addKeys_text (p : Pattern) {fuel : Nat} (hfuel : p.text.length ≤ fuel) :
    Trie.addKeys fuel p.text = some p.keys := by
  have hloop := Trie.addLoop_text p fuel hfuel {} 0
  rw [Trie.addLoop_eq_addKeys, Option.map_eq_some_iff] at hloop
  obtain ⟨ks, hks, hsame⟩ := hloop
  -- the edges lead to one node, so that they are the same
  obtain ⟨hb, -, -, hgoto⟩ := Trie.followAll_spec Trie.built_empty Trie.built_empty.pos p.keys
  obtain ⟨-, -, -, hgoto'⟩ := Trie.followAll_spec Trie.built_empty Trie.built_empty.pos ks
  rw [hsame] at hgoto'
  rw [hks, hb.goto_inj hgoto' hgoto]

theorem recognised_text (p : Pattern) : recognised p.text = some p.kinds := by
  rw [recognised, addKeys_text p (Nat.le_refl _)]
  rfl

theorem text_of_recognised {s : Bytes} {ks : List ParamType} (h : recognised s = some ks) :
    ∃ p : Pattern, p.text = s ∧ p.kinds = ks := by
  obtain ⟨keys, hkeys, -⟩ := Option.map_eq_some_iff.mp h
  have hloop := Trie.addLoop_eq_addKeys s.length {} 0 s
  rw [hkeys] at hloop
  obtain ⟨p, rfl⟩ := Trie.text_of_addLoop hloop
  exact ⟨p, rfl, Option.some.inj ((recognised_text p).symm.trans h)⟩

/-! ## What a scan reads -/

/-- The text that a scanner sees. -/
structure Scanner.Views (S : Scanner) (view : Bytes → Bytes) : Prop where
  ends : ∀ s, S.ends s = (view s).isEmpty
  next : ∀ {s c v}, view s = c :: v → s.headD NUL = c ∧ view s.tail = v
  is : ∀ s, ∀ x ∈ tagTable, S.is s x.1 = x.1.isPrefixOf (view s)
  closing : ∀ {s v}, ∀ x ∈ tagTable, view s = x.1 ++ v →
    ∃ r, S.findClosingTag s = .ok r ∧ view r = RBRACE :: v

/-- The placeholders are those of `add`, with their digits. -/
private theorem tagTable_eq : tagTable = Trie.paramTraits.map fun x => (x.2, x.1.digit) := rfl

private theorem find_tagTable {S : Scanner} {view : Bytes → Bytes} (hS : S.Views view) (s : Bytes) :
    (tagTable.find? fun x => S.is s x.1) =
      (Trie.paramTraits.find? fun x => x.2.isPrefixOf (view s)).map fun x => (x.2, x.1.digit) := by
  have hsame : (tagTable.find? fun x => S.is s x.1) =
      tagTable.find? fun x => x.1.isPrefixOf (view s) :=
    List.find?_congr fun x hx => hS.is s x hx
  rw [hsame, tagTable_eq, List.find?_map]
  rfl

private theorem paramTraits_ends : ∀ x ∈ Trie.paramTraits,
    x.2 = LBRACE :: x.2.tail ∧ NUL ∉ x.2 ∧ ∃ pre, x.2 = pre ++ [RBRACE] ∧ RBRACE ∉ pre := by
  have hall : ∀ x ∈ Trie.paramTraits, x.2 = LBRACE :: x.2.tail ∧ NUL ∉ x.2 ∧
      x.2 = x.2.dropLast ++ [RBRACE] ∧ RBRACE ∉ x.2.dropLast := by decide
  intro x hx
  obtain ⟨hhead, hnul, hlast, hno⟩ := hall x hx
  exact ⟨hhead, hnul, _, hlast, hno⟩

section

variable {S : Scanner} {view : Bytes → Bytes} (hS : S.Views view)
include hS

private theorem tag_chr {s v : Bytes} {c : UInt8} (hview : view s = c :: v) (hc : c ≠ LBRACE)
    (n : Nat) : S.tag (n + 1) s = S.tag n s.tail := by
  have hends : S.ends s = false := by
    rw [hS.ends, hview]
    rfl
  rw [Scanner.tag, hends, (hS.next hview).1, if_neg Bool.false_ne_true, if_neg hc]

private theorem tag_placeholder {s v : Bytes} {x : ParamType × Bytes} (hx : x ∈ Trie.paramTraits)
    (hview : view s = x.2 ++ v) (n : Nat) : ∃ r, view r = v ∧
      S.tag (n + 2) s = (S.tag n r).bind fun t => .ok ((t * 6 + x.1.digit) % UINT64) := by
  have hmem : (x.2, x.1.digit) ∈ tagTable := by
    rw [tagTable_eq]
    exact List.mem_map_of_mem hx
  obtain ⟨r, hclosing, hr⟩ := hS.closing _ hmem hview
  obtain ⟨hhead, -⟩ := paramTraits_ends x hx
  have hbrace : view s = LBRACE :: (x.2.tail ++ v) := by
    rw [hview]
    conv_lhs => rw [hhead]
    rfl
  have hends : S.ends s = false := by
    rw [hS.ends, hbrace]
    rfl
  refine ⟨r.tail, (hS.next hr).2, ?_⟩
  rw [Scanner.tag, hends, (hS.next hbrace).1, if_neg Bool.false_ne_true, if_pos rfl,
    find_tagTable hS, hview, Trie.find_paramTraits hx, Option.map_some, hclosing]
  dsimp only
  rw [← tag_chr hS hr (by decide) n]
  rfl

/-- A scan of the text of a pattern packs its kinds. -/
theorem Scanner.tag_text (p : Pattern) {s : Bytes} (hview : view s = p.text) {n : Nat}
    (hn : p.text.length < n) :
    S.tag n s = .ok (Nat.ofDigits 6 (p.kinds.map ParamType.digit) % UINT64) := by
  induction p generalizing s n with
  | nil =>
      obtain ⟨n, rfl⟩ : ∃ m, n = m + 1 := ⟨n - 1, by omega⟩
      have hends : S.ends s = true := by
        rw [hS.ends, hview]
        rfl
      rw [Scanner.tag, hends, if_pos rfl]
      rfl
  | cons x p ih =>
      cases x with
      | chr c hc =>
          have htext : Pattern.text (.chr c hc :: p) = c :: Pattern.text p := rfl
          rw [htext] at hview hn
          rw [List.length_cons] at hn
          obtain ⟨n, rfl⟩ : ∃ m, n = m + 1 := ⟨n - 1, by omega⟩
          rw [tag_chr hS hview hc]
          exact ih (hS.next hview).2 (by omega)
      | placeholder k name h =>
          have htext : Pattern.text (.placeholder k name h :: p) = name ++ Pattern.text p := rfl
          rw [htext] at hview hn
          have hlength : 1 < name.length := by
            have hall : ∀ x ∈ Trie.paramTraits, 1 < x.2.length := by decide
            exact hall _ h
          rw [List.length_append] at hn
          obtain ⟨n, rfl⟩ : ∃ m, n = m + 2 := ⟨n - 2, by omega⟩
          obtain ⟨r, hr, htag⟩ := tag_placeholder hS h hview n
          rw [htag, ih (n := n) hr (by omega)]
          have hkinds : Pattern.kinds (.placeholder k name h :: p) = k :: Pattern.kinds p := rfl
          rw [hkinds, List.map_cons, Nat.ofDigits_cons]
          show Except.ok _ = Except.ok _
          congr 1
          dsimp only
          unfold UINT64
          omega

/-- A scan that succeeds is one of the text of a pattern. -/
theorem Scanner.text_of_tag {n : Nat} {s : Bytes} {a : Nat} (h : S.tag n s = .ok a) :
    ∃ p : Pattern, p.text = view s := by
  induction n generalizing s a with
  | zero => nomatch h
  | succ n ih =>
      rw [Scanner.tag] at h
      cases hview : view s with
      | nil => exact ⟨[], rfl⟩
      | cons c v =>
          have hends : S.ends s = false := by
            rw [hS.ends, hview]
            rfl
          rw [hends, (hS.next hview).1, if_neg Bool.false_ne_true] at h
          by_cases hc : c = LBRACE
          · rw [if_pos hc, find_tagTable hS] at h
            cases hfind : Trie.paramTraits.find? fun x => x.2.isPrefixOf (view s) with
            | none =>
                rw [hfind] at h
                nomatch h
            | some x =>
                have hx : x ∈ Trie.paramTraits := List.mem_of_find?_eq_some hfind
                have hprefix := List.find?_some hfind
                obtain ⟨w, hw⟩ := List.isPrefixOf_iff_prefix.mp hprefix
                obtain ⟨r, hclosing, hr⟩ := hS.closing (x.2, x.1.digit)
                  (tagTable_eq ▸ List.mem_map_of_mem hx) hw.symm
                rw [hfind, Option.map_some, hclosing] at h
                have hrest : (S.tag n r).bind (fun t => .ok ((t * 6 + x.1.digit) % UINT64)) =
                    .ok a := h
                cases htag : S.tag n r with
                | error e =>
                    rw [htag] at hrest
                    nomatch hrest
                | ok t =>
                    -- the scan goes on at the closing brace, which is a character of its own
                    obtain ⟨p, hp⟩ := ih htag
                    rw [hr] at hp
                    cases p with
                    | nil => nomatch hp
                    | cons y p =>
                        cases y with
                        | chr d hd =>
                            refine ⟨.placeholder x.1 x.2 hx :: p, ?_⟩
                            rw [← hview, ← hw]
                            exact congrArg (x.2 ++ ·) (List.cons.inj hp).2
                        | placeholder k name hname =>
                            have hhead := (paramTraits_ends _ hname).1
                            dsimp only at hhead
                            have htext : name ++ Pattern.text p = RBRACE :: w := hp
                            rw [hhead] at htext
                            exact absurd (List.cons.inj htext).1 (by decide)
          · rw [if_neg hc] at h
            obtain ⟨p, hp⟩ := ih h
            refine ⟨.chr c hc :: p, ?_⟩
            rw [(hS.next hview).2] at hp
            exact congrArg (c :: ·) hp

end

/-! ## The two scanners -/

private theorem findClosingTag_append {pre : Bytes} (hpre : RBRACE ∉ pre) (v : Bytes) :
    findClosingTag (pre ++ RBRACE :: v) = .ok (RBRACE :: v) := by
  induction pre with
  | nil => rfl
  | cons c pre ih =>
      rw [List.mem_cons, not_or] at hpre
      rw [List.cons_append, findClosingTag, if_neg (Ne.symm hpre.1)]
      exact ih hpre.2

private theorem findClosingTagRuntime_append {pre : Bytes} (hpre : RBRACE ∉ pre) (hnul : NUL ∉ pre)
    (v : Bytes) : findClosingTagRuntime (pre ++ RBRACE :: v) = .ok (RBRACE :: v) := by
  induction pre with
  | nil => rfl
  | cons c pre ih =>
      rw [List.mem_cons, not_or] at hpre hnul
      rw [List.cons_append, findClosingTagRuntime, if_neg (Ne.symm hnul.1), if_neg (Ne.symm hpre.1)]
      exact ih hpre.2 hnul.2

private theorem isEquN_eq (name s : Bytes) : isEquN name.length s name = name.isPrefixOf s := by
  induction name generalizing s with
  | nil => rfl
  | cons c name ih =>
      cases s with
      | nil => rfl
      | cons d s =>
          rw [List.length_cons, isEquN, List.isPrefixOf]
          by_cases hcd : d = c
          · rw [if_neg (not_not.mpr hcd), ih, hcd, beq_self_eq_true, Bool.true_and]
          · rw [if_pos hcd, beq_eq_false_iff_ne.mpr (Ne.symm hcd), Bool.false_and]

/-- A `const_str` is seen whole. -/
theorem constScanner_views : constScanner.Views id := by
  refine ⟨fun s => rfl, ?_, fun s x _ => isEquN_eq x.1 s, ?_⟩
  · rintro s c v rfl
    exact ⟨rfl, rfl⟩
  · intro s v x hx hview
    rw [tagTable_eq] at hx
    obtain ⟨y, hy, rfl⟩ := List.mem_map.mp hx
    obtain ⟨-, -, pre, hpre, hno⟩ := paramTraits_ends y hy
    refine ⟨RBRACE :: v, ?_, rfl⟩
    have hs : s = pre ++ RBRACE :: v := by
      have htext : s = y.2 ++ v := hview
      rw [htext, hpre, List.append_assoc]
      rfl
    rw [hs]
    exact findClosingTag_append hno v

/-- A C string is seen up to its first NUL. -/
theorem runtimeScanner_views : runtimeScanner.Views cstr := by
  refine ⟨?_, ?_, ?_, ?_⟩
  · intro s
    cases s with
    | nil => rfl
    | cons c s =>
        by_cases hc : c = NUL
        · subst hc
          rfl
        · rw [cstr_cons hc]
          exact decide_eq_false hc
  · intro s c v hview
    cases s with
    | nil => nomatch hview
    | cons d s =>
        by_cases hd : d = NUL
        · subst hd
          nomatch hview
        · rw [cstr_cons hd] at hview
          exact List.cons.inj hview
  · intro s x hx
    rw [tagTable_eq] at hx
    obtain ⟨y, hy, rfl⟩ := List.mem_map.mp hx
    obtain ⟨-, hnul, -⟩ := paramTraits_ends y hy
    rw [Bool.eq_iff_iff, List.isPrefixOf_iff_prefix, List.prefix_iff_eq_take]
    show strncmpEq y.2.length s y.2 = true ↔ _
    rw [strncmpEq_iff, cstr_eq_self hnul, List.take_length]
    exact eq_comm
  · intro s v x hx hview
    rw [tagTable_eq] at hx
    obtain ⟨y, hy, rfl⟩ := List.mem_map.mp hx
    obtain ⟨-, hnul, pre, hpre, hno⟩ := paramTraits_ends y hy
    have hsplit : cstr s ++ s.dropWhile (· ≠ NUL) = s := List.takeWhile_append_dropWhile
    generalize s.dropWhile (· ≠ NUL) = w at hsplit
    -- the placeholder ends in front of the NUL, and so inside the C string
    have hs : s = pre ++ RBRACE :: (v ++ w) := by
      rw [← hsplit, hview]
      show y.2 ++ v ++ w = _
      rw [hpre, List.append_assoc, List.append_assoc]
      rfl
    have hpre' : NUL ∉ pre := fun hmem => hnul (hpre ▸ List.mem_append_left [RBRACE] hmem)
    refine ⟨RBRACE :: (v ++ w), ?_, ?_⟩
    · rw [hs]
      exact findClosingTagRuntime_append hno hpre' (v ++ w)
    · -- what is seen behind the placeholder is what is left of the C string
      rw [hs, cstr_append hpre'] at hview
      have hboth : pre ++ cstr (RBRACE :: (v ++ w)) = pre ++ RBRACE :: v := by
        rw [hview]
        show y.2 ++ v = _
        rw [hpre, List.append_assoc]
        rfl
      exact List.append_cancel_left hboth

/-- The scan of a text that is no pattern throws. -/
private theorem tag_error {S : Scanner} {view : Bytes → Bytes} (hS : S.Views view) {s : Bytes}
    (hnone : recognised (view s) = none) (n : Nat) : ∃ e, S.tag n s = .error e := by
  cases htag : S.tag n s with
  | error e => exact ⟨e, rfl⟩
  | ok a =>
      obtain ⟨p, hp⟩ := Scanner.text_of_tag hS htag
      rw [← hp, recognised_text] at hnone
      nomatch hnone

/-- The scan of a pattern packs the kinds that `add` recognises in it. -/
theorem tag_ok {S : Scanner} {view : Bytes → Bytes} (hS : S.Views view) {s : Bytes}
    {ks : List ParamType} (hsome : recognised (view s) = some ks) {n : Nat}
    (hn : (view s).length < n) :
    S.tag n s = .ok (Nat.ofDigits 6 (ks.map ParamType.digit) % UINT64) := by
  obtain ⟨p, hp, rfl⟩ := text_of_recognised hsome
  exact Scanner.tag_text hS p hp.symm (hp ▸ hn)

/-! ## Tags -/

/-- The tag of a list of kinds. -/
abbrev packed (ks : List ParamType) : Nat := Nat.ofDigits 6 (ks.map ParamType.digit)

/-- The arguments that have a tag. -/
def tagged (hs : List ArgKind) : List ArgKind := hs.filter (· ≠ .float)

/-- The tag of a list of arguments. -/
abbrev packedArgs (hs : List ArgKind) : Nat := Nat.ofDigits 6 ((tagged hs).map ArgKind.tag)

private theorem digit_range (k : ParamType) : 0 < k.digit ∧ k.digit < 6 := by
  cases k <;> decide

theorem argTag_range {h : ArgKind} {hs : List ArgKind} (hh : h ∈ tagged hs) :
    0 < h.tag ∧ h.tag < 5 := by
  have hne : h ≠ .float := of_decide_eq_true (List.mem_filter.mp hh).2
  cases h with
  | float => exact absurd rfl hne
  | int | uint | double | string => exact ⟨by decide, by decide⟩

theorem digits_packed (ks : List ParamType) : Nat.digits 6 (packed ks) = ks.map ParamType.digit := by
  apply Nat.digits_ofDigits 6 (by decide)
  · intro d hd
    obtain ⟨k, -, rfl⟩ := List.mem_map.mp hd
    exact (digit_range k).2
  · intro hne
    obtain ⟨k, -, hk⟩ := List.mem_map.mp (List.getLast_mem hne)
    rw [← hk]
    exact Nat.ne_of_gt (digit_range k).1

/-- Up to 24 digits fit into 64 bits. -/
theorem packed_wide {ks : List ParamType} (h : ks.length ≤ 24) : packed ks % UINT64 = packed ks := by
  apply Nat.mod_eq_of_lt
  have hlt : packed ks < 6 ^ ks.length := by
    have hdigits := Nat.ofDigits_lt_base_pow_length (b := 6) (l := ks.map ParamType.digit)
      (by decide) (by
        intro d hd
        obtain ⟨k, -, rfl⟩ := List.mem_map.mp hd
        exact (digit_range k).2)
    rw [List.length_map] at hdigits
    exact hdigits
  calc packed ks < 6 ^ ks.length := hlt
    _ ≤ 6 ^ 24 := Nat.pow_le_pow_right (by decide) h
    _ < UINT64 := by decide

private theorem packed_cons (k : ParamType) (ks : List ParamType) :
    packed (k :: ks) = k.digit + 6 * packed ks := rfl

/-- **Only the numbers of the parameters are compared.** -/
theorem compatible_iff (ks : List ParamType) {hs : List ArgKind}
    (hs' : ∀ h ∈ hs, 0 < h.tag ∧ h.tag < 5) :
    isParameterTagCompatible (packed ks) (Nat.ofDigits 6 (hs.map ArgKind.tag)) = true ↔
      ks.length = hs.length := by
  induction ks generalizing hs with
  | nil =>
      have hzero : packed [] = 0 := rfl
      rw [isParameterTagCompatible, if_pos hzero]
      cases hs with
      | nil => exact iff_of_true rfl rfl
      | cons h hs =>
          have hpos := (hs' h List.mem_cons_self).1
          rw [List.map_cons, Nat.ofDigits_cons]
          refine iff_of_false (fun htrue => ?_) nofun
          have := of_decide_eq_true htrue
          omega
  | cons k ks ih =>
      obtain ⟨hpos, hlt⟩ := digit_range k
      have hne : packed (k :: ks) ≠ 0 := by
        rw [packed_cons]
        omega
      rw [isParameterTagCompatible, if_neg hne]
      cases hs with
      | nil =>
          have hzero : Nat.ofDigits 6 (([] : List ArgKind).map ArgKind.tag) = 0 := rfl
          rw [if_pos hzero]
          refine iff_of_false (fun htrue => hne (of_decide_eq_true htrue)) nofun
      | cons h hs =>
          obtain ⟨⟨hpos', hlt'⟩, hs'⟩ := List.forall_mem_cons.mp hs'
          obtain ⟨n, hn⟩ : ∃ n, n = Nat.ofDigits 6 (hs.map ArgKind.tag) := ⟨_, rfl⟩
          have hne' : h.tag + 6 * n ≠ 0 := by omega
          have hk : packed (k :: ks) / 6 = packed ks := by
            rw [packed_cons]
            omega
          have hh : (h.tag + 6 * n) / 6 = n := by omega
          rw [List.map_cons, Nat.ofDigits_cons, ← hn]
          dsimp only
          rw [if_neg hne', if_neg (not_not.mpr rfl), hk, hh, hn, ih hs', List.length_cons,
            List.length_cons, Nat.add_right_cancel_iff]

/-- The tag of a handler is computed unless it does not fit into an `int`. -/
theorem computeParameterTag_eq (hs : List ArgKind) :
    computeParameterTag hs = if packedArgs hs < 2 ^ 31 then some (packedArgs hs) else none := by
  induction hs with
  | nil => rfl
  | cons h hs ih =>
      rw [computeParameterTag, ih]
      by_cases hfloat : h = .float
      · subst hfloat
        have hsame : packedArgs (.float :: hs) = packedArgs hs := rfl
        rw [hsame]
        by_cases hsub : packedArgs hs < 2 ^ 31
        · rw [if_pos hsub]
          rfl
        · rw [if_neg hsub]
          rfl
      · have hcons : tagged (h :: hs) = h :: tagged hs :=
          List.filter_cons_of_pos (decide_eq_true hfloat)
        have hpos := (argTag_range (hcons ▸ List.mem_cons_self : h ∈ tagged (h :: hs))).1
        have hpacked : packedArgs (h :: hs) = h.tag + 6 * packedArgs hs := by
          unfold packedArgs
          rw [hcons, List.map_cons, Nat.ofDigits_cons]
        rw [hpacked]
        by_cases hsub : packedArgs hs < 2 ^ 31
        · rw [if_pos hsub, Option.bind_eq_bind, Option.bind_some, if_neg (Nat.ne_of_gt hpos),
            Nat.mul_comm, Nat.add_comm]
        · rw [if_neg hsub, if_neg (by omega)]
          rfl

/-- The types of a tagged rule are those of its placeholders. -/
theorem arguments_packed (ks : List ParamType) : arguments (packed ks) = some (ks.map ParamType.arg) := by
  induction ks with
  | nil =>
      have hzero : packed [] = 0 := rfl
      rw [arguments, if_pos hzero]
      rfl
  | cons k ks ih =>
      obtain ⟨hpos, hlt⟩ := digit_range k
      have hne : packed (k :: ks) ≠ 0 := by
        rw [packed_cons]
        omega
      have hk : packed (k :: ks) / 6 = packed ks := by
        rw [packed_cons]
        omega
      have hmod : packed (k :: ks) % 6 = k.digit := by
        rw [packed_cons]
        omega
      have htype : singleTagToType k.digit = some k.arg := by
        cases k <;> rfl
      rw [arguments, if_neg hne, hk, hmod, ih, htype]
      rfl

/-! ## What a handler is called with -/

variable {params : RoutingParams δ}

private theorem map_ok {ε α β : Type} {f : α → β} {x : Except ε α} {b : β}
    (h : x.map f = .ok b) : ∃ a, x = .ok a ∧ f a = b := by
  cases x with
  | error e => nomatch h
  | ok a => exact ⟨a, rfl, Except.ok.inj h⟩

private theorem arg_of_get {h : ArgKind} {pos : Nat} {v : ParamVal δ}
    (hget : params.get h pos = .ok v) : v.arg = h.promote := by
  cases h with
  | int =>
      obtain ⟨x, -, rfl⟩ := map_ok hget
      rfl
  | uint =>
      obtain ⟨x, -, rfl⟩ := map_ok hget
      rfl
  | double =>
      obtain ⟨x, -, rfl⟩ := map_ok hget
      rfl
  | float =>
      obtain ⟨x, -, rfl⟩ := map_ok hget
      rfl
  | string =>
      obtain ⟨x, -, rfl⟩ := map_ok hget
      rfl

/-- A handler is called with values of the types that its arguments are promoted to. -/
theorem arg_of_call {n : Counts} {hs : List ArgKind} {vs : List (ParamVal δ)}
    (h : call params n hs = .ok vs) : vs.map ParamVal.arg = hs.map ArgKind.promote := by
  induction hs generalizing n vs with
  | nil =>
      cases h
      rfl
  | cons a hs ih =>
      rw [call] at h
      cases hget : params.get a (n.pos a) with
      | error e =>
          rw [hget] at h
          nomatch h
      | ok v =>
          cases hrest : call params (n.push a) hs with
          | error e =>
              rw [hget] at h
              have herror : (call params (n.push a) hs).bind (fun vs => .ok (v :: vs)) = .ok vs := h
              rw [hrest] at herror
              nomatch herror
          | ok ws =>
              rw [hget] at h
              have hok : (call params (n.push a) hs).bind (fun vs => .ok (v :: vs)) = .ok vs := h
              rw [hrest] at hok
              cases hok
              rw [List.map_cons, List.map_cons, arg_of_get hget, ih hrest]

/-- The positions behind these values. -/
private def countsOf (us : List (ParamVal δ)) : Counts :=
  ⟨(ParamVal.ints us).length, (ParamVal.uints us).length, (ParamVal.doubles us).length,
    (ParamVal.strs us).length⟩

private theorem countsOf_push (us : List (ParamVal δ)) (v : ParamVal δ) :
    countsOf (us ++ [v]) = (countsOf us).push v.arg := by
  unfold countsOf
  rw [ParamVal.ints_append, ParamVal.uints_append, ParamVal.doubles_append, ParamVal.strs_append,
    List.length_append, List.length_append, List.length_append, List.length_append]
  cases v <;> rfl

private theorem get_of_vals {α : Type} {c : ParamsContainer α} {xs ys : List α} {x : α}
    (h : c.vals = xs ++ x :: ys) : c.get xs.length = .ok x := by
  rw [ParamsContainer.get, h, List.getElem?_append_right (Nat.le_refl _), Nat.sub_self]
  rfl

private theorem get_value {us vs : List (ParamVal δ)} {v : ParamVal δ}
    (h : params.Carries (us ++ v :: vs)) : params.get v.arg ((countsOf us).pos v.arg) = .ok v := by
  obtain ⟨hi, hu, hd, hs⟩ := h
  rw [ParamVal.ints_append] at hi
  rw [ParamVal.uints_append] at hu
  rw [ParamVal.doubles_append] at hd
  rw [ParamVal.strs_append] at hs
  cases v with
  | int x => exact congrArg (Except.map ParamVal.int) (get_of_vals hi)
  | uint x => exact congrArg (Except.map ParamVal.uint) (get_of_vals hu)
  | double x => exact congrArg (Except.map ParamVal.double) (get_of_vals hd)
  | str x => exact congrArg (Except.map ParamVal.str) (get_of_vals hs)

/-- A handler with the types of the values that are left as its arguments is called with them. -/
theorem call_values {us vs : List (ParamVal δ)} (h : params.Carries (us ++ vs)) :
    call params (countsOf us) (vs.map ParamVal.arg) = .ok vs := by
  induction vs generalizing us with
  | nil => rfl
  | cons v vs ih =>
      have hrest := @ih (us ++ [v]) (by rw [List.append_assoc]; exact h)
      rw [countsOf_push] at hrest
      rw [List.map_cons, call, get_value h, ← countsOf_push]
      show (call params (countsOf (us ++ [v])) (vs.map ParamVal.arg)).bind _ = _
      rw [countsOf_push, hrest]
      rfl

/-! ## Patterns with a NUL in them -/

open Trie (Braced)

private theorem recognised_iff {s : Bytes} (hlen : s.length < UNSIGNED) :
    Braced s ↔ ∃ ks, recognised s = some ks := by
  rw [Trie.braced_iff hlen]
  constructor
  · rintro ⟨p, rfl⟩
    exact ⟨_, recognised_text p⟩
  · rintro ⟨ks, hks⟩
    obtain ⟨p, hp, -⟩ := text_of_recognised hks
    exact ⟨p, hp⟩

/-- There are as many placeholders as opening braces. -/
theorem count_of_recognised {s : Bytes} {ks : List ParamType} (h : recognised s = some ks) :
    s.count LBRACE = ks.length := by
  obtain ⟨p, rfl, rfl⟩ := text_of_recognised h
  induction p with
  | nil => rfl
  | cons x p ih =>
      have hrest := ih (recognised_text p)
      cases x with
      | chr c hc =>
          have htext : Pattern.text (.chr c hc :: p) = c :: Pattern.text p := rfl
          rw [htext, List.count_cons_of_ne hc, hrest]
          rfl
      | placeholder k name hname =>
          have hone : ∀ x ∈ Trie.paramTraits, x.2.count LBRACE = 1 := by decide
          have htext : Pattern.text (.placeholder k name hname :: p) = name ++ Pattern.text p := rfl
          rw [htext, List.count_append, hone _ hname, hrest, Nat.add_comm]
          rfl

/-- Characters that are no opening braces add no placeholder. -/
private theorem recognised_append {s w : Bytes} {ks : List ParamType} (h : recognised s = some ks)
    (hw : LBRACE ∉ w) : recognised (s ++ w) = some ks := by
  obtain ⟨p, rfl, rfl⟩ := text_of_recognised h
  have hplain : ∃ q : Pattern, q.text = w ∧ q.kinds = [] := by
    induction w with
    | nil => exact ⟨[], rfl, rfl⟩
    | cons c w ih =>
        rw [List.mem_cons, not_or] at hw
        obtain ⟨q, hq, hkinds⟩ := ih hw.2
        exact ⟨.chr c (Ne.symm hw.1) :: q, congrArg (c :: ·) hq, hkinds⟩
  obtain ⟨q, rfl, hkinds⟩ := hplain
  have htext : p.text ++ q.text = Pattern.text (p ++ q) := List.flatMap_append.symm
  have hall : Pattern.kinds (p ++ q) = p.kinds ++ q.kinds := by
    unfold Pattern.kinds Pattern.keys
    rw [List.map_append, List.filterMap_append]
  rw [htext, recognised_text, hall, hkinds, List.append_nil]

private theorem cstr_append_drop (s : Bytes) : cstr s ++ s.drop (cstr s).length = s :=
  List.prefix_iff_eq_append.mp (List.takeWhile_prefix _)

/-- What is wrong in front of the first NUL is wrong in the whole text. -/
private theorem braced_cstr {s : Bytes} (h : Braced s) : Braced (cstr s) := by
  intro i hi hget
  have hsplit := cstr_append_drop s
  have hlt : i < s.length := by
    rw [← hsplit, List.length_append]
    omega
  have htake : s.take i = (cstr s).take i := by
    conv_lhs => rw [← hsplit]
    rw [List.take_append_of_le_length (Nat.le_of_lt hi)]
  have hget' : s[i]? = some LBRACE := by
    rw [← hsplit, List.getElem?_append_left hi]
    exact hget
  obtain ⟨x, hx, rest, hrest⟩ := h i hlt hget'
  refine ⟨x, hx, cstr rest, ?_⟩
  -- the placeholder has no NUL in it
  have hnul : NUL ∉ s.take i := by
    rw [htake]
    exact fun hmem => nul_notMem_cstr s (List.mem_of_mem_take hmem)
  have hwhole : cstr s = s.take i ++ (x.2 ++ cstr rest) := by
    conv_lhs => rw [← List.take_append_drop i s, ← hrest]
    rw [cstr_append hnul, cstr_append (paramTraits_ends x hx).2.1]
  have hlength : (s.take i).length = i := List.length_take_of_le (Nat.le_of_lt hlt)
  rw [hwhole, List.drop_left' hlength]

/-! ## Agreement -/

private theorem digit_injective : Function.Injective ParamType.digit := by
  intro k k' h
  cases k <;> cases k' <;> first | rfl | nomatch h

private theorem length_cstr (s : Bytes) : (cstr s).length ≤ s.length :=
  (List.takeWhile_prefix _).length_le

/-- The scans agree when the C string has the placeholders of the whole text. -/
theorem scans_agree_iff (r : Route) : Agrees r.text ↔ recognised (cstr r.text) = recognised r.text := by
  obtain ⟨s, hshort, hfew⟩ := r
  dsimp only at *
  unfold Agrees
  cases hs : recognised s with
  | none =>
      dsimp only
      constructor
      · rintro ⟨⟨e, he⟩, -⟩
        cases hc : recognised (cstr s) with
        | none => rfl
        | some ks =>
            have hok := tag_ok runtimeScanner_views hc (Nat.lt_succ_of_le (length_cstr s))
            nomatch hok.symm.trans he
      · intro hc
        exact ⟨tag_error runtimeScanner_views hc _, tag_error constScanner_views hs _⟩
  | some ks =>
      dsimp only
      have hconst : getParameterTag s = .ok (packed ks % UINT64) :=
        tag_ok constScanner_views hs (Nat.lt_succ_self _)
      rw [packed_wide (hfew ks hs)] at hconst
      constructor
      · rintro ⟨a, hruntime, hconst', -⟩
        obtain rfl := Except.ok.inj (hconst.symm.trans hconst')
        cases hc : recognised (cstr s) with
        | none =>
            obtain ⟨e, he⟩ := tag_error runtimeScanner_views hc (s.length + 1)
            nomatch he.symm.trans hruntime
        | some ks' =>
            have hle : ks'.length ≤ ks.length := by
              rw [← count_of_recognised hc, ← count_of_recognised hs]
              exact (List.takeWhile_prefix _).sublist.count_le LBRACE
            have hok := tag_ok runtimeScanner_views hc (Nat.lt_succ_of_le (length_cstr s))
            rw [packed_wide (Nat.le_trans hle (hfew ks hs))] at hok
            have hdigits := congrArg (Nat.digits 6) (Except.ok.inj (hok.symm.trans hruntime))
            rw [digits_packed, digits_packed] at hdigits
            rw [digit_injective.list_map hdigits]
      · intro hc
        have hok := tag_ok runtimeScanner_views hc (Nat.lt_succ_of_le (length_cstr s))
        rw [packed_wide (hfew ks hs)] at hok
        exact ⟨packed ks, hok, hconst, digits_packed ks⟩

/-! ## Which handlers are accepted -/

/-- The arguments of an accepted handler, or only the number of those with a tag. -/
private theorem accepted_cases {s : Bytes} {ks : List ParamType} (hfew : ks.length ≤ 24)
    (hc : recognised (cstr s) = some ks) (hs : recognised s = some ks) {args : List ArgKind}
    (h : Accepted s args) : args = ks.map ParamType.arg ∨
      (tagged args).length = ks.length ∧ packedArgs args < 2 ^ 31 := by
  cases h with
  | dynamicRule ha hb h =>
      have hok := tag_ok runtimeScanner_views hc (Nat.lt_succ_of_le (length_cstr s))
      obtain rfl := Except.ok.inj (hok.symm.trans ha)
      rw [computeParameterTag_eq] at hb
      split at hb
      · next hlt =>
          obtain rfl := Option.some.inj hb
          rw [packed_wide hfew, compatible_iff ks fun _ => argTag_range] at h
          exact .inr ⟨h.symm, hlt⟩
      · nomatch hb
  | taggedRule ha h =>
      have hok := tag_ok constScanner_views hs (Nat.lt_succ_self _)
      obtain rfl := Except.ok.inj (hok.symm.trans ha)
      rw [packed_wide hfew, arguments_packed] at h
      exact .inl (Option.some.inj h).symm

/-- Arguments of any types are accepted by a dynamic rule when there are as many with a tag as there are
placeholders. -/
private theorem accepted_of_length {s : Bytes} {ks : List ParamType} (hfew : ks.length ≤ 24)
    (hc : recognised (cstr s) = some ks) {args : List ArgKind}
    (hlength : (tagged args).length = ks.length) (hlt : packedArgs args < 2 ^ 31) :
    Accepted s args := by
  have hok := tag_ok runtimeScanner_views hc (Nat.lt_succ_of_le (length_cstr s))
  rw [packed_wide hfew] at hok
  refine .dynamicRule hok (by rw [computeParameterTag_eq, if_pos hlt]) ?_
  exact (compatible_iff ks fun _ => argTag_range).mpr hlength.symm

/-- Some value for a placeholder. -/
private def sample : ParamType → ParamVal Unit
  | .int => .int 0
  | .uint => .uint 0
  | .double => .double ()
  | .string => .str []
  | .path => .str []

/-- Parameters that hold these values. -/
private def holding (vs : List (ParamVal Unit)) : RoutingParams Unit where
  intParams := ⟨some (ParamVal.ints vs), 0⟩
  uintParams := ⟨some (ParamVal.uints vs), 0⟩
  doubleParams := ⟨some (ParamVal.doubles vs), 0⟩
  stringParams := ⟨some (ParamVal.strs vs), 0⟩

private theorem receives_placed_iff {s : Bytes} {ks : List ParamType} (hfew : ks.length ≤ 24)
    (hc : recognised (cstr s) = some ks) (hs : recognised s = some ks) (args : List ArgKind) :
    Receives s args ↔ args = ks.map ParamType.arg ∨ (tagged args).length ≠ ks.length ∨
      2 ^ 31 ≤ packedArgs args := by
  constructor
  · intro h
    by_contra hnone
    obtain ⟨hargs, hnone⟩ := not_or.mp hnone
    obtain ⟨hlength, hlt⟩ := not_or.mp hnone
    have haccepted := accepted_of_length hfew hc (not_not.mp hlength) (Nat.not_le.mp hlt)
    have hvalues : (ks.map sample).map ParamVal.arg = ks.map ParamType.arg := by
      rw [List.map_map]
      exact List.map_congr_left fun k _ => by cases k <;> rfl
    have hcall := h haccepted ks hs Unit (holding (ks.map sample)) (ks.map sample) hvalues
      ⟨rfl, rfl, rfl, rfl⟩
    have hpromoted := hvalues.symm.trans (arg_of_call hcall)
    -- the handler is called with as many values as it has arguments, so that each has a tag
    have hsame : args.length = ks.length := by
      rw [← List.length_map (f := ArgKind.promote), ← hpromoted, List.length_map]
    have htagged := List.length_filter_eq_length_iff.mp ((not_not.mp hlength).trans hsame.symm)
    have hself : args.map ArgKind.promote = args := by
      refine (List.map_congr_left fun a ha => ?_).trans (List.map_id args)
      have hne : a ≠ .float := of_decide_eq_true (htagged a ha)
      cases a with
      | float => exact absurd rfl hne
      | int | uint | double | string => rfl
    exact hargs (hself.symm.trans hpromoted.symm)
  · intro h haccepted ks' hsome δ params vs hvalues hcarries
    obtain rfl := Option.some.inj (hs.symm.trans hsome)
    have hargs : args = ks.map ParamType.arg := by
      rcases accepted_cases hfew hc hs haccepted with hargs | ⟨hlength, hlt⟩
      · exact hargs
      · rcases h with hargs | hother | hlarge
        · exact hargs
        · exact absurd hlength hother
        · exact absurd hlt (Nat.not_lt.mpr hlarge)
    rw [hargs, ← hvalues]
    have hall : params.Carries ([] ++ vs) := hcarries
    exact call_values hall

/-- The handler has the arguments of the pattern, or its tag does not fit into an `int`, or the number of
its arguments with a tag is not that of the placeholders. -/
def Suits (s : Bytes) (hs : List ArgKind) : Prop :=
  ∀ ks, recognised (cstr s) = some ks →
    hs = ks.map ParamType.arg ∨ (tagged hs).length ≠ ks.length ∨ 2 ^ 31 ≤ packedArgs hs

end Suil.Routing
