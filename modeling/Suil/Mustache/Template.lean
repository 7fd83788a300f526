import Suil.Basic.Json

set_option autoImplicit false

/-! # Mustache templates

`Mustache::parse` and `Mustache::render` (`mustache.h`, `mustache.cpp`). A template becomes a list of
fragments and a list of actions; the fragment with the same index as an action is the text in front
of its tag. The actions of a section are those between its open and its close action. `render` goes
through both lists with one index, and a section is rendered by a call that stops at the first action
with the name of the section.

Numbers and partials are rendered by parameters. -/

namespace Suil.Mustache

open Json (Object)

inductive ActionType where
  | Ignore
  | Tag
  | UnEscapeTag
  | OpenBlock
  | CloseBlock
  | ElseBlock
  | Partial
  deriving DecidableEq, Repr

/-- `Action`: the name of the tag is at `[first, last)`; a close action has the index of its open
action in `pos`. -/
structure Action where
  tag : ActionType
  first : Nat
  last : Nat
  pos : Nat := 0
  deriving DecidableEq, Repr

/-- `Fragment`: the text at `[first, second)`. -/
abbrev Fragment : Type := Nat × Nat

/-- What `parse` leaves: `mBody`, `mFragments` and `mActions`. -/
structure Template where
  body : Bytes
  fragments : List Fragment
  actions : List Action
  deriving DecidableEq, Repr

/-- `Parser`, the lists it fills, and the indices of the open sections, the innermost first. -/
structure Parser where
  pos : Nat
  frag : Nat
  fragments : List Fragment
  actions : List Action
  blocks : List Nat

/-- How parsing fails: with an exception, or (which `parse_total` excludes) without fuel. -/
inductive ParseFault where
  | exception (what : Bytes)
  | outOfFuel
  deriving DecidableEq, Repr

/-! ## Parsing -/

def HASH : UInt8 := 35
def CARET : UInt8 := 94
def BANG : UInt8 := 33
def GT : UInt8 := 62
def UNDERSCORE : UInt8 := 95

/-- `isalpha` in the C locale. -/
def isAlpha (c : UInt8) : Bool := (65 ≤ c && c ≤ 90) || (97 ≤ c && c ≤ 122)

/-- `peek()`, and the byte that `next()` returns: the NUL at the end of the body. -/
def peek (t : Bytes) (pos : Nat) : UInt8 := t.getD pos NUL

def eatSpace (t : Bytes) (pos : Nat) : Nat := pos + ((t.drop pos).takeWhile isSpace).length

/-- `size_t` wraps around. -/
def SIZE : Nat := 2 ^ 64

/-- `substr(first, last)`. -/
def substr (t : Bytes) (first last : Nat) : Bytes :=
  if first < t.length then (t.drop first).take (min (t.length - first) ((last + SIZE - first) % SIZE))
  else str "invalid substr"

/-- `tagName(action)`, `tag_String(action)`. -/
def tagString (t : Bytes) (a : Action) : Bytes := (t.drop a.first).take (a.last - a.first)

def throwText {α : Type} (parts : List Bytes) : Except ParseFault α :=
  .error (.exception parts.flatten)

/-- `isalnum(n) || strchr(chs, n) != nullptr`; `strchr` finds the NUL. -/
def isNameChar (chs : Bytes) (c : UInt8) : Bool := isAlpha c || isDigit c || chs.contains c || c = NUL

/-- `__toLastIndex`: where the name starts and ends, and the position behind the closing braces. -/
def toLastIndex (t chs : Bytes) (pos : Nat) : Except ParseFault (Nat × Nat × Nat) :=
  let s := eatSpace t pos
  if !isAlpha (peek t s) && peek t s ≠ UNDERSCORE then
    throwText [str "tags can only start with letters or _, at position '", showNat s, str ", ^^^",
      substr t ((s + SIZE - 3) % SIZE) (min 10 (t.length - s))]
  else
    let e := s + 1 + ((t.drop (s + 1)).takeWhile (isNameChar chs)).length
    let p := eatSpace t e
    if peek t p ≠ RBRACE then
      throwText [str "unclosed block close tag at position '", showNat (s - 2), str "', ^^^",
        substr t s (p + 1)]
    else if peek t (p + 1) ≠ RBRACE then
      throwText [str "unclosed block close tag at position '", showNat (s - 2), str "', ^^^",
        substr t s (p + 2)]
    else .ok (s, e, p + 2)

/-- The characters of a comment up to the one before its first closing brace. -/
def commentLength : Bytes → Nat
  | [] => 0
  | c :: s => if c = RBRACE ∨ s.headD NUL = RBRACE then 0 else commentLength s + 1

/-- An action whose tag ends at `pos`. -/
def Parser.act (p : Parser) (a : Action) (pos : Nat) : Parser :=
  { p with pos := pos, frag := pos, actions := p.actions ++ [a] }

/-- A tag with a name. -/
def named (t chs : Bytes) (p : Parser) (tag : ActionType) (pos : Nat) : Except ParseFault Parser := do
  let (start, last, pos) ← toLastIndex t chs pos
  .ok (p.act { tag := tag, first := start, last := last } pos)

/-- A tag that opens a section. -/
def opening (t : Bytes) (p : Parser) (tag : ActionType) (pos : Nat) : Except ParseFault Parser := do
  let p' ← named t [UNDERSCORE] p tag pos
  .ok { p' with blocks := p.actions.length :: p.blocks }

/-- The tag that closes a section. -/
def closing (t : Bytes) (p : Parser) (pos : Nat) : Except ParseFault Parser :=
  match p.blocks with
  | [] =>
      throwText [str "unexpected close tag at position '", showNat pos, str "', ^^^",
        substr t (pos - 1) (min 10 (t.length - pos))]
  | b :: blocks => do
      let openTag := tagString t (p.actions.getD b ⟨.Ignore, 0, 0, 0⟩)
      let (start, last, pos) ← toLastIndex t [UNDERSCORE] (pos + 1)
      let action : Action := ⟨.CloseBlock, start, last, b⟩
      if openTag ≠ tagString t action then
        throwText [str "unexpected block close tag at position '", showNat start, str "', got '",
          tagString t action, str "', expecting '", openTag, str "'"]
      else .ok { p.act action pos with blocks := blocks }

/-- A comment. -/
def ignored (t : Bytes) (p : Parser) (start : Nat) : Except ParseFault Parser :=
  let stop := start + commentLength (t.drop start)
  if peek t stop ≠ RBRACE ∧ peek t (stop + 1) ≠ RBRACE then
    throwText [str "ignore tag not closed at position '", showNat start, str "', ^^^",
      substr t start (min 20 (stop + 1 - start))]
  else .ok (p.act ⟨.Ignore, start, stop + 1, 0⟩ (stop + 3))

/-- A tag in three braces. -/
def unescaped (t : Bytes) (p : Parser) (pos : Nat) : Except ParseFault Parser := do
  let (start, last, pos) ← toLastIndex t [UNDERSCORE] pos
  if peek t pos ≠ RBRACE then
    throwText [str "unmatched un-escape tag at position '", showNat start, str "', ^^^",
      substr t (start - 2) (pos + 1)]
  else .ok (p.act ⟨.UnEscapeTag, start, last, 0⟩ (pos + 1))

/-- `parser_ReadTag`, behind the opening braces. -/
def parser_ReadTag (t : Bytes) (p : Parser) : Except ParseFault Parser :=
  let pos := eatSpace t p.pos
  let tok := peek t pos
  if tok = HASH then opening t p .OpenBlock (pos + 1)
  else if tok = SLASH then closing t p pos
  else if tok = CARET then opening t p .ElseBlock (pos + 1)
  else if tok = BANG then ignored t p (pos + 1)
  else if tok = GT then named t [SLASH, DOT, UNDERSCORE] p .Partial (pos + 1)
  else if tok = LBRACE then unescaped t p (pos + 1)
  else if tok = AMP then named t [UNDERSCORE] p .UnEscapeTag (pos + 1)
  else if tok = EQUALS then
    throwText [str "changing delimiter currently not supported, at positon '", showNat pos, str "'"]
  else named t [UNDERSCORE] p .Tag pos

/-- The loop of `parse`. -/
def parseLoop (t : Bytes) : Nat → Parser → Except ParseFault Parser
  | fuel, p =>
      if t.length ≤ p.pos then .ok p
      else
        match fuel with
        | 0 => .error .outOfFuel
        | fuel + 1 =>
            if peek t p.pos = LBRACE ∧ peek t (p.pos + 1) = LBRACE then do
              let p ← parser_ReadTag t
                { p with fragments := p.fragments ++ [(p.frag, p.pos)], pos := p.pos + 2 }
              parseLoop t fuel p
            else parseLoop t fuel { p with pos := p.pos + 1 }

/-- The check that an inverted section is closed by the next tag. -/
def checkElse (t : Bytes) : List Action → Except ParseFault Unit
  | b :: a :: actions =>
      if b.tag = .ElseBlock ∧ a.tag ≠ .CloseBlock then
        throwText [str "inverted section cannot have tags \x7b", tagString t b, str " ",
          showNat b.first, str "\x7d"]
      else checkElse t (a :: actions)
  | _ => .ok ()

/-- `parse`. -/
def parse (t : Bytes) : Except ParseFault Template :=
  if t = [] then .ok ⟨t, [], []⟩
  else do
    let p ← parseLoop t t.length ⟨0, 0, [], [], []⟩
    if p.blocks ≠ [] then
      throwText (str "template contains non-terminated blocks" :: p.blocks.reverse.map fun b =>
        str ", '" ++ tagString t (p.actions.getD b ⟨.Ignore, 0, 0, 0⟩) ++ str "'")
    else do
      let fragments := if p.pos ≠ p.frag then p.fragments ++ [(p.frag, p.pos)] else p.fragments
      checkElse t p.actions
      .ok ⟨t, fragments, p.actions⟩

/-! ## Rendering -/

/-- How rendering fails: with an exception of a conversion, with one of its own, with a fragment
that is not there, or without fuel. -/
inductive RenderFault where
  | json (f : Json.Fault)
  | exception (what : Bytes)
  | outOfRange
  | outOfFuel
  deriving DecidableEq, Repr

/-- How numbers are written, and what the partial of a name renders. -/
structure Env (ν : Type) where
  number : ν → Bytes
  load : Bytes → Object ν → Except RenderFault Bytes

variable {ν : Type}

/-- `frag_String(frag)`. -/
def fragString (t : Bytes) (frag : Fragment) : Bytes := (t.drop frag.1).take (frag.2 - frag.1)

/-- `escape`. -/
def escape (s : Bytes) : Bytes :=
  s.flatMap fun c : UInt8 =>
    if c = AMP then str "&amp;"
    else if c = 60 then str "&lt;"
    else if c = GT then str "&gt;"
    else if c = DQUOTE then str "&quot;"
    else if c = 39 then str "&#39;"
    else if c = SLASH then str "&#x2f;"
    else [c]

/-- `operator==` of two names that are not empty. -/
def nameEq (a b : Bytes) : Bool := a.length = b.length && strncmpEq a.length a b

def lookUp (ctx : Object ν) (name : Bytes) : Except RenderFault (Object ν) :=
  match ctx.get name with
  | .error f => .error (.json f)
  | .ok val => .ok val

/-- `Tag` and `UnEscapeTag`; the `type()` of a null pointer is `JSON_BOOL`. -/
def renderValue (env : Env ν) (t : Bytes) (act : Action) (val : Object ν) :
    Except RenderFault Bytes :=
  match val with
  | none => .ok (str "false")
  | some (.bool b) => .ok (if b then str "true" else str "false")
  | some (.number n) => .ok (env.number n)
  | some (.string s) => .ok (if act.tag = .UnEscapeTag then s else escape s)
  | _ => .error (.exception (str "rendering template tag \x7b" ++ tagString t act ++ str "@" ++
      showNat act.pos ++ str "\x7d"))

/-- The loop over the actions from `id` on, to the first close action of this name. -/
def skipBlock (t name : Bytes) : List Action → Nat → Nat
  | [], id => id
  | a :: actions, id =>
      if nameEq (tagString t a) name && a.tag = .CloseBlock then id
      else skipBlock t name actions (id + 1)

/-- The loop over the elements of a list, with the index where the last one has stopped. -/
def renderEach (again : Object ν → Except RenderFault (Nat × Bytes)) :
    List (Json ν) → Nat → Except RenderFault (Nat × Bytes)
  | [], id => .ok (id, [])
  | e :: es, _ => do
      let (id, x) ← again (some e)
      let (id, y) ← renderEach again es id
      .ok (id, x ++ y)

/-- `render_Tag`, over the function for the inside of a section: the index, and what is written. The source
declares a `bool` and returns none; nothing reads it, and the end of the body is the return. -/
def render_Tag (env : Env ν) (m : Template)
    (again : Object ν → Nat → Bytes → Except RenderFault (Nat × Bytes))
    (act : Action) (ctx : Object ν) (index : Nat) : Except RenderFault (Nat × Bytes) :=
  let name := tagString m.body act
  match act.tag with
  | .Ignore => .ok (index, [])
  | .Partial => do
      let x ← env.load name ctx
      .ok (index, x)
  | .UnEscapeTag => do
      let val ← lookUp ctx name
      let x ← renderValue env m.body act val
      .ok (index, x)
  | .Tag => do
      let val ← lookUp ctx name
      let x ← renderValue env m.body act val
      .ok (index, x)
  | .ElseBlock => do
      let val ← lookUp ctx name
      if val.empty then
        match m.fragments[index + 1]? with
        | none => .error .outOfRange
        | some frag => .ok (index + 1, fragString m.body frag)
      else .ok (index + 1, [])
  | .OpenBlock => do
      let val ← lookUp ctx name
      if val.empty then .ok (skipBlock m.body name (m.actions.drop index) index, [])
      else
        match val with
        | some (.array es) => renderEach (fun e => again e (index + 1) name) es index
        | _ => again val index name
  | .CloseBlock => .ok (index, [])

/-- `render_Internal`, which stops at an action named `stop`. -/
def render_Internal (env : Env ν) (m : Template) :
    Nat → Object ν → Nat → Option Bytes → Except RenderFault (Nat × Bytes)
  | 0, _, _, _ => .error .outOfFuel
  | fuel + 1, ctx, index, stop =>
      match m.fragments[index]? with
      | none => .ok (index, [])
      | some frag => do
          let text := fragString m.body frag
          match m.actions[index]? with
          | none => do
              let (index, rest) ← render_Internal env m fuel ctx (index + 1) stop
              .ok (index, text ++ rest)
          | some act =>
              if stop.any fun stop => nameEq (tagString m.body act) stop then .ok (index, text)
              else do
                let (index, x) ← render_Tag env m
                  (fun ctx index stop => render_Internal env m fuel ctx index (some stop)) act ctx index
                let (index, rest) ← render_Internal env m fuel ctx (index + 1) stop
                .ok (index, text ++ x ++ rest)

/-- `render`. -/
def render (env : Env ν) (m : Template) (ctx : Object ν) : Except RenderFault Bytes := do
  let (_, out) ← render_Internal env m (m.fragments.length + 1) ctx 0 none
  .ok out

end Suil.Mustache
