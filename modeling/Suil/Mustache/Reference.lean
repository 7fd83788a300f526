import Suil.Mustache.Template

set_option autoImplicit false

/-! # What templates mean

A template consists of texts and tags: a text has no two opening braces in a row, and a tag is
written between double braces with spaces where they may stand (`Spells`, `Lexed`). Sections nest
(`Forest`). `meaning` is the text that such a template stands for, and `Reference` puts the three
together. Four things are the code's own: `escape` and `Json.Object.empty`, the words of the repository
for what is escaped and what is empty, and the texts of numbers and of partials, which an `Env` gives. -/

namespace Suil.Mustache

open Json (Object)

variable {ν : Type}

/-! ## Texts and tags -/

/-- A text and the tag behind it. -/
structure Piece where
  text : Bytes
  kind : ActionType
  name : Bytes
  deriving DecidableEq, Repr

def OPEN : Bytes := [LBRACE, LBRACE]
def CLOSE : Bytes := [RBRACE, RBRACE]

/-- The sign in front of a name. -/
def sign : ActionType → Bytes
  | .OpenBlock => [HASH]
  | .CloseBlock => [SLASH]
  | .ElseBlock => [CARET]
  | .Partial => [GT]
  | .Tag => []
  | .UnEscapeTag => [AMP]
  | .Ignore => [BANG]

/-- A name has neither spaces nor braces and starts with a letter or an underscore. -/
structure IsName (name : Bytes) : Prop where
  head : ∃ c s, name = c :: s ∧ (isAlpha c = true ∨ c = UNDERSCORE)
  chars : ∀ c ∈ name, isSpace c = false ∧ c ≠ RBRACE

def Spaces (s : Bytes) : Prop := ∀ c ∈ s, isSpace c = true

/-- A text without the two bytes of a delimiter in a row. -/
def Free (delimiter text : Bytes) : Prop := ∀ a b, text ≠ a ++ delimiter ++ b

/-- How a tag is written. A comment ends at the first closing braces. -/
inductive Spells : ActionType → Bytes → Bytes → Prop where
  | named {kind : ActionType} {name a b c : Bytes} (hkind : kind ≠ .Ignore) (hname : IsName name)
      (ha : Spaces a) (hb : Spaces b) (hc : Spaces c) :
      Spells kind name (OPEN ++ (a ++ sign kind ++ b ++ name ++ c ++ CLOSE))
  | triple {name a b c : Bytes} (hname : IsName name) (ha : Spaces a) (hb : Spaces b)
      (hc : Spaces c) :
      Spells .UnEscapeTag name (OPEN ++ (a ++ [LBRACE] ++ b ++ name ++ c ++ CLOSE ++ [RBRACE]))
  | comment {text a : Bytes} (ha : Spaces a) (htext : Free CLOSE (text ++ [RBRACE])) :
      Spells .Ignore text (OPEN ++ (a ++ [BANG] ++ text ++ CLOSE))

/-- The pieces of a template and the text behind the last tag. A tag starts at the first two opening
braces. -/
inductive Lexed : Bytes → List Piece → Bytes → Prop where
  | last {text : Bytes} (htext : Free OPEN text) : Lexed text [] text
  | piece {text tag name rest last : Bytes} {kind : ActionType} {pieces : List Piece}
      (htext : Free OPEN (text ++ [LBRACE])) (htag : Spells kind name tag)
      (hrest : Lexed rest pieces last) :
      Lexed (text ++ (tag ++ rest)) (⟨text, kind, name⟩ :: pieces) last

/-! ## Sections -/

/-- The tags that are no sections. -/
inductive Leaf where
  | comment
  | escaped
  | raw
  | included
  deriving DecidableEq, Repr

def Leaf.kind : Leaf → ActionType
  | .comment => .Ignore
  | .escaped => .Tag
  | .raw => .UnEscapeTag
  | .included => .Partial

/-- Tags, each with the text in front of it; `post` is the text in front of the tag that closes a
section. -/
inductive Forest where
  | nil
  | leaf (text : Bytes) (tag : Leaf) (name : Bytes) (rest : Forest)
  | block (text : Bytes) (inverted : Bool) (name : Bytes) (body : Forest) (post : Bytes)
      (rest : Forest)

namespace Forest

def opener (inverted : Bool) : ActionType := if inverted then .ElseBlock else .OpenBlock

/-- The tags in the order of the template. -/
def pieces : Forest → List Piece
  | .nil => []
  | .leaf text tag name rest => ⟨text, tag.kind, name⟩ :: rest.pieces
  | .block text inverted name body post rest =>
      ⟨text, opener inverted, name⟩ ::
        (body.pieces ++ ⟨post, .CloseBlock, name⟩ :: rest.pieces)

/-- Nothing but text is in an inverted section. -/
def Flat : Forest → Prop
  | .nil => True
  | .leaf _ _ _ rest => rest.Flat
  | .block _ inverted _ body _ rest => (inverted = true → body = .nil) ∧ body.Flat ∧ rest.Flat

end Forest

/-! ## Meaning -/

/-- The value of a name in a context. -/
def valueOf (ctx : Object ν) (name : Bytes) : Object ν :=
  match ctx with
  | some (.object ms) => (ms.find? fun m => m.1 = name).map (·.2)
  | _ => none

/-- The text of a value; what is not there has none. -/
def valueText (env : Env ν) (raw : Bool) : Object ν → Bytes
  | some (.bool b) => if b then str "true" else str "false"
  | some (.number n) => env.number n
  | some (.string s) => if raw then s else escape s
  | _ => []

/-- The text of a tag that is no section; a partial means what is rendered for it. -/
def leafText (env : Env ν) (ctx : Object ν) (tag : Leaf) (name : Bytes) : Bytes :=
  match tag with
  | .comment => []
  | .escaped => valueText env false (valueOf ctx name)
  | .raw => valueText env true (valueOf ctx name)
  | .included => (env.load name ctx).toOption.getD []

/-- The text of tags in a context: a section once for every element of a list, once for another
value that is not empty, with the element or the value for a context, and else not at all. -/
def meaning (env : Env ν) (ctx : Object ν) : Forest → Bytes
  | .nil => []
  | .leaf text tag name rest => text ++ leafText env ctx tag name ++ meaning env ctx rest
  | .block text inverted name body post rest =>
      let val := valueOf ctx name
      let inside :=
        if inverted then if val.empty then meaning env ctx body ++ post else []
        else if val.empty then []
        else
          match val with
          | some (.array es) => es.flatMap fun e => meaning env (some e) body ++ post
          | val => meaning env val body ++ post
      text ++ inside ++ meaning env ctx rest

/-- The template `t` stands for `out`. -/
def Reference (env : Env ν) (t : Bytes) (ctx : Object ν) (out : Bytes) : Prop :=
  ∃ (f : Forest) (last : Bytes), Lexed t f.pieces last ∧ out = meaning env ctx f ++ last

/-- What the template is accepted as renders the text that the template stands for. -/
def Faithful (env : Env ν) (t : Bytes) (ctx : Object ν) : Prop :=
  ∀ m, parse t = .ok m → ∃ out, render env m ctx = .ok out ∧ Reference env t ctx out

end Suil.Mustache
