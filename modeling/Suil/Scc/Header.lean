import Suil.Basic.StrOrder
import Suil.Scc.Program

set_option autoImplicit false

/-! # Generated headers

`generateprogramFileSymbols` and `generateMetaTypeHeaders` (`tools/scc/program.cpp`) print the symbols
and the meta types of a program file. What they print is a list of pieces, so that it can be asked
where a symbol is defined and where it is used; `print` gives the text.

`schema_iff` says for which program files the schemas list their attributes as they should. -/

namespace Suil.Scc

/-- A string of a program file. The parser takes it from a C string, and a `String` holds it. -/
structure Word where
  bytes : Bytes
  bound : bytes.length < 2 ^ 32
  no_nul : NUL ∉ bytes
  deriving DecidableEq

/-- `String{std::string}`. -/
def Word.toStr (w : Word) : Str := ⟨some w.bytes, w.bytes.length⟩

structure Attribute where
  Parts : List Word
  Resolved : Word
  parts : Parts ≠ []

def Attribute.isSimple (attr : Attribute) : Bool := attr.Parts.length = 1

/-- `attrStr`. -/
def Attribute.attrStr (attr : Attribute) : Word :=
  if attr.isSimple then attr.Resolved else attr.Parts.getLast attr.parts

structure Field where
  Attribs : List Attribute
  FieldType : Bytes
  Name : Word

structure MetaType where
  Name : Bytes
  Fields : List Field

/-- The parts of a `ProgramFile` that come in front of the services. -/
structure ProgramFile where
  Includes : List Bytes
  Symbols : List Word
  Namespace : Bytes
  MetaTypes : List MetaType

/-! ## What is printed -/

inductive Piece where
  | text (b : Bytes)
  | symbol (name : Word) -- the block that defines a symbol
  | prop (name : Word) -- `prop(name`
  | var (attr : Attribute) -- `var(attrStr)`

/-- `spaces(n)`. -/
def spaces (n : Nat) : Bytes := List.replicate n SP

/-- The text of a piece. -/
def Piece.print : Piece → Bytes
  | .text b => b
  | .symbol name =>
      str "#ifndef IOD_SYMBOL_" ++ name.bytes ++ str "\n" ++
        str "#define IOD_SYMBOL_" ++ name.bytes ++ str "\n" ++
        str "    iod_define_symbol(" ++ name.bytes ++ str ")\n" ++ str "#endif\n\n"
  | .prop name => str "prop(" ++ name.bytes
  | .var attr => str "var(" ++ attr.attrStr.bytes ++ str ")"

def print (out : List Piece) : Bytes := out.flatMap Piece.print

/-! ## `generateprogramFileSymbols` -/

/-- `added`, and what has been printed. -/
structure Symbols where
  added : List Word
  out : List Piece

/-- `addSymbol`. -/
def addSymbol (st : Symbols) (name : Word) : Symbols :=
  if name ∈ st.added then st else ⟨name :: st.added, st.out ++ [.symbol name]⟩

/-- The symbols of a field. -/
def fieldSymbols (st : Symbols) (field : Field) : Symbols :=
  field.Attribs.foldl
    (fun st attr => if attr.isSimple then addSymbol st attr.Resolved else st)
    (addSymbol st field.Name)

def generateprogramFileSymbols (pf : ProgramFile) : List Piece :=
  (pf.MetaTypes.foldl (fun st tp => tp.Fields.foldl fieldSymbols st)
    (pf.Symbols.foldl addSymbol ⟨[], []⟩)).out

/-! ## `generateMetaTypeHeaders` -/

/-- The variables of the loop over the attributes, and what it has printed. -/
structure Attrs where
  included : List Word
  attrFirst : Bool
  out : List Piece

/-- A round of the loop over the attributes. -/
def addAttr (st : Attrs) (attr : Attribute) : Attrs :=
  let out := if st.attrFirst then st.out else st.out ++ [.text (str ", ")]
  if st.included.any fun key => Str.eq key.toStr attr.attrStr.toStr then { st with out := out }
  else ⟨attr.attrStr :: st.included, false, out ++ [.var attr]⟩

/-- The attributes of a field. -/
def fieldAttrs (field : Field) : List Piece :=
  if field.Attribs = [] then []
  else [.text (str "(")] ++ (field.Attribs.foldl addAttr ⟨[], true, []⟩).out ++ [.text (str ")")]

/-- A field in the schema. -/
def fieldSchema (field : Field) : List Piece :=
  [.prop field.Name] ++ fieldAttrs field ++ [.text (str ", " ++ field.FieldType ++ str ")")]

/-- The fields of a schema, where `isFirst` says whether a field is the first one. -/
def schemaFields : Bool → List Field → List Piece
  | _, [] => []
  | isFirst, field :: fields =>
      (if isFirst then [] else [.text (str ",\n")]) ++ [.text (spaces 12)] ++ fieldSchema field ++
        schemaFields false fields

/-- What is printed behind the schema of a type. -/
def memberText (tp : MetaType) : Bytes :=
  (tp.Fields.flatMap fun field =>
    spaces 8 ++ field.FieldType ++ str " " ++ field.Name.bytes ++ str ";\n\n") ++
    spaces 8 ++ str "static " ++ tp.Name ++ str " fromJson(iod::json::parser&);\n\n" ++
    spaces 8 ++ str "void toJson(iod::json::jstream&) const;\n\n" ++
    spaces 8 ++ str "static " ++ tp.Name ++ str " fromWire(suil::Wire&);\n\n" ++
    spaces 8 ++ str "void toWire(suil::Wire&) const;\n\n" ++
    spaces 8 ++ str "friend suil::OBuffer& operator<<(suil::OBuffer& out, const " ++ tp.Name ++
      str "& o);\n\n" ++
    spaces 8 ++ str "static Schema Meta;\n\n" ++
    spaces 4 ++ str "\x7d;\n\n"

def metaTypeHeader (tp : MetaType) : List Piece :=
  [.text (spaces 4 ++ str "struct " ++ tp.Name ++ str ": iod::MetaType \x7b\n\n"),
    .text (spaces 8 ++ str "typedef decltype(iod::D(\n")] ++
    schemaFields true tp.Fields ++
    [.text (str "\n" ++ spaces 8 ++ str ")) Schema" ++ str ";\n\n"), .text (memberText tp)]

def generateMetaTypeHeaders (pf : ProgramFile) : List Piece := pf.MetaTypes.flatMap metaTypeHeader

/-- What stands in front of the symbols. -/
def prologue (pf : ProgramFile) : List Piece :=
  [.text (str "#pragma once\n\n"),
    .text (str "#include <suil/result.h>\n" ++ str "#include <suil/json.h>\n" ++
      str "#include <suil/wire.h>\n"),
    .text (pf.Includes.flatMap fun inc => inc ++ str "\n"), .text (str "\n")]

/-- `generateHeaderFile`, where `services` is what `generateServiceHeaders` prints. -/
def generateHeaderFile (services : Bytes) (pf : ProgramFile) : List Piece :=
  prologue pf ++ generateprogramFileSymbols pf ++
    [.text (str "namespace " ++ pf.Namespace ++ str " \x7b\n\n")] ++
    generateMetaTypeHeaders pf ++ [.text services, .text (str "\x7d\n")]

/-! ## What headers should hold -/

/-- The distinct names under which the attributes of a field are listed, in the order in which they
come first. -/
def Field.distinct (field : Field) : List Word := (field.Attribs.map (·.attrStr)).eraseDups

/-- An element of the list of attributes. -/
def varText (name : Word) : Bytes := str "var(" ++ name.bytes ++ str ")"

/-- The schema of a field that lists every distinct attribute once, with commas between them. -/
def Field.listed (field : Field) : Bytes :=
  str "prop(" ++ field.Name.bytes ++
    (if field.Attribs = [] then []
      else str "(" ++ (str ", ").intercalate (field.distinct.map varText) ++ str ")") ++
    (str ", " ++ field.FieldType ++ str ")")

/-- Every field of a program file is printed as it should be. -/
def Lists (pf : ProgramFile) : Prop :=
  ∀ tp ∈ pf.MetaTypes, ∀ field ∈ tp.Fields, print (fieldSchema field) = field.listed

/-- The symbols that are defined, one for each block. -/
def defined (out : List Piece) : List Word :=
  out.filterMap fun p => match p with
    | .symbol name => some name
    | _ => none

/-- The symbol that a piece of a schema uses, where an attribute with a scope is defined elsewhere. -/
def Piece.used : Piece → Option Word
  | .prop name => some name
  | .var attr => if attr.isSimple then some attr.attrStr else none
  | _ => none

/-- Every symbol that is used is defined exactly once, and before it is used. -/
def Defines (out : List Piece) : Prop :=
  ∀ pre p post, out = pre ++ p :: post → ∀ name, p.used = some name →
    (defined pre).count name = 1 ∧ name ∉ defined post

/-! ## The list of attributes -/

theorem toStr_eq_iff (a b : Word) : Str.eq a.toStr b.toStr = true ↔ a = b := by
  unfold Str.eq Word.toStr
  dsimp only
  rw [Bool.and_eq_true, decide_eq_true_iff]
  constructor
  · rintro ⟨hlen, hcmp⟩
    have hbytes : a.bytes = b.bytes := (strncmpEq_length a.no_nul hlen).mp hcmp
    cases a with
    | mk x _ _ =>
        cases b with
        | mk y _ _ =>
            dsimp only at hbytes
            subst hbytes
            rfl
  · rintro rfl
    exact ⟨rfl, strncmpEq_self _ _⟩

theorem any_toStr_iff (included : List Word) (a : Word) :
    (included.any fun key => Str.eq key.toStr a.toStr) = true ↔ a ∈ included := by
  simp only [List.any_eq_true, toStr_eq_iff, exists_eq_right]

/-- The names with a comma in front of each of them. -/
def separated (names : List Word) : Bytes := names.flatMap fun w => str ", " ++ varText w

theorem intercalate_separated (a : Word) (names : List Word) :
    (str ", ").intercalate ((a :: names).map varText) = varText a ++ separated names := by
  induction names generalizing a with
  | nil => simp [separated, List.intercalate]
  | cons b names ih =>
      calc (str ", ").intercalate ((a :: b :: names).map varText)
          = varText a ++ (str ", " ++ (str ", ").intercalate ((b :: names).map varText)) := by
            simp [List.intercalate]
        _ = varText a ++ separated (b :: names) := by
            rw [ih]
            simp [separated]

theorem print_append (out out' : List Piece) : print (out ++ out') = print out ++ print out' :=
  List.flatMap_append

/-- A round for an attribute that has been listed writes a comma and nothing behind it. -/
theorem addAttr_of_mem {included : List Word} {attr : Attribute} (h : attr.attrStr ∈ included)
    (out : List Piece) :
    addAttr ⟨included, false, out⟩ attr = ⟨included, false, out ++ [.text (str ", ")]⟩ :=
  if_pos ((any_toStr_iff _ _).mpr h)

theorem addAttr_of_notMem {included : List Word} {attr : Attribute} (h : attr.attrStr ∉ included)
    (out : List Piece) : addAttr ⟨included, false, out⟩ attr =
      ⟨attr.attrStr :: included, false, out ++ [.text (str ", ")] ++ [.var attr]⟩ :=
  if_neg fun hany => h ((any_toStr_iff _ _).mp hany)

/-- What comes new into the list. -/
def fresh (included : List Word) (attrs : List Attribute) : List Word :=
  ((attrs.map (·.attrStr)).filter fun w => w ∉ included).eraseDups

theorem fresh_of_mem {included : List Word} {attr : Attribute} (h : attr.attrStr ∈ included)
    (attrs : List Attribute) : fresh included (attr :: attrs) = fresh included attrs := by
  unfold fresh
  rw [List.map_cons, List.filter_cons_of_neg (by simpa using h)]

theorem fresh_of_notMem {included : List Word} {attr : Attribute} (h : attr.attrStr ∉ included)
    (attrs : List Attribute) :
    fresh included (attr :: attrs) = attr.attrStr :: fresh (attr.attrStr :: included) attrs := by
  unfold fresh
  rw [List.map_cons, List.filter_cons_of_pos (by simpa using h), List.eraseDups_cons,
    List.filter_filter]
  congr 2
  refine List.filter_congr fun w _ => ?_
  by_cases hw : w = attr.attrStr
  · simp [hw]
  · simp [hw]

/-- There are as many commas as attributes, also where fewer of them are listed. -/
theorem length_foldl_addAttr (attrs : List Attribute) (included : List Word) (out : List Piece) :
    (print (attrs.foldl addAttr ⟨included, false, out⟩).out).length + 2 * (fresh included attrs).length
      = (print out).length + (separated (fresh included attrs)).length + 2 * attrs.length := by
  induction attrs generalizing included out with
  | nil => rfl
  | cons attr attrs ih =>
      have hcomma : (print [.text (str ", ")]).length = 2 := by decide
      by_cases h : attr.attrStr ∈ included
      · rw [List.foldl_cons, addAttr_of_mem h, fresh_of_mem h, ih, print_append, List.length_append,
          hcomma, List.length_cons]
        omega
      · have hvar : print [.var attr] = varText attr.attrStr := List.append_nil _
        have hnew : (separated (attr.attrStr :: fresh (attr.attrStr :: included) attrs)).length =
            2 + (varText attr.attrStr).length +
              (separated (fresh (attr.attrStr :: included) attrs)).length := by
          unfold separated
          rw [List.flatMap_cons, List.length_append, List.length_append]
          rfl
        have hround := ih (attr.attrStr :: included) (out ++ [.text (str ", ")] ++ [.var attr])
        rw [print_append, print_append, List.length_append, List.length_append, hcomma, hvar]
          at hround
        rw [List.foldl_cons, addAttr_of_notMem h, fresh_of_notMem h, hnew, List.length_cons,
          List.length_cons]
        omega

theorem length_fresh_le (included : List Word) (attrs : List Attribute) :
    (fresh included attrs).length ≤ attrs.length := by
  induction attrs generalizing included with
  | nil => exact Nat.le_refl _
  | cons attr attrs ih =>
      by_cases h : attr.attrStr ∈ included
      · rw [fresh_of_mem h, List.length_cons]
        exact Nat.le_succ_of_le (ih included)
      · rw [fresh_of_notMem h, List.length_cons, List.length_cons]
        exact Nat.succ_le_succ (ih _)

/-- All attributes are new when none has been listed and none comes twice. -/
theorem length_fresh_iff (included : List Word) (attrs : List Attribute) :
    (fresh included attrs).length = attrs.length ↔
      (∀ attr ∈ attrs, attr.attrStr ∉ included) ∧ (attrs.map (·.attrStr)).Nodup := by
  induction attrs generalizing included with
  | nil => exact iff_of_true rfl ⟨nofun, List.nodup_nil⟩
  | cons attr attrs ih =>
      rw [List.forall_mem_cons, List.map_cons, List.nodup_cons]
      by_cases h : attr.attrStr ∈ included
      · have hle := length_fresh_le included attrs
        rw [fresh_of_mem h, List.length_cons]
        refine iff_of_false (by omega) fun hall => hall.1.1 h
      · rw [fresh_of_notMem h, List.length_cons, List.length_cons, Nat.add_right_cancel_iff, ih]
        simp only [List.mem_cons, not_or, List.mem_map, not_exists, not_and]
        constructor
        · rintro ⟨hnew, hnodup⟩
          exact ⟨⟨h, fun x hx => (hnew x hx).2⟩, fun x hx => (hnew x hx).1, hnodup⟩
        · rintro ⟨⟨-, hnew⟩, hne, hnodup⟩
          exact ⟨fun x hx => ⟨hne x hx, hnew x hx⟩, hnodup⟩

/-- When all attributes are new, every one of them is listed behind a comma. -/
theorem print_foldl_addAttr {attrs : List Attribute} {included : List Word}
    (hnew : ∀ attr ∈ attrs, attr.attrStr ∉ included) (hnodup : (attrs.map (·.attrStr)).Nodup)
    (out : List Piece) : print (attrs.foldl addAttr ⟨included, false, out⟩).out =
      print out ++ separated (fresh included attrs) := by
  induction attrs generalizing included out with
  | nil => exact (List.append_nil _).symm
  | cons attr attrs ih =>
      rw [List.map_cons, List.nodup_cons] at hnodup
      rw [List.forall_mem_cons] at hnew
      have hne : ∀ x ∈ attrs, x.attrStr ∉ attr.attrStr :: included := by
        intro x hx hmem
        rcases List.mem_cons.mp hmem with heq | hmem
        · exact hnodup.1 (heq ▸ List.mem_map_of_mem hx)
        · exact hnew.2 x hx hmem
      rw [List.foldl_cons, addAttr_of_notMem hnew.1, ih hne hnodup.2, fresh_of_notMem hnew.1,
        print_append, print_append]
      simp [print, Piece.print, separated, varText]

/-- The distinct attributes of a field: its first one, and what is new behind it. -/
theorem distinct_cons {field : Field} {attr : Attribute} {attrs : List Attribute}
    (h : field.Attribs = attr :: attrs) :
    field.distinct = attr.attrStr :: fresh [attr.attrStr] attrs := by
  have hall : field.distinct = fresh [] (attr :: attrs) := by
    simp [Field.distinct, fresh, h]
  rw [hall, fresh_of_notMem List.not_mem_nil]

/-- What is printed of a field is what is listed when its list of attributes is. -/
theorem fieldSchema_eq_iff {field : Field} {attr : Attribute} {attrs : List Attribute}
    (h : field.Attribs = attr :: attrs) : print (fieldSchema field) = field.listed ↔
      print (attrs.foldl addAttr ⟨[attr.attrStr], false, [.var attr]⟩).out =
        varText attr.attrStr ++ separated (fresh [attr.attrStr] attrs) := by
  have hprinted : print (fieldSchema field) = str "prop(" ++ field.Name.bytes ++ (str "(" ++
      print (attrs.foldl addAttr ⟨[attr.attrStr], false, [.var attr]⟩).out ++ str ")") ++
      (str ", " ++ field.FieldType ++ str ")") := by
    have hne : field.Attribs ≠ [] := by simp [h]
    unfold fieldSchema fieldAttrs
    rw [if_neg hne, print_append, print_append, print_append, print_append, h, List.foldl_cons]
    simp [print, Piece.print, addAttr]
  have hlisted : field.listed = str "prop(" ++ field.Name.bytes ++ (str "(" ++
      (varText attr.attrStr ++ separated (fresh [attr.attrStr] attrs)) ++ str ")") ++
      (str ", " ++ field.FieldType ++ str ")") := by
    have hne : field.Attribs ≠ [] := by simp [h]
    unfold Field.listed
    rw [if_neg hne, distinct_cons h, intercalate_separated]
  rw [hprinted, hlisted]
  simp only [List.append_cancel_right_eq, List.append_cancel_left_eq]

/-- **A field is printed as it should be when no attribute is repeated.** -/
theorem fieldSchema_iff (field : Field) :
    print (fieldSchema field) = field.listed ↔ (field.Attribs.map (·.attrStr)).Nodup := by
  cases h : field.Attribs with
  | nil =>
      refine iff_of_true ?_ List.nodup_nil
      unfold fieldSchema fieldAttrs Field.listed
      rw [if_pos h, if_pos h]
      simp [print, Piece.print]
  | cons attr attrs =>
      have hiff := length_fresh_iff [attr.attrStr] attrs
      have hfirst : print [.var attr] = varText attr.attrStr := List.append_nil _
      rw [fieldSchema_eq_iff h, List.map_cons, List.nodup_cons]
      constructor
      · intro heq
        -- a comma too many makes the text longer
        have hlen := length_foldl_addAttr attrs [attr.attrStr] [.var attr]
        rw [heq, List.length_append, hfirst] at hlen
        obtain ⟨hnew, hnodup⟩ := hiff.mp (by omega)
        refine ⟨fun hmem => ?_, hnodup⟩
        obtain ⟨x, hx, hxa⟩ := List.mem_map.mp hmem
        exact hnew x hx (List.mem_singleton.mpr hxa)
      · rintro ⟨hnotMem, hnodup⟩
        have hnew : ∀ x ∈ attrs, x.attrStr ∉ [attr.attrStr] := fun x hx heq =>
          hnotMem (List.mem_singleton.mp heq ▸ List.mem_map_of_mem hx)
        rw [print_foldl_addAttr hnew hnodup, hfirst]

/-! ## The symbols -/

/-- The symbols of a field. -/
def Field.symbols (field : Field) : List Word :=
  field.Name :: (field.Attribs.filter (·.isSimple)).map (·.Resolved)

/-- The symbols of a program file in the order in which they are added. -/
def ProgramFile.names (pf : ProgramFile) : List Word :=
  pf.Symbols ++ pf.MetaTypes.flatMap fun tp => tp.Fields.flatMap Field.symbols

theorem fieldSymbols_eq (st : Symbols) (field : Field) :
    fieldSymbols st field = field.symbols.foldl addSymbol st := by
  rw [fieldSymbols, Field.symbols, List.foldl_cons, List.foldl_map, List.foldl_filter]

/-- The loops over the types and over their fields add the symbols one behind the other. -/
theorem generateprogramFileSymbols_eq (pf : ProgramFile) :
    generateprogramFileSymbols pf = (pf.names.foldl addSymbol ⟨[], []⟩).out := by
  have hfields : (fun (st : Symbols) (tp : MetaType) => tp.Fields.foldl fieldSymbols st) =
      fun st tp => (tp.Fields.flatMap Field.symbols).foldl addSymbol st := by
    funext st tp
    have hfield : fieldSymbols = fun st field => (Field.symbols field).foldl addSymbol st := by
      funext st field
      exact fieldSymbols_eq st field
    rw [List.foldl_flatMap, hfield]
  rw [generateprogramFileSymbols, ProgramFile.names, List.foldl_append, List.foldl_flatMap, hfields]

/-- Every name that has been added has its block. -/
structure Symbols.Tracked (st : Symbols) : Prop where
  once : ∀ name, (defined st.out).count name = if name ∈ st.added then 1 else 0
  plain : ∀ p ∈ st.out, p.used = none

theorem defined_append (out out' : List Piece) : defined (out ++ out') = defined out ++ defined out' :=
  List.filterMap_append

theorem tracked_addSymbol {st : Symbols} (h : st.Tracked) (name : Word) :
    (addSymbol st name).Tracked := by
  unfold addSymbol
  by_cases hmem : name ∈ st.added
  · rw [if_pos hmem]
    exact h
  · rw [if_neg hmem]
    constructor
    · intro n
      have hone : defined [.symbol name] = [name] := rfl
      dsimp only
      rw [defined_append, hone, List.count_append, h.once, List.count_singleton]
      by_cases hn : name = n
      · subst hn
        simp [hmem]
      · have hn' : ¬ n = name := fun heq => hn heq.symm
        simp [hn, hn']
    · intro p hp
      rcases List.mem_append.mp hp with hp | hp
      · exact h.plain p hp
      · rw [List.mem_singleton.mp hp]
        rfl

theorem tracked_foldl {st : Symbols} (h : st.Tracked) (names : List Word) :
    (names.foldl addSymbol st).Tracked := by
  induction names generalizing st with
  | nil => exact h
  | cons name names ih => exact ih (tracked_addSymbol h name)

theorem mem_added_addSymbol (st : Symbols) (name n : Word) :
    n ∈ (addSymbol st name).added ↔ n = name ∨ n ∈ st.added := by
  unfold addSymbol
  by_cases hmem : name ∈ st.added
  · rw [if_pos hmem]
    exact ⟨.inr, fun h => h.elim (fun heq => heq ▸ hmem) id⟩
  · rw [if_neg hmem]
    exact List.mem_cons

theorem mem_added_foldl (names : List Word) (st : Symbols) (n : Word) :
    n ∈ (names.foldl addSymbol st).added ↔ n ∈ names ∨ n ∈ st.added := by
  induction names generalizing st with
  | nil => simp
  | cons name names ih =>
      rw [List.foldl_cons, ih, mem_added_addSymbol, List.mem_cons]
      tauto

/-- **Every symbol of a program file has one block.** -/
theorem count_defined {pf : ProgramFile} {name : Word} (h : name ∈ pf.names) :
    (defined (generateprogramFileSymbols pf)).count name = 1 := by
  have hstart : Symbols.Tracked ⟨[], []⟩ := ⟨fun _ => rfl, nofun⟩
  rw [generateprogramFileSymbols_eq, (tracked_foldl hstart pf.names).once]
  exact if_pos ((mem_added_foldl _ _ _).mpr (.inl h))

theorem plain_symbols (pf : ProgramFile) :
    ∀ p ∈ generateprogramFileSymbols pf, p.used = none := by
  have hstart : Symbols.Tracked ⟨[], []⟩ := ⟨fun _ => rfl, nofun⟩
  rw [generateprogramFileSymbols_eq]
  exact (tracked_foldl hstart pf.names).plain

/-! ## Where they are used -/

/-- A piece that defines nothing, and uses nothing but symbols of the list. -/
def UsesOnly (names : List Word) (p : Piece) : Prop :=
  defined [p] = [] ∧ ∀ name, p.used = some name → name ∈ names

theorem usesOnly_text (names : List Word) (b : Bytes) : UsesOnly names (.text b) := ⟨rfl, nofun⟩

theorem usesOnly_foldl_addAttr {names : List Word} {attrs : List Attribute}
    (h : ∀ attr ∈ attrs, UsesOnly names (.var attr)) {st : Attrs}
    (hst : ∀ p ∈ st.out, UsesOnly names p) :
    ∀ p ∈ (attrs.foldl addAttr st).out, UsesOnly names p := by
  induction attrs generalizing st with
  | nil => exact hst
  | cons attr attrs ih =>
      rw [List.forall_mem_cons] at h
      refine ih h.2 ?_
      have hcomma : ∀ p ∈ (if st.attrFirst then st.out else st.out ++ [.text (str ", ")]),
          UsesOnly names p := by
        split
        · exact hst
        · rw [List.forall_mem_append, List.forall_mem_singleton]
          exact ⟨hst, usesOnly_text _ _⟩
      unfold addAttr
      dsimp only
      split
      · exact hcomma
      · rw [List.forall_mem_append, List.forall_mem_singleton]
        exact ⟨hcomma, h.1⟩

theorem usesOnly_var {field : Field} {attr : Attribute} (h : attr ∈ field.Attribs) :
    UsesOnly field.symbols (.var attr) := by
  refine ⟨rfl, fun name hname => ?_⟩
  unfold Piece.used at hname
  dsimp only at hname
  by_cases hsimple : attr.isSimple = true
  · rw [if_pos hsimple, Attribute.attrStr, if_pos hsimple, Option.some.injEq] at hname
    exact List.mem_cons_of_mem _ (List.mem_map.mpr ⟨attr, List.mem_filter.mpr ⟨h, hsimple⟩, hname⟩)
  · rw [if_neg hsimple] at hname
    nomatch hname

/-- The two traversals agree on the symbols of a field. -/
theorem usesOnly_fieldSchema (field : Field) : ∀ p ∈ fieldSchema field, UsesOnly field.symbols p := by
  have hattrs : ∀ p ∈ fieldAttrs field, UsesOnly field.symbols p := by
    unfold fieldAttrs
    split
    · exact nofun
    · simp only [List.forall_mem_append, List.forall_mem_singleton]
      exact ⟨⟨usesOnly_text _ _, usesOnly_foldl_addAttr (fun _ => usesOnly_var) nofun⟩,
        usesOnly_text _ _⟩
  unfold fieldSchema
  simp only [List.forall_mem_append, List.forall_mem_singleton]
  refine ⟨⟨⟨rfl, fun name hname => ?_⟩, hattrs⟩, usesOnly_text _ _⟩
  rw [← Option.some.inj hname]
  exact List.mem_cons_self

theorem usesOnly_schemaFields {names : List Word} {fields : List Field}
    (h : ∀ field ∈ fields, ∀ name ∈ field.symbols, name ∈ names) (isFirst : Bool) :
    ∀ p ∈ schemaFields isFirst fields, UsesOnly names p := by
  induction fields generalizing isFirst with
  | nil => exact nofun
  | cons field fields ih =>
      rw [List.forall_mem_cons] at h
      have hcomma : ∀ p ∈ (if isFirst then [] else [.text (str ",\n")]), UsesOnly names p := by
        split
        · exact nofun
        · rw [List.forall_mem_singleton]
          exact usesOnly_text _ _
      have hfield : ∀ p ∈ fieldSchema field, UsesOnly names p := by
        intro p hp
        have hown := usesOnly_fieldSchema field p hp
        exact ⟨hown.1, fun n hn => h.1 n (hown.2 n hn)⟩
      rw [schemaFields]
      simp only [List.forall_mem_append, List.forall_mem_singleton]
      exact ⟨⟨⟨hcomma, usesOnly_text _ _⟩, hfield⟩, ih h.2 false⟩

theorem usesOnly_generateMetaTypeHeaders (pf : ProgramFile) :
    ∀ p ∈ generateMetaTypeHeaders pf, UsesOnly pf.names p := by
  intro p hp
  obtain ⟨tp, htp, hp⟩ := List.mem_flatMap.mp hp
  have hnames : ∀ field ∈ tp.Fields, ∀ name ∈ field.symbols, name ∈ pf.names :=
    fun field hfield name hname => List.mem_append_right _
      (List.mem_flatMap.mpr ⟨tp, htp, List.mem_flatMap.mpr ⟨field, hfield, hname⟩⟩)
  have hall : ∀ p ∈ metaTypeHeader tp, UsesOnly pf.names p := by
    unfold metaTypeHeader
    simp only [List.forall_mem_append, List.forall_mem_cons]
    exact ⟨⟨⟨usesOnly_text _ _, usesOnly_text _ _, nofun⟩, usesOnly_schemaFields hnames true⟩,
      usesOnly_text _ _, usesOnly_text _ _, nofun⟩
  exact hall p hp

theorem defined_of_usesOnly {names : List Word} {out : List Piece} (h : ∀ p ∈ out, UsesOnly names p) :
    defined out = [] := by
  induction out with
  | nil => rfl
  | cons p out ih =>
      rw [List.forall_mem_cons] at h
      rw [← List.singleton_append, defined_append, h.1.1, ih h.2]
      rfl

/-- What is used behind the definitions is defined in front of them. -/
theorem defines_append (names : List Word) {front back : List Piece}
    (hplain : ∀ p ∈ front, p.used = none) (hback : ∀ p ∈ back, UsesOnly names p)
    (honce : ∀ name ∈ names, (defined front).count name = 1) : Defines (front ++ back) := by
  have hbehind : ∀ pre p post, back = pre ++ p :: post → ∀ name, p.used = some name →
      (defined (front ++ pre)).count name = 1 ∧ name ∉ defined post := by
    rintro pre p post rfl name hname
    rw [List.forall_mem_append, List.forall_mem_cons] at hback
    rw [defined_append, defined_of_usesOnly hback.1, List.append_nil, defined_of_usesOnly hback.2.2]
    exact ⟨honce name (hback.2.1.2 name hname), List.not_mem_nil⟩
  intro pre p post hout name hname
  rcases List.append_eq_append_iff.mp hout with ⟨between, hpre, hrest⟩ | ⟨between, hfront, hrest⟩
  · rw [hpre]
    exact hbehind between p post hrest name hname
  · cases between with
    | nil =>
        rw [List.append_nil] at hfront
        have := hbehind [] p post hrest.symm name hname
        rwa [List.append_nil, hfront] at this
    | cons q between =>
        -- no piece in front of the types uses anything
        have hq : q = p := (List.cons.inj hrest).1.symm
        have hmem : p ∈ front := by
          rw [hfront, hq]
          exact List.mem_append_right _ List.mem_cons_self
        rw [hplain p hmem] at hname
        nomatch hname

/-- **Every symbol is defined exactly once, and before it is used.** -/
theorem defines_header (services : Bytes) (pf : ProgramFile) :
    Defines (generateHeaderFile services pf) := by
  have hplain : ∀ p ∈ prologue pf ++ generateprogramFileSymbols pf, p.used = none := by
    rw [List.forall_mem_append]
    refine ⟨?_, plain_symbols pf⟩
    unfold prologue
    simp only [List.forall_mem_cons]
    exact ⟨rfl, rfl, rfl, rfl, nofun⟩
  unfold generateHeaderFile
  rw [List.append_assoc, List.append_assoc]
  refine defines_append pf.names hplain ?_ fun name hname => ?_
  · simp only [List.forall_mem_append, List.forall_mem_cons]
    exact ⟨⟨usesOnly_text _ _, nofun⟩, usesOnly_generateMetaTypeHeaders pf, usesOnly_text _ _,
      usesOnly_text _ _, nofun⟩
  · have hnone : defined (prologue pf) = [] := rfl
    rw [defined_append, hnone, List.nil_append, count_defined hname]

/-! ## The program files whose schemas are right -/

/-- **The schemas of a program file list every distinct attribute once, with commas between them, and
use only symbols that are defined once in front of them, exactly when no attribute is repeated in the
list of a field.** -/
theorem schema_iff (services : Bytes) (pf : ProgramFile) :
    (Lists pf ∧ Defines (generateHeaderFile services pf)) ↔
      ∀ tp ∈ pf.MetaTypes, ∀ field ∈ tp.Fields, (field.Attribs.map (·.attrStr)).Nodup := by
  constructor
  · rintro ⟨hlists, -⟩ tp htp field hfield
    exact (fieldSchema_iff field).mp (hlists tp htp field hfield)
  · intro h
    exact ⟨fun tp htp field hfield => (fieldSchema_iff field).mpr (h tp htp field hfield),
      defines_header services pf⟩

/-- `[[key, key]] int id;`. -/
private def repeated : Field where
  Attribs := [⟨[⟨str "key", by decide, by decide⟩], ⟨str "key", by decide, by decide⟩, by decide⟩,
    ⟨[⟨str "key", by decide, by decide⟩], ⟨str "key", by decide, by decide⟩, by decide⟩]
  FieldType := str "int"
  Name := ⟨str "id", by decide, by decide⟩

/-- An attribute that is repeated leaves an empty element: `prop(id(var(key), ), int)`. -/
theorem not_lists_repeated :
    print (fieldSchema repeated) = str "prop(id(var(key), ), int)" ∧
      ¬ Lists ⟨[], [], str "app", [⟨str "User", [repeated]⟩]⟩ := by
  have hprint : print (fieldSchema repeated) = str "prop(id(var(key), ), int)" := by decide
  refine ⟨hprint, fun h => ?_⟩
  have hlisted := h ⟨str "User", [repeated]⟩ List.mem_cons_self repeated List.mem_cons_self
  rw [hprint] at hlisted
  exact absurd hlisted (by decide)

end Suil.Scc
