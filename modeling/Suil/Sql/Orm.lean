import Mathlib
import Suil.Basic.CString

set_option autoImplicit false

/-! # Statements of the mapper

`Orm` (`orm.h`) writes the statements that insert, update and remove an object of a schema, with a
placeholder for each value, and calls them with the values of the object. Text and values come out
of one traversal of the members. `foreach2` visits them in their order; `foreach` calls the visitor
in the arguments of a function, which may be evaluated in any order. `aligned_iff` says for which
orders each placeholder gets the value of its column. -/

namespace Suil.Sql

/-! ## Schemas -/

inductive Attribute where
  | autoIncrement
  | primaryKey
  | ignore
  | other (name : Bytes)
  deriving DecidableEq, Repr

structure Member where
  name : Bytes
  attributes : List Attribute
  deriving DecidableEq, Repr

/-- The members of an `iod::sio`, no two of one symbol. -/
structure Schema where
  members : List Member
  distinct : (members.map Member.name).Nodup

def removeMembersWithAttribute (a : Attribute) (ms : List Member) : List Member :=
  ms.filter fun m => a ∉ m.attributes

def extractMembersWithAttribute (a : Attribute) (ms : List Member) : List Member :=
  ms.filter fun m => a ∈ m.attributes

/-- `iod::intersect`. -/
def intersect (as bs : List Member) : List Member := as.filter fun m => m.name ∈ bs.map Member.name

/-- `PrimaryKeys`. -/
def Schema.primaryKeys (s : Schema) : List Member := extractMembersWithAttribute .primaryKey s.members

/-- `WithoutIgnore2<WithoutAutoIncrement>`. -/
def Schema.written (s : Schema) : List Member :=
  removeMembersWithAttribute .ignore (removeMembersWithAttribute .autoIncrement s.members)

/-! ## Statements -/

/-- What is appended to a buffer: text, the name of a member, and a placeholder. -/
inductive Piece where
  | text (s : Bytes)
  | column (name : Bytes)
  | param (i : Nat)
  deriving DecidableEq, Repr

/-- The bytes of a piece, with those of `Connection::params`. -/
def Piece.bytes (params : Nat → Bytes) : Piece → Bytes
  | .text s => s
  | .column name => name
  | .param i => params i

/-- `PgSqlConnection::params`. -/
def pgsqlParams (i : Nat) : Bytes := str "$" ++ showNat i

/-- `SQLiteConnetion::params`. -/
def sqliteParams (_ : Nat) : Bytes := str "?"

/-- A statement, and the values it is called with under their symbols. -/
structure Request (V : Type) where
  sql : List Piece
  args : List (Bytes × V)
  deriving DecidableEq, Repr

/-- What a traversal writes: two buffers, whether nothing is written yet, and the next number. -/
structure Writer where
  qb : List Piece
  vb : List Piece
  first : Bool
  i : Nat

/-- `foreach2(ms) | f`, which visits one member after the other. -/
def foreach2 {β : Type} (f : Writer → Member → Writer × β) : Writer → List Member → Writer × List β
  | b, [] => (b, [])
  | b, m :: ms =>
      let (b, r) := f b m
      let (b, rs) := foreach2 f b ms
      (b, r :: rs)

/-- `foreach(ms) | f`: the results are the arguments of one call, and `order k` is the argument that
is evaluated in place `k`. -/
def foreach {β : Type} (f : Writer → Member → Writer × β) (b : Writer) (ms : List Member)
    (order : Equiv.Perm (Fin ms.length)) : Writer × List β :=
  let r := foreach2 f b ((List.finRange ms.length).map fun k => ms.get (order k))
  (r.1, (List.finRange ms.length).filterMap fun k => r.2[(order.symm k : Nat)]?)

/-- `if (!first) qb << sep`, and then some pieces. -/
def separated (first : Bool) (sep : Piece) (ps : List Piece) : List Piece :=
  if first then ps else sep :: ps

section

variable {V : Type} (o : Bytes → V)

/-- `m.symbol() = m.symbol().member_access(o)`. -/
def entry (m : Member) : Bytes × V := (m.name, o m.name)

def COMMA_SPACE : Piece := .text (str ", ")
def AND : Piece := .text (str " and ")

/-- The visitor of `insert`. -/
def insertMember (b : Writer) (m : Member) : Writer × (Bytes × V) :=
  ({ qb := b.qb ++ separated b.first COMMA_SPACE [.column m.name]
     vb := b.vb ++ separated b.first COMMA_SPACE [.param b.i]
     first := false
     i := b.i + 1 }, entry o m)

/-- The visitors of `update` and `remove`, with their separators. -/
def equateMember (sep : Piece) (b : Writer) (m : Member) : Writer × (Bytes × V) :=
  ({ b with
     qb := b.qb ++ separated b.first sep [.column m.name, .text (str " = "), .param b.i]
     first := false
     i := b.i + 1 }, entry o m)

variable (table : Bytes) (s : Schema)

def insert : Request V :=
  let (b, values) := foreach2 (insertMember o)
    ⟨[.text (str "insert into "), .text table, .text (str "(")], [], true, 1⟩ s.written
  ⟨b.qb ++ [.text (str ") values (")] ++ b.vb ++ [.text (str ")")], values⟩

def update : Request V :=
  let pk := intersect s.members s.primaryKeys
  let (b, values) := foreach2 (equateMember o COMMA_SPACE)
    ⟨[.text (str "update "), .text table, .text (str " set ")], [], true, 1⟩ s.written
  let (b, pks) := foreach2 (equateMember o AND)
    { b with qb := b.qb ++ [.text (str " where ")], first := true } pk
  ⟨b.qb, values ++ pks⟩

def remove (order : Equiv.Perm (Fin s.primaryKeys.length)) : Request V :=
  let (b, values) := foreach (equateMember o AND)
    ⟨[.text (str "delete from "), .text table, .text (str " where ")], [], true, 1⟩ s.primaryKeys
    order
  ⟨b.qb, values⟩

end

/-! ## What the statements should be -/

/-- The statements of the mapper, with a number for each placeholder. -/
inductive Statement where
  | insert (table : Bytes) (columns : List Bytes) (params : List Nat)
  | update (table : Bytes) (set keys : List (Bytes × Nat))
  | delete (table : Bytes) (keys : List (Bytes × Nat))

/-- A column and its placeholder. -/
def equation (p : Bytes × Nat) : List Piece := [.column p.1, .text (str " = "), .param p.2]

def Statement.sql : Statement → List Piece
  | .insert table columns params =>
      [.text (str "insert into "), .text table, .text (str "(")] ++
        [COMMA_SPACE].intercalate (columns.map fun c => [.column c]) ++ [.text (str ") values (")] ++
        [COMMA_SPACE].intercalate (params.map fun i => [.param i]) ++ [.text (str ")")]
  | .update table set keys =>
      [.text (str "update "), .text table, .text (str " set ")] ++
        [COMMA_SPACE].intercalate (set.map equation) ++ [.text (str " where ")] ++
        [AND].intercalate (keys.map equation)
  | .delete table keys =>
      [.text (str "delete from "), .text table, .text (str " where ")] ++
        [AND].intercalate (keys.map equation)

/-- The columns in the order of their placeholders. -/
def Statement.columns : Statement → List Bytes
  | .insert _ columns _ => columns
  | .update _ set keys => (set ++ keys).map Prod.fst
  | .delete _ keys => keys.map Prod.fst

/-- The numbers of the placeholders. -/
def Statement.numbers : Statement → List Nat
  | .insert _ _ params => params
  | .update _ set keys => (set ++ keys).map Prod.snd
  | .delete _ keys => keys.map Prod.snd

section

variable {V : Type}

/-- The placeholders are numbered from 1 on, and each argument is one of the column of its
placeholder. -/
structure Aligned (st : Statement) (args : List (Bytes × V)) : Prop where
  columns : st.columns = args.map Prod.fst
  numbers : st.numbers = List.range' 1 args.length

variable (o : Bytes → V) (table : Bytes) (s : Schema)

/-- The members that are neither incremented by the database nor ignored. -/
def Schema.Writes (s : Schema) (args : List (Bytes × V)) : Prop :=
  args.Perm ((s.members.filter fun m =>
    .autoIncrement ∉ m.attributes ∧ .ignore ∉ m.attributes).map (entry o))

/-- All primary keys. -/
def Schema.Restricts (s : Schema) (args : List (Bytes × V)) : Prop :=
  args.Perm ((s.members.filter fun m => .primaryKey ∈ m.attributes).map (entry o))

def Inserts (r : Request V) : Prop :=
  ∃ columns params, r.sql = (Statement.insert table columns params).sql ∧
    Aligned (.insert table columns params) r.args ∧ s.Writes o r.args

def Updates (r : Request V) : Prop :=
  ∃ set keys, r.sql = (Statement.update table set keys).sql ∧
    Aligned (.update table set keys) r.args ∧ s.Writes o (r.args.take set.length) ∧
    s.Restricts o (r.args.drop set.length)

def Removes (r : Request V) : Prop :=
  ∃ keys, r.sql = (Statement.delete table keys).sql ∧ Aligned (.delete table keys) r.args ∧
    s.Restricts o r.args

end

/-! ## What a traversal writes -/

/-- Some texts with a separator in front of each, but for the first one when nothing is written. -/
def joined (first : Bool) (sep : Piece) : List (List Piece) → List Piece
  | [] => []
  | x :: xs => separated first sep x ++ joined false sep xs

theorem joined_true (sep : Piece) (xs : List (List Piece)) :
    joined true sep xs = [sep].intercalate xs := by
  have hrest : ∀ (x : List Piece) (xs : List (List Piece)),
      x ++ joined false sep xs = [sep].intercalate (x :: xs) := by
    intro x xs
    induction xs generalizing x with
    | nil => simp [joined, List.intercalate]
    | cons y xs ih =>
        calc x ++ joined false sep (y :: xs)
            = x ++ (sep :: (y ++ joined false sep xs)) := rfl
          _ = x ++ (sep :: [sep].intercalate (y :: xs)) := by rw [ih]
          _ = [sep].intercalate (x :: y :: xs) := by simp [List.intercalate]
  cases xs with
  | nil => rfl
  | cons x xs => exact hrest x xs

section

variable {V : Type} (o : Bytes → V)

/-- The members with the numbers of their placeholders. -/
def placed (i : Nat) (ms : List Member) : List (Bytes × Nat) := (ms.map Member.name).zipIdx i

theorem placed_cons (i : Nat) (m : Member) (ms : List Member) :
    placed i (m :: ms) = (m.name, i) :: placed (i + 1) ms := rfl

theorem placed_fst (i : Nat) (ms : List Member) : (placed i ms).map Prod.fst = ms.map Member.name :=
  List.zipIdx_map_fst i _

theorem placed_snd (i : Nat) (ms : List Member) :
    (placed i ms).map Prod.snd = List.range' i ms.length := by
  rw [placed, List.zipIdx_map_snd, List.length_map]

theorem foreach2_insert (b : Writer) (ms : List Member) :
    foreach2 (insertMember o) b ms =
      (⟨b.qb ++ joined b.first COMMA_SPACE (ms.map fun m => [.column m.name]),
        b.vb ++ joined b.first COMMA_SPACE ((List.range' b.i ms.length).map fun i => [.param i]),
        b.first && ms.isEmpty, b.i + ms.length⟩, ms.map (entry o)) := by
  induction ms generalizing b with
  | nil => simp [foreach2, joined]
  | cons m ms ih =>
      rw [foreach2, insertMember]
      dsimp only
      rw [ih]
      simp [joined, List.range'_succ, Nat.add_comm, Nat.add_left_comm]

theorem foreach2_equate (sep : Piece) (b : Writer) (ms : List Member) :
    foreach2 (equateMember o sep) b ms =
      ({ b with
         qb := b.qb ++ joined b.first sep ((placed b.i ms).map equation)
         first := b.first && ms.isEmpty
         i := b.i + ms.length }, ms.map (entry o)) := by
  induction ms generalizing b with
  | nil => simp [foreach2, placed, joined]
  | cons m ms ih =>
      rw [foreach2, equateMember]
      dsimp only
      rw [ih]
      simp [joined, placed_cons, equation, Nat.add_comm, Nat.add_left_comm]

/-- The members in the order in which their visitors are evaluated. -/
def visitedIn (ms : List Member) (order : Equiv.Perm (Fin ms.length)) : List Member :=
  (List.finRange ms.length).map fun k => ms.get (order k)

/-- The values are in the order of the members, whichever is written first. -/
theorem foreach_equate (sep : Piece) (b : Writer) (ms : List Member)
    (order : Equiv.Perm (Fin ms.length)) :
    foreach (equateMember o sep) b ms order =
      ((foreach2 (equateMember o sep) b (visitedIn ms order)).1, ms.map (entry o)) := by
  unfold foreach
  refine Prod.ext rfl ?_
  show (List.finRange ms.length).filterMap (fun k =>
    (foreach2 (equateMember o sep) b (visitedIn ms order)).2[(order.symm k : Nat)]?) = _
  have hresult : ∀ k : Fin ms.length,
      (foreach2 (equateMember o sep) b (visitedIn ms order)).2[(order.symm k : Nat)]? =
        some (entry o (ms.get k)) := by
    intro k
    rw [foreach2_equate]
    simp [visitedIn]
  calc (List.finRange ms.length).filterMap (fun k =>
        (foreach2 (equateMember o sep) b (visitedIn ms order)).2[(order.symm k : Nat)]?)
      = (List.finRange ms.length).filterMap (fun k => some (entry o (ms.get k))) :=
        List.filterMap_congr fun k _ => hresult k
    _ = (List.finRange ms.length).map (entry o ∘ ms.get) := by
        rw [← List.filterMap_eq_map]
        rfl
    _ = ms.map (entry o) := by rw [← List.map_map, List.map_get_finRange]

variable (table : Bytes) (s : Schema)

theorem insert_eq : insert o table s =
    ⟨(Statement.insert table (s.written.map Member.name) (List.range' 1 s.written.length)).sql,
      s.written.map (entry o)⟩ := by
  unfold insert
  rw [foreach2_insert]
  simp only [Statement.sql, joined_true, List.nil_append, List.map_map]
  rfl

theorem update_eq : update o table s =
    ⟨(Statement.update table (placed 1 s.written)
        (placed (1 + s.written.length) (intersect s.members s.primaryKeys))).sql,
      s.written.map (entry o) ++ (intersect s.members s.primaryKeys).map (entry o)⟩ := by
  unfold update
  rw [foreach2_equate]
  dsimp only
  rw [foreach2_equate]
  simp only [Statement.sql, joined_true]

theorem remove_eq (order : Equiv.Perm (Fin s.primaryKeys.length)) : remove o table s order =
    ⟨(Statement.delete table (placed 1 (visitedIn s.primaryKeys order))).sql,
      s.primaryKeys.map (entry o)⟩ := by
  unfold remove
  rw [foreach_equate, foreach2_equate]
  simp only [Statement.sql, joined_true]

end

/-! ## Alignment -/

theorem Schema.written_eq (s : Schema) : s.written = s.members.filter fun m =>
    .autoIncrement ∉ m.attributes ∧ .ignore ∉ m.attributes := by
  unfold Schema.written removeMembersWithAttribute
  rw [List.filter_filter]
  apply List.filter_congr
  intro m _
  simp [Bool.and_comm]

/-- The members of the schema under the names of its primary keys are the primary keys. -/
theorem Schema.intersect_primaryKeys (s : Schema) :
    intersect s.members s.primaryKeys = s.primaryKeys := by
  unfold intersect Schema.primaryKeys extractMembersWithAttribute
  apply List.filter_congr
  intro m hm
  rw [decide_eq_decide, List.mem_map]
  constructor
  · rintro ⟨k, hk, hname⟩
    obtain ⟨hmem, hkey⟩ := List.mem_filter.mp hk
    -- no two members have one name
    obtain rfl := List.inj_on_of_nodup_map s.distinct hmem hm hname
    exact of_decide_eq_true hkey
  · exact fun hkey => ⟨m, List.mem_filter.mpr ⟨hm, decide_eq_true hkey⟩, rfl⟩

section

variable {V : Type} (o : Bytes → V) (table : Bytes) (s : Schema)

theorem map_entry_fst (ms : List Member) : (ms.map (entry o)).map Prod.fst = ms.map Member.name := by
  rw [List.map_map]
  rfl

theorem inserts : Inserts o table s (insert o table s) := by
  rw [insert_eq]
  refine ⟨_, _, rfl, ⟨?_, ?_⟩, ?_⟩
  · exact (map_entry_fst o s.written).symm
  · show List.range' 1 s.written.length = List.range' 1 (s.written.map (entry o)).length
    rw [List.length_map]
  · unfold Schema.Writes
    rw [Schema.written_eq]

theorem updates : Updates o table s (update o table s) := by
  rw [update_eq, Schema.intersect_primaryKeys]
  have hlength : (placed 1 s.written).length = (s.written.map (entry o)).length := by
    rw [placed, List.length_zipIdx, List.length_map, List.length_map]
  refine ⟨_, _, rfl, ⟨?_, ?_⟩, ?_, ?_⟩
  · show (placed 1 s.written ++ placed (1 + s.written.length) s.primaryKeys).map Prod.fst = _
    rw [List.map_append, List.map_append, placed_fst, placed_fst, map_entry_fst, map_entry_fst]
  · show (placed 1 s.written ++ placed (1 + s.written.length) s.primaryKeys).map Prod.snd = _
    rw [List.map_append, placed_snd, placed_snd, List.length_append, List.length_map,
      List.length_map, List.range'_append_1]
  · unfold Schema.Writes
    rw [hlength, List.take_left, Schema.written_eq]
  · unfold Schema.Restricts
    rw [hlength, List.drop_left]
    exact List.Perm.refl _

/-- The names of the columns in some pieces. -/
def columnsOf (ps : List Piece) : List Bytes :=
  ps.filterMap fun
    | .column name => some name
    | _ => none

theorem columnsOf_append (ps qs : List Piece) : columnsOf (ps ++ qs) = columnsOf ps ++ columnsOf qs :=
  List.filterMap_append

theorem columnsOf_joined (first : Bool) (keys : List (Bytes × Nat)) :
    columnsOf (joined first AND (keys.map equation)) = keys.map Prod.fst := by
  induction keys generalizing first with
  | nil => rfl
  | cons p ps ih =>
      have hhead : columnsOf (separated first AND (equation p)) = [p.1] := by
        cases first <;> rfl
      rw [List.map_cons, joined, columnsOf_append, hhead, ih, List.map_cons, List.singleton_append]

/-- The columns of a statement can be read of its text. -/
theorem columnsOf_delete (table : Bytes) (keys : List (Bytes × Nat)) :
    columnsOf (Statement.delete table keys).sql = keys.map Prod.fst := by
  rw [Statement.sql, ← joined_true, ← columnsOf_joined true keys]
  rfl

/-- **A row is removed by its keys exactly when the visitors are evaluated in the order of the
members.** -/
theorem removes_iff (order : Equiv.Perm (Fin s.primaryKeys.length)) :
    Removes o table s (remove o table s order) ↔ order = 1 := by
  rw [remove_eq]
  constructor
  · rintro ⟨keys, hsql, haligned, -⟩
    have hsql : (Statement.delete table (placed 1 (visitedIn s.primaryKeys order))).sql =
        (Statement.delete table keys).sql := hsql
    have hkeys : keys.map Prod.fst = (s.primaryKeys.map (entry o)).map Prod.fst := haligned.columns
    have hcolumns : (visitedIn s.primaryKeys order).map Member.name =
        s.primaryKeys.map Member.name := by
      calc (visitedIn s.primaryKeys order).map Member.name
          = columnsOf (Statement.delete table (placed 1 (visitedIn s.primaryKeys order))).sql := by
            rw [columnsOf_delete, placed_fst]
        _ = keys.map Prod.fst := by rw [hsql, columnsOf_delete]
        _ = s.primaryKeys.map Member.name := by rw [hkeys, map_entry_fst]
    have hdistinct : (s.primaryKeys.map Member.name).Nodup :=
      s.distinct.sublist (List.filter_sublist.map _)
    -- so the member in place `k` has the name of the member that is visited there
    have hnames : ∀ k, (s.primaryKeys.get (order k)).name = (s.primaryKeys.get k).name := by
      intro k
      have hself : s.primaryKeys.map Member.name =
          (List.finRange s.primaryKeys.length).map fun k => (s.primaryKeys.get k).name := by
        rw [← Function.comp_def Member.name, ← List.map_map, List.map_get_finRange]
      rw [hself, visitedIn, List.map_map] at hcolumns
      exact List.map_inj_left.mp hcolumns k (List.mem_finRange k)
    have hinjective : Function.Injective s.primaryKeys.get :=
      List.nodup_iff_injective_get.mp hdistinct.of_map
    apply Equiv.ext
    intro k
    apply hinjective
    exact List.inj_on_of_nodup_map hdistinct (List.get_mem _ _) (List.get_mem _ _) (hnames k)
  · rintro rfl
    have hvisited : visitedIn s.primaryKeys 1 = s.primaryKeys := List.map_get_finRange _
    rw [hvisited]
    refine ⟨_, rfl, ⟨?_, ?_⟩, List.Perm.refl _⟩
    · show (placed 1 s.primaryKeys).map Prod.fst = _
      rw [placed_fst, map_entry_fst]
    · show (placed 1 s.primaryKeys).map Prod.snd = _
      rw [placed_snd, List.length_map]

/-- **The statements are aligned exactly when the arguments of the call in `remove` are evaluated in
their order.** -/
theorem aligned_iff (order : Equiv.Perm (Fin s.primaryKeys.length)) :
    Inserts o table s (insert o table s) ∧ Updates o table s (update o table s) ∧
      Removes o table s (remove o table s order) ↔ order = 1 := by
  rw [removes_iff, and_iff_right (inserts o table s), and_iff_right (updates o table s)]

end

/-! ## Two keys -/

/-- The key of a table of pairs. -/
def pairSchema : Schema where
  members := [⟨str "a", [.primaryKey]⟩, ⟨str "b", [.primaryKey]⟩]
  distinct := by decide

/-- The last argument is evaluated first. -/
def lastFirst : Equiv.Perm (Fin pairSchema.primaryKeys.length) :=
  Equiv.swap ⟨0, by decide⟩ ⟨1, by decide⟩

/-- A row is looked for under the values of its keys, in the columns of each other. -/
theorem not_aligned_lastFirst : ¬ ∀ (s : Schema) (o : Bytes → Nat) (table : Bytes)
    (order : Equiv.Perm (Fin s.primaryKeys.length)),
    Inserts o table s (insert o table s) ∧ Updates o table s (update o table s) ∧
      Removes o table s (remove o table s order) := by
  intro h
  obtain ⟨-, -, hremoves⟩ := h pairSchema (fun name => name.length) (str "pairs") lastFirst
  have hsame : lastFirst = 1 := (removes_iff _ _ _ _).mp hremoves
  have hfirst : lastFirst ⟨0, by decide⟩ = ⟨1, by decide⟩ := Equiv.swap_apply_left _ _
  rw [hsame] at hfirst
  exact absurd (congrArg Fin.val hfirst) Nat.zero_ne_one

/-- The statement that is sent then, and its arguments. -/
example : (remove (fun name => if name = str "a" then 7 else 9) (str "pairs") pairSchema
    lastFirst).sql.flatMap (Piece.bytes pgsqlParams) =
      str "delete from pairs where b = $1 and a = $2" := by
  decide

end Suil.Sql
