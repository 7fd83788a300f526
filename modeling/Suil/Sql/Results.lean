import Suil.Lib.Cursor
import Suil.Lib.StepMachine

set_option autoImplicit false

/-! # Results of statements

`PGSQLStatement` (`pgsql.h`) keeps the results of its last execution with an iterator and a row
number. What `libpq` answers is given with each execution. An iterator is the number of results in
front of it, with a flag that says whether it may be used: `push_back` invalidates the iterators of a
`std::deque`, always by the standard, and in an implementation when it needs a larger table of blocks.

`reuse_iff` says in which runs every call behaves as after the last execution alone. -/

namespace Suil.Sql.Results

open Cursor (item numbered remaining)

variable {ρ α : Type}

section

-- whether `push_back` behind so many results invalidates the iterators
variable (relocates : Nat → Bool)

/-- `ExecStatusType`. -/
inductive ExecStatusType where
  | EMPTY_QUERY
  | COMMAND_OK
  | TUPLES_OK
  | COPY_OUT
  | COPY_IN
  | BAD_RESPONSE
  | NONFATAL_ERROR
  | FATAL_ERROR
  | COPY_BOTH
  | SINGLE_TUPLE
  deriving DecidableEq

structure PGresult (ρ : Type) where
  status : ExecStatusType
  rows : List ρ

/-- A round of the loop that collects results. -/
inductive Round (ρ : Type) where
  | waitFailed
  | consumeFailed
  | result (r : PGresult ρ)

/-- What `libpq` answers: the result of `PQexecParams`, or whether a query is sent and flushed, and
the rounds before there are no more results. -/
structure Server (ρ : Type) where
  result : PGresult ρ
  sent : Bool
  flushed : Bool
  rounds : List (Round ρ)

/-! ## Results and the calls of a statement -/

/-- `pgsql_result`; a result that is kept has rows. -/
structure pgsql_result (ρ : Type) where
  failure : Bool
  results : List { rows : List ρ // rows ≠ [] }
  it : Nat
  row : Nat
  valid : Bool

namespace pgsql_result

/-- The rows of the results. -/
def sets (q : pgsql_result ρ) : List (List ρ) := q.results.map (·.val)

def reset (q : pgsql_result ρ) : pgsql_result ρ := { q with it := 0, row := 0, valid := true }

def clear (q : pgsql_result ρ) : pgsql_result ρ := reset { q with results := [] }

def add (q : pgsql_result ρ) (rows : List ρ) : pgsql_result ρ :=
  if h : rows = [] then q
  else { q with
    results := q.results ++ [⟨rows, h⟩], valid := q.valid && !relocates q.results.length }

def fail (q : pgsql_result ρ) : pgsql_result ρ := { q with failure := true }

def empty (q : pgsql_result ρ) : Bool := q.failure || q.results.isEmpty

/-- `next()`, behind a `read`. -/
def next (q : pgsql_result ρ) : Bool × pgsql_result ρ :=
  match q.results[q.it]? with
  | none => (false, q)
  | some rows =>
      let q := if rows.val.length ≤ q.row + 1 then { q with it := q.it + 1, row := 0 }
        else { q with row := q.row + 1 }
      (q.it ≠ q.results.length, q)

/-- The row that `read` reads, unless the iterator is at the end or invalid. -/
def current (q : pgsql_result ρ) : Option ρ :=
  if q.valid then q.results[q.it]?.bind fun rows => rows.val[q.row]? else none

end pgsql_result

/-- The loop of an asynchronous query, and whether there is an error. -/
def collect : List (Round ρ) → pgsql_result ρ → Bool × pgsql_result ρ
  | [], q => (false, q)
  | .waitFailed :: _, q => (true, q)
  | .consumeFailed :: _, q => (true, q)
  | .result r :: rounds, q =>
      match r.status with
      | .COPY_OUT | .COPY_IN | .COPY_BOTH | .NONFATAL_ERROR => collect rounds q
      | .COMMAND_OK => collect rounds q
      | .TUPLES_OK | .SINGLE_TUPLE => collect rounds (q.add relocates r.rows)
      | _ => (true, q)

structure PGSQLStatement (ρ : Type) where
  async : Bool
  results : pgsql_result ρ

namespace PGSQLStatement

/-- A statement that has not been executed. -/
def new (async : Bool) : PGSQLStatement ρ := ⟨async, ⟨false, [], 0, 0, false⟩⟩

def status (s : PGSQLStatement ρ) : Bool := !s.results.failure

def empty (s : PGSQLStatement ρ) : Bool := s.results.empty

/-- `operator()`, and whether it throws. -/
def execute (s : PGSQLStatement ρ) (server : Server ρ) : Bool × PGSQLStatement ρ :=
  let results := s.results.clear
  if s.async then
    if server.sent then
      if server.flushed then
        let (err, results) := collect relocates server.rounds results
        (err, { s with results := results })
      else (true, { s with results := results })
    else (true, { s with results := results })
  else
    let result := server.result
    if result.status ≠ .TUPLES_OK ∧ result.status ≠ .COMMAND_OK then
      (false, { s with results := results.fail })
    else if result.rows.length = 0 then (false, { s with results := results })
    else (false, { s with results := results.add relocates result.rows })

/-- What becomes of a row: a value, nothing, or an exception. -/
inductive Read (α : Type) where
  | value (a : α)
  | nothing
  | thrown

/-- What is made of a row: `o` is read, and then handed on; `f` says whether the function returns. -/
def visit (conv : ρ → Read α) (f : α → Bool) (r : ρ) : List α × Bool :=
  match conv r with
  | .value a => ([a], !f a)
  | .nothing => ([], false)
  | .thrown => ([], true)

/-- What a reading has seen: the places of the rows, the values, and whether there was an exception. -/
structure Seen (α : Type) where
  places : List (Nat × Nat)
  values : List α
  thrown : Bool
  deriving DecidableEq

/-- A row is seen in front of others. -/
def Seen.cons (p : Nat × Nat) (values : List α) (rest : Seen α) : Seen α :=
  ⟨p :: rest.places, values ++ rest.values, rest.thrown⟩

/-- `do { … } while (results.next())`, at most so many rounds. -/
def loop (visit : ρ → List α × Bool) : Nat → pgsql_result ρ → Option (Seen α × pgsql_result ρ)
  | 0, _ => none
  | fuel + 1, q =>
      match q.current with
      | none => none
      | some r =>
          let (values, thrown) := visit r
          if thrown then some (⟨[(q.it, q.row)], values, true⟩, q)
          else
            match q.next with
            | (false, q') => some (⟨[(q.it, q.row)], values, false⟩, q')
            | (true, q') =>
                (loop visit fuel q').map fun (seen, q'') => (seen.cons (q.it, q.row) values, q'')

/-- There are not more rounds than rows. -/
def rounds (q : pgsql_result ρ) : Nat := q.sets.flatten.length

/-- A call; `f` is the function behind `operator|`. -/
inductive Call (ρ α : Type) where
  | execute (server : Server ρ)
  | one (conv : ρ → Read α)
  | all (conv : ρ → Read α)
  | pipe (conv : ρ → Read α) (f : α → Bool)

/-- What can be seen of a call. -/
inductive Result (α : Type) where
  | executed (thrown : Bool)
  | read (seen : Seen α)
  deriving DecidableEq

/-- `operator>>` for a single value. -/
def readOne (s : PGSQLStatement ρ) (conv : ρ → Read α) : Option (Result α × PGSQLStatement ρ) :=
  if s.results.empty then some (.read ⟨[], [], false⟩, s)
  else
    s.results.current.map fun r =>
      let (values, thrown) := visit conv (fun _ => true) r
      (.read ⟨[(s.results.it, s.results.row)], values, thrown⟩, s)

/-- `operator>>` for a vector. -/
def readAll (s : PGSQLStatement ρ) (conv : ρ → Read α) : Option (Result α × PGSQLStatement ρ) :=
  if s.results.empty then some (.read ⟨[], [], false⟩, s)
  else
    (loop (visit conv fun _ => true) (rounds s.results) s.results).map fun (seen, q) =>
      (.read seen, { s with results := q })

/-- `operator|`; an exception leaves the iterator where it is. -/
def pipe (s : PGSQLStatement ρ) (conv : ρ → Read α) (f : α → Bool) :
    Option (Result α × PGSQLStatement ρ) :=
  if s.results.empty then some (.read ⟨[], [], false⟩, s)
  else
    (loop (visit conv f) (rounds s.results) s.results).map fun (seen, q) =>
      (.read seen, { s with results := if seen.thrown then q else q.reset })

/-- A call gives nothing when it reads behind the last result, or through an invalid iterator. -/
def call (s : PGSQLStatement ρ) : Call ρ α → Option (Result α × PGSQLStatement ρ)
  | .execute server =>
      let (thrown, s) := s.execute relocates server
      some (.executed thrown, s)
  | .one conv => s.readOne conv
  | .all conv => s.readAll conv
  | .pipe conv f => s.pipe conv f

end PGSQLStatement

/-! ## What an execution leaves behind -/

/-- A round ends the loop with an error. -/
def Round.fails : Round ρ → Bool
  | .waitFailed => true
  | .consumeFailed => true
  | .result r => r.status ∈ [.EMPTY_QUERY, .BAD_RESPONSE, .FATAL_ERROR]

/-- The rows that come with a round. -/
def Round.rows : Round ρ → List ρ
  | .result r => if r.status ∈ [.TUPLES_OK, .SINGLE_TUPLE] then r.rows else []
  | _ => []

namespace Server

/-- A query fails: its status is no success. -/
def fails (async : Bool) (server : Server ρ) : Bool :=
  !async && server.result.status ∉ [.TUPLES_OK, .COMMAND_OK]

/-- An asynchronous query throws. -/
def throws (async : Bool) (server : Server ρ) : Bool :=
  async && !(server.sent && server.flushed && !server.rounds.any Round.fails)

/-- The rows of the results, in the order in which they have come. -/
def sets (async : Bool) (server : Server ρ) : List (List ρ) :=
  (if async then
    if server.sent ∧ server.flushed then
      (server.rounds.takeWhile fun round => !round.fails).map Round.rows
    else []
  else if server.fails async then []
  else [server.result.rows]).filter (· ≠ [])

end Server

/-! ## What calls should do -/

/-- The rows in their order, each exactly once, unless an exception ends the reading. -/
def seen (visit : ρ → List α × Bool) : List ((Nat × Nat) × ρ) → PGSQLStatement.Seen α
  | [] => ⟨[], [], false⟩
  | (p, r) :: rest =>
      if (visit r).2 then ⟨[p], (visit r).1, true⟩ else (seen visit rest).cons p (visit r).1

namespace PGSQLStatement

/-- A statement with what its last execution was answered. -/
abbrev Used (ρ : Type) : Type := PGSQLStatement ρ × Option (Server ρ)

/-- The results of the last execution. -/
def lastSets (x : Used ρ) : List (List ρ) := (x.2.map (·.sets x.1.async)).getD []

/-- Whether the last execution has failed. -/
def lastFails (x : Used ρ) : Bool := (x.2.map (·.fails x.1.async)).getD false

/-- The last execution after a call. -/
def lastOf (last : Option (Server ρ)) : Call ρ α → Option (Server ρ)
  | .execute server => some server
  | _ => last

def next (x : Used ρ) (c : Call ρ α) : Option (Used ρ) :=
  (x.1.call relocates c).map fun (_, s) => (s, lastOf x.2 c)

/-- What can be seen of a call when nothing but the last execution matters. -/
def expected (x : Used ρ) : Call ρ α → Result α
  | .execute server => .executed (server.throws x.1.async)
  | .one conv => .read (seen (visit conv fun _ => true) ((numbered (lastSets x)).take 1))
  | .all conv => .read (seen (visit conv fun _ => true) (numbered (lastSets x)))
  | .pipe conv f => .read (seen (visit conv f) (numbered (lastSets x)))

/-- `status()` and `empty()` tell about the last execution. -/
structure Tells (x : Used ρ) : Prop where
  status : x.1.status = !lastFails x
  empty : x.1.empty = (lastSets x).isEmpty

/-- A call is right, and what can be asked for after it. -/
def Right (x : Used ρ) (c : Call ρ α) : Prop :=
  ∃ s, x.1.call relocates c = some (expected x c, s) ∧ Tells (s, lastOf x.2 c)

/-- The condition of a call: no execution has failed before, unless this one fails too; a reading
begins at the first row, with an iterator that is valid. -/
def Meets (x : Used ρ) : Call ρ α → Prop
  | .execute server => x.1.results.failure = true → server.fails x.1.async = true
  | _ => x.1.empty = true ∨
      x.1.results.valid = true ∧ x.1.results.it = 0 ∧ x.1.results.row = 0

/-- The flag and the results are those of the last execution. -/
structure Follows (x : Used ρ) : Prop where
  failure : x.1.results.failure = lastFails x
  sets : x.1.results.sets = lastSets x

end PGSQLStatement

end

variable {relocates : Nat → Bool}

/-! ## Executions -/

theorem sets_add (q : pgsql_result ρ) (rows : List ρ) :
    (q.add relocates rows).sets = q.sets ++ [rows].filter (· ≠ []) := by
  unfold pgsql_result.add
  by_cases h : rows = []
  · rw [dif_pos h]
    simp [h]
  · rw [dif_neg h]
    simp [pgsql_result.sets, h]

theorem add_frame (q : pgsql_result ρ) (rows : List ρ) :
    (q.add relocates rows).failure = q.failure ∧ (q.add relocates rows).it = q.it ∧
      (q.add relocates rows).row = q.row := by
  unfold pgsql_result.add
  split
  · exact ⟨rfl, rfl, rfl⟩
  · exact ⟨rfl, rfl, rfl⟩

theorem add_nil (q : pgsql_result ρ) : q.add relocates [] = q := rfl

/-- A round of the loop: an error ends it, and every other result is added if it has rows. -/
theorem collect_cons (round : Round ρ) (rounds : List (Round ρ)) (q : pgsql_result ρ) :
    collect relocates (round :: rounds) q =
      if round.fails then (true, q) else collect relocates rounds (q.add relocates round.rows) := by
  cases round with
  | waitFailed => rfl
  | consumeFailed => rfl
  | result r => cases hs : r.status <;> simp [collect, Round.fails, Round.rows, hs, add_nil]

/-- The results that have come before an error are kept. -/
theorem collect_sets (rounds : List (Round ρ)) (q : pgsql_result ρ) :
    (collect relocates rounds q).2.sets = q.sets ++
      ((rounds.takeWhile fun round => !round.fails).map Round.rows).filter (· ≠ []) := by
  induction rounds generalizing q with
  | nil => exact (List.append_nil _).symm
  | cons round rounds ih =>
      rw [collect_cons]
      by_cases hfails : round.fails = true
      · rw [if_pos hfails, List.takeWhile_cons_of_neg (by simpa using hfails)]
        exact (List.append_nil _).symm
      · rw [if_neg hfails, List.takeWhile_cons_of_pos (by simpa using hfails), ih, sets_add,
          List.map_cons, List.append_assoc, ← List.filter_append, List.singleton_append]

theorem collect_fst (rounds : List (Round ρ)) (q : pgsql_result ρ) :
    (collect relocates rounds q).1 = rounds.any Round.fails := by
  induction rounds generalizing q with
  | nil => rfl
  | cons round rounds ih =>
      rw [collect_cons, List.any_cons]
      by_cases hfails : round.fails = true
      · rw [if_pos hfails, hfails, Bool.true_or]
      · rw [if_neg hfails, ih, Bool.eq_false_iff.mpr hfails, Bool.false_or]

theorem collect_frame (rounds : List (Round ρ)) (q : pgsql_result ρ) :
    (collect relocates rounds q).2.failure = q.failure ∧ (collect relocates rounds q).2.it = q.it ∧
      (collect relocates rounds q).2.row = q.row := by
  induction rounds generalizing q with
  | nil => exact ⟨rfl, rfl, rfl⟩
  | cons round rounds ih =>
      rw [collect_cons]
      by_cases hfails : round.fails = true
      · rw [if_pos hfails]
        exact ⟨rfl, rfl, rfl⟩
      · obtain ⟨hfailure, hit, hrow⟩ := add_frame q round.rows
        rw [if_neg hfails, ← hfailure, ← hit, ← hrow]
        exact ih _

namespace PGSQLStatement

/-- What an execution leaves, where `thrown` is whether it throws. -/
structure Executed (s : PGSQLStatement ρ) (server : Server ρ) (thrown : Bool)
    (s' : PGSQLStatement ρ) : Prop where
  thrown : thrown = server.throws s.async
  async : s'.async = s.async
  sets : s'.results.sets = server.sets s.async
  failure : s'.results.failure = (s.results.failure || server.fails s.async)
  start : s'.results.it = 0 ∧ s'.results.row = 0

theorem executed_async {s : PGSQLStatement ρ} (h : s.async = true) (server : Server ρ) :
    Executed s server (s.execute relocates server).1 (s.execute relocates server).2 := by
  have hfails : server.fails true = false := rfl
  -- results are collected only when the query has gone out
  by_cases hgone : server.sent = true ∧ server.flushed = true
  · obtain ⟨hsent, hflushed⟩ := hgone
    have hrun : s.execute relocates server = ((collect relocates server.rounds s.results.clear).1,
        { s with results := (collect relocates server.rounds s.results.clear).2 }) := by
      unfold execute
      rw [if_pos h, if_pos hsent, if_pos hflushed]
    obtain ⟨hfailure, hit, hrow⟩ := collect_frame server.rounds s.results.clear
    rw [hrun]
    refine ⟨?_, rfl, ?_, ?_, hit, hrow⟩
    · rw [collect_fst, Server.throws, h, hsent, hflushed]
      simp
    · rw [collect_sets, Server.sets, h, if_pos rfl, if_pos ⟨hsent, hflushed⟩]
      rfl
    · rw [h, hfails, Bool.or_false]
      exact hfailure
  · have hrun : s.execute relocates server = (true, { s with results := s.results.clear }) := by
      unfold execute
      rw [if_pos h]
      by_cases hsent : server.sent = true
      · rw [if_pos hsent, if_neg fun hflushed => hgone ⟨hsent, hflushed⟩]
      · rw [if_neg hsent]
    rw [hrun]
    refine ⟨?_, rfl, ?_, ?_, rfl, rfl⟩
    · rw [← Bool.and_eq_true, Bool.not_eq_true] at hgone
      rw [Server.throws, h, hgone]
      rfl
    · rw [Server.sets, h, if_pos rfl, if_neg hgone]
      rfl
    · rw [h, hfails, Bool.or_false]
      rfl

theorem executed_sync {s : PGSQLStatement ρ} (h : s.async = false) (server : Server ρ) :
    Executed s server (s.execute relocates server).1 (s.execute relocates server).2 := by
  have hsync : ¬ s.async = true := by simp [h]
  by_cases hbad : server.result.status ≠ .TUPLES_OK ∧ server.result.status ≠ .COMMAND_OK
  · have hfails : server.fails false = true := by simpa [Server.fails] using hbad
    have hrun : s.execute relocates server = (false, { s with results := s.results.clear.fail }) := by
      unfold execute
      rw [if_neg hsync, if_pos hbad]
    rw [hrun]
    refine ⟨by rw [h]; rfl, rfl, ?_, ?_, rfl, rfl⟩
    · rw [h, Server.sets, if_neg Bool.false_ne_true, if_pos hfails]
      rfl
    · rw [h, hfails, Bool.or_true]
      rfl
  · have hfails : server.fails false = false := by
      by_cases htuples : server.result.status = .TUPLES_OK
      · simp [Server.fails, htuples]
      · have hcommand : server.result.status = .COMMAND_OK := by
          by_contra hne
          exact hbad ⟨htuples, hne⟩
        simp [Server.fails, hcommand]
    -- a result without rows is not kept
    have hrun : s.execute relocates server =
        (false, { s with results := s.results.clear.add relocates server.result.rows }) := by
      unfold execute
      rw [if_neg hsync, if_neg hbad]
      by_cases hrows : server.result.rows.length = 0
      · rw [if_pos hrows, List.length_eq_zero_iff.mp hrows, add_nil]
      · rw [if_neg hrows]
    obtain ⟨hfailure, hit, hrow⟩ := add_frame s.results.clear server.result.rows
    rw [hrun]
    refine ⟨by rw [h]; rfl, rfl, ?_, ?_, hit, hrow⟩
    · rw [h, Server.sets, if_neg Bool.false_ne_true, if_neg (by simp [hfails]), sets_add]
      rfl
    · rw [h, hfails, Bool.or_false]
      exact hfailure

/-- **What an execution does.** Only the flag can be left from before. -/
theorem executed (s : PGSQLStatement ρ) (server : Server ρ) :
    Executed s server (s.execute relocates server).1 (s.execute relocates server).2 := by
  cases h : s.async with
  | true => exact executed_async h server
  | false => exact executed_sync h server

/-! ## Readings -/

theorem current_eq {q : pgsql_result ρ} (h : q.valid = true) :
    q.current = item q.sets (q.it, q.row) := by
  unfold pgsql_result.current item pgsql_result.sets
  rw [if_pos h, List.getElem?_map]
  cases q.results[q.it]? with
  | none => rfl
  | some rows => rfl

theorem valid_of_current {q : pgsql_result ρ} {r : ρ} (h : q.current = some r) : q.valid = true := by
  by_contra hinvalid
  rw [pgsql_result.current, if_neg hinvalid] at h
  nomatch h

/-- `next()` goes to the next place, and says whether it is not the end. -/
theorem next_eq {q : pgsql_result ρ} {r : ρ} (h : item q.sets (q.it, q.row) = some r) :
    q.next = (decide ((Cursor.next q.sets (q.it, q.row)).1 ≠ q.sets.length),
      { q with
        it := (Cursor.next q.sets (q.it, q.row)).1
        row := (Cursor.next q.sets (q.it, q.row)).2 }) := by
  obtain ⟨set, hset, -⟩ := Option.bind_eq_some_iff.mp h
  obtain ⟨rows, hrows, rfl⟩ : ∃ rows, q.results[q.it]? = some rows ∧ rows.val = set := by
    rw [pgsql_result.sets, List.getElem?_map] at hset
    exact Option.map_eq_some_iff.mp hset
  have hlength : q.sets.length = q.results.length := List.length_map _
  unfold pgsql_result.next Cursor.next
  dsimp only
  rw [hrows, hset, hlength]
  dsimp only
  by_cases hlast : rows.val.length ≤ q.row + 1
  · simp only [if_pos hlast]
  · simp only [if_neg hlast]

theorem sets_ne_nil (q : pgsql_result ρ) : ∀ rows ∈ q.sets, rows ≠ [] := by
  intro rows hrows
  obtain ⟨kept, -, rfl⟩ := List.mem_map.mp hrows
  exact kept.property

theorem next_frame (q : pgsql_result ρ) :
    q.next.2.results = q.results ∧ q.next.2.failure = q.failure := by
  unfold pgsql_result.next
  split
  · exact ⟨rfl, rfl⟩
  · dsimp only
    split
    · exact ⟨rfl, rfl⟩
    · exact ⟨rfl, rfl⟩

/-- The loop moves nothing but the iterator and the row number. -/
theorem loop_frame {visit : ρ → List α × Bool} {fuel : Nat} {q q' : pgsql_result ρ} {seen : Seen α}
    (h : loop visit fuel q = some (seen, q')) : q'.results = q.results ∧ q'.failure = q.failure := by
  -- on the rounds; a visit that throws ends the loop in front of `next`
  induction fuel generalizing q q' seen with
  | zero => nomatch h
  | succ fuel ih =>
      rw [loop] at h
      cases hcurrent : q.current with
      | none =>
          rw [hcurrent] at h
          nomatch h
      | some r =>
          rw [hcurrent] at h
          dsimp only at h
          have hnext := next_frame q
          by_cases hthrown : (visit r).2 = true
          · rw [if_pos hthrown] at h
            rw [← (Prod.mk.inj (Option.some.inj h)).2]
            exact ⟨rfl, rfl⟩
          · rw [if_neg hthrown] at h
            split at h
            · next q'' heq =>
                rw [heq] at hnext
                rw [← (Prod.mk.inj (Option.some.inj h)).2]
                exact hnext
            · next q'' heq =>
                rw [heq] at hnext
                obtain ⟨⟨rest, q₃⟩, hloop, hq⟩ := Option.map_eq_some_iff.mp h
                obtain ⟨hresults, hfailure⟩ := ih hloop
                rw [← (Prod.mk.inj hq).2]
                exact ⟨hresults.trans hnext.1, hfailure.trans hnext.2⟩

/-- The loop sees what remains from its place on. -/
theorem loop_eq (visit : ρ → List α × Bool) {q : pgsql_result ρ} {r : ρ}
    (hvalid : q.valid = true) (h : item q.sets (q.it, q.row) = some r) {fuel : Nat}
    (hfuel : (remaining q.sets (q.it, q.row)).length ≤ fuel) :
    ∃ q', loop visit fuel q = some (seen visit (remaining q.sets (q.it, q.row)), q') := by
  -- on the rounds; the rows that remain become one fewer in each
  induction fuel generalizing q r with
  | zero =>
      rw [Cursor.remaining_cons h, List.length_cons] at hfuel
      omega
  | succ fuel ih =>
      rw [Cursor.remaining_cons h, List.length_cons] at hfuel
      rw [Cursor.remaining_cons h, loop, current_eq hvalid, h]
      dsimp only
      rw [seen]
      by_cases hthrown : (visit r).2 = true
      · rw [if_pos hthrown, if_pos hthrown]
        exact ⟨q, rfl⟩
      · rw [if_neg hthrown, if_neg hthrown, next_eq h]
        by_cases hend : (Cursor.next q.sets (q.it, q.row)).1 < q.sets.length
        · obtain ⟨r', hr'⟩ := Cursor.exists_item_next (sets_ne_nil q) h hend
          rw [decide_eq_true (Nat.ne_of_lt hend)]
          dsimp only
          obtain ⟨q', hloop⟩ := ih (q := { q with
            it := (Cursor.next q.sets (q.it, q.row)).1
            row := (Cursor.next q.sets (q.it, q.row)).2 }) hvalid hr' (Nat.le_of_succ_le_succ hfuel)
          refine ⟨q', ?_⟩
          rw [hloop]
          rfl
        -- behind the last row `next` returns false and nothing remains
        · have hlast : (Cursor.next q.sets (q.it, q.row)).1 = q.sets.length :=
            Nat.le_antisymm (Cursor.next_fst_le h) (Nat.le_of_not_lt hend)
          rw [decide_eq_false (not_not.mpr hlast), Cursor.remaining_of_end (Nat.le_of_eq hlast.symm)]
          simp [seen, Seen.cons]

/-- A reading sees the row first at which it begins. -/
theorem places_loop {visit : ρ → List α × Bool} {fuel : Nat} {q q' : pgsql_result ρ}
    {seen : Seen α} (h : loop visit fuel q = some (seen, q')) :
    seen.places.head? = some (q.it, q.row) := by
  cases fuel with
  | zero => nomatch h
  | succ fuel =>
      rw [loop] at h
      cases hcurrent : q.current with
      | none =>
          rw [hcurrent] at h
          nomatch h
      | some r =>
          rw [hcurrent] at h
          dsimp only at h
          split at h
          · rw [← (Prod.mk.inj (Option.some.inj h)).1]
            rfl
          · split at h
            · rw [← (Prod.mk.inj (Option.some.inj h)).1]
              rfl
            · obtain ⟨⟨rest, q''⟩, -, heq⟩ := Option.map_eq_some_iff.mp h
              rw [← (Prod.mk.inj heq).1]
              rfl

theorem valid_of_loop {visit : ρ → List α × Bool} {fuel : Nat} {q q' : pgsql_result ρ} {seen : Seen α}
    (h : loop visit fuel q = some (seen, q')) : q.valid = true := by
  cases fuel with
  | zero => nomatch h
  | succ fuel =>
      rw [loop] at h
      cases hcurrent : q.current with
      | none =>
          rw [hcurrent] at h
          nomatch h
      | some r => exact valid_of_current hcurrent

theorem places_seen (visit : ρ → List α × Bool) (p : Nat × Nat) (r : ρ)
    (rest : List ((Nat × Nat) × ρ)) : (seen visit ((p, r) :: rest)).places.head? = some p := by
  rw [seen]
  split
  · rfl
  · rfl

/-- A loop that begins at the first row sees every row. -/
theorem loop_start (visit : ρ → List α × Bool) {q : pgsql_result ρ} (hne : q.sets ≠ [])
    (hvalid : q.valid = true) (hstart : q.it = 0 ∧ q.row = 0) :
    ∃ q', loop visit (rounds q) q = some (seen visit (numbered q.sets), q') := by
  have hplace : (q.it, q.row) = (0, 0) := by rw [hstart.1, hstart.2]
  have hall : remaining q.sets (q.it, q.row) = numbered q.sets := by
    rw [hplace, Cursor.remaining_start]
  have hfuel : (remaining q.sets (q.it, q.row)).length ≤ rounds q := by
    rw [hall, Cursor.length_numbered]
    exact Nat.le_refl _
  obtain ⟨r, hr⟩ := Cursor.exists_item_start (sets_ne_nil q) hne
  rw [← hplace] at hr
  rw [← hall]
  exact loop_eq visit hvalid hr hfuel

/-! ## Calls -/

theorem sets_of_fails {async : Bool} {server : Server ρ} (h : server.fails async = true) :
    server.sets async = [] := by
  have hsync : ¬ async = true := by
    rintro rfl
    nomatch h
  rw [Server.sets, if_neg hsync, if_pos h]
  rfl

theorem lastSets_of_fails {x : Used ρ} (h : lastFails x = true) : lastSets x = [] := by
  obtain ⟨s, last⟩ := x
  cases last with
  | none => rfl
  | some server => exact sets_of_fails h

theorem isEmpty_sets (q : pgsql_result ρ) : q.results.isEmpty = q.sets.isEmpty := by
  rw [pgsql_result.sets, List.isEmpty_map]

theorem empty_of_follows {x : Used ρ} (h : Follows x) : x.1.empty = (lastSets x).isEmpty := by
  unfold empty pgsql_result.empty
  rw [isEmpty_sets, h.failure, h.sets]
  cases hfails : lastFails x with
  | false => rfl
  | true =>
      rw [lastSets_of_fails hfails]
      rfl

theorem tells_of_follows {x : Used ρ} (h : Follows x) : Tells x :=
  ⟨congrArg not h.failure, empty_of_follows h⟩

theorem follows_new (async : Bool) : Follows ((new async, none) : Used ρ) := ⟨rfl, rfl⟩

/-- What does not change the flag and the results leaves those of the last execution. -/
theorem follows_frame {x : Used ρ} (h : Follows x) {q : pgsql_result ρ}
    (hresults : q.results = x.1.results.results) (hfailure : q.failure = x.1.results.failure) :
    Follows (({ x.1 with results := q }, x.2) : Used ρ) :=
  ⟨hfailure.trans h.failure, (congrArg (fun results => results.map (·.val)) hresults).trans h.sets⟩

/-- The flag is the one of the execution unless it was set before. -/
theorem follows_execute {x : Used ρ} {server : Server ρ}
    (h : x.1.results.failure = true → server.fails x.1.async = true) :
    Follows (((x.1.execute relocates server).2, some server) : Used ρ) := by
  have hexec : Executed x.1 server (x.1.execute relocates server).1
      (x.1.execute relocates server).2 := executed x.1 server
  constructor
  · have hlast : lastFails (((x.1.execute relocates server).2, some server) : Used ρ) =
        server.fails x.1.async := congrArg server.fails hexec.async
    rw [hlast]
    refine hexec.failure.trans ?_
    cases hfailure : x.1.results.failure with
    | false => rfl
    | true => rw [h hfailure, Bool.true_or]
  · exact hexec.sets.trans (congrArg server.sets hexec.async.symm)

theorem right_execute_iff (x : Used ρ) (server : Server ρ) :
    Right relocates x (Call.execute server : Call ρ α) ↔ Meets x (Call.execute server : Call ρ α) := by
  have hexec : Executed x.1 server (x.1.execute relocates server).1
      (x.1.execute relocates server).2 := executed x.1 server
  have hcall : x.1.call relocates (Call.execute server : Call ρ α) =
      some (.executed (x.1.execute relocates server).1, (x.1.execute relocates server).2) := rfl
  constructor
  · rintro ⟨s, hs, htells⟩ hfailure
    rw [hcall] at hs
    obtain ⟨-, rfl⟩ := Prod.mk.inj (Option.some.inj hs)
    have hstatus : (!(x.1.execute relocates server).2.results.failure) =
        !server.fails (x.1.execute relocates server).2.async := htells.status
    rw [hexec.failure, hfailure, hexec.async] at hstatus
    simpa using hstatus
  · intro hmeets
    refine ⟨(x.1.execute relocates server).2, ?_, tells_of_follows (follows_execute hmeets)⟩
    rw [hcall, hexec.thrown]
    rfl

/-- There is nothing to see when there is nothing. -/
theorem right_of_empty {x : Used ρ} (h : Follows x) {c : Call ρ α}
    (hcall : x.1.call relocates c = some (.read ⟨[], [], false⟩, x.1)) (hlast : lastOf x.2 c = x.2)
    (hexpected : expected x c = .read ⟨[], [], false⟩) : Right relocates x c := by
  refine ⟨x.1, ?_, ?_⟩
  · rw [hcall, hexpected]
  · rw [hlast]
    exact tells_of_follows h

theorem sets_eq_nil_iff {x : Used ρ} (h : Follows x) : lastSets x = [] ↔ x.1.empty = true := by
  rw [empty_of_follows h, List.isEmpty_iff]

/-- The rows that are there have a first one. -/
theorem exists_first {x : Used ρ} (h : Follows x) (hempty : ¬ x.1.empty = true) :
    ∃ r rest, item x.1.results.sets (0, 0) = some r ∧
      numbered (lastSets x) = ((0, 0), r) :: rest := by
  have hne : x.1.results.sets ≠ [] := by
    rw [h.sets]
    exact fun hnil => hempty ((sets_eq_nil_iff h).mp hnil)
  obtain ⟨r, hr⟩ := Cursor.exists_item_start (sets_ne_nil x.1.results) hne
  rw [← h.sets, ← Cursor.remaining_start, Cursor.remaining_cons hr]
  exact ⟨r, _, hr, rfl⟩

/-- A reading that does not begin at the first row is not right. -/
theorem not_right_of_places {x : Used ρ} {c : Call ρ α} {expectedSeen : Seen α}
    (hexpected : expected x c = .read expectedSeen)
    (hstart : expectedSeen.places.head? = some (0, 0))
    (hcall : ∀ r s, x.1.call relocates c = some (.read r, s) →
      r.places.head? = some (x.1.results.it, x.1.results.row))
    (hne : ¬ (x.1.results.it = 0 ∧ x.1.results.row = 0)) : ¬ Right relocates x c := by
  rintro ⟨s, hs, -⟩
  rw [hexpected] at hs
  have hplace := (hcall _ _ hs).symm.trans hstart
  exact hne (Prod.mk.inj (Option.some.inj hplace))

/-- A reading that goes through all rows, where `after` is what comes behind the loop. -/
structure Loops (relocates : Nat → Bool) (x : Used ρ) (c : Call ρ α) (visit : ρ → List α × Bool)
    (after : Seen α → pgsql_result ρ → pgsql_result ρ) : Prop where
  call : x.1.call relocates c = if x.1.empty then some (.read ⟨[], [], false⟩, x.1) else
    (loop visit (rounds x.1.results) x.1.results).map fun (r, q) =>
      (.read r, { x.1 with results := after r q })
  last : lastOf x.2 c = x.2
  expected : expected x c = .read (seen visit (numbered (lastSets x)))
  frame : ∀ r q, (after r q).results = q.results ∧ (after r q).failure = q.failure

theorem loops_all (x : Used ρ) (conv : ρ → Read α) :
    Loops relocates x (.all conv) (visit conv fun _ => true) (fun _ q => q) :=
  ⟨rfl, rfl, rfl, fun _ _ => ⟨rfl, rfl⟩⟩

theorem loops_pipe (x : Used ρ) (conv : ρ → Read α) (f : α → Bool) :
    Loops relocates x (.pipe conv f) (visit conv f) (fun r q => if r.thrown then q else q.reset) := by
  refine ⟨rfl, rfl, rfl, fun r q => ?_⟩
  split
  · exact ⟨rfl, rfl⟩
  · exact ⟨rfl, rfl⟩

section

variable {x : Used ρ} {c : Call ρ α} {visit : ρ → List α × Bool}
  {after : Seen α → pgsql_result ρ → pgsql_result ρ}

/-- Such a reading keeps the results of the last execution. -/
theorem follows_loop (hloops : Loops relocates x c visit after) (h : Follows x) {r : Result α}
    {s : PGSQLStatement ρ} (hcall : x.1.call relocates c = some (r, s)) : Follows ((s, x.2) : Used ρ) := by
  rw [hloops.call] at hcall
  split at hcall
  · rw [← (Prod.mk.inj (Option.some.inj hcall)).2]
    exact h
  · obtain ⟨⟨seen, q⟩, hloop, heq⟩ := Option.map_eq_some_iff.mp hcall
    obtain ⟨hresults, hfailure⟩ := loop_frame hloop
    obtain ⟨hq, hqfailure⟩ := hloops.frame seen q
    rw [← (Prod.mk.inj heq).2]
    exact follows_frame h (hq.trans hresults) (hqfailure.trans hfailure)

theorem right_loop_iff (hloops : Loops relocates x c visit after) (h : Follows x) :
    Right relocates x c ↔ x.1.empty = true ∨
      x.1.results.valid = true ∧ x.1.results.it = 0 ∧ x.1.results.row = 0 := by
  by_cases hempty : x.1.empty = true
  · refine iff_of_true ?_ (.inl hempty)
    have hcall := hloops.call
    rw [if_pos hempty] at hcall
    apply right_of_empty h hcall hloops.last
    rw [hloops.expected, (sets_eq_nil_iff h).mpr hempty]
    rfl
  · have hcall := hloops.call
    rw [if_neg hempty] at hcall
    rw [or_iff_right hempty]
    obtain ⟨r, rest, -, hfirst⟩ := exists_first h hempty
    constructor
    -- a loop that begins elsewhere sees another row first
    · intro hright
      have hvalid : x.1.results.valid = true := by
        obtain ⟨s, hs, -⟩ := hright
        rw [hcall] at hs
        obtain ⟨⟨r', q⟩, hloop, -⟩ := Option.map_eq_some_iff.mp hs
        exact valid_of_loop hloop
      refine ⟨hvalid, ?_⟩
      by_contra hne
      refine not_right_of_places hloops.expected ?_ ?_ hne hright
      · rw [hfirst]
        exact places_seen visit (0, 0) r rest
      · intro r s hs
        rw [hcall] at hs
        obtain ⟨⟨r', q⟩, hloop, heq⟩ := Option.map_eq_some_iff.mp hs
        rw [← Result.read.inj (Prod.mk.inj heq).1]
        exact places_loop hloop
    -- from the first row it sees all of them
    · rintro ⟨hvalid, hstart⟩
      have hne : x.1.results.sets ≠ [] := by
        rw [h.sets]
        exact fun hnil => hempty ((sets_eq_nil_iff h).mp hnil)
      obtain ⟨q, hloop⟩ := loop_start visit hne hvalid hstart
      rw [hloop, h.sets, Option.map_some] at hcall
      dsimp only at hcall
      refine ⟨_, hcall.trans (by rw [hloops.expected]), ?_⟩
      rw [hloops.last]
      exact tells_of_follows (follows_loop hloops h hcall)

end

theorem right_one_iff {x : Used ρ} (h : Follows x) (conv : ρ → Read α) :
    Right relocates x (.one conv) ↔ Meets x (.one conv) := by
  unfold Meets
  by_cases hempty : x.1.empty = true
  · refine iff_of_true ?_ (.inl hempty)
    have hcall : x.1.call relocates (.one conv) = some (.read ⟨[], [], false⟩, x.1) := if_pos hempty
    apply right_of_empty h hcall rfl
    rw [expected, (sets_eq_nil_iff h).mpr hempty]
    rfl
  · rw [or_iff_right hempty]
    obtain ⟨r, rest, hitem, hfirst⟩ := exists_first h hempty
    have hcall : x.1.call relocates (.one conv) = x.1.results.current.map fun r =>
        (.read ⟨[(x.1.results.it, x.1.results.row)], (visit conv (fun _ => true) r).1,
          (visit conv (fun _ => true) r).2⟩, x.1) := if_neg hempty
    constructor
    -- a row is read, and it is the first only at the start
    · intro hright
      have hvalid : x.1.results.valid = true := by
        obtain ⟨s, hs, -⟩ := hright
        rw [hcall] at hs
        obtain ⟨row, hrow, -⟩ := Option.map_eq_some_iff.mp hs
        exact valid_of_current hrow
      refine ⟨hvalid, ?_⟩
      by_contra hne
      refine not_right_of_places rfl ?_ ?_ hne hright
      · rw [hfirst]
        exact places_seen _ (0, 0) r []
      · intro r s hs
        rw [hcall] at hs
        obtain ⟨row, -, heq⟩ := Option.map_eq_some_iff.mp hs
        rw [← Result.read.inj (Prod.mk.inj heq).1]
        rfl
    · rintro ⟨hvalid, hit, hrow⟩
      have hcurrent : x.1.results.current = some r := by
        rw [current_eq hvalid, hit, hrow]
        exact hitem
      refine ⟨x.1, ?_, tells_of_follows h⟩
      rw [hcall, hcurrent, expected, hfirst, hit, hrow, List.take_succ_cons, List.take_zero, seen]
      cases hthrown : (visit conv (fun _ => true) r).2 with
      | true => simp [hthrown]
      | false => simp [hthrown, seen, Seen.cons]

theorem right_iff {x : Used ρ} (h : Follows x) (c : Call ρ α) : Right relocates x c ↔ Meets x c := by
  cases c with
  | execute server => exact right_execute_iff x server
  | one conv => exact right_one_iff h conv
  | all conv => exact right_loop_iff (loops_all x conv) h
  | pipe conv f => exact right_loop_iff (loops_pipe x conv f) h

/-- A right call leaves the flag and the results of the last execution. -/
theorem follows_next {x x' : Used ρ} (h : Follows x) {c : Call ρ α} (hright : Right relocates x c)
    (hnext : next relocates x c = some x') : Follows x' := by
  obtain ⟨⟨r, s⟩, hcall, rfl⟩ := Option.map_eq_some_iff.mp hnext
  cases c with
  | execute server =>
      rw [← (Prod.mk.inj (Option.some.inj hcall)).2]
      exact follows_execute ((right_execute_iff x server).mp hright)
  | one conv =>
      have hsame : s = x.1 := by
        have hread : x.1.readOne conv = some (r, s) := hcall
        unfold readOne at hread
        split at hread
        · exact (Prod.mk.inj (Option.some.inj hread)).2.symm
        · obtain ⟨row, -, heq⟩ := Option.map_eq_some_iff.mp hread
          exact (Prod.mk.inj heq).2.symm
      rw [hsame]
      exact h
  | all conv => exact follows_loop (loops_all x conv) h hcall
  | pipe conv f => exact follows_loop (loops_pipe x conv f) h hcall

/-- **Every call of a run behaves as after the last execution alone exactly when no execution that
succeeds comes after one that has failed, and every reading begins at the first row, with an iterator
that is valid.** -/
theorem reuse_iff (relocates : Nat → Bool) (async : Bool) (calls : List (Call ρ α)) :
    (∀ p ∈ StepMachine.inputs (next relocates) ((new async, none) : Used ρ) calls,
      Right relocates p.1 p.2) ↔
      ∀ p ∈ StepMachine.inputs (next relocates) ((new async, none) : Used ρ) calls, Meets p.1 p.2 :=
  StepMachine.forall_inputs_iff (fun _ c h => right_iff h c)
    (fun _ _ _ h hright hnext => follows_next h hright hnext) (follows_new async) calls

/-- The answer to a query: the rows, or an error. -/
private def answered (rows : Option (List Nat)) : Server Nat where
  result := ⟨if rows.isSome then .TUPLES_OK else .FATAL_ERROR, rows.getD []⟩
  sent := true
  flushed := true
  rounds := []

/-- After a query that has failed, the rows of the next one cannot be read; and the rows of a query are
not read twice into vectors, also where the iterators live. -/
theorem not_right_again :
    (¬ ∀ p ∈ StepMachine.inputs (next fun _ => false) ((new false, none) : Used Nat)
        [(Call.execute (answered none) : Call Nat Nat), .execute (answered (some [7]))],
      Right (fun _ => false) p.1 p.2) ∧
    ¬ ∀ p ∈ StepMachine.inputs (next fun _ => false) ((new false, none) : Used Nat)
        [.execute (answered (some [7])), .all .value, .all .value], Right (fun _ => false) p.1 p.2 := by
  constructor
  · intro h
    have hright := h _ (List.mem_cons_of_mem _ List.mem_cons_self)
    have hfails : (answered (some [7])).fails false = true :=
      (right_execute_iff _ _).mp hright rfl
    nomatch hfails
  · intro h
    -- the first reading has left the iterator at the end
    obtain ⟨s, hs, -⟩ := h _ (List.mem_cons_of_mem _ (List.mem_cons_of_mem _ List.mem_cons_self))
    nomatch hs

end PGSQLStatement

end Suil.Sql.Results
