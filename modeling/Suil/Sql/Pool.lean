import Suil.Lib.StepMachine

set_option autoImplicit false

/-! # The pool of connections

`PgSqlDb` (`pgsql.h`, `pgsql.cpp`) keeps connections that are not in use, the one that came back last at the
end, and takes from there. A coroutine finishes those that have expired, from the front; it gives way after
every hundred. Coroutines ask for connections, hold and put them back, in any order, and may be made to wait
in between. -/

namespace Suil.Sql

open StepMachine (visited inputs)

/-! ## The pool, its coroutine and its destructor -/

/-- `PgSqlDb::conn_handle_t`. A `PGconn` is the number of connections that there were before it. -/
structure conn_handle_t where
  conn : Nat
  alive : Int

/-- A `PgSqlConnection` that there is. Its `int refs` does not overflow. -/
structure PgSqlConnection where
  conn : Nat
  refs : Nat

/-- What `open` does. A connection that is refused is finished at once, and one that cannot be made
nonblocking is left behind by the exception. -/
inductive Opening where
  | opened
  | refused
  | raised

/-- Where the coroutine `cleanup` is: it waits for `notify`, has been sent it, or has given way in its inner
loop. There its iterator is at the front, as long as it is valid. -/
inductive Cleanup where
  | absent
  | waiting (expires deadline : Int)
  | notified (expires : Int)
  | pruning (t : Int) (valid : Bool)

/-- Where the destructor is: before it, at `notify << true`, in the loop behind that, or at its end. -/
inductive Closing where
  | inUse
  | notifying
  | awaiting
  | closed

/-- `PgSqlDb`, with the calls of `connection` that have given way, each with its `y`; what has been opened
and finished, and what is neither used nor finished any more. -/
structure PgSqlDb where
  async : Bool
  keep_alive : Int
  now : Int
  conns : List conn_handle_t
  cleaning : Bool
  cleanup : Cleanup
  closing : Closing
  connections : List PgSqlConnection
  yielded : List Nat
  opened : Nat
  finished : List Nat
  lost : List Nat
  undefined : Bool

namespace PgSqlDb

/-- `configure`. -/
def new (async : Bool) (expires now : Int) : PgSqlDb where
  async := async
  keep_alive := if 0 < expires ∧ expires < 3000 then 3000 else expires
  now := now
  conns := []
  cleaning := false
  cleanup := .absent
  closing := .inUse
  connections := []
  yielded := []
  opened := 0
  finished := []
  lost := []
  undefined := false

/-- `new Connection(conn, ..)`. -/
def handOut (s : PgSqlDb) (conn : Nat) : PgSqlDb :=
  { s with connections := s.connections ++ [⟨conn, 1⟩] }

/-- `open`, and what `connection` does with what it returns; `y` is for the next turn of the loop. -/
def tryOpen (s : PgSqlDb) (y : Nat) : Opening → Option PgSqlDb
  | .opened => some (handOut { s with opened := s.opened + 1 } s.opened)
  | .refused => some { s with yielded := s.yielded ++ [y] }
  | .raised =>
      if s.async then some { s with opened := s.opened + 1, lost := s.lost ++ [s.opened] } else none

/-- `pop_back` leaves an iterator to the last handle invalid. -/
def Cleanup.popped (conns : List conn_handle_t) : Cleanup → Cleanup
  | .pruning t valid => .pruning t (valid && conns.length != 1)
  | c => c

/-- `push_back` leaves every iterator invalid. -/
def Cleanup.pushed : Cleanup → Cleanup
  | .pruning t _ => .pruning t false
  | c => c

/-- The end of `connection`, without a connection from `open`: without one in the pool it throws. -/
def takeBack (s : PgSqlDb) : PgSqlDb :=
  match s.conns.getLast? with
  | some h =>
      handOut { s with conns := s.conns.dropLast, cleanup := Cleanup.popped s.conns s.cleanup } h.conn
  | none => s

/-- `connection`. -/
def connection (s : PgSqlDb) (o : Opening) : Option PgSqlDb :=
  if s.conns = [] then s.tryOpen 2 o else some s.takeBack

/-- `connection`, behind a `yield`. -/
def resume (s : PgSqlDb) (i : Nat) (o : Opening) : Option PgSqlDb :=
  match s.yielded[i]? with
  | none => none
  | some y =>
      let s := { s with yielded := s.yielded.eraseIdx i }
      if s.conns = [] ∧ y ≠ 0 then s.tryOpen (y - 1) o else some s.takeBack

/-- `db.notify[expires](1) | Void`, where a destructor may be waiting. -/
def await (s : PgSqlDb) (expires : Int) : PgSqlDb :=
  match s.closing with
  | .notifying => { s with closing := .awaiting, cleanup := .notified expires }
  | _ => { s with cleanup := .waiting expires (s.now + expires) }

/-- The start of `cleanup`, up to where it waits. -/
def schedule (s : PgSqlDb) : PgSqlDb :=
  if s.conns = [] then s else await { s with cleaning := true } (s.keep_alive + 5)

/-- `free`. -/
def free (s : PgSqlDb) (conn : Nat) : PgSqlDb :=
  if s.keep_alive ≠ 0 then
    let s := { s with
      conns := s.conns ++ [⟨conn, s.now + s.keep_alive⟩]
      cleanup := Cleanup.pushed s.cleanup }
    if s.cleaning = false ∧ 0 < s.keep_alive then s.schedule else s
  else { s with finished := s.finished ++ [conn] }

/-- `PgSqlConnection::get`. -/
def get (s : PgSqlDb) (i : Nat) : Option PgSqlDb :=
  match s.connections[i]? with
  | none => none
  | some c => some { s with connections := s.connections.set i { c with refs := c.refs + 1 } }

/-- `PgSqlConnection::put` and `close`: `destroy(false)`. -/
def put (s : PgSqlDb) (i : Nat) : Option PgSqlDb :=
  match s.connections[i]? with
  | none => none
  | some c =>
      if 0 < c.refs - 1 then
        some { s with connections := s.connections.set i { c with refs := c.refs - 1 } }
      else some (free { s with connections := s.connections.eraseIdx i } c.conn)

/-- The inner loop of `cleanup` up to where it gives way, if it does: what it finishes and what it leaves. -/
def prune (t : Int) : Nat → List conn_handle_t → List Nat × List conn_handle_t × Bool
  | 0, conns => ([], conns, true)
  | _ + 1, [] => ([], [], false)
  | n + 1, h :: conns =>
      if h.alive ≤ t then
        let (gone, left, yields) := prune t n conns
        (h.conn :: gone, left, yields)
      else ([], h :: conns, false)

/-- The condition of the outer loop. -/
def again (s : PgSqlDb) (expires : Int) : PgSqlDb :=
  if s.conns = [] then { s with cleaning := false, cleanup := .absent } else s.await expires

/-- What is behind the inner loop. -/
def settle (s : PgSqlDb) (t : Int) : PgSqlDb :=
  match s.conns with
  | [] => { s with cleaning := false, cleanup := .absent }
  | h :: _ => s.await (max (h.alive - t) 3000)

/-- The inner loop, with the time up to which it prunes. -/
def pass (s : PgSqlDb) (t : Int) : PgSqlDb :=
  let (gone, left, yields) := prune t 100 s.conns
  let s := { s with conns := left, finished := s.finished ++ gone }
  if yields then { s with cleanup := .pruning t true } else s.settle t

/-- `cleanup` goes on: when it has waited long enough, or where it gave way. -/
def clean (s : PgSqlDb) : Option PgSqlDb :=
  match s.cleanup with
  | .absent => none
  | .waiting _ deadline => if deadline ≤ s.now then some (s.pass (s.now + 500)) else none
  | .notified expires => some (s.again expires)
  | .pruning t true => some (s.pass t)
  | .pruning _ false => some { s with undefined := true }

/-- The end of the destructor. -/
def finishAll (s : PgSqlDb) : PgSqlDb :=
  { s with conns := [], finished := s.finished ++ s.conns.map (·.conn), closing := .closed }

/-- The destructor goes on. -/
def destruct (s : PgSqlDb) : Option PgSqlDb :=
  match s.closing with
  | .inUse =>
      if s.cleaning then
        match s.cleanup with
        | .waiting expires _ => some { s with closing := .awaiting, cleanup := .notified expires }
        | _ => some { s with closing := .notifying }
      else some s.finishAll
  | .awaiting => if s.cleaning then none else some s.finishAll
  | .notifying | .closed => none

end PgSqlDb

/-- What happens next; calls on a connection have its number. -/
inductive Event where
  | tick (d : Nat)
  | connection (o : Opening)
  | resume (i : Nat) (o : Opening)
  | get (i : Nat)
  | put (i : Nat)
  | clean
  | destruct

namespace PgSqlDb

/-- A step. There is none when the database is gone, or when a coroutine has used an iterator that is not
valid, which takes a hundred handles in the pool: a run ends at what is undefined. -/
def step (s : PgSqlDb) (e : Event) : Option PgSqlDb :=
  match s.undefined, s.closing with
  | true, _ | _, .closed => none
  | false, _ =>
      match e with
      | .tick d => some { s with now := s.now + d }
      | .connection o => s.connection o
      | .resume i o => s.resume i o
      | .get i => s.get i
      | .put i => s.put i
      | .clean => s.clean
      | .destruct => s.destruct

/-! ## Where the connections are -/

/-- What the pool, the users and `PQfinish` have, and what is lost. -/
def places (s : PgSqlDb) : List Nat :=
  s.conns.map (·.conn) ++ s.connections.map (·.conn) ++ s.finished ++ s.lost

/-- What every step keeps; inside a step a connection may be on its way. -/
structure Sound (loose : List Nat) (s : PgSqlDb) : Prop where
  accounted : (loose ++ s.places).Perm (List.range s.opened)
  held : ∀ c ∈ s.connections, 0 < c.refs
  ordered : s.conns.Pairwise fun h h' => h.alive ≤ h'.alive
  recent : ∀ h ∈ s.conns, h.alive ≤ s.now + s.keep_alive
  cleaned : s.cleaning = true ↔ s.cleanup ≠ .absent
  covered : 0 < s.keep_alive → s.conns ≠ [] → s.cleaning = true

theorem sound_new (async : Bool) (expires now : Int) : Sound [] (new async expires now) where
  accounted := .nil
  held := nofun
  ordered := .nil
  recent := nofun
  cleaned := by simp [new]
  covered := fun _ h => absurd rfl h

variable {s s' : PgSqlDb} {loose : List Nat}

/-- A permutation is shown by counting. -/
private theorem accounted_of_count {t : PgSqlDb} {loose' : List Nat} (h : Sound loose s)
    (ho : t.opened = s.opened) (hcount : ∀ n, (loose' ++ t.places).count n = (loose ++ s.places).count n) :
    (loose' ++ t.places).Perm (List.range t.opened) := by
  rw [ho]
  exact (List.perm_iff_count.mpr hcount).trans h.accounted

theorem Sound.handOut {conn : Nat} (h : Sound [conn] s) : Sound [] (s.handOut conn) where
  accounted := by
    refine accounted_of_count h rfl fun n => ?_
    simp only [PgSqlDb.handOut, places, List.map_append, List.map_cons, List.map_nil, List.count_append,
      List.count_nil]
    omega
  held := by
    intro c hc
    rcases List.mem_append.mp hc with hc | hc
    · exact h.held c hc
    · rw [List.mem_singleton.mp hc]
      exact Nat.one_pos
  ordered := h.ordered
  recent := h.recent
  cleaned := h.cleaned
  covered := h.covered

theorem Sound.opens (h : Sound [] s) : Sound [s.opened] { s with opened := s.opened + 1 } where
  accounted := by
    rw [List.range_succ]
    exact List.perm_append_comm.trans (h.accounted.append_right [s.opened])
  held := h.held
  ordered := h.ordered
  recent := h.recent
  cleaned := h.cleaned
  covered := h.covered

theorem Sound.loses {conn : Nat} (h : Sound [conn] s) : Sound [] { s with lost := s.lost ++ [conn] } where
  accounted := by
    refine accounted_of_count h rfl fun n => ?_
    simp only [places, List.count_append, List.count_nil]
    omega
  held := h.held
  ordered := h.ordered
  recent := h.recent
  cleaned := h.cleaned
  covered := h.covered

theorem Sound.finishes (h : Sound loose s) : Sound [] { s with finished := s.finished ++ loose } where
  accounted := by
    refine accounted_of_count h rfl fun n => ?_
    simp only [places, List.count_append, List.count_nil]
    omega
  held := h.held
  ordered := h.ordered
  recent := h.recent
  cleaned := h.cleaned
  covered := h.covered

/-- Handles go from the front of the pool. -/
theorem Sound.drops (h : Sound [] s) (k : Nat) :
    Sound ((s.conns.take k).map (·.conn)) { s with conns := s.conns.drop k } where
  accounted := by
    refine accounted_of_count h rfl fun n => ?_
    have hsplit : s.conns.map (·.conn) = (s.conns.take k).map (·.conn) ++ (s.conns.drop k).map (·.conn) := by
      rw [← List.map_append, List.take_append_drop]
    simp only [places, hsplit, List.count_append, List.count_nil]
    omega
  held := h.held
  ordered := h.ordered.sublist (List.drop_sublist k s.conns)
  recent := fun hd hmem => h.recent hd (List.mem_of_mem_drop hmem)
  cleaned := h.cleaned
  covered := fun hk hne => h.covered hk fun hnil => hne (by rw [hnil, List.drop_nil])

theorem Sound.tryOpen {y : Nat} {o : Opening} (h : Sound [] s) (hs : s.tryOpen y o = some s') :
    Sound [] s' := by
  cases o with
  | opened =>
      cases hs
      exact h.opens.handOut
  | refused =>
      cases hs
      exact ⟨h.accounted, h.held, h.ordered, h.recent, h.cleaned, h.covered⟩
  | raised =>
      rw [PgSqlDb.tryOpen] at hs
      split at hs
      · cases hs
        exact h.opens.loses
      · cases hs

theorem Cleanup.popped_eq_absent {conns : List conn_handle_t} {c : Cleanup} :
    Cleanup.popped conns c = .absent ↔ c = .absent := by
  cases c <;> simp [Cleanup.popped]

theorem Cleanup.pushed_eq_absent {c : Cleanup} : Cleanup.pushed c = .absent ↔ c = .absent := by
  cases c <;> simp [Cleanup.pushed]

/-- What is taken back is no longer in the pool. -/
theorem Sound.pops {hd : conn_handle_t} (h : Sound [] s) (hlast : s.conns.getLast? = some hd) :
    Sound [hd.conn]
      { s with conns := s.conns.dropLast, cleanup := Cleanup.popped s.conns s.cleanup } where
  accounted := by
    refine accounted_of_count h rfl fun n => ?_
    have hsplit : s.conns.map (·.conn) = s.conns.dropLast.map (·.conn) ++ [hd.conn] := by
      conv_lhs => rw [← List.dropLast_append_getLast? hd hlast]
      rw [List.map_append, List.map_singleton]
    simp only [places, hsplit, List.count_append, List.count_nil]
    omega
  held := h.held
  ordered := h.ordered.sublist (List.dropLast_sublist s.conns)
  recent := fun hd hmem => h.recent hd (List.mem_of_mem_dropLast hmem)
  cleaned := by rw [Ne, Cleanup.popped_eq_absent, h.cleaned]
  covered := fun hk hne => h.covered hk fun hnil => hne (by rw [hnil, List.dropLast_nil])

theorem Sound.takeBack (h : Sound [] s) : Sound [] s.takeBack := by
  rw [PgSqlDb.takeBack]
  cases hlast : s.conns.getLast? with
  | none => exact h
  | some hd => exact (h.pops hlast).handOut

theorem Sound.connection {o : Opening} (h : Sound [] s) (hs : s.connection o = some s') :
    Sound [] s' := by
  rw [PgSqlDb.connection] at hs
  split at hs
  · exact h.tryOpen hs
  · cases hs
    exact h.takeBack

theorem Sound.resume {i : Nat} {o : Opening} (h : Sound [] s) (hs : s.resume i o = some s') :
    Sound [] s' := by
  rw [PgSqlDb.resume] at hs
  cases hy : s.yielded[i]? with
  | none => simp [hy] at hs
  | some y =>
      have h' : Sound [] { s with yielded := s.yielded.eraseIdx i } :=
        ⟨h.accounted, h.held, h.ordered, h.recent, h.cleaned, h.covered⟩
      simp only [hy] at hs
      split at hs
      · exact h'.tryOpen hs
      · cases hs
        exact h'.takeBack

/-! ## Putting back -/

theorem await_eq (s : PgSqlDb) (expires : Int) : ∃ cl c, c ≠ .absent ∧
    s.await expires = { s with closing := cl, cleanup := c } := by
  rw [await]
  split
  · exact ⟨_, .notified expires, by simp, rfl⟩
  · exact ⟨s.closing, .waiting expires _, by simp, rfl⟩

theorem Sound.await (h : Sound loose s) (hc : s.cleaning = true) (expires : Int) :
    Sound loose (s.await expires) := by
  obtain ⟨cl, c, hne, heq⟩ := await_eq s expires
  rw [heq]
  exact ⟨h.accounted, h.held, h.ordered, h.recent, iff_of_true hc hne, h.covered⟩

/-- The handle of a connection that comes back is the last one to expire. -/
theorem Sound.pushes {conn : Nat} (h : Sound [conn] s) (hk : s.cleaning = true ∨ s.keep_alive ≤ 0) :
    Sound [] { s with
      conns := s.conns ++ [⟨conn, s.now + s.keep_alive⟩]
      cleanup := Cleanup.pushed s.cleanup } where
  accounted := by
    refine accounted_of_count h rfl fun n => ?_
    simp only [places, List.map_append, List.map_cons, List.map_nil, List.count_append, List.count_nil]
    omega
  held := h.held
  ordered := by
    refine List.pairwise_append.mpr ⟨h.ordered, List.pairwise_singleton _ _, fun hd hmem hd' hlast => ?_⟩
    rw [List.mem_singleton.mp hlast]
    exact h.recent hd hmem
  recent := by
    intro hd hmem
    rcases List.mem_append.mp hmem with hold | hnew
    · exact h.recent hd hold
    · exact Int.le_of_eq (by rw [List.mem_singleton.mp hnew])
  cleaned := by rw [Ne, Cleanup.pushed_eq_absent, h.cleaned]
  covered := fun hpos _ => hk.resolve_right (by simpa using hpos)

theorem Sound.free {conn : Nat} (h : Sound [conn] s) : Sound [] (s.free conn) := by
  rw [PgSqlDb.free]
  split
  case isFalse hk => exact h.finishes
  case isTrue hk =>
    dsimp only
    split
    case isFalse hidle =>
      refine h.pushes ?_
      cases hc : s.cleaning with
      | true => exact .inl rfl
      | false => exact .inr (by simpa [hc] using hidle)
    case isTrue hidle =>
      -- the coroutine is there as soon as the handle is
      have hbusy : Sound [conn] { s with cleaning := true, cleanup := .notified 0 } :=
        ⟨h.accounted, h.held, h.ordered, h.recent, by simp, fun _ _ => rfl⟩
      rw [PgSqlDb.schedule, if_neg (by simp)]
      obtain ⟨cl, c, hne, heq⟩ := await_eq
        { s with
          cleaning := true
          conns := s.conns ++ [⟨conn, s.now + s.keep_alive⟩]
          cleanup := Cleanup.pushed s.cleanup } (s.keep_alive + 5)
      have hpushed := hbusy.pushes (.inl rfl)
      rw [heq]
      exact ⟨hpushed.accounted, hpushed.held, hpushed.ordered, hpushed.recent, iff_of_true rfl hne,
        fun _ _ => rfl⟩

/-- Another number of references, which is not zero. -/
theorem Sound.refers {i : Nat} {c : PgSqlConnection} (h : Sound [] s) (hc : s.connections[i]? = some c)
    {n : Nat} (hn : 0 < n) :
    Sound [] { s with connections := s.connections.set i { c with refs := n } } where
  accounted := by
    have hsame : (s.connections.set i { c with refs := n }).map (·.conn) = s.connections.map (·.conn) := by
      obtain ⟨hi, rfl⟩ := List.getElem?_eq_some_iff.mp hc
      have hi' : i < (s.connections.map (·.conn)).length := by rwa [List.length_map]
      calc (s.connections.set i { s.connections[i] with refs := n }).map (·.conn)
          = (s.connections.map (·.conn)).set i s.connections[i].conn := List.map_set
        _ = (s.connections.map (·.conn)).set i (s.connections.map (·.conn))[i] := by
            rw [List.getElem_map]
        _ = s.connections.map (·.conn) := List.set_getElem_self _
    refine accounted_of_count h rfl fun m => ?_
    simp only [places, hsame]
  held := by
    intro c' hmem
    rcases List.mem_or_eq_of_mem_set hmem with hmem | rfl
    · exact h.held c' hmem
    · exact hn
  ordered := h.ordered
  recent := h.recent
  cleaned := h.cleaned
  covered := h.covered

theorem Sound.get {i : Nat} (h : Sound [] s) (hs : s.get i = some s') : Sound [] s' := by
  rw [PgSqlDb.get] at hs
  cases hc : s.connections[i]? with
  | none => simp [hc] at hs
  | some c =>
      simp only [hc, Option.some.injEq] at hs
      rw [← hs]
      exact h.refers hc (Nat.succ_pos c.refs)

/-- The connection of one that is deleted. -/
theorem Sound.deletes {i : Nat} {c : PgSqlConnection} (h : Sound [] s) (hc : s.connections[i]? = some c) :
    Sound [c.conn] { s with connections := s.connections.eraseIdx i } where
  accounted := by
    obtain ⟨hi, rfl⟩ := List.getElem?_eq_some_iff.mp hc
    have hperm := (List.getElem_cons_eraseIdx_perm hi).map (·.conn)
    refine accounted_of_count h rfl fun n => ?_
    have hcount := List.perm_iff_count.mp hperm n
    simp only [List.map_cons, List.count_cons] at hcount
    simp only [places, List.count_append, List.count_nil, List.count_singleton]
    omega
  held := fun c' hmem => h.held c' (List.mem_of_mem_eraseIdx hmem)
  ordered := h.ordered
  recent := h.recent
  cleaned := h.cleaned
  covered := h.covered

theorem Sound.put {i : Nat} (h : Sound [] s) (hs : s.put i = some s') : Sound [] s' := by
  rw [PgSqlDb.put] at hs
  cases hc : s.connections[i]? with
  | none => simp [hc] at hs
  | some c =>
      simp only [hc] at hs
      split at hs
      case isTrue hpos =>
        cases hs
        exact h.refers hc hpos
      case isFalse =>
        cases hs
        exact (h.deletes hc).free

/-! ## The coroutine -/

/-- How many handles `prune` finishes. -/
def expiring (t : Int) (conns : List conn_handle_t) : Nat :=
  min 100 (conns.takeWhile fun h => h.alive ≤ t).length

theorem prune_eq (t : Int) (n : Nat) (conns : List conn_handle_t) :
    prune t n conns =
      let k := min n (conns.takeWhile fun h => h.alive ≤ t).length
      ((conns.take k).map (·.conn), conns.drop k, decide (k = n)) := by
  induction n generalizing conns with
  | zero => simp [prune]
  | succ n ih =>
      cases conns with
      | nil => simp [prune]
      | cons h conns =>
          by_cases hexp : h.alive ≤ t
          · simp [prune, ih, hexp, Nat.succ_min_succ]
          · simp [prune, hexp]

theorem pass_eq (s : PgSqlDb) (t : Int) :
    s.pass t =
      let k := expiring t s.conns
      let left := { s with
        conns := s.conns.drop k, finished := s.finished ++ (s.conns.take k).map conn_handle_t.conn }
      if k = 100 then { left with cleanup := .pruning t true } else left.settle t := by
  rw [pass, prune_eq]
  simp only [decide_eq_true_eq]
  rfl

theorem Sound.settle (h : Sound [] s) (hc : s.cleaning = true) (t : Int) : Sound [] (s.settle t) := by
  rw [PgSqlDb.settle]
  split
  case h_1 hnil =>
    exact ⟨h.accounted, h.held, h.ordered, h.recent, by simp, fun _ hne => absurd hnil hne⟩
  case h_2 => exact h.await hc _

theorem Sound.pass (h : Sound [] s) (hc : s.cleaning = true) (t : Int) : Sound [] (s.pass t) := by
  have hleft := (h.drops (expiring t s.conns)).finishes
  rw [pass_eq]
  dsimp only
  split
  · exact ⟨hleft.accounted, hleft.held, hleft.ordered, hleft.recent, iff_of_true hc (by simp),
      hleft.covered⟩
  · exact hleft.settle hc t

theorem Sound.again (h : Sound [] s) (hc : s.cleaning = true) (expires : Int) :
    Sound [] (s.again expires) := by
  rw [PgSqlDb.again]
  split
  case isTrue hnil =>
    exact ⟨h.accounted, h.held, h.ordered, h.recent, by simp, fun _ hne => absurd hnil hne⟩
  case isFalse => exact h.await hc expires

theorem Sound.clean (h : Sound [] s) (hs : s.clean = some s') : Sound [] s' := by
  rw [PgSqlDb.clean] at hs
  cases hcl : s.cleanup with
  | absent => simp [hcl] at hs
  | waiting expires deadline =>
      have hc : s.cleaning = true := h.cleaned.mpr (by simp [hcl])
      simp only [hcl] at hs
      split at hs
      · cases hs
        exact h.pass hc _
      · cases hs
  | notified expires =>
      have hc : s.cleaning = true := h.cleaned.mpr (by simp [hcl])
      simp only [hcl, Option.some.injEq] at hs
      exact hs ▸ h.again hc expires
  | pruning t valid =>
      have hc : s.cleaning = true := h.cleaned.mpr (by simp [hcl])
      cases valid with
      | true =>
          simp only [hcl, Option.some.injEq] at hs
          exact hs ▸ h.pass hc t
      | false =>
          simp only [hcl, Option.some.injEq] at hs
          rw [← hs]
          exact ⟨h.accounted, h.held, h.ordered, h.recent, iff_of_true hc (by simp), h.covered⟩

theorem Sound.finishAll (h : Sound [] s) : Sound [] s.finishAll := by
  have hall := (h.drops s.conns.length).finishes
  rw [List.take_length, List.drop_length] at hall
  exact ⟨hall.accounted, hall.held, hall.ordered, hall.recent, hall.cleaned, hall.covered⟩

theorem Sound.destruct (h : Sound [] s) (hs : s.destruct = some s') : Sound [] s' := by
  rw [PgSqlDb.destruct] at hs
  cases hcl : s.closing with
  | inUse =>
      simp only [hcl] at hs
      split at hs
      case isTrue hc =>
        split at hs
        · cases hs
          exact ⟨h.accounted, h.held, h.ordered, h.recent, iff_of_true hc (by simp), h.covered⟩
        · cases hs
          exact ⟨h.accounted, h.held, h.ordered, h.recent, h.cleaned, h.covered⟩
      case isFalse =>
        cases hs
        exact h.finishAll
  | awaiting =>
      simp only [hcl] at hs
      split at hs
      · cases hs
      · cases hs
        exact h.finishAll
  | notifying => simp [hcl] at hs
  | closed => simp [hcl] at hs

/-- A step of a database that is there is one of its operations. -/
theorem step_cases {e : Event} (hs : s.step e = some s') :
    (∃ d : Nat, s' = { s with now := s.now + d }) ∨ (∃ o, s.connection o = some s') ∨
      (∃ i o, s.resume i o = some s') ∨ (∃ i, s.get i = some s') ∨ (∃ i, s.put i = some s') ∨
        s.clean = some s' ∨ s.destruct = some s' := by
  unfold PgSqlDb.step at hs
  split at hs
  · cases hs
  · cases hs
  · cases e with
    | tick d => exact .inl ⟨d, (Option.some.inj hs).symm⟩
    | connection o => exact .inr (.inl ⟨o, hs⟩)
    | resume i o => exact .inr (.inr (.inl ⟨i, o, hs⟩))
    | get i => exact .inr (.inr (.inr (.inl ⟨i, hs⟩)))
    | put i => exact .inr (.inr (.inr (.inr (.inl ⟨i, hs⟩))))
    | clean => exact .inr (.inr (.inr (.inr (.inr (.inl hs)))))
    | destruct => exact .inr (.inr (.inr (.inr (.inr (.inr hs)))))

theorem Sound.ticks (h : Sound loose s) (d : Nat) : Sound loose { s with now := s.now + d } where
  accounted := h.accounted
  held := h.held
  ordered := h.ordered
  recent := fun hd hmem => by
    have := h.recent hd hmem
    dsimp only
    omega
  cleaned := h.cleaned
  covered := h.covered

/-- Every step keeps it. -/
theorem Sound.step {e : Event} (h : Sound [] s) (hs : s.step e = some s') : Sound [] s' := by
  rcases step_cases hs with ⟨d, rfl⟩ | ⟨o, ho⟩ | ⟨i, o, ho⟩ | ⟨i, hi⟩ | ⟨i, hi⟩ | hc | hd
  · exact h.ticks d
  · exact h.connection ho
  · exact h.resume ho
  · exact h.get hi
  · exact h.put hi
  · exact h.clean hc
  · exact h.destruct hd

/-- In every run, as far as it is defined, each connection that was opened is in the pool, in use, finished
or lost, and only one of these, and only once; the pool is in the order in which it expires; and a
connection that can expire is not left without the coroutine. -/
theorem exclusive (async : Bool) (expires now : Int) (es : List Event) :
    ∀ s ∈ visited step (new async expires now) es,
      s.places.Perm (List.range s.opened) ∧
        (s.conns.Pairwise fun h h' => h.alive ≤ h'.alive) ∧
        (∀ c ∈ s.connections, 0 < c.refs) ∧
        (0 < s.keep_alive → s.conns ≠ [] → s.cleanup ≠ .absent) := by
  have hall : ∀ s ∈ visited step (new async expires now) es, Sound [] s := by
    refine StepMachine.forall_visited (M := fun _ _ => True) (fun s e s' h _ hs => h.step hs)
      (sound_new async expires now) fun _ _ => trivial
  intro s hmem
  have h := hall s hmem
  exact ⟨h.accounted, h.ordered, h.held, fun hk hne => h.cleaned.mp (h.covered hk hne)⟩

/-- A connection is opened, put back, and finished when it has not been used for three seconds. -/
def unused : List Event := [.connection .opened, .put 0, .tick 3005, .clean]

theorem exclusive_unused :
    ((visited step (new false 3000 0) unused).get ⟨4, by decide⟩).places.Perm (List.range 1) :=
  (exclusive false 3000 0 unused _ (List.get_mem _ _)).1

/-! ## Pools of less than a hundred connections -/

/-- What holds besides while the coroutine does not give way in the middle of a pass. -/
structure Prompt (s : PgSqlDb) : Prop where
  defined : s.undefined = false
  whole : ∀ t valid, s.cleanup ≠ .pruning t valid
  unblocked : s.closing ≠ .notifying
  told : ∀ expires, s.cleanup = .notified expires → s.closing ≠ .inUse
  ended : s.closing = .closed → s.cleaning = false
  slow : 0 < s.keep_alive → 3000 ≤ s.keep_alive
  timed : s.cleanup ≠ .absent → 0 < s.keep_alive
  soon : s.closing = .inUse → ∀ expires deadline, s.cleanup = .waiting expires deadline →
    deadline ≤ s.now + s.keep_alive + 5
  due : s.closing = .inUse → ∀ expires deadline, s.cleanup = .waiting expires deadline →
    ∀ h ∈ s.conns, deadline ≤ h.alive + 2500

theorem prompt_new (async : Bool) (expires now : Int) : Prompt (new async expires now) where
  defined := rfl
  whole := by simp [new]
  unblocked := by simp [new]
  told := by simp [new]
  ended := fun _ => rfl
  slow := by
    intro hpos
    dsimp only [new] at hpos ⊢
    split at hpos <;> omega
  timed := by simp [new]
  soon := by simp [new]
  due := by simp [new]

/-- What the coroutine and the destructor have nothing to do with. -/
theorem Prompt.of_eq (h : Prompt s) (hu : s'.undefined = s.undefined) (hcu : s'.cleanup = s.cleanup)
    (hcl : s'.closing = s.closing) (hk : s'.keep_alive = s.keep_alive) (hc : s'.cleaning = s.cleaning)
    (hnow : s.now ≤ s'.now) (hconns : ∀ hd ∈ s'.conns, hd ∈ s.conns) : Prompt s' where
  defined := hu.trans h.defined
  whole := hcu ▸ h.whole
  unblocked := hcl ▸ h.unblocked
  told := by rw [hcu, hcl]; exact h.told
  ended := by rw [hcl, hc]; exact h.ended
  slow := by rw [hk]; exact h.slow
  timed := by rw [hcu, hk]; exact h.timed
  soon := by
    rw [hcu, hcl, hk]
    intro hin e d hw
    have := h.soon hin e d hw
    omega
  due := by
    rw [hcu, hcl]
    exact fun hin e d hw hd hmem => h.due hin e d hw hd (hconns hd hmem)

theorem Prompt.tryOpen {y : Nat} {o : Opening} (h : Prompt s) (hs : s.tryOpen y o = some s') :
    Prompt s' := by
  cases o with
  | opened =>
      cases hs
      exact h.of_eq rfl rfl rfl rfl rfl (Int.le_refl _) fun _ => id
  | refused =>
      cases hs
      exact h.of_eq rfl rfl rfl rfl rfl (Int.le_refl _) fun _ => id
  | raised =>
      rw [PgSqlDb.tryOpen] at hs
      split at hs
      · cases hs
        exact h.of_eq rfl rfl rfl rfl rfl (Int.le_refl _) fun _ => id
      · cases hs

/-- No iterator is lost. -/
theorem Prompt.popped (h : Prompt s) : Cleanup.popped s.conns s.cleanup = s.cleanup := by
  cases hc : s.cleanup with
  | pruning t valid => exact absurd hc (h.whole t valid)
  | absent => rfl
  | waiting expires deadline => rfl
  | notified expires => rfl

theorem Prompt.pushed (h : Prompt s) : Cleanup.pushed s.cleanup = s.cleanup := by
  cases hc : s.cleanup with
  | pruning t valid => exact absurd hc (h.whole t valid)
  | absent => rfl
  | waiting expires deadline => rfl
  | notified expires => rfl

theorem Prompt.takeBack (h : Prompt s) : Prompt s.takeBack := by
  rw [PgSqlDb.takeBack]
  split
  · exact h.of_eq rfl h.popped rfl rfl rfl (Int.le_refl _) fun _ => List.mem_of_mem_dropLast
  · exact h

theorem Prompt.connection {o : Opening} (h : Prompt s) (hs : s.connection o = some s') : Prompt s' := by
  rw [PgSqlDb.connection] at hs
  split at hs
  · exact h.tryOpen hs
  · cases hs
    exact h.takeBack

theorem Prompt.resume {i : Nat} {o : Opening} (h : Prompt s) (hs : s.resume i o = some s') :
    Prompt s' := by
  rw [PgSqlDb.resume] at hs
  cases hy : s.yielded[i]? with
  | none => simp [hy] at hs
  | some y =>
      have h' : Prompt { s with yielded := s.yielded.eraseIdx i } :=
        h.of_eq rfl rfl rfl rfl rfl (Int.le_refl _) fun _ => id
      simp only [hy] at hs
      split at hs
      · exact h'.tryOpen hs
      · cases hs
        exact h'.takeBack

/-- A wait that begins now, in time for what is in the pool. -/
theorem Prompt.await (h : Prompt s) (hpos : 0 < s.keep_alive) {expires : Int}
    (hsoon : expires ≤ s.keep_alive + 5)
    (hdue : s.closing = .inUse → ∀ hd ∈ s.conns, s.now + expires ≤ hd.alive + 2500) :
    Prompt (s.await expires) := by
  rw [PgSqlDb.await]
  split
  case h_1 hn => exact absurd hn h.unblocked
  case h_2 =>
    refine ⟨h.defined, by simp, h.unblocked, by simp, h.ended, h.slow, fun _ => hpos, ?_, ?_⟩
    · rintro - e d hw
      cases hw
      dsimp only
      omega
    · rintro hin e d hw hd hmem
      cases hw
      exact hdue hin hd hmem

theorem Prompt.free {conn : Nat} (hsound : Sound [conn] s) (h : Prompt s) (hopen : s.closing ≠ .closed) :
    Prompt (s.free conn) := by
  rw [PgSqlDb.free]
  split
  case isFalse => exact h.of_eq rfl rfl rfl rfl rfl (Int.le_refl _) fun _ => id
  case isTrue hk =>
    have hpush : Prompt { s with
        conns := s.conns ++ [⟨conn, s.now + s.keep_alive⟩]
        cleanup := Cleanup.pushed s.cleanup } := by
      rw [h.pushed]
      refine ⟨h.defined, h.whole, h.unblocked, h.told, h.ended, h.slow, h.timed, h.soon, ?_⟩
      intro hin e d hw hd hmem
      rcases List.mem_append.mp hmem with hold | hnew
      · exact h.due hin e d hw hd hold
      · have := h.soon hin e d hw
        rw [List.mem_singleton.mp hnew]
        dsimp only
        omega
    dsimp only
    split
    case isFalse => exact hpush
    case isTrue hidle =>
      have hslow := h.slow hidle.2
      -- the pool was empty, or the coroutine would have been there
      have hnil : s.conns = [] := by
        by_contra hne
        exact Bool.noConfusion (hidle.1.symm.trans (hsound.covered hidle.2 hne))
      have hbusy : Prompt { s with
          cleaning := true
          conns := s.conns ++ [⟨conn, s.now + s.keep_alive⟩]
          cleanup := Cleanup.pushed s.cleanup } :=
        ⟨hpush.defined, hpush.whole, hpush.unblocked, hpush.told, fun hclosed => absurd hclosed hopen,
          hpush.slow, hpush.timed, hpush.soon, hpush.due⟩
      rw [PgSqlDb.schedule, if_neg (by simp)]
      refine hbusy.await hidle.2 (Int.le_refl _) fun hin hd hmem => ?_
      rw [hnil, List.nil_append, List.mem_singleton] at hmem
      rw [hmem]
      dsimp only
      omega

theorem Prompt.put {i : Nat} (hsound : Sound [] s) (h : Prompt s) (hopen : s.closing ≠ .closed)
    (hs : s.put i = some s') : Prompt s' := by
  rw [PgSqlDb.put] at hs
  cases hc : s.connections[i]? with
  | none => simp [hc] at hs
  | some c =>
      simp only [hc] at hs
      split at hs
      · cases hs
        exact h.of_eq rfl rfl rfl rfl rfl (Int.le_refl _) fun _ => id
      · cases hs
        have hdeleted : Prompt { s with connections := s.connections.eraseIdx i } :=
          h.of_eq rfl rfl rfl rfl rfl (Int.le_refl _) fun _ => id
        exact hdeleted.free (hsound.deletes hc) hopen

theorem Prompt.get {i : Nat} (h : Prompt s) (hs : s.get i = some s') : Prompt s' := by
  rw [PgSqlDb.get] at hs
  cases hc : s.connections[i]? with
  | none => simp [hc] at hs
  | some c =>
      simp only [hc, Option.some.injEq] at hs
      rw [← hs]
      exact h.of_eq rfl rfl rfl rfl rfl (Int.le_refl _) fun _ => id

/-- What has expired is in front of what has not. -/
theorem takeWhile_eq_filter {t : Int} {conns : List conn_handle_t}
    (h : conns.Pairwise fun h h' => h.alive ≤ h'.alive) :
    conns.takeWhile (fun h => h.alive ≤ t) = conns.filter (fun h => h.alive ≤ t) ∧
      conns.dropWhile (fun h => h.alive ≤ t) = conns.filter (fun h => t < h.alive) := by
  induction conns with
  | nil => exact ⟨rfl, rfl⟩
  | cons hd conns ih =>
      obtain ⟨hle, htail⟩ := List.pairwise_cons.mp h
      by_cases hexp : hd.alive ≤ t
      · simp [hexp, ih htail]
      · have hlive : ∀ h' ∈ conns, t < h'.alive := fun h' hmem => by
          have := hle h' hmem
          omega
        have hnone : conns.filter (fun h => h.alive ≤ t) = [] :=
          List.filter_eq_nil_iff.mpr fun h' hmem => by simpa using hlive h' hmem
        have hall : conns.filter (fun h => t < h.alive) = conns :=
          List.filter_eq_self.mpr fun h' hmem => by simpa using hlive h' hmem
        have hlt : t < hd.alive := by omega
        simp [hexp, hlt, hnone, hall]

/-- A pass over fewer than a hundred handles finishes those that have expired, and those that will within
500 ms, and goes to the end. -/
theorem pass_of_lt (hs : Sound [] s) (t : Int) (hlen : s.conns.length < 100) :
    s.pass t = settle { s with
      conns := s.conns.filter (fun h => t < h.alive)
      finished := s.finished ++ (s.conns.filter (fun h => h.alive ≤ t)).map (·.conn) } t := by
  have hle : (s.conns.takeWhile fun h => h.alive ≤ t).length ≤ s.conns.length :=
    (List.takeWhile_sublist _).length_le
  have hk : expiring t s.conns = (s.conns.takeWhile fun h => h.alive ≤ t).length :=
    Nat.min_eq_right (by omega)
  have htake : s.conns.take (expiring t s.conns) = s.conns.takeWhile fun h => h.alive ≤ t := by
    rw [hk]
    exact (List.prefix_iff_eq_take.mp (List.takeWhile_prefix _)).symm
  have hdrop : s.conns.drop (expiring t s.conns) = s.conns.dropWhile fun h => h.alive ≤ t := by
    have hparts : s.conns.take (expiring t s.conns) ++ s.conns.drop (expiring t s.conns) =
        s.conns.take (expiring t s.conns) ++ s.conns.dropWhile fun h => h.alive ≤ t := by
      rw [List.take_append_drop, htake, List.takeWhile_append_dropWhile]
    exact List.append_cancel_left hparts
  obtain ⟨hgone, hleft⟩ := takeWhile_eq_filter (t := t) hs.ordered
  rw [pass_eq]
  dsimp only
  rw [if_neg (by omega), htake, hdrop, hgone, hleft]

theorem Prompt.pass (hsound : Sound [] s) (h : Prompt s) (hlen : s.conns.length < 100)
    (hpos : 0 < s.keep_alive) : Prompt (s.pass (s.now + 500)) := by
  have hslow := h.slow hpos
  have hleft : Prompt { s with
      conns := s.conns.filter (fun h => s.now + 500 < h.alive)
      finished := s.finished ++ (s.conns.filter (fun h => h.alive ≤ s.now + 500)).map (·.conn) } :=
    h.of_eq rfl rfl rfl rfl rfl (Int.le_refl _) fun _ => List.mem_of_mem_filter
  rw [pass_of_lt hsound _ hlen, PgSqlDb.settle]
  split
  case h_1 =>
    exact ⟨hleft.defined, by simp, hleft.unblocked, by simp, fun _ => rfl, hleft.slow, by simp, by simp,
      by simp⟩
  case h_2 hd left heq =>
    dsimp only at heq
    have hsorted := hsound.ordered.sublist (List.filter_sublist
      (p := fun h : conn_handle_t => decide (s.now + 500 < h.alive)))
    have hfirst : hd ∈ s.conns.filter (fun h => s.now + 500 < h.alive) := by
      rw [heq]
      exact List.mem_cons_self
    have hrecent := hsound.recent hd (List.mem_of_mem_filter hfirst)
    have halive : s.now + 500 < hd.alive := by simpa using (List.mem_filter.mp hfirst).2
    apply hleft.await hpos
    · show max (hd.alive - (s.now + 500)) 3000 ≤ s.keep_alive + 5
      omega
    · intro _ hd' hmem
      have hle : hd.alive ≤ hd'.alive := by
        rw [heq] at hsorted
        rcases List.mem_cons.mp (heq ▸ hmem) with rfl | hmem'
        · exact Int.le_refl _
        · exact (List.pairwise_cons.mp hsorted).1 hd' hmem'
      show s.now + max (hd.alive - (s.now + 500)) 3000 ≤ hd'.alive + 2500
      omega

theorem Prompt.clean (hsound : Sound [] s) (h : Prompt s) (hlen : s.conns.length < 100)
    (hs : s.clean = some s') : Prompt s' := by
  rw [PgSqlDb.clean] at hs
  cases hcl : s.cleanup with
  | absent => simp [hcl] at hs
  | waiting expires deadline =>
      simp only [hcl] at hs
      split at hs
      · cases hs
        exact h.pass hsound hlen (h.timed (by simp [hcl]))
      · cases hs
  | notified expires =>
      simp only [hcl, Option.some.injEq] at hs
      rw [← hs, PgSqlDb.again]
      split
      · exact ⟨h.defined, by simp, h.unblocked, by simp, fun _ => rfl, h.slow, by simp, by simp, by simp⟩
      · -- the destructor has been there, and nothing is said about when the coroutine goes on
        rw [PgSqlDb.await]
        have hdestructing := h.told expires hcl
        split
        case h_1 hn => exact absurd hn h.unblocked
        case h_2 =>
          exact ⟨h.defined, by simp, h.unblocked, by simp, h.ended, h.slow,
            fun _ => h.timed (by simp [hcl]), fun hin => absurd hin hdestructing,
            fun hin => absurd hin hdestructing⟩
  | pruning t valid => exact absurd hcl (h.whole t valid)

theorem Prompt.destruct (hsound : Sound [] s) (h : Prompt s) (hs : s.destruct = some s') :
    Prompt s' := by
  have hfinished : s.cleaning = false → Prompt s.finishAll := fun hc =>
    have habsent : s.cleanup = .absent := by
      by_contra hne
      exact Bool.noConfusion (hc.symm.trans (hsound.cleaned.mpr hne))
    ⟨h.defined, h.whole, by simp [PgSqlDb.finishAll], by simp [PgSqlDb.finishAll], fun _ => hc, h.slow,
      h.timed, by simp [PgSqlDb.finishAll], by simp [PgSqlDb.finishAll]⟩
  rw [PgSqlDb.destruct] at hs
  cases hcl : s.closing with
  | inUse =>
      simp only [hcl] at hs
      split at hs
      case isTrue hc =>
        cases hcu : s.cleanup with
        | absent => exact absurd hcu (hsound.cleaned.mp hc)
        | waiting expires deadline =>
            simp only [hcu, Option.some.injEq] at hs
            rw [← hs]
            exact ⟨h.defined, by simp, by simp, by simp, by simp, h.slow,
              fun _ => h.timed (by simp [hcu]), by simp, by simp⟩
        | notified expires => exact absurd hcl (h.told expires hcu)
        | pruning t valid => exact absurd hcu (h.whole t valid)
      case isFalse hc =>
        cases hs
        exact hfinished (by simpa using hc)
  | awaiting =>
      simp only [hcl] at hs
      split at hs
      case isTrue => cases hs
      case isFalse hc =>
        cases hs
        exact hfinished (by simpa using hc)
  | notifying => simp [hcl] at hs
  | closed => simp [hcl] at hs

theorem closing_ne_of_step {e : Event} (hs : s.step e = some s') : s.closing ≠ .closed := by
  intro hclosed
  unfold PgSqlDb.step at hs
  split at hs
  · cases hs
  · cases hs
  · contradiction

theorem Prompt.step {e : Event} (hsound : Sound [] s) (h : Prompt s) (hlen : s.conns.length < 100)
    (hs : s.step e = some s') : Prompt s' := by
  have hopen := closing_ne_of_step hs
  rcases step_cases hs with ⟨d, rfl⟩ | ⟨o, ho⟩ | ⟨i, o, ho⟩ | ⟨i, hi⟩ | ⟨i, hi⟩ | hc | hd
  · exact h.of_eq rfl rfl rfl rfl rfl (by dsimp only; omega) fun _ => id
  · exact h.connection ho
  · exact h.resume ho
  · exact h.get hi
  · exact h.put hsound hopen hi
  · exact h.clean hsound hlen hc
  · exact h.destruct hsound hd

theorem step_clean (hdefined : s.undefined = false) (hopen : s.closing ≠ .closed) :
    s.step .clean = s.clean := by
  unfold PgSqlDb.step
  rw [hdefined]
  cases hcl : s.closing with
  | closed => exact absurd hcl hopen
  | inUse => rfl
  | notifying => rfl
  | awaiting => rfl

/-- A pass finishes what has expired or will within 500 ms, and leaves the rest. -/
def Cleans (s s' : PgSqlDb) : Prop :=
  s'.conns = s.conns.filter (fun h => s.now + 500 < h.alive) ∧
    s'.finished = s.finished ++ (s.conns.filter (fun h => h.alive ≤ s.now + 500)).map (·.conn)

theorem settle_conns (s : PgSqlDb) (t : Int) :
    (s.settle t).conns = s.conns ∧ (s.settle t).finished = s.finished := by
  rw [settle]
  split
  · exact ⟨rfl, rfl⟩
  · rw [await]
    split <;> exact ⟨rfl, rfl⟩

/-- As long as the pool has fewer than a hundred connections no iterator is used when it is not valid, the
destructor is not left waiting for a coroutine that has ended, and every pass finishes exactly what has
expired. Until then the next pass is due within 2.5 seconds of the first expiry. -/
theorem cleans_exactly (async : Bool) (expires now : Int) (es : List Event)
    (h : ∀ p ∈ inputs step (new async expires now) es, p.1.conns.length < 100) :
    (∀ s ∈ visited step (new async expires now) es,
      s.undefined = false ∧ s.closing ≠ .notifying ∧
        (s.closing = .inUse → ∀ expires deadline, s.cleanup = .waiting expires deadline →
          ∀ hd ∈ s.conns, deadline ≤ hd.alive + 2500)) ∧
      ∀ p ∈ inputs step (new async expires now) es, ∀ expires deadline,
        p.1.cleanup = .waiting expires deadline → deadline ≤ p.1.now →
          ∃ s', p.1.step .clean = some s' ∧ Cleans p.1 s' := by
  have hnext : ∀ s e s', Sound [] s ∧ Prompt s → s.conns.length < 100 → step s e = some s' →
      Sound [] s' ∧ Prompt s' := fun s e s' hI hlen hs => ⟨hI.1.step hs, hI.2.step hI.1 hlen hs⟩
  have hstart : Sound [] (new async expires now) ∧ Prompt (new async expires now) :=
    ⟨sound_new async expires now, prompt_new async expires now⟩
  constructor
  · intro s hmem
    have hs := StepMachine.forall_visited hnext hstart h s hmem
    exact ⟨hs.2.defined, hs.2.unblocked, hs.2.due⟩
  · refine fun p hp => ((StepMachine.forall_inputs_iff (Q := fun s _ => s.conns.length < 100 ∧
      ∀ expires deadline, s.cleanup = .waiting expires deadline → deadline ≤ s.now →
        ∃ s', s.step .clean = some s' ∧ Cleans s s') ?_ hnext hstart es).mp h p hp).2
    rintro s - ⟨hsound, hprompt⟩
    refine (and_iff_left_of_imp fun hlen e d hw hdue => ?_).symm
    have hopen : s.closing ≠ .closed := fun hclosed =>
      Bool.noConfusion ((hprompt.ended hclosed).symm.trans (hsound.cleaned.mpr (by simp [hw])))
    refine ⟨s.pass (s.now + 500), ?_, ?_⟩
    · rw [step_clean hprompt.defined hopen, PgSqlDb.clean, hw]
      exact if_pos hdue
    · rw [pass_of_lt hsound _ hlen]
      exact settle_conns _ _

theorem cleans_exactly_unused :
    (∀ s ∈ visited step (new false 3000 0) unused,
      s.undefined = false ∧ s.closing ≠ .notifying ∧
        (s.closing = .inUse → ∀ expires deadline, s.cleanup = .waiting expires deadline →
          ∀ hd ∈ s.conns, deadline ≤ hd.alive + 2500)) ∧
      ∀ p ∈ inputs step (new false 3000 0) unused, ∀ expires deadline,
        p.1.cleanup = .waiting expires deadline → deadline ≤ p.1.now →
          ∃ s', p.1.step .clean = some s' ∧ Cleans p.1 s' :=
  cleans_exactly false 3000 0 unused (by decide)

/-- In the end it is finished. -/
example : (unused.foldlM step (new false 3000 0)).map (·.finished) = some [0] := by decide

end PgSqlDb

end Suil.Sql
