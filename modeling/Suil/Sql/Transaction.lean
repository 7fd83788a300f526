import Suil.Basic.Bytes
import Suil.Lib.StepMachine

set_option autoImplicit false

/-! # Transactions

`PgSqlTransaction` (`pgsql.h`, `pgsql.cpp`). The flag `valid` is changed before the server has
answered. `brackets_iff` says for which answers the flag, the commands and the server agree. -/

namespace Suil.Sql

open StepMachine (inputs visited forall_visited start_mem_visited exists_input foldl_mem_visited)

/-- What `operator()` executes. -/
inductive Command where
  | begin
  | commit
  | rollback
  | savepoint (name : Bytes)
  | release (name : Bytes)
  | rollbackTo (sp : Bytes)
  | statement (qstr : Bytes) (args : List Bytes)
  deriving DecidableEq

/-- The text, and the parameters. -/
def Command.sql : Command → Bytes × List Bytes
  | .begin => (str "BEGIN;", [])
  | .commit => (str "COMMIT;", [])
  | .rollback => (str "ROLLBACK;", [])
  | .savepoint name => (str "SAVEPOINT $1;", [name])
  | .release name => (str "RELEASE SAVEPOINT $1;", [name])
  | .rollbackTo sp => (str "ROLLBACK TO SAVEPOINT $1;", [sp])
  | .statement qstr args => (qstr, args)

/-- `PgSqlTransaction`, with the commands that it has sent and whether each has succeeded. -/
structure PgSqlTransaction where
  valid : Bool
  sent : List (Command × Bool)

/-- The calls. -/
inductive Call where
  | begin
  | commit
  | savepoint (name : Bytes)
  | release (name : Bytes)
  | rollback (sp : Option Bytes)
  | statement (qstr : Bytes) (args : List Bytes)

/-- A call, and whether the server executes what it sends. -/
structure Turn where
  call : Call
  ok : Bool

namespace PgSqlTransaction

/-- `operator()`; what is thrown counts as a failure. -/
def execute (t : PgSqlTransaction) (c : Command) (ok : Bool) : Bool × PgSqlTransaction :=
  (ok, { t with sent := t.sent ++ [(c, ok)] })

/-- `begin()`. -/
def begin (t : PgSqlTransaction) (ok : Bool) : Bool × PgSqlTransaction :=
  if t.valid then (false, t) else execute { t with valid := true } .begin ok

/-- `commit()`. -/
def commit (t : PgSqlTransaction) (ok : Bool) : Bool × PgSqlTransaction :=
  if t.valid then execute { t with valid := false } .commit ok else (false, t)

/-- `rollback(sp)`. -/
def rollback (t : PgSqlTransaction) (sp : Option Bytes) (ok : Bool) : Bool × PgSqlTransaction :=
  match sp with
  | some sp => if t.valid then t.execute (.rollbackTo sp) ok else (false, t)
  | none => if t.valid then execute { t with valid := false } .rollback ok else (false, t)

/-- `savepoint(name)`. -/
def savepoint (t : PgSqlTransaction) (name : Bytes) (ok : Bool) : Bool × PgSqlTransaction :=
  if t.valid then t.execute (.savepoint name) ok else (false, t)

/-- `release(name)`. -/
def release (t : PgSqlTransaction) (name : Bytes) (ok : Bool) : Bool × PgSqlTransaction :=
  if t.valid then t.execute (.release name) ok else (false, t)

def call (t : PgSqlTransaction) (u : Turn) : Bool × PgSqlTransaction :=
  match u.call with
  | .begin => t.begin u.ok
  | .commit => t.commit u.ok
  | .savepoint name => t.savepoint name u.ok
  | .release name => t.release name u.ok
  | .rollback sp => t.rollback sp u.ok
  | .statement qstr args => t.execute (.statement qstr args) u.ok

/-- The constructor. -/
def new (ok : Bool) : PgSqlTransaction := (begin ⟨false, []⟩ ok).2

/-- The destructor. -/
def destroy (t : PgSqlTransaction) (ok : Bool) : PgSqlTransaction := (t.commit ok).2

def next (t : PgSqlTransaction) (u : Turn) : Option PgSqlTransaction := some (t.call u).2

/-- The object after the calls. -/
def run (first : Bool) (us : List Turn) : PgSqlTransaction :=
  us.foldl (fun t u => (t.call u).2) (new first)

example : ((run true [⟨.savepoint (str "a"), true⟩]).destroy true).sent.map (fun e => e.1.sql) =
    [(str "BEGIN;", []), (str "SAVEPOINT $1;", [str "a"]), (str "COMMIT;", [])] := rfl

end PgSqlTransaction

/-! ## The server -/

/-- What the server takes a command for. -/
inductive Verb where
  | begin
  | commit
  | rollback
  | savepoint (name : Bytes)
  | release (name : Bytes)
  | rollbackTo (sp : Bytes)
  | other
  deriving DecidableEq

section

variable (reads : Bytes → Verb)

/-- `reads` is for the text of a statement, which may be a transaction command too. -/
def Command.verb : Command → Verb
  | .begin => .begin
  | .commit => .commit
  | .rollback => .rollback
  | .savepoint name => .savepoint name
  | .release name => .release name
  | .rollbackTo sp => .rollbackTo sp
  | .statement qstr _ => reads qstr

/-- Whether there is a transaction after a command that has succeeded. -/
def Verb.opens (o : Bool) : Verb → Bool
  | .begin => true
  | .commit => false
  | .rollback => false
  | _ => o

/-- A BEGIN has succeeded, and no COMMIT or ROLLBACK since. -/
def opened (sent : List (Command × Bool)) : Bool :=
  sent.foldl (fun o e => if e.2 then (e.1.verb reads).opens o else o) false

/-- The savepoints of the transaction that a sequence of commands is in, the last one first, or
nothing when it is in none; then one more command. There is none where the command has no place. -/
def Verb.bracket (st : Option (List Bytes)) (v : Verb) : Option (Option (List Bytes)) :=
  match v, st with
  | .begin, none => some (some [])
  | .commit, some _ => some none
  | .rollback, some _ => some none
  | .savepoint name, some names => some (some (name :: names))
  | .release name, some names =>
      if name ∈ names then some (some (names.dropWhile (· ≠ name)).tail) else none
  | .rollbackTo sp, some names =>
      if sp ∈ names then some (some (names.dropWhile (· ≠ sp))) else none
  | .other, st => some st
  | _, _ => none

/-- Where the commands that have been sent lead. -/
def nesting (sent : List (Command × Bool)) : Option (Option (List Bytes)) :=
  (sent.map fun e => e.1.verb reads).foldlM Verb.bracket none

/-- Every command has its place, and no transaction is without its end. -/
def Bracketed (sent : List (Command × Bool)) : Prop := nesting reads sent = some none

namespace PgSqlTransaction

/-- What is asked of an object from the constructor to the destructor. -/
structure Sound (first : Bool) (us : List Turn) (last : Bool) : Prop where
  marked : ∀ t ∈ visited next (new first) us, t.valid = opened reads t.sent
  bracketed : Bracketed reads ((run first us).destroy last).sent
  closed : opened reads ((run first us).destroy last).sent = false

/-- No statement is a transaction command. -/
def Plain (us : List Turn) : Prop :=
  ∀ u ∈ us, ∀ qstr args, u.call = .statement qstr args → reads qstr = .other

/-- The BEGIN, COMMIT or ROLLBACK that is sent succeeds, and a savepoint that is named is one of the
transaction. -/
def Meets (t : PgSqlTransaction) (u : Turn) : Prop :=
  match u.call with
  | .begin => t.valid = false → u.ok = true
  | .commit => t.valid = true → u.ok = true
  | .rollback none => t.valid = true → u.ok = true
  | .rollback (some sp) => ∀ names, nesting reads t.sent = some (some names) → sp ∈ names
  | .release name => ∀ names, nesting reads t.sent = some (some names) → name ∈ names
  | .savepoint _ => True
  | .statement qstr _ => reads qstr = .other

/-- The steps of the whole life of an object meet the condition. -/
structure Answered (first : Bool) (us : List Turn) (last : Bool) : Prop where
  begun : first = true
  steps : ∀ p ∈ inputs next (new first) us, Meets reads p.1 p.2
  ended : (run first us).valid = true → last = true

/-- The flag, the server and the brackets agree. -/
structure Agrees (t : PgSqlTransaction) : Prop where
  marked : t.valid = opened reads t.sent
  nested : ∃ st, nesting reads t.sent = some st ∧ t.valid = st.isSome

/-! ## One command -/

variable {reads}

theorem opened_concat (sent : List (Command × Bool)) (c : Command) (ok : Bool) :
    opened reads (sent ++ [(c, ok)]) =
      if ok then (c.verb reads).opens (opened reads sent) else opened reads sent := by
  simp [opened]

theorem nesting_append (sent sent' : List (Command × Bool)) :
    nesting reads (sent ++ sent') =
      (nesting reads sent).bind ((sent'.map fun e => e.1.verb reads).foldlM Verb.bracket) := by
  unfold nesting
  rw [List.map_append, List.foldlM_append]
  rfl

theorem nesting_concat {sent : List (Command × Bool)} {st : Option (List Bytes)}
    (h : nesting reads sent = some st) (c : Command) (ok : Bool) :
    nesting reads (sent ++ [(c, ok)]) = (c.verb reads).bracket st := by
  rw [nesting_append, h, Option.bind_some, List.map_singleton, List.foldlM_cons]
  cases Verb.bracket st (c.verb reads) with
  | none => rfl
  | some st' => rfl

/-- A command that has its place, with the flag that goes with it. -/
theorem agrees_execute {t : PgSqlTransaction} (h : t.Agrees reads) {st : Option (List Bytes)}
    (hst : nesting reads t.sent = some st) (c : Command) (ok : Bool) {st' : Option (List Bytes)}
    (hb : (c.verb reads).bracket st = some st')
    (ho : st'.isSome = if ok then (c.verb reads).opens t.valid else t.valid) :
    (execute { t with valid := st'.isSome } c ok).2.Agrees reads where
  marked := by
    show st'.isSome = opened reads (t.sent ++ [(c, ok)])
    rw [opened_concat, ← h.marked, ho]
  nested := ⟨st', (nesting_concat hst c ok).trans hb, rfl⟩

/-- In a transaction there are savepoints, and outside of one there are not. -/
theorem Agrees.nesting_of_valid {t : PgSqlTransaction} (h : t.Agrees reads) (hv : t.valid = true) :
    ∃ names, nesting reads t.sent = some (some names) := by
  obtain ⟨st, hst, hsome⟩ := h.nested
  cases st with
  | none => simp [hv] at hsome
  | some names => exact ⟨names, hst⟩

theorem Agrees.nesting_of_not_valid {t : PgSqlTransaction} (h : t.Agrees reads)
    (hv : t.valid = false) : nesting reads t.sent = some none := by
  obtain ⟨st, hst, hsome⟩ := h.nested
  cases st with
  | none => exact hst
  | some names => simp [hv] at hsome

/-! ## Each call -/

theorem agrees_begin {t : PgSqlTransaction} (h : t.Agrees reads) {ok : Bool}
    (hok : t.valid = false → ok = true) : (t.begin ok).2.Agrees reads := by
  unfold begin
  cases hv : t.valid with
  | true => exact h
  | false =>
      have hst : nesting reads t.sent = some none := h.nesting_of_not_valid hv
      have hb : Verb.bracket none (Command.begin.verb reads) = some (some []) := rfl
      exact agrees_execute h hst .begin ok hb (by rw [hok hv]; rfl)

/-- A command that ends the transaction. -/
theorem agrees_end {t : PgSqlTransaction} (h : t.Agrees reads) {c : Command} {ok : Bool}
    (hok : t.valid = true → ok = true)
    (hb : ∀ names, (c.verb reads).bracket (some names) = some none)
    (ho : (c.verb reads).opens true = false) :
    (if t.valid then execute { t with valid := false } c ok else (false, t)).2.Agrees reads := by
  cases hv : t.valid with
  | false => exact h
  | true =>
      obtain ⟨names, hst⟩ := h.nesting_of_valid hv
      exact agrees_execute h hst c ok (hb names) (by rw [hok hv, hv, if_pos rfl, ho]; rfl)

/-- A command for which the flag stays as it is. -/
theorem agrees_within {t : PgSqlTransaction} (h : t.Agrees reads) {c : Command} (ok : Bool)
    (hb : ∀ names, nesting reads t.sent = some (some names) →
      ∃ names', (c.verb reads).bracket (some names) = some (some names'))
    (ho : ∀ o, (c.verb reads).opens o = o) :
    (if t.valid then t.execute c ok else (false, t)).2.Agrees reads := by
  cases hv : t.valid with
  | false => exact h
  | true =>
      obtain ⟨names, hst⟩ := h.nesting_of_valid hv
      obtain ⟨names', hb'⟩ := hb names hst
      have hagrees := agrees_execute h hst c ok hb' (by rw [ho, ite_self, hv]; rfl)
      rwa [show (some names').isSome = t.valid from hv.symm] at hagrees

/-- A step that meets the condition keeps them in agreement. -/
theorem agrees_call {t : PgSqlTransaction} (h : t.Agrees reads) {u : Turn}
    (hm : t.Meets reads u) : (t.call u).2.Agrees reads := by
  obtain ⟨call, ok⟩ := u
  cases call with
  | begin => exact agrees_begin h hm
  | commit => exact agrees_end h hm (fun _ => rfl) rfl
  | savepoint name => exact agrees_within h ok (fun names _ => ⟨name :: names, rfl⟩) fun _ => rfl
  | release name =>
      exact agrees_within h ok (fun names hst => ⟨_, if_pos (hm names hst)⟩) fun _ => rfl
  | rollback sp =>
      cases sp with
      | none => exact agrees_end h hm (fun _ => rfl) rfl
      | some sp => exact agrees_within h ok (fun names hst => ⟨_, if_pos (hm names hst)⟩) fun _ => rfl
  | statement qstr args =>
      -- whether there is a transaction makes no difference
      have hother : reads qstr = .other := hm
      obtain ⟨st, hst, hv⟩ := h.nested
      have hb : ((Command.statement qstr args).verb reads).bracket st = some st := by
        simp only [Command.verb, hother, Verb.bracket]
      have hagrees := agrees_execute h hst (.statement qstr args) ok hb (by
        simp only [Command.verb, hother, Verb.opens, hv, ite_self])
      rwa [← hv] at hagrees

/-- The condition is what the agreement needs. -/
theorem meets_of_call {t : PgSqlTransaction} (h : t.Agrees reads) {u : Turn}
    (hplain : ∀ qstr args, u.call = .statement qstr args → reads qstr = .other)
    (hmark : (t.call u).2.valid = opened reads (t.call u).2.sent)
    (hnest : nesting reads (t.call u).2.sent ≠ none) : t.Meets reads u := by
  obtain ⟨call, ok⟩ := u
  -- a failure leaves the server as it was
  have hfail : ∀ (c : Command) (v : Bool), v = opened reads (t.sent ++ [(c, ok)]) →
      v ≠ t.valid → ok = true := by
    intro c v hv hne
    rw [opened_concat, ← h.marked] at hv
    cases ok with
    | true => rfl
    | false => exact absurd hv hne
  -- a savepoint is named where there is a transaction
  have hname : ∀ c : Command, (∀ names, nesting reads t.sent = some (some names) →
      (if t.valid then t.execute c ok else (false, t)).2.sent = t.sent ++ [(c, ok)]) := by
    intro c names hst
    obtain ⟨st, hst', hv⟩ := h.nested
    rw [hst, Option.some.injEq] at hst'
    rw [hv, ← hst']
    rfl
  cases call with
  | begin =>
      intro hv
      have hcall : t.begin ok = execute { t with valid := true } .begin ok :=
        if_neg (by rw [hv]; exact Bool.false_ne_true)
      have hmark' : (t.begin ok).2.valid = opened reads (t.begin ok).2.sent := hmark
      rw [hcall] at hmark'
      exact hfail .begin true hmark' (by rw [hv]; exact nofun)
  | commit =>
      intro hv
      have hcall : t.commit ok = execute { t with valid := false } .commit ok := if_pos hv
      have hmark' : (t.commit ok).2.valid = opened reads (t.commit ok).2.sent := hmark
      rw [hcall] at hmark'
      exact hfail .commit false hmark' (by rw [hv]; exact nofun)
  | savepoint name => trivial
  | release name =>
      intro names hst
      by_contra hmem
      apply hnest
      refine (congrArg (nesting reads) (hname (.release name) names hst)).trans ?_
      exact (nesting_concat hst _ ok).trans (if_neg hmem)
  | rollback sp =>
      cases sp with
      | none =>
          intro hv
          have hcall : t.rollback none ok = execute { t with valid := false } .rollback ok := if_pos hv
          have hmark' : (t.rollback none ok).2.valid = opened reads (t.rollback none ok).2.sent := hmark
          rw [hcall] at hmark'
          exact hfail .rollback false hmark' (by rw [hv]; exact nofun)
      | some sp =>
          intro names hst
          by_contra hmem
          apply hnest
          refine (congrArg (nesting reads) (hname (.rollbackTo sp) names hst)).trans ?_
          exact (nesting_concat hst _ ok).trans (if_neg hmem)
  | statement qstr args => exact hplain qstr args rfl

/-! ## Every run -/

/-- What has been sent stays sent. -/
theorem sent_prefix_call (t : PgSqlTransaction) (u : Turn) : t.sent <+: (t.call u).2.sent := by
  have hsent : ∀ (b : Bool) (v : Bool) (c : Command),
      t.sent <+: (if b then execute { t with valid := v } c u.ok else (false, t)).2.sent := by
    intro b v c
    cases b with
    | true => exact List.prefix_append _ _
    | false => exact List.prefix_rfl
  unfold call
  cases u.call with
  | begin =>
      have hbegin : t.begin u.ok =
          if !t.valid then execute { t with valid := true } .begin u.ok else (false, t) := by
        unfold begin
        cases t.valid <;> rfl
      show t.sent <+: (t.begin u.ok).2.sent
      rw [hbegin]
      exact hsent _ _ _
  | commit => exact hsent _ _ _
  | savepoint name => exact hsent _ t.valid _
  | release name => exact hsent _ t.valid _
  | rollback sp =>
      cases sp with
      | none => exact hsent _ _ _
      | some sp => exact hsent _ t.valid _
  | statement qstr args => exact List.prefix_append _ _

theorem sent_prefix_foldl (t : PgSqlTransaction) (us : List Turn) :
    t.sent <+: (us.foldl (fun t u => (t.call u).2) t).sent := by
  induction us generalizing t with
  | nil => exact List.prefix_rfl
  | cons u us ih => exact (sent_prefix_call t u).trans (ih (t.call u).2)

/-- What is sent first has its place where all of it has. -/
theorem nesting_of_prefix {sent sent' : List (Command × Bool)} (h : sent <+: sent')
    (hne : nesting reads sent' ≠ none) : nesting reads sent ≠ none := by
  obtain ⟨more, rfl⟩ := h
  intro hnone
  rw [nesting_append, hnone] at hne
  exact hne rfl

theorem agrees_new : (new true).Agrees reads :=
  agrees_begin ⟨rfl, none, rfl, rfl⟩ fun _ => rfl

/-- Agreement in every state, of plain statements, needs the condition in every step. -/
theorem meets_of_visited {t : PgSqlTransaction} (h : t.Agrees reads) {us : List Turn}
    (hplain : Plain reads us) (hmark : ∀ t' ∈ visited next t us, t'.valid = opened reads t'.sent)
    (hnest : nesting reads (us.foldl (fun t u => (t.call u).2) t).sent ≠ none) :
    ∀ p ∈ inputs next t us, Meets reads p.1 p.2 := by
  induction us generalizing t with
  | nil => exact nofun
  | cons u us ih =>
      have hrest : ∀ t' ∈ visited next (t.call u).2 us, t'.valid = opened reads t'.sent :=
        fun t' hmem => hmark t' (List.mem_cons_of_mem _ hmem)
      have hm : t.Meets reads u := by
        apply meets_of_call h (hplain u List.mem_cons_self) (hrest _ (start_mem_visited _ _))
        exact nesting_of_prefix (sent_prefix_foldl (t.call u).2 us) hnest
      intro p hp
      rcases List.mem_cons.mp hp with rfl | hp
      · exact hm
      · exact ih (agrees_call h hm) (fun u' hu' => hplain u' (List.mem_cons_of_mem _ hu')) hrest hnest p hp

/-- An object that agrees with the server has no transaction left when it is gone. -/
theorem destroyed {t : PgSqlTransaction} (h : t.Agrees reads) {last : Bool}
    (hlast : t.valid = true → last = true) :
    Bracketed reads (t.destroy last).sent ∧ opened reads (t.destroy last).sent = false := by
  have hdestroy : (t.destroy last).Agrees reads := agrees_end h hlast (fun _ => rfl) rfl
  have hvalid : (t.destroy last).valid = false := by
    unfold destroy commit
    cases hv : t.valid with
    | true => rfl
    | false => exact hv
  exact ⟨hdestroy.nesting_of_not_valid hvalid, hdestroy.marked.symm.trans hvalid⟩

variable (reads)

/-- The flag tells whether there is a transaction, the commands are well bracketed and nothing stays
open when the server executes each BEGIN, COMMIT and ROLLBACK and the savepoints that are named are
there. When no statement is a transaction command they do so in these runs only. -/
theorem brackets_iff (first : Bool) (us : List Turn) (last : Bool) :
    Plain reads us ∧ Sound reads first us last ↔ Answered reads first us last := by
  constructor
  · rintro ⟨hplain, hsound⟩
    have hbegun : first = true := by
      cases first with
      | true => rfl
      | false =>
          have hmark := hsound.marked _ (start_mem_visited _ us)
          nomatch hmark
    subst hbegun
    have hnest : nesting reads (run true us).sent ≠ none := by
      have hdestroy : (run true us).sent <+: ((run true us).destroy last).sent :=
        sent_prefix_call (run true us) ⟨.commit, last⟩
      apply nesting_of_prefix hdestroy
      rw [show nesting reads ((run true us).destroy last).sent = some none from hsound.bracketed]
      exact nofun
    refine ⟨rfl, meets_of_visited agrees_new hplain hsound.marked hnest, ?_⟩
    intro hv
    -- a COMMIT that fails leaves the transaction as it was
    have hopen : opened reads (run true us).sent = true :=
      (hsound.marked _ (foldl_mem_visited _ us)).symm.trans hv
    have hclosed := hsound.closed
    unfold destroy commit at hclosed
    rw [if_pos hv] at hclosed
    have hlast := (opened_concat (run true us).sent .commit last).symm.trans hclosed
    cases last with
    | true => rfl
    | false => exact absurd (hopen.symm.trans hlast) (by exact nofun)
  · intro h
    have hbegun : first = true := h.begun
    subst hbegun
    have hagrees : ∀ t ∈ visited next (new true) us, t.Agrees reads := by
      apply forall_visited (M := fun t u => t.Meets reads u) _ agrees_new h.steps
      intro t u t' ht hm hnext
      rw [← Option.some.inj hnext]
      exact agrees_call ht hm
    have hend := destroyed (hagrees _ (foldl_mem_visited _ us)) h.ended
    refine ⟨?_, fun t ht => (hagrees t ht).marked, hend.1, hend.2⟩
    intro u hu qstr args hcall
    obtain ⟨t, ht⟩ := exists_input (f := fun t u => (call t u).2) hu (new true)
    have hm : t.Meets reads u := h.steps _ ht
    unfold Meets at hm
    rwa [hcall] at hm

/-- The server does not execute the COMMIT: the object takes the transaction for ended and leaves it
open. -/
theorem not_sound_commit : ¬ ∀ (first : Bool) (us : List Turn) (last : Bool),
    Sound (fun _ => .other) first us last := by
  intro h
  have hmark := (h true [⟨.commit, false⟩] true).closed
  revert hmark
  decide

end PgSqlTransaction
end

end Suil.Sql
