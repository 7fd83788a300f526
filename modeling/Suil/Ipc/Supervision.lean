import Suil.Lib.StepMachine

set_option autoImplicit false

/-! # The super process and its workers

`Worker` (`worker.cpp`): a super process forks the first worker, which launches the others, and waits for
them in `exit`. All of them have a table in shared memory. Here the processes make their steps in any order,
children exit at any time and each fork may fail. `supervises_iff` says in which runs the table is accessed
inside, and the loop of `exit` ends. -/

namespace Suil.Worker

/-! ## The processes and their table -/

/-- `Worker_t`. -/
structure Worker_t where
  Pid : Nat
  Active : Bool

/-- A child of the super process, up to when `waitpid` gives it. -/
structure Child where
  pid : Nat
  alive : Bool

/-- Where the super process is: in `init`, behind it, or in `exit`, with what `done` and `w` are. -/
inductive Super where
  | initializing (w : Nat)
  | forking
  | running
  | killing (w : Nat)
  | passing (done : Nat)
  | scanning (done w : Nat)
  | waiting (done w : Nat)
  | stopped

/-- Where the first worker is, in `launch` or not. -/
inductive First where
  | absent
  | out
  | piping (w : Nat)
  | spawning (w : Nat)
  | finishing
  | gone

/-- The shared memory and the processes. `forked` has the workers that are there but have not begun, and
`accessed` the indices with which the table has been accessed. -/
structure System where
  mWorkers : Nat
  Workers : List Worker_t
  nActive : Nat
  children : List Child
  super : Super
  first : First
  firstPid : Nat
  forked : List Nat
  accessed : List Nat

/-- When `init` is called; it refuses to have no workers. There may be other children. -/
def System.new (count : Nat) (children : List Child) : System where
  mWorkers := count
  Workers := List.replicate count ⟨0, false⟩
  nActive := 0
  children := children
  super := if count = 0 then .stopped else .initializing 0
  first := .absent
  firstPid := 0
  forked := []
  accessed := []

namespace System

/-- A field of one byte. -/
def nWorkers (s : System) : Nat := s.mWorkers % 256

def access (s : System) (is : List Nat) : System := { s with accessed := s.accessed ++ is }

/-- A loop over the table from `start` on, up to a worker with this number. -/
def find (s : System) (start pid : Nat) : Option Nat :=
  (List.range' start (s.nWorkers - start)).find? fun i => s.Workers[i]?.any (·.Pid = pid)

/-- What it accesses. -/
def looked (s : System) (start pid : Nat) : List Nat :=
  match s.find start pid with
  | some i => List.range' start (i + 1 - start)
  | none => List.range' start (s.nWorkers - start)

/-- `worker.Active = 0`. -/
def retire (s : System) : Option Nat → System
  | some i => { s with Workers := s.Workers.modify i fun wrk => { wrk with Active := false } }
  | none => s

/-- `initializeIpc(mIpc->Workers[w])`. -/
def initializeIpc (s : System) (w : Nat) : System :=
  { s with
    Workers := s.Workers.modify w fun wrk => { wrk with Active := true }
    accessed := s.accessed ++ w :: if 1 < s.nWorkers then List.range s.nWorkers else [] }

/-- A step of the first worker; `result` is that of `pipe` or of `fork`. -/
def firstStep (s : System) (result : Option Nat) : Option System :=
  match s.first with
  | .absent | .gone => none
  | .out => some { s with first := if 1 < s.nWorkers then .piping 0 else .spawning 1 }
  | .piping w =>
      if w < s.nWorkers then
        some { s.access [w] with first := if result.isSome then .piping (w + 1) else .gone }
      else some { s with first := .spawning 1 }
  | .spawning w =>
      if w < s.mWorkers then
        match result with
        | some pid =>
            some { s.access [w] with
              Workers := s.Workers.modify w fun wrk => { wrk with Pid := pid }
              forked := s.forked ++ [w]
              first := .spawning ((w + 1) % 256) }
        | none => some { s with first := .out }
      else some { s with first := .finishing }
  | .finishing =>
      let s := s.initializeIpc 0
      some { s with
        Workers := s.Workers.modify 0 fun wrk => { wrk with Pid := s.firstPid }
        first := .out }

/-- A worker that has been forked begins. -/
def begins (s : System) (w : Nat) : Option System :=
  if w ∈ s.forked then
    some { s.initializeIpc w with nActive := (s.nActive + 1) % 256, forked := s.forked.erase w }
  else none

/-- `Parent_sa_handler`, in the first worker. -/
def sigchld (s : System) (pid : Nat) : Option System :=
  match s.first with
  | .absent | .gone => none
  | _ =>
      let found := s.find 1 pid
      let s := (s.access (s.looked 1 pid)).retire found
      some { s with nActive := if found.isSome then (s.nActive + 255) % 256 else s.nActive }

/-- A child of the super process exits. -/
def childExits (s : System) (i : Nat) : Option System :=
  match s.children[i]? with
  | some c =>
      if c.alive then some { s with children := s.children.set i { c with alive := false } } else none
  | none => none

/-- `exit` is called in the super process. -/
def exit (s : System) (wait : Bool) : Option System :=
  match s.super with
  | .running =>
      some { s with super := if s.nActive = 0 then .stopped else if wait then .passing 0 else .killing 0 }
  | _ => none

end System

/-- What a step of the super process meets: the result of `fork`, the child that `waitpid` gives, and what
is behind the table. -/
structure Answer where
  fork : Option Nat
  child : Nat
  behind : Bool

namespace System

/-- `workerWait(true)`, and the loop behind it: without a child it is left with `break`, and a child that is
alive is waited for. A `waitpid` that a signal interrupts, which is taken for one without a child, is left
out. -/
def workerWait (s : System) (done w child : Nat) : Option System :=
  if s.children = [] then some { s with super := .passing done }
  else
    match s.children[child]? with
    | some c =>
        if c.alive then none
        else
          let s := { s with children := s.children.eraseIdx child }
          let s := (s.access (s.looked 0 c.pid)).retire (s.find 0 c.pid)
          some { s with super := .scanning ((done + 1) % 256) ((w + 1) % 256) }
    | none => none

/-- A step of the super process, in `init` or in `exit`. -/
def superStep (s : System) (a : Answer) : Option System :=
  match s.super with
  | .initializing w =>
      if w < s.mWorkers then some { s.access [w] with super := .initializing ((w + 1) % 256) }
      else some { s with nActive := (s.nActive + 1) % 256, super := .forking }
  | .forking =>
      match a.fork with
      | some pid =>
          some { s with
            children := s.children ++ [⟨pid, true⟩], first := .out, firstPid := pid, super := .running }
      | none => some { s with super := .running }
  | .killing w =>
      if w ≤ s.mWorkers then some { s.access [w] with super := .killing ((w + 1) % 256) }
      else some { s with super := .passing 0 }
  | .passing done => some { s with super := if done < s.nWorkers then .scanning done 0 else .stopped }
  | .scanning done w =>
      if w ≤ s.mWorkers then
        let active := (s.Workers[w]?.map Worker_t.Active).getD a.behind
        some { s.access [w] with
          super := if active then .waiting done w else .scanning done ((w + 1) % 256) }
      else some { s with super := .passing done }
  | .waiting done w => s.workerWait done w a.child
  | .running | .stopped => none

end System

inductive Act where
  | super (a : Answer)
  | first (result : Option Nat)
  | begins (w : Nat)
  | sigchld (pid : Nat)
  | childExits (i : Nat)
  | exit (wait : Bool)

/-- One step of a process, or the exit of a child. -/
def step (s : System) : Act → Option System
  | .super a => s.superStep a
  | .first result => s.firstStep result
  | .begins w => s.begins w
  | .sigchld pid => s.sigchld pid
  | .childExits i => s.childExits i
  | .exit wait => s.exit wait

/-! ## Supervised runs -/

/-- The table has been accessed inside. -/
def System.Inside (s : System) : Prop := ∀ i ∈ s.accessed, i < s.Workers.length

/-- The super process is in the loop that waits. -/
def Super.Waits : Super → Prop
  | .passing _ | .scanning _ _ | .waiting _ _ => True
  | _ => False

/-- The super process gets out of `exit`, and the table is accessed inside up to there. -/
def System.Ends (s : System) : Prop :=
  ∃ (acts : List Act) (s' : System), acts.foldlM step s = some s' ∧ s'.super = .stopped ∧ s'.Inside

/-- All accesses are inside, and the loop ends when no child is alive. -/
structure Supervised (s : System) : Prop where
  inside : s.Inside
  ends : s.super.Waits → (∀ c ∈ s.children, c.alive = false) → s.Ends

/-! ## Steps below the number of workers -/

/-- The index of a loop of `exit`. -/
def Super.index : Super → Option Nat
  | .killing w | .scanning _ w => some w
  | _ => none

/-- No loop of `exit` comes to an index that is the number of the workers. The loop that waits starts when a
child is alive, and the last one does not exit in it. -/
def Meets (s : System) : Act → Prop
  | .super _ => s.super.index ≠ some s.mWorkers
  | .exit wait => wait = true → s.super = .running → s.nActive ≠ 0 → ∃ c ∈ s.children, c.alive = true
  | .childExits i => s.super.Waits → ∀ c, s.children[i]? = some c → c.alive = true →
      ∃ j d, j ≠ i ∧ s.children[j]? = some d ∧ d.alive = true
  | .first _ | .begins _ | .sigchld _ => True

/-! ## Accesses -/

namespace System

theorem nWorkers_le (s : System) : s.nWorkers ≤ s.mWorkers := Nat.mod_le _ _

theorem lt_of_mem_looked {s : System} {start pid i : Nat} (h : i ∈ s.looked start pid) :
    i < s.nWorkers := by
  rw [looked] at h
  cases hfind : s.find start pid with
  | none =>
      rw [hfind, List.mem_range'_1] at h
      omega
  | some j =>
      rw [hfind, List.mem_range'_1] at h
      have hj := List.mem_range'_1.mp (List.mem_of_find?_eq_some hfind)
      omega

/-- What a step leaves as it is, and that the accesses are kept. -/
structure Frame (s s' : System) : Prop where
  mWorkers : s'.mWorkers = s.mWorkers
  length : s'.Workers.length = s.Workers.length
  accessed : s.accessed <+: s'.accessed

theorem Frame.refl (s : System) : Frame s s := ⟨rfl, rfl, List.prefix_rfl⟩

theorem frame_initializeIpc (s : System) (w : Nat) : Frame s (s.initializeIpc w) :=
  ⟨rfl, List.length_modify _ _ _, List.prefix_append _ _⟩

theorem Frame.inside {s s' : System} (h : Frame s s') (hs' : s'.Inside) : s.Inside := by
  intro i hi
  rw [← h.length]
  exact hs' i (h.accessed.subset hi)

theorem retire_eq (s : System) (found : Option Nat) :
    ∃ ws : List Worker_t, ws.length = s.Workers.length ∧ s.retire found = { s with Workers := ws } := by
  cases found with
  | none => exact ⟨s.Workers, rfl, rfl⟩
  | some i => exact ⟨_, List.length_modify _ _ _, rfl⟩

theorem inside_append {s : System} (h : s.Inside) {is : List Nat}
    (his : ∀ i ∈ is, i < s.Workers.length) : ∀ i ∈ s.accessed ++ is, i < s.Workers.length := by
  intro i hi
  rcases List.mem_append.mp hi with hi | hi
  · exact h i hi
  · exact his i hi

end System

/-! ## The invariant -/

/-- What `done` and `w` are: in the loop that waits, so many children at most have been waited for as slots
have been seen, or there is no child any more. -/
def Super.Fits (n : Nat) (children : List Child) : Super → Prop
  | .initializing w => 0 < n ∧ w < 256
  | .forking | .running => 0 < n ∧ n < 256
  | .killing w => 0 < n ∧ n < 256 ∧ w ≤ n
  | .passing done => n < 256 ∧ done < n ∧ (done = 0 ∨ children = [])
  | .scanning done w => n < 256 ∧ w ≤ n ∧ (done ≤ w ∨ children = [] ∧ done < n)
  | .waiting done w => n < 256 ∧ w < n ∧ (done ≤ w ∨ children = [] ∧ done < n)
  | .stopped => True

structure Inv (s : System) : Prop where
  length : s.Workers.length = s.mWorkers
  inside : s.Inside
  forked : ∀ w ∈ s.forked, w < s.mWorkers
  first : s.first = .absent ∨ 0 < s.mWorkers
  super : s.super.Fits s.mWorkers s.children

theorem inv_new (count : Nat) (children : List Child) : Inv (.new count children) where
  length := List.length_replicate
  inside := nofun
  forked := nofun
  first := .inl rfl
  super := by
    rw [System.new]
    dsimp only
    split_ifs with hzero
    · trivial
    · exact ⟨Nat.pos_of_ne_zero hzero, by omega⟩

variable {s s' : System}

theorem Inv.inside_access (h : Inv s) {is : List Nat} (his : ∀ i ∈ is, i < s.mWorkers) :
    ∀ i ∈ s.accessed ++ is, i < s.Workers.length :=
  System.inside_append h.inside fun i hi => h.length ▸ his i hi

theorem Inv.inside_one (h : Inv s) {w : Nat} (hw : w < s.mWorkers) :
    ∀ i ∈ s.accessed ++ [w], i < s.Workers.length :=
  h.inside_access fun _ hi => List.mem_singleton.mp hi ▸ hw

/-- A process that is not the super process keeps the invariant, and leaves to the super process what it
has. -/
structure Others (s s' : System) : Prop where
  inv : Inv s'
  super : s'.super = s.super
  children : s'.children = s.children

theorem Inv.initializeIpc (h : Inv s) {w : Nat} (hw : w < s.mWorkers) : Inv (s.initializeIpc w) where
  length := (List.length_modify _ _ _).trans h.length
  inside := by
    intro i hi
    refine Nat.lt_of_lt_of_eq ?_ (List.length_modify _ s.Workers w).symm
    refine h.inside_access ?_ i hi
    intro j hj
    rcases List.mem_cons.mp hj with rfl | hj
    · exact hw
    · split_ifs at hj
      · exact Nat.lt_of_lt_of_le (List.mem_range.mp hj) s.nWorkers_le
      · nomatch hj
  forked := h.forked
  first := h.first
  super := h.super

/-- The first worker. -/
theorem Inv.firstStep (h : Inv s) {result : Option Nat} (hstep : s.firstStep result = some s') :
    Others s s' := by
  rw [System.firstStep] at hstep
  -- there is a first worker only when there is a worker
  have hpos : s.first ≠ .absent → 0 < s.mWorkers := fun hne => h.first.resolve_left hne
  cases hfirst : s.first with
  | absent =>
      rw [hfirst] at hstep
      nomatch hstep
  | gone =>
      rw [hfirst] at hstep
      nomatch hstep
  | out =>
      rw [hfirst] at hstep hpos
      cases hstep
      exact ⟨⟨h.length, h.inside, h.forked, .inr (hpos nofun), h.super⟩, rfl, rfl⟩
  | piping w =>
      rw [hfirst] at hstep hpos
      dsimp only at hstep
      by_cases hw : w < s.nWorkers
      · rw [if_pos hw] at hstep
        cases hstep
        have hin := h.inside_one (Nat.lt_of_lt_of_le hw s.nWorkers_le)
        exact ⟨⟨h.length, hin, h.forked, .inr (hpos nofun), h.super⟩, rfl, rfl⟩
      · rw [if_neg hw] at hstep
        cases hstep
        exact ⟨⟨h.length, h.inside, h.forked, .inr (hpos nofun), h.super⟩, rfl, rfl⟩
  | spawning w =>
      rw [hfirst] at hstep hpos
      dsimp only at hstep
      split_ifs at hstep with hw
      · cases result with
        | none =>
            cases hstep
            exact ⟨⟨h.length, h.inside, h.forked, .inr (hpos nofun), h.super⟩, rfl, rfl⟩
        | some pid =>
            cases hstep
            -- the worker that was spawned is one of the table
            refine ⟨⟨(List.length_modify _ _ _).trans h.length, ?_, ?_, .inr (hpos nofun), h.super⟩,
              rfl, rfl⟩
            · intro i hi
              exact Nat.lt_of_lt_of_eq (h.inside_one hw i hi) (List.length_modify _ _ _).symm
            · intro v hv
              rcases List.mem_append.mp hv with hv | hv
              · exact h.forked v hv
              · exact List.mem_singleton.mp hv ▸ hw
      · cases hstep
        exact ⟨⟨h.length, h.inside, h.forked, .inr (hpos nofun), h.super⟩, rfl, rfl⟩
  | finishing =>
      rw [hfirst] at hstep hpos
      have hinit := h.initializeIpc (hpos nofun)
      cases hstep
      refine ⟨⟨(List.length_modify _ _ _).trans hinit.length, ?_, hinit.forked, .inr (hpos nofun),
        hinit.super⟩, rfl, rfl⟩
      intro i hi
      exact Nat.lt_of_lt_of_eq (hinit.inside i hi) (List.length_modify _ _ _).symm

/-- A worker that has been forked. -/
theorem Inv.begins (h : Inv s) {w : Nat} (hstep : s.begins w = some s') : Others s s' := by
  rw [System.begins] at hstep
  split_ifs at hstep with hw
  have hinit := h.initializeIpc (h.forked w hw)
  cases hstep
  exact ⟨⟨hinit.length, hinit.inside, fun v hv => h.forked v (List.mem_of_mem_erase hv), hinit.first,
    hinit.super⟩, rfl, rfl⟩

/-- The handler of the first worker. -/
theorem Inv.sigchld (h : Inv s) {pid : Nat} (hstep : s.sigchld pid = some s') : Others s s' := by
  have hin : ∀ i ∈ s.accessed ++ s.looked 1 pid, i < s.Workers.length :=
    h.inside_access fun i hi => Nat.lt_of_lt_of_le (System.lt_of_mem_looked hi) s.nWorkers_le
  obtain ⟨ws, hws, hretire⟩ := (s.access (s.looked 1 pid)).retire_eq (s.find 1 pid)
  rw [System.sigchld] at hstep
  split at hstep
  · nomatch hstep
  · nomatch hstep
  · dsimp only at hstep
    rw [hretire] at hstep
    cases hstep
    exact ⟨⟨hws.trans h.length, fun i hi => hws ▸ hin i hi, h.forked, h.first, h.super⟩, rfl, rfl⟩

theorem Super.Fits.of_children {n : Nat} {cs cs' : List Child} {pc : Super} (hnil : cs = [] → cs' = [])
    (h : pc.Fits n cs) : pc.Fits n cs' := by
  cases pc with
  | initializing w => exact h
  | forking => exact h
  | running => exact h
  | killing w => exact h
  | stopped => exact h
  | passing done => exact ⟨h.1, h.2.1, h.2.2.imp_right hnil⟩
  | scanning done w => exact ⟨h.1, h.2.1, h.2.2.imp_right fun hright => ⟨hnil hright.1, hright.2⟩⟩
  | waiting done w => exact ⟨h.1, h.2.1, h.2.2.imp_right fun hright => ⟨hnil hright.1, hright.2⟩⟩

/-- A child of the super process. -/
theorem Inv.childExits (h : Inv s) {i : Nat} (hstep : s.childExits i = some s') :
    Inv s' ∧ s'.super = s.super ∧ ∃ c, s.children[i]? = some c ∧ c.alive = true ∧
      s'.children = s.children.set i { c with alive := false } := by
  rw [System.childExits] at hstep
  cases hc : s.children[i]? with
  | none =>
      rw [hc] at hstep
      nomatch hstep
  | some c =>
      rw [hc] at hstep
      dsimp only at hstep
      split_ifs at hstep with halive
      cases hstep
      refine ⟨⟨h.length, h.inside, h.forked, h.first, h.super.of_children fun hnil => ?_⟩, rfl, c, rfl,
        halive, rfl⟩
      rw [hnil, List.set_nil]

/-- The call of `exit`. -/
theorem Inv.exit (h : Inv s) {wait : Bool} (hstep : s.exit wait = some s') :
    Inv s' ∧ s.super = .running ∧ s'.children = s.children ∧
      s'.super = if s.nActive = 0 then .stopped else if wait then .passing 0 else .killing 0 := by
  have hfits := h.super
  rw [System.exit] at hstep
  cases hsuper : s.super with
  | running =>
      rw [hsuper] at hstep hfits
      cases hstep
      refine ⟨⟨h.length, h.inside, h.forked, h.first, ?_⟩, rfl, rfl, rfl⟩
      dsimp only
      split_ifs
      · trivial
      · exact ⟨hfits.2, hfits.1, .inl rfl⟩
      · exact ⟨hfits.1, hfits.2, Nat.zero_le _⟩
  | initializing w => rw [hsuper] at hstep; nomatch hstep
  | forking => rw [hsuper] at hstep; nomatch hstep
  | killing w => rw [hsuper] at hstep; nomatch hstep
  | passing done => rw [hsuper] at hstep; nomatch hstep
  | scanning done w => rw [hsuper] at hstep; nomatch hstep
  | waiting done w => rw [hsuper] at hstep; nomatch hstep
  | stopped => rw [hsuper] at hstep; nomatch hstep

/-- What a step of the super process keeps: it is in the loop that waits as it was, and the children that
are alive are there. -/
structure Advances (s s' : System) : Prop where
  inv : Inv s'
  waits : s'.super.Waits ↔ s.super.Waits
  alive : ∀ c ∈ s.children, c.alive = true → c ∈ s'.children

/-- `workerWait` in the loop. -/
theorem Inv.workerWait (h : Inv s) {done w child : Nat} (hsuper : s.super = .waiting done w)
    (hstep : s.workerWait done w child = some s') : Advances s s' := by
  obtain ⟨hn, hw, hdone⟩ : (Super.waiting done w).Fits s.mWorkers s.children := hsuper ▸ h.super
  have hwaits : s.super.Waits := hsuper ▸ trivial
  rw [System.workerWait] at hstep
  split_ifs at hstep with hnil
  · -- there is no child
    have hlt : done < s.mWorkers := by omega
    cases hstep
    exact ⟨⟨h.length, h.inside, h.forked, h.first, hn, hlt, .inr hnil⟩, iff_of_true trivial hwaits,
      fun c hc _ => hc⟩
  cases hc : s.children[child]? with
  | none =>
      rw [hc] at hstep
      nomatch hstep
  | some c =>
      rw [hc] at hstep
      dsimp only at hstep
      split_ifs at hstep with halive
      -- one more child is done, and one more slot
      obtain ⟨ws, hws, hretire⟩ := (({ s with children := s.children.eraseIdx child }).access
        (s.looked 0 c.pid)).retire_eq (s.find 0 c.pid)
      have hin : ∀ i ∈ s.accessed ++ s.looked 0 c.pid, i < s.Workers.length :=
        h.inside_access fun i hi => Nat.lt_of_lt_of_le (System.lt_of_mem_looked hi) s.nWorkers_le
      have hle : done ≤ w := hdone.resolve_right fun hright => hnil hright.1
      have hdone' : (done + 1) % 256 = done + 1 := Nat.mod_eq_of_lt (by omega)
      have hw' : (w + 1) % 256 = w + 1 := Nat.mod_eq_of_lt (by omega)
      have hs' : s' = { ({ s with children := s.children.eraseIdx child }).access (s.looked 0 c.pid) with
          Workers := ws, super := .scanning ((done + 1) % 256) ((w + 1) % 256) } := by
        refine (Option.some.inj hstep).symm.trans ?_
        exact congrArg (fun t => { t with super := .scanning ((done + 1) % 256) ((w + 1) % 256) }) hretire
      rw [hdone', hw'] at hs'
      subst hs'
      refine ⟨⟨hws.trans h.length, fun i hi => hws ▸ hin i hi, h.forked, h.first, hn, hw,
        .inl (Nat.succ_le_succ hle)⟩, iff_of_true trivial hwaits, fun d hd hdalive => ?_⟩
      obtain ⟨j, hj⟩ := List.mem_iff_getElem?.mp hd
      refine List.mem_eraseIdx_iff_getElem?.mpr ⟨j, fun heq => ?_, hj⟩
      subst heq
      rw [hc] at hj
      cases hj
      exact halive hdalive

/-- **A step of the super process**, unless it comes to the index behind the table. -/
theorem Inv.superStep (h : Inv s) {a : Answer} (hindex : s.super.index ≠ some s.mWorkers)
    (hstep : s.superStep a = some s') : Advances s s' := by
  have hfits := h.super
  rw [System.superStep] at hstep
  cases hsuper : s.super with
  | initializing w =>
      rw [hsuper] at hstep hfits
      obtain ⟨hpos, hw⟩ := hfits
      dsimp only at hstep
      split_ifs at hstep with hlt
      · cases hstep
        exact ⟨⟨h.length, h.inside_one hlt, h.forked, h.first, hpos, Nat.mod_lt _ (by omega)⟩,
          hsuper ▸ Iff.rfl, fun c hc _ => hc⟩
      -- the loop ends with the table in its bounds
      · have hn : s.mWorkers < 256 := by omega
        cases hstep
        exact ⟨⟨h.length, h.inside, h.forked, h.first, hpos, hn⟩, hsuper ▸ Iff.rfl, fun c hc _ => hc⟩
  | forking =>
      rw [hsuper] at hstep hfits
      dsimp only at hstep
      cases hfork : a.fork with
      | none =>
          rw [hfork] at hstep
          cases hstep
          exact ⟨⟨h.length, h.inside, h.forked, h.first, hfits⟩, hsuper ▸ Iff.rfl, fun c hc _ => hc⟩
      | some pid =>
          rw [hfork] at hstep
          cases hstep
          exact ⟨⟨h.length, h.inside, h.forked, .inr hfits.1, hfits⟩, hsuper ▸ Iff.rfl,
            fun c hc _ => List.mem_append_left _ hc⟩
  | killing w =>
      rw [hsuper] at hstep hfits hindex
      obtain ⟨hpos, hn, hle⟩ := hfits
      -- it is not the index behind the table, so that the worker is there
      have hlt : w < s.mWorkers := Nat.lt_of_le_of_ne hle fun heq => hindex (congrArg some heq)
      dsimp only at hstep
      rw [if_pos hle] at hstep
      cases hstep
      refine ⟨⟨h.length, h.inside_one hlt, h.forked, h.first, hpos, hn, ?_⟩, hsuper ▸ Iff.rfl,
        fun c hc _ => hc⟩
      exact Nat.le_trans (Nat.mod_le _ _) hlt
  | passing done =>
      rw [hsuper] at hstep hfits
      obtain ⟨hn, hdone, hor⟩ := hfits
      have hn' : s.nWorkers = s.mWorkers := Nat.mod_eq_of_lt hn
      dsimp only at hstep
      rw [hn', if_pos hdone] at hstep
      cases hstep
      refine ⟨⟨h.length, h.inside, h.forked, h.first, hn, Nat.zero_le _, ?_⟩, hsuper ▸ Iff.rfl,
        fun c hc _ => hc⟩
      exact hor.imp (fun hzero => Nat.le_of_eq hzero) fun hnil => ⟨hnil, hdone⟩
  | scanning done w =>
      rw [hsuper] at hstep hfits hindex
      obtain ⟨hn, hle, hor⟩ := hfits
      have hlt : w < s.mWorkers := Nat.lt_of_le_of_ne hle fun heq => hindex (congrArg some heq)
      have hw' : (w + 1) % 256 = w + 1 := Nat.mod_eq_of_lt (by omega)
      dsimp only at hstep
      rw [if_pos hle, hw'] at hstep
      -- a worker that is not active is counted as done
      have hor' : done ≤ w + 1 ∨ s.children = [] ∧ done < s.mWorkers :=
        hor.imp_left fun hdone => Nat.le_succ_of_le hdone
      have hwaits : s.super.Waits := hsuper ▸ trivial
      have hin := h.inside_one hlt
      generalize (s.Workers[w]?.map Worker_t.Active).getD a.behind = active at hstep
      cases active with
      | true =>
          cases hstep
          exact ⟨⟨h.length, hin, h.forked, h.first, hn, hlt, hor⟩, iff_of_true trivial hwaits,
            fun c hc _ => hc⟩
      | false =>
          cases hstep
          exact ⟨⟨h.length, hin, h.forked, h.first, hn, hlt, hor'⟩, iff_of_true trivial hwaits,
            fun c hc _ => hc⟩
  | waiting done w =>
      rw [hsuper] at hstep
      exact h.workerWait hsuper hstep
  | running => rw [hsuper] at hstep; nomatch hstep
  | stopped => rw [hsuper] at hstep; nomatch hstep

/-! ## Every step -/

/-- Without the index behind the table the invariant is kept, and so is the loop that waits. -/
theorem Inv.of_step (h : Inv s) {a : Act} (hstep : step s a = some s')
    (hindex : ∀ b, a = .super b → s.super.index ≠ some s.mWorkers) :
    Inv s' ∧ (s.super.Waits → s'.super.Waits) := by
  cases a with
  | super b =>
      have hadvances := h.superStep (hindex b rfl) hstep
      exact ⟨hadvances.inv, hadvances.waits.mpr⟩
  | first result =>
      obtain ⟨hinv, hsuper, -⟩ := h.firstStep hstep
      exact ⟨hinv, fun hwaits => hsuper ▸ hwaits⟩
  | begins w =>
      obtain ⟨hinv, hsuper, -⟩ := h.begins hstep
      exact ⟨hinv, fun hwaits => hsuper ▸ hwaits⟩
  | sigchld pid =>
      obtain ⟨hinv, hsuper, -⟩ := h.sigchld hstep
      exact ⟨hinv, fun hwaits => hsuper ▸ hwaits⟩
  | childExits i =>
      obtain ⟨hinv, hsuper, -⟩ := h.childExits hstep
      exact ⟨hinv, fun hwaits => hsuper ▸ hwaits⟩
  | exit wait =>
      obtain ⟨hinv, hrunning, -⟩ := h.exit hstep
      exact ⟨hinv, fun hwaits => absurd hwaits (by rw [hrunning]; exact id)⟩

/-- The index behind the table is accessed. -/
theorem mem_accessed_of_index {b : Answer} (hindex : s.super.index = some s.mWorkers)
    (hstep : s.superStep b = some s') :
    s.mWorkers ∈ s'.accessed ∧ s'.Workers.length = s.Workers.length := by
  have hlast : s.mWorkers ∈ s.accessed ++ [s.mWorkers] := List.mem_append_right _ List.mem_cons_self
  rw [System.superStep] at hstep
  cases hsuper : s.super with
  | killing w =>
      rw [hsuper] at hstep hindex
      obtain rfl := Option.some.inj hindex
      dsimp only at hstep
      rw [if_pos (Nat.le_refl _)] at hstep
      cases hstep
      exact ⟨hlast, rfl⟩
  | scanning done w =>
      rw [hsuper] at hstep hindex
      obtain rfl := Option.some.inj hindex
      dsimp only at hstep
      rw [if_pos (Nat.le_refl _)] at hstep
      cases hstep
      exact ⟨hlast, rfl⟩
  | initializing w => rw [hsuper] at hindex; nomatch hindex
  | forking => rw [hsuper] at hindex; nomatch hindex
  | running => rw [hsuper] at hindex; nomatch hindex
  | passing done => rw [hsuper] at hindex; nomatch hindex
  | waiting done w => rw [hsuper] at hindex; nomatch hindex
  | stopped => rw [hsuper] at hindex; nomatch hindex

/-! ## Accesses are kept -/

namespace System

theorem frame_retire (s : System) (is : List Nat) (found : Option Nat) :
    Frame s ((s.access is).retire found) := by
  obtain ⟨ws, hws, hretire⟩ := (s.access is).retire_eq found
  rw [hretire]
  exact ⟨rfl, hws, List.prefix_append _ _⟩

theorem frame_workerWait {done w child : Nat} (hstep : s.workerWait done w child = some s') :
    Frame s s' := by
  rw [workerWait] at hstep
  split_ifs at hstep
  · cases hstep
    exact ⟨rfl, rfl, List.prefix_rfl⟩
  cases hc : s.children[child]? with
  | none =>
      rw [hc] at hstep
      nomatch hstep
  | some c =>
      rw [hc] at hstep
      dsimp only at hstep
      split_ifs at hstep
      cases hstep
      obtain ⟨hn, hlength, haccessed⟩ := frame_retire { s with children := s.children.eraseIdx child }
        (s.looked 0 c.pid) (s.find 0 c.pid)
      exact ⟨hn, hlength, haccessed⟩

theorem frame_superStep {a : Answer} (hstep : s.superStep a = some s') : Frame s s' := by
  rw [superStep] at hstep
  -- the table is only read, by the initialisation, the killing and the scanning
  cases hsuper : s.super with
  | initializing w =>
      rw [hsuper] at hstep
      dsimp only at hstep
      split_ifs at hstep
      · cases hstep
        exact ⟨rfl, rfl, List.prefix_append _ _⟩
      · cases hstep
        exact ⟨rfl, rfl, List.prefix_rfl⟩
  | forking =>
      rw [hsuper] at hstep
      dsimp only at hstep
      cases hfork : a.fork with
      | none =>
          rw [hfork] at hstep
          cases hstep
          exact ⟨rfl, rfl, List.prefix_rfl⟩
      | some pid =>
          rw [hfork] at hstep
          cases hstep
          exact ⟨rfl, rfl, List.prefix_rfl⟩
  | killing w =>
      rw [hsuper] at hstep
      dsimp only at hstep
      split_ifs at hstep
      · cases hstep
        exact ⟨rfl, rfl, List.prefix_append _ _⟩
      · cases hstep
        exact ⟨rfl, rfl, List.prefix_rfl⟩
  | passing done =>
      rw [hsuper] at hstep
      cases hstep
      exact ⟨rfl, rfl, List.prefix_rfl⟩
  | scanning done w =>
      rw [hsuper] at hstep
      dsimp only at hstep
      by_cases hle : w ≤ s.mWorkers
      · rw [if_pos hle] at hstep
        cases hstep
        exact ⟨rfl, rfl, List.prefix_append _ _⟩
      · rw [if_neg hle] at hstep
        cases hstep
        exact ⟨rfl, rfl, List.prefix_rfl⟩
  | waiting done w =>
      rw [hsuper] at hstep
      exact frame_workerWait hstep
  | running => rw [hsuper] at hstep; nomatch hstep
  | stopped => rw [hsuper] at hstep; nomatch hstep

theorem frame_firstStep {result : Option Nat} (hstep : s.firstStep result = some s') : Frame s s' := by
  rw [firstStep] at hstep
  cases hfirst : s.first with
  | absent => rw [hfirst] at hstep; nomatch hstep
  | gone => rw [hfirst] at hstep; nomatch hstep
  | out =>
      rw [hfirst] at hstep
      cases hstep
      exact ⟨rfl, rfl, List.prefix_rfl⟩
  | piping w =>
      rw [hfirst] at hstep
      dsimp only at hstep
      by_cases hw : w < s.nWorkers
      · rw [if_pos hw] at hstep
        cases hstep
        exact ⟨rfl, rfl, List.prefix_append _ _⟩
      · rw [if_neg hw] at hstep
        cases hstep
        exact ⟨rfl, rfl, List.prefix_rfl⟩
  | spawning w =>
      rw [hfirst] at hstep
      dsimp only at hstep
      split_ifs at hstep
      · cases result with
        | none =>
            cases hstep
            exact ⟨rfl, rfl, List.prefix_rfl⟩
        | some pid =>
            cases hstep
            exact ⟨rfl, List.length_modify _ _ _, List.prefix_append _ _⟩
      · cases hstep
        exact ⟨rfl, rfl, List.prefix_rfl⟩
  | finishing =>
      rw [hfirst] at hstep
      cases hstep
      obtain ⟨hn, hlength, haccessed⟩ := frame_initializeIpc s 0
      exact ⟨hn, (List.length_modify _ _ _).trans hlength, haccessed⟩

end System

/-- **Accesses are never taken back.** -/
theorem frame_step {a : Act} (hstep : step s a = some s') : s.Frame s' := by
  cases a with
  | super b => exact System.frame_superStep hstep
  | first result => exact System.frame_firstStep hstep
  | begins w =>
      change s.begins w = some s' at hstep
      rw [System.begins] at hstep
      split_ifs at hstep
      cases hstep
      obtain ⟨hn, hlength, haccessed⟩ := System.frame_initializeIpc s w
      exact ⟨hn, hlength, haccessed⟩
  | sigchld pid =>
      change s.sigchld pid = some s' at hstep
      rw [System.sigchld] at hstep
      obtain ⟨hn, hlength, haccessed⟩ := System.frame_retire s (s.looked 1 pid) (s.find 1 pid)
      split at hstep
      · nomatch hstep
      · nomatch hstep
      · cases hstep
        exact ⟨hn, hlength, haccessed⟩
  | childExits i =>
      change s.childExits i = some s' at hstep
      rw [System.childExits] at hstep
      split at hstep
      · split_ifs at hstep
        cases hstep
        exact ⟨rfl, rfl, List.prefix_rfl⟩
      · nomatch hstep
  | exit wait =>
      change s.exit wait = some s' at hstep
      rw [System.exit] at hstep
      split at hstep
      · cases hstep
        exact ⟨rfl, rfl, List.prefix_rfl⟩
      · nomatch hstep

/-! ## The loop that waits -/

theorem inside_of_run {acts : List Act} (hrun : acts.foldlM step s = some s') (hin : s'.Inside) :
    s.Inside := by
  induction acts generalizing s with
  | nil =>
      cases hrun
      exact hin
  | cons a acts ih =>
      rw [List.foldlM_cons] at hrun
      obtain ⟨t, hstep, hrest⟩ := Option.bind_eq_some_iff.mp hrun
      exact (frame_step hstep).inside (ih hrest)

/-- A step that leaves all accesses inside. -/
theorem Inv.step_of_inside (h : Inv s) {a : Act} (hstep : step s a = some s') (hin : s'.Inside) :
    Inv s' ∧ (s.super.Waits → s'.super.Waits) := by
  refine h.of_step hstep fun b hb hindex => ?_
  subst hb
  obtain ⟨hmem, hlength⟩ := mem_accessed_of_index hindex hstep
  have hlt := hin s.mWorkers hmem
  rw [hlength, h.length] at hlt
  exact Nat.lt_irrefl _ hlt

/-- **The loop that waits does not end**, whatever the processes do, when all accesses are inside. -/
theorem Inv.waits_run (h : Inv s) (hwaits : s.super.Waits) {acts : List Act}
    (hrun : acts.foldlM step s = some s') (hin : s'.Inside) : s'.super.Waits := by
  induction acts generalizing s with
  | nil =>
      cases hrun
      exact hwaits
  | cons a acts ih =>
      rw [List.foldlM_cons] at hrun
      obtain ⟨t, hstep, hrest⟩ := Option.bind_eq_some_iff.mp hrun
      obtain ⟨hinv, hkept⟩ := h.step_of_inside hstep (inside_of_run hrest hin)
      exact ih hinv (hkept hwaits) hrest

theorem Inv.not_ends (h : Inv s) (hwaits : s.super.Waits) : ¬ s.Ends := by
  rintro ⟨acts, s', hrun, hover, hin⟩
  have hlast := h.waits_run hwaits hrun hin
  rw [hover] at hlast
  exact hlast

/-! ## Runs -/

/-- The invariant, and a child that is alive as long as the super process waits. -/
def Kept (s : System) : Prop := Inv s ∧ (s.super.Waits → ∃ c ∈ s.children, c.alive = true)

theorem Kept.supervised (h : Kept s) : Supervised s where
  inside := h.1.inside
  ends := by
    intro hwaits hdead
    obtain ⟨c, hc, halive⟩ := h.2 hwaits
    rw [hdead c hc] at halive
    nomatch halive

theorem Kept.of_step (h : Kept s) {a : Act} (hmeets : Meets s a) (hstep : step s a = some s') :
    Kept s' := by
  obtain ⟨hinv, halive⟩ := h
  cases a with
  | super b =>
      obtain ⟨hinv', hiff, hkept⟩ := hinv.superStep hmeets hstep
      refine ⟨hinv', fun hwaits => ?_⟩
      obtain ⟨c, hc, hcalive⟩ := halive (hiff.mp hwaits)
      exact ⟨c, hkept c hc hcalive, hcalive⟩
  | first result =>
      obtain ⟨hinv', hsuper, hchildren⟩ := hinv.firstStep hstep
      exact ⟨hinv', fun hwaits => hchildren ▸ halive (hsuper ▸ hwaits)⟩
  | begins w =>
      obtain ⟨hinv', hsuper, hchildren⟩ := hinv.begins hstep
      exact ⟨hinv', fun hwaits => hchildren ▸ halive (hsuper ▸ hwaits)⟩
  | sigchld pid =>
      obtain ⟨hinv', hsuper, hchildren⟩ := hinv.sigchld hstep
      exact ⟨hinv', fun hwaits => hchildren ▸ halive (hsuper ▸ hwaits)⟩
  | childExits i =>
      obtain ⟨hinv', hsuper, c, hc, hcalive, hchildren⟩ := hinv.childExits hstep
      refine ⟨hinv', fun hwaits => ?_⟩
      obtain ⟨j, d, hne, hd, hdalive⟩ := hmeets (hsuper ▸ hwaits) c hc hcalive
      rw [hchildren]
      refine ⟨d, List.mem_iff_getElem?.mpr ⟨j, ?_⟩, hdalive⟩
      rw [List.getElem?_set_ne hne.symm, hd]
  | exit wait =>
      obtain ⟨hinv', hrunning, hchildren, hsuper⟩ := hinv.exit hstep
      refine ⟨hinv', fun hwaits => ?_⟩
      rw [hsuper] at hwaits
      rw [hchildren]
      split_ifs at hwaits with hzero hwait
      · exact hwaits.elim
      · exact hmeets hwait hrunning hzero
      · exact hwaits.elim

/-- What cannot be done meets the condition. -/
theorem meets_of_none {a : Act} (hnone : step s a = none) : Meets s a := by
  cases a with
  | first result => trivial
  | begins w => trivial
  | sigchld pid => trivial
  | super b =>
      intro hindex
      change s.superStep b = none at hnone
      rw [System.superStep] at hnone
      cases hsuper : s.super with
      | killing w =>
          rw [hsuper] at hnone
          dsimp only at hnone
          split_ifs at hnone
      | scanning done w =>
          rw [hsuper] at hnone
          dsimp only at hnone
          by_cases hle : w ≤ s.mWorkers
          · rw [if_pos hle] at hnone
            nomatch hnone
          · rw [if_neg hle] at hnone
            nomatch hnone
      | initializing w => rw [hsuper] at hindex; nomatch hindex
      | forking => rw [hsuper] at hindex; nomatch hindex
      | running => rw [hsuper] at hindex; nomatch hindex
      | passing done => rw [hsuper] at hindex; nomatch hindex
      | waiting done w => rw [hsuper] at hindex; nomatch hindex
      | stopped => rw [hsuper] at hindex; nomatch hindex
  | childExits i =>
      intro _ c hc halive
      change s.childExits i = none at hnone
      rw [System.childExits, hc] at hnone
      dsimp only at hnone
      rw [if_pos halive] at hnone
      nomatch hnone
  | exit wait =>
      intro _ hrunning _
      change s.exit wait = none at hnone
      rw [System.exit, hrunning] at hnone
      nomatch hnone

/-- A step that does not meet the condition. -/
theorem Kept.not_supervised (h : Kept s) {a : Act} (hmeets : ¬ Meets s a) (hstep : step s a = some s') :
    ¬ Supervised s' := by
  obtain ⟨hinv, halive⟩ := h
  intro hsup
  obtain ⟨hinv', hkept⟩ := hinv.step_of_inside hstep hsup.inside
  -- all that is left is a loop without a child that is alive
  suffices hloop : s'.super.Waits ∧ ∀ c ∈ s'.children, c.alive = false from
    hinv'.not_ends hloop.1 (hsup.ends hloop.1 hloop.2)
  cases a with
  | super b =>
      obtain ⟨hmem, hlength⟩ := mem_accessed_of_index (not_not.mp hmeets) hstep
      have hlt := hsup.inside s.mWorkers hmem
      rw [hlength, hinv.length] at hlt
      exact absurd hlt (Nat.lt_irrefl _)
  | first result => exact absurd trivial hmeets
  | begins w => exact absurd trivial hmeets
  | sigchld pid => exact absurd trivial hmeets
  | childExits i =>
      obtain ⟨-, hsuper, c, hc, hcalive, hchildren⟩ := hinv.childExits hstep
      simp only [Meets, not_forall, not_exists, not_and] at hmeets
      obtain ⟨hwaits, -, -, -, hothers⟩ := hmeets
      refine ⟨hsuper ▸ hwaits, fun d hd => ?_⟩
      rw [hchildren] at hd
      obtain ⟨j, hj⟩ := List.mem_iff_getElem?.mp hd
      by_cases hne : j = i
      · subst hne
        have hlt := (List.getElem?_eq_some_iff.mp hc).1
        rw [List.getElem?_set_self hlt] at hj
        cases hj
        rfl
      · rw [List.getElem?_set_ne fun heq => hne heq.symm] at hj
        exact Bool.eq_false_iff.mpr (hothers j d hne hj)
  | exit wait =>
      obtain ⟨-, hrunning, hchildren, hsuper⟩ := hinv.exit hstep
      simp only [Meets, not_forall] at hmeets
      obtain ⟨hwait, -, hzero, hdead⟩ := hmeets
      rw [hsuper, if_neg hzero, if_pos hwait]
      refine ⟨trivial, fun c hc => ?_⟩
      rw [hchildren] at hc
      exact Bool.eq_false_iff.mpr fun halive => hdead ⟨c, hc, halive⟩

/-- **All accesses of a run are inside, and its loop ends, exactly when no loop of `exit` comes to the index
behind the table and a child is alive as long as the super process waits.** -/
theorem supervises_iff (count : Nat) (children : List Child) (acts : List Act) :
    (∀ s ∈ StepMachine.visited step (.new count children) acts, Supervised s) ↔
      ∀ p ∈ StepMachine.inputs step (.new count children) acts, Meets p.1 p.2 := by
  refine StepMachine.forall_visited_iff (fun s hs => Kept.supervised hs) (fun s a _ hnone => ?_)
    (fun s a s' hs hmeets hstep => hs.of_step hmeets hstep)
    (fun s a s' hs hmeets hstep => hs.not_supervised hmeets hstep)
    ⟨inv_new count children, fun hwaits => ?_⟩ acts
  · exact meets_of_none hnone
  · rw [System.new] at hwaits
    dsimp only at hwaits
    split_ifs at hwaits
    · exact hwaits.elim
    · exact hwaits.elim

/-- One worker; the super process calls `exit` before the worker has been launched. -/
private def early : List Act :=
  let a : Answer := ⟨some 100, 0, false⟩
  [.super a, .super a, .super a, .exit true, .super a, .super a, .super a]

/-- In this run slot 1 of a table of one slot is accessed. -/
theorem not_supervises_early : ¬ ∀ (count : Nat) (children : List Child) (acts : List Act),
    ∀ s ∈ StepMachine.visited step (.new count children) acts, Supervised s := by
  intro h
  have hall : (StepMachine.visited step (.new 1 []) early).all (fun s =>
      s.accessed.all fun i => decide (i < s.Workers.length)) = true := by
    rw [List.all_eq_true]
    intro s hs
    rw [List.all_eq_true]
    exact fun i hi => decide_eq_true ((h 1 [] early s hs).inside i hi)
  exact absurd hall (by decide)

end Suil.Worker
