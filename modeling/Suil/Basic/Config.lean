import Suil.Basic.Exception
import Suil.Lib.Lua

set_option autoImplicit false

/-! # Configurations

`Config` (`config.h`, `config.cpp`) reads values of a Lua state that has run a configuration file. The
values on the way to a key are pushed one by one, and popped by a count. A step gives nothing where
the source has no defined behaviour.

`restores_iff` says when a call leaves the stack as high as it was and returns what is at the key. -/

namespace Suil

open Lua (Value Numbers State)

/-- A configuration. -/
structure Config (ν τ : Type) where
  L : Option (State ν τ)
  level : Nat

namespace Config

/-- What a value can be read as. -/
inductive Ty where
  | int
  | bool
  | double
  | String
  | stdString
  deriving DecidableEq

/-- The values of a type. The text of a `String` can be missing. -/
def Ty.Val (δ : Type) : Ty → Type
  | .int => CInt
  | .bool => Bool
  | .double => δ
  | .String => Option Bytes
  | .stdString => Bytes

/-- The numbers of Lua, and how C converts between `double` and `int`; not every `double` fits. -/
structure Arith (ν δ : Type) extends Numbers ν δ where
  toInt : δ → Option CInt
  ofInt : CInt → δ

variable {ν τ δ : Type}

/-! ## Walking to a key, and the calls -/

/-- `Exception::keyNotFound`. -/
def keyNotFound (what : Bytes) : Exception := .create 16 [str "KeyNotFoundError: ", what]

/-- The loop of `lua_getStack`: what it leaves in `level`, and the error. -/
def walk (text : Bytes) : State ν τ → Nat → List Bytes → Option (State ν τ × Nat × Option Bytes)
  | L, level, [] => some (L, level, none)
  | L, level, key :: keys =>
      match if level = 0 then some (L.getglobal key) else L.getfield key with
      | none => none
      | some L =>
          match L.top with
          | none => none
          | some .nil =>
              some (L, level, some
                (str "field '" ++ key ++ str "' of '" ++ text ++ str "' does not exist"))
          | some _ => walk text L (level + 1) keys

def lua_getStack (L : State ν τ) (text : Bytes) : Option (State ν τ × Nat × Option Bytes) :=
  walk text L 0 (split DOT text)

def loadValue (cfg : Config ν τ) (key : Bytes) : Option (Config ν τ × Option Bytes) :=
  match cfg.L with
  | none =>
      some (cfg, some (str "cannot load key '" ++ key ++ str "', not configuration loaded"))
  | some L => (lua_getStack L key).map fun (L, level, what) => (⟨some L, level⟩, what)

def unloadValue (cfg : Config ν τ) : Option (Config ν τ) :=
  cfg.L.map fun L => { cfg with L := some (L.pop cfg.level) }

variable (arith : Arith ν δ)

/-- `getValue`: what becomes of `out`, and the error. A `std::string` cannot be assigned the null
pointer. -/
def getValue (key : Bytes) (v : Value ν τ) : (ty : Ty) → Option (ty.Val δ × Option Bytes)
  | .int =>
      match v.tonumber arith.toNumbers with
      | none => some (CInt.ofNat 0, some (str "'" ++ key ++ str "' is not a number"))
      | some d => (arith.toInt d).map fun n => (n, none)
  | .bool => some (v.toboolean, none)
  | .double =>
      match v.tonumber arith.toNumbers with
      | none => some (arith.ofInt (.ofNat 0), some (str "'" ++ key ++ str "' is not a number"))
      | some d => some (d, none)
  | .String =>
      match v.tostring arith.toNumbers with
      | none => some (none, some (str "'" ++ key ++ str "' is not a string"))
      | some s => some (some (cstr s), none)
  | .stdString =>
      match v.tostring arith.toNumbers with
      | none => none
      | some s => some (cstr s, none)

/-- What a call gives back. -/
inductive Result (δ : Type) where
  | value (ty : Ty) (x : ty.Val δ)
  | object (o : Json δ)
  | thrown (e : Exception)

/-- `get<T>(key)`. -/
def get (cfg : Config ν τ) (ty : Ty) (key : Bytes) : Option (Result δ × Config ν τ) := do
  let (cfg, what) ← cfg.loadValue key
  match what with
  | some what => return (.thrown (keyNotFound what), ← cfg.unloadValue)
  | none =>
      let v ← cfg.L.bind (·.top)
      let (tmp, what) ← getValue arith key v ty
      match what with
      | some what => return (.thrown (keyNotFound what), ← cfg.unloadValue)
      | none => return (.value ty tmp, ← cfg.unloadValue)

/-- `get<T>(key, def)`. -/
def getOr (cfg : Config ν τ) (ty : Ty) (key : Bytes) (d : ty.Val δ) :
    Option (Result δ × Config ν τ) := do
  let (cfg, what) ← cfg.loadValue key
  match what with
  | some _ => return (.value ty d, cfg)
  | none =>
      let v ← cfg.L.bind (·.top)
      let (tmp, _) ← getValue arith key v ty
      return (.value ty tmp, ← cfg.unloadValue)

/-- `operator()(key, def)`. -/
def apply (cfg : Config ν τ) (ty : Ty) (key : Bytes) (d : ty.Val δ) :
    Option (Result δ × Config ν τ) :=
  getOr arith cfg ty key d

/-- What `operator[]` makes of a value: `lua_toboolean` is an `int`, and becomes a number. -/
def toObject : Value ν τ → Json δ
  | .boolean b => .number (arith.ofInt (if b then .ofNat 1 else .ofNat 0))
  | .number n => .number (arith.double n)
  | .string s => .string (cstr s)
  | _ => .null

/-- `operator[]`. -/
def index (cfg : Config ν τ) (key : Bytes) : Option (Result δ × Config ν τ) := do
  let (cfg, what) ← cfg.loadValue key
  match what with
  | some _ => return (.object .null, ← cfg.unloadValue)
  | none =>
      let v ← cfg.L.bind (·.top)
      return (.object (toObject arith v), ← cfg.unloadValue)

/-- A call that reads a key. -/
inductive Call (δ : Type) where
  | get (ty : Ty)
  | getOr (ty : Ty) (d : ty.Val δ)
  | apply (ty : Ty) (d : ty.Val δ)
  | index

def run (cfg : Config ν τ) (key : Bytes) : Call δ → Option (Result δ × Config ν τ)
  | .get ty => get arith cfg ty key
  | .getOr ty d => getOr arith cfg ty key d
  | .apply ty d => apply arith cfg ty key d
  | .index => index arith cfg key

/-! ## What calls should do -/

/-- The value at a key. -/
def valueAt (L : State ν τ) (key : Bytes) : Option (Value ν τ) :=
  L.lookup (.table L.globals) (split DOT key)

/-- A value as one of a type, if it can be converted. -/
def convert (v : Value ν τ) : (ty : Ty) → Option (ty.Val δ)
  | .int => (v.tonumber arith.toNumbers).bind arith.toInt
  | .bool => some v.toboolean
  | .double => v.tonumber arith.toNumbers
  | .String => (v.tostring arith.toNumbers).map some
  | .stdString => v.tostring arith.toNumbers

/-- A value as JSON; what is no boolean, number or string is null. -/
def toJson : Value ν τ → Json δ
  | .boolean b => .bool b
  | .number n => .number (arith.double n)
  | .string s => .string s
  | _ => .null

/-- The answer of a call: the value, an error, or what stands in for the value. -/
def Call.Answers (v : Option (Value ν τ)) (r : Result δ) : Call δ → Prop
  | .get ty =>
      match v.bind (convert arith · ty) with
      | some x => r = .value ty x
      | none => ∃ e, r = .thrown e
  | .getOr ty d => r = .value ty ((v.bind (convert arith · ty)).getD d)
  | .apply ty d => r = .value ty ((v.bind (convert arith · ty)).getD d)
  | .index => r = .object ((v.map (toJson arith)).getD .null)

/-- A call leaves the stack at its height and has the right answer. -/
def Restores (L : State ν τ) (cfg : Config ν τ) (key : Bytes) (call : Call δ) : Prop :=
  ∃ r cfg' L', run arith cfg key call = some (r, cfg') ∧ cfg'.L = some L' ∧
    L'.stack.length = L.stack.length ∧ call.Answers arith (valueAt L key) r

/-! ## Values that are read as they are -/

/-- A value is read as it is. -/
def Reads (v : Value ν τ) : Ty → Prop
  | .int => ∃ d, v.tonumber arith.toNumbers = some d ∧ (arith.toInt d).isSome
  | .bool => True
  | .double => (v.tonumber arith.toNumbers).isSome
  | .String => ∃ s, v.tostring arith.toNumbers = some s ∧ NUL ∉ s
  | .stdString => ∃ s, v.tostring arith.toNumbers = some s ∧ NUL ∉ s

/-- A value is of another type, and this is reported. -/
def Refuses (v : Value ν τ) : Ty → Prop
  | .int => v.tonumber arith.toNumbers = none
  | .bool => False
  | .double => v.tonumber arith.toNumbers = none
  | .String => v.tostring arith.toNumbers = none
  | .stdString => False

/-- What is left in `out` when the value is of another type. -/
def Ty.zero : (ty : Ty) → ty.Val δ
  | .int => .ofNat 0
  | .bool => false
  | .double => arith.ofInt (.ofNat 0)
  | .String => none
  | .stdString => []

/-- The values that a call can be made for. -/
def Call.Suits (v : Value ν τ) : Call δ → Prop
  | .get ty => Reads arith v ty ∨ Refuses arith v ty
  | .getOr ty d => Reads arith v ty ∨ (Refuses arith v ty ∧ d = ty.zero arith)
  | .apply ty d => Reads arith v ty ∨ (Refuses arith v ty ∧ d = ty.zero arith)
  | .index =>
      match v with
      | .boolean _ => False
      | .string s => NUL ∉ s
      | _ => True

/-! ## The stack -/

/-- A path that leads to a value is pushed. -/
theorem walk_of_lookup {L : State ν τ} {v w : Value ν τ} {keys : List Bytes}
    (h : L.lookup v keys = some w) (text : Bytes) {level : Nat} (hlevel : level ≠ 0)
    (vs : List (Value ν τ)) : ∃ ws : List (Value ν τ), ws.length = keys.length ∧
      walk text (L.push (v :: vs)) level keys =
        some (L.push (ws ++ v :: vs), level + keys.length, none) ∧
      (ws ++ v :: vs).head? = some w := by
  induction keys generalizing v level vs with
  | nil =>
      rw [State.lookup] at h
      exact ⟨[], rfl, rfl, h⟩
  | cons key keys ih =>
      cases v with
      | table t =>
          by_cases hnil : L.fields t key = .nil
          · rw [State.lookup_cons_of_nil hnil] at h
            cases h
          · rw [State.lookup_cons_of_ne hnil] at h
            obtain ⟨ws, hlen, hwalk, hhead⟩ := ih h (Nat.succ_ne_zero level) (.table t :: vs)
            refine ⟨ws ++ [L.fields t key], by simp [hlen], ?_, by simpa using hhead⟩
            have htop : (L.push (L.fields t key :: .table t :: vs)).top = some (L.fields t key) := rfl
            rw [walk, if_neg hlevel, State.getfield_push]
            dsimp only
            rw [htop]
            split
            · contradiction
            · next heq => exact absurd (Option.some.inj heq) hnil
            · have hcount : level + 1 + keys.length = level + (key :: keys).length := by
                rw [List.length_cons]
                omega
              rw [hwalk, hcount, List.append_assoc, List.singleton_append]
      | _ => cases h

/-- Where a value is missing, it is pushed as nil and not counted. -/
theorem walk_of_missing {L : State ν τ} {v : Value ν τ} {keys : List Bytes}
    (htables : L.IndexesTables v keys) (h : L.lookup v keys = none) (text : Bytes) {level : Nat}
    (hlevel : level ≠ 0) (vs : List (Value ν τ)) :
    ∃ (ws : List (Value ν τ)) (level' : Nat) (what : Bytes), level' + 1 = level + ws.length ∧
      walk text (L.push (v :: vs)) level keys = some (L.push (ws ++ v :: vs), level', some what) := by
  induction keys generalizing v level vs with
  | nil =>
      rw [State.lookup] at h
      cases h
  | cons key keys ih =>
      cases v with
      | table t =>
          have htop : (L.push (L.fields t key :: .table t :: vs)).top = some (L.fields t key) := rfl
          rw [walk, if_neg hlevel, State.getfield_push]
          dsimp only
          rw [htop]
          by_cases hnil : L.fields t key = .nil
          · rw [hnil]
            exact ⟨[.nil], level, _, rfl, rfl⟩
          · rw [State.lookup_cons_of_ne hnil] at h
            obtain ⟨ws, level', what, hlen, hwalk⟩ :=
              ih (htables.resolve_left hnil) h (Nat.succ_ne_zero level) (.table t :: vs)
            refine ⟨ws ++ [L.fields t key], level', what, ?_, ?_⟩
            · rw [hlen, List.length_append, List.length_singleton]
              omega
            · split
              · contradiction
              · next heq => exact absurd (Option.some.inj heq) hnil
              · rw [hwalk, List.append_assoc, List.singleton_append]
      | _ => exact htables.elim

/-- The first name of a path is the one of a global. -/
theorem walk_global {L : State ν τ} {key : Bytes} (h : L.fields L.globals key ≠ .nil) (text : Bytes)
    (keys : List Bytes) :
    walk text L 0 (key :: keys) = walk text (L.push [L.fields L.globals key]) 1 keys := by
  have htop : (L.push [L.fields L.globals key]).top = some (L.fields L.globals key) := rfl
  rw [walk, if_pos rfl, State.getglobal]
  dsimp only
  rw [htop]
  split
  · contradiction
  · next heq => exact absurd (Option.some.inj heq) h
  · rfl

theorem getStack_of_present {L : State ν τ} {key : Bytes} {w : Value ν τ}
    (hkey : split DOT key ≠ []) (h : valueAt L key = some w) : ∃ ws : List (Value ν τ),
      lua_getStack L key = some (L.push ws, ws.length, none) ∧ (L.push ws).top = some w := by
  unfold valueAt at h
  unfold lua_getStack
  cases hsplit : split DOT key with
  | nil => exact absurd hsplit hkey
  | cons name names =>
      rw [hsplit] at h
      by_cases hnil : L.fields L.globals name = .nil
      · rw [State.lookup_cons_of_nil hnil] at h
        nomatch h
      · rw [State.lookup_cons_of_ne hnil] at h
        obtain ⟨ws, hlen, hwalk, hhead⟩ := walk_of_lookup h key Nat.one_ne_zero []
        refine ⟨ws ++ [L.fields L.globals name], ?_, ?_⟩
        · rw [walk_global hnil, hwalk, List.length_append, List.length_singleton, hlen, Nat.add_comm 1]
        · calc (L.push (ws ++ [L.fields L.globals name])).top
              = ((ws ++ [L.fields L.globals name]) ++ L.stack).head? := rfl
            _ = some w := by rw [List.head?_append, hhead, Option.some_or]

theorem getStack_of_missing {L : State ν τ} {key : Bytes} (hkey : split DOT key ≠ [])
    (htables : L.IndexesTables (.table L.globals) (split DOT key)) (h : valueAt L key = none) :
    ∃ (ws : List (Value ν τ)) (level : Nat) (what : Bytes), level + 1 = ws.length ∧
      lua_getStack L key = some (L.push ws, level, some what) := by
  unfold valueAt at h
  unfold lua_getStack
  cases hsplit : split DOT key with
  | nil => exact absurd hsplit hkey
  | cons name names =>
      rw [hsplit] at h htables
      by_cases hnil : L.fields L.globals name = .nil
      · rw [walk, if_pos rfl, State.getglobal, hnil]
        exact ⟨[.nil], 0, _, rfl, rfl⟩
      · rw [State.lookup_cons_of_ne hnil] at h
        obtain ⟨ws, level, what, hlen, hwalk⟩ :=
          walk_of_missing (htables.resolve_left hnil) h key Nat.one_ne_zero []
        refine ⟨ws ++ [L.fields L.globals name], level, what, ?_, ?_⟩
        · rw [hlen, List.length_append, List.length_singleton, Nat.add_comm]
        · rw [walk_global hnil, hwalk]

/-! ## The conversions -/

theorem getValue_of_reads {v : Value ν τ} {ty : Ty} (h : Reads arith v ty) (key : Bytes) :
    ∃ x, getValue arith key v ty = some (x, none) ∧ convert arith v ty = some x := by
  cases ty with
  | int =>
      obtain ⟨d, hd, hfits⟩ := h
      obtain ⟨n, hn⟩ := Option.isSome_iff_exists.mp hfits
      refine ⟨n, by simp only [getValue, hd, hn]; rfl, ?_⟩
      simp only [convert, hd]
      exact hn
  | bool => exact ⟨_, rfl, rfl⟩
  | double =>
      obtain ⟨d, hd⟩ := Option.isSome_iff_exists.mp h
      exact ⟨d, by simp only [getValue, hd], hd⟩
  | String =>
      obtain ⟨s, hs, hnul⟩ := h
      refine ⟨some s, by simp only [getValue, hs, cstr_eq_self hnul], ?_⟩
      simp only [convert, hs]
      rfl
  | stdString =>
      obtain ⟨s, hs, hnul⟩ := h
      exact ⟨s, by simp only [getValue, hs, cstr_eq_self hnul], hs⟩

theorem getValue_of_refuses {v : Value ν τ} {ty : Ty} (h : Refuses arith v ty) (key : Bytes) :
    (∃ what, getValue arith key v ty = some (ty.zero arith, some what)) ∧
      convert arith v ty = none := by
  cases ty with
  | int =>
      have hd : v.tonumber arith.toNumbers = none := h
      exact ⟨⟨_, by simp only [getValue, hd]; rfl⟩, by simp only [convert, hd]; rfl⟩
  | bool => exact h.elim
  | double =>
      have hd : v.tonumber arith.toNumbers = none := h
      exact ⟨⟨_, by simp only [getValue, hd]; rfl⟩, hd⟩
  | String =>
      have hs : v.tostring arith.toNumbers = none := h
      exact ⟨⟨_, by simp only [getValue, hs]; rfl⟩, by simp only [convert, hs]; rfl⟩
  | stdString => exact h.elim

/-- Otherwise nothing is defined, or a text is cut at a NUL. -/
theorem getValue_otherwise {v : Value ν τ} {ty : Ty} (hreads : ¬ Reads arith v ty)
    (hrefuses : ¬ Refuses arith v ty) {key : Bytes} {x : ty.Val δ} {what : Option Bytes}
    (h : getValue arith key v ty = some (x, what)) :
    what = none ∧ ∃ y, convert arith v ty = some y ∧ x ≠ y := by
  -- only a conversion to an integer and a text with a NUL are left
  cases ty with
  | int =>
      cases hd : v.tonumber arith.toNumbers with
      | none => exact absurd hd hrefuses
      | some d =>
          cases hn : arith.toInt d with
          | none =>
              simp only [getValue, hd, hn] at h
              nomatch h
          | some n => exact absurd ⟨d, hd, Option.isSome_of_eq_some hn⟩ hreads
  | bool => exact absurd trivial hreads
  | double =>
      cases hd : v.tonumber arith.toNumbers with
      | none => exact absurd hd hrefuses
      | some d => exact absurd (Option.isSome_of_eq_some hd) hreads
  | String =>
      cases hs : v.tostring arith.toNumbers with
      | none => exact absurd hs hrefuses
      | some s =>
          have hnul : NUL ∈ s := by
            by_contra hnot
            exact hreads ⟨s, hs, hnot⟩
          simp only [getValue, hs, Option.some.injEq] at h
          obtain ⟨rfl, rfl⟩ := Prod.mk.inj h
          refine ⟨rfl, some s, by simp only [convert, hs]; rfl, fun heq => ?_⟩
          exact cstr_eq_self_iff.mp (Option.some.inj heq) hnul
  | stdString =>
      cases hs : v.tostring arith.toNumbers with
      | none =>
          simp only [getValue, hs] at h
          nomatch h
      | some s =>
          have hnul : NUL ∈ s := by
            by_contra hnot
            exact hreads ⟨s, hs, hnot⟩
          simp only [getValue, hs, Option.some.injEq] at h
          obtain ⟨rfl, rfl⟩ := Prod.mk.inj h
          exact ⟨rfl, s, hs, fun heq => cstr_eq_self_iff.mp heq hnul⟩

/-! ## Calls for a key that is present -/

section

variable {arith} {cfg : Config ν τ} {L : State ν τ} {key : Bytes} {w : Value ν τ}
  {ws : List (Value ν τ)}

theorem get_of_present (hload : cfg.loadValue key = some (⟨some (L.push ws), ws.length⟩, none))
    (htop : (L.push ws).top = some w) (ty : Ty) : get arith cfg ty key =
      (getValue arith key w ty).map fun (x, what) =>
        (match what with
          | some what => .thrown (keyNotFound what)
          | none => .value ty x, ⟨some L, ws.length⟩) := by
  have hpop : (⟨some (L.push ws), ws.length⟩ : Config ν τ).unloadValue =
      some ⟨some L, ws.length⟩ := by
    rw [unloadValue, Option.map_some, State.pop_push]
  unfold get
  rw [hload]
  simp only [Option.bind_eq_bind, Option.bind_some, htop, hpop]
  cases getValue arith key w ty with
  | none => rfl
  | some xw =>
      obtain ⟨x, what⟩ := xw
      cases what with
      | none => rfl
      | some what => rfl

theorem getOr_of_present (hload : cfg.loadValue key = some (⟨some (L.push ws), ws.length⟩, none))
    (htop : (L.push ws).top = some w) (ty : Ty) (d : ty.Val δ) : getOr arith cfg ty key d =
      (getValue arith key w ty).map fun (x, _) => (.value ty x, ⟨some L, ws.length⟩) := by
  have hpop : (⟨some (L.push ws), ws.length⟩ : Config ν τ).unloadValue =
      some ⟨some L, ws.length⟩ := by
    rw [unloadValue, Option.map_some, State.pop_push]
  unfold getOr
  rw [hload]
  simp only [Option.bind_eq_bind, Option.bind_some, htop, hpop]
  cases getValue arith key w ty with
  | none => rfl
  | some xw => rfl

theorem index_of_present (hload : cfg.loadValue key = some (⟨some (L.push ws), ws.length⟩, none))
    (htop : (L.push ws).top = some w) :
    index arith cfg key = some (.object (toObject arith w), ⟨some L, ws.length⟩) := by
  unfold index
  rw [hload]
  simp only [Option.bind_eq_bind, Option.bind_some, htop, unloadValue, Option.map_some,
    State.pop_push]
  rfl

/-- What is to be shown of a call whose result is known. -/
theorem restores_iff_of_run {call : Call δ} {r : Result δ} {L' : State ν τ} {n : Nat}
    (h : run arith cfg key call = some (r, ⟨some L', n⟩)) : Restores arith L cfg key call ↔
      L'.stack.length = L.stack.length ∧ call.Answers arith (valueAt L key) r := by
  unfold Restores
  rw [h]
  constructor
  · rintro ⟨r', cfg', M, heq, hM, hlen, hans⟩
    obtain ⟨rfl, rfl⟩ := Prod.mk.inj (Option.some.inj heq)
    obtain rfl := Option.some.inj hM
    exact ⟨hlen, hans⟩
  · rintro ⟨hlen, hans⟩
    exact ⟨r, _, L', rfl, rfl, hlen, hans⟩

theorem not_restores_of_run {call : Call δ} (h : run arith cfg key call = none) :
    ¬ Restores arith L cfg key call := by
  rintro ⟨r, cfg', L', heq, -⟩
  rw [h] at heq
  nomatch heq

theorem restores_get_iff (hload : cfg.loadValue key = some (⟨some (L.push ws), ws.length⟩, none))
    (htop : (L.push ws).top = some w) (hvalue : valueAt L key = some w) (ty : Ty) :
    Restores arith L cfg key (.get ty) ↔ Reads arith w ty ∨ Refuses arith w ty := by
  have hget : get arith cfg ty key = _ := get_of_present hload htop ty
  by_cases hreads : Reads arith w ty
  · obtain ⟨x, hx, hconvert⟩ := getValue_of_reads arith hreads key
    have hrun : run arith cfg key (.get ty) = some (.value ty x, ⟨some L, ws.length⟩) := by
      rw [run, hget, hx]
      rfl
    rw [restores_iff_of_run hrun, hvalue]
    simp [Call.Answers, hconvert, hreads]
  · by_cases hrefuses : Refuses arith w ty
    · obtain ⟨⟨what, hx⟩, hconvert⟩ := getValue_of_refuses arith hrefuses key
      have hrun : run arith cfg key (.get ty) =
          some (.thrown (keyNotFound what), ⟨some L, ws.length⟩) := by
        rw [run, hget, hx]
        rfl
      rw [restores_iff_of_run hrun, hvalue]
      simp [Call.Answers, hconvert, hrefuses]
    · refine iff_of_false ?_ (not_or.mpr ⟨hreads, hrefuses⟩)
      cases hx : getValue arith key w ty with
      | none =>
          refine not_restores_of_run ?_
          rw [run, hget, hx]
          rfl
      | some xw =>
          obtain ⟨x, what⟩ := xw
          obtain ⟨rfl, y, hconvert, hne⟩ := getValue_otherwise arith hreads hrefuses hx
          have hrun : run arith cfg key (.get ty) = some (.value ty x, ⟨some L, ws.length⟩) := by
            rw [run, hget, hx]
            rfl
          rw [restores_iff_of_run hrun, hvalue]
          simp [Call.Answers, hconvert, hne]

/-- What is done for another type is what `out` is left with, and no error. -/
theorem restores_getOr_iff
    (hload : cfg.loadValue key = some (⟨some (L.push ws), ws.length⟩, none))
    (htop : (L.push ws).top = some w) (hvalue : valueAt L key = some w) (ty : Ty) (d : ty.Val δ) :
    Restores arith L cfg key (.getOr ty d) ↔
      Reads arith w ty ∨ (Refuses arith w ty ∧ d = ty.zero arith) := by
  have hget : getOr arith cfg ty key d = _ := getOr_of_present hload htop ty d
  by_cases hreads : Reads arith w ty
  · obtain ⟨x, hx, hconvert⟩ := getValue_of_reads arith hreads key
    have hrun : run arith cfg key (.getOr ty d) = some (.value ty x, ⟨some L, ws.length⟩) := by
      rw [run, hget, hx]
      rfl
    rw [restores_iff_of_run hrun, hvalue]
    simp [Call.Answers, hconvert, hreads]
  · by_cases hrefuses : Refuses arith w ty
    · obtain ⟨⟨what, hx⟩, hconvert⟩ := getValue_of_refuses arith hrefuses key
      have hrun : run arith cfg key (.getOr ty d) =
          some (.value ty (ty.zero arith), ⟨some L, ws.length⟩) := by
        rw [run, hget, hx]
        rfl
      rw [restores_iff_of_run hrun, hvalue]
      simp [Call.Answers, hconvert, hreads, hrefuses, eq_comm]
    · refine iff_of_false ?_ (not_or.mpr ⟨hreads, fun h => hrefuses h.1⟩)
      cases hx : getValue arith key w ty with
      | none =>
          refine not_restores_of_run ?_
          rw [run, hget, hx]
          rfl
      | some xw =>
          obtain ⟨x, what⟩ := xw
          obtain ⟨rfl, y, hconvert, hne⟩ := getValue_otherwise arith hreads hrefuses hx
          have hrun : run arith cfg key (.getOr ty d) = some (.value ty x, ⟨some L, ws.length⟩) := by
            rw [run, hget, hx]
            rfl
          rw [restores_iff_of_run hrun, hvalue]
          simp [Call.Answers, hconvert, hne]

/-- JSON has booleans and texts of its own, but a boolean becomes a number. -/
theorem toObject_eq_iff (w : Value ν τ) :
    toObject arith w = toJson arith w ↔ (Call.index : Call δ).Suits arith w := by
  cases w with
  | boolean b => exact iff_of_false nofun id
  | string s =>
      calc toObject arith (.string s) = toJson arith (.string s)
          ↔ cstr s = s := ⟨fun h => Json.string.inj h, fun h => congrArg Json.string h⟩
        _ ↔ NUL ∉ s := cstr_eq_self_iff
  | _ => exact iff_of_true rfl trivial

theorem restores_index_iff
    (hload : cfg.loadValue key = some (⟨some (L.push ws), ws.length⟩, none))
    (htop : (L.push ws).top = some w) (hvalue : valueAt L key = some w) :
    Restores arith L cfg key .index ↔ (Call.index : Call δ).Suits arith w := by
  have hrun : run arith cfg key .index = some (.object (toObject arith w), ⟨some L, ws.length⟩) := by
    rw [run, index_of_present hload htop]
  rw [restores_iff_of_run hrun, hvalue, ← toObject_eq_iff]
  simp [Call.Answers]

end

/-! ## Calls for a key that is missing -/

section

variable {arith} {cfg : Config ν τ} {L : State ν τ} {key : Bytes} {ws : List (Value ν τ)}
  {level : Nat} {what : Bytes}

/-- The value that was not counted stays on the stack. -/
theorem unloadValue_of_missing (hlen : level + 1 = ws.length) :
    ∃ M : State ν τ, (⟨some (L.push ws), level⟩ : Config ν τ).unloadValue = some ⟨some M, level⟩ ∧
      M.stack.length = L.stack.length + 1 := by
  have hpop := State.length_pop_push (show level ≤ ws.length by omega) L
  exact ⟨(L.push ws).pop level, rfl, by omega⟩

theorem not_restores_of_missing
    (hload : cfg.loadValue key = some (⟨some (L.push ws), level⟩, some what))
    (hlen : level + 1 = ws.length) (call : Call δ) : ¬ Restores arith L cfg key call := by
  obtain ⟨M, hunload, hM⟩ := unloadValue_of_missing (L := L) hlen
  have hgetOr : ∀ (ty : Ty) (d : ty.Val δ),
      getOr arith cfg ty key d = some (.value ty d, ⟨some (L.push ws), level⟩) := by
    intro ty d
    unfold getOr
    rw [hload]
    rfl
  have hpushed : (L.push ws).stack.length = ws.length + L.stack.length := List.length_append
  cases call with
  | get ty =>
      have hrun : run arith cfg key (.get ty) =
          some (.thrown (keyNotFound what), ⟨some M, level⟩) := by
        unfold run get
        rw [hload]
        simp only [Option.bind_eq_bind, Option.bind_some, hunload]
        rfl
      rw [restores_iff_of_run hrun, hM]
      omega
  | getOr ty d =>
      have hrun : run arith cfg key (.getOr ty d) =
          some (.value ty d, ⟨some (L.push ws), level⟩) := hgetOr ty d
      rw [restores_iff_of_run hrun, hpushed]
      omega
  | apply ty d =>
      have hrun : run arith cfg key (.apply ty d) =
          some (.value ty d, ⟨some (L.push ws), level⟩) := hgetOr ty d
      rw [restores_iff_of_run hrun, hpushed]
      omega
  | index =>
      have hrun : run arith cfg key .index = some (.object .null, ⟨some M, level⟩) := by
        unfold run index
        rw [hload]
        simp only [Option.bind_eq_bind, Option.bind_some, hunload]
        rfl
      rw [restores_iff_of_run hrun, hM]
      omega

end

/-! ## The calls that restore the stack -/

/-- **A call leaves the stack at its height and answers with the value at the key, the default or an
error exactly when there is a value at the key that the call can be made for.** -/
theorem restores_iff {cfg : Config ν τ} {L : State ν τ} (hL : cfg.L = some L) {key : Bytes}
    (hkey : split DOT key ≠ []) (htables : L.IndexesTables (.table L.globals) (split DOT key))
    (call : Call δ) :
    Restores arith L cfg key call ↔ ∃ w, valueAt L key = some w ∧ call.Suits arith w := by
  cases hvalue : valueAt L key with
  | none =>
      obtain ⟨ws, level, what, hlen, hstack⟩ := getStack_of_missing hkey htables hvalue
      have hload : cfg.loadValue key = some (⟨some (L.push ws), level⟩, some what) := by
        simp only [loadValue, hL, hstack, Option.map_some]
      refine iff_of_false (not_restores_of_missing hload hlen call) ?_
      rintro ⟨w, hw, -⟩
      nomatch hw
  | some w =>
      obtain ⟨ws, hstack, htop⟩ := getStack_of_present hkey hvalue
      have hload : cfg.loadValue key = some (⟨some (L.push ws), ws.length⟩, none) := by
        simp only [loadValue, hL, hstack, Option.map_some]
      simp only [Option.some.injEq, exists_eq_left']
      cases call with
      | get ty => exact restores_get_iff hload htop hvalue ty
      | getOr ty d => exact restores_getOr_iff hload htop hvalue ty d
      | apply ty d => exact restores_getOr_iff hload htop hvalue ty d
      | index => exact restores_index_iff hload htop hvalue

/-- Numbers that are integers. -/
private def integers : Arith Int Int where
  double := id
  ofString := strtonum
  toString := showInt
  toInt n := if h : -2 ^ 31 ≤ n ∧ n < 2 ^ 31 then some ⟨n, h⟩ else none
  ofInt := CInt.val

/-- `server = { port = 80 }`. -/
private def server : State Int Nat where
  globals := 0
  fields t name :=
    if t = 0 ∧ name = str "server" then .table 1
    else if t = 1 ∧ name = str "port" then .number 80
    else .nil
  stack := []

/-- `get<int>("server.port")`. -/
theorem restores_port : (⟨some server, 0⟩ : Config Int Nat).L = some server ∧
    Restores integers server ⟨some server, 0⟩ (str "server.port") (.get .int) := by
  have hsplit : split DOT (str "server.port") = [str "server", str "port"] := by decide
  have htables : server.IndexesTables (.table server.globals) (split DOT (str "server.port")) := by
    rw [hsplit]
    exact .inr (.inr trivial)
  have hvalue : valueAt server (str "server.port") = some (.number 80) := by
    rw [valueAt, hsplit]
    rfl
  refine ⟨rfl, (restores_iff integers rfl (by rw [hsplit]; nofun) htables _).mpr ?_⟩
  exact ⟨_, hvalue, .inl ⟨80, rfl, rfl⟩⟩

/-- `get<int>("server.host")` throws, and leaves the nil of the missing field on the stack. -/
theorem not_restores_host :
    ¬ Restores integers server ⟨some server, 0⟩ (str "server.host") (.get .int) := by
  have hload : (⟨some server, 0⟩ : Config Int Nat).loadValue (str "server.host") =
      some (⟨some (server.push [.nil, .table 1]), 1⟩,
        some (str "field 'host' of 'server.host' does not exist")) := by
    have hsplit : split DOT (str "server.host") = [str "server", str "host"] := by decide
    simp only [loadValue, lua_getStack, hsplit]
    rfl
  exact not_restores_of_missing hload rfl _

end Config

end Suil
