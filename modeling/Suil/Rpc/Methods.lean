import Mathlib
import Suil.Basic.Exception
import Suil.Lib.AssocMap

set_option autoImplicit false

/-! # The method table of a Suil RPC client

The client (`suilrpc.cpp`) asks a server for its metadata and puts the methods into two maps, those of
the API and the extensions. `call` looks a name with `rpc_` in it up among the extensions, and every
other name among the methods of the API. `resolves_iff` says for which methods this finds each of
them. -/

namespace Suil.Rpc

/-- The name of a method: a C string. -/
structure MethodName where
  text : Bytes
  nul : NUL ∉ text

/-- `SuilRpcMethod` of an API: the numbers that are not positive belong to the extensions. -/
structure SuilRpcMethod where
  id : CInt
  name : MethodName
  positive : 0 < id.val

/-- The extensions of every server. -/
def extensions : List (Bytes × Int) := [(str "rpc_Version", -1)]

/-- A method as an entry of a map. -/
def SuilRpcMethod.entry (m : SuilRpcMethod) : Bytes × Int := (m.name.text, m.id.val)

/-- An entry of a `Map` is found under a key: `hasher` and `map_eq`. -/
def mapHit (hash : Bytes → UInt64) (a key : Bytes) : Bool :=
  hash a = hash key && (a.length = key.length && strncmpEq a.length a key)

/-- The maps of `__SuilRpcClient`. -/
structure MethodMaps where
  extMethods : List (Bytes × Int)
  apiMethods : List (Bytes × Int)

/-- `getMeta`, with the methods of the server. -/
def getMeta (hash : Bytes → UInt64) (methods : List SuilRpcMethod) : MethodMaps where
  extMethods := AssocMap.insertAll (mapHit hash) extensions
  apiMethods := AssocMap.insertAll (mapHit hash) (methods.map SuilRpcMethod.entry)

/-- `strstr(method(), "rpc_") != nullptr`. -/
def isRpc (method : Bytes) : Bool := str "rpc_" <:+: cstr method

/-- The map that a name is looked up in. -/
def MethodMaps.mapOf (c : MethodMaps) (method : Bytes) : List (Bytes × Int) :=
  if isRpc method then c.extMethods else c.apiMethods

/-- The number that `call` sends for a name; the empty name asks for the metadata. -/
def methodId (hash : Bytes → UInt64) (c : MethodMaps) (method : Bytes) : Except Exception Int :=
  if method = [] then .ok 0
  else
    match AssocMap.find (mapHit hash) (c.mapOf method) method with
    | some id => .ok id
    | none => .error (.create 0 [str "requested method '", cstr method, str "' does not exist"])

/-! ## Methods found under their names -/

/-- Each method and each extension is found under its name, methods do not share an entry, and no other
name is found. -/
structure Resolves (hash : Bytes → UInt64) (methods : List SuilRpcMethod) : Prop where
  found : ∀ m ∈ methods, methodId hash (getMeta hash methods) m.name.text = .ok m.id.val
  extended : ∀ e ∈ extensions, methodId hash (getMeta hash methods) e.1 = .ok e.2
  apart : (getMeta hash methods).apiMethods.length = methods.length
  unknown : ∀ name : MethodName, name.text ≠ [] → (∀ m ∈ methods, m.name.text ≠ name.text) →
    (∀ e ∈ extensions, e.1 ≠ name.text) →
      ∃ e, methodId hash (getMeta hash methods) name.text = .error e

/-- The methods have different names, none of which is empty or has `rpc_` in it. -/
def Plain (methods : List SuilRpcMethod) : Prop :=
  (methods.map (·.name.text)).Nodup ∧ ∀ m ∈ methods, m.name.text ≠ [] ∧ ¬ str "rpc_" <:+: m.name.text

/-! ## The maps -/

variable {hash : Bytes → UInt64} {methods : List SuilRpcMethod}

/-- Names are found under themselves only. -/
theorem mapHit_iff {a : Bytes} (ha : NUL ∉ a) (key : Bytes) : mapHit hash a key = true ↔ a = key := by
  rw [mapHit, Bool.and_eq_true, Bool.and_eq_true, decide_eq_true_iff, decide_eq_true_iff]
  constructor
  · rintro ⟨-, hlen, hcmp⟩
    exact (strncmpEq_length ha hlen).mp hcmp
  · rintro rfl
    exact ⟨rfl, rfl, strncmpEq_self _ _⟩

theorem mapHit_eq_false_iff {a : Bytes} (ha : NUL ∉ a) (key : Bytes) :
    mapHit hash a key = false ↔ a ≠ key := by
  rw [← Bool.not_eq_true, mapHit_iff ha]

theorem isRpc_iff (name : MethodName) : isRpc name.text = true ↔ str "rpc_" <:+: name.text := by
  rw [isRpc, decide_eq_true_iff, cstr_eq_self name.nul]

/-- The names of a map are C strings. -/
def Named (m : List (Bytes × Int)) : Prop := ∀ e ∈ m, NUL ∉ e.1

theorem named_entries (methods : List SuilRpcMethod) : Named (methods.map SuilRpcMethod.entry) := by
  intro e he
  obtain ⟨m, -, rfl⟩ := List.mem_map.mp he
  exact m.name.nul

theorem named_extensions : Named extensions := by
  intro e he
  obtain rfl := List.mem_singleton.mp he
  decide

/-- Nothing is found under a name that no entry has. -/
theorem find_eq_none {m : List (Bytes × Int)} (hm : Named m) {key : Bytes}
    (h : ∀ e ∈ m, e.1 ≠ key) : AssocMap.find (mapHit hash) m key = none :=
  AssocMap.find_eq_none_iff.mpr fun e he => (mapHit_eq_false_iff (hm e he) key).mpr (h e he)

/-- An entry is found under its name when no other entry has the name. -/
theorem find_of_nodup {m : List (Bytes × Int)} (hm : Named m) (hnodup : (m.map Prod.fst).Nodup)
    {e : Bytes × Int} (he : e ∈ m) : AssocMap.find (mapHit hash) m e.1 = some e.2 := by
  cases hfind : AssocMap.find (mapHit hash) m e.1 with
  | none =>
      have hmiss := AssocMap.find_eq_none_iff.mp hfind e he
      exact absurd rfl ((mapHit_eq_false_iff (hm e he) e.1).mp hmiss)
  | some v =>
      obtain ⟨k, hk, hhit⟩ := AssocMap.mem_of_find hfind
      have hname : k = e.1 := (mapHit_iff (hm _ hk) e.1).mp hhit
      have hsame : (k, v) = e := List.inj_on_of_nodup_map hnodup hk he hname
      rw [← hsame]

/-- **All entries are kept exactly when no two of them have one name.** -/
theorem insertAll_length_iff {m : List (Bytes × Int)} (hm : Named m) :
    (AssocMap.insertAll (mapHit hash) m).length = m.length ↔ (m.map Prod.fst).Nodup := by
  have hpairs : (m.Pairwise fun e e' => mapHit hash e.1 e'.1 = false) ↔ (m.map Prod.fst).Nodup := by
    rw [List.Nodup, List.pairwise_map]
    constructor
    · exact fun h => h.imp_of_mem fun he _ hne => (mapHit_eq_false_iff (hm _ he) _).mp hne
    · exact fun h => h.imp_of_mem fun he _ hne => (mapHit_eq_false_iff (hm _ he) _).mpr hne
  rw [← hpairs]
  constructor
  · intro hlen
    have hall : AssocMap.insertAll (mapHit hash) m = m :=
      (AssocMap.insertAll_sublist m).eq_of_length hlen
    rw [← hall]
    exact AssocMap.insertAll_pairwise m
  · intro h
    rw [AssocMap.insertAll_of_pairwise h]

/-! ## Looking up -/

private theorem names_eq (methods : List SuilRpcMethod) :
    (methods.map SuilRpcMethod.entry).map Prod.fst = methods.map (·.name.text) := by
  rw [List.map_map]
  rfl

/-- The one extension is kept. -/
private theorem extMethods_eq (methods : List SuilRpcMethod) :
    (getMeta hash methods).extMethods = extensions :=
  AssocMap.insertAll_of_pairwise (List.pairwise_singleton _ _)

/-- What is looked up in a map. -/
private theorem methodId_of_find {name : Bytes} (hne : name ≠ []) {m : List (Bytes × Int)}
    (hm : (getMeta hash methods).mapOf name = m) : methodId hash (getMeta hash methods) name =
      match AssocMap.find (mapHit hash) m name with
      | some id => .ok id
      | none => .error (.create 0 [str "requested method '", cstr name, str "' does not exist"]) := by
  rw [methodId, if_neg hne, hm]

/-- A name with `rpc_` in it, and every other name. -/
private theorem mapOf_eq (methods : List SuilRpcMethod) (name : MethodName) :
    (str "rpc_" <:+: name.text → (getMeta hash methods).mapOf name.text = extensions) ∧
      (¬ str "rpc_" <:+: name.text →
        (getMeta hash methods).mapOf name.text = (getMeta hash methods).apiMethods) := by
  constructor
  · intro h
    rw [MethodMaps.mapOf, if_pos ((isRpc_iff name).mpr h), extMethods_eq]
  · intro h
    rw [MethodMaps.mapOf, if_neg fun hrpc => h ((isRpc_iff name).mp hrpc)]

/-- The number of an extension is not positive. -/
private theorem methodId_of_isRpc (m : SuilRpcMethod) (h : str "rpc_" <:+: m.name.text) :
    methodId hash (getMeta hash methods) m.name.text ≠ .ok m.id.val := by
  have hpos := m.positive
  have hne : m.name.text ≠ [] := by
    intro hnil
    rw [hnil, List.infix_nil] at h
    exact absurd h (by decide)
  rw [methodId_of_find hne ((mapOf_eq methods m.name).1 h)]
  cases hfind : AssocMap.find (mapHit hash) extensions m.name.text with
  | none => exact nofun
  | some id =>
      obtain ⟨k, hk, -⟩ := AssocMap.mem_of_find hfind
      have hid : id = -1 := congrArg Prod.snd (List.mem_singleton.mp hk)
      intro heq
      have hsame : id = m.id.val := Except.ok.inj heq
      omega

private theorem plain_of_resolves (h : Resolves hash methods) : Plain methods := by
  refine ⟨?_, fun m hm => ⟨fun hnil => ?_, fun hrpc => ?_⟩⟩
  · have hkept : (AssocMap.insertAll (mapHit hash) (methods.map SuilRpcMethod.entry)).length =
        (methods.map SuilRpcMethod.entry).length := by
      rw [List.length_map]
      exact h.apart
    rw [← names_eq]
    exact (insertAll_length_iff (named_entries methods)).mp hkept
  · -- the empty name asks for the metadata
    have hfound := h.found m hm
    have hpos := m.positive
    rw [methodId, if_pos hnil] at hfound
    have hzero : 0 = m.id.val := Except.ok.inj hfound
    omega
  · exact methodId_of_isRpc m hrpc (h.found m hm)

private theorem resolves_of_plain (h : Plain methods) : Resolves hash methods := by
  obtain ⟨hnodup, hplain⟩ := h
  have hkept : (getMeta hash methods).apiMethods.length = methods.length := by
    rw [← names_eq] at hnodup
    rw [getMeta, (insertAll_length_iff (named_entries methods)).mpr hnodup, List.length_map]
  have hall : (getMeta hash methods).apiMethods = methods.map SuilRpcMethod.entry := by
    refine (AssocMap.insertAll_sublist _).eq_of_length ?_
    rw [List.length_map]
    exact hkept
  refine ⟨fun m hm => ?_, fun e he => ?_, hkept, fun name hne hmethods hextensions => ?_⟩
  · obtain ⟨hne, hrpc⟩ := hplain m hm
    rw [methodId_of_find hne ((mapOf_eq methods m.name).2 hrpc), hall]
    rw [← names_eq] at hnodup
    have hfind : AssocMap.find (mapHit hash) (methods.map SuilRpcMethod.entry) m.entry.1 =
        some m.entry.2 :=
      find_of_nodup (named_entries methods) hnodup (List.mem_map_of_mem hm)
    rw [show m.name.text = m.entry.1 from rfl, hfind]
    rfl
  · obtain rfl := List.mem_singleton.mp he
    have hversion : (getMeta hash methods).mapOf (str "rpc_Version") = extensions :=
      (mapOf_eq methods ⟨str "rpc_Version", by decide⟩).1 (by decide)
    rw [methodId_of_find (by decide) hversion,
      find_of_nodup named_extensions (List.nodup_singleton _) (List.mem_singleton.mpr rfl)]
  · have hnone : ∀ m, (getMeta hash methods).mapOf name.text = m →
        AssocMap.find (mapHit hash) m name.text = none →
          ∃ e, methodId hash (getMeta hash methods) name.text = .error e := by
      intro m hm hfind
      rw [methodId_of_find hne hm, hfind]
      exact ⟨_, rfl⟩
    by_cases hrpc : str "rpc_" <:+: name.text
    · exact hnone _ ((mapOf_eq methods name).1 hrpc) (find_eq_none named_extensions hextensions)
    · refine hnone _ ((mapOf_eq methods name).2 hrpc) ?_
      rw [hall]
      refine find_eq_none (named_entries methods) fun e he => ?_
      obtain ⟨m, hm, rfl⟩ := List.mem_map.mp he
      exact hmethods m hm

/-- **The client finds the methods of a server exactly when their names are different, not empty and
without `rpc_`.** -/
theorem resolves_iff (hash : Bytes → UInt64) (methods : List SuilRpcMethod) :
    Resolves hash methods ↔ Plain methods :=
  ⟨plain_of_resolves, resolves_of_plain⟩

/-- A method whose name has `rpc_` in the middle. -/
theorem not_resolves_my_rpc_call : ¬ ∀ (hash : Bytes → UInt64) (methods : List SuilRpcMethod),
    (methods.map (·.name.text)).Nodup → (∀ m ∈ methods, m.name.text ≠ []) →
      Resolves hash methods := by
  intro h
  have hfound := (h (fun _ => 0) [⟨.ofNat 1, ⟨str "my_rpc_call", by decide⟩, by decide⟩]
    (by decide) (by decide)).found _ (List.mem_singleton.mpr rfl)
  have hnone : (methodId (fun _ => 0) (getMeta (fun _ => 0)
      [⟨.ofNat 1, ⟨str "my_rpc_call", by decide⟩, by decide⟩]) (str "my_rpc_call")).toOption = none := by
    decide
  rw [hfound] at hnone
  nomatch hnone

end Suil.Rpc
