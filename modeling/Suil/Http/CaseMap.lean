import Suil.Basic.CString

set_option autoImplicit false

/-! # Case-insensitive maps

`CaseMap` (`utils.h`) is an `unordered_map` over `String` keys. It compares keys by
`map_case_eq`, without their case, but finds the bucket by a hash of the key's own bytes. A key is
found when an entry has both the same hash and an equal key. The entries stand in the order in
which a loop over the map meets them. -/

namespace Suil.Http

/-- `map_case_eq`: the keys agree, without their case, as far as the shorter one goes. -/
def mapCaseEq (l r : Bytes) : Bool :=
  strncaseEq (min l.length r.length) l r

abbrev CaseMap (α : Type) := List (Bytes × α)

namespace CaseMap

variable {α : Type} (hash : Bytes → UInt64)

/-- `find`; `hash` is the `std::hash` of the standard library. -/
def find (m : CaseMap α) (key : Bytes) : Option α :=
  (List.find? (fun e => hash e.1 = hash key && mapCaseEq e.1 key) m).map (·.2)

/-- `emplace`: a key that is there keeps its value. -/
def emplace (m : CaseMap α) (key : Bytes) (v : α) : CaseMap α :=
  if (m.find hash key).isSome then m else m ++ [(key, v)]

/-- `count(key) != 0`. -/
def count (m : CaseMap α) (key : Bytes) : Bool := (m.find hash key).isSome

variable {hash}

theorem find_append_of_none {m m' : CaseMap α} {key : Bytes} (h : m.find hash key = none) :
    CaseMap.find hash (m ++ m') key = CaseMap.find hash m' key := by
  rw [find, Option.map_eq_none_iff] at h
  rw [find, List.find?_append, h, Option.none_or, find]

theorem find_singleton (key : Bytes) (v : α) : CaseMap.find hash [(key, v)] key = some v := by
  simp [find, mapCaseEq, strncaseEq_self]

theorem find_emplace_of_none {m : CaseMap α} {key : Bytes} (v : α)
    (h : m.find hash key = none) : (m.emplace hash key v).find hash key = some v := by
  rw [emplace, h, if_neg (by simp), find_append_of_none h, find_singleton]

/-- Another key is found as before. -/
theorem find_emplace_of_ne {m : CaseMap α} {key other : Bytes} (v : α)
    (h : mapCaseEq key other = false) :
    (m.emplace hash key v).find hash other = m.find hash other := by
  rw [emplace]
  split_ifs with hm
  · rfl
  · have hnot : List.find? (fun e : Bytes × α => hash e.1 = hash other && mapCaseEq e.1 other)
        [(key, v)] = none := by simp [h]
    rw [find, List.find?_append, hnot, Option.or_none, find]

end CaseMap

end Suil.Http
