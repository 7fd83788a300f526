import Mathlib
import Suil.Basic.JsonText

set_option autoImplicit false

/-! # Maps in JSON

`json::encode` for a `Map` (`json.h`). The flag of its loop is never set, so that nothing stands
between the entries, nothing stands around them, and a key is written as a truth value. `mapReads_iff`
says for which maps the text can be read. What is written for a value is an argument. -/

namespace Suil.Json

variable {α ν : Type}

/-- The loop over the entries; `boost::lexical_cast` streams the keys. -/
def encodeEntries (json_encode_ : α → Bytes) : Bool → List (Bytes × α) → Bytes
  | _, [] => []
  | first, e :: m =>
      (if first then str ", " else []) ++ [DQUOTE] ++ streamed e.1 ++ [DQUOTE, COLON, SP] ++
        json_encode_ e.2 ++ encodeEntries json_encode_ false m

/-- `json::encode(m)`. -/
def encodeMap (json_encode_ : α → Bytes) (m : List (Bytes × α)) : Bytes :=
  if m = [] then str "{}" else encodeEntries json_encode_ false m

/-- The text is an object with the entries of the map and no others, where `value` is the JSON value
that a value of the map stands for. -/
def MapReads (N : Numbers ν) (json_encode_ : α → Bytes) (value : α → Json ν)
    (m : List (Bytes × α)) : Prop :=
  ∃ ms, decode N (encodeMap json_encode_ m) = .ok (.object ms) ∧
    ms.Perm (m.map fun e => (e.1, value e.2))

variable {N : Numbers ν} {json_encode_ : α → Bytes} {value : α → Json ν}

/-- The text of a map with an entry starts with the quote of a key. -/
private theorem encodeMap_cons (e : Bytes × α) (m : List (Bytes × α)) :
    ∃ rest, encodeMap json_encode_ (e :: m) = DQUOTE :: rest := by
  refine ⟨streamed e.1 ++ ([DQUOTE, COLON, SP] ++ (json_encode_ e.2 ++
    encodeEntries json_encode_ false m)), ?_⟩
  rw [encodeMap, if_neg (List.cons_ne_nil e m), encodeEntries, if_neg Bool.false_ne_true]
  simp only [List.nil_append, List.cons_append, List.append_assoc]

/-- What starts with a quote is read as a string, if at all. -/
private theorem parse_value_quote (n : Nat) (rest : Bytes) {o : Json ν} {s : Bytes}
    (h : parse_value N (n + 1) (DQUOTE :: rest) = .ok (o, s)) : ∃ b, o = .string b := by
  have hstring : parse_value N (n + 1) (DQUOTE :: rest) =
      (parse_string (DQUOTE :: rest)).bind fun r => .ok (.string r.1, r.2) := rfl
  rw [hstring] at h
  cases hparse : parse_string (DQUOTE :: rest) with
  | error e =>
      rw [hparse] at h
      cases h
  | ok r =>
      rw [hparse] at h
      cases h
      exact ⟨r.1, rfl⟩

private theorem decode_quote (rest : Bytes) {o : Json ν}
    (h : decode N (DQUOTE :: rest) = .ok o) : ∃ b, o = .string b := by
  have hspace : skip_space (DQUOTE :: rest) = DQUOTE :: rest := rfl
  have hobject : ∀ r, Object.decode N (DQUOTE :: rest) = .ok r → ∃ b, r.1 = .string b := by
    intro r hr
    unfold Object.decode at hr
    rw [hspace] at hr
    dsimp only at hr
    split at hr
    · nomatch hr
    · nomatch hr
    · next o s hparse =>
        cases hr
        exact parse_value_quote _ rest hparse
  unfold decode at h
  cases hr : Object.decode N (DQUOTE :: rest) with
  | error e =>
      rw [hr] at h
      nomatch h
  | ok r =>
      obtain ⟨b, hb⟩ := hobject r hr
      have hend : (if r.2 ≠ (DQUOTE :: rest).length then
          Except.error (Stop.raised ⟨str "decoding json string failed at pos ", r.2⟩)
          else .ok r.1) = Except.ok o := by
        rw [hr] at h
        exact h
      split at hend
      · nomatch hend
      · exact ⟨b, (Except.ok.inj hend).symm.trans hb⟩

/-- **Only the text of the empty map can be read.** -/
theorem mapReads_iff (N : Numbers ν) (json_encode_ : α → Bytes)
    (value : α → Json ν) (m : List (Bytes × α)) : MapReads N json_encode_ value m ↔ m = [] := by
  constructor
  · rintro ⟨ms, hdecode, -⟩
    cases m with
    | nil => rfl
    | cons e m =>
        obtain ⟨rest, hrest⟩ := encodeMap_cons e m
        rw [hrest] at hdecode
        obtain ⟨b, hb⟩ := decode_quote rest hdecode
        nomatch hb
  · rintro rfl
    exact ⟨[], rfl, List.Perm.refl []⟩

/-- The map with the entry `a`, written `"1": 1`. -/
theorem not_mapReads_a : ¬ MapReads naturals showNat .number [(str "a", 1)] := by
  rintro ⟨ms, hdecode, -⟩
  obtain ⟨b, hb⟩ := decode_quote _ hdecode
  nomatch hb

end Suil.Json
