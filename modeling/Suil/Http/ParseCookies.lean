import Suil.Http.CaseMapLaws
import Suil.Lib.AssocMap

set_option autoImplicit false

/-! # The cookies of a request

`Request::parse_cookies` (`request.cpp`) splits the value of the `Cookie` header with `String::split`
(`zstring.cpp`), which cuts it into C strings, and each part at its first equals sign. The length of
the name is computed from the place of that sign, which is a null pointer when there is none. -/

namespace Suil.Http.Cookies

/-! ## `parse_cookies` -/

/-- What is undefined: a length that is the difference of a null pointer and the name. -/
inductive CookieFault where
  | mismatched
  deriving DecidableEq, Repr

/-- The name of a part: it begins behind the white space. -/
def nameOf (part : Bytes) : Bytes := (part.dropWhile isSpace).takeWhile (· ≠ EQUALS)

/-- The value, which is behind the first equals sign. -/
def valueOf (part : Bytes) : Bytes := ((part.dropWhile isSpace).dropWhile (· ≠ EQUALS)).tail

section

variable (hash : Bytes → UInt64)

/-- The loop over the parts. -/
def parseParts : List Bytes → CaseMap Bytes → Except CookieFault (CaseMap Bytes)
  | [], cookies => .ok cookies
  | part :: parts, cookies =>
      if EQUALS ∈ part.dropWhile isSpace then
        parseParts parts (cookies.emplace hash (nameOf part) (valueOf part))
      else .error .mismatched

/-- `parse_cookies`, for the value of the header if there is one: the result and the cookies. -/
def parse_cookies : Option Bytes → Except CookieFault (Bool × CaseMap Bytes)
  | none => .ok (false, [])
  | some h => do .ok (true, ← parseParts hash (split SEMI h) [])

/-! ## The segments of a header -/

/-- The `name=value` segments of a header, which may have any bytes in it. -/
def pairs (h : Bytes) : List (Bytes × Bytes) :=
  ((h.splitOn SEMI).filter (EQUALS ∈ ·)).map fun s => (nameOf s, valueOf s)

/-- Every `name=value` segment is stored as it is, and no string is made of what is not one. -/
def Parses (h : Bytes) : Prop :=
  ∃ cookies, parse_cookies hash (some h) = .ok (true, cookies) ∧ ∀ p ∈ pairs h, p ∈ cookies

/-- The map takes the names for one. -/
def taken (a b : Bytes) : Bool := hash a = hash b && mapCaseEq a b

end

/-! ## Names -/

theorem taken_comm (hash : Bytes → UInt64) (a b : Bytes) : taken hash a b = taken hash b a := by
  have hsymm : mapCaseEq a b = mapCaseEq b a := by
    rw [Bool.eq_iff_iff, mapCaseEq_iff, mapCaseEq_iff, Overlap, Overlap, Nat.min_comm]
    exact eq_comm
  rw [taken, taken, hsymm, decide_eq_decide.mpr eq_comm]

section

variable {hash : Bytes → UInt64}

/-- White space is no equals sign. -/
theorem mem_dropWhile_iff (part : Bytes) : EQUALS ∈ part.dropWhile isSpace ↔ EQUALS ∈ part := by
  constructor
  · exact fun h => (List.dropWhile_suffix _).subset h
  · intro h
    rw [← List.takeWhile_append_dropWhile (p := isSpace) (l := part), List.mem_append] at h
    refine h.resolve_left fun hspace => ?_
    exact absurd (List.mem_takeWhile_imp hspace) (by decide)

/-! ## Parsing -/

/-- The parts are stored one after the other, when each has an equals sign. -/
theorem parseParts_eq (parts : List Bytes) (cookies : CaseMap Bytes) :
    parseParts hash parts cookies = if ∀ s ∈ parts, EQUALS ∈ s then
        .ok ((parts.map fun s => (nameOf s, valueOf s)).foldl
          (fun m e => AssocMap.emplace (taken hash) m e.1 e.2) cookies)
      else .error .mismatched := by
  induction parts generalizing cookies with
  | nil => rfl
  | cons s parts ih =>
      rw [parseParts, ih]
      simp only [mem_dropWhile_iff, List.forall_mem_cons]
      by_cases hs : EQUALS ∈ s
      · rw [if_pos hs]
        simp only [hs, true_and]
        rfl
      · rw [if_neg hs, if_neg fun h => hs h.1]

/-- What is behind a text is added to its last segment, up to the next separator. -/
theorem splitOn_append (c r : Bytes) : ∃ init last t rest, c.splitOn SEMI = init ++ [last] ∧
    r.splitOn SEMI = t :: rest ∧ (c ++ r).splitOn SEMI = init ++ (last ++ t) :: rest := by
  induction c with
  | nil =>
      cases hr : r.splitOn SEMI with
      | nil => exact (List.splitOn_ne_nil SEMI r hr).elim
      | cons t rest => exact ⟨[], [], t, rest, rfl, rfl, hr⟩
  | cons d c ih =>
      obtain ⟨init, last, t, rest, hc, hr, hall⟩ := ih
      rw [List.cons_append, List.splitOn_cons_eq_if_modifyHead, List.splitOn_cons_eq_if_modifyHead,
        hc, hall]
      split_ifs with hd
      · exact ⟨[] :: init, last, t, rest, rfl, hr, rfl⟩
      · cases init with
        | nil => exact ⟨[], d :: last, t, rest, rfl, hr, rfl⟩
        | cons s init => exact ⟨(d :: s) :: init, last, t, rest, rfl, hr, rfl⟩

theorem valueOf_append {s : Bytes} (h : EQUALS ∈ s) (z : Bytes) :
    valueOf (s ++ z) = valueOf s ++ z := by
  have hmem := (mem_dropWhile_iff s).mpr h
  have hspace : ¬ ∀ c ∈ s, isSpace c = true := fun hall => by
    rw [List.dropWhile_eq_nil_iff.mpr hall] at hmem
    nomatch hmem
  obtain ⟨u, v, huv, hu⟩ := List.eq_append_cons_of_mem hmem
  have hne : ∀ c ∈ u, decide (c ≠ EQUALS) = true := fun c hc =>
    decide_eq_true fun heq => hu (heq ▸ hc)
  have hdrop : ∀ w : Bytes, ((u ++ EQUALS :: w).dropWhile (· ≠ EQUALS)).tail = w := fun w => by
    rw [List.dropWhile_append_of_pos hne, List.dropWhile_cons, if_neg (by decide), List.tail_cons]
  rw [valueOf, valueOf, List.dropWhile_append, if_neg (by rw [huv]; simp), huv, hdrop,
    List.append_assoc, List.cons_append, hdrop]

theorem mem_pairs {h : Bytes} {p : Bytes × Bytes} : p ∈ pairs h ↔
    ∃ s ∈ h.splitOn SEMI, EQUALS ∈ s ∧ (nameOf s, valueOf s) = p := by
  simp only [pairs, List.mem_map, List.mem_filter, decide_eq_true_eq, and_assoc]

/-- A segment of a text has no other bytes. -/
theorem mem_of_mem_splitOn {h s : Bytes} (hs : s ∈ h.splitOn SEMI) {c : UInt8} (hc : c ∈ s) :
    c ∈ h := by
  induction h generalizing s with
  | nil =>
      rw [List.splitOn_nil, List.mem_singleton] at hs
      rwa [hs] at hc
  | cons d h ih =>
      rw [List.splitOn_cons_eq_if_modifyHead] at hs
      split_ifs at hs
      · rcases List.mem_cons.mp hs with rfl | hs
        · nomatch hc
        · exact List.mem_cons_of_mem _ (ih hs hc)
      · cases hh : h.splitOn SEMI with
        | nil => exact (List.splitOn_ne_nil SEMI h hh).elim
        | cons t rest =>
            rw [hh, List.modifyHead_cons] at hs
            rcases List.mem_cons.mp hs with rfl | hs
            · rcases List.mem_cons.mp hc with rfl | hc
              · exact List.mem_cons_self
              · exact List.mem_cons_of_mem _ (ih (hh ▸ List.mem_cons_self) hc)
            · exact List.mem_cons_of_mem _ (ih (hh ▸ List.mem_cons_of_mem _ hs) hc)

/-- Where every segment is there in front of the NUL, nothing else is. -/
theorem mem_pairs_of_cstr {h : Bytes} (hall : ∀ p ∈ pairs h, p ∈ pairs (cstr h)) {p : Bytes × Bytes}
    (hp : p ∈ pairs (cstr h)) : p ∈ pairs h := by
  rcases cstr_split h with heq | ⟨r, hr⟩
  · rwa [heq]
  obtain ⟨init, last, t, rest, hc, ht, hsegs⟩ := splitOn_append (cstr h) (NUL :: r)
  rw [← hr] at hsegs
  obtain ⟨s, hs, hequals, hpair⟩ := mem_pairs.mp hp
  rw [hc] at hs
  rcases List.mem_append.mp hs with hinit | hlast
  · exact mem_pairs.mpr ⟨s, hsegs ▸ List.mem_append_left _ hinit, hequals, hpair⟩
  · -- the last segment would go on with a NUL
    rw [List.mem_singleton.mp hlast] at hequals
    have hnul : NUL ∈ t := by
      rw [List.splitOn_cons_eq_if_modifyHead, if_neg (by decide)] at ht
      cases hrest : r.splitOn SEMI with
      | nil => exact (List.splitOn_ne_nil SEMI r hrest).elim
      | cons t' rest' =>
          rw [hrest, List.modifyHead_cons] at ht
          rw [← (List.cons.inj ht).1]
          exact List.mem_cons_self
    have hmem := hall _ (mem_pairs.mpr ⟨last ++ t, hsegs ▸ List.mem_append_right _ List.mem_cons_self,
      List.mem_append_left _ hequals, rfl⟩)
    obtain ⟨s', hs', -, hpair'⟩ := mem_pairs.mp hmem
    have hvalue : valueOf s' = valueOf last ++ t :=
      (Prod.mk.inj hpair').2.trans (valueOf_append hequals t)
    have hin : NUL ∈ s' := by
      have hsub : NUL ∈ valueOf s' := hvalue ▸ List.mem_append_right _ hnul
      exact (List.dropWhile_suffix _).subset ((List.dropWhile_suffix _).subset
        (List.mem_of_mem_tail hsub))
    exact absurd (mem_of_mem_splitOn hs' hin) (nul_notMem_cstr h)

/-- **The segments are stored as they are exactly when each part has an equals sign, no pair is cut
off by a NUL, and names that the map takes for one come with one value.** -/
theorem parses_iff (h : Bytes) : Parses hash h ↔ (∀ s ∈ split SEMI h, EQUALS ∈ s) ∧
    (∀ p ∈ pairs h, p ∈ pairs (cstr h)) ∧
      ∀ p ∈ pairs h, ∀ q ∈ pairs h, taken hash p.1 q.1 → p = q := by
  have hparse : parse_cookies hash (some h) = if ∀ s ∈ split SEMI h, EQUALS ∈ s then
      .ok (true, AssocMap.insertAll (taken hash) (pairs (cstr h)))
      else .error .mismatched := by
    rw [parse_cookies, parseParts_eq]
    split_ifs with hall
    · have hfilter : split SEMI h = ((cstr h).splitOn SEMI).filter (EQUALS ∈ ·) := by
        refine List.filter_congr fun s hs => decide_eq_decide.mpr ⟨fun hne => ?_, ?_⟩
        · exact hall s (List.mem_filter.mpr ⟨hs, decide_eq_true hne⟩)
        · rintro hmem rfl
          nomatch hmem
      rw [pairs, ← hfilter]
      rfl
    · rfl
  rw [Parses, hparse]
  split_ifs with hall
  · rw [and_iff_right hall]
    have hkept := @AssocMap.forall_mem_insertAll_iff _ _ _ (taken_comm hash) (pairs (cstr h))
    constructor
    · rintro ⟨cookies, hcookies, hstored⟩
      rw [← (Prod.mk.inj (Except.ok.inj hcookies)).2] at hstored
      have hsub : ∀ p ∈ pairs h, p ∈ pairs (cstr h) := fun p hp =>
        AssocMap.mem_of_mem_insertAll (hstored p hp)
      refine ⟨hsub, fun p hp q hq => ?_⟩
      exact hkept.mp (fun e he => hstored e (mem_pairs_of_cstr hsub he)) p (hsub p hp) q (hsub q hq)
    · rintro ⟨hsub, hone⟩
      refine ⟨_, rfl, fun p hp => hkept.mpr ?_ p (hsub p hp)⟩
      exact fun e he e' he' => hone e (mem_pairs_of_cstr hsub he) e' (mem_pairs_of_cstr hsub he')
  · exact iff_of_false (by rintro ⟨cookies, hcookies, -⟩; nomatch hcookies) fun hyes => hall hyes.1

end

/-- A segment without an equals sign: `a=1; b`. -/
theorem not_parses_bare : ¬ ∀ (hash : Bytes → UInt64) (h : Bytes), Parses hash h := by
  intro hall
  exact absurd ((parses_iff _).mp (hall (fun _ => 0) (str "a=1; b"))).1 (by decide)

end Suil.Http.Cookies
