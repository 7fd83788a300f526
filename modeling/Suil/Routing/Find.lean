import Suil.Lib.Backtrack
import Suil.Routing.Trie

set_option autoImplicit false

/-! # Finding the rule of a URL

`Trie.find` (`http/routing.cpp`) is a backtracking search: at a node it tries the edges of the
five kinds of placeholders and then the literal edges, and keeps the leaf with the least
index. It pushes the value of a placeholder on the one `RoutingParams` object before it goes
down and pops it afterwards; a leaf moves the whole object out.

`Trie.search` is the tree that `find` explores, and `Trie.findFrom_eq_run` says that `find` is
`Backtrack.SearchTree.run` over it. -/

namespace Suil.Routing

open Backtrack

variable {δ : Type}

/-! ## Lexing the value of a placeholder -/

/-- A number read at the start of a text with the number of characters it takes; `none` if
there is no number or `errno` is `ERANGE`. -/
structure Scan (α : Type) where
  scan : Bytes → Option (α × Nat)
  pos : ∀ {s v n}, scan s = some (v, n) → 0 < n
  le : ∀ {s v n}, scan s = some (v, n) → n ≤ s.length

/-- The readers of the C library. -/
structure Strto (δ : Type) where
  strtoll : Scan Int
  strtoull : Scan Nat
  strtod : Scan δ

/-- The sign at the start of a number, and how many characters it takes. -/
def readSign : Bytes → Bool × Nat
  | [] => (false, 0)
  | c :: _ => if c = DASH then (true, 1) else if c = PLUS then (false, 1) else (false, 0)

/-- A decimal number from `lo` to `hi` after an optional sign. -/
def readDecimal (lo hi : Int) (s : Bytes) : Option (Int × Nat) :=
  let sign := readSign s
  let digits := (s.drop sign.2).takeWhile isDigit
  let n := digits.foldl (fun (n : Nat) c => 10 * n + (c.toNat - 48)) 0
  let v : Int := if sign.1 then -n else n
  if digits = [] ∨ v < lo ∨ hi < v then none else some (v, sign.2 + digits.length)

theorem readDecimal_bounds {lo hi : Int} {s : Bytes} {v : Int} {n : Nat}
    (h : readDecimal lo hi s = some (v, n)) : 0 < n ∧ n ≤ s.length := by
  simp only [readDecimal, Option.ite_none_left_eq_some, not_or, Option.some.injEq,
    Prod.mk.injEq] at h
  obtain ⟨⟨hd, -⟩, -, rfl⟩ := h
  have hpos := List.length_pos_iff.mpr hd
  have hle := (List.takeWhile_prefix (l := s.drop (readSign s).2) isDigit).length_le
  have hlt : 0 < (s.drop (readSign s).2).length := by omega
  rw [List.length_drop] at hle hlt
  omega

/-- The readers on texts without a decimal point or an exponent. -/
def decimalReaders : Strto Int where
  strtoll := ⟨readDecimal (-2 ^ 63) (2 ^ 63 - 1), fun h => (readDecimal_bounds h).1,
    fun h => (readDecimal_bounds h).2⟩
  strtoull := ⟨fun s => (readDecimal 0 (2 ^ 64 - 1) s).map (fun r => (r.1.toNat, r.2)),
    fun h => by
      obtain ⟨r, hr, he⟩ := Option.map_eq_some_iff.mp h
      cases he
      exact (readDecimal_bounds hr).1,
    fun h => by
      obtain ⟨r, hr, he⟩ := Option.map_eq_some_iff.mp h
      cases he
      exact (readDecimal_bounds hr).2⟩
  strtod := ⟨readDecimal (-2 ^ 53) (2 ^ 53), fun h => (readDecimal_bounds h).1,
    fun h => (readDecimal_bounds h).2⟩

/-- The value of a placeholder at the start of `rest`, and what is left after it. -/
def lexeme (lx : Strto δ) (k : ParamType) (rest : Bytes) : Option (ParamVal δ × Bytes) :=
  match k with
  | .int =>
      if rest.head?.any (fun c => isDigit c || c = PLUS || c = DASH) then
        (lx.strtoll.scan rest).map (fun r => (.int r.1, rest.drop r.2))
      else none
  | .uint =>
      if rest.head?.any (fun c => isDigit c || c = PLUS) then
        (lx.strtoull.scan rest).map (fun r => (.uint r.1, rest.drop r.2))
      else none
  | .double =>
      if rest.head?.any (fun c => isDigit c || c = PLUS || c = DASH || c = DOT) then
        (lx.strtod.scan rest).map (fun r => (.double r.1, rest.drop r.2))
      else none
  | .string =>
      let sv := rest.takeWhile (· ≠ SLASH)
      if sv = [] then none else some (.str sv, rest.drop sv.length)
  | .path => if rest = [] then none else some (.str rest, [])

private theorem scan_lt {α : Type} (sc : Scan α) {f : α → ParamVal δ} {b : Bool} {rest : Bytes}
    {r : ParamVal δ × Bytes}
    (h : (if b then (sc.scan rest).map (fun r => (f r.1, rest.drop r.2)) else none) = some r) :
    r.2.length < rest.length := by
  split_ifs at h
  obtain ⟨⟨v, n⟩, hs, rfl⟩ := Option.map_eq_some_iff.mp h
  have := sc.pos hs
  have := sc.le hs
  simp only [List.length_drop]
  omega

/-- A placeholder takes at least one character. -/
theorem lexeme_lt {lx : Strto δ} {k : ParamType} {rest : Bytes} {r : ParamVal δ × Bytes}
    (h : lexeme lx k rest = some r) : r.2.length < rest.length := by
  cases k with
  | int => exact scan_lt lx.strtoll h
  | uint => exact scan_lt lx.strtoull h
  | double => exact scan_lt lx.strtod h
  | string =>
      simp only [lexeme] at h
      split_ifs at h with hsv
      cases h
      have hpos := List.length_pos_iff.mpr hsv
      have hle := (List.takeWhile_prefix (l := rest) (fun c => decide (c ≠ SLASH))).length_le
      simp only [List.length_drop]
      omega
  | path =>
      simp only [lexeme] at h
      split_ifs at h with hr
      cases h
      exact List.length_pos_iff.mpr hr

namespace Trie

/-! ## The search as the code runs it -/

/-- `update_found`. -/
def updateFound (best ret : Nat × RoutingParams δ) : Nat × RoutingParams δ :=
  if ret.1 ≠ 0 ∧ (best.1 = 0 ∨ best.1 > ret.1) then ret else best

/-- `find` at the node `i`, where `rest` is the request URL from `pos` on. Returns what the
source returns and the parameters it leaves in `*params`. `pos` is `unsigned` in the source: URLs of
2^32 bytes and more are left out. -/
def findFrom (t : Trie) (lx : Strto δ) : Nat → Bytes → Nat → RoutingParams δ →
    Except Fault ((Nat × RoutingParams δ) × RoutingParams δ)
  | 0, _, _, _ => .error .fuel
  | fuel + 1, rest, i, params =>
      let node := t.node i
      -- `std::move(*params)` leaves empty parameters
      if rest = [] then .ok ((node.ruleIndex, params), {})
      else do
        let r ← ParamType.all.foldlM (fun r k =>
          if node.paramChildrens k = 0 then .ok r
          else
            match lexeme lx k rest with
            | none => .ok r
            | some (value, rest) => do
                let params ← r.2.push value
                let (ret, params) ← t.findFrom lx fuel rest (node.paramChildrens k) params
                .ok (updateFound r.1 ret, params.pop value)) ((0, {}), params)
        node.children.foldlM (fun r kv =>
          if kv.1.isPrefixOf rest then do
            let (ret, params) ← t.findFrom lx fuel (rest.drop kv.1.length) kv.2 r.2
            .ok (updateFound r.1 ret, params)
          else .ok r) r

/-- `Trie::find` on a whole request URL. Every edge takes a character, so that the recursion
is no deeper than the URL is long. -/
def find (t : Trie) (lx : Strto δ) (url : Bytes) : Except Fault (Nat × RoutingParams δ) :=
  (t.findFrom lx (url.length + 1) url 0 {}).map Prod.fst

/-! ## The tree it explores -/

/-- An edge the search takes: a placeholder with its value, or a literal. -/
inductive Step (δ : Type) where
  | param (k : ParamType) (v : ParamVal δ)
  | lit (fragment : Bytes)
  deriving DecidableEq, Repr

/-- The value of a step, if it is a placeholder. -/
def Step.value : Step δ → Option (ParamVal δ)
  | .param _ v => some v
  | .lit _ => none

/-- The values of the placeholders of a walk. -/
def values (p : List (Step δ)) : List (ParamVal δ) := p.filterMap Step.value

/-- The edges open at a node: the step, what is left of the URL and the node it leads to. -/
def edges (t : Trie) (lx : Strto δ) (rest : Bytes) (i : Nat) : List (Step δ × Bytes × Nat) :=
  ParamType.all.filterMap (fun k =>
      if (t.node i).paramChildrens k = 0 then none
      else (lexeme lx k rest).map (fun r => (.param k r.1, r.2, (t.node i).paramChildrens k))) ++
    (t.node i).children.filterMap (fun kv =>
      if kv.1.isPrefixOf rest then some (.lit kv.1, rest.drop kv.1.length, kv.2) else none)

/-- The tree that `findFrom` explores. -/
def searchFrom (t : Trie) (lx : Strto δ) : Nat → Bytes → Nat → SearchTree (Step δ)
  | 0, _, _ => .done
  | fuel + 1, rest, i =>
      if rest = [] then .stop (t.node i).ruleIndex
      else
        SearchTree.node ((t.edges lx rest i).map
          (fun e => (e.1, t.searchFrom lx fuel e.2.1 e.2.2)))

/-- The tree that `find` explores. -/
def search (t : Trie) (lx : Strto δ) (url : Bytes) : SearchTree (Step δ) :=
  t.searchFrom lx (url.length + 1) url 0

/-- The parameters as a store of the steps taken. -/
def paramStore (δ : Type) : Store (Step δ) (RoutingParams δ) Fault where
  empty := {}
  push
    | .param _ v, s => s.push v
    | .lit _, s => .ok s
  pop
    | .param _ v, s => s.pop v
    | .lit _, s => s

/-! ## `find` explores the tree -/

/-- What makes the search go down: literal edges take characters, and at most one of a node
is open at a time. -/
structure Wf (t : Trie) : Prop where
  nonempty : ∀ {i e}, e ∈ (t.node i).children → e.1 ≠ []
  prefixFree : ∀ i, ((t.node i).children.map Prod.fst).Pairwise
    (fun f g => ¬ f <+: g ∧ ¬ g <+: f)

theorem Wf.edge_lt {t : Trie} (hw : t.Wf) {lx : Strto δ} {rest : Bytes} {i : Nat}
    {e : Step δ × Bytes × Nat} (he : e ∈ t.edges lx rest i) : e.2.1.length < rest.length := by
  rw [edges, List.mem_append, List.mem_filterMap, List.mem_filterMap] at he
  rcases he with ⟨k, -, hk⟩ | ⟨kv, hkv, hk⟩
  · split_ifs at hk
    obtain ⟨r, hr, rfl⟩ := Option.map_eq_some_iff.mp hk
    exact lexeme_lt hr
  · split_ifs at hk with hpre
    cases hk
    have hle := (List.isPrefixOf_iff_prefix.mp hpre).length_le
    have hpos := List.length_pos_iff.mpr (hw.nonempty hkv)
    simp only [List.length_drop]
    omega

private theorem foldlM_congr {ε α β : Type} {f g : β → α → Except ε β} {l : List α}
    (h : ∀ a ∈ l, ∀ b, f b a = g b a) (b : β) : l.foldlM f b = l.foldlM g b := by
  induction l generalizing b with
  | nil => rfl
  | cons a l ih =>
      rw [List.foldlM_cons, List.foldlM_cons, h a List.mem_cons_self]
      congr 1
      funext b
      exact ih (fun a ha => h a (List.mem_cons_of_mem _ ha)) b

/-- Exploring one edge as the code does. -/
private def takeEdge (t : Trie) (lx : Strto δ) (fuel : Nat)
    (r : (Nat × RoutingParams δ) × RoutingParams δ) (e : Step δ × Bytes × Nat) :
    Except Fault ((Nat × RoutingParams δ) × RoutingParams δ) := do
  let params ← (paramStore δ).push e.1 r.2
  let (ret, params) ← t.findFrom lx fuel e.2.1 e.2.2 params
  .ok (updateFound r.1 ret, (paramStore δ).pop e.1 params)

private theorem findFrom_edges (t : Trie) (lx : Strto δ) (fuel : Nat) {rest : Bytes}
    (hrest : rest ≠ []) (i : Nat) (params : RoutingParams δ) :
    t.findFrom lx (fuel + 1) rest i params =
      (t.edges lx rest i).foldlM (t.takeEdge lx fuel) ((0, {}), params) := by
  rw [findFrom, edges, List.foldlM_append, List.foldlM_filterMap]
  simp only [if_neg hrest, List.foldlM_filterMap]
  congr 1
  · refine foldlM_congr (fun k _ r => ?_) _
    split_ifs
    · rfl
    · cases lexeme lx k rest <;> rfl
  · funext r
    refine foldlM_congr (fun kv _ r => ?_) r
    split_ifs <;> rfl

/-- **`find` is the backtracking search over the tree of its steps.** -/
theorem findFrom_eq_run {t : Trie} (hw : t.Wf) (lx : Strto δ) (fuel : Nat) (rest : Bytes)
    (hfuel : rest.length < fuel) (i : Nat) (params : RoutingParams δ) :
    t.findFrom lx fuel rest i params =
      (t.searchFrom lx fuel rest i).run (paramStore δ) (0, {}) params := by
  induction fuel generalizing rest i params with
  | zero => omega
  | succ fuel ih =>
      by_cases hrest : rest = []
      · rw [findFrom, searchFrom, if_pos hrest, if_pos hrest]; rfl
      · rw [findFrom_edges t lx fuel hrest, searchFrom, if_neg hrest, SearchTree.run_node,
          List.foldlM_map]
        refine foldlM_congr (fun e he r => ?_) _
        have hlt := hw.edge_lt he
        have hrun : ∀ s, t.findFrom lx fuel e.2.1 e.2.2 s =
            (t.searchFrom lx fuel e.2.1 e.2.2).run (paramStore δ) (0, {}) s :=
          fun s => ih e.2.1 (by omega) e.2.2 s
        unfold takeEdge exploreBranch
        simp only [hrun]
        rfl

/-! ## Walks -/

/-- The walks of the search: the steps from a node over the whole of `rest`, and the node
they end at. -/
inductive Walk (t : Trie) (lx : Strto δ) : Nat → Bytes → List (Step δ) → Nat → Prop where
  | stop (i : Nat) : Walk t lx i [] [] i
  | step {i j : Nat} {rest : Bytes} {e : Step δ × Bytes × Nat} {p : List (Step δ)}
      (hrest : rest ≠ []) (he : e ∈ t.edges lx rest i) (hp : Walk t lx e.2.2 e.2.1 p j) :
      Walk t lx i rest (e.1 :: p) j

/-- The search completes exactly the walks. -/
theorem mem_visits_searchFrom {t : Trie} (hw : t.Wf) (lx : Strto δ) (fuel : Nat) (rest : Bytes)
    (hfuel : rest.length < fuel) (i : Nat) (p : List (Step δ)) (m : Nat) :
    Visit.stop p m ∈ (t.searchFrom lx fuel rest i).visits ↔
      ∃ j, Walk t lx i rest p j ∧ (t.node j).ruleIndex = m := by
  induction fuel generalizing rest i p with
  | zero => omega
  | succ fuel ih =>
      rw [searchFrom]
      by_cases hrest : rest = []
      · subst hrest
        rw [if_pos rfl, SearchTree.visits, List.mem_singleton]
        constructor
        · intro h
          cases h
          exact ⟨i, .stop i, rfl⟩
        · rintro ⟨j, hwalk, rfl⟩
          cases hwalk with
          | stop => rfl
          | step hne => exact absurd rfl hne
      · rw [if_neg hrest, SearchTree.mem_visits_node]
        constructor
        · rintro ⟨b, hb, h | ⟨w, hw', h⟩⟩
          · cases h
          · obtain ⟨e, he, rfl⟩ := List.mem_map.mp hb
            cases w with
            | enter q => cases h
            | stop q k =>
                cases h
                have hlt := hw.edge_lt he
                obtain ⟨j, hwalk, hj⟩ := (ih e.2.1 (by omega) e.2.2 q).mp hw'
                exact ⟨j, .step hrest he hwalk, hj⟩
        · rintro ⟨j, hwalk, hj⟩
          cases hwalk with
          | stop => exact absurd rfl hrest
          | @step _ _ _ e q _ he hq =>
              have hlt := hw.edge_lt he
              exact ⟨_, List.mem_map_of_mem he, Or.inr ⟨.stop q m,
                (ih e.2.1 (by omega) e.2.2 q).mpr ⟨j, hq, hj⟩, rfl⟩⟩

/-- The marks of the search are the rule indexes the walks from the head end at. -/
theorem mem_marks_search {t : Trie} (hw : t.Wf) (lx : Strto δ) (url : Bytes) (m : Nat) :
    m ∈ (t.search lx url).marks ↔
      ∃ p j, Walk t lx 0 url p j ∧ (t.node j).ruleIndex = m := by
  rw [SearchTree.mem_marks]
  constructor
  · rintro ⟨p, hp⟩
    exact ⟨p, (mem_visits_searchFrom hw lx _ url (Nat.lt_succ_self _) 0 p m).mp hp⟩
  · rintro ⟨p, hp⟩
    exact ⟨p, (mem_visits_searchFrom hw lx _ url (Nat.lt_succ_self _) 0 p m).mpr hp⟩

/-! ## The search is well formed, and the parameters model its steps -/

theorem nodup_edges {t : Trie} (hw : t.Wf) (lx : Strto δ) (rest : Bytes) (i : Nat) :
    ((t.edges lx rest i).map Prod.fst).Nodup := by
  rw [edges, List.map_append, List.nodup_append]
  refine ⟨?_, ?_, ?_⟩
  · have hall : ParamType.all.Nodup := by decide
    rw [List.Nodup, List.pairwise_map, List.pairwise_filterMap]
    refine List.Pairwise.imp ?_ hall
    intro k k' hne e he e' he'
    split_ifs at he he'
    obtain ⟨r, -, rfl⟩ := Option.map_eq_some_iff.mp he
    obtain ⟨r', -, rfl⟩ := Option.map_eq_some_iff.mp he'
    simp [hne]
  · have hpre := List.pairwise_map.mp (hw.prefixFree i)
    rw [List.Nodup, List.pairwise_map, List.pairwise_filterMap]
    refine List.Pairwise.imp ?_ hpre
    intro kv kv' hne e he e' he'
    split_ifs at he he'
    cases he
    cases he'
    simp only [ne_eq, Step.lit.injEq]
    intro heq
    exact hne.1 (heq ▸ List.prefix_refl _)
  · intro a ha b hb
    obtain ⟨e, he, rfl⟩ := List.mem_map.mp ha
    obtain ⟨e', he', rfl⟩ := List.mem_map.mp hb
    obtain ⟨k, -, hk⟩ := List.mem_filterMap.mp he
    obtain ⟨kv, -, hkv⟩ := List.mem_filterMap.mp he'
    split_ifs at hk hkv
    obtain ⟨r, -, rfl⟩ := Option.map_eq_some_iff.mp hk
    cases hkv
    simp

theorem wf_searchFrom {t : Trie} (hw : t.Wf) (lx : Strto δ) (fuel : Nat) (rest : Bytes)
    (i : Nat) : (t.searchFrom lx fuel rest i).Wf := by
  induction fuel generalizing rest i with
  | zero => trivial
  | succ fuel ih =>
      rw [searchFrom]
      split_ifs with hrest
      · trivial
      · refine SearchTree.wf_node ?_ ?_
        · rw [List.map_map]
          exact nodup_edges hw lx rest i
        · intro b hb
          obtain ⟨e, -, rfl⟩ := List.mem_map.mp hb
          exact ih _ _

theorem wf_search {t : Trie} (hw : t.Wf) (lx : Strto δ) (url : Bytes) : (t.search lx url).Wf :=
  wf_searchFrom hw lx _ url 0

theorem find_eq_run {t : Trie} (hw : t.Wf) (lx : Strto δ) (url : Bytes) :
    t.find lx url =
      ((t.search lx url).run (paramStore δ) (0, (paramStore δ).empty) {}).map Prod.fst := by
  rw [find, findFrom_eq_run hw lx _ url (Nat.lt_succ_self _), ← search]
  rfl

/-- The parameters model the steps: what they hold is the values, and the values fit as long
as there are at most 128 of each kind. -/
theorem paramStore_models :
    (paramStore δ).Models (fun p s => s.Holds (values p))
      (fun p => RoutingParams.Fit (values p)) := by
  have happ : ∀ (p : List (Step δ)) k v, values (p ++ [.param k v]) = values p ++ [v] := by
    intro p k v
    rw [values, List.filterMap_append]; rfl
  have hlit : ∀ (p : List (Step δ)) f, values (p ++ [.lit f]) = values p := by
    intro p f
    rw [values, List.filterMap_append]
    exact List.append_nil _
  refine ⟨RoutingParams.holds_empty, ?_, ?_, ?_, ?_⟩
  · intro p l s hs hfit
    cases l with
    | param k v => rw [happ] at hfit ⊢; exact RoutingParams.push_ok hs v hfit
    | lit f => exact ⟨s, rfl, by rw [hlit]; exact hs⟩
  · intro p l s hs hfit
    cases l with
    | param k v => rw [happ] at hfit; exact ⟨_, RoutingParams.push_error hs v hfit⟩
    | lit f => rw [hlit] at hfit; exact absurd hs.fit hfit
  · intro p l s hs
    cases l with
    | param k v => rw [happ] at hs; exact RoutingParams.pop_holds hs
    | lit f => rw [hlit] at hs; exact hs
  · intro l s hs
    cases l with
    | param k v => exact RoutingParams.pop_holds_nil hs v
    | lit f => exact hs

/-- Everything `find` has to hold at once fits in the parameters. -/
def Fits [DecidableEq δ] (t : Trie) (lx : Strto δ) (url : Bytes) : Prop :=
  AllFit (fun p => RoutingParams.Fit (values p)) (t.search lx url).held

/-- **What `find` returns**: the chosen walk of the search if everything fits. -/
theorem find_ok [DecidableEq δ] {t : Trie} (hw : t.Wf) {lx : Strto δ} {url : Bytes}
    (hfit : t.Fits lx url) :
    ∃ params, t.find lx url = .ok ((t.search lx url).chosen.1, params) ∧
      ((t.search lx url).chosen.1 ≠ 0 → params.Carries (values (t.search lx url).chosen.2.2)) := by
  obtain ⟨r, s, hrun, hmark, hheld⟩ :=
    SearchTree.run_ok paramStore_models (wf_search hw lx url) RoutingParams.holds_empty hfit
  refine ⟨r.2, ?_, fun h => (hheld h).carries⟩
  rw [find_eq_run hw, hrun]
  exact congrArg Except.ok (Prod.ext hmark rfl)

/-- `find` fails when something does not fit. -/
theorem find_error [DecidableEq δ] {t : Trie} (hw : t.Wf) {lx : Strto δ} {url : Bytes}
    (hfit : ¬ t.Fits lx url) : ∃ e, t.find lx url = .error e := by
  obtain ⟨e, he⟩ :=
    SearchTree.run_error paramStore_models (wf_search hw lx url) RoutingParams.holds_empty hfit
  exact ⟨e, by rw [find_eq_run hw, he]; rfl⟩

end Trie

end Suil.Routing
