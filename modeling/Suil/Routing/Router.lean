import Suil.Basic.CString
import Suil.Routing.Optimize

set_option autoImplicit false

/-! # The router

`Router` (`http/routing.h`, `http/routing.cpp`) keeps the rules in a vector whose first two
places are null: place `0` stands for "no rule" and place `1` for the redirect that answers
`/about` when the rule is `/about/`. `before` looks the rule of a request up and copies its
attributes, `handle` answers the request.

`before` copies the attributes before it looks at the index, also from the null rule of the
redirect. `serve_iff` says exactly when a request is answered without touching a null rule. -/

namespace Suil.Routing

open Backtrack

variable {δ A H : Type}

/-! ## The data -/

/-- `BaseRule` with the handler of its subclasses. -/
structure BaseRule (A H : Type) where
  rule : Bytes
  name : Bytes := []
  /-- `1 << (uint16_t) Method::Get` -/
  methods : Nat := 2
  attrs : A
  handler : Option H

/-- `validate` of a rule; the error is the text of the exception. -/
def BaseRule.validate (r : BaseRule A H) : Except Bytes Unit :=
  match r.handler with
  | some _ => .ok ()
  | none =>
      .error (r.name ++ (if r.name ≠ [] then str ": " else []) ++ str "no handler for url "
        ++ r.rule)

structure Router (A H : Type) where
  rules : List (Option (BaseRule A H))
  trie : Trie
  apiBase : Bytes

/-- `Router(base)`, with `m_rules(2)`. -/
def Router.new (base : Bytes) : Router A H :=
  { rules := [none, none], trie := {}, apiBase := if base = str "/" then [] else base }

/-- What the router reads of a request: the URL, the number of the method and the header
`Host` (empty if there is none). -/
structure Request where
  url : Bytes
  method : Nat
  host : Bytes

/-- `request_params_t`. -/
structure RequestParams (δ A : Type) where
  index : Nat
  decoded : RoutingParams δ
  attrs : A
  methods : Nat

/-- How `before` and `handle` fail: `Error::notFound()`, the exception "trie internal structure
corrupted!", a null rule that is dereferenced, or a search that fails. -/
inductive RouterFault where
  | notFound
  | corrupted
  | nullRule
  | search (f : Fault)
  deriving DecidableEq, Repr

/-- How a request is answered: the redirect (`301`) with its header `Location`, or the handler
of a rule. -/
inductive Reply (δ A H : Type) where
  | redirect (location : Bytes)
  | handled (rule : BaseRule A H) (decoded : RoutingParams δ)

namespace Router

/-! ## The operations -/

def RULE_SPECIAL_REDIRECT_SLASH : Nat := 1

/-- `"/" SUIL_FILE_SERVER_ROUTE`. -/
def FS_URL : Bytes := str "/1511d5908a7811e790ed6f6e6c696e65"

/-- How a registration ends: it returns, an exception leaves it, or it does not end. -/
inductive Registered (A H : Type) where
  | done (r : Router A H)
  | thrown (r : Router A H)
  | diverged

/-- `internal_add_rule_object`. -/
def internalAddRuleObject (r : Router A H) (rule : BaseRule A H) : Registered A H :=
  let rules := r.rules ++ [some rule]
  match r.trie.add rule.rule (rules.length - 1) with
  | .diverged => .diverged
  | .thrown trie => .thrown { r with rules := rules, trie := trie }
  | .done trie =>
      -- a request to `/about` matches the rule `/about/`
      if 1 < rule.rule.length ∧ rule.rule.getLast? = some SLASH then
        match trie.add rule.rule.dropLast RULE_SPECIAL_REDIRECT_SLASH with
        | .diverged => .diverged
        | .thrown trie => .thrown { r with rules := rules, trie := trie }
        | .done trie => .done { r with rules := rules, trie := trie }
      else .done { r with rules := rules, trie := trie }

/-- Registrations one after the other, whether they return or throw. -/
def registerAll : Router A H → List (BaseRule A H) → Option (Router A H)
  | r, [] => some r
  | r, rule :: rules =>
      match r.internalAddRuleObject rule with
      | .done r => r.registerAll rules
      | .thrown r => r.registerAll rules
      | .diverged => none

/-- What leaves `validate` other than by returning. -/
inductive ValidateError where
  | trie (f : Trie.ValidateFault)
  | rule (text : Bytes)

/-- `Router::validate`. -/
def validate (r : Router A H) : Except ValidateError (Router A H) :=
  match r.trie.validate with
  | .error f => .error (.trie f)
  | .ok trie =>
      match (r.rules.filterMap id).findSome? (fun rule =>
          match rule.validate with
          | .ok _ => none
          | .error text => some text) with
      | some text => .error (.rule text)
      | none => .ok { r with trie := trie }

/-- The URL that `before` looks up. -/
def lookupUrl (r : Router A H) (url : Bytes) : Bytes :=
  if r.apiBase = [] ∨ strncaseEq r.apiBase.length url r.apiBase = true then
    url.drop r.apiBase.length
  else FS_URL

/-- `m_rules[index]`, `none` if it is null. -/
def ruleAt (r : Router A H) (index : Nat) : Option (BaseRule A H) := (r.rules[index]?).join

/-- `Router::before`: the parameters it leaves in the request. -/
def before (r : Router A H) (lx : Strto δ) (req : Request) :
    Except RouterFault (RequestParams δ A) :=
  match r.trie.find lx (r.lookupUrl req.url) with
  | .error f => .error (.search f)
  | .ok params =>
      if params.1 = 0 then .error .notFound
      else if params.1 ≥ r.rules.length then .error .corrupted
      else
        match r.ruleAt params.1 with
        | none => .error .nullRule
        | some rule =>
            .ok { index := params.1, decoded := params.2, attrs := rule.attrs,
                  methods := rule.methods }

/-- The header `Location` of the redirect. -/
def location (req : Request) : Bytes :=
  if req.host = [] then req.url ++ str "/"
  else str "http://" ++ req.host ++ req.url ++ str "/"

/-- `Router::handle`. -/
def handle (r : Router A H) (req : Request) (params : RequestParams δ A) :
    Except RouterFault (Reply δ A H) :=
  if params.index = RULE_SPECIAL_REDIRECT_SLASH then .ok (.redirect (location req))
  else
    match r.ruleAt params.index with
    | none => .error .nullRule
    | some rule =>
        if rule.methods &&& (1 <<< req.method) = 0 then .error .notFound
        else .ok (.handled rule params.decoded)

/-- A request goes through `before` and then `handle`. -/
def serve (r : Router A H) (lx : Strto δ) (req : Request) : Except RouterFault (Reply δ A H) := do
  let params ← r.before lx req
  r.handle req params

/-! ## What registrations keep -/

/-- **The invariant of a router** after the registration of `rs`: the rule vector holds two
null places and the rules in order, and the indexes in the trie are those of rules, or the
reserved one. -/
structure Inv (r : Router A H) (rs : List (BaseRule A H)) : Prop where
  built : r.trie.Built
  rules : r.rules = none :: none :: rs.map some
  range : ∀ ks, r.trie.ruleAt ks < r.rules.length

theorem inv_new (base : Bytes) : (Router.new base : Router A H).Inv [] := by
  refine ⟨Trie.built_empty, rfl, fun ks => ?_⟩
  show ({} : Trie).ruleAt ks < 2
  rw [Trie.ruleAt_empty]
  decide

/-- The trie of a router after one more `add`. -/
private theorem inv_add {t : Trie} (hb : t.Built) {n : Nat} (hr : ∀ ks, t.ruleAt ks < n)
    {url : Bytes} {i : Nat} (hi : i < n) {t' : Trie}
    (h : t.add url i = .done t' ∨ t.add url i = .thrown t') :
    t'.Built ∧ ∀ ks, t'.ruleAt ks < n := by
  rcases Trie.add_cases hb url i with hd | ⟨p, -, ⟨-, u, hu, hbu, hru⟩ | ⟨-, u, hu, hbu, hru⟩⟩
  · rw [hd] at h; rcases h with h | h <;> cases h
  · rw [hu] at h
    rcases h with h | h <;> cases h
    refine ⟨hbu, fun ks => ?_⟩
    rw [hru]
    by_cases hk : ks = p.keys
    · subst hk; rw [Function.update_self]; exact hi
    · rw [Function.update_of_ne hk]; exact hr ks
  · rw [hu] at h
    rcases h with h | h <;> cases h
    exact ⟨hbu, fun ks => by rw [hru]; exact hr ks⟩

/-- A registration that returns or throws keeps the invariant. -/
theorem register_inv {r r' : Router A H} {rs : List (BaseRule A H)} (hr : r.Inv rs)
    {rule : BaseRule A H}
    (h : r.internalAddRuleObject rule = .done r' ∨ r.internalAddRuleObject rule = .thrown r') :
    r'.Inv (rs ++ [rule]) := by
  have hlen : (r.rules ++ [some rule]).length = r.rules.length + 1 := by simp
  have hpos : 2 ≤ r.rules.length := by rw [hr.rules]; simp
  have hrange : ∀ ks, r.trie.ruleAt ks < (r.rules ++ [some rule]).length := fun ks => by
    have := hr.range ks
    omega
  have hrules : r.rules ++ [some rule] = none :: none :: (rs ++ [rule]).map some := by
    rw [hr.rules, List.map_append]; rfl
  -- it is enough that the trie is built and stays within the rules
  have hinv : ∀ t : Trie, t.Built → (∀ ks, t.ruleAt ks < (r.rules ++ [some rule]).length) →
      Inv { r with rules := r.rules ++ [some rule], trie := t } (rs ++ [rule]) :=
    fun t hb hrt => ⟨hb, hrules, hrt⟩
  rw [internalAddRuleObject] at h
  cases hadd : r.trie.add rule.rule ((r.rules ++ [some rule]).length - 1) with
  | diverged =>
      simp only [hadd] at h
      rcases h with h | h <;> cases h
  | thrown t =>
      obtain ⟨hb, hrt⟩ := inv_add hr.built hrange (by omega) (Or.inr hadd)
      simp only [hadd] at h
      rcases h with h | h <;> cases h
      exact hinv t hb hrt
  | done t =>
      obtain ⟨hb, hrt⟩ := inv_add hr.built hrange (by omega) (Or.inl hadd)
      simp only [hadd] at h
      -- the same holds for the text without the slash
      split_ifs at h with htwin
      · cases hadd' : t.add rule.rule.dropLast RULE_SPECIAL_REDIRECT_SLASH with
        | diverged =>
            simp only [hadd'] at h
            rcases h with h | h <;> cases h
        | thrown u =>
            obtain ⟨hbu, hru⟩ := inv_add hb hrt (by rw [RULE_SPECIAL_REDIRECT_SLASH]; omega)
              (Or.inr hadd')
            simp only [hadd'] at h
            rcases h with h | h <;> cases h
            exact hinv u hbu hru
        | done u =>
            obtain ⟨hbu, hru⟩ := inv_add hb hrt (by rw [RULE_SPECIAL_REDIRECT_SLASH]; omega)
              (Or.inl hadd')
            simp only [hadd'] at h
            rcases h with h | h <;> cases h
            exact hinv u hbu hru
      · rcases h with h | h <;> cases h
        exact hinv t hb hrt

/-- **Any sequence of registrations keeps the invariant.** -/
theorem registerAll_inv {r r' : Router A H} {rs rs' : List (BaseRule A H)} (hr : r.Inv rs)
    (h : r.registerAll rs' = some r') : r'.Inv (rs ++ rs') := by
  induction rs' generalizing r rs with
  | nil => cases h; rw [List.append_nil]; exact hr
  | cons rule rs' ih =>
      rw [registerAll] at h
      have hsplit : rs ++ rule :: rs' = (rs ++ [rule]) ++ rs' := by simp
      rw [hsplit]
      cases hreg : r.internalAddRuleObject rule with
      | diverged => rw [hreg] at h; cases h
      | done r₁ => rw [hreg] at h; exact ih (register_inv hr (Or.inl hreg)) h
      | thrown r₁ => rw [hreg] at h; exact ih (register_inv hr (Or.inr hreg)) h

/-- The places of the rule vector. -/
theorem Inv.ruleAt_eq {r : Router A H} {rs : List (BaseRule A H)} (h : r.Inv rs) (i : Nat) :
    r.ruleAt i = if i < 2 then none else rs[i - 2]? := by
  rw [ruleAt, h.rules]
  match i with
  | 0 => rfl
  | 1 => rfl
  | i + 2 =>
      rw [if_neg (by omega)]
      simp only [List.getElem?_cons_succ, List.getElem?_map, Nat.add_sub_cancel]
      cases rs[i]? <;> rfl

/-! ## Which requests are answered -/

/-- The reserved index is registered for a pattern that matches the URL: the slash-less twin
of a rule. -/
def Twin (r : Router A H) (lx : Strto δ) (url : Bytes) : Prop :=
  ∃ ks, r.trie.ruleAt ks = RULE_SPECIAL_REDIRECT_SLASH ∧ (lexKeys lx ks url).isSome = true

/-- A request is answered without touching a null rule, and the index the trie returns says
how: `0` by "not found", the reserved index by the redirect, any other by its rule. -/
def Answered (r : Router A H) (rs : List (BaseRule A H)) (lx : Strto δ) (req : Request) : Prop :=
  r.serve lx req ≠ .error .nullRule ∧
    ∀ index params, r.trie.find lx (r.lookupUrl req.url) = .ok (index, params) →
      (index = 0 ∧ r.serve lx req = .error .notFound) ∨
        (index = RULE_SPECIAL_REDIRECT_SLASH ∧
          r.serve lx req = .ok (.redirect (location req))) ∨
        ∃ rule ∈ rs, r.ruleAt index = some rule ∧
          (r.serve lx req = .error .notFound ∨ r.serve lx req = .ok (.handled rule params))

theorem validate_ok {r r' : Router A H} (h : r.validate = .ok r') :
    ∃ t, r.trie.validate = .ok t ∧ r' = { r with trie := t } := by
  rw [validate] at h
  cases ht : r.trie.validate with
  | error f => rw [ht] at h; cases h
  | ok t =>
      simp only [ht] at h
      split at h
      · cases h
      · cases h; exact ⟨t, rfl, rfl⟩

/-- The search of the optimised trie selects the reserved index when a twin matches. -/
private theorem chosen_eq_reserved_iff [DecidableEq δ] {r : Router A H} {t : Trie}
    (hb : r.trie.Built) (ht : r.trie.validate = .ok t) (lx : Strto δ) (url : Bytes) :
    (t.search lx url).chosen.1 = RULE_SPECIAL_REDIRECT_SLASH ↔ r.Twin lx url := by
  rw [Trie.Fuses.chosen (Trie.validate_ok ht).2.1 hb.wf lx url, SearchTree.chosen_mark, Twin,
    ← hb.mem_marks lx url (by decide), leastPos_eq_iff]
  constructor
  · rintro (⟨h, -⟩ | ⟨-, h, -⟩)
    · exact absurd h (by decide)
    · exact h
  · intro h
    exact Or.inr ⟨by decide, h, fun k _ hk => hk⟩

/-- An index that the search of the optimised trie selects is in the rule vector. -/
private theorem chosen_lt [DecidableEq δ] {r : Router A H} {rs : List (BaseRule A H)}
    (hinv : r.Inv rs) {t : Trie} (ht : r.trie.validate = .ok t) (lx : Strto δ) (url : Bytes)
    (h0 : (t.search lx url).chosen.1 ≠ 0) : (t.search lx url).chosen.1 < rs.length + 2 := by
  rw [Trie.Fuses.chosen (Trie.validate_ok ht).2.1 hinv.built.wf lx url,
    SearchTree.chosen_mark] at h0 ⊢
  rcases (leastPos_eq_iff _ _).mp rfl with ⟨h, -⟩ | ⟨-, hmem, -⟩
  · exact absurd h h0
  · obtain ⟨ks, hks, -⟩ := (hinv.built.mem_marks lx url h0).mp hmem
    have hlt := hinv.range ks
    rw [hks, hinv.rules] at hlt
    simp only [List.length_cons, List.length_map] at hlt
    exact hlt

/-- What a request is answered with, from what `find` returns. -/
private theorem serve_of_find {r : Router A H} {rs : List (BaseRule A H)} {t : Trie}
    (hrules : r.rules = none :: none :: rs.map some)
    (hat : ∀ i, r.ruleAt i = if i < 2 then none else rs[i - 2]?) {lx : Strto δ} {req : Request}
    {m : Nat} {params : RoutingParams δ} (htrie : r.trie = t)
    (hfind : t.find lx (r.lookupUrl req.url) = .ok (m, params)) (hm : m < rs.length + 2) :
    (m = 0 → r.serve lx req = .error .notFound) ∧
      (m = RULE_SPECIAL_REDIRECT_SLASH → r.serve lx req = .error .nullRule) ∧
      (2 ≤ m → ∃ rule ∈ rs, r.ruleAt m = some rule ∧
        (r.serve lx req = .error .notFound ∨ r.serve lx req = .ok (.handled rule params))) := by
  have hlen : ¬ m ≥ r.rules.length := by
    rw [hrules]
    simp only [List.length_cons, List.length_map]
    omega
  rw [← htrie] at hfind
  refine ⟨?_, ?_, ?_⟩
  · rintro rfl
    simp only [serve, before, hfind, if_pos, bind, Except.bind]
  · intro h1
    have h0 : m ≠ 0 := by rw [h1]; decide
    have hnone : r.ruleAt m = none := by rw [hat, if_pos (by rw [h1]; decide)]
    simp only [serve, before, hfind, if_neg h0, if_neg hlen, hnone, bind, Except.bind]
  · intro h2
    have h0 : m ≠ 0 := by omega
    have h1 : m ≠ RULE_SPECIAL_REDIRECT_SLASH := by rw [RULE_SPECIAL_REDIRECT_SLASH]; omega
    have hidx : m - 2 < rs.length := by omega
    have hsome : r.ruleAt m = some rs[m - 2] := by
      rw [hat, if_neg (by omega), List.getElem?_eq_getElem hidx]
    refine ⟨rs[m - 2], List.getElem_mem hidx, hsome, ?_⟩
    simp only [serve, before, handle, hfind, if_neg h0, if_neg hlen, hsome, if_neg h1, bind,
      Except.bind]
    split_ifs
    · exact Or.inl rfl
    · exact Or.inr rfl

/-- **A request is answered without touching a null rule exactly when no slash-less twin
matches its URL** (or the search for it fails before). -/
theorem serve_iff [DecidableEq δ] (lx : Strto δ) (base : Bytes) (rs : List (BaseRule A H))
    (r r' : Router A H) (hreg : (Router.new base).registerAll rs = some r)
    (hval : r.validate = .ok r') (req : Request) :
    r'.Answered rs lx req ↔
      (r'.trie.Fits lx (r'.lookupUrl req.url) → ¬ r.Twin lx (r'.lookupUrl req.url)) := by
  have hinv : r.Inv rs := registerAll_inv (inv_new base) hreg
  obtain ⟨t, ht, rfl⟩ := validate_ok hval
  have hw := Trie.Fuses.wf (Trie.validate_ok ht).2.1 hinv.built.wf
  generalize hurl : Router.lookupUrl { r with trie := t } req.url = url
  -- what is found decides what is done
  have hserve : ∀ {m params}, t.find lx url = .ok (m, params) → m < rs.length + 2 → _ :=
    fun hfind => serve_of_find (r := { r with trie := t }) hinv.rules hinv.ruleAt_eq rfl
      (hurl.symm ▸ hfind)
  constructor
  · rintro ⟨hnull, -⟩ hfit htwin
    obtain ⟨params, hfind, -⟩ := Trie.find_ok hw hfit
    rw [(chosen_eq_reserved_iff hinv.built ht lx url).mpr htwin] at hfind
    exact hnull ((hserve hfind (by rw [RULE_SPECIAL_REDIRECT_SLASH]; omega)).2.1 rfl)
  · intro hcond
    by_cases hfit : t.Fits lx url
    · obtain ⟨params, hfind, -⟩ := Trie.find_ok hw hfit
      have hlt := chosen_lt hinv ht lx url
      have hm1 := mt (chosen_eq_reserved_iff hinv.built ht lx url).mp (hcond hfit)
      -- the index is not the one of the redirection
      generalize (t.search lx url).chosen.1 = m at hfind hlt hm1
      obtain ⟨h0, -, h2⟩ := hserve hfind (by by_cases h : m = 0 <;> omega)
      have hm : m = 0 ∨ 2 ≤ m := by rw [RULE_SPECIAL_REDIRECT_SLASH] at hm1; omega
      constructor
      · rcases hm with hm | hm
        · rw [h0 hm]; simp
        · obtain ⟨rule, -, -, h | h⟩ := h2 hm <;> rw [h] <;> simp
      · intro index params' hfind'
        rw [hurl] at hfind'
        obtain ⟨rfl, rfl⟩ : m = index ∧ params = params' := by
          simpa using hfind.symm.trans hfind'
        rcases hm with hm | hm
        · exact Or.inl ⟨hm, h0 hm⟩
        · exact Or.inr (Or.inr (h2 hm))
    · obtain ⟨e, he⟩ := Trie.find_error hw hfit
      constructor
      · simp only [serve, before, hurl, he, bind, Except.bind, ne_eq, Except.error.injEq,
          reduceCtorEq, not_false_eq_true]
      · intro index params hfind
        rw [hurl] at hfind
        rw [he] at hfind
        cases hfind

/-- The rules of one registration, and a request for the slash-less twin of its pattern. -/
def aboutRules : List (BaseRule Unit Unit) :=
  [{ rule := str "/about/", attrs := (), handler := some () }]

theorem serve_about : ∃ r r' : Router Unit Unit,
    (Router.new []).registerAll aboutRules = some r ∧ r.validate = .ok r' ∧
      (r'.Answered aboutRules decimalReaders { url := str "/about/", method := 1, host := [] } ↔
        (r'.trie.Fits decimalReaders (r'.lookupUrl (str "/about/")) →
          ¬ r.Twin decimalReaders (r'.lookupUrl (str "/about/")))) :=
  ⟨_, _, rfl, rfl, serve_iff decimalReaders [] aboutRules _ _ rfl rfl
    { url := str "/about/", method := 1, host := [] }⟩

/-- **The redirect is never sent**: with the rule `/about/`, a request for `/about` makes
`before` read the null rule. -/
theorem serve_twin : ∃ r r' : Router Unit Unit,
    (Router.new []).registerAll aboutRules = some r ∧ r.validate = .ok r' ∧
      (r'.trie.find decimalReaders (str "/about")).map Prod.fst = .ok RULE_SPECIAL_REDIRECT_SLASH ∧
      r'.serve decimalReaders { url := str "/about", method := 1, host := [] }
        = .error .nullRule ∧
      ¬ r'.Answered aboutRules decimalReaders { url := str "/about", method := 1, host := [] } :=
  ⟨_, _, rfl, rfl, by decide, rfl, fun h => h.1 rfl⟩

/-! ## The slash-less twins -/

/-- Registrations that all return. -/
def registerDone : Router A H → List (BaseRule A H) → Option (Router A H)
  | r, [] => some r
  | r, rule :: rules =>
      match r.internalAddRuleObject rule with
      | .done r => r.registerDone rules
      | _ => none

/-- The reserved index after a registration that returns. -/
private theorem reserved_register {r r' : Router A H} {rs : List (BaseRule A H)} (hr : r.Inv rs)
    {rule : BaseRule A H} (h : r.internalAddRuleObject rule = .done r') (ks : List Key) :
    r'.trie.ruleAt ks = RULE_SPECIAL_REDIRECT_SLASH ↔
      r.trie.ruleAt ks = RULE_SPECIAL_REDIRECT_SLASH ∨
        ∃ p : Pattern, p.text ≠ [] ∧ rule.rule = p.text ++ [SLASH] ∧ p.keys = ks := by
  have hpos : 2 ≤ r.rules.length := by rw [hr.rules]; simp
  have hone : RULE_SPECIAL_REDIRECT_SLASH ≠ 0 := by decide
  rw [internalAddRuleObject] at h
  cases hadd : r.trie.add rule.rule ((r.rules ++ [some rule]).length - 1) with
  | diverged => simp only [hadd] at h; cases h
  | thrown t => simp only [hadd] at h; cases h
  | done t =>
      have hends : r.trie.add rule.rule ((r.rules ++ [some rule]).length - 1) ≠ .diverged := by
        rw [hadd]; simp
      obtain ⟨q, hq⟩ := Trie.text_of_add hends
      rw [← hq] at hadd
      have hbt := (Trie.add_done hr.built hadd).1
      -- the rule itself never goes to the reserved index
      have hsame : t.ruleAt ks = RULE_SPECIAL_REDIRECT_SLASH ↔
          r.trie.ruleAt ks = RULE_SPECIAL_REDIRECT_SLASH := by
        rw [Trie.ruleAt_add hr.built hadd hone]
        have hne : (r.rules ++ [some rule]).length - 1 ≠ RULE_SPECIAL_REDIRECT_SLASH := by
          rw [RULE_SPECIAL_REDIRECT_SLASH, List.length_append, List.length_singleton]; omega
        constructor
        · rintro (h | ⟨h, -⟩)
          · exact h
          · exact absurd h hne
        · exact Or.inl
      rw [hq] at hadd
      simp only [hadd] at h
      -- only a rule with a slash at its end is added a second time, without the slash
      split_ifs at h with htwin
      · cases hadd' : t.add rule.rule.dropLast RULE_SPECIAL_REDIRECT_SLASH with
        | diverged => simp only [hadd'] at h; cases h
        | thrown u => simp only [hadd'] at h; cases h
        | done u =>
            simp only [hadd'] at h
            cases h
            have hends' : t.add rule.rule.dropLast RULE_SPECIAL_REDIRECT_SLASH ≠ .diverged := by
              rw [hadd']; simp
            obtain ⟨p, hp⟩ := Trie.text_of_add hends'
            rw [← hp] at hadd'
            rw [Trie.ruleAt_add hbt hadd' hone, hsame]
            refine or_congr_right ?_
            have hsplit : rule.rule = p.text ++ [SLASH] := by
              rw [hp]
              exact (List.dropLast_append_getLast? SLASH htwin.2).symm
            have hne : p.text ≠ [] := by
              intro hnil
              have := htwin.1
              rw [hsplit, hnil] at this
              simp at this
            constructor
            · rintro ⟨-, hk⟩
              exact ⟨p, hne, hsplit, hk⟩
            · rintro ⟨p', -, hp', hk⟩
              refine ⟨rfl, ?_⟩
              rw [← hk]
              rw [hsplit] at hp'
              exact Trie.keys_of_text (List.append_cancel_right hp')
      · cases h
        rw [hsame]
        constructor
        · exact Or.inl
        · rintro (h | ⟨p, hne, hp, -⟩)
          · exact h
          · refine absurd ⟨?_, ?_⟩ htwin
            · have := List.length_pos_iff.mpr hne
              rw [hp, List.length_append, List.length_singleton]
              omega
            · rw [hp, List.getLast?_concat]

/-- **When all registrations return, the twins are the patterns of the rules that end in a
slash, without the slash.** -/
theorem twin_iff {base : Bytes} {rs : List (BaseRule A H)} {r : Router A H}
    (hreg : (Router.new base).registerDone rs = some r) (lx : Strto δ) (url : Bytes) :
    r.Twin lx url ↔ ∃ rule ∈ rs, ∃ p : Pattern, p.text ≠ [] ∧ rule.rule = p.text ++ [SLASH] ∧
      p.matches lx url = true := by
  have key : ∀ (rs : List (BaseRule A H)) (r₀ : Router A H) (done : List (BaseRule A H)),
      r₀.Inv done → r₀.registerDone rs = some r →
      ∀ ks, r.trie.ruleAt ks = RULE_SPECIAL_REDIRECT_SLASH ↔
        r₀.trie.ruleAt ks = RULE_SPECIAL_REDIRECT_SLASH ∨
          ∃ rule ∈ rs, ∃ p : Pattern, p.text ≠ [] ∧ rule.rule = p.text ++ [SLASH] ∧
            p.keys = ks := by
    intro rs
    induction rs with
    | nil => intro r₀ done _ h ks; cases h; simp
    | cons rule rs ih =>
        intro r₀ done hinv h ks
        rw [registerDone] at h
        cases hone : r₀.internalAddRuleObject rule with
        | diverged => rw [hone] at h; cases h
        | thrown r₁ => rw [hone] at h; cases h
        | done r₁ =>
            rw [hone] at h
            rw [ih r₁ _ (register_inv hinv (Or.inl hone)) h, reserved_register hinv hone, or_assoc]
            simp only [List.mem_cons, exists_eq_or_imp]
  have hempty : ∀ ks, (Router.new base : Router A H).trie.ruleAt ks
      ≠ RULE_SPECIAL_REDIRECT_SLASH := by
    intro ks
    show ({} : Trie).ruleAt ks ≠ RULE_SPECIAL_REDIRECT_SLASH
    rw [Trie.ruleAt_empty]
    decide
  rw [Twin]
  constructor
  · rintro ⟨ks, hks, hmatch⟩
    rcases (key rs _ [] (inv_new base) hreg ks).mp hks with h | ⟨rule, hrule, p, hne, hp, rfl⟩
    · exact absurd h (hempty ks)
    · exact ⟨rule, hrule, p, hne, hp, hmatch⟩
  · rintro ⟨rule, hrule, p, hne, hp, hmatch⟩
    exact ⟨p.keys, (key rs _ [] (inv_new base) hreg p.keys).mpr
      (Or.inr ⟨rule, hrule, p, hne, hp, rfl⟩), hmatch⟩

end Router

end Suil.Routing
