import Mathlib
import Suil.Routing.Select

set_option autoImplicit false

/-! # Fusing layers of literal edges

`Trie::optimize_node` replaces the literal edges of a node by the edges of its children, with
the labels joined, when every child is simple: it has no rule and no placeholder edge. The pass
is a sequence of such fusions (`optimizeNode_fuses`), each of which keeps the URLs that reach a
rule from any node (`accepts_fuse`). It always ends (`optimizeNode_total`) and leaves nothing
to fuse, so that a second run changes nothing (`optimizeNode_settled`). -/

namespace Suil.Routing

open Backtrack

variable {δ : Type}

namespace Trie

/-! ## The pass -/

/-- `m[f] = j` on an `unordered_map`. -/
def assign (m : List (Bytes × Nat)) (f : Bytes) (j : Nat) : List (Bytes × Nat) :=
  if m.any (fun e => e.1 = f) then m.map (fun e => if e.1 = f then (f, j) else e)
  else m ++ [(f, j)]

/-- The map `merged` of `optimize_node`. -/
def merged (t : Trie) (n : Nat) : List (Bytes × Nat) :=
  (t.node n).children.foldl (fun m kv =>
    (t.node kv.2).children.foldl (fun m child => assign m (kv.1 ++ child.1) child.2) m) []

/-- `n->children = std::move(merged)`. -/
def fuse (t : Trie) (n : Nat) : Trie := t.set n { t.node n with children := t.merged n }

/-- `merge_with_child`. -/
def mergeWithChild (t : Trie) (n : Nat) : Bool :=
  (t.node n).children.all (fun kv => (t.node kv.2).isSimple)

/-- `optimize_node`; `none` if the recursion is deeper than `fuel`. -/
def optimizeNode : Nat → Trie → Nat → Option Trie
  | 0, _, _ => none
  | fuel + 1, t, n => do
      let t ← ParamType.all.foldlM (fun t k =>
        let x := (t.node n).paramChildrens k
        if x = 0 then some t else optimizeNode fuel t x) t
      if (t.node n).children = [] then some t
      else if t.mergeWithChild n then optimizeNode fuel (t.fuse n) n
      else (t.node n).children.foldlM (fun t kv => optimizeNode fuel t kv.2) t

/-- What `validate` ends with other than an optimised trie: the exception about the head, or
(never, `validate_total`) a recursion that does not end. -/
inductive ValidateFault where
  | headNotSimple
  | fuel
  deriving DecidableEq, Repr

/-- `Trie::validate`. -/
def validate (t : Trie) : Except ValidateFault Trie :=
  if (t.node 0).isSimple then
    match optimizeNode ((t.nodes.length + 1) * (t.nodes.length + 1)) t 0 with
    | some t => .ok t
    | none => .error .fuel
  else .error .headNotSimple

/-! ## One fusion -/

/-- The edges of the children, with the labels joined. -/
def joined (t : Trie) (n : Nat) : List (Bytes × Nat) :=
  (t.node n).children.flatMap (fun kv =>
    (t.node kv.2).children.map (fun child => (kv.1 ++ child.1, child.2)))

private theorem foldl_assign (es m : List (Bytes × Nat)) (h : ((m ++ es).map Prod.fst).Nodup) :
    es.foldl (fun m e => assign m e.1 e.2) m = m ++ es := by
  induction es generalizing m with
  | nil => simp
  | cons e es ih =>
      have hfresh : m.any (fun x => x.1 = e.1) = false := by
        rw [List.any_eq_false]
        intro x hx
        rw [List.map_append, List.nodup_append] at h
        have := h.2.2 x.1 (List.mem_map_of_mem hx) e.1 (by simp)
        simpa using this
      have happ : (m ++ [e]) ++ es = m ++ e :: es := by simp
      have hassign : assign m e.1 e.2 = m ++ [e] := by rw [assign, hfresh]; rfl
      rw [List.foldl_cons, hassign, ← happ]
      exact ih _ (by rw [happ]; exact h)

private theorem prefixFree_joined {t : Trie} (hw : t.Wf) (n : Nat) :
    ((t.joined n).map Prod.fst).Pairwise (fun f g => ¬ f <+: g ∧ ¬ g <+: f) := by
  rw [List.pairwise_map, joined, List.pairwise_flatMap]
  refine ⟨fun kv _ => ?_, ?_⟩
  · rw [List.pairwise_map]
    refine List.Pairwise.imp ?_ (List.pairwise_map.mp (hw.prefixFree kv.2))
    intro a b h
    simpa only [List.prefix_append_right_inj] using h
  · refine List.Pairwise.imp ?_ (List.pairwise_map.mp (hw.prefixFree n))
    intro kv kv' hne a ha b hb
    obtain ⟨c, -, rfl⟩ := List.mem_map.mp ha
    obtain ⟨c', -, rfl⟩ := List.mem_map.mp hb
    have hcomp : ∀ {l : Bytes}, kv.1 <+: l → kv'.1 <+: l → False := by
      intro l h h'
      rcases List.prefix_or_prefix_of_prefix h h' with h | h
      · exact hne.1 h
      · exact hne.2 h
    exact ⟨fun h => hcomp ((List.prefix_append _ _).trans h) (List.prefix_append _ _),
      fun h => hcomp (List.prefix_append _ _) ((List.prefix_append _ _).trans h)⟩

/-- No two labels collide in the merged map. -/
theorem merged_eq_joined {t : Trie} (hw : t.Wf) (n : Nat) : t.merged n = t.joined n := by
  have hnodup : ((t.joined n).map Prod.fst).Nodup := by
    refine List.Pairwise.imp ?_ (prefixFree_joined hw n)
    rintro f g ⟨h, -⟩ rfl
    exact h (List.prefix_refl _)
  have hfold : t.merged n = (t.joined n).foldl (fun m e => assign m e.1 e.2) [] := by
    rw [merged, joined, List.foldl_flatMap]
    simp only [List.foldl_map]
  rw [hfold, foldl_assign _ _ hnodup]
  rfl

/-- The edges of a trie lead away from the head. -/
structure Layered (t : Trie) : Prop where
  param : ∀ {i k}, (t.node i).paramChildrens k ≠ 0 →
    i < (t.node i).paramChildrens k ∧ (t.node i).paramChildrens k < t.nodes.length
  child : ∀ {i e}, e ∈ (t.node i).children → i < e.2 ∧ e.2 < t.nodes.length

theorem Built.layered {t : Trie} (h : t.Built) : t.Layered := by
  refine ⟨fun {i k} hk => h.up (i := i) (k := .param k) (if_neg hk), fun {i e} he => ?_⟩
  obtain ⟨c, hc⟩ := h.single he
  exact h.up (i := i) (k := .chr c) ((h.lookup_iff i [c] e.2).mp (hc ▸ he))

/-- Is there a layer to fuse below the node? -/
def Fusible (t : Trie) (n : Nat) : Prop :=
  (t.node n).children ≠ [] ∧ t.mergeWithChild n = true

theorem Fusible.lt {t : Trie} {n : Nat} (h : t.Fusible n) : n < t.nodes.length := by
  by_contra hn
  exact h.1 (by rw [node_of_length_le (by omega)])

/-- One fusion. -/
def Fuse (t t' : Trie) : Prop := ∃ n, t.Fusible n ∧ t' = t.fuse n

@[simp] theorem nodes_fuse_length (t : Trie) (n : Nat) :
    (t.fuse n).nodes.length = t.nodes.length := nodes_set_length t n _

theorem node_fuse_ne (t : Trie) {n i : Nat} (h : i ≠ n) : (t.fuse n).node i = t.node i :=
  node_set_ne t h _

theorem node_fuse_self {t : Trie} {n : Nat} (h : n < t.nodes.length) :
    (t.fuse n).node n = { t.node n with children := t.merged n } := node_set_self h _

/-- A fusion touches no rule and no placeholder edge. -/
theorem Fuse.frame {t t' : Trie} (h : t.Fuse t') (i : Nat) :
    (t'.node i).ruleIndex = (t.node i).ruleIndex ∧
      (t'.node i).paramChildrens = (t.node i).paramChildrens := by
  obtain ⟨n, hn, rfl⟩ := h
  by_cases hi : i = n
  · subst hi; rw [node_fuse_self hn.lt]; exact ⟨rfl, rfl⟩
  · rw [node_fuse_ne t hi]; exact ⟨rfl, rfl⟩

theorem Fuse.isSimple {t t' : Trie} (h : t.Fuse t') (i : Nat) :
    (t'.node i).isSimple = (t.node i).isSimple := by
  rw [Node.isSimple, Node.isSimple, (h.frame i).1, (h.frame i).2]

/-- An edge after a fusion was there before, or joins two that were. -/
private theorem mem_children_fuse {t : Trie} (hw : t.Wf) {n : Nat} (hn : t.Fusible n) {i : Nat}
    {e : Bytes × Nat} :
    e ∈ ((t.fuse n).node i).children ↔
      (i ≠ n ∧ e ∈ (t.node i).children) ∨
        (i = n ∧ ∃ kv ∈ (t.node n).children, ∃ child ∈ (t.node kv.2).children,
          e = (kv.1 ++ child.1, child.2)) := by
  by_cases hi : i = n
  · subst hi
    rw [node_fuse_self hn.lt]
    simp only [merged_eq_joined hw, joined, List.mem_flatMap, List.mem_map, ne_eq,
      not_true_eq_false, false_and, false_or, true_and, eq_comm]
  · rw [node_fuse_ne t hi]
    simp [hi]

theorem Fuse.wf {t t' : Trie} (h : t.Fuse t') (hw : t.Wf) : t'.Wf := by
  obtain ⟨n, hn, rfl⟩ := h
  refine ⟨fun {i e} he => ?_, fun i => ?_⟩
  · rcases (mem_children_fuse hw hn).mp he with ⟨-, he⟩ | ⟨-, kv, hkv, child, -, rfl⟩
    · exact hw.nonempty he
    · simp [hw.nonempty hkv]
  · by_cases hi : i = n
    · subst hi
      rw [node_fuse_self hn.lt]
      show ((t.merged i).map Prod.fst).Pairwise _
      rw [merged_eq_joined hw]
      exact prefixFree_joined hw i
    · rw [node_fuse_ne t hi]
      exact hw.prefixFree i

theorem Fuse.layered {t t' : Trie} (h : t.Fuse t') (hw : t.Wf) (hl : t.Layered) :
    t'.Layered := by
  have hframe := h.frame
  obtain ⟨n, hn, rfl⟩ := h
  refine ⟨fun {i k} hk => ?_, fun {i e} he => ?_⟩
  · rw [(hframe i).2] at hk ⊢
    rw [nodes_fuse_length]
    exact hl.param hk
  · rw [nodes_fuse_length]
    rcases (mem_children_fuse hw hn).mp he with ⟨-, he⟩ | ⟨rfl, kv, hkv, child, hchild, rfl⟩
    · exact hl.child he
    · have h1 := hl.child hkv
      have h2 := hl.child hchild
      exact ⟨Nat.lt_trans h1.1 h2.1, h2.2⟩

/-! ## What a node accepts -/

/-- The rest of a URL leads from a node to a rule. -/
def Accepts (t : Trie) (lx : Strto δ) (i : Nat) (rest : Bytes) (m : Nat) : Prop :=
  ∃ p j, Walk t lx i rest p j ∧ (t.node j).ruleIndex = m

theorem accepts_nil {t : Trie} {lx : Strto δ} {i m : Nat} :
    t.Accepts lx i [] m ↔ (t.node i).ruleIndex = m := by
  constructor
  · rintro ⟨p, j, hwalk, hm⟩
    cases hwalk with
    | stop => exact hm
    | step hne => exact absurd rfl hne
  · intro h
    exact ⟨[], i, .stop i, h⟩

theorem accepts_iff {t : Trie} {lx : Strto δ} {i m : Nat} {rest : Bytes} (hrest : rest ≠ []) :
    t.Accepts lx i rest m ↔
      (∃ k v rest', (t.node i).paramChildrens k ≠ 0 ∧ lexeme lx k rest = some (v, rest') ∧
          t.Accepts lx ((t.node i).paramChildrens k) rest' m) ∨
        ∃ kv ∈ (t.node i).children, ∃ rest', rest = kv.1 ++ rest' ∧ t.Accepts lx kv.2 rest' m := by
  have hedges : t.Accepts lx i rest m ↔
      ∃ e ∈ t.edges lx rest i, t.Accepts lx e.2.2 e.2.1 m := by
    constructor
    · rintro ⟨p, j, hwalk, hm⟩
      cases hwalk with
      | stop => exact absurd rfl hrest
      | @step _ _ _ e q _ he hq => exact ⟨e, he, q, j, hq, hm⟩
    · rintro ⟨e, he, p, j, hwalk, hm⟩
      exact ⟨e.1 :: p, j, .step hrest he hwalk, hm⟩
  rw [hedges]
  simp only [edges, List.mem_append, List.mem_filterMap]
  constructor
  · rintro ⟨e, ⟨k, -, hk⟩ | ⟨kv, hkv, hk⟩, hacc⟩
    · split_ifs at hk with h0
      obtain ⟨r, hr, rfl⟩ := Option.map_eq_some_iff.mp hk
      exact Or.inl ⟨k, r.1, r.2, h0, hr, hacc⟩
    · split_ifs at hk with hpre
      cases hk
      obtain ⟨rest', rfl⟩ := List.isPrefixOf_iff_prefix.mp hpre
      rw [List.drop_left] at hacc
      exact Or.inr ⟨kv, hkv, rest', rfl, hacc⟩
  · rintro (⟨k, v, rest', h0, hr, hacc⟩ | ⟨kv, hkv, rest', rfl, hacc⟩)
    · exact ⟨(.param k v, rest', (t.node i).paramChildrens k),
        Or.inl ⟨k, by cases k <;> decide, by rw [if_neg h0, hr]; rfl⟩, hacc⟩
    · exact ⟨(.lit kv.1, rest', kv.2), Or.inr ⟨kv, hkv, by simp⟩, hacc⟩

/-- **A fusion keeps what every node accepts.** -/
theorem accepts_fuse {t t' : Trie} (hw : t.Wf) (h : t.Fuse t') (lx : Strto δ) {m : Nat}
    (hm : m ≠ 0) (rest : Bytes) (i : Nat) : t'.Accepts lx i rest m ↔ t.Accepts lx i rest m := by
  have hframe := h.frame
  obtain ⟨n, hn, rfl⟩ := h
  -- on the length of what is left of the path
  induction hlen : rest.length using Nat.strong_induction_on generalizing rest i with
  | _ len ih =>
      by_cases hrest : rest = []
      · subst hrest
        rw [accepts_nil, accepts_nil, (hframe i).1]
      · rw [accepts_iff hrest, accepts_iff hrest]
        refine or_congr ?_ ?_
        · rw [(hframe i).2]
          refine exists_congr fun k => exists_congr fun v => exists_congr fun rest' => ?_
          refine and_congr_right fun _ => and_congr_right fun hlex => ?_
          have := lexeme_lt hlex
          exact ih rest'.length (by simp only at this; omega) rest' _ rfl
        · constructor
          · rintro ⟨e, he, rest', rfl, hacc⟩
            -- a fused edge is an edge and one of the child behind it
            rcases (mem_children_fuse hw hn).mp he with ⟨-, he⟩ | ⟨rfl, kv, hkv, child, hchild, rfl⟩
            · have := List.length_pos_iff.mpr (hw.nonempty he)
              rw [List.length_append] at hlen
              exact ⟨e, he, rest', rfl, (ih rest'.length (by omega) rest' _ rfl).mp hacc⟩
            · have := List.length_pos_iff.mpr (hw.nonempty hchild)
              simp only [List.length_append] at hlen
              have hacc' := (ih rest'.length (by omega) rest' _ rfl).mp hacc
              have hne : child.1 ++ rest' ≠ [] := by simp [hw.nonempty hchild]
              exact ⟨kv, hkv, child.1 ++ rest', by simp,
                (accepts_iff hne).mpr (Or.inr ⟨child, hchild, rest', rfl, hacc'⟩)⟩
          · rintro ⟨kv, hkv, rest', rfl, hacc⟩
            have := List.length_pos_iff.mpr (hw.nonempty hkv)
            rw [List.length_append] at hlen
            by_cases hi : i = n
            · -- the child is simple: no rule ends there, and only literals lead on
              subst hi
              have hsimple : (t.node kv.2).isSimple = true := by
                have hall := hn.2
                rw [mergeWithChild, List.all_eq_true] at hall
                exact hall kv hkv
              simp only [Node.isSimple, Bool.and_eq_true, decide_eq_true_eq,
                List.all_eq_true] at hsimple
              have hrest' : rest' ≠ [] := by
                rintro rfl
                rw [accepts_nil] at hacc
                omega
              rcases (accepts_iff hrest').mp hacc with ⟨k, v, r, h0, -⟩ |
                ⟨child, hchild, r, rfl, hacc'⟩
              · exact absurd (hsimple.2 k (by cases k <;> decide)) h0
              · have := List.length_pos_iff.mpr (hw.nonempty hchild)
                rw [List.length_append] at hlen
                refine ⟨(kv.1 ++ child.1, child.2), ?_, r, by simp,
                  (ih r.length (by omega) r _ rfl).mpr hacc'⟩
                exact (mem_children_fuse hw hn).mpr (Or.inr ⟨rfl, kv, hkv, child, hchild, rfl⟩)
            · exact ⟨kv, (mem_children_fuse hw hn).mpr (Or.inl ⟨hi, hkv⟩), rest', rfl,
                (ih rest'.length (by omega) rest' _ rfl).mpr hacc⟩

/-! ## The pass is a sequence of fusions -/

/-- Some number of fusions. -/
abbrev Fuses : Trie → Trie → Prop := Relation.ReflTransGen Fuse

private theorem foldlM_fuses {α : Type} {f : Trie → α → Option Trie} {l : List α}
    (hf : ∀ a ∈ l, ∀ t t', f t a = some t' → Fuses t t') {t t' : Trie}
    (h : l.foldlM f t = some t') : Fuses t t' := by
  induction l generalizing t with
  | nil => cases h; exact .refl
  | cons a l ih =>
      rw [List.foldlM_cons] at h
      obtain ⟨t₁, h₁, h₂⟩ := Option.bind_eq_some_iff.mp h
      exact (hf a List.mem_cons_self t t₁ h₁).trans
        (ih (fun b hb => hf b (List.mem_cons_of_mem _ hb)) h₂)

/-- The pass as its source runs it, one call deep. -/
private theorem optimizeNode_succ {fuel : Nat} {t t' : Trie} {n : Nat}
    (h : optimizeNode (fuel + 1) t n = some t') :
    ∃ t₁, ParamType.all.foldlM (fun u k =>
          if (u.node n).paramChildrens k = 0 then some u
          else optimizeNode fuel u ((u.node n).paramChildrens k)) t = some t₁ ∧
      (((t₁.node n).children = [] ∧ t' = t₁) ∨
        (t₁.Fusible n ∧ optimizeNode fuel (t₁.fuse n) n = some t') ∨
        (¬ t₁.Fusible n ∧
          (t₁.node n).children.foldlM (fun u kv => optimizeNode fuel u kv.2) t₁ = some t')) := by
  rw [optimizeNode] at h
  obtain ⟨t₁, h₁, h₂⟩ := Option.bind_eq_some_iff.mp h
  refine ⟨t₁, h₁, ?_⟩
  split_ifs at h₂ with hnil hmerge
  · exact Or.inl ⟨hnil, (Option.some.inj h₂).symm⟩
  · exact Or.inr (Or.inl ⟨⟨hnil, hmerge⟩, h₂⟩)
  · exact Or.inr (Or.inr ⟨fun hf => hmerge hf.2, h₂⟩)

/-- **The pass is a sequence of fusions.** -/
theorem optimizeNode_fuses {fuel : Nat} {t t' : Trie} {n : Nat}
    (h : optimizeNode fuel t n = some t') : Fuses t t' := by
  induction fuel generalizing t t' n with
  | zero => cases h
  | succ fuel ih =>
      obtain ⟨t₁, h₁, h₂⟩ := optimizeNode_succ h
      have hparams : Fuses t t₁ := by
        refine foldlM_fuses (fun k _ u u' hu => ?_) h₁
        split_ifs at hu with h0
        · cases hu; exact .refl
        · exact ih hu
      rcases h₂ with ⟨-, rfl⟩ | ⟨hf, h₂⟩ | ⟨-, h₂⟩
      · exact hparams
      · exact (hparams.tail ⟨n, hf, rfl⟩).trans (ih h₂)
      · exact hparams.trans (foldlM_fuses (fun kv _ u u' hu => ih hu) h₂)

theorem Fuses.wf {t t' : Trie} (h : Fuses t t') (hw : t.Wf) : t'.Wf := by
  induction h with
  | refl => exact hw
  | tail _ hstep ih => exact hstep.wf ih

theorem Fuses.layered {t t' : Trie} (h : Fuses t t') (hw : t.Wf) (hl : t.Layered) :
    t'.Layered := by
  induction h with
  | refl => exact hl
  | tail hs hstep ih => exact hstep.layered (Fuses.wf hs hw) ih

theorem Fuses.length {t t' : Trie} (h : Fuses t t') : t'.nodes.length = t.nodes.length := by
  induction h with
  | refl => rfl
  | tail _ hstep ih =>
      obtain ⟨n, -, rfl⟩ := hstep
      rw [nodes_fuse_length, ih]

theorem Fuses.frame {t t' : Trie} (h : Fuses t t') (i : Nat) :
    (t'.node i).ruleIndex = (t.node i).ruleIndex ∧
      (t'.node i).paramChildrens = (t.node i).paramChildrens := by
  induction h with
  | refl => exact ⟨rfl, rfl⟩
  | tail _ hstep ih => exact ⟨(hstep.frame i).1.trans ih.1, (hstep.frame i).2.trans ih.2⟩

/-- Fusions keep what every node accepts. -/
theorem Fuses.accepts {t t' : Trie} (h : Fuses t t') (hw : t.Wf) (lx : Strto δ) {m : Nat}
    (hm : m ≠ 0) (rest : Bytes) (i : Nat) : t'.Accepts lx i rest m ↔ t.Accepts lx i rest m := by
  induction h with
  | refl => exact Iff.rfl
  | tail hs hstep ih => exact (accepts_fuse (Fuses.wf hs hw) hstep lx hm rest i).trans ih

/-- Fusions keep the index that the search selects. -/
theorem Fuses.chosen [DecidableEq δ] {t t' : Trie} (h : Fuses t t') (hw : t.Wf) (lx : Strto δ)
    (url : Bytes) : (t'.search lx url).chosen.1 = (t.search lx url).chosen.1 := by
  rw [SearchTree.chosen_mark, SearchTree.chosen_mark]
  refine leastPos_congr (fun m hm => ?_)
  rw [mem_marks_search (Fuses.wf h hw), mem_marks_search hw]
  exact Fuses.accepts h hw lx (Nat.ne_of_gt hm) url 0

/-! ## The pass ends -/

/-- All literal edges of the node lead to `c` or beyond. -/
private def ChildrenFrom (t : Trie) (n c : Nat) : Prop := ∀ e ∈ (t.node n).children, c ≤ e.2

private theorem ChildrenFrom.fuses {t t' : Trie} {n c : Nat} (h : Fuses t t') (hw : t.Wf)
    (hl : t.Layered) (hc : t.ChildrenFrom n c) : t'.ChildrenFrom n c := by
  induction h with
  | refl => exact hc
  | tail hs hstep ih =>
      have hwf := Fuses.wf hs hw
      have hlay := Fuses.layered hs hw hl
      obtain ⟨i, hi, rfl⟩ := hstep
      intro e he
      rcases (mem_children_fuse hwf hi).mp he with ⟨-, he⟩ | ⟨rfl, kv, hkv, child, hchild, rfl⟩
      · exact ih e he
      · have := ih kv hkv
        have := (hlay.child hchild).1
        simp only
        omega

private theorem foldlM_total {α : Type} {f : Trie → α → Option Trie} {P : Trie → Prop}
    {l : List α} (hf : ∀ a ∈ l, ∀ t, P t → ∃ t', f t a = some t' ∧ P t') {t : Trie} (ht : P t) :
    ∃ t', l.foldlM f t = some t' ∧ P t' := by
  induction l generalizing t with
  | nil => exact ⟨t, rfl, ht⟩
  | cons a l ih =>
      obtain ⟨t₁, h₁, hp₁⟩ := hf a List.mem_cons_self t ht
      obtain ⟨t₂, h₂, hp₂⟩ := ih (fun b hb => hf b (List.mem_cons_of_mem _ hb)) hp₁
      exact ⟨t₂, by rw [List.foldlM_cons, h₁]; exact h₂, hp₂⟩

/-- **The pass ends.** A call goes on to a node further from the head, or stays at the node
and moves its edges further away. -/
theorem optimizeNode_total {t : Trie} (hw : t.Wf) (hl : t.Layered) (fuel : Nat) (n c : Nat)
    (hc : t.ChildrenFrom n c) (hcN : c ≤ t.nodes.length)
    (hfuel : (t.nodes.length - n) * (t.nodes.length + 1) + (t.nodes.length - c) < fuel) :
    ∃ t', optimizeNode fuel t n = some t' := by
  induction fuel generalizing t n c with
  | zero => omega
  | succ fuel ih =>
      generalize hN : t.nodes.length = N at hcN hfuel
      -- a call at a node further away has fuel enough
      have hcall : ∀ u, Fuses t u → ∀ x, n < x → x < N → ∃ u', optimizeNode fuel u x = some u' := by
        intro u hu x hx hxN
        have hlen : u.nodes.length = N := (Fuses.length hu).trans hN
        refine ih (Fuses.wf hu hw) (Fuses.layered hu hw hl) x 0 (fun e _ => Nat.zero_le _)
          (Nat.zero_le _) ?_
        have hmul : (N - x) * (N + 1) + (N + 1) ≤ (N - n) * (N + 1) := by
          have hle : N - x + 1 ≤ N - n := by omega
          calc (N - x) * (N + 1) + (N + 1) = (N - x + 1) * (N + 1) := (Nat.succ_mul _ _).symm
            _ ≤ (N - n) * (N + 1) := Nat.mul_le_mul_right _ hle
        rw [hlen]
        omega
      obtain ⟨t₁, h₁, hs₁⟩ : ∃ t₁, ParamType.all.foldlM (fun u k =>
          if (u.node n).paramChildrens k = 0 then some u
          else optimizeNode fuel u ((u.node n).paramChildrens k)) t = some t₁ ∧ Fuses t t₁ := by
        refine foldlM_total (fun k _ u hu => ?_) .refl
        split_ifs with h0
        · exact ⟨u, rfl, hu⟩
        · have hx := (Fuses.layered hu hw hl).param h0
          rw [Fuses.length hu, hN] at hx
          obtain ⟨u', hu'⟩ := hcall u hu _ hx.1 hx.2
          exact ⟨u', hu', hu.trans (optimizeNode_fuses hu')⟩
      have hw₁ := Fuses.wf hs₁ hw
      have hl₁ := Fuses.layered hs₁ hw hl
      have hN₁ : t₁.nodes.length = N := (Fuses.length hs₁).trans hN
      have hbind : optimizeNode (fuel + 1) t n =
          if (t₁.node n).children = [] then some t₁
          else if t₁.mergeWithChild n then optimizeNode fuel (t₁.fuse n) n
          else (t₁.node n).children.foldlM (fun u kv => optimizeNode fuel u kv.2) t₁ := by
        show Option.bind (ParamType.all.foldlM _ t) _ = _
        rw [h₁]
        rfl
      rw [hbind]
      split_ifs with hnil hmerge
      · exact ⟨t₁, rfl⟩
      · have hc₁ := ChildrenFrom.fuses hs₁ hw hl hc
        have hfuse : Fuses t (t₁.fuse n) := hs₁.tail ⟨n, ⟨hnil, hmerge⟩, rfl⟩
        obtain ⟨kv₀, hkv₀⟩ := List.exists_mem_of_ne_nil _ hnil
        have hcN' : c < N := by
          have := hc₁ kv₀ hkv₀
          have := (hl₁.child hkv₀).2
          omega
        refine ih (Fuses.wf hfuse hw) (Fuses.layered hfuse hw hl) n (c + 1) ?_
          (by rw [nodes_fuse_length]; omega) (by rw [nodes_fuse_length, hN₁]; omega)
        intro e he
        rcases (mem_children_fuse hw₁ ⟨hnil, hmerge⟩).mp he with ⟨h, -⟩ |
          ⟨-, kv, hkv, child, hchild, rfl⟩
        · exact absurd rfl h
        · have := hc₁ kv hkv
          have := (hl₁.child hchild).1
          simp only
          omega
      · obtain ⟨t₂, h₂, -⟩ := foldlM_total (P := Fuses t) (l := (t₁.node n).children)
          (f := fun u kv => optimizeNode fuel u kv.2) (fun kv hkv u hu => by
            have hx := hl₁.child hkv
            rw [hN₁] at hx
            obtain ⟨u', hu'⟩ := hcall u hu _ hx.1 hx.2
            exact ⟨u', hu', hu.trans (optimizeNode_fuses hu')⟩) hs₁
        exact ⟨t₂, h₂⟩

/-- `validate` ends. -/
theorem validate_total {t : Trie} (hw : t.Wf) (hl : t.Layered) :
    t.validate ≠ .error .fuel := by
  obtain ⟨t', h⟩ := optimizeNode_total hw hl
    ((t.nodes.length + 1) * (t.nodes.length + 1)) 0 0 (fun _ _ => Nat.zero_le _) (Nat.zero_le _)
    (by
      have : (t.nodes.length + 1) * (t.nodes.length + 1)
          = t.nodes.length * (t.nodes.length + 1) + (t.nodes.length + 1) := Nat.succ_mul _ _
      rw [Nat.sub_zero]
      omega)
  rw [validate, h]
  split_ifs <;> simp

/-! ## A second run changes nothing -/

/-- A node that is reached from another by edges. -/
inductive Reach (t : Trie) : Nat → Nat → Prop where
  | refl (i : Nat) : Reach t i i
  | param {i j : Nat} {k : ParamType} (hk : (t.node i).paramChildrens k ≠ 0)
      (hj : Reach t ((t.node i).paramChildrens k) j) : Reach t i j
  | child {i j : Nat} {e : Bytes × Nat} (he : e ∈ (t.node i).children) (hj : Reach t e.2 j) :
      Reach t i j

/-- There is nothing to fuse from the node on. -/
def Settled (t : Trie) (i : Nat) : Prop := ∀ j, Reach t i j → ¬ t.Fusible j

private theorem mergeWithChild_congr {t t' : Trie} (h : t.Fuse t') {i : Nat}
    (hi : (t'.node i).children = (t.node i).children) :
    t'.mergeWithChild i = t.mergeWithChild i := by
  rw [mergeWithChild, mergeWithChild, hi]
  simp only [h.isSimple]

/-- A fusion leaves a settled part of the trie as it is. -/
private theorem Settled.fuse {t t' : Trie} (h : t.Fuse t') {i : Nat} (hs : t.Settled i) :
    t'.Settled i := by
  have hframe := h.frame
  have hkeep : ∀ j, ¬ t.Fusible j → (t'.node j).children = (t.node j).children := by
    obtain ⟨n, hn, rfl⟩ := h
    intro j hj
    have hne : j ≠ n := by rintro rfl; exact hj hn
    rw [node_fuse_ne t hne]
  have hreach : ∀ j, Reach t' i j → Reach t i j := by
    intro j hj
    induction hj with
    | refl => exact .refl _
    | @param i j k hk _ ih =>
        rw [(hframe i).2] at hk ih
        exact .param hk (ih (fun x hx => hs x (.param hk hx)))
    | @child i j e he _ ih =>
        rw [hkeep i (hs i (.refl i))] at he
        exact .child he (ih (fun x hx => hs x (.child he hx)))
  intro j hj hf
  have hnot := hs j (hreach j hj)
  have hsame := hkeep j hnot
  exact hnot ⟨hsame ▸ hf.1, (mergeWithChild_congr h hsame) ▸ hf.2⟩

private theorem Settled.fuses {t t' : Trie} (h : Fuses t t') {i : Nat} (hs : t.Settled i) :
    t'.Settled i := by
  induction h with
  | refl => exact hs
  | tail _ hstep ih => exact ih.fuse hstep

private theorem children_fuses {t t' : Trie} (h : Fuses t t') {i : Nat} (hi : ¬ t.Fusible i) :
    (t'.node i).children = (t.node i).children ∧ ¬ t'.Fusible i := by
  induction h with
  | refl => exact ⟨rfl, hi⟩
  | @tail u _ _ hstep ih =>
      have hf := hstep
      obtain ⟨n, hn, rfl⟩ := hstep
      have hne : i ≠ n := by rintro rfl; exact ih.2 hn
      have hsame := congrArg Node.children (node_fuse_ne u hne)
      refine ⟨hsame.trans ih.1, fun hi' => ih.2 ⟨hsame ▸ hi'.1, ?_⟩⟩
      exact (mergeWithChild_congr hf hsame) ▸ hi'.2

/-- After a loop of calls every node that was called on is settled. -/
private theorem foldlM_settled {α : Type} {f : Trie → α → Option Trie} {l : List α}
    {Q : Trie → α → Prop} (hf : ∀ a t t', f t a = some t' → Fuses t t' ∧ Q t' a)
    (hQ : ∀ a t t', Fuses t t' → Q t a → Q t' a) {t t' : Trie} (h : l.foldlM f t = some t') :
    ∀ a ∈ l, Q t' a := by
  induction l generalizing t with
  | nil => intro a ha; cases ha
  | cons b l ih =>
      rw [List.foldlM_cons] at h
      obtain ⟨t₁, h₁, h₂⟩ := Option.bind_eq_some_iff.mp h
      intro a ha
      rcases List.mem_cons.mp ha with rfl | ha
      · exact hQ a t₁ t' (foldlM_fuses (fun b _ u u' hu => (hf b u u' hu).1) h₂) (hf a t t₁ h₁).2
      · exact ih h₂ a ha

/-- **The pass leaves nothing to fuse.** -/
theorem optimizeNode_settled {fuel : Nat} {t t' : Trie} {n : Nat}
    (h : optimizeNode fuel t n = some t') : t'.Settled n := by
  induction fuel generalizing t t' n with
  | zero => cases h
  | succ fuel ih =>
      obtain ⟨t₁, h₁, h₂⟩ := optimizeNode_succ h
      -- the placeholder edges of `n` lead to settled nodes
      have hparams : ∀ k ∈ ParamType.all, (t₁.node n).paramChildrens k ≠ 0 →
          t₁.Settled ((t₁.node n).paramChildrens k) := by
        refine foldlM_settled (Q := fun u k => (u.node n).paramChildrens k ≠ 0 →
          u.Settled ((u.node n).paramChildrens k)) (fun k u u' hu => ?_)
          (fun k u u' hu hk h0 => ?_) h₁
        · split_ifs at hu with h0
          · cases hu; exact ⟨.refl, fun h => absurd h0 h⟩
          · have hs := optimizeNode_fuses hu
            exact ⟨hs, fun _ => by rw [(Fuses.frame hs n).2]; exact ih hu⟩
        · rw [(Fuses.frame hu n).2] at h0 ⊢
          exact Settled.fuses hu (hk h0)
      have hall : ∀ k, (t₁.node n).paramChildrens k ≠ 0 →
          t₁.Settled ((t₁.node n).paramChildrens k) :=
        fun k => hparams k (by cases k <;> decide)
      rcases h₂ with ⟨hnil, rfl⟩ | ⟨-, h₂⟩ | ⟨hnf, h₂⟩
      · intro j hj
        cases hj with
        | refl => exact fun hf => hf.1 hnil
        | param hk hj => exact hall _ hk j hj
        | child he => rw [hnil] at he; cases he
      · exact ih h₂
      · have hs : Fuses t₁ t' := foldlM_fuses (fun kv _ u u' hu => optimizeNode_fuses hu) h₂
        have hchildren : ∀ kv ∈ (t₁.node n).children, t'.Settled kv.2 :=
          foldlM_settled (Q := fun u kv => u.Settled kv.2)
            (fun kv u u' hu => ⟨optimizeNode_fuses hu, ih hu⟩)
            (fun kv u u' hu hk => Settled.fuses (i := kv.2) hu hk) h₂
        obtain ⟨hsame, hnf'⟩ := children_fuses hs hnf
        intro j hj
        cases hj with
        | refl => exact hnf'
        | @param _ _ k hk hj =>
            rw [(Fuses.frame hs n).2] at hk hj
            exact Settled.fuses hs (hall k hk) j hj
        | child he hj =>
            rw [hsame] at he
            exact hchildren _ he j hj

private theorem foldlM_fixed {α : Type} {f : Trie → α → Option Trie} {l : List α} {t t' : Trie}
    (hf : ∀ a ∈ l, ∀ t', f t a = some t' → t' = t) (h : l.foldlM f t = some t') : t' = t := by
  induction l with
  | nil => cases h; rfl
  | cons a l ih =>
      rw [List.foldlM_cons] at h
      obtain ⟨t₁, h₁, h₂⟩ := Option.bind_eq_some_iff.mp h
      rw [hf a List.mem_cons_self t₁ h₁] at h₂
      exact ih (fun b hb => hf b (List.mem_cons_of_mem _ hb)) h₂

/-- The pass changes nothing where there is nothing to fuse. -/
theorem optimizeNode_of_settled {fuel : Nat} {t t' : Trie} {n : Nat} (hs : t.Settled n)
    (h : optimizeNode fuel t n = some t') : t' = t := by
  induction fuel generalizing t' n with
  | zero => cases h
  | succ fuel ih =>
      obtain ⟨t₁, h₁, h₂⟩ := optimizeNode_succ h
      have heq : t₁ = t := by
        refine foldlM_fixed (fun k _ u hu => ?_) h₁
        split_ifs at hu with h0
        · cases hu; rfl
        · exact ih (fun j hj => hs j (.param h0 hj)) hu
      subst heq
      rcases h₂ with ⟨-, rfl⟩ | ⟨hf, -⟩ | ⟨-, h₂⟩
      · rfl
      · exact absurd hf (hs n (.refl n))
      · exact foldlM_fixed (fun kv hkv u hu => ih (fun j hj => hs j (.child hkv hj)) hu) h₂

/-! ## What `validate` does to `find` -/

theorem validate_ok {t t' : Trie} (h : t.validate = .ok t') :
    (t.node 0).isSimple = true ∧ Fuses t t' ∧ t'.Settled 0 := by
  rw [validate] at h
  split_ifs at h with hsimple
  cases hopt : optimizeNode ((t.nodes.length + 1) * (t.nodes.length + 1)) t 0 with
  | none => rw [hopt] at h; cases h
  | some u =>
      rw [hopt] at h
      cases h
      exact ⟨hsimple, optimizeNode_fuses hopt, optimizeNode_settled hopt⟩

/-- A second `validate` returns the trie as it is. -/
theorem validate_validate {t t' : Trie} (hw : t.Wf) (hl : t.Layered) (h : t.validate = .ok t') :
    t'.validate = .ok t' := by
  obtain ⟨hsimple, hs, hsettled⟩ := validate_ok h
  have htotal := validate_total (Fuses.wf hs hw) (Fuses.layered hs hw hl)
  have hsimple' : (t'.node 0).isSimple = true := by
    rw [Node.isSimple, (Fuses.frame hs 0).1, (Fuses.frame hs 0).2]
    exact hsimple
  rw [validate, if_pos hsimple'] at htotal ⊢
  cases hopt : optimizeNode ((t'.nodes.length + 1) * (t'.nodes.length + 1)) t' 0 with
  | none => rw [hopt] at htotal; exact absurd rfl htotal
  | some u => rw [optimizeNode_of_settled hsettled hopt]

/-- **`find` selects the same index before `validate`, after it and after a second one exactly
when the searches before and after hold at most 128 values of each kind at any one time.** -/
theorem find_validate_iff [DecidableEq δ] (lx : Strto δ) (rs : List (Bytes × Nat)) (t t' : Trie)
    (hadd : addAll {} rs = some t) (hval : t.validate = .ok t') (url : Bytes) :
    (∃ t'' index p p' p'', t'.validate = .ok t'' ∧ t.find lx url = .ok (index, p) ∧
        t'.find lx url = .ok (index, p') ∧ t''.find lx url = .ok (index, p'')) ↔
      t.Fits lx url ∧ t'.Fits lx url := by
  obtain ⟨routes, rfl⟩ := texts_of_addAll hadd
  have hb := built_addAll built_empty hadd
  have hs := (validate_ok hval).2.1
  have hw' := Fuses.wf hs hb.wf
  constructor
  · rintro ⟨-, index, p, p', -, -, h, h', -⟩
    constructor
    · by_contra hfit
      obtain ⟨e, he⟩ := find_error hb.wf hfit
      rw [he] at h
      cases h
    · by_contra hfit
      obtain ⟨e, he⟩ := find_error hw' hfit
      rw [he] at h'
      cases h'
  · rintro ⟨hfit, hfit'⟩
    obtain ⟨p, h, -⟩ := find_ok hb.wf hfit
    obtain ⟨p', h', -⟩ := find_ok hw' hfit'
    rw [Fuses.chosen hs hb.wf lx url] at h'
    exact ⟨t', _, p, p', p', validate_validate hb.wf hb.layered hval, h, h', h'⟩

theorem find_validate_ab : ∃ t t', addAll {} [(str "/a", 2), (str "/b", 3)] = some t ∧
    t.validate = .ok t' ∧
      ((∃ t'' index p p' p'', t'.validate = .ok t'' ∧
          t.find decimalReaders (str "/b") = .ok (index, p) ∧
          t'.find decimalReaders (str "/b") = .ok (index, p') ∧
          t''.find decimalReaders (str "/b") = .ok (index, p'')) ↔
        t.Fits decimalReaders (str "/b") ∧ t'.Fits decimalReaders (str "/b")) :=
  ⟨_, _, rfl, rfl, find_validate_iff decimalReaders [(str "/a", 2), (str "/b", 3)] _ _ rfl rfl
    (str "/b")⟩

/-! ## A `validate` that makes a difference -/

/-- Two routes of a slash and 100 placeholders: then a placeholder and a literal, or 30
placeholders, the first of another kind. -/
def interiorLeaf : List (Bytes × Nat) :=
  let ints (n : Nat) := (List.replicate n (str "{int}")).flatten
  [(SLASH :: ints 101 ++ (List.replicate 29 (str "+1")).flatten ++ str "z", 2),
    (SLASH :: ints 100 ++ str "{uint}" ++ ints 29, 3)]

private theorem int_mem : (ParamType.int, str "{int}") ∈ paramTraits := by decide

private def literalRoute : Pattern :=
  .chr SLASH slash_ne_lbrace :: (List.replicate 101 (.placeholder .int (str "{int}") int_mem) ++
    ((List.replicate 29 [.chr 43 (by decide), .chr 49 (by decide)]).flatten ++
      [.chr 122 (by decide)]))

private def uintRoute : Pattern :=
  .chr SLASH slash_ne_lbrace :: (List.replicate 100 (.placeholder .int (str "{int}") int_mem) ++
    .placeholder .uint (str "{uint}") (by decide) ::
      List.replicate 29 (.placeholder .int (str "{int}") int_mem))

/-- The trie of `interiorLeaf`, with the nodes as they come. -/
private def leafTrie : Trie where
  nodes := fork (.chr SLASH :: List.replicate 100 (.param .int)) (.param .int) (.param .uint)
    ((List.replicate 29 [.chr 43, .chr 49]).flatten ++ [.chr 122]) (List.replicate 29 (.param .int))
    2 3

private theorem addAll_interiorLeaf : addAll {} interiorLeaf = some leafTrie := by
  have htexts : interiorLeaf = [(literalRoute.text, 2), (uintRoute.text, 3)] := by
    decide +kernel
  rw [htexts]
  exact addAll_fork (by decide +kernel) (by decide +kernel) (by decide) 2 3

private theorem find_interiorLeaf :
    (leafTrie.find decimalReaders (SLASH :: (List.replicate 130 (str "+1")).flatten)).map
      Prod.fst = .ok 3 := by
  decide +kernel

private theorem find_validated_interiorLeaf :
    leafTrie.validate.toOption.map (fun t' =>
      (t'.find decimalReaders (SLASH :: (List.replicate 130 (str "+1")).flatten)).map Prod.fst) =
        some (.error .nullWrite) := by
  decide +kernel

/-- **`validate` can make a URL fail.** Before it, the literal of the first route has a node
where the URL ends; the search takes it for a leaf, and the values held so far are moved out.
After it that node is gone, and the search comes to the second route with 100 values held. -/
theorem find_validate_interiorLeaf :
    (addAll {} interiorLeaf).map (fun t =>
        let url := SLASH :: (List.replicate 130 (str "+1")).flatten
        ((t.find decimalReaders url).map Prod.fst,
          t.validate.toOption.map (fun t' => (t'.find decimalReaders url).map Prod.fst)))
      = some (.ok 3, some (.error .nullWrite)) := by
  rw [addAll_interiorLeaf, Option.map_some]
  dsimp only
  rw [find_interiorLeaf, find_validated_interiorLeaf]

end Trie

end Suil.Routing
