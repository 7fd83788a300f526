import Suil.Http.QueryString

set_option autoImplicit false

/-! # The target of a request

`parser::on_url` collects the pieces of the target, and `parser::on_msg_complete` parts it at the
first question mark into the URL and the text of the query string (`parser.cpp`). The position of a
question mark that is not there is `npos`, which the code compares with the size of the target. -/

namespace Suil.Http.RequestTarget

/-! ## `on_url` and `on_msg_complete` -/

def npos : Nat := 2 ^ 64 - 1

/-- `sv.find(c)`. -/
def find (sv : Bytes) (c : UInt8) : Nat := if c ∈ sv then sv.idxOf c else npos

/-- `strview(sv.data() + pos, n)`, which is read. -/
def view (sv : Bytes) (pos n : Nat) : Except QsFault Bytes :=
  if pos + n ≤ sv.length then .ok ((sv.drop pos).take n) else .error .outside

/-- `on_url` for each piece, behind `on_message_begin`. -/
def on_url (pieces : List Bytes) : Bytes := pieces.foldl (· ++ ·) []

/-- The URL and the text that the query string is made of. -/
def parts (sv : Bytes) : Except QsFault (Option Bytes × Option Bytes) :=
  let pos := find sv QMARK
  let url := sv.take pos
  if url = [] then .ok (none, none)
  else if pos ≠ sv.length then do
    let tmp ← view sv pos ((sv.length + 2 ^ 64 - pos) % 2 ^ 64)
    .ok (some (cstr url), some tmp)
  else .ok (some (cstr url), none)

/-- What the message has of its target. -/
structure Parsed where
  url : Option Bytes
  qps : QueryString

/-- `on_msg_complete`; the query string has been cleared. -/
def on_msg_complete (sv : Bytes) : Except QsFault Parsed := do
  match ← parts sv with
  | (url, none) => .ok ⟨url, ⟨none, none, 0⟩⟩
  | (url, some tmp) => .ok ⟨url, ← QueryString.new tmp⟩

/-! ## Targets -/

/-- A target as it is received: `parse_url_char` lets no NUL pass, and a buffer has a size of 32
bits. -/
structure RawUrl where
  text : Bytes
  no_nul : NUL ∉ text
  length_lt : text.length < 2 ^ 32

namespace RawUrl

/-- The text in front of the first question mark. -/
def front (t : RawUrl) : Bytes := t.text.takeWhile (· ≠ QMARK)

/-- The text behind it. -/
def query (t : RawUrl) : Bytes := (t.text.dropWhile (· ≠ QMARK)).tail

/-- The URL is the decoded text in front of the question mark, and the query string is what is behind
it. -/
def Parted (t : RawUrl) : Prop :=
  ∃ url tmp, parts t.text = .ok (url, tmp) ∧
    url.getD [] = UrlCodec.decoded t.front ∧ tmp.getD [QMARK] = QMARK :: t.query

end RawUrl

/-! ## Searching -/

private theorem foldl_append (pieces : List Bytes) (sv : Bytes) :
    pieces.foldl (· ++ ·) sv = sv ++ pieces.flatten := by
  induction pieces generalizing sv with
  | nil => exact (List.append_nil sv).symm
  | cons piece pieces ih => rw [List.foldl_cons, ih, List.flatten_cons, List.append_assoc]

theorem on_url_eq (pieces : List Bytes) : on_url pieces = pieces.flatten :=
  foldl_append pieces []

private theorem takeWhile_front {u q : Bytes} (hu : QMARK ∉ u) :
    (u ++ QMARK :: q).takeWhile (· ≠ QMARK) = u ∧
      ((u ++ QMARK :: q).dropWhile (· ≠ QMARK)).tail = q := by
  have hall : ∀ c ∈ u, decide (c ≠ QMARK) = true := fun c hc =>
    decide_eq_true fun h => hu (h ▸ hc)
  constructor
  · rw [List.takeWhile_append_of_pos hall, List.takeWhile_cons, if_neg (by decide), List.append_nil]
  · rw [List.dropWhile_append_of_pos hall, List.dropWhile_cons, if_neg (by decide), List.tail_cons]

/-- A target with a question mark. -/
theorem parts_append {u q : Bytes} (hu : QMARK ∉ u) (hnul : NUL ∉ u)
    (hlt : (u ++ QMARK :: q).length < 2 ^ 32) : parts (u ++ QMARK :: q) =
      .ok (if u = [] then (none, none) else (some u, some (QMARK :: q))) := by
  have hpos : find (u ++ QMARK :: q) QMARK = u.length := by
    rw [find, if_pos (List.mem_append_right _ List.mem_cons_self), List.idxOf_append_of_notMem hu,
      List.idxOf_cons_self, Nat.add_zero]
  have hlength : (u ++ QMARK :: q).length = u.length + (q.length + 1) := by
    rw [List.length_append, List.length_cons]
  have hsize : ((u ++ QMARK :: q).length + 2 ^ 64 - u.length) % 2 ^ 64 = q.length + 1 := by omega
  rw [parts]
  simp only [hpos, hsize, List.take_left]
  split_ifs with hnil
  · rfl
  · rw [view, if_pos hlength.ge, List.drop_left, List.take_of_length_le (List.length_cons).le,
      cstr_eq_self hnul]
    rfl
  · omega

/-- Without a question mark the view begins in front of the target. -/
theorem parts_outside {sv : Bytes} (hne : sv ≠ []) (h : QMARK ∉ sv) (hlt : sv.length < 2 ^ 32) :
    parts sv = .error .outside := by
  have hpos : find sv QMARK = npos := if_neg h
  have htake : sv.take npos = sv := List.take_of_length_le (by rw [npos]; omega)
  have hfar : ¬ npos + (sv.length + 2 ^ 64 - npos) % 2 ^ 64 ≤ sv.length := by
    rw [npos]
    omega
  rw [parts]
  simp only [hpos, htake]
  rw [if_neg hne, if_pos (by rw [npos]; omega), view, if_neg hfar]
  rfl

/-- What the message has of a target that is parted at a question mark. -/
def RawUrl.parsed (t : RawUrl) : Parsed :=
  let pairs := t.query.splitOn AMP
  if t.front = [] then ⟨none, ⟨none, none, 0⟩⟩
  else ⟨some t.front, ⟨some (QMARK :: QueryString.settledAll pairs),
    some (QueryString.places 1 pairs), pairs.length⟩⟩

/-- **A target that is empty or has a question mark is parted there, and nothing else is read. The
URL is as it was received, and the query string has the pairs of what is behind the mark; when the URL
would be empty, there is neither.** -/
theorem on_msg_complete_eq (t : RawUrl) (pieces : List Bytes) (hpieces : pieces.flatten = t.text)
    (h : t.text = [] ∨ QMARK ∈ t.text)
    (hfew : (t.query.splitOn AMP).length ≤ QueryString.MAX_KEY_VALUE_PAIRS_COUNT) :
    parts (on_url pieces) =
        .ok (if t.front = [] then (none, none) else (some t.front, some (QMARK :: t.query))) ∧
      on_msg_complete (on_url pieces) = .ok t.parsed := by
  have hparts : parts t.text =
      .ok (if t.front = [] then (none, none) else (some t.front, some (QMARK :: t.query))) := by
    obtain ⟨text, hnul, hlt⟩ := t
    rw [RawUrl.front, RawUrl.query]
    rcases h with hnil | hmem
    · dsimp only at hnil ⊢
      subst hnil
      rfl
    · obtain ⟨u, q, rfl, hu⟩ := List.eq_append_cons_of_mem hmem
      obtain ⟨hfront, hquery⟩ := takeWhile_front (q := q) hu
      rw [hfront, hquery]
      exact parts_append hu (fun hm => hnul (List.mem_append_left _ hm)) hlt
  have hnul : NUL ∉ t.query := fun hm =>
    t.no_nul ((List.dropWhile_sublist _).subset (List.mem_of_mem_tail hm))
  rw [on_url_eq, hpieces, on_msg_complete, hparts, RawUrl.parsed]
  refine ⟨rfl, ?_⟩
  split_ifs with hnil
  · rfl
  · simp only [bind, Except.bind, QueryString.new_of_mark hnul hfew]

/-- `/a?x=1?`, received in two pieces. -/
def twoMarks : RawUrl := ⟨str "/a?x=1?", by decide, by decide⟩

theorem on_msg_complete_twoMarks :
    parts (on_url [str "/a?", str "x=1?"]) =
        .ok (if twoMarks.front = [] then (none, none)
          else (some twoMarks.front, some (QMARK :: twoMarks.query))) ∧
      on_msg_complete (on_url [str "/a?", str "x=1?"]) = .ok twoMarks.parsed :=
  on_msg_complete_eq twoMarks _ (by decide) (.inr (by decide)) (by decide)

/-- `/a%20b?x`: the URL is not decoded. -/
theorem not_parted_escape : ¬ ∀ t : RawUrl, t.Parted := by
  intro h
  obtain ⟨url, tmp, hparts, hurl, -⟩ := h ⟨str "/a%20b?x", by decide, by decide⟩
  have heq : url = some (str "/a%20b") := by
    have hrun : parts (str "/a%20b?x") = .ok (some (str "/a%20b"), some (str "?x")) := by
      decide
    exact (Prod.mk.inj (Except.ok.inj (hparts.symm.trans hrun))).1
  rw [heq] at hurl
  exact absurd hurl (by decide)

end Suil.Http.RequestTarget
