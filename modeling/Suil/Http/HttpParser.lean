import Suil.Basic.Bytes

set_option autoImplicit false

/-! # The bodies of messages

What `http_parser` (`parser.cpp`) makes of the bytes behind the headers, a byte at a time. Up to the end
of the headers, and again behind the last chunk, it is a machine of which only this much is said: it
reads a byte, and it ends with what the headers say of the body. -/

namespace Suil.Http.HttpParser

def ULLONG_MAX : Nat := 2 ^ 64 - 1
def HTTP_MAX_HEADER_SIZE : Nat := 80 * 1024

/-- The headers that matter for the body: `content_length` is `ULLONG_MAX` when there was none, and
`counted` says that `headers` has a `Content-Length`. -/
structure Framing where
  content_length : Nat
  chunked : Bool
  upgrade : Bool
  keep_alive : Bool
  counted : Bool

inductive HeadStep (σ : Type) where
  | next (s : σ)
  | begin (s : σ)
  | failed
  | done (f : Framing)

/-- The states from `s_start_req`, which is `start`, to `s_headers_almost_done`. Behind the last chunk
they start at `trailer`; the fields there do not give a length. -/
structure Head (σ : Type) where
  start : σ
  starting : σ → Bool
  trailer : σ
  step : σ → UInt8 → HeadStep σ

inductive PState (σ : Type) where
  | dead
  | head (s : σ)
  | bodyIdentity
  | chunkSizeStart
  | chunkSize
  | chunkParameters
  | chunkSizeAlmostDone
  | trailer (s : σ)
  | chunkData
  | chunkDataAlmostDone
  | chunkDataDone

/-- `http_parser`. -/
structure Parser (σ : Type) where
  state : PState σ
  content_length : Nat
  nread : Nat
  keep_alive : Bool

/-- The callbacks without data. -/
inductive Notice where
  | messageBegin
  | headersComplete (counted : Bool)
  | messageComplete

/-- What a byte does: the parser after it, whether it is a byte of the body, the callbacks, and whether
the rest is left to another protocol. -/
structure Tick (σ : Type) where
  parser : Parser σ
  isBody : Bool
  notices : List Notice
  exits : Bool

variable {σ : Type}

/-- A byte that only changes the state. -/
def Tick.silent (p : Parser σ) : Tick σ := ⟨p, false, [], false⟩

/-- `_NEW_MESSAGE()`. -/
def Head.newMessage (G : Head σ) (p : Parser σ) : PState σ :=
  if p.keep_alive then .head G.start else .dead

/-- `unhex`, of which only the first half is written out; the other half is zero. -/
def unhex (c : UInt8) : Option Nat :=
  if 48 ≤ c ∧ c ≤ 57 then some (c.toNat - 48)
  else if 65 ≤ c ∧ c ≤ 70 then some (c.toNat - 55)
  else if 97 ≤ c ∧ c ≤ 102 then some (c.toNat - 87)
  else if 128 ≤ c then some 0
  else none

/-- `s_headers_done`. -/
def Head.headersDone (G : Head σ) (f : Framing) : Tick σ :=
  let p : Parser σ := ⟨.chunkSizeStart, f.content_length, 0, f.keep_alive⟩
  let ended : Tick σ :=
    ⟨{ p with state := G.newMessage p }, false,
      [.headersComplete f.counted, .messageComplete], f.upgrade⟩
  if f.upgrade then ended
  else if f.chunked then ⟨p, false, [.headersComplete f.counted], false⟩
  else if f.content_length = 0 ∨ f.content_length = ULLONG_MAX then ended
  else ⟨{ p with state := .bodyIdentity }, false, [.headersComplete f.counted], false⟩

/-- `PARSING_HEADER`: the bytes of the line in front of a chunk are counted. -/
def Parser.counting (p : Parser σ) (k : Parser σ → Option (Tick σ)) : Option (Tick σ) :=
  if HTTP_MAX_HEADER_SIZE < p.nread + 1 then none else k { p with nread := p.nread + 1 }

/-- A byte of `http_parser_execute`. It stores the bytes of a body by the run; here they are marked one
at a time. -/
def Head.tick (G : Head σ) (p : Parser σ) (c : UInt8) : Option (Tick σ) :=
  match p.state with
  | .dead => if c = CR ∨ c = LF then some (.silent p) else none
  | .head s =>
      match G.step s c with
      | .next s => some (.silent { p with state := .head s })
      | .begin s => some ⟨{ p with state := .head s }, false, [.messageBegin], false⟩
      | .failed => none
      | .done f => some (G.headersDone f)
  | .bodyIdentity =>
      let p := { p with content_length := p.content_length - 1 }
      if p.content_length = 0 then
        some ⟨{ p with state := G.newMessage p }, true, [.messageComplete], false⟩
      else some ⟨p, true, [], false⟩
  | .chunkSizeStart => p.counting fun p =>
      match unhex c with
      | none => none
      | some v => some (.silent { p with state := .chunkSize, content_length := v })
  | .chunkSize => p.counting fun p =>
      if c = CR then some (.silent { p with state := .chunkSizeAlmostDone })
      else
        match unhex c with
        | none =>
            if c = SEMI ∨ c = SP then some (.silent { p with state := .chunkParameters }) else none
        | some v =>
            if (ULLONG_MAX - 16) / 16 < p.content_length then none
            else some (.silent { p with content_length := p.content_length * 16 + v })
  | .chunkParameters => p.counting fun p =>
      if c = CR then some (.silent { p with state := .chunkSizeAlmostDone }) else some (.silent p)
  | .chunkSizeAlmostDone => p.counting fun p =>
      if c = LF then
        if p.content_length = 0 then
          some (.silent { p with state := .trailer G.trailer, nread := 0 })
        else some (.silent { p with state := .chunkData, nread := 0 })
      else none
  | .trailer s =>
      match G.step s c with
      | .next s | .begin s => some (.silent { p with state := .trailer s })
      | .failed => none
      | .done _ => some ⟨{ p with state := G.newMessage p }, false, [.messageComplete], false⟩
  | .chunkData =>
      let p := { p with content_length := p.content_length - 1 }
      if p.content_length = 0 then some ⟨{ p with state := .chunkDataAlmostDone }, true, [], false⟩
      else some ⟨p, true, [], false⟩
  | .chunkDataAlmostDone =>
      if c = CR then some (.silent { p with state := .chunkDataDone }) else none
  | .chunkDataDone =>
      if c = LF then some (.silent { p with state := .chunkSizeStart, nread := 0 }) else none

/-! ## Messages -/

/-- The bytes up to the end of the headers, and no more. -/
def Head.opens (G : Head σ) : σ → Bytes → Option Framing
  | _, [] => none
  | s, c :: cs =>
      match G.step s c with
      | .next s | .begin s => G.opens s cs
      | .failed => none
      | .done f => if cs = [] then some f else none

/-- The bytes of a body, and whether they are all of it. -/
def Head.scan (G : Head σ) : Parser σ → Bytes → Option (Parser σ × Bytes × Bool)
  | p, [] => some (p, [], false)
  | p, c :: cs =>
      match G.tick p c with
      | some ⟨p, isBody, [], false⟩ =>
          match G.scan p cs with
          | some (p, body, ended) => some (p, if isBody then c :: body else body, ended)
          | none => none
      | some ⟨p, isBody, [.messageComplete], false⟩ =>
          if cs = [] then some (p, if isBody then [c] else [], true) else none
      | _ => none

/-- Whether there is a body behind the headers. -/
def Framing.bodiless (f : Framing) : Bool :=
  f.upgrade || !f.chunked && (f.content_length == 0 || f.content_length == ULLONG_MAX)

/-- The parser in front of the body. -/
def Framing.parser (f : Framing) : Parser σ :=
  ⟨if f.chunked then .chunkSizeStart else .bodyIdentity, f.content_length, 0, f.keep_alive⟩

/-- A message: its headers, the bytes behind them, and the body that these stand for. -/
structure Message (G : Head σ) where
  head : Bytes
  framing : Framing
  encoded : Bytes
  body : Bytes
  opens : G.opens G.start head = some framing
  carries : if framing.bodiless then encoded = [] ∧ body = []
    else ∃ p, G.scan framing.parser encoded = some (p, body, true)

def Message.bytes {G : Head σ} (m : Message G) : Bytes := m.head ++ m.encoded

variable {G : Head σ}

/-! ### A step of a scan -/

theorem scan_cons {p q : Parser σ} {c : UInt8} {cs body : Bytes} {ended : Bool}
    (h : G.scan p (c :: cs) = some (q, body, ended)) :
    (∃ p' isBody b, G.tick p c = some ⟨p', isBody, [], false⟩ ∧ G.scan p' cs = some (q, b, ended) ∧
        body = (if isBody then [c] else []) ++ b) ∨
      ∃ isBody, G.tick p c = some ⟨q, isBody, [.messageComplete], false⟩ ∧ cs = [] ∧
        body = (if isBody then [c] else []) ∧ ended = true := by
  rw [Head.scan] at h
  split at h
  · next p' isBody htick =>
      split at h
      · next p'' b o hscan =>
          cases h
          refine .inl ⟨p', isBody, b, htick, hscan, ?_⟩
          cases isBody <;> rfl
      · nomatch h
  · next p' isBody htick =>
      by_cases hcs : cs = []
      · rw [if_pos hcs] at h
        cases h
        exact .inr ⟨isBody, htick, hcs, rfl, rfl⟩
      · rw [if_neg hcs] at h
        nomatch h
  · nomatch h

theorem scan_cons_silent {p p' q : Parser σ} {c : UInt8} {cs b : Bytes} {ended isBody : Bool}
    (htick : G.tick p c = some ⟨p', isBody, [], false⟩) (hscan : G.scan p' cs = some (q, b, ended)) :
    G.scan p (c :: cs) = some (q, (if isBody then [c] else []) ++ b, ended) := by
  rw [Head.scan, htick]
  dsimp only
  rw [hscan]
  cases isBody <;> rfl

/-- A scan can be cut anywhere before its end. -/
theorem scan_append {p q : Parser σ} {d e body : Bytes} {ended : Bool} (he : e ≠ [])
    (h : G.scan p (d ++ e) = some (q, body, ended)) :
    ∃ p' b b', G.scan p d = some (p', b, false) ∧ G.scan p' e = some (q, b', ended) ∧
      body = b ++ b' := by
  induction d generalizing p body with
  | nil => exact ⟨p, [], body, rfl, h, rfl⟩
  | cons c d ih =>
      rcases scan_cons h with ⟨p₁, isBody, b₁, htick, hscan, hbody⟩ | ⟨isBody, -, hnil, -, -⟩
      · obtain ⟨p', b, b', hd, he', hsplit⟩ := ih hscan
        refine ⟨p', _, b', scan_cons_silent htick hd, he', ?_⟩
        rw [hbody, hsplit, List.append_assoc]
      · exact absurd (List.append_eq_nil_iff.mp hnil).2 he

theorem tick_identity {p : Parser σ} (h : p.state = .bodyIdentity) (c : UInt8) : G.tick p c =
    if p.content_length - 1 = 0 then
      some ⟨{ p with state := G.newMessage p, content_length := p.content_length - 1 }, true,
        [.messageComplete], false⟩
    else some ⟨{ p with content_length := p.content_length - 1 }, true, [], false⟩ := by
  rw [Head.tick, h]
  rfl

/-- A body of a known length is what there is of it. -/
theorem scan_identity {p q : Parser σ} {bs body : Bytes} {ended : Bool}
    (hstate : p.state = .bodyIdentity) (hpos : 0 < p.content_length)
    (h : G.scan p bs = some (q, body, ended)) :
    body = bs ∧ (ended = true → bs.length = p.content_length) ∧
      (ended = false → q = { p with content_length := p.content_length - bs.length } ∧
        bs.length < p.content_length) := by
  induction bs generalizing p body with
  | nil =>
      cases h
      exact ⟨rfl, nofun, fun _ => ⟨rfl, hpos⟩⟩
  | cons c bs ih =>
      have htick := tick_identity (G := G) hstate c
      rw [List.length_cons]
      by_cases hlast : p.content_length - 1 = 0
      · rw [if_pos hlast] at htick
        rcases scan_cons h with ⟨p', isBody, b, hp', -, -⟩ | ⟨isBody, hp', hnil, hbody, hover⟩
        · rw [htick] at hp'
          nomatch hp'
        · rw [htick] at hp'
          cases hp'
          rw [hbody, hnil, hover]
          exact ⟨rfl, fun _ => by rw [List.length_nil]; omega, nofun⟩
      · rw [if_neg hlast] at htick
        rcases scan_cons h with ⟨p', isBody, b, hp', hscan, hbody⟩ | ⟨isBody, hp', -, -, -⟩
        · rw [htick] at hp'
          cases hp'
          obtain ⟨hb, htrue, hfalse⟩ :=
            @ih { p with content_length := p.content_length - 1 } b hstate (Nat.pos_of_ne_zero hlast)
              hscan
          dsimp only at htrue hfalse
          refine ⟨?_, fun ho => ?_, fun ho => ?_⟩
          · rw [hbody, hb]
            rfl
          · have := htrue ho
            omega
          · obtain ⟨hq, hlt⟩ := hfalse ho
            rw [hq, Nat.sub_sub, Nat.add_comm 1]
            exact ⟨rfl, by omega⟩
        · rw [htick] at hp'
          nomatch hp'

/-! ### Chunks -/

/-- The parser is behind the headers of a chunked message. -/
def Parser.Waits (p : Parser σ) : Prop :=
  match p.state with
  | .chunkSizeStart | .chunkSize | .chunkParameters | .chunkSizeAlmostDone => True
  | .chunkData => 0 < p.content_length
  | .chunkDataAlmostDone | .chunkDataDone | .trailer _ => p.content_length = 0
  | _ => False

/-- No fewer bytes than these are still to come. -/
def Parser.reach (p : Parser σ) : Nat :=
  match p.state with
  | .chunkSize | .chunkParameters | .chunkSizeAlmostDone | .chunkData => p.content_length + 1
  | _ => 1

/-- The message goes on, and no more than a byte less is to come. -/
structure Tick.Waits (t : Tick σ) (p : Parser σ) : Prop where
  notices : t.notices = []
  exits : t.exits = false
  waits : t.parser.Waits
  reach : p.reach ≤ t.parser.reach + 1

theorem counting_eq_some {p : Parser σ} {k : Parser σ → Option (Tick σ)} {t : Tick σ}
    (h : p.counting k = some t) : k { p with nread := p.nread + 1 } = some t := by
  rw [Parser.counting] at h
  split_ifs at h
  exact h

/-- What a byte does to a chunked message: it goes on, or it ends with the trailer. -/
theorem tick_waits {p : Parser σ} {c : UInt8} {t : Tick σ} (hp : p.Waits) (h : G.tick p c = some t) :
    t.Waits p ∨ p.reach = 1 ∧ t.notices = [.messageComplete] ∧ t.exits = false := by
  obtain ⟨state, n, nread, keep⟩ := p
  unfold Head.tick at h
  cases state with
  | dead => exact hp.elim
  | head s => exact hp.elim
  | bodyIdentity => exact hp.elim
  | chunkSizeStart =>
      have hk := counting_eq_some h
      split at hk
      · nomatch hk
      · cases hk
        exact .inl ⟨rfl, rfl, trivial, Nat.succ_le_succ (Nat.zero_le _)⟩
  | chunkSize =>
      have hk := counting_eq_some h
      by_cases hcr : c = CR
      · rw [if_pos hcr] at hk
        cases hk
        exact .inl ⟨rfl, rfl, trivial, Nat.le_succ _⟩
      · rw [if_neg hcr] at hk
        cases hdigit : unhex c with
        | none =>
            rw [hdigit] at hk
            dsimp only at hk
            split_ifs at hk
            cases hk
            exact .inl ⟨rfl, rfl, trivial, Nat.le_succ _⟩
        | some v =>
            rw [hdigit] at hk
            dsimp only at hk
            split_ifs at hk
            cases hk
            refine .inl ⟨rfl, rfl, trivial, ?_⟩
            -- the size only grows with its digits
            show n + 1 ≤ n * 16 + v + 1 + 1
            omega
  | chunkParameters =>
      have hk := counting_eq_some h
      split_ifs at hk
      · cases hk
        exact .inl ⟨rfl, rfl, trivial, Nat.le_succ _⟩
      · cases hk
        exact .inl ⟨rfl, rfl, trivial, Nat.le_succ _⟩
  | chunkSizeAlmostDone =>
      have hk := counting_eq_some h
      split_ifs at hk with hlf hzero
      · cases hk
        have hn : n = 0 := hzero
        exact .inl ⟨rfl, rfl, hn, by show n + 1 ≤ 1 + 1; omega⟩
      · cases hk
        exact .inl ⟨rfl, rfl, Nat.pos_of_ne_zero hzero, Nat.le_succ _⟩
  | trailer s =>
      dsimp only at h
      split at h
      · cases h
        exact .inl ⟨rfl, rfl, hp, Nat.le_succ _⟩
      · cases h
        exact .inl ⟨rfl, rfl, hp, Nat.le_succ _⟩
      · nomatch h
      · cases h
        exact .inr ⟨rfl, rfl, rfl⟩
  | chunkData =>
      have hn : 0 < n := hp
      dsimp only at h
      split_ifs at h with hlast
      · cases h
        exact .inl ⟨rfl, rfl, hlast, by show n + 1 ≤ 1 + 1; omega⟩
      · cases h
        exact .inl ⟨rfl, rfl, Nat.pos_of_ne_zero hlast, by show n + 1 ≤ n - 1 + 1 + 1; omega⟩
  | chunkDataAlmostDone =>
      dsimp only at h
      split_ifs at h
      cases h
      exact .inl ⟨rfl, rfl, hp, Nat.le_succ _⟩
  | chunkDataDone =>
      dsimp only at h
      split_ifs at h
      cases h
      exact .inl ⟨rfl, rfl, trivial, Nat.le_succ _⟩

/-- As long as a chunked message has not ended it waits for more than `content_length` says, but for
the line in front of the first chunk. -/
theorem lt_reach {p : Parser σ} (hp : p.Waits) :
    p.state = .chunkSizeStart ∨ p.content_length < p.reach := by
  obtain ⟨state, n, nread, keep⟩ := p
  cases state with
  | dead => exact hp.elim
  | head s => exact hp.elim
  | bodyIdentity => exact hp.elim
  | chunkSizeStart => exact .inl rfl
  | chunkSize | chunkParameters | chunkSizeAlmostDone | chunkData => exact .inr (Nat.lt_succ_self n)
  | trailer s =>
      have hn : n = 0 := hp
      exact .inr (by show n < 1; omega)
  | chunkDataAlmostDone | chunkDataDone =>
      have hn : n = 0 := hp
      exact .inr (by show n < 1; omega)

theorem scan_waits {p q : Parser σ} {bs body : Bytes} (hp : p.Waits)
    (h : G.scan p bs = some (q, body, false)) : q.Waits := by
  induction bs generalizing p body with
  | nil =>
      cases h
      exact hp
  | cons c bs ih =>
      rcases scan_cons h with ⟨p', isBody, b, htick, hscan, -⟩ | ⟨-, -, -, -, hover⟩
      · rcases tick_waits hp htick with hwaits | ⟨-, hnotices, -⟩
        · exact ih hwaits.waits hscan
        · nomatch hnotices
      · nomatch hover

end Suil.Http.HttpParser
