import Suil.Http.WebSockFrame
import Suil.Lib.AssocMap
import Suil.Lib.StepMachine

set_option autoImplicit false

/-! # WebSocket sessions

`WebSock::handle` runs a session (`wsock.cpp`): it enters the socket in the map of its API, goes
through the frames of the peer, and takes the socket out again behind the loop. An exception leaves
the function at once. The sessions of an API are coroutines, which take turns in any order; a turn is
what a session does from one test of the loop condition to the next. `sound_iff` says for which runs
the messages and the count are right. -/

namespace Suil.Http.WebSock

/-- A frame, with its payload unmasked. -/
structure Frame where
  header : Header
  payload : Bytes

def Frame.opcode (f : Frame) : UInt8 := f.header.opcode

/-- `buf[i] ^= h.v_mask[i % WS_MASK_LEN]`. -/
def unmask (v_mask data : Bytes) : Bytes :=
  data.mapIdx fun i c => c ^^^ v_mask.getD (i % 4) 0

/-- How `receive_frame` ends; with `overrun` bytes are written behind the memory of the buffer. -/
inductive Received where
  | failed
  | threw
  | overrun
  | frame (f : Frame) (rest : Bytes)

/-- `receive_frame` into the cleared buffer; `reserved` says whether `b.reserve` returns. Of a payload
that does not come as a whole the socket stores what there is. -/
def receive_frame (reserved : Bool) (s : Bytes) : Received :=
  match prepare reserved cleared.toOBuffer s with
  | .rejected => .failed
  | .threw => .threw
  | .ready h b s =>
      if (b.mem.getD []).length < min h.payload_size s.length then .overrun
      else
        match receive h.payload_size s with
        | none => .failed
        | some (data, s) => .frame ⟨h, unmask h.v_mask data⟩ s

/-- Which of the handlers of a `WebSockApi` are set. -/
structure Handlers where
  onConnect : Bool
  onMessage : Bool
  onClose : Bool

/-- A session: the name of its socket, what the peer still sends before it disconnects, whether the
call of `handle` is between its first and its last access to the map, whether it has written behind
its buffer, the frames that were received and the calls of `onMessage`. -/
structure Session where
  key : Bytes
  input : Bytes
  end_session : Bool
  live : Bool
  overrun : Bool
  received : List Frame
  messages : List (UInt8 × Bytes)

/-- A `WebSockApi` and all of the sessions that it has had. The map has the sessions by their
numbers. -/
structure Api where
  websocks : List (Bytes × Nat)
  nsocks : Nat
  sessions : List Session

/-- What a turn meets: whether the socket is open, and whether what is called returns: `b.reserve`,
and then a handler or `send`. -/
structure Turn where
  isopen : Bool
  reserved : Bool
  returns : Bool

namespace Session

/-- The part of the `switch` that `TEXT` and `BINARY` have. -/
def deliver (h : Handlers) (t : Turn) (f : Frame) (x : Session) : Session :=
  if h.onMessage then
    { x with messages := x.messages ++ [(f.opcode, f.payload)], live := t.returns }
  else x

/-- The `switch`. -/
def dispatch (h : Handlers) (t : Turn) (f : Frame) (x : Session) : Session :=
  if f.opcode = WsOp.PONG.code ∨ f.opcode = WsOp.CONT.code then
    -- there is no `break` here
    deliver h t f { x with end_session := true }
  else if f.opcode = WsOp.TEXT.code ∨ f.opcode = WsOp.BINARY.code then deliver h t f x
  else if f.opcode = WsOp.CLOSE.code then
    if h.onClose then { x with end_session := true, live := t.returns }
    else { x with end_session := true }
  else if f.opcode = WsOp.PING.code then { x with live := t.returns }
  else { x with end_session := true }

/-- The body of the loop. -/
def body (h : Handlers) (t : Turn) (x : Session) : Session :=
  match receive_frame t.reserved x.input with
  | .failed => { x with end_session := true }
  | .threw => { x with live := false }
  | .overrun => { x with overrun := true }
  | .frame f rest => dispatch h t f { x with input := rest, received := x.received ++ [f] }

end Session

/-- A new connection, which `onConnect` may not want, or the turn of a session. -/
inductive Act where
  | connect (key input : Bytes) (accepted : Bool)
  | turn (i : Nat) (t : Turn)

/-- `api.websocks.emplace(key, *this)`. -/
def emplace (m : List (Bytes × Nat)) (key : Bytes) (i : Nat) : List (Bytes × Nat) :=
  AssocMap.emplace (fun a b => a == b) m key i

/-- `api.websocks.erase(key)`. -/
def erase (m : List (Bytes × Nat)) (key : Bytes) : List (Bytes × Nat) := m.filter (·.1 ≠ key)

/-- The session of a new connection. -/
def Session.new (key input : Bytes) : Session := ⟨key, input, false, true, false, [], []⟩

/-- One turn; there is none for a session that is over, and none behind an overrun. -/
def step (h : Handlers) (s : Api) : Act → Option Api
  | .connect key input accepted =>
      if s.sessions.any Session.overrun then none
      else if h.onConnect ∧ !accepted then some s
      else some { websocks := emplace s.websocks key s.sessions.length, nsocks := s.nsocks + 1,
                  sessions := s.sessions ++ [.new key input] }
  | .turn i t =>
      match s.sessions[i]? with
      | none => none
      | some x =>
          if !x.live ∨ s.sessions.any Session.overrun then none
          else if x.end_session ∨ !t.isopen then
            some { websocks := erase s.websocks x.key, nsocks := s.nsocks - 1,
                   sessions := s.sessions.set i { x with live := false } }
          else some { s with sessions := s.sessions.set i (x.body h t) }

def Api.new : Api := ⟨[], 0, []⟩

/-! ## Messages, close frames and the count -/

/-- The frames that are messages. -/
def Frame.isMessage (f : Frame) : Bool :=
  f.opcode = WsOp.TEXT.code || f.opcode = WsOp.BINARY.code

/-- What `onMessage` should be called with for some frames. -/
def messagesOf (h : Handlers) (fs : List Frame) : List (UInt8 × Bytes) :=
  if h.onMessage then (fs.filter Frame.isMessage).map fun f => (f.opcode, f.payload) else []

/-- The handler is called for the messages, in order; nothing comes after a close frame. The map has
no session that is over, and the count is the number of those that are not. No session writes outside
of its memory. -/
structure Sound (h : Handlers) (s : Api) : Prop where
  inside : ∀ x ∈ s.sessions, x.overrun = false
  delivered : ∀ x ∈ s.sessions, x.messages = messagesOf h x.received
  closed : ∀ x ∈ s.sessions, ∀ f ∈ x.received.dropLast, f.opcode ≠ WsOp.CLOSE.code
  removed : ∀ e ∈ s.websocks, ∃ x, s.sessions[e.2]? = some x ∧ x.live = true
  counted : s.nsocks = s.sessions.countP Session.live

/-- Something is called for a frame with this opcode. -/
def calls (h : Handlers) (f : Frame) : Bool :=
  h.onMessage && f.isMessage || h.onClose && f.opcode = WsOp.CLOSE.code ||
    f.opcode = WsOp.PING.code

/-- A turn of the loop without an exception and without an overrun, in which no `PONG` or `CONT` comes to
a handler for messages. -/
def Fine (h : Handlers) (t : Turn) (x : Session) : Prop :=
  match receive_frame t.reserved x.input with
  | .failed => True
  | .threw | .overrun => False
  | .frame f _ =>
      (h.onMessage → f.opcode ≠ WsOp.PONG.code ∧ f.opcode ≠ WsOp.CONT.code) ∧
        (calls h f → t.returns)

def Meets (h : Handlers) (s : Api) : Act → Prop
  | .connect _ _ _ => True
  | .turn i t => ∀ x ∈ s.sessions[i]?, x.live → ¬ x.end_session → t.isopen → Fine h t x

/-! ## One frame -/

/-- No frame of less than `2 ^ 32 - 9` bytes is written behind its memory. -/
theorem not_overrun_of_lt {s : Bytes}
    (hlt : ∀ h ∈ (receive_opcode s).map Prod.fst, h.payload_size < 2 ^ 32 - 9) (reserved : Bool) :
    receive_frame reserved s ≠ .overrun := by
  have hsafe := (frameSafe_iff reserved cleared s).mpr fun _ => (affordable_cleared_iff s).mpr hlt
  rw [FrameSafe] at hsafe
  rw [receive_frame]
  cases hprepare : prepare reserved cleared.toOBuffer s with
  | rejected => exact fun h => by cases h
  | threw => exact fun h => by cases h
  | ready h b rest =>
      rw [hprepare] at hsafe
      have hroom := hsafe.1
      dsimp only
      rw [if_neg (by omega)]
      cases receive h.payload_size rest with
      | none => exact fun h => by cases h
      | some p => exact fun h => by cases h

/-! ## One session -/

/-- Nothing is written outside, the messages are right, and a close frame is the last one. -/
structure SessionInv (h : Handlers) (x : Session) : Prop where
  inside : x.overrun = false
  delivered : x.messages = messagesOf h x.received
  closed : ∀ f ∈ x.received.dropLast, f.opcode ≠ WsOp.CLOSE.code
  ended : ∀ f ∈ x.received, f.opcode = WsOp.CLOSE.code → x.end_session

theorem messagesOf_concat (h : Handlers) (fs : List Frame) (f : Frame) :
    messagesOf h (fs ++ [f]) = messagesOf h fs ++
      if h.onMessage ∧ f.isMessage then [(f.opcode, f.payload)] else [] := by
  rw [messagesOf, messagesOf, List.filter_append, List.filter_singleton]
  cases h.onMessage <;> cases f.isMessage <;> simp

/-- A frame that falls through to the messages. -/
def fallsThrough (f : Frame) : Bool := f.opcode = WsOp.PONG.code || f.opcode = WsOp.CONT.code

theorem fallsThrough_eq_false {f : Frame} :
    fallsThrough f = false ↔ f.opcode ≠ WsOp.PONG.code ∧ f.opcode ≠ WsOp.CONT.code := by
  rw [fallsThrough, Bool.or_eq_false_iff, decide_eq_false_iff_not, decide_eq_false_iff_not]

/-- What the `switch` does to a session. -/
structure Dispatched (h : Handlers) (t : Turn) (f : Frame) (x x' : Session) : Prop where
  key : x'.key = x.key
  overrun : x'.overrun = x.overrun
  received : x'.received = x.received
  messages : x'.messages = x.messages ++
    if h.onMessage ∧ (f.isMessage ∨ fallsThrough f) then [(f.opcode, f.payload)] else []
  live : x'.live = if calls h f ∨ h.onMessage ∧ fallsThrough f then t.returns else x.live
  stays : x.end_session → x'.end_session
  closes : f.opcode = WsOp.CLOSE.code → x'.end_session

private theorem dispatch_spec (h : Handlers) (t : Turn) (f : Frame) (x : Session) :
    Dispatched h t f x (x.dispatch h t f) := by
  rw [Session.dispatch]
  split_ifs with hfall hmessage hclose honClose hping
  · -- PONG, CONT
    have hnot : f.isMessage = false ∧ f.opcode ≠ WsOp.CLOSE.code ∧ f.opcode ≠ WsOp.PING.code := by
      rw [Frame.isMessage]
      rcases hfall with hop | hop <;> rw [hop] <;> decide
    have hthrough : fallsThrough f = true := by
      rw [fallsThrough]
      rcases hfall with hop | hop <;> rw [hop] <;> decide
    rw [Session.deliver]
    constructor <;> cases hm : h.onMessage <;> simp [calls, hnot, hthrough, hm]
  · -- TEXT, BINARY
    have his : f.isMessage = true := by
      rw [Frame.isMessage]
      rcases hmessage with hop | hop <;> rw [hop] <;> decide
    have hnot : f.opcode ≠ WsOp.CLOSE.code ∧ f.opcode ≠ WsOp.PING.code ∧ fallsThrough f = false := by
      rw [fallsThrough]
      rcases hmessage with hop | hop <;> rw [hop] <;> decide
    rw [Session.deliver]
    constructor <;> cases hm : h.onMessage <;> simp [calls, his, hnot, hm]
  all_goals
    have hnot : f.isMessage = false ∧ fallsThrough f = false := by
      rw [Frame.isMessage, fallsThrough]
      simpa using ⟨not_or.mp hmessage, not_or.mp hfall⟩
  · -- CLOSE
    constructor <;> simp [calls, hnot, hclose, honClose]
  · have hping : f.opcode ≠ WsOp.PING.code := by
      rw [hclose]
      decide
    constructor <;> simp [calls, hnot, honClose, hping]
  · -- PING
    have hne : WsOp.PING.code ≠ WsOp.CLOSE.code := by decide
    constructor <;> simp [calls, hnot, hping, hne]
  · constructor <;> simp [calls, hnot, hclose, hping]

/-- A fine turn keeps what is right about a session, and the session goes on. -/
private theorem body_of_fine {h : Handlers} {t : Turn} {x : Session} (hinv : SessionInv h x)
    (hopen : ¬ x.end_session) (hlive : x.live = true) (hfine : Fine h t x) :
    SessionInv h (x.body h t) ∧ (x.body h t).live = true ∧ (x.body h t).key = x.key := by
  rw [Fine] at hfine
  rw [Session.body]
  cases hframe : receive_frame t.reserved x.input with
  | failed => exact ⟨⟨hinv.inside, hinv.delivered, hinv.closed, fun _ _ _ => rfl⟩, hlive, rfl⟩
  | threw =>
      rw [hframe] at hfine
      exact hfine.elim
  | overrun =>
      rw [hframe] at hfine
      exact hfine.elim
  | frame f rest =>
      rw [hframe] at hfine
      dsimp only at hfine ⊢
      obtain ⟨hnot, hreturns⟩ := hfine
      have hspec := dispatch_spec h t f { x with input := rest, received := x.received ++ [f] }
      generalize { x with input := rest, received := x.received ++ [f] }.dispatch h t f = x' at hspec
      -- a fine frame that falls through meets no handler for messages
      have hthrough : h.onMessage → fallsThrough f = false := fun hon =>
        fallsThrough_eq_false.mpr (hnot hon)
      refine ⟨⟨hspec.overrun.trans hinv.inside, ?_, ?_, ?_⟩, ?_, hspec.key⟩
      · rw [hspec.messages, hspec.received, messagesOf_concat, hinv.delivered]
        congr 2
        rw [eq_iff_iff, and_congr_right_iff]
        intro hon
        rw [hthrough hon, Bool.false_eq_true, or_false]
      · -- the frames before this one came to an open session
        rw [hspec.received, List.dropLast_concat]
        exact fun g hg hop => hopen (hinv.ended g hg hop)
      · rw [hspec.received]
        intro g hg hop
        -- a close frame of before had ended the session, and this one ends it now
        rcases List.mem_append.mp hg with hg | hg
        · exact hspec.stays (hinv.ended g hg hop)
        · rw [List.mem_singleton.mp hg] at hop
          exact hspec.closes hop
      · rw [hspec.live]
        split_ifs with hcall
        · rcases hcall with hcall | ⟨hon, hcall⟩
          · exact hreturns hcall
          · rw [hthrough hon] at hcall
            nomatch hcall
        · exact hlive

/-- Any other turn writes outside, ends the session in the middle of the loop or hands out what is no
message. -/
private theorem body_of_not_fine {h : Handlers} {t : Turn} {x : Session} (hinv : SessionInv h x)
    (hfine : ¬ Fine h t x) :
    (x.body h t).overrun = true ∨ (x.body h t).live = false ∨
      (x.body h t).messages ≠ messagesOf h (x.body h t).received := by
  rw [Fine] at hfine
  rw [Session.body]
  cases hframe : receive_frame t.reserved x.input with
  | failed =>
      rw [hframe] at hfine
      exact absurd trivial hfine
  | threw => exact .inr (.inl rfl)
  | overrun => exact .inl rfl
  | frame f rest =>
      rw [hframe] at hfine
      dsimp only at hfine ⊢
      have hspec := dispatch_spec h t f { x with input := rest, received := x.received ++ [f] }
      generalize { x with input := rest, received := x.received ++ [f] }.dispatch h t f = x' at hspec
      refine .inr ?_
      -- a frame that falls through is handed out as a message
      by_cases hthrough : h.onMessage ∧ fallsThrough f
      · right
        rw [hspec.messages, hspec.received, messagesOf_concat, hinv.delivered]
        have hnot : f.isMessage = false := by
          have hop := hthrough.2
          rw [fallsThrough, Bool.or_eq_true, decide_eq_true_iff, decide_eq_true_iff] at hop
          rw [Frame.isMessage]
          rcases hop with hop | hop <;> rw [hop] <;> decide
        rw [if_pos ⟨hthrough.1, .inr hthrough.2⟩, if_neg (by rw [hnot]; simp), List.append_nil]
        exact fun heq => List.cons_ne_nil _ _ (List.append_right_eq_self.mp heq)
      · left
        have hnot : h.onMessage → f.opcode ≠ WsOp.PONG.code ∧ f.opcode ≠ WsOp.CONT.code := fun hon =>
          fallsThrough_eq_false.mp (Bool.eq_false_iff.mpr fun hf => hthrough ⟨hon, hf⟩)
        -- so something is called that does not return
        have hcall : calls h f ∧ t.returns = false := by
          by_contra hall
          refine hfine ⟨hnot, fun hcall => ?_⟩
          rw [← Bool.not_eq_false]
          exact fun hreturns => hall ⟨hcall, hreturns⟩
        rw [hspec.live, if_pos (.inl hcall.1), hcall.2]

/-! ## All sessions of an API -/

/-- The sessions are right, the map has live sessions under their own names, and they are counted. -/
structure Inv (h : Handlers) (s : Api) : Prop where
  each : ∀ x ∈ s.sessions, SessionInv h x
  entries : ∀ e ∈ s.websocks, ∃ x, s.sessions[e.2]? = some x ∧ x.key = e.1 ∧ x.live = true
  counted : s.nsocks = s.sessions.countP Session.live

theorem Inv.new (h : Handlers) : Inv h .new := ⟨nofun, nofun, rfl⟩

theorem Inv.any_overrun {h : Handlers} {s : Api} (hs : Inv h s) :
    s.sessions.any Session.overrun = false :=
  List.any_eq_false.mpr fun x hx => Bool.eq_false_iff.mp (hs.each x hx).inside

theorem Inv.sound {h : Handlers} {s : Api} (hs : Inv h s) : Sound h s where
  inside x hx := (hs.each x hx).inside
  delivered x hx := (hs.each x hx).delivered
  closed x hx := (hs.each x hx).closed
  removed e he := by
    obtain ⟨x, hx, -, hlive⟩ := hs.entries e he
    exact ⟨x, hx, hlive⟩
  counted := hs.counted

/-- The number of live sessions when one of them becomes another. -/
private theorem countP_set_live {l : List Session} {i : Nat} {x : Session} (hi : l[i]? = some x)
    (hlive : x.live = true) (x' : Session) :
    (l.set i x').countP Session.live + 1 =
      l.countP Session.live + if x'.live = true then 1 else 0 := by
  obtain ⟨hlt, hx⟩ := List.getElem?_eq_some_iff.mp hi
  have hpos : 0 < l.countP Session.live :=
    List.countP_pos_iff.mpr ⟨x, List.mem_of_getElem? hi, hlive⟩
  rw [List.countP_set hlt, hx, if_pos hlive]
  omega

/-- A session that the map does not have any more. -/
private theorem Inv.left {h : Handlers} {s : Api} (hs : Inv h s) {i : Nat} {x : Session}
    (hi : s.sessions[i]? = some x) (hlive : x.live = true) :
    Inv h ⟨erase s.websocks x.key, s.nsocks - 1, s.sessions.set i { x with live := false }⟩ where
  each y hy := by
    rcases List.mem_or_eq_of_mem_set hy with hy | rfl
    · exact hs.each y hy
    · have hx := hs.each x (List.mem_of_getElem? hi)
      exact ⟨hx.inside, hx.delivered, hx.closed, hx.ended⟩
  entries e he := by
    obtain ⟨hmem, hkey⟩ := List.mem_filter.mp he
    obtain ⟨y, hy, hykey, hylive⟩ := hs.entries e hmem
    -- the entries of this session have its name
    have hne : i ≠ e.2 := by
      rintro rfl
      rw [hi] at hy
      cases hy
      exact of_decide_eq_true hkey hykey.symm
    exact ⟨y, by rw [List.getElem?_set_ne hne, hy], hykey, hylive⟩
  counted := by
    have hcount := countP_set_live hi hlive { x with live := false }
    rw [if_neg Bool.false_ne_true] at hcount
    dsimp only
    rw [hs.counted]
    omega

private theorem Inv.goes_on {h : Handlers} {s : Api} (hs : Inv h s) {i : Nat} {x x' : Session}
    (hi : s.sessions[i]? = some x) (hlive : x.live = true) (hx' : SessionInv h x')
    (hlive' : x'.live = true) (hkey : x'.key = x.key) :
    Inv h { s with sessions := s.sessions.set i x' } where
  each y hy := by
    rcases List.mem_or_eq_of_mem_set hy with hy | rfl
    · exact hs.each y hy
    · exact hx'
  entries e he := by
    obtain ⟨y, hy, hykey, hylive⟩ := hs.entries e he
    -- its own entries have the same name as before
    by_cases hie : i = e.2
    · subst hie
      rw [hi] at hy
      cases hy
      exact ⟨x', List.getElem?_set_self (List.getElem?_eq_some_iff.mp hi).1, hkey.trans hykey,
        hlive'⟩
    · exact ⟨y, by rw [List.getElem?_set_ne hie, hy], hykey, hylive⟩
  counted := by
    have hcount := countP_set_live hi hlive x'
    rw [if_pos hlive'] at hcount
    dsimp only
    rw [hs.counted]
    omega

private theorem Inv.connect {h : Handlers} {s : Api} (hs : Inv h s) (key input : Bytes) :
    Inv h ⟨emplace s.websocks key s.sessions.length, s.nsocks + 1,
      s.sessions ++ [Session.new key input]⟩ where
  each y hy := by
    rcases List.mem_append.mp hy with hy | hy
    · exact hs.each y hy
    · rw [List.mem_singleton.mp hy]
      exact ⟨rfl, by cases hm : h.onMessage <;> simp [Session.new, messagesOf, hm], nofun, nofun⟩
  entries e he := by
    -- the sessions of before keep their places
    have hold : ∀ e ∈ s.websocks, ∃ x, (s.sessions ++ [Session.new key input])[e.2]? =
        some x ∧ x.key = e.1 ∧ x.live = true := by
      intro e he
      obtain ⟨y, hy, hy'⟩ := hs.entries e he
      exact ⟨y, by rw [List.getElem?_append_left (List.getElem?_eq_some_iff.mp hy).1, hy], hy'⟩
    rw [emplace, AssocMap.emplace] at he
    -- `emplace` keeps an entry of the same name
    split_ifs at he
    · exact hold e he
    · rcases List.mem_append.mp he with he | he
      · exact hold e he
      · rw [List.mem_singleton.mp he]
        exact ⟨_, List.getElem?_concat_length, rfl, rfl⟩
  counted := by
    show s.nsocks + 1 = _
    rw [hs.counted, List.countP_append, List.countP_singleton, Session.new, if_pos rfl]

/-- What one action can do. -/
private theorem step_cases {h : Handlers} {s s' : Api} {a : Act} (hstep : step h s a = some s') :
    s' = s ∨
    (∃ key input, s' = ⟨emplace s.websocks key s.sessions.length, s.nsocks + 1,
      s.sessions ++ [Session.new key input]⟩) ∨
    ∃ i t x, a = .turn i t ∧ s.sessions[i]? = some x ∧ x.live = true ∧
      ((x.end_session ∨ ¬ t.isopen) ∧
          s' = ⟨erase s.websocks x.key, s.nsocks - 1,
            s.sessions.set i { x with live := false }⟩ ∨
        ¬ x.end_session ∧ t.isopen ∧ s' = { s with sessions := s.sessions.set i (x.body h t) }) := by
  -- a connection that is accepted is a new session; a turn needs one that is live
  cases a with
  | connect key input accepted =>
      rw [step] at hstep
      split_ifs at hstep
      · exact .inl (Option.some.inj hstep).symm
      · exact .inr (.inl ⟨key, input, (Option.some.inj hstep).symm⟩)
  | turn i t =>
      rw [step] at hstep
      cases hi : s.sessions[i]? with
      | none =>
          rw [hi] at hstep
          nomatch hstep
      | some x =>
          rw [hi] at hstep
          dsimp only at hstep
          -- the loop is left by a close or by a socket that is not open any more
          split_ifs at hstep with hlive hleft
          · refine .inr (.inr ⟨i, t, x, rfl, hi, by simpa using (not_or.mp hlive).1, .inl ⟨?_, ?_⟩⟩)
            · simpa using hleft
            · exact (Option.some.inj hstep).symm
          · rw [not_or] at hleft
            refine .inr (.inr ⟨i, t, x, rfl, hi, by simpa using (not_or.mp hlive).1, .inr ⟨hleft.1, ?_, ?_⟩⟩)
            · simpa using hleft.2
            · exact (Option.some.inj hstep).symm

private theorem inv_step {h : Handlers} {s s' : Api} {a : Act} (hs : Inv h s) (hm : Meets h s a)
    (hstep : step h s a = some s') : Inv h s' := by
  obtain rfl | ⟨key, input, rfl⟩ | ⟨i, t, x, rfl, hi, hlive, ⟨-, rfl⟩ | ⟨hopen, hsock, rfl⟩⟩ :=
    step_cases hstep
  · exact hs
  · exact hs.connect key input
  · exact hs.left hi hlive
  · obtain ⟨hx', hlive', hkey⟩ := body_of_fine (hs.each x (List.mem_of_getElem? hi)) hopen hlive
      (hm x hi hlive hopen hsock)
    exact hs.goes_on hi hlive hx' hlive' hkey

private theorem not_sound_step {h : Handlers} {s s' : Api} {a : Act} (hs : Inv h s)
    (hm : ¬ Meets h s a) (hstep : step h s a = some s') : ¬ Sound h s' := by
  intro hsound
  cases a with
  | connect key input accepted => exact hm trivial
  | turn i t =>
      apply hm
      intro x hi hlive hopen hsock
      by_contra hfine
      obtain ⟨hlt, -⟩ := List.getElem?_eq_some_iff.mp hi
      -- the session is live and open, so that the turn is one of its loop
      have hs' : s' = { s with sessions := s.sessions.set i (x.body h t) } := by
        rw [step, show s.sessions[i]? = some x from hi] at hstep
        dsimp only at hstep
        rw [if_neg (by simp [hlive, hs.any_overrun]), if_neg (by simp [hopen, hsock])] at hstep
        exact (Option.some.inj hstep).symm
      rw [hs'] at hsound
      rcases body_of_not_fine (hs.each x (List.mem_of_getElem? hi)) hfine with
        hover | hdead | hmessages
      · rw [hsound.inside _ (List.mem_set hlt _)] at hover
        nomatch hover
      · -- the session is still counted
        have hcount := countP_set_live hi hlive (x.body h t)
        rw [if_neg (by rw [hdead]; exact Bool.false_ne_true)] at hcount
        have hcounted := hsound.counted
        dsimp only at hcounted
        rw [hs.counted] at hcounted
        omega
      · exact hmessages (hsound.delivered _ (List.mem_set hlt _))

/-- **The sessions are right along a run exactly when no turn writes behind its buffer, ends in an
exception or hands a `PONG` or a `CONT` to the handler.** -/
theorem sound_iff (h : Handlers) (as : List Act) :
    (∀ s ∈ StepMachine.visited (step h) .new as, Sound h s) ↔
      ∀ p ∈ StepMachine.inputs (step h) .new as, Meets h p.1 p.2 := by
  apply StepMachine.forall_visited_iff (I := Inv h) (fun s hs => hs.sound)
  · intro s a hs hnone
    cases a with
    | connect key input accepted => trivial
    | turn i t =>
        intro x hi hlive hopen hsock
        rw [step, show s.sessions[i]? = some x from hi] at hnone
        dsimp only at hnone
        rw [if_neg (by simp [hlive, hs.any_overrun]), if_neg (by simp [hopen, hsock])] at hnone
        nomatch hnone
  · exact fun s a s' hs hm hstep => inv_step hs hm hstep
  · exact fun s a s' hs hm hstep => not_sound_step hs hm hstep
  · exact Inv.new h

/-- An empty `PONG` is given to the handler for messages. -/
theorem not_sound_pong : ¬ ∀ (h : Handlers) (as : List Act),
    ∀ s ∈ StepMachine.visited (step h) .new as, Sound h s := by
  intro hall
  let h : Handlers := ⟨false, true, false⟩
  let as : List Act := [.connect (str "127.0.0.1::80") [0x8A, 0x80, 0, 0, 0, 0] true,
    .turn 0 ⟨true, true, true⟩]
  have hany : (StepMachine.visited (step h) .new as).any (fun s => s.sessions.any fun x =>
      x.messages ≠ messagesOf h x.received) = true := by decide
  obtain ⟨s, hs, hany⟩ := List.any_eq_true.mp hany
  obtain ⟨x, hx, hne⟩ := List.any_eq_true.mp hany
  exact of_decide_eq_true hne ((hall h as s hs).delivered x hx)

end Suil.Http.WebSock
