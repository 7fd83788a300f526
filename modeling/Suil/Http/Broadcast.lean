import Suil.Http.WebSock
import Suil.Lib.StepMachine

set_option autoImplicit false

/-! # Web sockets whose sockets take a part

`WebSock::send` writes a frame in two calls of the socket, and a broadcast makes a frame of its own and
writes it to the other sockets of an API (`wsock.cpp`). Here a socket takes what a list of results says,
each byte with its place, so that one that is sent again is not taken for another; the coroutines of a
broadcast have their turns in any order. `broadcasts_iff` says when each byte is sent once. -/

namespace Suil.Http.WebSockApi

open WebSock (WsOp sendHeader frameHeader USHRT_MAX)
open LittleEndian

/-! ## Sockets and coroutines -/

/-- A socket: whether it is open, whether the session ends, and how much the calls to come will take. Then
what has been taken, each byte with its place in what has been passed, and whether a call has taken nothing
of what there was. -/
structure Sock where
  isopen : Bool
  end_session : Bool
  results : List Nat
  out : List (UInt8 × Nat)
  lost : Bool

/-- `sock.send(data, len)`. A socket without results takes nothing. -/
def Sock.send (s : Sock) (data : Bytes) : Nat × Sock :=
  if s.isopen then
    let n := min (s.results.headD 0) data.length
    (n, { s with
      results := s.results.tail
      out := s.out ++ data.zipIdx.take n
      lost := s.lost || decide (n = 0 ∧ data ≠ []) })
  else (0, s)

/-- `WebSock::send`. -/
def send (s : Sock) (data : Bytes) (op : WsOp) : Bool × Sock :=
  if s.end_session then (false, s)
  else
    let hbuf := sendHeader data.length op
    let (n, s) := s.send hbuf
    if n ≠ hbuf.length then (false, s)
    else
      let (n, s) := s.send data
      (decide (n = data.length), s)

/-- Where a coroutine is: it has nothing to do, or is in the loop of `bsend`, or has returned. -/
inductive Progress where
  | idle
  | sending (tsent : Nat)
  | returned (result : Bool)

structure Coroutine where
  sock : Sock
  progress : Progress

/-- `WebSock::bsend`, up to the loop. -/
def bsend (s : Sock) : Coroutine := ⟨s, if s.isopen then .sending 0 else .returned false⟩

/-- The body of the loop: what is passed is `data`, in every round. -/
def Coroutine.step (data : Bytes) (c : Coroutine) : Coroutine :=
  match c.progress with
  | .sending tsent =>
      let (nsent, s) := c.sock.send data
      if nsent = 0 then ⟨s, .returned false⟩
      else if tsent + nsent < data.length then ⟨s, .sending (tsent + nsent)⟩
      else ⟨s, .returned true⟩
  | _ => c

/-- The `WebSockApi` of a worker, with its sockets and where they are in its memory. -/
structure Api where
  websocks : List (Nat × Sock)
  nsocks : Nat
  counted : nsocks = websocks.length

/-- `WebSockApi::broadcast`, up to where it waits for the coroutines. -/
def Api.broadcast (api : Api) (src : Nat) (payload : Bytes) : List Coroutine :=
  api.websocks.map fun ws =>
    if ws.1 ≠ src then
      if api.websocks.length = 1 then
        let (result, s) := send ws.2 payload .BINARY
        ⟨s, .returned result⟩
      else bsend ws.2
    else ⟨ws.2, .idle⟩

/-- The frame that `WebSock::broadcast` makes: it has the header of `send`. -/
def payload (data : Bytes) (op : WsOp) : Bytes := sendHeader data.length op ++ data

/-- `WebSock::broadcast`. -/
def broadcast (api : Api) (src : Nat) (data : Bytes) (op : WsOp) : List Coroutine :=
  if 0 < api.nsocks then api.broadcast src (payload data op) else []

/-- The sockets of all workers after a broadcast of the socket `src` of the worker `w`, when the coroutines
have had these turns. Nothing is sent to the other workers. -/
def sockets (apis : List Api) (w src : Nat) (data : Bytes) (op : WsOp) (turns : List Nat) :
    List (List Coroutine) :=
  apis.mapIdx fun v api =>
    if v = w then
      StepMachine.turns (Coroutine.step (payload data op)) turns (broadcast api src data op)
    else api.websocks.map fun ws => ⟨ws.2, .idle⟩

/-! ## Bytes that are sent once -/

def Sock.Connected (s : Sock) : Prop := s.isopen = true ∧ s.lost = false

/-- The bytes are taken once and in order, and all of them unless the socket fails. -/
def Once (s s' : Sock) (bytes : List (UInt8 × Nat)) : Prop :=
  ∃ taken, s'.out = s.out ++ taken ∧ taken <+: bytes ∧ (s'.lost = false → taken = bytes)

/-- `send` sends the header and the payload, unless the session ends. -/
def Sends (s : Sock) (data : Bytes) (op : WsOp) : Prop :=
  s.Connected → s.end_session = false →
    Once s (send s data op).2 ((sendHeader data.length op).zipIdx ++ data.zipIdx)

/-- A coroutine that has no turn any more. -/
def Coroutine.Ended (c : Coroutine) : Prop := ∀ tsent, c.progress ≠ .sending tsent

/-- `bsend` returns, and sends what it is given. -/
def Bsends (s : Sock) (data : Bytes) : Prop :=
  s.Connected → ∃ k, ((Coroutine.step data)^[k] (bsend s)).Ended ∧
    Once s ((Coroutine.step data)^[k] (bsend s)).sock data.zipIdx

/-- However the coroutines have had their turns, nothing is sent to the sender, and every other socket gets
one frame with the message, in the layout of the protocol. -/
def Delivers (apis : List Api) (w src : Nat) (data : Bytes) (op : WsOp) : Prop :=
  ∀ turns, (∀ cs ∈ sockets apis w src data op turns, ∀ c ∈ cs, c.Ended) →
    ∀ (v : Nat) (api : Api) (i : Nat) (ws : Nat × Sock), apis[v]? = some api →
      api.websocks[i]? = some ws →
      ∃ cs c, (sockets apis w src data op turns)[v]? = some cs ∧ cs[i]? = some c ∧
        if v = w ∧ ws.1 = src then c.sock.out = ws.2.out
        else ws.2.Connected → Once ws.2 c.sock (frameHeader data.length op ++ data).zipIdx

/-! ## What a socket may take -/

/-- What the first and the second call can take. -/
def Sock.first (s : Sock) : Nat := s.results.headD 0

def Sock.second (s : Sock) : Nat := s.results.tail.headD 0

/-- A call takes all or nothing. -/
def AllOrNothing (n len : Nat) : Prop := n = 0 ∨ len ≤ n

/-- The length of the header of a frame. -/
def hlen (size : Nat) : Nat := if size ≤ 125 then 2 else if size < USHRT_MAX then 4 else 10

/-- So many bytes of a frame are laid out as they should be: the length has seven bits, or reads the same in
both directions, or the bytes end before it matters. -/
def Laid (size n : Nat) : Prop :=
  size ≤ 125 ∨ n ≤ 1 ∨
    if size < USHRT_MAX then (leBytes 2 size).take (n - 2) <+: (leBytes 2 size).reverse
    else size ≠ USHRT_MAX ∧ (leBytes 8 size).take (n - 2) <+: (leBytes 8 size).reverse

/-- The only socket takes nothing; another one takes the frame with the first call or fails with one of the
first two, and what it takes is laid out as it should be. -/
def Served (api : Api) (data : Bytes) (s : Sock) : Prop :=
  if api.websocks.length = 1 then s.end_session = false ∧ s.first = 0
  else (AllOrNothing s.first (hlen data.length + data.length) ∨ s.second = 0) ∧ Laid data.length s.first

/-- Each connected socket but the sender is one of the same worker and is served. -/
def Reached (apis : List Api) (w src : Nat) (data : Bytes) : Prop :=
  ∀ (v : Nat) (api : Api) (ws : Nat × Sock), apis[v]? = some api → ws ∈ api.websocks →
    ¬ (v = w ∧ ws.1 = src) → ws.2.Connected → v = w ∧ Served api data ws.2

/-! ## Bytes with their places -/

theorem zipIdx_prefix_iff {l m : Bytes} : l.zipIdx <+: m.zipIdx ↔ l <+: m := by
  constructor
  · intro h
    have hfst := h.map Prod.fst
    rwa [List.zipIdx_map_fst, List.zipIdx_map_fst] at hfst
  · rintro ⟨rest, rfl⟩
    rw [List.zipIdx_append]
    exact List.prefix_append _ _

theorem zipIdx_take (l : Bytes) (n : Nat) : l.zipIdx.take n = (l.take n).zipIdx := by
  have h : (l.take n).zipIdx <+: l.zipIdx := zipIdx_prefix_iff.mpr (List.take_prefix n l)
  rw [List.prefix_iff_eq_take.mp h, List.length_zipIdx, List.length_take]
  rcases Nat.le_total n l.length with hle | hle
  · rw [Nat.min_eq_left hle]
  · rw [Nat.min_eq_right hle, List.take_of_length_le (by rw [List.length_zipIdx]; exact hle),
      List.take_of_length_le (Nat.le_of_eq List.length_zipIdx)]

theorem zipIdx_inj {l m : Bytes} : l.zipIdx = m.zipIdx ↔ l = m := by
  refine ⟨fun h => ?_, fun h => congrArg List.zipIdx h⟩
  rw [← List.zipIdx_map_fst 0 l, h, List.zipIdx_map_fst]

/-- Behind some bytes of a text there is not the first byte of another one. -/
theorem not_prefix_again {l m : Bytes} (hl : l ≠ []) (b : UInt8) (rest : List (UInt8 × Nat)) :
    ¬ l.zipIdx ++ (b, 0) :: rest <+: m.zipIdx := by
  rintro ⟨t, ht⟩
  have hplace := congrArg (fun k => k[l.length]?) ht
  simp only [List.append_assoc, List.getElem?_zipIdx] at hplace
  rw [List.getElem?_append_right (Nat.le_of_eq List.length_zipIdx), List.length_zipIdx, Nat.sub_self]
    at hplace
  have hpos := List.length_pos_iff.mpr hl
  cases hm : m[l.length]? with
  | none =>
      rw [hm] at hplace
      nomatch hplace
  | some c =>
      rw [hm] at hplace
      have hzero : 0 = 0 + l.length := congrArg Prod.snd (Option.some.inj hplace)
      omega

/-! ## Single calls -/

variable {s : Sock}

/-- A call of a connected socket. -/
theorem send_spec (hs : s.Connected) (data : Bytes) :
    (s.send data).1 = min s.first data.length ∧ (s.send data).2.isopen = true ∧
      (s.send data).2.end_session = s.end_session ∧
      (s.send data).2.results = s.results.tail ∧
      (s.send data).2.out = s.out ++ (data.take s.first).zipIdx ∧
      ((s.send data).2.lost = false ↔ s.first ≠ 0 ∨ data = []) := by
  obtain ⟨hopen, hlost⟩ := hs
  rw [Sock.send, if_pos hopen]
  refine ⟨rfl, hopen, rfl, rfl, ?_, ?_⟩
  · show s.out ++ data.zipIdx.take (min s.first data.length) = _
    rw [← zipIdx_take]
    rcases Nat.le_total s.first data.length with hle | hle
    · rw [Nat.min_eq_left hle]
    · rw [Nat.min_eq_right hle, List.take_of_length_le (Nat.le_of_eq List.length_zipIdx),
        List.take_of_length_le (by rw [List.length_zipIdx]; exact hle)]
  · show (s.lost || decide (min s.first data.length = 0 ∧ data ≠ [])) = false ↔ _
    rw [hlost, Bool.false_or, decide_eq_false_iff_not]
    constructor
    · intro h
      by_contra hcon
      obtain ⟨hzero, hne⟩ := not_or.mp hcon
      rw [not_not] at hzero
      exact h ⟨by rw [hzero, Nat.zero_min], hne⟩
    · rintro (hpos | rfl) ⟨hmin, hne⟩
      · have hlen := List.length_pos_iff.mpr hne
        omega
      · exact hne rfl

/-! ## Coroutines -/

variable {data : Bytes}

theorem ended_idle (s : Sock) : Coroutine.Ended ⟨s, .idle⟩ := nofun

theorem ended_returned (s : Sock) (result : Bool) : Coroutine.Ended ⟨s, .returned result⟩ := nofun

theorem Coroutine.step_of_ended {c : Coroutine} (h : c.Ended) : c.step data = c := by
  rw [Coroutine.step]
  cases hp : c.progress with
  | idle => rfl
  | sending tsent => exact absurd hp (h tsent)
  | returned result => rfl

theorem Coroutine.iterate_of_ended {c : Coroutine} (h : c.Ended) (k : Nat) :
    (Coroutine.step data)^[k] c = c :=
  Function.iterate_fixed (Coroutine.step_of_ended h) k

/-- A round of a coroutine whose socket is connected. -/
theorem step_sending (hs : s.Connected) (tsent : Nat) (hne : data ≠ []) :
    Coroutine.step data ⟨s, .sending tsent⟩ = ⟨(s.send data).2,
      if s.first = 0 then .returned false
      else if tsent + s.first < data.length then .sending (tsent + s.first)
      else .returned true⟩ := by
  have hfst := (send_spec hs data).1
  have hlen := List.length_pos_iff.mpr hne
  have hstep : Coroutine.step data ⟨s, .sending tsent⟩ =
      if (s.send data).1 = 0 then ⟨(s.send data).2, .returned false⟩
      else if tsent + (s.send data).1 < data.length then
        ⟨(s.send data).2, .sending (tsent + (s.send data).1)⟩
      else ⟨(s.send data).2, .returned true⟩ := rfl
  rw [hstep, hfst]
  by_cases hzero : s.first = 0
  · rw [if_pos (by omega), if_pos hzero]
  rw [if_neg (by omega), if_neg hzero]
  by_cases hlt : tsent + s.first < data.length
  · have hmin : min s.first data.length = s.first := by omega
    rw [hmin, if_pos hlt, if_pos hlt]
  · rw [if_neg (by omega), if_neg hlt]

/-- What is out stays out. -/
theorem out_prefix_send (s : Sock) (data : Bytes) : s.out <+: (s.send data).2.out := by
  rw [Sock.send]
  split_ifs
  · exact List.prefix_append _ _
  · exact List.prefix_rfl

theorem out_prefix_step (c : Coroutine) : c.sock.out <+: (c.step data).sock.out := by
  rw [Coroutine.step]
  cases c.progress with
  | idle => exact List.prefix_rfl
  | returned result => exact List.prefix_rfl
  | sending tsent =>
      dsimp only
      split_ifs
      · exact out_prefix_send _ _
      · exact out_prefix_send _ _
      · exact out_prefix_send _ _

theorem out_prefix_iterate (data : Bytes) (c : Coroutine) (k : Nat) :
    c.sock.out <+: ((Coroutine.step data)^[k] c).sock.out := by
  induction k with
  | zero => exact List.prefix_rfl
  | succ k ih =>
      rw [Function.iterate_succ_apply']
      exact ih.trans (out_prefix_step _)

/-- **A coroutine ends**: with each round but the last one there is less to be sent. -/
theorem ended_iterate {n : Nat} {c : Coroutine}
    (h : ∀ tsent, c.progress = .sending tsent → 0 < n ∧ data.length < tsent + n) :
    ((Coroutine.step data)^[n] c).Ended := by
  induction n generalizing c with
  | zero => exact fun tsent hp => absurd (h tsent hp).1 (Nat.lt_irrefl 0)
  | succ n ih =>
      rw [Function.iterate_succ_apply]
      refine ih fun tsent' hp' => ?_
      obtain ⟨sock, progress⟩ := c
      rw [Coroutine.step] at hp'
      cases progress with
      | idle => nomatch hp'
      | returned result => nomatch hp'
      | sending tsent =>
          have hlt := (h tsent rfl).2
          dsimp only at hp'
          split_ifs at hp' with hzero hmore
          · have hnext := Progress.sending.inj hp'
            omega

theorem ended_bsend (s : Sock) (data : Bytes) {k : Nat} (hk : data.length < k) :
    ((Coroutine.step data)^[k] (bsend s)).Ended := by
  refine ended_iterate fun tsent hp => ?_
  rw [bsend] at hp
  dsimp only at hp
  split_ifs at hp
  cases hp
  omega

/-- **What `bsend` sends**: the first call has to take all or nothing, or the second one fails, and what the
first call takes has to be right. -/
theorem once_bsend_iff (hs : s.Connected) (hne : data ≠ []) {k : Nat}
    (hend : ((Coroutine.step data)^[k] (bsend s)).Ended) (bytes : Bytes) :
    Once s ((Coroutine.step data)^[k] (bsend s)).sock bytes.zipIdx ↔
      (AllOrNothing s.first data.length ∨ s.second = 0) ∧ data.take s.first <+: bytes ∧
        (data.length ≤ s.first → data = bytes) := by
  have hlen := List.length_pos_iff.mpr hne
  have hstart : bsend s = ⟨s, .sending 0⟩ := by rw [bsend, if_pos hs.1]
  obtain ⟨-, hopen, -, hresults, hout, hlost⟩ := send_spec hs data
  obtain ⟨k, rfl⟩ : ∃ j, k = j + 1 := by
    cases k with
    | zero => exact absurd (congrArg Coroutine.progress hstart) (hend 0)
    | succ k => exact ⟨k, rfl⟩
  rw [Function.iterate_succ_apply, hstart, step_sending hs 0 hne, Nat.zero_add] at hend ⊢
  by_cases hzero : s.first = 0
  · -- the first call takes nothing
    rw [if_pos hzero, Coroutine.iterate_of_ended (ended_returned _ _)]
    refine iff_of_true ⟨[], ?_, List.nil_prefix, fun h => ?_⟩ ⟨.inl (.inl hzero), ?_, fun h => ?_⟩
    · rw [hout, hzero, List.take_zero]
      rfl
    · exact absurd hzero ((hlost.mp h).resolve_right hne)
    · rw [hzero, List.take_zero]
      exact List.nil_prefix
    · omega
  rw [if_neg hzero] at hend ⊢
  have hkept := hlost.mpr (.inl hzero)
  by_cases hall : data.length ≤ s.first
  · -- it takes all
    rw [if_neg (Nat.not_lt_of_le hall), Coroutine.iterate_of_ended (ended_returned _ _)]
    rw [List.take_of_length_le hall] at hout ⊢
    constructor
    · rintro ⟨taken, htaken, -, heq⟩
      rw [heq hkept, hout] at htaken
      have hsame := zipIdx_inj.mp (List.append_cancel_left htaken)
      exact ⟨.inl (.inr hall), hsame ▸ List.prefix_rfl, fun _ => hsame⟩
    · rintro ⟨-, -, hsame⟩
      rw [hsame hall] at hout ⊢
      exact ⟨_, hout, List.prefix_rfl, fun _ => rfl⟩
  -- it takes a part, and the second call starts again
  have hpart := Nat.lt_of_not_le hall
  rw [if_pos hpart] at hend ⊢
  have hs' : (s.send data).2.Connected := ⟨hopen, hkept⟩
  have hsecond : (s.send data).2.first = s.second := congrArg (fun l => List.headD l 0) hresults
  obtain ⟨-, -, -, -, hout', hlost'⟩ := send_spec hs' data
  obtain ⟨k, rfl⟩ : ∃ j, k = j + 1 := by
    cases k with
    | zero => exact absurd rfl (hend s.first)
    | succ k => exact ⟨k, rfl⟩
  rw [Function.iterate_succ_apply, step_sending hs' s.first hne, hsecond] at hend ⊢
  rw [hsecond, hout, List.append_assoc] at hout'
  rw [hsecond] at hlost'
  by_cases hzero' : s.second = 0
  · rw [if_pos hzero', Coroutine.iterate_of_ended (ended_returned _ _)]
    have htake : ((s.send data).2.send data).2.out = s.out ++ (data.take s.first).zipIdx := by
      rw [hout', hzero', List.take_zero, List.zipIdx_nil, List.append_nil]
    constructor
    · rintro ⟨taken, htaken, hprefix, -⟩
      rw [htake] at htaken
      rw [← List.append_cancel_left htaken, zipIdx_prefix_iff] at hprefix
      exact ⟨.inr hzero', hprefix, fun h => absurd h hall⟩
    · rintro ⟨-, hprefix, -⟩
      refine ⟨_, htake, zipIdx_prefix_iff.mpr hprefix, fun h => ?_⟩
      exact absurd hzero' ((hlost'.mp h).resolve_right hne)
  · refine iff_of_false ?_ ?_
    · rintro ⟨taken, htaken, hprefix, -⟩
      -- what has been taken has the first byte twice
      have hafter := out_prefix_iterate data
        ⟨((s.send data).2.send data).2, if s.second = 0 then .returned false
          else if s.first + s.second < data.length then .sending (s.first + s.second)
          else .returned true⟩ k
      rw [htaken, hout', List.prefix_append_right_inj] at hafter
      have htwice := hafter.trans hprefix
      obtain ⟨b, rest, hdata⟩ := List.exists_cons_of_ne_nil hne
      obtain ⟨n, hn⟩ := Nat.exists_eq_succ_of_ne_zero hzero'
      have hagain : (data.take s.second).zipIdx = (b, 0) :: (rest.take n).zipIdx 1 := by
        rw [hdata, hn]
        rfl
      rw [hagain] at htwice
      refine not_prefix_again (fun h => ?_) b _ htwice
      rw [List.take_eq_nil_iff] at h
      exact h.elim hzero hne
    · rintro ⟨h, -⟩
      rcases h with (h | h) | h
      · exact hzero h
      · exact hall h
      · exact hzero' h

/-! ## Headers -/

theorem sendHeader_eq (size : Nat) (op : WsOp) : sendHeader size op = (0x80 ||| op.code) ::
    if size ≤ 125 then [UInt8.ofNat size]
    else if size < USHRT_MAX then 126 :: leBytes 2 size
    else 127 :: leBytes 8 size := by
  by_cases hshort : size ≤ 125
  · rw [WebSock.sendHeader_short hshort, if_pos hshort]
  have hsingle : WebSock.WS_PAYLOAD_SINGLE.toNat < size := Nat.lt_of_not_le hshort
  rw [if_neg hshort, sendHeader, WebSock.byte0_spec, WebSock.payload_1, if_pos hsingle]
  by_cases hlt : size < USHRT_MAX
  · rw [if_pos hlt, if_pos hlt, if_pos (by decide), if_pos rfl]
    rfl
  · rw [if_neg hlt, if_neg hlt, if_pos (by decide), if_neg (by decide)]
    rfl

theorem length_sendHeader (size : Nat) (op : WsOp) : (sendHeader size op).length = hlen size := by
  rw [sendHeader_eq, hlen]
  split_ifs
  · rfl
  · rw [List.length_cons, List.length_cons, length_leBytes]
  · rw [List.length_cons, List.length_cons, length_leBytes]

theorem length_frameHeader (size : Nat) (op : WsOp) :
    2 ≤ (frameHeader size op).length ∧ (frameHeader size op).length ≤ hlen size := by
  rw [frameHeader, hlen, WebSock.beBytes, WebSock.beBytes]
  unfold USHRT_MAX
  split_ifs
  · exact ⟨Nat.le_refl 2, Nat.le_refl 2⟩
  · simp
  · simp
  · omega
  · simp

theorem hlen_pos (size : Nat) : 2 ≤ hlen size ∧ hlen size ≤ 10 := by
  rw [hlen]
  split_ifs
  · omega
  · omega
  · omega

theorem length_payload (data : Bytes) (op : WsOp) :
    (payload data op).length = hlen data.length + data.length := by
  rw [payload, List.length_append, length_sendHeader]

/-- The first bytes of two frames that differ in the bytes of the length only. -/
theorem take_prefix_iff {le be : Bytes} (hlen : le.length = be.length) (b c : UInt8) (data : Bytes)
    (n : Nat) : (b :: c :: le ++ data).take n <+: b :: c :: be ++ data ↔
      n ≤ 1 ∨ le.take (n - 2) <+: be := by
  match n with
  | 0 => exact iff_of_true List.nil_prefix (.inl (Nat.zero_le 1))
  | 1 => exact iff_of_true ⟨c :: be ++ data, rfl⟩ (.inl (Nat.le_refl 1))
  | n + 2 =>
      have hmany : ¬ n + 2 ≤ 1 := by omega
      rw [or_iff_right hmany, Nat.add_sub_cancel]
      show b :: c :: (le ++ data).take n <+: b :: c :: (be ++ data) ↔ _
      rw [List.prefix_cons_inj, List.prefix_cons_inj, List.take_append]
      constructor
      · intro h
        refine List.prefix_of_prefix_length_le ((List.prefix_append _ _).trans h)
          (List.prefix_append be data) ?_
        rw [List.length_take, hlen]
        exact Nat.min_le_right _ _
      · intro h
        rcases Nat.le_total n le.length with hle | hle
        · rw [Nat.sub_eq_zero_of_le hle, List.take_zero, List.append_nil]
          exact h.trans (List.prefix_append be data)
        · rw [List.take_of_length_le hle] at h ⊢
          rw [h.eq_of_length hlen, List.prefix_append_right_inj]
          exact List.take_prefix _ _

theorem laid_iff (data : Bytes) (op : WsOp) (n : Nat) :
    (payload data op).take n <+: frameHeader data.length op ++ data ↔ Laid data.length n := by
  rw [payload, sendHeader_eq, frameHeader, Laid, WebSock.beBytes, WebSock.beBytes]
  have hlen : ∀ k, (leBytes k data.length).length = (leBytes k data.length).reverse.length :=
    fun k => List.length_reverse.symm
  by_cases hshort : data.length ≤ 125
  · rw [if_pos hshort, if_pos hshort]
    exact iff_of_true (List.take_prefix _ _) (.inl hshort)
  rw [if_neg hshort, if_neg hshort, or_iff_right hshort]
  by_cases hlt : data.length < USHRT_MAX
  · have hlt' : data.length < 65536 := Nat.lt_succ_of_lt hlt
    rw [if_pos hlt, if_pos hlt, if_pos hlt']
    exact take_prefix_iff (hlen 2) _ _ data n
  rw [if_neg hlt, if_neg hlt]
  by_cases heq : data.length = USHRT_MAX
  · -- here the second byte is a wrong one
    have hlt' : data.length < 65536 := heq ▸ by decide
    rw [if_pos hlt']
    rcases n with _ | _ | n
    · exact iff_of_true List.nil_prefix (.inl (Nat.zero_le 1))
    · exact iff_of_true ⟨_, rfl⟩ (.inl (Nat.le_refl 1))
    · refine iff_of_false (fun h => ?_) (by omega)
      have hsecond := (List.cons_prefix_cons.mp (List.cons_prefix_cons.mp h).2).1
      exact absurd hsecond (by decide)
  · have hlt' : ¬ data.length < 65536 := by
      unfold USHRT_MAX at *
      omega
    rw [if_neg hlt', and_iff_right heq]
    exact take_prefix_iff (hlen 8) _ _ data n

/-- A frame is not the beginning of one that is laid out as it should be, unless it is all of it. -/
theorem payload_eq_of_prefix {data : Bytes} {op : WsOp}
    (h : payload data op <+: frameHeader data.length op ++ data) :
    payload data op = frameHeader data.length op ++ data := by
  refine h.eq_of_length_le ?_
  rw [length_payload, List.length_append]
  exact Nat.add_le_add_right (length_frameHeader _ _).2 _

/-- **The header of a frame around a frame is not that of the message.** -/
theorem not_framed (data : Bytes) (op : WsOp) :
    ¬ sendHeader (payload data op).length .BINARY <+: frameHeader data.length op ++ data := by
  intro h
  rw [length_payload, sendHeader_eq, frameHeader, WebSock.beBytes, WebSock.beBytes, List.cons_append,
    List.cons_prefix_cons, hlen] at h
  obtain ⟨-, hsecond⟩ := h
  by_cases hshort : data.length ≤ 125
  · rw [if_pos hshort, if_pos hshort, List.cons_append] at hsecond
    have hsize : (UInt8.ofNat data.length).toNat = data.length := by
      rw [UInt8.toNat_ofNat', Nat.mod_eq_of_lt (by omega)]
    split_ifs at hsecond with hle hlt
    · have hsame := congrArg UInt8.toNat (List.cons_prefix_cons.mp hsecond).1
      rw [hsize, UInt8.toNat_ofNat'] at hsame
      omega
    · have hsame : 126 = (UInt8.ofNat data.length).toNat :=
        congrArg UInt8.toNat (List.cons_prefix_cons.mp hsecond).1
      omega
    · have hsame : 127 = (UInt8.ofNat data.length).toNat :=
        congrArg UInt8.toNat (List.cons_prefix_cons.mp hsecond).1
      omega
  -- the bytes of two lengths in opposite orders have the same sum, but the lengths are near each other
  have hsum : ∀ {k n : Nat}, leBytes k n <+: (leBytes k data.length).reverse ++ data →
      n % 256 ^ k % 255 = data.length % 256 ^ k % 255 := by
    intro k n hprefix
    have hreverse : leBytes k n = (leBytes k data.length).reverse :=
      (List.prefix_of_prefix_length_le hprefix (List.prefix_append _ _)
        (by simp)).eq_of_length (by simp)
    calc n % 256 ^ k % 255
        = leNat (leBytes k data.length).reverse % 255 := by rw [← hreverse, leNat_leBytes]
      _ = leNat (leBytes k data.length) % 255 := leNat_reverse_mod _
      _ = data.length % 256 ^ k % 255 := by rw [leNat_leBytes]
  rw [if_neg hshort, if_neg hshort] at hsecond
  have h126 : (127 : UInt8) ≠ 126 := by decide
  by_cases hlt : data.length < USHRT_MAX
  · have hlt' : data.length < 65536 := Nat.lt_succ_of_lt hlt
    have hmore : ¬ 4 + data.length ≤ 125 := by omega
    rw [if_pos hlt, if_neg hmore, if_pos hlt'] at hsecond
    by_cases hnext : 4 + data.length < USHRT_MAX
    · rw [if_pos hnext, List.cons_append, List.cons_prefix_cons] at hsecond
      have hmod := hsum hsecond.2
      unfold USHRT_MAX at hnext
      omega
    · rw [if_neg hnext, List.cons_append, List.cons_prefix_cons] at hsecond
      exact h126 hsecond.1
  · have hmore : ¬ 10 + data.length ≤ 125 := by omega
    have hnext : ¬ 10 + data.length < USHRT_MAX := by omega
    rw [if_neg hlt, if_neg hmore, if_neg hnext] at hsecond
    by_cases hlt' : data.length < 65536
    · rw [if_pos hlt', List.cons_append, List.cons_prefix_cons] at hsecond
      exact h126 hsecond.1
    · rw [if_neg hlt', List.cons_append, List.cons_prefix_cons] at hsecond
      have hmod := hsum hsecond.2
      omega

/-! ## The calls of `send` -/

/-- A call that does not take the whole header. -/
theorem send_of_lt (hs : s.Connected) (hend : s.end_session = false) (op : WsOp)
    (h : s.first < hlen data.length) :
    (send s data op).2.out = s.out ++ ((sendHeader data.length op).take s.first).zipIdx ∧
      ((send s data op).2.lost = false ↔ s.first ≠ 0) := by
  have hlength := length_sendHeader data.length op
  obtain ⟨hfst, -, -, -, hout, hlost⟩ := send_spec hs (sendHeader data.length op)
  have hpart : (s.send (sendHeader data.length op)).1 ≠ (sendHeader data.length op).length := by
    rw [hfst, hlength]
    omega
  have hsend : (send s data op).2 = (s.send (sendHeader data.length op)).2 := by
    rw [send, if_neg (by rw [hend]; exact nofun)]
    dsimp only
    rw [if_pos hpart]
  rw [hsend]
  refine ⟨hout, hlost.trans (or_iff_left fun hnil => ?_)⟩
  have hpos := (hlen_pos data.length).1
  rw [hnil, List.length_nil] at hlength
  omega

/-- The header is taken as a whole, and a second call sends the payload. -/
theorem send_of_le (hs : s.Connected) (hend : s.end_session = false) (op : WsOp)
    (h : hlen data.length ≤ s.first) :
    (send s data op).2.out =
        s.out ++ ((sendHeader data.length op).zipIdx ++ (data.take s.second).zipIdx) ∧
      ((send s data op).2.lost = false ↔ s.second ≠ 0 ∨ data = []) := by
  have hlength := length_sendHeader data.length op
  have hpos := (hlen_pos data.length).1
  obtain ⟨hfst, hopen, -, hresults, hout, hlost⟩ := send_spec hs (sendHeader data.length op)
  rw [← hlength] at h
  have hs' : (s.send (sendHeader data.length op)).2.Connected :=
    ⟨hopen, hlost.mpr (.inl (by omega))⟩
  have hsecond : (s.send (sendHeader data.length op)).2.first = s.second :=
    congrArg (fun l => List.headD l 0) hresults
  obtain ⟨-, -, -, -, hout', hlost'⟩ := send_spec hs' data
  have hwhole : ¬ (s.send (sendHeader data.length op)).1 ≠ (sendHeader data.length op).length := by
    rw [hfst, not_not]
    exact Nat.min_eq_right h
  have hsend : (send s data op).2 = ((s.send (sendHeader data.length op)).2.send data).2 := by
    rw [send, if_neg (by rw [hend]; exact nofun)]
    dsimp only
    rw [if_neg hwhole]
  rw [hsend, ← hsecond]
  refine ⟨?_, hlost'⟩
  rw [hout', hout, List.take_of_length_le h, List.append_assoc]

theorem sends_iff_results (s : Sock) (data : Bytes) (op : WsOp) : Sends s data op ↔
    (s.Connected → s.end_session = false →
      s.first = 0 ∨ hlen data.length ≤ s.first ∧ AllOrNothing s.second data.length) := by
  refine forall_congr' fun hs => forall_congr' fun hend => ?_
  rcases Nat.lt_or_ge s.first (hlen data.length) with hlt | hge
  · obtain ⟨hout, hlost⟩ := send_of_lt hs hend op hlt
    rw [Once, hout]
    constructor
    · rintro ⟨taken, htaken, -, hall⟩
      by_contra hcon
      rw [hall (hlost.mpr fun h => hcon (.inl h))] at htaken
      have hlength := congrArg List.length (List.append_cancel_left htaken)
      rw [List.length_append, List.length_zipIdx, List.length_zipIdx, List.length_take,
        length_sendHeader] at hlength
      omega
    · intro h
      have hzero : s.first = 0 := by omega
      refine ⟨[], ?_, List.nil_prefix, fun hkept => absurd hzero (hlost.mp hkept)⟩
      rw [hzero, List.take_zero]
      rfl
  · have hpos := (hlen_pos data.length).1
    have hfirst : s.first ≠ 0 := by omega
    obtain ⟨hout, hlost⟩ := send_of_le hs hend op hge
    rw [Once, hout, or_iff_right hfirst, and_iff_right hge]
    constructor
    · rintro ⟨taken, htaken, -, hall⟩
      by_contra hcon
      obtain ⟨hzero, hpart⟩ := not_or.mp hcon
      rw [hall (hlost.mpr (.inl hzero))] at htaken
      have hsame := zipIdx_inj.mp (List.append_cancel_left (List.append_cancel_left htaken))
      have hlength := congrArg List.length hsame
      rw [List.length_take] at hlength
      omega
    · intro h
      refine ⟨_, rfl, ?_, fun hkept => ?_⟩
      · rw [List.prefix_append_right_inj, zipIdx_prefix_iff]
        exact List.take_prefix _ _
      · rcases hlost.mp hkept with hne | rfl
        · rw [List.take_of_length_le (h.resolve_left hne)]
        · rw [List.take_nil]

theorem bsends_iff_results (s : Sock) (data : Bytes) : Bsends s data ↔
    (s.Connected → AllOrNothing s.first data.length ∨ s.second = 0) := by
  refine forall_congr' fun hs => ?_
  by_cases hne : data = []
  · subst hne
    refine iff_of_true ⟨1, ended_bsend s [] Nat.zero_lt_one, [], ?_, List.nil_prefix, fun _ => rfl⟩
      (.inl (.inr (Nat.zero_le _)))
    obtain ⟨hfst, -, -, -, hout, -⟩ := send_spec hs []
    have hnothing : (s.send []).1 = 0 := hfst.trans (Nat.min_zero _)
    have hstep : Coroutine.step [] ⟨s, .sending 0⟩ = ⟨(s.send []).2, .returned false⟩ :=
      if_pos hnothing
    rw [Function.iterate_one, bsend, if_pos hs.1, hstep, hout, List.take_nil]
    rfl
  constructor
  · rintro ⟨k, hend, honce⟩
    exact ((once_bsend_iff hs hne hend data).mp honce).1
  · intro h
    have hend := ended_bsend s data (Nat.lt_succ_self data.length)
    refine ⟨_, hend, (once_bsend_iff hs hne hend data).mpr ⟨h, ?_, fun _ => rfl⟩⟩
    exact List.take_prefix _ _

/-! ## Broadcasts -/

/-- The frame that is to be delivered. -/
def framed (data : Bytes) (op : WsOp) : Bytes := frameHeader data.length op ++ data

theorem framed_ne_nil (data : Bytes) (op : WsOp) : framed data op ≠ [] := List.cons_ne_nil _ _

theorem hlen_payload_le (data : Bytes) (op : WsOp) :
    hlen (payload data op).length ≤ 2 + data.length := by
  have hle := (hlen_pos data.length).2
  rw [length_payload, hlen]
  split_ifs
  · omega
  · omega
  · omega

/-- A socket to which nothing is sent. -/
theorem not_once_self (hs : s.Connected) {bytes : Bytes} (hne : bytes ≠ []) :
    ¬ Once s s bytes.zipIdx := by
  rintro ⟨taken, hout, -, hall⟩
  rw [hall hs.2, List.self_eq_append_right, List.zipIdx_eq_nil_iff] at hout
  exact hne hout

/-- **The frame is framed again for the only socket.** -/
theorem once_send_payload_iff (hs : s.Connected) (data : Bytes) (op : WsOp) :
    Once s (send s (payload data op) .BINARY).2 (framed data op).zipIdx ↔
      s.end_session = false ∧ s.first = 0 := by
  cases hend : s.end_session with
  | true =>
      refine iff_of_false ?_ (fun h => nomatch h.1)
      rw [send, if_pos hend]
      exact not_once_self hs (framed_ne_nil data op)
  | false =>
      rw [and_iff_right rfl]
      have hagain := not_framed data op
      rcases Nat.lt_or_ge s.first (hlen (payload data op).length) with hlt | hge
      · obtain ⟨hout, hlost⟩ := send_of_lt hs hend .BINARY hlt
        rw [Once, hout]
        constructor
        · rintro ⟨taken, htaken, -, hall⟩
          by_contra hcon
          rw [hall (hlost.mpr hcon)] at htaken
          have hsame := zipIdx_inj.mp (List.append_cancel_left htaken)
          have hlength := congrArg List.length hsame
          have hroom := hlen_payload_le data op
          have htwo := (length_frameHeader data.length op).1
          rw [List.length_take, framed, List.length_append] at hlength
          omega
        · intro hzero
          refine ⟨[], ?_, List.nil_prefix, fun hkept => absurd hzero (hlost.mp hkept)⟩
          rw [hzero, List.take_zero]
          rfl
      · have hpos := (hlen_pos (payload data op).length).1
        have hfirst : s.first ≠ 0 := by omega
        obtain ⟨hout, -⟩ := send_of_le hs hend .BINARY hge
        rw [Once, hout]
        refine iff_of_false ?_ hfirst
        rintro ⟨taken, htaken, hprefix, -⟩
        rw [← List.append_cancel_left htaken] at hprefix
        exact hagain (zipIdx_prefix_iff.mp ((List.prefix_append _ _).trans hprefix))

/-- What a broadcast starts for a socket of its worker. -/
def started (api : Api) (src : Nat) (frame : Bytes) (ws : Nat × Sock) : Coroutine :=
  if ws.1 ≠ src then
    if api.websocks.length = 1 then
      ⟨(send ws.2 frame .BINARY).2, .returned (send ws.2 frame .BINARY).1⟩
    else bsend ws.2
  else ⟨ws.2, .idle⟩

theorem broadcast_eq (api : Api) (src : Nat) (data : Bytes) (op : WsOp) :
    broadcast api src data op = api.websocks.map (started api src (payload data op)) := by
  rw [broadcast]
  split_ifs with hpos
  · rfl
  · rw [api.counted, Nat.not_lt, Nat.le_zero, List.length_eq_zero_iff] at hpos
    rw [hpos, List.map_nil]

theorem ended_started (api : Api) (src : Nat) (frame : Bytes) (ws : Nat × Sock) {k : Nat}
    (hk : frame.length < k) : ((Coroutine.step frame)^[k] (started api src frame ws)).Ended := by
  rw [started]
  split_ifs
  · rw [Coroutine.iterate_of_ended (ended_returned _ _)]
    exact ended_returned _ _
  · exact ended_bsend _ _ hk
  · rw [Coroutine.iterate_of_ended (ended_idle _)]
    exact ended_idle _

/-- **What a socket of the worker gets.** -/
theorem once_started_iff {api : Api} {src : Nat} {op : WsOp} {ws : Nat × Sock} (hws : ws.1 ≠ src)
    (hs : ws.2.Connected) {k : Nat}
    (hend : ((Coroutine.step (payload data op))^[k] (started api src (payload data op) ws)).Ended) :
    Once ws.2 ((Coroutine.step (payload data op))^[k] (started api src (payload data op) ws)).sock
      (framed data op).zipIdx ↔ Served api data ws.2 := by
  rw [started, if_pos hws] at hend ⊢
  rw [Served]
  by_cases hone : api.websocks.length = 1
  · rw [if_pos hone, if_pos hone, Coroutine.iterate_of_ended (ended_returned _ _)]
    exact once_send_payload_iff hs data op
  · rw [if_neg hone] at hend ⊢
    have hne : payload data op ≠ [] := List.append_ne_nil_of_left_ne_nil (List.cons_ne_nil _ _) _
    rw [if_neg hone, once_bsend_iff hs hne hend, length_payload, framed, laid_iff]
    refine and_congr_right fun _ => ⟨fun h => h.1, fun h => ⟨h, fun hall => ?_⟩⟩
    rw [← length_payload data op] at hall
    have hprefix := (laid_iff data op ws.2.first).mpr h
    rw [List.take_of_length_le hall] at hprefix
    exact payload_eq_of_prefix hprefix

variable {apis : List Api} {w src : Nat} {op : WsOp} {turns : List Nat}

/-- The coroutines of the worker of the sender. -/
theorem sockets_same {api : Api} (h : apis[w]? = some api) :
    (sockets apis w src data op turns)[w]? = some (StepMachine.turns (Coroutine.step (payload data op))
      turns (api.websocks.map (started api src (payload data op)))) := by
  rw [sockets, List.getElem?_mapIdx, h, Option.map_some, if_pos rfl, broadcast_eq]

/-- Those of another one. -/
theorem sockets_other {v : Nat} {api : Api} (h : apis[v]? = some api) (hv : v ≠ w) :
    (sockets apis w src data op turns)[v]? = some (api.websocks.map fun ws => ⟨ws.2, .idle⟩) := by
  rw [sockets, List.getElem?_mapIdx, h, Option.map_some, if_neg hv]

theorem turns_started {api : Api} {i : Nat} {ws : Nat × Sock} (h : api.websocks[i]? = some ws) :
    (StepMachine.turns (Coroutine.step (payload data op)) turns
      (api.websocks.map (started api src (payload data op))))[i]? =
      some ((Coroutine.step (payload data op))^[turns.count i] (started api src (payload data op) ws)) := by
  rw [StepMachine.getElem?_turns, List.getElem?_map, h, Option.map_some, Option.map_some]

/-- Every coroutine can come to its end. -/
theorem exists_turns (apis : List Api) (w src : Nat) (data : Bytes) (op : WsOp) :
    ∃ turns, ∀ cs ∈ sockets apis w src data op turns, ∀ c ∈ cs, c.Ended := by
  obtain ⟨turns, hturns⟩ := StepMachine.exists_order (apis[w]?.elim 0 fun api => api.websocks.length)
    ((payload data op).length + 1)
  refine ⟨turns, fun cs hcs c hc => ?_⟩
  obtain ⟨v, hv⟩ := List.mem_iff_getElem?.mp hcs
  obtain ⟨i, hi⟩ := List.mem_iff_getElem?.mp hc
  cases hapi : apis[v]? with
  | none =>
      rw [sockets, List.getElem?_mapIdx, hapi] at hv
      nomatch hv
  | some api =>
      by_cases hsame : v = w
      · subst hsame
        rw [sockets_same hapi] at hv
        obtain rfl := Option.some.inj hv
        cases hws : api.websocks[i]? with
        | none =>
            rw [StepMachine.getElem?_turns, List.getElem?_map, hws] at hi
            nomatch hi
        | some ws =>
            rw [turns_started hws] at hi
            obtain rfl := Option.some.inj hi
            have hlt := (List.getElem?_eq_some_iff.mp hws).1
            have hmany := hturns i (by rw [hapi]; exact hlt)
            exact ended_started _ _ _ _ hmany
      · rw [sockets_other hapi hsame] at hv
        obtain rfl := Option.some.inj hv
        rw [List.getElem?_map] at hi
        obtain ⟨ws, -, rfl⟩ := Option.map_eq_some_iff.mp hi
        exact ended_idle _

theorem delivers_iff_reached (apis : List Api) (w src : Nat) (data : Bytes) (op : WsOp) :
    Delivers apis w src data op ↔ Reached apis w src data := by
  constructor
  · intro h v api ws hapi hws hother hs
    -- in a run in which all coroutines end
    obtain ⟨turns, hended⟩ := exists_turns apis w src data op
    obtain ⟨i, hi⟩ := List.mem_iff_getElem?.mp hws
    obtain ⟨cs, c, hcs, hc, honce⟩ := h turns hended v api i ws hapi hi
    rw [if_neg hother] at honce
    have hend := hended cs (List.mem_of_getElem? hcs) c (List.mem_of_getElem? hc)
    by_cases hsame : v = w
    · subst hsame
      rw [sockets_same hapi] at hcs
      obtain rfl := Option.some.inj hcs
      rw [turns_started hi] at hc
      obtain rfl := Option.some.inj hc
      exact ⟨rfl, (once_started_iff (fun h => hother ⟨rfl, h⟩) hs hend).mp (honce hs)⟩
    · -- nothing is sent to the sockets of other workers
      rw [sockets_other hapi hsame] at hcs
      obtain rfl := Option.some.inj hcs
      rw [List.getElem?_map, hi, Option.map_some] at hc
      obtain rfl := Option.some.inj hc
      exact absurd (honce hs) (not_once_self hs (framed_ne_nil data op))
  · intro h turns hended v api i ws hapi hi
    have hws := List.mem_of_getElem? hi
    by_cases hsame : v = w
    · subst hsame
      have hcs : (sockets apis v src data op turns)[v]? = _ := sockets_same hapi
      have hc : (StepMachine.turns (Coroutine.step (payload data op)) turns
        (api.websocks.map (started api src (payload data op))))[i]? = _ := turns_started hi
      refine ⟨_, _, hcs, hc, ?_⟩
      have hend := hended _ (List.mem_of_getElem? hcs) _ (List.mem_of_getElem? hc)
      by_cases hsrc : ws.1 = src
      · rw [if_pos ⟨rfl, hsrc⟩, started, if_neg (not_not.mpr hsrc),
          Coroutine.iterate_of_ended (ended_idle _)]
      · rw [if_neg fun h => hsrc h.2]
        intro hs
        have hserved := (h v api ws hapi hws (fun h => hsrc h.2) hs).2
        exact (once_started_iff hsrc hs hend).mpr hserved
    · refine ⟨_, ⟨ws.2, .idle⟩, sockets_other hapi hsame, ?_, ?_⟩
      · rw [List.getElem?_map, hi, Option.map_some]
      · rw [if_neg fun h => hsame h.1]
        exact fun hs => absurd (h v api ws hapi hws (fun h => hsame h.1) hs).1 hsame

/-- **`send` sends what it should when each of its calls takes all or nothing; `bsend` when the first call
does, or the second one takes nothing. A broadcast is delivered exactly when every other socket is one of
the worker and is served.** -/
theorem broadcasts_iff (s : Sock) (data frame : Bytes) (op : WsOp) (apis : List Api) (w src : Nat) :
    (Sends s data op ↔ (s.Connected → s.end_session = false →
      s.first = 0 ∨ hlen data.length ≤ s.first ∧ AllOrNothing s.second data.length)) ∧
    (Bsends s frame ↔ (s.Connected → AllOrNothing s.first frame.length ∨ s.second = 0)) ∧
    (Delivers apis w src data op ↔ Reached apis w src data) :=
  ⟨sends_iff_results s data op, bsends_iff_results s frame, delivers_iff_reached apis w src data op⟩

/-- The message `a` is sent on a socket that takes one byte: it is the first one of the header. -/
theorem not_sends_a : ¬ ∀ (s : Sock) (data frame : Bytes) (op : WsOp) (apis : List Api) (w src : Nat),
    Sends s data op ∧ Bsends s frame ∧ Delivers apis w src data op := by
  intro h
  have hsends := (h ⟨true, false, [1], [], false⟩ [97] [] .TEXT [] 0 0).1
  rcases (sends_iff_results _ _ _).mp hsends ⟨rfl, rfl⟩ rfl with hzero | ⟨hle, -⟩
  · exact absurd hzero (by decide)
  · exact absurd hle (by decide)

end Suil.Http.WebSockApi
