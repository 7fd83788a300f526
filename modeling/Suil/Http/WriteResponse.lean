import Suil.Http.Response

set_option autoImplicit false

/-! # Sending a response

`Connection::write_response` (`connection.h`) hands chunks to a socket in pieces. Here the socket may
take less than it is given: `Socket` is a `SocketAdaptor` whose calls take what a list of results says,
and `transmits_iff` says for which chunks and results the response is sent as it should be. -/

namespace Suil.Http.Connection

/-! ## Sockets and `write_response` -/

/-- A socket: how many bytes the calls to come will take, and whether a flush will succeed; then what
has been taken, whether a call has taken nothing of what it was given, and whether a flush has failed. -/
structure Socket where
  results : List Nat
  flushes : Bool
  wire : Bytes
  refused : Bool
  stuck : Bool

/-- A socket before the first call. -/
def Socket.new (results : List Nat) (flushes : Bool) : Socket := ⟨results, flushes, [], false, false⟩

/-- `send` and `sendfile`, with the bytes that there are to take: the result, and the socket after the
call. A socket without results takes nothing. -/
def Socket.take (s : Socket) (out : Bytes) : Nat × Socket :=
  let rc := min (s.results.headD 0) out.length
  (rc, { s with
    results := s.results.tail
    wire := s.wire ++ out.take rc
    refused := s.refused || decide (rc = 0 ∧ out ≠ []) })

def Socket.flush (s : Socket) : Socket := { s with stuck := s.stuck || !s.flushes }

/-- The `do … while (nsent < b.len)` for one chunk: whether all went well, and the socket. -/
def sendLoop (send_chunk : Nat) (b : Chunk) (nsent : Nat) (s : Socket) :
    Except SendFault (Bool × Socket) :=
  let chunk := min send_chunk (b.len - nsent)
  match b.src.send (b.offset + nsent) chunk with
  | .error e => .error e
  | .ok out =>
      let (rc, s) := s.take out
      -- nothing is taken when `chunk` is zero, so that it is positive where the loop goes on
      if rc = 0 ∨ (b.src.use_fd = true ∧ rc ≠ chunk) then .ok (false, s)
      else if nsent + chunk < b.len ∧ 0 < chunk then sendLoop send_chunk b (nsent + chunk) s
      else .ok (true, s)
  termination_by b.len - nsent
  decreasing_by omega

/-- The loop over the chunks. -/
def sendChunks (send_chunk : Nat) : List Chunk → Socket → Except SendFault (Bool × Socket)
  | [], s => .ok (true, s)
  | b :: buf, s =>
      match sendLoop send_chunk b 0 s with
      | .error e => .error e
      | .ok (ok, s) => if !ok then .ok (false, s) else sendChunks send_chunk buf s

/-- `write_response`. The headers are the first chunk. What the flush returns is not looked at. -/
def write_response (send_chunk : Nat) (buf : List Chunk) (s : Socket) :
    Except SendFault (Bool × Socket) :=
  match sendChunks send_chunk buf s with
  | .error e => .error e
  | .ok (ok, s) => if !ok then .ok (false, s) else .ok (true, s.flush)

/-! ## The bytes of the chunks -/

/-- The bytes of a chunk. -/
def part (b : Chunk) : Bytes := (b.src.bytes.drop b.offset).take b.len

/-- What has been taken are bytes of the chunks, each once and in order. The call reports success
exactly when all of them have been transmitted, and that they have, unless the socket fails. -/
def Transmits (send_chunk : Nat) (buf : List Chunk) (results : List Nat) (flushes : Bool) : Prop :=
  ∃ ok s, write_response send_chunk buf (Socket.new results flushes) = .ok (ok, s) ∧
    s.wire.Sublist (buf.flatMap part) ∧
    (ok = true ↔ s.wire = buf.flatMap part ∧ s.stuck = false) ∧
    (s.refused = false → s.stuck = false → s.wire = buf.flatMap part)

/-! ## The calls that are made -/

/-- A call of `send` or `sendfile`: the size that is asked for, the bytes that there are, and whether
they lie behind the end of a buffer. -/
structure Call where
  use_fd : Bool
  size : Nat
  given : Bytes
  outside : Bool

/-- The calls for a chunk, if every one succeeds. -/
def calls (send_chunk : Nat) (b : Chunk) (nsent : Nat) : List Call :=
  let chunk := min send_chunk (b.len - nsent)
  let c : Call := ⟨b.src.use_fd, chunk, (b.src.bytes.drop (b.offset + nsent)).take chunk,
    !b.src.use_fd && decide (b.src.bytes.length < b.offset + nsent + chunk)⟩
  if nsent + chunk < b.len ∧ 0 < chunk then c :: calls send_chunk b (nsent + chunk) else [c]
  termination_by b.len - nsent
  decreasing_by omega

/-- A call, and how many bytes the socket takes. -/
structure Turn where
  call : Call
  rc : Nat

/-- The calls, and what the results are for them. -/
def turns : List Call → List Nat → List Turn
  | [], _ => []
  | c :: cs, results => ⟨c, min (results.headD 0) c.given.length⟩ :: turns cs results.tail

/-- The call is right and takes all that is asked for. -/
def Turn.Full (t : Turn) : Prop := 0 < t.call.size ∧ t.rc = t.call.size ∧ t.call.outside = false

/-- The call is right, and the response goes on behind it: of a buffer a part may have been taken. -/
def Turn.Goes (t : Turn) : Prop :=
  t.call.outside = false ∧ 0 < t.rc ∧ (t.call.use_fd = true → t.rc = t.call.size)

/-- The call is right, and the socket takes nothing of what it is given. -/
def Turn.Refused (t : Turn) : Prop := t.call.outside = false ∧ t.call.given ≠ [] ∧ t.rc = 0

/-- The turns that a response takes. -/
def turnsOf (send_chunk : Nat) (buf : List Chunk) (results : List Nat) : List Turn :=
  turns (buf.flatMap (calls send_chunk · 0)) results

/-- The response comes to a call of which the socket takes nothing. -/
def Refuses (ts : List Turn) : Prop :=
  ∃ us t vs, ts = us ++ t :: vs ∧ (∀ u ∈ us, u.Goes) ∧ t.Refused

/-! ## A run over the calls -/

/-- The calls one after the other. -/
def run : List Call → Socket → Except SendFault (Bool × Socket)
  | [], s => .ok (true, s)
  | c :: cs, s =>
      if c.outside then .error .overrun
      else
        let (rc, s) := s.take c.given
        if rc = 0 ∨ (c.use_fd = true ∧ rc ≠ c.size) then .ok (false, s) else run cs s

theorem run_append (cs ds : List Call) (s : Socket) :
    run (cs ++ ds) s =
      match run cs s with
      | .error e => .error e
      | .ok (ok, s) => if !ok then .ok (false, s) else run ds s := by
  induction cs generalizing s with
  | nil => rfl
  | cons c cs ih =>
      rw [List.cons_append, run, run]
      dsimp only
      split_ifs
      · rfl
      · rfl
      · exact ih _

theorem send_eq (src : Source) (offset n : Nat) : src.send offset n =
    if (!src.use_fd && decide (src.bytes.length < offset + n)) = true then .error .overrun
    else .ok ((src.bytes.drop offset).take n) := by
  cases src with
  | fd content => rfl
  | data buf =>
      show (if offset + n ≤ buf.length then _ else _) =
        if decide (buf.length < offset + n) = true then _ else _
      by_cases h : offset + n ≤ buf.length
      · rw [if_pos h, if_neg (by rw [decide_eq_true_eq]; omega)]
        rfl
      · rw [if_neg h, if_pos (by rw [decide_eq_true_eq]; omega)]

theorem sendLoop_eq (send_chunk : Nat) (b : Chunk) (nsent : Nat) (s : Socket) :
    sendLoop send_chunk b nsent s = run (calls send_chunk b nsent) s := by
  induction hleft : b.len - nsent using Nat.strongRecOn generalizing nsent s with
  | ind left ih =>
      rw [sendLoop, calls, send_eq]
      dsimp only
      by_cases hmore : nsent + min send_chunk (b.len - nsent) < b.len ∧
          0 < min send_chunk (b.len - nsent)
      · -- there are more pieces
        have hrest := fun s => ih (b.len - (nsent + min send_chunk (b.len - nsent))) (by omega) _ s rfl
        simp only [if_pos hmore, run, hrest]
        by_cases hout : (!b.src.use_fd && decide (b.src.bytes.length <
            b.offset + nsent + min send_chunk (b.len - nsent))) = true
        · rw [if_pos hout, if_pos hout]
        · rw [if_neg hout, if_neg hout]
      · simp only [if_neg hmore, run]
        by_cases hout : (!b.src.use_fd && decide (b.src.bytes.length <
            b.offset + nsent + min send_chunk (b.len - nsent))) = true
        · rw [if_pos hout, if_pos hout]
        · rw [if_neg hout, if_neg hout]

theorem sendChunks_eq (send_chunk : Nat) (buf : List Chunk) (s : Socket) :
    sendChunks send_chunk buf s = run (buf.flatMap (calls send_chunk · 0)) s := by
  induction buf generalizing s with
  | nil => rfl
  | cons b buf ih =>
      rw [sendChunks, List.flatMap_cons, run_append, sendLoop_eq]
      cases run (calls send_chunk b 0) s with
      | error e => rfl
      | ok res => simp only [ih]

/-! ## The bytes of the calls -/

/-- A call that is right is given all that it asks for, or less of a file. -/
def Call.Right (c : Call) : Prop :=
  c.given.length ≤ c.size ∧ (c.use_fd = false → c.outside = false → c.given.length = c.size)

theorem calls_right (send_chunk : Nat) (b : Chunk) (nsent : Nat) :
    ∀ c ∈ calls send_chunk b nsent, c.Right := by
  induction hleft : b.len - nsent using Nat.strongRecOn generalizing nsent with
  | ind left ih =>
      have hfirst : Call.Right ⟨b.src.use_fd, min send_chunk (b.len - nsent),
          (b.src.bytes.drop (b.offset + nsent)).take (min send_chunk (b.len - nsent)),
          !b.src.use_fd && decide (b.src.bytes.length <
            b.offset + nsent + min send_chunk (b.len - nsent))⟩ := by
        refine ⟨List.length_take_le _ _, fun hfd hout => ?_⟩
        dsimp only at hfd hout ⊢
        rw [hfd, Bool.not_false, Bool.true_and, decide_eq_false_iff_not] at hout
        rw [List.length_take, List.length_drop]
        omega
      rw [calls]
      split_ifs with hmore
      · exact List.forall_mem_cons.mpr ⟨hfirst, ih _ (by omega) _ rfl⟩
      · exact List.forall_mem_singleton.mpr hfirst

/-- The pieces are bytes of the chunk, and all of them when no piece is empty. -/
theorem calls_given (send_chunk : Nat) (b : Chunk) (nsent : Nat) :
    ((calls send_chunk b nsent).flatMap Call.given).Sublist
        ((b.src.bytes.drop (b.offset + nsent)).take (b.len - nsent)) ∧
      ((∀ c ∈ calls send_chunk b nsent, 0 < c.size) →
        (calls send_chunk b nsent).flatMap Call.given =
          (b.src.bytes.drop (b.offset + nsent)).take (b.len - nsent)) := by
  induction hleft : b.len - nsent using Nat.strongRecOn generalizing nsent with
  | ind left ih =>
      rw [calls, hleft]
      have hnext : b.src.bytes.drop (b.offset + (nsent + min send_chunk left)) =
          (b.src.bytes.drop (b.offset + nsent)).drop (min send_chunk left) := by
        rw [List.drop_drop, Nat.add_assoc]
      have hsplit : (b.src.bytes.drop (b.offset + nsent)).take left =
          (b.src.bytes.drop (b.offset + nsent)).take (min send_chunk left) ++
            (b.src.bytes.drop (b.offset + (nsent + min send_chunk left))).take
              (left - min send_chunk left) := by
        rw [hnext, ← List.take_add, Nat.add_sub_cancel' (Nat.min_le_right _ _)]
      split_ifs with hmore
      · obtain ⟨hsub, hall⟩ := ih (left - min send_chunk left) (by omega)
          (nsent + min send_chunk left) (by omega)
        rw [List.flatMap_cons, hsplit]
        refine ⟨hsub.append_left _, fun hpos => ?_⟩
        rw [hall fun c hc => hpos c (List.mem_cons_of_mem _ hc)]
      · rw [List.flatMap_singleton]
        refine ⟨?_, fun hpos => ?_⟩
        · exact (List.take_prefix_take_left (Nat.min_le_right _ _)).sublist
        · have hsize : 0 < min send_chunk left := hpos _ List.mem_cons_self
          rw [show min send_chunk left = left by omega]

theorem chunks_given (send_chunk : Nat) (buf : List Chunk) :
    ((buf.flatMap (calls send_chunk · 0)).flatMap Call.given).Sublist (buf.flatMap part) ∧
      ((∀ c ∈ buf.flatMap (calls send_chunk · 0), 0 < c.size) →
        (buf.flatMap (calls send_chunk · 0)).flatMap Call.given = buf.flatMap part) := by
  induction buf with
  | nil => exact ⟨.slnil, fun _ => rfl⟩
  | cons b buf ih =>
      obtain ⟨hsub, hall⟩ := calls_given send_chunk b 0
      rw [List.flatMap_cons, List.flatMap_append, List.flatMap_cons]
      refine ⟨hsub.append ih.1, fun hpos => ?_⟩
      rw [List.forall_mem_append] at hpos
      rw [hall hpos.1, ih.2 hpos.2]
      rfl

/-! ## What a run does -/

/-- What the socket takes in a turn. -/
def Turn.taken (t : Turn) : Bytes := t.call.given.take t.rc

/-- The socket behind some turns. -/
def Socket.after (s : Socket) (ts : List Turn) : Socket :=
  { s with
    results := s.results.drop ts.length
    wire := s.wire ++ ts.flatMap Turn.taken
    refused := s.refused || ts.any fun t => decide (t.rc = 0 ∧ t.call.given ≠ []) }

theorem take_eq (s : Socket) (c : Call) :
    s.take c.given = (min (s.results.headD 0) c.given.length,
      s.after [⟨c, min (s.results.headD 0) c.given.length⟩]) := by
  rw [Socket.take, Socket.after]
  simp only [List.flatMap_singleton, List.any_cons, List.any_nil, Bool.or_false, Turn.taken,
    List.length_singleton, List.drop_one]

theorem after_cons (s : Socket) (t : Turn) (ts : List Turn) :
    (s.after [t]).after ts = s.after (t :: ts) := by
  simp only [Socket.after, List.any_cons, List.any_nil, Bool.or_false, List.flatMap_cons,
    List.flatMap_nil, List.nil_append, List.length_cons, List.length_nil, List.drop_drop,
    List.append_assoc, Bool.or_assoc, Nat.add_comm, Nat.zero_add]

theorem after_results (s : Socket) (t : Turn) : (s.after [t]).results = s.results.tail :=
  List.drop_one

theorem after_nil (s : Socket) : s.after [] = s := by
  simp only [Socket.after, List.flatMap_nil, List.append_nil, List.any_nil, Bool.or_false,
    List.length_nil, List.drop_zero]

/-- The branch that gives up, for a call inside of its source. -/
theorem stops_iff {t : Turn} (h : t.call.outside = false) :
    (t.rc = 0 ∨ (t.call.use_fd = true ∧ t.rc ≠ t.call.size)) ↔ ¬ t.Goes := by
  rw [Turn.Goes, and_iff_right h, not_and_or, Nat.pos_iff_ne_zero, not_not, Classical.not_imp]

theorem run_goes {cs : List Call} {s : Socket} (h : ∀ t ∈ turns cs s.results, t.Goes) :
    run cs s = .ok (true, s.after (turns cs s.results)) := by
  induction cs generalizing s with
  | nil =>
      rw [turns, after_nil]
      rfl
  | cons c cs ih =>
      rw [turns, List.forall_mem_cons] at h
      rw [run, if_neg (by rw [h.1.1]; decide), take_eq]
      dsimp only
      rw [if_neg fun hstop => (stops_iff h.1.1).mp hstop h.1]
      rw [ih (s := s.after [⟨c, _⟩]) (by rw [after_results]; exact h.2), after_results, after_cons,
        turns]

theorem run_stops {cs : List Call} {s : Socket} {us : List Turn} {t : Turn} {vs : List Turn}
    (h : turns cs s.results = us ++ t :: vs) (hus : ∀ u ∈ us, u.Goes) (ht : ¬ t.Goes) :
    run cs s = if t.call.outside = true then .error .overrun
      else .ok (false, s.after (us ++ [t])) := by
  induction us generalizing cs s with
  | nil =>
      cases cs with
      | nil => nomatch h
      | cons c cs =>
          rw [turns, List.nil_append] at h
          obtain ⟨rfl, -⟩ := List.cons.inj h
          rw [run]
          cases hout : c.outside with
          | true => rfl
          | false =>
              simp only [Bool.false_eq_true, if_false, take_eq]
              rw [if_pos ((stops_iff hout).mpr ht), List.nil_append]
  | cons u us ih =>
      cases cs with
      | nil => nomatch h
      | cons c cs =>
          rw [turns, List.cons_append] at h
          obtain ⟨hu, hrest⟩ := List.cons.inj h
          obtain ⟨hgoes, hus⟩ := List.forall_mem_cons.mp hus
          rw [← hu] at hgoes ⊢
          rw [run, if_neg (by rw [hgoes.1]; decide), take_eq]
          dsimp only
          rw [if_neg fun hstop => (stops_iff hgoes.1).mp hstop hgoes,
            ih (s := s.after [⟨c, _⟩]) (by rw [after_results]; exact hrest) hus, after_cons,
            List.cons_append]

/-! ## The bytes of a run -/

theorem turns_call (cs : List Call) (results : List Nat) :
    (turns cs results).map Turn.call = cs ∧
      ∀ t ∈ turns cs results, t.rc ≤ t.call.given.length := by
  induction cs generalizing results with
  | nil => exact ⟨rfl, nofun⟩
  | cons c cs ih =>
      obtain ⟨hcall, hle⟩ := ih results.tail
      rw [turns, List.map_cons, hcall]
      exact ⟨rfl, List.forall_mem_cons.mpr ⟨Nat.min_le_right _ _, hle⟩⟩

/-- What the calls were given. -/
def offered (ts : List Turn) : Bytes := ts.flatMap fun t => t.call.given

theorem offered_turns (cs : List Call) (results : List Nat) :
    offered (turns cs results) = cs.flatMap Call.given := by
  have hcall := (turns_call cs results).1
  calc offered (turns cs results) = ((turns cs results).map Turn.call).flatMap Call.given := by
        rw [List.flatMap_map]
        rfl
    _ = cs.flatMap Call.given := by rw [hcall]

theorem taken_sublist (ts : List Turn) : (ts.flatMap Turn.taken).Sublist (offered ts) := by
  induction ts with
  | nil => exact .slnil
  | cons t ts ih =>
      rw [offered, List.flatMap_cons, List.flatMap_cons]
      exact (List.take_sublist _ _).append ih

/-- All is taken only when every call takes all. -/
theorem taken_length {ts : List Turn} (hle : ∀ t ∈ ts, t.rc ≤ t.call.given.length)
    (h : (offered ts).length ≤ (ts.flatMap Turn.taken).length) :
    ∀ t ∈ ts, t.rc = t.call.given.length := by
  induction ts with
  | nil => exact nofun
  | cons t ts ih =>
      obtain ⟨ht, hts⟩ := List.forall_mem_cons.mp hle
      have hsub := (taken_sublist ts).length_le
      have hfirst : t.taken.length = t.rc := by
        rw [Turn.taken, List.length_take, Nat.min_eq_left ht]
      rw [offered, List.flatMap_cons, List.flatMap_cons, List.length_append, List.length_append,
        hfirst] at h
      rw [offered] at hsub ih
      exact List.forall_mem_cons.mpr ⟨by omega, ih hts (by omega)⟩

theorem taken_of_full {ts : List Turn} (h : ∀ t ∈ ts, t.call.given.length ≤ t.rc) :
    ts.flatMap Turn.taken = offered ts := by
  induction ts with
  | nil => rfl
  | cons t ts ih =>
      obtain ⟨ht, hts⟩ := List.forall_mem_cons.mp h
      rw [offered, List.flatMap_cons, List.flatMap_cons, ih hts, Turn.taken,
        List.take_of_length_le ht, offered]

/-! ## Responses that are sent -/

theorem Turn.Full.goes {t : Turn} (h : t.Full) : t.Goes :=
  ⟨h.2.2, h.2.1 ▸ h.1, fun _ => h.2.1⟩

theorem Turn.Refused.not_goes {t : Turn} (h : t.Refused) : ¬ t.Goes := fun hgoes =>
  Nat.lt_irrefl 0 (h.2.2 ▸ hgoes.2.1)

/-- The turns up to the first that the response does not go on behind. -/
theorem goes_or_stops (ts : List Turn) : (∀ t ∈ ts, t.Goes) ∨
    ∃ us t vs, ts = us ++ t :: vs ∧ (∀ u ∈ us, u.Goes) ∧ ¬ t.Goes := by
  induction ts with
  | nil => exact .inl nofun
  | cons t ts ih =>
      by_cases ht : t.Goes
      · rcases ih with hall | ⟨us, u, vs, rfl, hus, hu⟩
        · exact .inl (List.forall_mem_cons.mpr ⟨ht, hall⟩)
        · exact .inr ⟨t :: us, u, vs, rfl, List.forall_mem_cons.mpr ⟨ht, hus⟩, hu⟩
      · exact .inr ⟨[], t, ts, rfl, nofun, ht⟩

section

variable (send_chunk : Nat) (buf : List Chunk) (results : List Nat) (flushes : Bool)

theorem offered_sublist :
    (offered (turnsOf send_chunk buf results)).Sublist (buf.flatMap part) := by
  rw [turnsOf, offered_turns]
  exact (chunks_given send_chunk buf).1

theorem turnsOf_spec : ∀ t ∈ turnsOf send_chunk buf results,
    t.call.Right ∧ t.rc ≤ t.call.given.length := by
  obtain ⟨hcall, hle⟩ := turns_call (buf.flatMap (calls send_chunk · 0)) results
  intro t ht
  have hmem : t.call ∈ buf.flatMap (calls send_chunk · 0) := hcall ▸ List.mem_map_of_mem ht
  obtain ⟨b, -, hb⟩ := List.mem_flatMap.mp hmem
  exact ⟨calls_right send_chunk b 0 t.call hb, hle t ht⟩

/-- What `write_response` does when no call stops it. -/
theorem write_response_goes (h : ∀ t ∈ turnsOf send_chunk buf results, t.Goes) :
    write_response send_chunk buf (Socket.new results flushes) =
      .ok (true, ((Socket.new results flushes).after (turnsOf send_chunk buf results)).flush) := by
  rw [write_response, sendChunks_eq, run_goes (s := Socket.new results flushes) h]
  rfl

/-- And when one does. -/
theorem write_response_stops {us : List Turn} {t : Turn} {vs : List Turn}
    (h : turnsOf send_chunk buf results = us ++ t :: vs) (hus : ∀ u ∈ us, u.Goes)
    (ht : ¬ t.Goes) : write_response send_chunk buf (Socket.new results flushes) =
      if t.call.outside = true then .error .overrun
      else .ok (false, (Socket.new results flushes).after (us ++ [t])) := by
  rw [write_response, sendChunks_eq, run_stops (s := Socket.new results flushes) h hus ht]
  split_ifs <;> rfl

/-- Calls that take all, and a flush, send everything. -/
theorem transmits_of_full (h : ∀ t ∈ turnsOf send_chunk buf results, t.Full) :
    Transmits send_chunk buf results true := by
  have hright := turnsOf_spec send_chunk buf results
  have hwire : (turnsOf send_chunk buf results).flatMap Turn.taken = buf.flatMap part := by
    rw [taken_of_full fun t ht => (h t ht).2.1 ▸ (hright t ht).1.1, turnsOf, offered_turns]
    refine (chunks_given send_chunk buf).2 fun c hc => ?_
    rw [← (turns_call (buf.flatMap (calls send_chunk · 0)) results).1] at hc
    obtain ⟨t, ht, rfl⟩ := List.mem_map.mp hc
    exact (h t ht).1
  refine ⟨_, _, write_response_goes send_chunk buf results true fun t ht => (h t ht).goes, ?_⟩
  show ((turnsOf send_chunk buf results).flatMap Turn.taken).Sublist _ ∧
    (true = true ↔ (turnsOf send_chunk buf results).flatMap Turn.taken = _ ∧ false = false) ∧
    (_ → false = false → (turnsOf send_chunk buf results).flatMap Turn.taken = _)
  rw [hwire]
  exact ⟨.refl _, iff_of_true rfl ⟨rfl, rfl⟩, fun _ _ => rfl⟩

/-- A socket that takes nothing is noticed. -/
theorem transmits_of_refuses (h : Refuses (turnsOf send_chunk buf results)) :
    Transmits send_chunk buf results flushes := by
  obtain ⟨us, t, vs, hts, hus, ht⟩ := h
  have hrun := write_response_stops send_chunk buf results flushes hts hus ht.not_goes
  rw [if_neg (by rw [ht.1]; decide)] at hrun
  have hnone : t.taken = [] := by rw [Turn.taken, ht.2.2, List.take_zero]
  have hsub := offered_sublist send_chunk buf results
  -- what the last call was given is not among what was taken
  have hwire : ((us ++ [t]).flatMap Turn.taken).Sublist (offered us) := by
    rw [List.flatMap_append, List.flatMap_singleton, hnone, List.append_nil]
    exact taken_sublist us
  have hlost : offered us ++ t.call.given ++ offered vs =
      offered (turnsOf send_chunk buf results) := by
    rw [hts, offered, offered, offered, List.flatMap_append, List.flatMap_cons, List.append_assoc]
  have hpart : (offered us ++ t.call.given ++ offered vs).Sublist (buf.flatMap part) := hlost ▸ hsub
  refine ⟨_, _, hrun, ?_, iff_of_false Bool.false_ne_true ?_, ?_⟩
  · show ((us ++ [t]).flatMap Turn.taken).Sublist _
    rw [List.append_assoc] at hpart
    exact hwire.trans ((List.sublist_append_left _ _).trans hpart)
  · rintro ⟨hall, -⟩
    have hshort := hwire.length_le
    have hlong := hpart.length_le
    have hpos := List.length_pos_iff.mpr ht.2.1
    rw [List.length_append, List.length_append] at hlong
    rw [show (us ++ [t]).flatMap Turn.taken = buf.flatMap part from hall] at hshort
    omega
  · intro hrefused
    simp [Socket.after, Socket.new, ht.2.1, ht.2.2] at hrefused

/-- **A response is sent as it should be exactly when every call is given something and takes all of
it, and the flush succeeds, or when it comes to a call of which the socket takes nothing.** -/
theorem transmits_iff : Transmits send_chunk buf results flushes ↔
    ((∀ t ∈ turnsOf send_chunk buf results, t.Full) ∧ flushes = true) ∨
      Refuses (turnsOf send_chunk buf results) := by
  constructor
  · rintro ⟨ok, s, hres, -, hiff, hfail⟩
    rcases goes_or_stops (turnsOf send_chunk buf results) with hall | ⟨us, t, vs, hts, hus, ht⟩
    · left
      rw [write_response_goes send_chunk buf results flushes hall] at hres
      obtain ⟨rfl, rfl⟩ := Prod.mk.inj (Except.ok.inj hres)
      obtain ⟨hwire, hstuck⟩ := hiff.mp rfl
      replace hwire : (turnsOf send_chunk buf results).flatMap Turn.taken = buf.flatMap part := hwire
      have hspec := turnsOf_spec send_chunk buf results
      have htaken := taken_length (fun t ht => (hspec t ht).2) (by
        rw [hwire]
        exact (offered_sublist send_chunk buf results).length_le)
      refine ⟨fun t ht => ?_, ?_⟩
      · obtain ⟨hinside, hpos, hfd⟩ := hall t ht
        have hsize : t.rc = t.call.size := by
          cases hkind : t.call.use_fd with
          | true => exact hfd hkind
          | false => rw [htaken t ht, (hspec t ht).1.2 hkind hinside]
        exact ⟨hsize ▸ hpos, hsize, hinside⟩
      · simpa [Socket.flush, Socket.after, Socket.new] using hstuck
    · right
      rw [write_response_stops send_chunk buf results flushes hts hus ht] at hres
      split_ifs at hres with hout
      rw [Bool.not_eq_true] at hout
      obtain ⟨rfl, rfl⟩ := Prod.mk.inj (Except.ok.inj hres)
      -- no success is reported, so that a call must have taken nothing
      have hrefused : ((Socket.new results flushes).after (us ++ [t])).refused = true := by
        by_contra hnot
        rw [Bool.not_eq_true] at hnot
        exact Bool.false_ne_true (hiff.mpr ⟨hfail hnot rfl, rfl⟩)
      have hany : (us ++ [t]).any (fun t => decide (t.rc = 0 ∧ t.call.given ≠ [])) = true := hrefused
      obtain ⟨u, hu, hnone⟩ := List.any_eq_true.mp hany
      obtain ⟨hzero, hgiven⟩ := of_decide_eq_true hnone
      rcases List.mem_append.mp hu with hu | hu
      · exact absurd (hus u hu).2.1 (by omega)
      · rw [List.mem_singleton.mp hu] at hzero hgiven
        exact ⟨us, t, vs, hts, hus, hout, hgiven, hzero⟩
  · rintro (⟨hfull, rfl⟩ | hrefuses)
    · exact transmits_of_full send_chunk buf results hfull
    · exact transmits_of_refuses send_chunk buf results flushes hrefuses

end

/-! ## A socket that takes everything -/

/-- The socket takes all it is given in the next `n` calls. -/
def Socket.Generous (send_chunk n : Nat) (s : Socket) : Prop :=
  ∀ i < n, send_chunk ≤ s.results.getD i 0

theorem take_generous {send_chunk n : Nat} {s : Socket} (h : s.Generous send_chunk (n + 1))
    {out : Bytes} (hout : out.length ≤ send_chunk) :
    (s.take out).1 = out.length ∧ (s.take out).2.wire = s.wire ++ out ∧
      (s.take out).2.Generous send_chunk n := by
  have hfirst : send_chunk ≤ s.results.headD 0 := by
    have hzero := h 0 (Nat.succ_pos n)
    cases hr : s.results with
    | nil => rwa [hr] at hzero
    | cons r rs => rwa [hr] at hzero
  have hrc : min (s.results.headD 0) out.length = out.length := Nat.min_eq_right (by omega)
  refine ⟨hrc, ?_, fun i hi => ?_⟩
  · show s.wire ++ out.take (min (s.results.headD 0) out.length) = _
    rw [hrc, List.take_length]
  · have hnext := h (i + 1) (by omega)
    show send_chunk ≤ s.results.tail.getD i 0
    cases hr : s.results with
    | nil => rwa [hr] at hnext
    | cons r rs => rwa [hr] at hnext

/-- What `Http.sendLoop` sends. -/
theorem sendLoop_generous {send_chunk n : Nat} {b : Chunk} {nsent : Nat} {s : Socket}
    (h : s.Generous send_chunk ((calls send_chunk b nsent).length + n)) :
    match Http.sendLoop send_chunk b nsent with
    | .error e => sendLoop send_chunk b nsent s = .error e
    | .ok (out, ok) => ∃ s', sendLoop send_chunk b nsent s = .ok (ok, s') ∧
        s'.wire = s.wire ++ out ∧ (ok = true → s'.Generous send_chunk n) := by
  -- on what is left of the chunk
  induction hleft : b.len - nsent using Nat.strongRecOn generalizing nsent s with
  | ind left ih =>
      rw [Http.sendLoop, sendLoop]
      rw [calls] at h
      cases hsend : b.src.send (b.offset + nsent) (min send_chunk (b.len - nsent)) with
      | error e => rfl
      | ok out =>
          -- no call asks for more than one chunk of the sending
          have hout : out.length ≤ send_chunk := by
            rw [send_eq] at hsend
            split_ifs at hsend
            rw [← Except.ok.inj hsend, List.length_take]
            omega
          dsimp only [bind, Except.bind]
          split_ifs at h with hmore
          · rw [List.length_cons, Nat.add_right_comm] at h
            obtain ⟨hrc, hwire, hgenerous⟩ := take_generous h hout
            rw [hrc]
            by_cases hstop : out.length = 0 ∨
                (b.src.use_fd = true ∧ out.length ≠ min send_chunk (b.len - nsent))
            · rw [if_pos hstop, if_pos hstop]
              exact ⟨_, rfl, hwire, fun h => by cases h⟩
            · rw [if_neg hstop, if_neg hstop, if_pos hmore, if_pos hmore]
              have hrest := ih _ (by omega) hgenerous rfl
              cases hloop : Http.sendLoop send_chunk b
                  (nsent + min send_chunk (b.len - nsent)) with
              | error e =>
                  rw [hloop] at hrest
                  exact hrest
              | ok res =>
                  rw [hloop] at hrest
                  obtain ⟨s', hs', hwire', hgenerous'⟩ := hrest
                  exact ⟨s', hs', by rw [hwire', hwire, List.append_assoc], hgenerous'⟩
          · rw [List.length_singleton, Nat.add_comm] at h
            obtain ⟨hrc, hwire, hgenerous⟩ := take_generous h hout
            rw [hrc]
            by_cases hstop : out.length = 0 ∨
                (b.src.use_fd = true ∧ out.length ≠ min send_chunk (b.len - nsent))
            · rw [if_pos hstop, if_pos hstop]
              exact ⟨_, rfl, hwire, fun h => by cases h⟩
            · rw [if_neg hstop, if_neg hstop, if_neg hmore, if_neg hmore]
              exact ⟨_, rfl, hwire, fun _ => hgenerous⟩

/-- From a socket that takes everything, `write_response` sends what `Http.write_response` says. -/
theorem write_response_generous {send_chunk : Nat} {buf : List Chunk} {s : Socket}
    (h : s.Generous send_chunk (buf.flatMap (calls send_chunk · 0)).length) :
    match Http.write_response send_chunk buf with
    | .error e => write_response send_chunk buf s = .error e
    | .ok (out, ok) => ∃ s', write_response send_chunk buf s = .ok (ok, s') ∧
        s'.wire = s.wire ++ out := by
  have hloop : match Http.write_response send_chunk buf with
      | .error e => sendChunks send_chunk buf s = .error e
      | .ok (out, ok) => ∃ s', sendChunks send_chunk buf s = .ok (ok, s') ∧
          s'.wire = s.wire ++ out := by
    -- on the chunks: one that fails ends the loop
    induction buf generalizing s with
    | nil => exact ⟨s, rfl, (List.append_nil _).symm⟩
    | cons b buf ih =>
        rw [List.flatMap_cons, List.length_append] at h
        have hfirst := sendLoop_generous h
        rw [Http.write_response, sendChunks]
        dsimp only [bind, Except.bind]
        cases hb : Http.sendLoop send_chunk b 0 with
        | error e =>
            rw [hb] at hfirst
            rw [hfirst]
        | ok res =>
            obtain ⟨out, ok⟩ := res
            rw [hb] at hfirst
            obtain ⟨s', hs', hwire, hgenerous⟩ := hfirst
            rw [hs']
            cases ok with
            | false => exact ⟨s', rfl, hwire⟩
            | true =>
                have hrest := ih (hgenerous rfl)
                dsimp only [Bool.not_true, Bool.false_eq_true, if_false] at hrest ⊢
                cases hbuf : Http.write_response send_chunk buf with
                | error e =>
                    rw [hbuf] at hrest
                    exact hrest
                | ok res =>
                    rw [hbuf] at hrest
                    obtain ⟨s'', hs'', hwire''⟩ := hrest
                    exact ⟨s'', hs'', by rw [hwire'', hwire, List.append_assoc]⟩
  rw [write_response]
  cases hres : Http.write_response send_chunk buf with
  | error e =>
      rw [hres] at hloop
      rw [hloop]
  | ok res =>
      obtain ⟨out, ok⟩ := res
      rw [hres] at hloop
      obtain ⟨s', hs', hwire⟩ := hloop
      rw [hs']
      cases ok with
      | false => exact ⟨s', rfl, hwire⟩
      | true => exact ⟨s'.flush, rfl, hwire⟩

/-- Two bytes in memory of which the socket takes one: success is reported. -/
theorem not_transmits_partial : ¬ ∀ (send_chunk : Nat) (buf : List Chunk) (results : List Nat)
    (flushes : Bool), 0 < send_chunk → (∀ b ∈ buf, b.offset + b.len ≤ b.src.bytes.length) →
      Transmits send_chunk buf results flushes := by
  intro h
  have hturns : turnsOf 8 [⟨.data (str "ab"), 0, 2⟩] [1] =
      [⟨⟨false, 2, str "ab", false⟩, 1⟩] := by
    rw [turnsOf, List.flatMap_singleton, calls]
    rfl
  rcases (transmits_iff 8 _ [1] true).mp (h 8 [⟨.data (str "ab"), 0, 2⟩] [1] true (by decide)
    (by decide)) with ⟨hfull, -⟩ | ⟨us, t, vs, hts, hus, ht⟩
  · rw [hturns] at hfull
    exact absurd (hfull _ List.mem_cons_self).2.1 (by decide)
  · have hmem : t ∈ turnsOf 8 [⟨.data (str "ab"), 0, 2⟩] [1] :=
      hts ▸ List.mem_append_right _ List.mem_cons_self
    rw [hturns] at hmem
    rw [List.mem_singleton.mp hmem] at ht
    exact absurd ht.2.2 (by decide)

end Suil.Http.Connection
