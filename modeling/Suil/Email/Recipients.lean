import Mathlib
import Suil.Basic.Str
import Suil.Lib.Lines

set_option autoImplicit false

/-! # The recipients of an e-mail

`Email` (`email.h`) keeps three lists of addresses, and `sendhead` (`email.cpp`) sends a command for
each address in them. `addresses_iff` says for which calls every address gets one of them. -/

namespace Suil

open Lines (Unbroken)

/-! ## E-mails and the commands of a session -/

/-- `String(str)`, which may be a null pointer. -/
def Str.ofPtr : Option Bytes → Str
  | none => Str.null
  | some str => Str.ofC str

/-- `Email::Address`; the e-mail address is the copy that the constructor makes of a C string. -/
structure Address where
  name : Str
  email : Str
  copied : ∃ s, email = (Str.ofPtr s).dup

/-- The constructor. -/
def Address.new (email : Option Bytes) (name : Option Bytes) : Address where
  name := (Str.ofPtr name).dup
  email := (Str.ofPtr email).dup
  copied := ⟨email, rfl⟩

/-- The characters of the e-mail address. -/
def Address.text (a : Address) : Bytes := a.email.bytes

/-- `Email::Attachment`, before it is loaded. -/
structure Attachment where
  fname : Bytes
  mimetype : Bytes

/-- `Email`; the attachments stand in the order of the map. -/
structure Email where
  body_type : Bytes
  subject : Bytes
  boundry : Bytes
  receipts : List Address
  ccs : List Address
  bccs : List Address
  attachments : List Attachment
  bodybuf : Bytes

/-- The three lists. -/
inductive Field where
  | receipts
  | ccs
  | bccs
  deriving DecidableEq

/-- The three functions for a user, which take one address or more. -/
structure Call where
  field : Field
  addr : Address
  other : List Address

namespace Email

def field (e : Email) : Field → List Address
  | .receipts => e.receipts
  | .ccs => e.ccs
  | .bccs => e.bccs

/-- `exists(addr)`. -/
def exists_ (e : Email) (addr : Address) : Bool :=
  let predicate := fun a : Address => Str.eq a.email addr.email
  e.receipts.any predicate && e.ccs.any predicate && e.bccs.any predicate

/-- `pto(addr)`. -/
def pto (e : Email) (addr : Address) : Email :=
  if !e.exists_ addr then { e with receipts := e.receipts ++ [addr] } else e

/-- `pcc(addr)`. -/
def pcc (e : Email) (addr : Address) : Email :=
  if !e.exists_ addr then { e with ccs := e.ccs ++ [addr] } else e

/-- `pbcc(addr)`. -/
def pbcc (e : Email) (addr : Address) : Email :=
  if !e.exists_ addr then { e with bccs := e.bccs ++ [addr] } else e

def add (e : Email) : Field × Address → Email
  | (.receipts, addr) => e.pto addr
  | (.ccs, addr) => e.pcc addr
  | (.bccs, addr) => e.pbcc addr

/-- `to`, `cc` and `bcc`. -/
def call (e : Email) (c : Call) : Email :=
  (c.addr :: c.other).foldl (fun e addr => e.add (c.field, addr)) e

/-- The constructor; `boundry` is made of random bytes. -/
def new (addr : Address) (subject boundry : Bytes) : Email :=
  pto ⟨str "text/plain", subject, boundry, [], [], [], [], []⟩ addr

end Email

/-- The other end: whether each operation of the socket goes through, and the answers, where nothing
is an exception. -/
structure Peer where
  works : Nat → Bool
  code : Nat → Option Int

/-- A socket: what has been sent, and how many operations there have been. -/
structure Sock where
  wire : Bytes
  ops : Nat

namespace Sock

variable (peer : Peer)

/-- `send(data, size)`. -/
def send (s : Sock) (data : Bytes) : Nat × Sock :=
  if peer.works s.ops then (data.length, ⟨s.wire ++ data, s.ops + 1⟩) else (0, ⟨s.wire, s.ops + 1⟩)

/-- `send_data`. -/
def send_data (s : Sock) (data : Bytes) : Bool × Sock :=
  let (n, s) := s.send peer data
  (n = data.length, s)

/-- `sendflush`. -/
def sendflush (s : Sock) : Bool × Sock :=
  let (n, s) := s.send peer [CR, LF]
  if n = 2 then (peer.works s.ops, ⟨s.wire, s.ops + 1⟩) else (false, s)

/-- `sendline`, which ends the line once for each of its parts. -/
def sendline (s : Sock) : List Bytes → Bool × Sock
  | [] => (true, s)
  | data :: p =>
      let (ok, s) := s.send_data peer data
      if !ok then (false, s)
      else
        let (ok, s) := s.sendline p
        if !ok then (false, s) else s.sendflush peer

/-- `getresponse`. -/
def getresponse (s : Sock) : Option Int × Sock := (peer.code s.ops, ⟨s.wire, s.ops + 1⟩)

/-- `sendaddresses`; nothing where an exception is thrown. -/
def sendaddresses (s : Sock) : List Address → Option (Bool × Sock)
  | [] => some (true, s)
  | addr :: addrs =>
      let (ok, s) := s.sendline peer [str "RCPT TO: <", addr.text, str ">"]
      if !ok then some (false, s)
      else
        match s.getresponse peer with
        | (none, _) => none
        -- an answer other than 250 is logged only
        | (some _, s) => s.sendaddresses addrs

/-- `sendhead`. -/
def sendhead (s : Sock) (msg : Email) : Option (Bool × Sock) := do
  let (ok, s) ← s.sendaddresses peer msg.receipts
  if !ok then return (false, s)
  let (ok, s) ← s.sendaddresses peer msg.ccs
  if !ok then return (false, s)
  s.sendaddresses peer msg.bccs

end Sock

/-! ## Each address once -/

/-- What the constructor and the calls are given, in their order. -/
def given (addr : Address) (calls : List Call) : List (Field × Address) :=
  (.receipts, addr) :: calls.flatMap fun c => (c.addr :: c.other).map fun a => (c.field, a)

/-- The command for an address. -/
def Address.rcpt (a : Address) : Bytes := str "RCPT TO: <" ++ a.text ++ str ">"

/-- The RCPT commands that a server reads. -/
def rcpts (wire : Bytes) : List Bytes :=
  (Lines.lines CR LF wire).1.filter fun l => (str "RCPT TO:").isPrefixOf l

/-- The list that an address is given for first. -/
def firstField (adds : List (Field × Address)) (t : Bytes) : Option Field :=
  (adds.find? fun p => p.2.text = t).map (·.1)

/-- Each address is once in the list that it was given for first and in no other one, and once among
the commands whenever they could be sent. -/
structure Email.Addresses (e : Email) (adds : List (Field × Address)) : Prop where
  once : ∀ t f, ((e.field f).map Address.text).count t = if firstField adds t = some f then 1 else 0
  sent : ∀ peer s, Sock.sendhead peer ⟨[], 0⟩ e = some (true, s) →
    ∀ l, (rcpts s.wire).count l = if l ∈ adds.map (fun p => p.2.rcpt) then 1 else 0

/-- No address is given twice, and none holds the end of a line. -/
structure Separate (adds : List (Field × Address)) : Prop where
  distinct : (adds.map fun p => p.2.text).Nodup
  unbroken : ∀ p ∈ adds, Unbroken CR LF p.2.text

/-! ## Addresses -/

/-- What the constructor leaves of an e-mail address. -/
theorem address_cases (a : Address) :
    a.email = Str.null ∨ ∃ t, t ≠ [] ∧ NUL ∉ t ∧ a.email = ⟨some t, t.length⟩ := by
  obtain ⟨s, hs⟩ := a.copied
  rw [hs]
  cases s with
  | none => exact .inl rfl
  | some s =>
      show Str.dup ⟨some s, (cstr s).length⟩ = _ ∨ _
      by_cases hlen : (cstr s).length = 0
      · exact .inl (if_pos hlen)
      · have htake : (s.take (cstr s).length).takeWhile (· ≠ NUL) = cstr s := by
          rw [show (s.take (cstr s).length) = cstr s from
            List.prefix_iff_eq_take.mp (List.takeWhile_prefix _) |>.symm]
          exact cstr_eq_self (nul_notMem_cstr s)
        refine .inr ⟨cstr s, fun h => hlen (by rw [h]; rfl), nul_notMem_cstr s, ?_⟩
        calc Str.dup ⟨some s, (cstr s).length⟩
            = ⟨some ((s.take (cstr s).length).takeWhile (· ≠ NUL)), (cstr s).length⟩ := if_neg hlen
          _ = ⟨some (cstr s), (cstr s).length⟩ := by rw [htake]

/-- Two addresses are equal when their characters are. -/
theorem eq_iff_text (a b : Address) : Str.eq a.email b.email = true ↔ a.text = b.text := by
  unfold Address.text
  rcases address_cases a with ha | ⟨t, ht, hnul, ha⟩
  · rcases address_cases b with hb | ⟨t', ht', -, hb⟩
    · rw [ha, hb]
      exact iff_of_true rfl rfl
    · rw [ha, hb]
      refine iff_of_false Bool.false_ne_true fun h => ht' ?_
      exact (List.take_length (l := t')).symm.trans h.symm
  · rcases address_cases b with hb | ⟨t', ht', hnul', hb⟩
    · rw [ha, hb]
      refine iff_of_false Bool.false_ne_true fun h => ht ?_
      exact (List.take_length (l := t)).symm.trans h
    · rw [ha, hb]
      show (decide (t.length = t'.length) && strncmpEq t.length t t') = true ↔
        t.take t.length = t'.take t'.length
      rw [List.take_length, List.take_length, Bool.and_eq_true, decide_eq_true_iff]
      constructor
      · rintro ⟨hlen, heq⟩
        exact (strncmpEq_length hnul hlen).mp heq
      · rintro rfl
        exact ⟨rfl, strncmpEq_self _ _⟩

namespace Email

/-- An address is there when it is in each of the lists. -/
theorem exists_iff (e : Email) (a : Address) :
    e.exists_ a = true ↔ ∀ f, a.text ∈ (e.field f).map Address.text := by
  have hany : ∀ l : List Address, l.any (fun b => Str.eq b.email a.email) = true ↔
      a.text ∈ l.map Address.text := by
    intro l
    rw [List.any_eq_true, List.mem_map]
    exact exists_congr fun b => and_congr_right fun _ => eq_iff_text b a
  unfold exists_
  rw [Bool.and_eq_true, Bool.and_eq_true, hany, hany, hany, and_assoc]
  constructor
  · rintro ⟨hto, hcc, hbcc⟩ f
    cases f with
    | receipts => exact hto
    | ccs => exact hcc
    | bccs => exact hbcc
  · exact fun h => ⟨h .receipts, h .ccs, h .bccs⟩

theorem field_add (e : Email) (p : Field × Address) (f : Field) : (e.add p).field f =
    if e.exists_ p.2 = false ∧ p.1 = f then e.field f ++ [p.2] else e.field f := by
  obtain ⟨g, a⟩ := p
  cases h : e.exists_ a with
  | true => cases g <;> cases f <;> simp [add, pto, pcc, pbcc, h]
  | false => cases g <;> cases f <;> simp [add, pto, pcc, pbcc, h, field]

/-- The calls add the addresses one by one. -/
theorem foldl_call (e : Email) (calls : List Call) : calls.foldl call e =
    (calls.flatMap fun c => (c.addr :: c.other).map fun a => (c.field, a)).foldl add e := by
  induction calls generalizing e with
  | nil => rfl
  | cons c calls ih =>
      rw [List.foldl_cons, ih, List.flatMap_cons, List.foldl_append, List.foldl_map]
      rfl

/-! ## The lists -/

/-- Addresses that are all different are added to the lists that they are given for. -/
theorem field_foldl {adds : List (Field × Address)} (h : (adds.map fun p => p.2.text).Nodup)
    {e : Email} (hnew : ∀ p ∈ adds, ∀ f, p.2.text ∉ (e.field f).map Address.text) (f : Field) :
    (adds.foldl add e).field f = e.field f ++ (adds.filter fun p => p.1 = f).map (·.2) := by
  induction adds generalizing e with
  | nil => exact (List.append_nil _).symm
  | cons p adds ih =>
      rw [List.map_cons, List.nodup_cons] at h
      rw [List.forall_mem_cons] at hnew
      have hexists : e.exists_ p.2 = false := by
        rw [← Bool.not_eq_true, exists_iff]
        exact fun hall => hnew.1 .receipts (hall .receipts)
      have hnew' : ∀ q ∈ adds, ∀ g, q.2.text ∉ ((e.add p).field g).map Address.text := by
        intro q hq g
        rw [field_add]
        split
        · rw [List.map_append, List.mem_append, not_or]
          refine ⟨hnew.2 q hq g, fun hmem => h.1 ?_⟩
          rw [← List.mem_singleton.mp hmem]
          exact List.mem_map_of_mem hq
        · exact hnew.2 q hq g
      rw [List.foldl_cons, ih h.2 hnew', field_add]
      by_cases hf : p.1 = f
      · rw [if_pos ⟨hexists, hf⟩, List.filter_cons_of_pos (by simpa using hf), List.append_assoc]
        rfl
      · rw [if_neg fun h => hf h.2, List.filter_cons_of_neg (by simpa using hf)]

/-- Each of them is once in its list. -/
theorem count_filter {adds : List (Field × Address)} (h : (adds.map fun p => p.2.text).Nodup)
    (t : Bytes) (f : Field) :
    (((adds.filter fun p => p.1 = f).map (·.2)).map Address.text).count t =
      if firstField adds t = some f then 1 else 0 := by
  induction adds with
  | nil => rfl
  | cons p adds ih =>
      rw [List.map_cons, List.nodup_cons] at h
      by_cases ht : p.2.text = t
      · have hfirst : firstField (p :: adds) t = some p.1 := by simp [firstField, ht]
        have hnone : (((adds.filter fun p => p.1 = f).map (·.2)).map Address.text).count t = 0 := by
          rw [List.count_eq_zero, ← ht]
          intro hmem
          rw [List.map_map] at hmem
          obtain ⟨q, hq, heq⟩ := List.mem_map.mp hmem
          apply h.1
          rw [← heq]
          exact List.mem_map_of_mem (List.mem_filter.mp hq).1
        by_cases hf : p.1 = f
        · rw [hfirst, if_pos (congrArg some hf), List.filter_cons_of_pos (by simpa using hf),
            List.map_cons, List.map_cons, ht, List.count_cons_self, hnone]
        · rw [hfirst, if_neg fun h => hf (Option.some.inj h),
            List.filter_cons_of_neg (by simpa using hf), hnone]
      · have hfirst : firstField (p :: adds) t = firstField adds t := by simp [firstField, ht]
        rw [hfirst, ← ih h.2]
        by_cases hf : p.1 = f
        · rw [List.filter_cons_of_pos (by simpa using hf), List.map_cons, List.map_cons,
            List.count_cons_of_ne ht]
        · rw [List.filter_cons_of_neg (by simpa using hf)]

/-- How often an address is in the lists. -/
def total (e : Email) (t : Bytes) : Nat :=
  ((e.field .receipts ++ e.field .ccs ++ e.field .bccs).map Address.text).count t

theorem total_eq (e : Email) (t : Bytes) : e.total t =
    ((e.field .receipts).map Address.text).count t + ((e.field .ccs).map Address.text).count t +
      ((e.field .bccs).map Address.text).count t := by
  rw [total, List.map_append, List.map_append, List.count_append, List.count_append]

/-- An address that is added is in the lists once more, unless it is in all three of them. -/
theorem total_add (e : Email) (p : Field × Address) (t : Bytes) :
    min 2 (e.total t + if p.2.text = t then 1 else 0) ≤ (e.add p).total t := by
  rw [total_eq, total_eq]
  cases hexists : e.exists_ p.2 with
  | true =>
      have hsame : ∀ f, (e.add p).field f = e.field f := by
        intro f
        rw [field_add, if_neg fun h => absurd (hexists.symm.trans h.1) (by exact nofun)]
      rw [hsame, hsame, hsame]
      by_cases ht : p.2.text = t
      · have hmem := (exists_iff e p.2).mp hexists
        rw [ht] at hmem
        have hto := List.count_pos_iff.mpr (hmem .receipts)
        have hcc := List.count_pos_iff.mpr (hmem .ccs)
        omega
      · rw [if_neg ht]
        omega
  | false =>
      have hcount : ∀ f, (((e.add p).field f).map Address.text).count t =
          ((e.field f).map Address.text).count t + if p.1 = f ∧ p.2.text = t then 1 else 0 := by
        intro f
        rw [field_add]
        by_cases hf : p.1 = f
        · rw [if_pos ⟨hexists, hf⟩, List.map_append, List.count_append, List.map_singleton,
            List.count_singleton]
          simp [hf]
        · rw [if_neg fun h => hf h.2, if_neg fun h => hf h.1]
          rfl
      rw [hcount, hcount, hcount]
      by_cases ht : p.2.text = t
      · simp only [ht, and_true, if_true]
        cases p.1 <;> simp
      · simp only [ht, and_false, if_false]
        omega

theorem total_foldl (e : Email) (adds : List (Field × Address)) (t : Bytes) :
    min 2 (e.total t + (adds.map fun p => p.2.text).count t) ≤ (adds.foldl add e).total t := by
  induction adds generalizing e with
  | nil =>
      rw [List.map_nil, List.count_nil]
      exact Nat.min_le_right _ _
  | cons p adds ih =>
      have hstep := total_add e p t
      have hrest := ih (e.add p)
      rw [List.map_cons, List.count_cons, List.foldl_cons]
      simp only [beq_iff_eq]
      omega

end Email

/-! ## The commands -/

namespace Sock

variable {peer : Peer}

/-- A part that goes through is on the wire. -/
theorem send_data_wire {s s' : Sock} {data : Bytes} (h : s.send_data peer data = (true, s')) :
    s'.wire = s.wire ++ data := by
  unfold send_data send at h
  cases hw : peer.works s.ops with
  | true =>
      rw [hw] at h
      rw [← (Prod.mk.inj h).2]
  | false =>
      rw [hw] at h
      obtain ⟨hlen, rfl⟩ := Prod.mk.inj h
      have hnil : data = [] := List.length_eq_zero_iff.mp (of_decide_eq_true hlen).symm
      rw [hnil]
      exact (List.append_nil _).symm

theorem sendflush_wire {s s' : Sock} (h : s.sendflush peer = (true, s')) :
    s'.wire = s.wire ++ [CR, LF] := by
  unfold sendflush send at h
  cases hw : peer.works s.ops with
  | true =>
      rw [hw] at h
      rw [← (Prod.mk.inj h).2]
  | false =>
      rw [hw] at h
      nomatch h

/-- A line that goes through ends as often as it has parts. -/
theorem sendline_wire {s s' : Sock} {p : List Bytes} (h : s.sendline peer p = (true, s')) :
    s'.wire = s.wire ++ p.flatten ++ (List.replicate p.length [CR, LF]).flatten := by
  induction p generalizing s s' with
  | nil =>
      rw [← (Prod.mk.inj h).2]
      simp
  | cons data p ih =>
      rw [sendline] at h
      cases hdata : s.send_data peer data with
      | mk ok s₁ =>
          rw [hdata] at h
          cases ok with
          | false => nomatch h
          | true =>
              cases hrest : s₁.sendline peer p with
              | mk ok s₂ =>
                  replace h : (if !(s₁.sendline peer p).1 then (false, (s₁.sendline peer p).2)
                    else (s₁.sendline peer p).2.sendflush peer) = (true, s') := h
                  rw [hrest] at h
                  cases ok with
                  | false => nomatch h
                  | true =>
                      have hflush : s₂.sendflush peer = (true, s') := h
                      rw [sendflush_wire hflush, ih hrest, send_data_wire hdata, List.length_cons,
                        List.replicate_succ']
                      simp

/-- What the commands for some addresses are on the wire. -/
def commands (addrs : List Address) : List Bytes := addrs.flatMap fun a => [a.rcpt, [], []]

theorem sendaddresses_wire {s s' : Sock} {addrs : List Address}
    (h : s.sendaddresses peer addrs = some (true, s')) :
    s'.wire = s.wire ++ Lines.unlines CR LF (commands addrs) := by
  induction addrs generalizing s with
  | nil =>
      rw [← (Prod.mk.inj (Option.some.inj h)).2]
      exact (List.append_nil _).symm
  | cons a addrs ih =>
      rw [sendaddresses] at h
      cases hline : s.sendline peer [str "RCPT TO: <", a.text, str ">"] with
      | mk ok s₁ =>
          rw [hline] at h
          cases ok with
          | false => nomatch h
          | true =>
              cases hcode : peer.code s₁.ops with
              | none =>
                  replace h : (match s₁.getresponse peer with
                    | (none, _) => none
                    | (some _, s) => s.sendaddresses peer addrs) = some (true, s') := h
                  rw [getresponse, hcode] at h
                  nomatch h
              | some code =>
                  replace h : (match s₁.getresponse peer with
                    | (none, _) => none
                    | (some _, s) => s.sendaddresses peer addrs) = some (true, s') := h
                  rw [getresponse, hcode] at h
                  have hwire : s'.wire = s₁.wire ++ Lines.unlines CR LF (commands addrs) :=
                    ih (s := ⟨s₁.wire, s₁.ops + 1⟩) h
                  have hlines : commands (a :: addrs) = [a.rcpt, [], []] ++ commands addrs := rfl
                  rw [hwire, sendline_wire hline, hlines, Lines.unlines_append]
                  simp [Lines.unlines, Address.rcpt]

/-- All three lists are on the wire when `sendhead` says so. -/
theorem sendhead_wire {s s' : Sock} {msg : Email} (h : s.sendhead peer msg = some (true, s')) :
    s'.wire = s.wire ++ Lines.unlines CR LF (commands (msg.receipts ++ msg.ccs ++ msg.bccs)) := by
  unfold sendhead at h
  cases hto : s.sendaddresses peer msg.receipts with
  | none =>
      rw [hto] at h
      nomatch h
  | some r =>
      obtain ⟨ok, s₁⟩ := r
      rw [hto] at h
      cases ok with
      | false => nomatch h
      | true =>
          replace h : (do
            let (ok, s) ← s₁.sendaddresses peer msg.ccs
            if !ok then return (false, s)
            s.sendaddresses peer msg.bccs) = some (true, s') := h
          cases hcc : s₁.sendaddresses peer msg.ccs with
          | none =>
              rw [hcc] at h
              nomatch h
          | some r =>
              obtain ⟨ok, s₂⟩ := r
              rw [hcc] at h
              cases ok with
              | false => nomatch h
              | true =>
                  have hbcc : s₂.sendaddresses peer msg.bccs = some (true, s') := h
                  have hlines : commands (msg.receipts ++ msg.ccs ++ msg.bccs) =
                      commands msg.receipts ++ commands msg.ccs ++ commands msg.bccs := by
                    simp [commands]
                  rw [sendaddresses_wire hbcc, sendaddresses_wire hcc, sendaddresses_wire hto, hlines,
                    Lines.unlines_append, Lines.unlines_append]
                  simp only [List.append_assoc]

/-- Another end that takes everything. -/
def willing : Peer := ⟨fun _ => true, fun _ => some 250⟩

theorem sendaddresses_willing (s : Sock) (addrs : List Address) :
    ∃ s', s.sendaddresses willing addrs = some (true, s') := by
  induction addrs generalizing s with
  | nil => exact ⟨s, rfl⟩
  | cons a addrs ih =>
      rw [sendaddresses]
      have hline : ∀ p : List Bytes, ∀ s : Sock, (s.sendline willing p).1 = true := by
        intro p
        induction p with
        | nil => exact fun s => rfl
        | cons data p ihp =>
            intro s
            have hdata : s.send_data willing data = (true, ⟨s.wire ++ data, s.ops + 1⟩) :=
              Prod.ext (decide_eq_true rfl) rfl
            rw [sendline, hdata]
            show (if !(Sock.sendline willing ⟨s.wire ++ data, s.ops + 1⟩ p).1 then _
              else _ : Bool × Sock).1 = true
            rw [ihp]
            rfl
      have hok := hline [str "RCPT TO: <", a.text, str ">"] s
      cases hres : s.sendline willing [str "RCPT TO: <", a.text, str ">"] with
      | mk ok s₁ =>
          rw [hres] at hok
          subst hok
          exact ih _

theorem sendhead_willing (s : Sock) (msg : Email) : ∃ s', s.sendhead willing msg = some (true, s') := by
  obtain ⟨s₁, h₁⟩ := sendaddresses_willing s msg.receipts
  obtain ⟨s₂, h₂⟩ := sendaddresses_willing s₁ msg.ccs
  obtain ⟨s₃, h₃⟩ := sendaddresses_willing s₂ msg.bccs
  refine ⟨s₃, ?_⟩
  unfold sendhead
  rw [h₁]
  show (do
    let (ok, s) ← s₁.sendaddresses willing msg.ccs
    if !ok then return (false, s)
    s.sendaddresses willing msg.bccs) = _
  rw [h₂]
  exact h₃

end Sock

/-! ## What the server reads -/

theorem rcpt_injective {a b : Address} (h : a.rcpt = b.rcpt) : a.text = b.text :=
  List.append_cancel_left (List.append_cancel_right h)

theorem unbroken_rcpt (a : Address) : Unbroken CR LF a.rcpt ↔ Unbroken CR LF a.text := by
  have hpre : CR ∉ str "RCPT TO: <" := by decide
  have hpost : (62 : UInt8) ≠ LF := by decide
  unfold Address.rcpt
  rw [List.append_assoc, Lines.unbroken_append hpre]
  exact Lines.unbroken_concat hpost

/-- The server reads the commands, when none of them is broken. -/
theorem rcpts_commands {addrs : List Address} (h : ∀ a ∈ addrs, Unbroken CR LF a.text) :
    rcpts (Lines.unlines CR LF (Sock.commands addrs)) = addrs.map Address.rcpt := by
  have hne : CR ≠ LF := by decide
  have hlines : ∀ u ∈ Sock.commands addrs, Unbroken CR LF u := by
    intro u hu
    obtain ⟨a, ha, hu⟩ := List.mem_flatMap.mp hu
    simp only [List.mem_cons, List.not_mem_nil, or_false, or_self] at hu
    rcases hu with rfl | rfl
    · exact (unbroken_rcpt a).mpr (h a ha)
    · exact Lines.unbroken_nil
  have hread := Lines.lines_unlines hne hlines []
  rw [List.append_nil] at hread
  unfold rcpts
  rw [hread, Lines.lines_unbroken Lines.unbroken_nil, List.append_nil]
  clear hread hlines h
  induction addrs with
  | nil => rfl
  | cons a addrs ih =>
      have hhit : (str "RCPT TO:").isPrefixOf a.rcpt = true :=
        List.isPrefixOf_iff_prefix.mpr ⟨[SP, 60] ++ a.text ++ str ">", rfl⟩
      have hcommands : Sock.commands (a :: addrs) = [a.rcpt, [], []] ++ Sock.commands addrs := rfl
      rw [hcommands, List.filter_append, ih, List.filter_cons_of_pos hhit]
      rfl

namespace Email

theorem count_rcpt (addrs : List Address) (a : Address) :
    (addrs.map Address.rcpt).count a.rcpt = (addrs.map Address.text).count a.text := by
  induction addrs with
  | nil => rfl
  | cons b addrs ih =>
      rw [List.map_cons, List.map_cons, List.count_cons, List.count_cons, ih]
      by_cases h : b.text = a.text
      · rw [if_pos (by simp [Address.rcpt, h]), if_pos (by simpa using h)]
      · rw [if_neg fun heq => h (rcpt_injective (by simpa using heq)), if_neg (by simpa using h)]

/-- An address that is given is given for some list. -/
theorem firstField_isSome {adds : List (Field × Address)} {t : Bytes} :
    (firstField adds t).isSome ↔ ∃ p ∈ adds, p.2.text = t := by
  rw [firstField, Option.isSome_map, List.find?_isSome]
  simp

/-- The addresses are in the lists as they were given, all different. -/
theorem addresses_of_separate {adds : List (Field × Address)} (h : Separate adds) {e : Email}
    (hnone : ∀ f, e.field f = []) : (adds.foldl add e).Addresses adds := by
  have hfield : ∀ f, (adds.foldl add e).field f = (adds.filter fun p => p.1 = f).map (·.2) := by
    intro f
    have hnew : ∀ p ∈ adds, ∀ g, p.2.text ∉ (e.field g).map Address.text := by
      intro p _ g
      rw [hnone g]
      exact List.not_mem_nil
    rw [field_foldl h.distinct hnew, hnone, List.nil_append]
  have honce : ∀ t f, (((adds.foldl add e).field f).map Address.text).count t =
      if firstField adds t = some f then 1 else 0 := by
    intro t f
    rw [hfield, count_filter h.distinct]
  refine ⟨honce, ?_⟩
  intro peer s hs l
  have hmem : ∀ a ∈ (adds.foldl add e).field .receipts ++ (adds.foldl add e).field .ccs ++
      (adds.foldl add e).field .bccs, ∃ p ∈ adds, p.2 = a := by
    intro a ha
    have hone : ∀ f, a ∈ (adds.foldl add e).field f → ∃ p ∈ adds, p.2 = a := by
      intro f hf
      rw [hfield] at hf
      obtain ⟨p, hp, rfl⟩ := List.mem_map.mp hf
      exact ⟨p, (List.mem_filter.mp hp).1, rfl⟩
    rw [List.mem_append, List.mem_append] at ha
    rcases ha with (hto | hcc) | hbcc
    · exact hone _ hto
    · exact hone _ hcc
    · exact hone _ hbcc
  -- the commands of the head are one line for each address
  have hread : rcpts s.wire = ((adds.foldl add e).field .receipts ++
      (adds.foldl add e).field .ccs ++ (adds.foldl add e).field .bccs).map Address.rcpt := by
    have hwire : s.wire = Lines.unlines CR LF (Sock.commands _) := Sock.sendhead_wire hs
    rw [hwire]
    apply rcpts_commands
    intro a ha
    obtain ⟨p, hp, rfl⟩ := hmem a ha
    exact h.unbroken p hp
  rw [hread]
  -- an address is in the list of its first field and in no other
  by_cases hl : l ∈ adds.map fun p => p.2.rcpt
  · rw [if_pos hl]
    obtain ⟨p, hp, rfl⟩ := List.mem_map.mp hl
    obtain ⟨f, hf⟩ := Option.isSome_iff_exists.mp (firstField_isSome.mpr ⟨p, hp, rfl⟩)
    have htotal := total_eq (adds.foldl add e) p.2.text
    rw [honce, honce, honce, hf] at htotal
    rw [count_rcpt]
    refine htotal.trans ?_
    cases f <;> rfl
  · rw [if_neg hl, List.count_eq_zero]
    intro hin
    obtain ⟨a, ha, rfl⟩ := List.mem_map.mp hin
    obtain ⟨p, hp, rfl⟩ := hmem a ha
    exact hl (List.mem_map_of_mem hp)

/-- Each address is in one list once and gets one command when no address is given twice and none
holds the end of a line, and for no other calls. -/
theorem addresses_iff (addr : Address) (subject boundry : Bytes) (calls : List Call) :
    (calls.foldl call (new addr subject boundry)).Addresses (given addr calls) ↔
      Separate (given addr calls) := by
  have hrun : calls.foldl call (new addr subject boundry) = (given addr calls).foldl add
      ⟨str "text/plain", subject, boundry, [], [], [], [], []⟩ := foldl_call _ calls
  rw [hrun]
  constructor
  · intro h
    constructor
    · -- an address is in the lists as often as it is given, but for the third time and later
      rw [List.nodup_iff_count_le_one]
      intro t
      have hle := total_foldl ⟨str "text/plain", subject, boundry, [], [], [], [], []⟩
        (given addr calls) t
      have htotal := total_eq ((given addr calls).foldl add
        ⟨str "text/plain", subject, boundry, [], [], [], [], []⟩) t
      rw [h.once, h.once, h.once] at htotal
      have hone : (if firstField (given addr calls) t = some .receipts then 1 else 0) +
          (if firstField (given addr calls) t = some .ccs then 1 else 0) +
          (if firstField (given addr calls) t = some .bccs then 1 else 0) ≤ 1 := by
        cases firstField (given addr calls) t with
        | none => simp
        | some f => cases f <;> simp
      omega
    · intro p hp
      obtain ⟨s, hs⟩ := Sock.sendhead_willing ⟨[], 0⟩ ((given addr calls).foldl add
        ⟨str "text/plain", subject, boundry, [], [], [], [], []⟩)
      have hcount := h.sent _ s hs p.2.rcpt
      rw [if_pos (List.mem_map_of_mem (f := fun p => p.2.rcpt) hp)] at hcount
      have hmem : p.2.rcpt ∈ rcpts s.wire := List.count_pos_iff.mp (by omega)
      rw [← unbroken_rcpt]
      exact (Lines.lines_spec (by decide) s.wire).2.1 _ (List.mem_filter.mp hmem).1
  · exact fun h => addresses_of_separate h fun f => by cases f <;> rfl

/-- One address is given twice. -/
theorem not_addresses_twice : ¬ ∀ (addr : Address) (subject boundry : Bytes) (calls : List Call),
    (calls.foldl call (new addr subject boundry)).Addresses (given addr calls) := by
  intro h
  have honce := (h (.new (some (str "a@b")) none) (str "Hi") (str "c3VpbA==")
    [⟨.receipts, .new (some (str "a@b")) none, []⟩]).once (str "a@b") .receipts
  revert honce
  decide

end Email

end Suil
