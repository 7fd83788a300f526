import Suil.Email.Recipients

set_option autoImplicit false

/-! # The data of an e-mail

What `client::send` (`email.cpp`) writes behind the answer to DATA, and what a server and a reader of
MIME make of it. `not_delivers` says that it is never the message that was given, and
`carried_body_iff` when it is that message but for an empty line at its end. -/

namespace Suil

open Lines (Unbroken lines unlines)

/-! ## The text behind DATA -/

/-- `CRLF`. -/
def Email.CRLF : Bytes := [CR, LF]

/-- `encode(b)`. -/
def Address.encode (a : Address) : Bytes :=
  (if a.name.bytes ≠ [] then str "'" ++ a.name.bytes ++ str "'" else []) ++
    (str "<" ++ a.text ++ str ">")

/-- `filename()`. -/
def Attachment.filename (a : Attachment) : Bytes :=
  match strrchr (cstr a.fname) SLASH with
  | some tmp => tmp.tail
  | none => cstr a.fname

namespace Email

/-- Addresses with `", "` between them. -/
def encodeAll (addrs : List Address) : Bytes := (str ", ").intercalate (addrs.map Address.encode)

/-- `gethead(from)`, with the text of the time. -/
def gethead (e : Email) (date : Bytes) (sender : Address) : Bytes :=
  str "From: " ++ sender.encode ++ CRLF ++
  (str "To: " ++ encodeAll e.receipts ++ CRLF) ++
  (if e.ccs ≠ [] then str "Cc: " ++ encodeAll e.ccs ++ CRLF else []) ++
  (str "Subject: " ++ e.subject ++ CRLF) ++
  (str "MIME-Version: 1.0" ++ CRLF) ++
  (str "Date: " ++ date ++ CRLF) ++
  if e.attachments = [] then
    str "Content-Type: " ++ e.body_type ++ str "; charset=utf-8" ++ CRLF ++
      str "Content-Transfer-Encoding: 8bit" ++ CRLF ++ CRLF
  else
    str "Content-Type: multipart/mixed; boundary=\"" ++ e.boundry ++ str "\"" ++ CRLF ++ CRLF

/-- What stands in front of the body when there are attachments. -/
def bodyHead (e : Email) : Bytes :=
  str "--" ++ e.boundry ++ CRLF ++
    str "Content-Type: " ++ e.body_type ++ str "; charset=utf8" ++ CRLF ++
    str "Content-Encoding: 8bit" ++ CRLF ++ CRLF

/-- What stands in front of an attachment. -/
def attachmentHead (e : Email) (a : Attachment) : Bytes :=
  str "--" ++ e.boundry ++ CRLF ++
    str "Content-Type: " ++ a.mimetype ++ str "; name=\"" ++ a.filename ++ str "\"" ++ CRLF ++
    str "Content-Disposition: attachment; filename=\"" ++ a.filename ++ str "\"" ++ CRLF ++
    str "Content-Transfer-Encoding: 8bit" ++ CRLF ++ CRLF

end Email

namespace Sock

variable (peer : Peer)

/-- A `send` that is checked for having sent something. -/
def put (s : Sock) (data : Bytes) : Option Sock :=
  let (n, s) := s.send peer data
  if n = 0 then none else some s

/-- The `do … while (twrite < len)` of `Attachment::send`. -/
def sendChunks (s : Sock) (data : Bytes) : Option Sock :=
  match s.put peer (data.take 8912) with
  | none => none
  | some s => if 8912 < data.length then s.sendChunks (data.drop 8912) else some s
  termination_by data.length
  decreasing_by
    rw [List.length_drop]
    omega

variable (disk : Bytes → Option Bytes)

/-- `Attachment::send`, where `disk` is what can be loaded from a file. -/
def sendAttachment (s : Sock) (a : Attachment) : Option Sock :=
  match disk (cstr a.fname) with
  | none => none
  | some data => s.sendChunks peer data

/-- The loop over the attachments, with what is in the buffer in front of the next one. -/
def sendAttachments (s : Sock) (e : Email) (b : Bytes) : List Attachment → Option (Bytes × Sock)
  | [] => some (b, s)
  | a :: ats =>
      match s.put peer (b ++ e.attachmentHead a) with
      | none => none
      | some s =>
          match s.sendAttachment peer disk a with
          | none => none
          | some s => s.sendAttachments e (Email.CRLF ++ Email.CRLF) ats

/-- The end of the data, and the answer to it. -/
def sendEnd (s : Sock) : Option Sock :=
  let (ok, s) := s.sendline peer [Email.CRLF ++ str "."]
  if !ok then none
  else
    let (code, s) := s.getresponse peer
    if code = some 250 then some s else none

/-- What `client::send` does behind the answer to DATA; nothing where it throws. -/
def sendData (s : Sock) (date : Bytes) (sender : Address) (e : Email) : Option Sock := do
  let headers := e.gethead date sender
  let (n, s) := s.send peer headers
  if n ≠ headers.length then none
  let s ← if e.attachments = [] then some s else s.put peer e.bodyHead
  let s ← s.put peer e.bodybuf
  let s ←
    if e.attachments = [] then some s
    else do
      let (b, s) ← s.sendAttachments peer disk e (Email.CRLF ++ Email.CRLF) e.attachments
      s.put peer (b ++ str "--" ++ e.boundry ++ Email.CRLF)
  s.sendEnd peer

end Sock

/-! ## What is read -/

/-- A line without the dot that hides another one. -/
def unstuff (l : Bytes) : Bytes := if l.head? = some DOT then l.tail else l

/-- The lines of the message, when the first line that is a dot is the end of everything. -/
def readData (wire : Bytes) : Option (List Bytes) :=
  let (ls, r) := lines CR LF wire
  if ls.getLast? = some [DOT] ∧ [DOT] ∉ ls.dropLast ∧ r = [] then some (ls.dropLast.map unstuff)
  else none

/-- The lines of the header and those behind the first empty line. -/
def readHeader (msg : List Bytes) : List Bytes × List Bytes :=
  (msg.takeWhile (· ≠ []), (msg.dropWhile (· ≠ [])).tail)

/-- The lines between the delimiters of a multipart; those in front of the first one come first. There
are none when it is not closed, or when there is more than empty lines behind the closing delimiter. -/
def delimited (boundary : Bytes) : List Bytes → Option (List (List Bytes))
  | [] => none
  | l :: ls =>
      if l = str "--" ++ boundary ++ str "--" then
        if ∀ l' ∈ ls, l' = [] then some [[]] else none
      else
        match delimited boundary ls with
        | none => none
        | some segs =>
            if l = str "--" ++ boundary then some ([] :: segs)
            else some ((l :: segs.headD []) :: segs.tail)

/-- A part: its header, and its content, whose last line end belongs to the delimiter. -/
def readPart (seg : List Bytes) : List Bytes × Bytes :=
  ((readHeader seg).1, [CR, LF].intercalate (readHeader seg).2)

/-- The message has the body and the attachments of an e-mail, in order. -/
def Carries (disk : Bytes → Option Bytes) (e : Email) (msg : List Bytes) : Prop :=
  if e.attachments = [] then unlines CR LF (readHeader msg).2 = e.bodybuf
  else ∃ front body ats, delimited e.boundry (readHeader msg).2 = some (front :: body :: ats) ∧
    (readPart body).2 = e.bodybuf ∧
    List.Forall₂ (fun seg a => some (readPart seg).2 = disk (cstr a.fname) ∧
      str "Content-Disposition: attachment; filename=\"" ++ a.filename ++ str "\"" ∈ (readPart seg).1)
      ats e.attachments

/-- What is sent is read as one message with the body and the attachments. -/
def Delivers (peer : Peer) (disk : Bytes → Option Bytes) (date : Bytes) (sender : Address)
    (e : Email) : Prop :=
  ∃ s, Sock.sendData peer disk ⟨[], 0⟩ date sender e = some s ∧
    ∃ msg, readData s.wire = some msg ∧ Carries disk e msg

/-! ## What is on the wire -/

namespace Sock

variable {peer : Peer} {disk : Bytes → Option Bytes}

theorem put_wire {s s' : Sock} {data : Bytes} (h : s.put peer data = some s') :
    s'.wire = s.wire ++ data ∧ data ≠ [] := by
  unfold put send at h
  cases hw : peer.works s.ops with
  | false => simp [hw] at h
  | true =>
      rw [hw] at h
      replace h : (if data.length = 0 then none else some ⟨s.wire ++ data, s.ops + 1⟩) = some s' := h
      by_cases hlen : data.length = 0
      · simp [hlen] at h
      · rw [if_neg hlen] at h
        rw [← Option.some.inj h]
        exact ⟨rfl, fun hnil => hlen (congrArg List.length hnil)⟩

/-- What comes behind the wire of before. -/
def Extends (s s' : Sock) : Prop := ∃ x, s'.wire = s.wire ++ x

theorem Extends.trans {s₁ s₂ s₃ : Sock} (h : Extends s₁ s₂) (h' : Extends s₂ s₃) :
    Extends s₁ s₃ := by
  obtain ⟨x, hx⟩ := h
  obtain ⟨y, hy⟩ := h'
  exact ⟨x ++ y, by rw [hy, hx, List.append_assoc]⟩

theorem put_extends {s s' : Sock} {data : Bytes} (h : s.put peer data = some s') : Extends s s' :=
  ⟨data, (put_wire h).1⟩

theorem sendChunks_extends {s s' : Sock} {data : Bytes} (h : s.sendChunks peer data = some s') :
    Extends s s' := by
  fun_induction sendChunks with
  | case1 s data hput => nomatch h
  | case2 s data s₁ hput hlen ih => exact (put_extends hput).trans (ih h)
  | case3 s data s₁ hput hlen =>
      rw [← Option.some.inj h]
      exact put_extends hput

theorem sendAttachment_extends {s s' : Sock} {a : Attachment}
    (h : s.sendAttachment peer disk a = some s') : Extends s s' := by
  unfold sendAttachment at h
  cases hdisk : disk (cstr a.fname) with
  | none => simp [hdisk] at h
  | some data =>
      rw [hdisk] at h
      exact sendChunks_extends h

/-- The buffer is left with the end of an attachment. -/
theorem sendAttachments_extends {s s' : Sock} {e : Email} {b b' : Bytes} {ats : List Attachment}
    (h : s.sendAttachments peer disk e b ats = some (b', s')) :
    Extends s s' ∧ (b' = b ∨ b' = Email.CRLF ++ Email.CRLF) := by
  induction ats generalizing s b with
  | nil =>
      obtain ⟨rfl, rfl⟩ := Prod.mk.inj (Option.some.inj h)
      exact ⟨⟨[], (List.append_nil _).symm⟩, .inl rfl⟩
  | cons a ats ih =>
      rw [sendAttachments] at h
      cases hput : s.put peer (b ++ e.attachmentHead a) with
      | none => simp [hput] at h
      | some s₁ =>
          cases hsend : s₁.sendAttachment peer disk a with
          | none => simp [hput, hsend] at h
          | some s₂ =>
              simp only [hput, hsend] at h
              obtain ⟨hext, hb⟩ := ih h
              exact ⟨(put_extends hput).trans ((sendAttachment_extends hsend).trans hext),
                .inr (hb.elim id id)⟩

theorem sendEnd_wire {s s' : Sock} (h : s.sendEnd peer = some s') :
    s'.wire = s.wire ++ Email.CRLF ++ str "." ++ Email.CRLF := by
  unfold sendEnd at h
  cases hline : s.sendline peer [Email.CRLF ++ str "."] with
  | mk ok s₁ =>
      rw [hline] at h
      cases ok with
      | false => nomatch h
      | true =>
          replace h : (if peer.code s₁.ops = some 250 then
            some (⟨s₁.wire, s₁.ops + 1⟩ : Sock) else none) = some s' := h
          by_cases hcode : peer.code s₁.ops = some 250
          · rw [if_pos hcode] at h
            rw [← Option.some.inj h]
            show s₁.wire = _
            rw [sendline_wire hline]
            simp [Email.CRLF]
          · rw [if_neg hcode] at h
            nomatch h

/-- What is on the wire when nothing has been thrown. -/
theorem sendData_wire {s : Sock} {date : Bytes} {sender : Address} {e : Email}
    (h : sendData peer disk ⟨[], 0⟩ date sender e = some s) :
    (e.attachments = [] → e.bodybuf ≠ [] ∧
      s.wire = e.gethead date sender ++ e.bodybuf ++ Email.CRLF ++ str "." ++ Email.CRLF) ∧
    (e.attachments ≠ [] → ∃ x, s.wire =
      x ++ Email.CRLF ++ str "--" ++ e.boundry ++ Email.CRLF ++ Email.CRLF ++ str "." ++ Email.CRLF) := by
  unfold sendData at h
  by_cases hlen : (send peer ⟨[], 0⟩ (e.gethead date sender)).1 = (e.gethead date sender).length
  · have hhead : (send peer ⟨[], 0⟩ (e.gethead date sender)).2.wire = e.gethead date sender :=
      send_data_wire (s := ⟨[], 0⟩) (Prod.ext (decide_eq_true hlen) rfl)
    simp only [hlen, ne_eq, not_true_eq_false, if_false, Option.bind_eq_bind,
      Option.bind_some] at h
    constructor
    · intro hat
      simp only [hat, if_true] at h
      obtain ⟨s₁, hbody, hend⟩ := Option.bind_eq_some_iff.mp h
      obtain ⟨hwire, hne⟩ := put_wire hbody
      exact ⟨hne, by rw [sendEnd_wire hend, hwire, hhead]⟩
    · intro hat
      simp only [hat, if_false] at h
      obtain ⟨s₁, hbodyHead, h⟩ := Option.bind_eq_some_iff.mp h
      obtain ⟨s₂, hbody, h⟩ := Option.bind_eq_some_iff.mp h
      obtain ⟨⟨b, s₃⟩, hats, h⟩ := Option.bind_eq_some_iff.mp h
      obtain ⟨s₄, hclose, hend⟩ := Option.bind_eq_some_iff.mp h
      have hb : b = Email.CRLF ++ Email.CRLF := (sendAttachments_extends hats).2.elim id id
      refine ⟨s₃.wire ++ Email.CRLF, ?_⟩
      rw [sendEnd_wire hend, (put_wire hclose).1, hb]
      simp only [List.append_assoc]
  · simp [hlen] at h

end Sock

/-! ## Reading it -/

private theorem cr_ne_lf : CR ≠ LF := by decide

/-- The lines of a text, and what is behind them as one more line. -/
def allLines (t : Bytes) : List Bytes := (lines CR LF t).1 ++ [(lines CR LF t).2]

theorem allLines_append (t l : Bytes) :
    allLines (t ++ Email.CRLF ++ l) = allLines t ++ allLines l := by
  unfold allLines
  rw [show t ++ Email.CRLF ++ l = t ++ CR :: LF :: l by simp [Email.CRLF],
    Lines.lines_append_end cr_ne_lf]
  simp

theorem allLines_unbroken {t : Bytes} (h : Unbroken CR LF t) : allLines t = [t] := by
  unfold allLines
  rw [Lines.lines_unbroken h]
  rfl

theorem unbroken_of_mem_allLines {t u : Bytes} (h : u ∈ allLines t) : Unbroken CR LF u := by
  obtain ⟨-, hlines, hrest⟩ := Lines.lines_spec cr_ne_lf t
  rcases List.mem_append.mp h with hu | hu
  · exact hlines u hu
  · rw [List.mem_singleton.mp hu]
    exact hrest

theorem unbroken_unstuff {l : Bytes} (h : Unbroken CR LF l) : Unbroken CR LF (unstuff l) := by
  unfold unstuff
  split
  · cases l with
    | nil => exact h
    | cons c l => exact (Lines.unbroken_cons.mp h).2
  · exact h

/-- Text in front of the end of the data is read as its lines, unless a dot is one of them. -/
theorem readData_end (t : Bytes) : readData (t ++ Email.CRLF ++ str "." ++ Email.CRLF) =
    if [DOT] ∈ allLines t then none else some ((allLines t).map unstuff) := by
  have hread : lines CR LF (t ++ Email.CRLF ++ str "." ++ Email.CRLF) =
      (allLines t ++ [[DOT]], []) := by
    unfold allLines
    rw [show t ++ Email.CRLF ++ str "." ++ Email.CRLF = t ++ CR :: LF :: [DOT, CR, LF] by
      simp [Email.CRLF, show str "." = [DOT] from rfl], Lines.lines_append_end cr_ne_lf]
    rw [show lines CR LF [DOT, CR, LF] = ([[DOT]], []) by decide, List.append_assoc]
    rfl
  unfold readData
  rw [hread]
  simp only [List.dropLast_concat, List.getLast?_concat, true_and, and_true, ite_not]

theorem eq_of_readData {t : Bytes} {msg : List Bytes}
    (h : readData (t ++ Email.CRLF ++ str "." ++ Email.CRLF) = some msg) :
    msg = (allLines t).map unstuff := by
  rw [readData_end] at h
  split at h
  · nomatch h
  · exact (Option.some.inj h).symm

/-- A text with an end of a line and one more is read with an empty line. -/
theorem readHeader_append (front rest : List Bytes) :
    ∃ more, (readHeader (front ++ [] :: rest)).2 = more ++ rest := by
  induction front with
  | nil => exact ⟨[], rfl⟩
  | cons l front ih =>
      by_cases hl : l = []
      · refine ⟨front ++ [[]], ?_⟩
        rw [hl, List.append_assoc]
        rfl
      · obtain ⟨more, hmore⟩ := ih
        refine ⟨more, ?_⟩
        rw [← hmore]
        simp [readHeader, hl]

/-- The header ends where the code says so, or before. -/
theorem gethead_end (e : Email) (date : Bytes) (sender : Address) :
    ∃ h, e.gethead date sender = h ++ Email.CRLF ++ Email.CRLF := by
  unfold Email.gethead
  by_cases hat : e.attachments = []
  · simp only [hat, if_true, ← List.append_assoc]
    exact ⟨_, rfl⟩
  · simp only [hat, if_false, ← List.append_assoc]
    exact ⟨_, rfl⟩

/-- What is closed ends with the closing delimiter, but for empty lines. -/
theorem delimited_closed {boundary : Bytes} {ls : List Bytes} {segs : List (List Bytes)}
    (h : delimited boundary ls = some segs) :
    ∃ u v, ls = u ++ (str "--" ++ boundary ++ str "--") :: v ∧ ∀ l ∈ v, l = [] := by
  induction ls generalizing segs with
  | nil => nomatch h
  | cons l ls ih =>
      rw [delimited] at h
      by_cases hl : l = str "--" ++ boundary ++ str "--"
      · rw [if_pos hl] at h
        split at h
        · rename_i hempty
          exact ⟨[], ls, by rw [hl]; rfl, hempty⟩
        · nomatch h
      · rw [if_neg hl] at h
        cases hrest : delimited boundary ls with
        | none => simp [hrest] at h
        | some segs' =>
            obtain ⟨u, v, huv, hv⟩ := ih hrest
            exact ⟨l :: u, v, by rw [huv]; rfl, hv⟩

theorem readHeader_suffix (msg : List Bytes) : (readHeader msg).2 <:+ msg :=
  (List.tail_suffix _).trans (List.dropWhile_suffix _)

section

variable {peer : Peer} {disk : Bytes → Option Bytes} {date : Bytes} {sender : Address} {e : Email}

/-- Without attachments the message has at least one line more than the body. -/
theorem not_delivers_plain (hat : e.attachments = []) : ¬ Delivers peer disk date sender e := by
  rintro ⟨s, hs, msg, hread, hcarries⟩
  obtain ⟨-, hwire⟩ := (Sock.sendData_wire hs).1 hat
  obtain ⟨h, hhead⟩ := gethead_end e date sender
  rw [hwire] at hread
  have hmsg : msg = (allLines h).map unstuff ++ [] :: (allLines e.bodybuf).map unstuff := by
    rw [eq_of_readData hread, hhead, allLines_append, ← List.append_nil (h ++ Email.CRLF),
      allLines_append, allLines_unbroken Lines.unbroken_nil]
    simp [unstuff]
  obtain ⟨more, hmore⟩ :=
    readHeader_append ((allLines h).map unstuff) ((allLines e.bodybuf).map unstuff)
  have hbody : unlines CR LF (more ++ (allLines e.bodybuf).map unstuff) = e.bodybuf := by
    unfold Carries at hcarries
    rwa [if_pos hat, hmsg, hmore] at hcarries
  have hunbroken : ∀ u ∈ more ++ (allLines e.bodybuf).map unstuff, Unbroken CR LF u := by
    intro u hu
    rw [← hmore, ← hmsg] at hu
    have hin : u ∈ msg := (readHeader_suffix msg).subset hu
    rw [eq_of_readData hread] at hin
    obtain ⟨l, hl, rfl⟩ := List.mem_map.mp hin
    exact unbroken_unstuff (unbroken_of_mem_allLines hl)
  have hlines := Lines.lines_unlines cr_ne_lf hunbroken []
  rw [List.append_nil, hbody] at hlines
  have hlen := congrArg (fun r => r.1.length) hlines
  simp [allLines, Lines.lines_unbroken Lines.unbroken_nil] at hlen
  omega

/-- With attachments the multipart is not closed. -/
theorem not_delivers_attached (hat : e.attachments ≠ []) : ¬ Delivers peer disk date sender e := by
  rintro ⟨s, hs, msg, hread, hcarries⟩
  obtain ⟨x, hwire⟩ := (Sock.sendData_wire hs).2 hat
  unfold Carries at hcarries
  rw [if_neg hat] at hcarries
  obtain ⟨front, body, ats, hdelimited, -⟩ := hcarries
  obtain ⟨u, v, huv, hv⟩ := delimited_closed hdelimited
  obtain ⟨w, hw⟩ := readHeader_suffix msg
  rw [huv] at hw
  rw [hwire] at hread
  have hmsg := eq_of_readData hread
  -- the boundary is in a line, so that it does not hold the end of one
  have hboundary : Unbroken CR LF e.boundry := by
    have hin : str "--" ++ e.boundry ++ str "--" ∈ msg := by
      rw [← hw]
      simp
    rw [hmsg] at hin
    obtain ⟨l, hl, heq⟩ := List.mem_map.mp hin
    have hclose := unbroken_unstuff (unbroken_of_mem_allLines hl)
    rw [heq] at hclose
    exact fun hb => hclose (hb.trans ⟨str "--", str "--", rfl⟩)
  have hdelim : Unbroken CR LF (str "--" ++ e.boundry) :=
    (Lines.unbroken_append (by decide)).mpr hboundary
  have hlast : msg = (allLines x).map unstuff ++ [str "--" ++ e.boundry, []] := by
    rw [hmsg, List.append_assoc (x ++ Email.CRLF), ← List.append_nil (_ ++ Email.CRLF),
      allLines_append, allLines_append, allLines_unbroken hdelim,
      allLines_unbroken Lines.unbroken_nil]
    simp [unstuff, show str "--" = [45, 45] from rfl, DOT]
  -- the last line that is not empty is the delimiter, and not the closing one
  have hempty : v.filter (· ≠ []) = [] := by
    rw [List.filter_eq_nil_iff]
    intro l hl
    simp [hv l hl]
  have hclosed : msg.filter (· ≠ []) =
      (w ++ u).filter (· ≠ []) ++ [str "--" ++ e.boundry ++ str "--"] := by
    rw [← hw, ← List.append_assoc, List.filter_append, List.filter_cons_of_pos, hempty]
    simp [show str "--" = [45, 45] from rfl]
  have hopen : msg.filter (· ≠ []) =
      ((allLines x).map unstuff).filter (· ≠ []) ++ [str "--" ++ e.boundry] := by
    rw [hlast, List.filter_append, List.filter_cons_of_pos]
    · rfl
    · simp [show str "--" = [45, 45] from rfl]
  have heq := List.append_inj_right' (hclosed.symm.trans hopen) rfl
  have hlen := congrArg List.length (List.cons.inj heq).1
  simp [show str "--" = [45, 45] from rfl] at hlen

variable (peer disk date sender e)

/-- What is sent is never read as the message that was given. -/
theorem not_delivers : ¬ Delivers peer disk date sender e := by
  by_cases hat : e.attachments = []
  · exact not_delivers_plain hat
  · exact not_delivers_attached hat

end

/-- No line at all, with a header that has the end of a line in none of its fields. -/
theorem not_delivers_line : ¬ ∀ (e : Email), Delivers Sock.willing (fun _ => none) (str "Thu")
    (.new (some (str "a@b")) none) e :=
  fun h => not_delivers_plain rfl (h (.new (.new (some (str "c@d")) none) (str "Hi") (str "c3VpbA==")))

/-! ## But for the last line -/

/-- The lines of the header, for an e-mail without attachments. -/
def headLines (e : Email) (date : Bytes) (sender : Address) : List Bytes :=
  [str "From: " ++ sender.encode, str "To: " ++ Email.encodeAll e.receipts] ++
  (if e.ccs ≠ [] then [str "Cc: " ++ Email.encodeAll e.ccs] else []) ++
  [str "Subject: " ++ e.subject, str "MIME-Version: 1.0", str "Date: " ++ date,
    str "Content-Type: " ++ e.body_type ++ str "; charset=utf-8",
    str "Content-Transfer-Encoding: 8bit"]

/-- No field of the header holds the end of a line. -/
structure Headed (e : Email) (date : Bytes) (sender : Address) : Prop where
  sender : Unbroken CR LF sender.encode
  receipts : Unbroken CR LF (Email.encodeAll e.receipts)
  ccs : Unbroken CR LF (Email.encodeAll e.ccs)
  subject : Unbroken CR LF e.subject
  date : Unbroken CR LF date
  body_type : Unbroken CR LF (e.body_type ++ str "; charset=utf-8")

section

variable {e : Email} {date : Bytes} {sender : Address}

theorem gethead_eq (hat : e.attachments = []) :
    e.gethead date sender = unlines CR LF (headLines e date sender) ++ Email.CRLF := by
  unfold Email.gethead headLines
  rw [if_pos hat]
  by_cases hcc : e.ccs = []
  · simp [hcc, unlines, Email.CRLF]
  · simp [hcc, unlines, Email.CRLF]

/-- The lines of the header are lines, and none of them is empty or begins with a dot. -/
theorem headLines_spec (h : Headed e date sender) : ∀ l ∈ headLines e date sender,
    Unbroken CR LF l ∧ l ≠ [] ∧ l.head? ≠ some DOT := by
  have hfield : ∀ (name : Bytes) (value : Bytes), CR ∉ name → name ≠ [] → name.head? ≠ some DOT →
      Unbroken CR LF value →
      Unbroken CR LF (name ++ value) ∧ name ++ value ≠ [] ∧ (name ++ value).head? ≠ some DOT := by
    intro name value hcr hne hdot hvalue
    refine ⟨(Lines.unbroken_append hcr).mpr hvalue, by simp [hne], ?_⟩
    rwa [List.head?_append_of_ne_nil _ hne]
  have hnil : Unbroken CR LF [] := Lines.unbroken_nil
  intro l hl
  unfold headLines at hl
  simp only [List.mem_append, List.mem_cons, List.not_mem_nil, or_false] at hl
  rcases hl with ((rfl | rfl) | hcc) | rfl | rfl | rfl | rfl | rfl
  · exact hfield _ _ (by decide) (by decide) (by decide) h.sender
  · exact hfield _ _ (by decide) (by decide) (by decide) h.receipts
  · split at hcc
    · rw [List.mem_singleton.mp hcc]
      exact hfield _ _ (by decide) (by decide) (by decide) h.ccs
    · nomatch hcc
  · exact hfield _ _ (by decide) (by decide) (by decide) h.subject
  · exact hfield (str "MIME-Version: 1.0") [] (by decide) (by decide) (by decide) hnil
  · exact hfield _ _ (by decide) (by decide) (by decide) h.date
  · rw [List.append_assoc]
    exact hfield _ _ (by decide) (by decide) (by decide) h.body_type
  · exact hfield (str "Content-Transfer-Encoding: 8bit") [] (by decide) (by decide) (by decide) hnil

theorem unstuff_eq_self_iff {l : Bytes} : unstuff l = l ↔ l.head? ≠ some DOT := by
  unfold unstuff
  cases l with
  | nil => simp
  | cons c l =>
      by_cases hc : c = DOT
      · simp [hc]
      · simp [hc]

theorem map_unstuff_eq_self_iff {ls : List Bytes} :
    ls.map unstuff = ls ↔ ∀ l ∈ ls, l.head? ≠ some DOT := by
  have hmap := List.map_inj_left (f := unstuff) (g := id) (l := ls)
  rw [List.map_id] at hmap
  rw [hmap]
  exact forall₂_congr fun l _ => unstuff_eq_self_iff

/-- The header ends at the first empty line. -/
theorem readHeader_of_ne {front : List Bytes} (h : ∀ l ∈ front, l ≠ []) (rest : List Bytes) :
    (readHeader (front ++ [] :: rest)).2 = rest := by
  induction front with
  | nil => rfl
  | cons l front ih =>
      rw [List.forall_mem_cons] at h
      have hskip : readHeader (l :: front ++ [] :: rest) =
          (l :: (readHeader (front ++ [] :: rest)).1, (readHeader (front ++ [] :: rest)).2) := by
        simp [readHeader, h.1]
      rw [hskip]
      exact ih h.2

/-- The socket that takes everything takes a body that is not empty. -/
theorem sendData_willing (disk : Bytes → Option Bytes) (date : Bytes) (sender : Address)
    (hat : e.attachments = []) (hne : e.bodybuf ≠ []) :
    ∃ s, Sock.sendData Sock.willing disk ⟨[], 0⟩ date sender e = some s := by
  have hput : ∀ s : Sock, s.put Sock.willing e.bodybuf =
      some ⟨s.wire ++ e.bodybuf, s.ops + 1⟩ := by
    intro s
    exact if_neg fun hlen => hne (List.length_eq_zero_iff.mp hlen)
  have hend : ∀ s : Sock, ∃ s', s.sendEnd Sock.willing = some s' := fun s => ⟨_, rfl⟩
  have hsend : (Sock.send Sock.willing ⟨[], 0⟩ (e.gethead date sender)).1 =
      (e.gethead date sender).length := rfl
  unfold Sock.sendData
  simp only [hat, hsend, ne_eq, not_true_eq_false, if_false, if_true, Option.bind_eq_bind,
    Option.bind_some, hput]
  exact hend _

/-- Without attachments, and with the lines of the header as they are meant, the message has the body
and one empty line more when the body is not empty and none of its lines begins with a dot. -/
theorem carried_body_iff (disk : Bytes → Option Bytes) (hat : e.attachments = [])
    (hhead : Headed e date sender) (hbody : (lines CR LF e.bodybuf).2 = []) :
    (∃ s, Sock.sendData Sock.willing disk ⟨[], 0⟩ date sender e = some s ∧
      ∃ msg, readData s.wire = some msg ∧
        unlines CR LF (readHeader msg).2 = e.bodybuf ++ Email.CRLF) ↔
      e.bodybuf ≠ [] ∧ ∀ l ∈ (lines CR LF e.bodybuf).1, l.head? ≠ some DOT := by
  obtain ⟨htext, hlines, -⟩ := Lines.lines_spec cr_ne_lf e.bodybuf
  have hspec := headLines_spec hhead
  rw [hbody, List.append_nil] at htext
  -- the lines that are sent, with the empty one in front of the dot
  have hall : allLines (e.gethead date sender ++ e.bodybuf) =
      headLines e date sender ++ [] :: ((lines CR LF e.bodybuf).1 ++ [[]]) := by
    have hread := Lines.lines_unlines cr_ne_lf (fun l hl => (hspec l hl).1)
      (CR :: LF :: e.bodybuf)
    have hempty := Lines.lines_append_end cr_ne_lf [] e.bodybuf
    rw [List.nil_append, Lines.lines_unbroken Lines.unbroken_nil] at hempty
    unfold allLines
    rw [gethead_eq hat, List.append_assoc, show Email.CRLF ++ e.bodybuf = CR :: LF :: e.bodybuf from rfl,
      hread, hempty, hbody]
    simp
  have hsame : (headLines e date sender).map unstuff = headLines e date sender :=
    map_unstuff_eq_self_iff.mpr fun l hl => (hspec l hl).2.2
  have hheader : (readHeader ((allLines (e.gethead date sender ++ e.bodybuf)).map unstuff)).2 =
      (lines CR LF e.bodybuf).1.map unstuff ++ [[]] := by
    rw [hall, List.map_append, hsame, List.map_cons, List.map_append]
    exact readHeader_of_ne (fun l hl => (hspec l hl).2.1) _
  constructor
  · rintro ⟨s, hs, msg, hread, hcarries⟩
    obtain ⟨hne, hwire⟩ := (Sock.sendData_wire hs).1 hat
    rw [hwire] at hread
    refine ⟨hne, map_unstuff_eq_self_iff.mp ?_⟩
    have hgiven : e.bodybuf ++ Email.CRLF = unlines CR LF ((lines CR LF e.bodybuf).1 ++ [[]]) := by
      rw [Lines.unlines_append, ← htext]
      rfl
    rw [eq_of_readData hread, hheader, hgiven] at hcarries
    have hunstuffed : ∀ l ∈ (lines CR LF e.bodybuf).1.map unstuff ++ [[]], Unbroken CR LF l := by
      intro l hl
      rcases List.mem_append.mp hl with hl | hl
      · obtain ⟨l', hl', rfl⟩ := List.mem_map.mp hl
        exact unbroken_unstuff (hlines l' hl')
      · rw [List.mem_singleton.mp hl]
        exact Lines.unbroken_nil
    have hgivenLines : ∀ l ∈ (lines CR LF e.bodybuf).1 ++ [[]], Unbroken CR LF l := by
      intro l hl
      rcases List.mem_append.mp hl with hl | hl
      · exact hlines l hl
      · rw [List.mem_singleton.mp hl]
        exact Lines.unbroken_nil
    have h₁ := Lines.lines_unlines cr_ne_lf hunstuffed []
    have h₂ := Lines.lines_unlines cr_ne_lf hgivenLines []
    rw [List.append_nil] at h₁ h₂
    rw [hcarries, h₂] at h₁
    have heq := congrArg Prod.fst h₁
    simpa using heq.symm
  · rintro ⟨hne, hdot⟩
    obtain ⟨s, hs⟩ := sendData_willing disk date sender hat hne
    obtain ⟨-, hwire⟩ := (Sock.sendData_wire hs).1 hat
    have hdots : [DOT] ∉ allLines (e.gethead date sender ++ e.bodybuf) := by
      rw [hall]
      intro hmem
      rcases List.mem_append.mp hmem with hmem | hmem
      · exact (hspec _ hmem).2.2 rfl
      · rcases List.mem_cons.mp hmem with heq | hmem
        · nomatch heq
        · rcases List.mem_append.mp hmem with hmem | hmem
          · exact hdot _ hmem rfl
          · nomatch List.mem_singleton.mp hmem
    refine ⟨s, hs, (allLines (e.gethead date sender ++ e.bodybuf)).map unstuff, ?_, ?_⟩
    · rw [hwire, readData_end, if_neg hdots]
    · rw [hheader, map_unstuff_eq_self_iff.mpr hdot, Lines.unlines_append, ← htext]
      rfl

end

end Suil
