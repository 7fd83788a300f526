import Suil.Http.Request

set_option autoImplicit false

/-! # Reading a body back

`Request::read_body` and `Request::body_seek` (`request.cpp`) on a body that has been received, which is
in memory or in a file. `readsBack_iff` says which calls read the body: in memory those that stay inside
of it, and of what 16 bits can tell; in a file none that reads anything. -/

namespace Suil.Http.Request

variable {σ : Type}

/-! ## Bodies that have been received -/

/-- The request with a body in memory, at a place in it. There may be more memory behind the body. -/
def inMemory (r : Request σ) (spare : Bytes) (size : Nat) (body : Bytes) (place : Nat) : Request σ :=
  { r with
    body := ⟨some (body ++ spare), size, body.length⟩
    body_read := true
    body_error := false
    offload := none
    body_offset := place }

/-- The request with a body in a file, wherever that is read next. -/
def onDisk (r : Request σ) (body : Bytes) (pos : Nat) : Request σ :=
  { r with
    body_error := false
    offload_error := false
    offload := some ⟨some ⟨body, pos⟩, body.length⟩
    body_offset := 0 }

/-- What stays so when the calls do not read. -/
structure OnDisk (body : Bytes) (r : Request σ) : Prop where
  offload : ∃ pos, r.offload = some ⟨some ⟨body, pos⟩, body.length⟩
  offload_error : r.offload_error = false
  body_error : r.body_error = false

/-- Nothing is read before a place behind the body is sought. -/
def Idle (n : Nat) : List Access → Prop
  | [] => True
  | .read len :: as => len = 0 ∧ Idle n as
  | .seek off :: as => off ≤ n → Idle n as

/-! ## Memory -/

section

variable (r : Request σ) (spare : Bytes) (size : Nat)

theorem read_body_zero (stale : Bool) (body : Bytes) (pos : Nat) :
    read_body stale r 0 = .ok (expected body pos 0, r) := rfl

/-- What `read_body` does in memory. -/
theorem read_body_inMemory (stale : Bool) {body : Bytes} {place len : Nat} (hlen : 0 < len)
    (hmax : len ≤ SSIZE_MAX) (hplace : place ≤ body.length) (hlt : body.length < OBuffer.UINT32) :
    read_body stale (r.inMemory spare size body place) len =
      .ok (⟨len, if place + len ≤ body.length then (body.drop place).take len else []⟩,
        r.inMemory spare size body ((place + len) % OBuffer.UINT32)) := by
  have hdiff : diff body.length place = body.length - place := by
    unfold diff OBuffer.UINT32 at *
    omega
  have hcontents : (r.inMemory spare size body place).body.contents = body := List.take_left
  have hread : read_body stale (r.inMemory spare size body place) len =
      (r.inMemory spare size body place).readMemory len := by
    have hbranch : ¬ (!(r.inMemory spare size body place).body_read ||
        !(r.inMemory spare size body place).offload_error &&
          (r.inMemory spare size body place).offload.isSome) = true := by
      simp [inMemory]
    rw [read_body, if_neg (by omega), if_neg hbranch]
  rw [hread, readMemory, hcontents]
  show (if len ≤ diff body.length place then if place ≤ body.length then _ else _ else _) = _
  rw [hdiff, if_pos hplace]
  by_cases hin : place + len ≤ body.length
  · rw [if_pos (by omega), if_pos hin]
    rfl
  · rw [if_neg (by omega), if_neg hin]
    rfl

/-- A read inside of the body. -/
theorem read_body_inside (stale : Bool) {body : Bytes} {place len : Nat} (hlen : 0 < len)
    (hin : place + len ≤ body.length) (hlt : body.length < OBuffer.UINT32) :
    read_body stale (r.inMemory spare size body place) len =
        .ok (expected body place len, r.inMemory spare size body (place + len)) ∧
      (expected body place len).stored.length = len := by
  have hlength : ((body.drop place).take len).length = len := by
    rw [List.length_take, List.length_drop]
    omega
  have hexpected : expected body place len = ⟨len, (body.drop place).take len⟩ := by
    rw [expected, if_neg (Nat.ne_of_gt hlen), hlength]
  have hmax : len ≤ SSIZE_MAX := by
    unfold SSIZE_MAX OBuffer.UINT32 at *
    omega
  rw [hexpected, read_body_inMemory r spare size stale hlen hmax (by omega) hlt, if_pos hin,
    Nat.mod_eq_of_lt (by omega)]
  exact ⟨rfl, hlength⟩

theorem body_seek_inMemory (body : Bytes) (place off : Nat) :
    (r.inMemory spare size body place).body_seek off =
      .ok (true, r.inMemory spare size body (off % 2 ^ 16)) := rfl

/-- Calls that stay inside read the body. -/
theorem delivers_of_inside {body : Bytes} (hlt : body.length < OBuffer.UINT32) {as : List Access}
    {known : Option Nat} {pos place : Nat} (hknown : ∀ p, known = some p → pos = p ∧ place = p)
    (h : Inside body.length known as) : Delivers body pos (r.inMemory spare size body place) as := by
  induction as generalizing known pos place with
  | nil => trivial
  | cons a as ih =>
      cases a with
      | read len =>
          intro stale
          rcases h with ⟨rfl, hrest⟩ | ⟨hlen, p, hp, hin, hrest⟩
          · exact ⟨_, read_body_zero _ stale body pos, ih hknown hrest⟩
          · obtain ⟨rfl, rfl⟩ := hknown p hp
            obtain ⟨hread, hstored⟩ := read_body_inside r spare size stale hlen hin hlt
            refine ⟨_, hread, ?_⟩
            rw [hstored]
            exact ih (fun q hq => ⟨Option.some.inj hq, Option.some.inj hq⟩) hrest
      | seek off =>
          intro hle
          refine ⟨_, body_seek_inMemory r spare size body place off, ih ?_ (h hle)⟩
          intro p hp
          split_ifs at hp with hnear
          obtain rfl := Option.some.inj hp
          exact ⟨rfl, Nat.mod_eq_of_lt hnear⟩

/-- A body with one byte that is not zero. -/
def marked (n pos : Nat) : Bytes := (List.replicate n 0).set pos 1

theorem marked_length (n pos : Nat) : (marked n pos).length = n := by
  rw [marked, List.length_set, List.length_replicate]

/-- Behind the end, and where the place is another one, there is a body that is not read. -/
theorem not_read_marked {n pos place len : Nat} (hn : n < OBuffer.UINT32) (hlen : 0 < len)
    (hplace : place ≤ n) (h : n < pos + len ∨ place ≠ pos) (r' : Request σ) :
    read_body false (r.inMemory spare size (marked n pos) place) len ≠
      .ok (expected (marked n pos) pos len, r') := by
  intro hread
  rw [expected, if_neg (Nat.ne_of_gt hlen)] at hread
  by_cases hmax : len ≤ SSIZE_MAX
  · rw [read_body_inMemory r spare size false hlen hmax (by rwa [marked_length])
      (by rwa [marked_length])] at hread
    obtain ⟨hret, hstored⟩ := Result.mk.inj (Prod.mk.inj (Except.ok.inj hread)).1
    have hin := Int.ofNat.inj hret
    rw [List.length_take, List.length_drop, marked_length] at hin
    have hother : place ≠ pos := h.resolve_left (by omega)
    -- the mark is the first byte that should be read
    have hfirst := congrArg (fun s : Bytes => s[0]?) hstored
    have hmark : (marked n pos)[pos]? = some 1 := by
      rw [marked, List.getElem?_set_self (by rw [List.length_replicate]; omega)]
    have hzero : (marked n pos)[place]? ≠ some 1 := by
      rw [marked, List.getElem?_set_ne (Ne.symm hother), List.getElem?_replicate]
      split_ifs
      · decide
      · exact nofun
    simp only [List.getElem?_take_of_lt hlen, List.getElem?_drop, Nat.add_zero, hmark] at hfirst
    split_ifs at hfirst
    · rw [List.getElem?_take_of_lt hlen, List.getElem?_drop, Nat.add_zero] at hfirst
      exact hzero hfirst
    · nomatch hfirst
  · rw [read_body, if_pos (.inr (Nat.lt_of_not_le hmax))] at hread
    have hret := (Result.mk.inj (Prod.mk.inj (Except.ok.inj hread)).1).1
    omega

/-- Calls that read every body of that size stay inside. -/
theorem inside_of_delivers {n : Nat} (hn : n < OBuffer.UINT32) {as : List Access}
    {known : Option Nat} {pos place : Nat} (hpos : pos ≤ n) (hplace : place ≤ n)
    (hknown : known = some pos ∧ place = pos ∨ known = none ∧ place ≠ pos)
    (h : ∀ body : Bytes, body.length = n →
      Delivers body pos (r.inMemory spare size body place) as) : Inside n known as := by
  -- on the calls, with the place that the file is at
  induction as generalizing known pos place with
  | nil => trivial
  | cons a as ih =>
      cases a with
      | read len =>
          by_cases hlen : len = 0
          · refine .inl ⟨hlen, ih hpos hplace hknown fun body hbody => ?_⟩
            subst hlen
            obtain ⟨r', hread, hrest⟩ := h body hbody false
            have hsame := (read_body_zero _ false body pos).symm.trans hread
            rw [← (Prod.mk.inj (Except.ok.inj hsame)).2] at hrest
            exact hrest
          · replace hlen := Nat.pos_of_ne_zero hlen
            obtain ⟨r', hmarked, -⟩ := h (marked n pos) (marked_length n pos) false
            -- a body whose bytes tell their places shows every read that is wrong
            have hgood : ¬ (n < pos + len ∨ place ≠ pos) := fun hbad =>
              not_read_marked r spare size hn hlen hplace hbad r' hmarked
            rw [not_or, not_not, Nat.not_lt] at hgood
            obtain ⟨hin, rfl⟩ := hgood
            refine .inr ⟨hlen, place, (hknown.resolve_right fun hno => hno.2 rfl).1, hin, ?_⟩
            refine ih hin hin (.inl ⟨rfl, rfl⟩) fun body hbody => ?_
            obtain ⟨r', hread, hrest⟩ := h body hbody false
            obtain ⟨hread', hstored⟩ := read_body_inside r spare size false hlen
              (hbody.symm ▸ hin) (hbody.symm ▸ hn)
            rw [hread'] at hread
            obtain rfl := (Prod.mk.inj (Except.ok.inj hread)).2
            rwa [hstored] at hrest
      | seek off =>
          intro hle
          -- the place is cut to sixteen bits
          have hnear : off % 2 ^ 16 ≤ n := Nat.le_trans (Nat.mod_le _ _) hle
          refine ih hle hnear ?_ fun body hbody => ?_
          · split_ifs with hlt
            · exact .inl ⟨rfl, Nat.mod_eq_of_lt hlt⟩
            · refine .inr ⟨rfl, ?_⟩
              have := Nat.mod_lt off (show 2 ^ 16 > 0 by decide)
              omega
          · obtain ⟨r', hseek, hrest⟩ := h body hbody (by rwa [hbody])
            rw [body_seek_inMemory] at hseek
            obtain rfl := (Prod.mk.inj (Except.ok.inj hseek)).2
            exact hrest

end

/-! ## Files -/

section

variable {body : Bytes} {r : Request σ}

/-- A read from a file fails. -/
theorem OnDisk.ret_of_read (h : OnDisk body r) {stale : Bool} {len : Nat} {res : Result}
    {r' : Request σ} (hread : read_body stale r len = .ok (res, r')) : res.ret = -1 := by
  obtain ⟨⟨pos, hoffload⟩, herror, -⟩ := h
  rw [read_body, hoffload, herror] at hread
  split_ifs at hread with hnone hdisk
  · rw [← (Prod.mk.inj (Except.ok.inj hread)).1]
  · simp only [readOffload] at hread
    split_ifs at hread
    rw [← (Prod.mk.inj (Except.ok.inj hread)).1]
  · exact (hdisk (by simp)).elim

/-- Nothing is read from a file. -/
theorem OnDisk.not_read (h : OnDisk body r) (stale : Bool) {len : Nat} (hlen : 0 < len)
    (place : Nat) (r' : Request σ) : read_body stale r len ≠ .ok (expected body place len, r') := by
  intro hread
  have hret := h.ret_of_read hread
  rw [expected, if_neg (Nat.ne_of_gt hlen)] at hret
  nomatch hret

theorem OnDisk.seek (h : OnDisk body r) (off : Nat) :
    ∃ r', r.body_seek off = .ok (true, r') ∧ OnDisk body r' := by
  obtain ⟨⟨pos, hoffload⟩, herror, hbody⟩ := h
  rw [body_seek, herror, hoffload, hbody]
  cases r.body_read with
  | false => exact ⟨_, rfl, ⟨off, rfl⟩, rfl, rfl⟩
  | true => exact ⟨_, rfl, ⟨pos, rfl⟩, rfl, rfl⟩

theorem OnDisk.idle_iff (h : OnDisk body r) (as : List Access) (place : Nat) :
    Delivers body place r as ↔ Idle body.length as := by
  induction as generalizing r place with
  | nil => exact Iff.rfl
  | cons a as ih =>
      cases a with
      | read len =>
          by_cases hlen : len = 0
          · subst hlen
            constructor
            · intro hall
              obtain ⟨r', hread, hrest⟩ := hall false
              have hsame := (read_body_zero r false body place).symm.trans hread
              rw [← (Prod.mk.inj (Except.ok.inj hsame)).2] at hrest
              exact ⟨rfl, (ih h _).mp hrest⟩
            · exact fun hidle stale => ⟨r, read_body_zero r stale body place, (ih h _).mpr hidle.2⟩
          · refine iff_of_false (fun hall => ?_) fun hidle => hlen hidle.1
            obtain ⟨r', hread, -⟩ := hall false
            exact h.not_read false (Nat.pos_of_ne_zero hlen) place r' hread
      | seek off =>
          obtain ⟨r', hseek, hr'⟩ := h.seek off
          refine forall_congr' fun hle => ?_
          constructor
          · rintro ⟨s, hs, hrest⟩
            rw [hseek] at hs
            rw [← (Prod.mk.inj (Except.ok.inj hs)).2] at hrest
            exact (ih hr' off).mp hrest
          · exact fun hidle => ⟨r', hseek, (ih hr' off).mpr hidle⟩

end

/-- **Calls read every body of a size back: in memory exactly when they stay inside of it and do not read
where a place above 16 bits has been sought; in a file exactly when they read nothing.** -/
theorem readsBack_iff (r : Request σ) (spare : Bytes) (size pos : Nat) (n : UInt32)
    (as : List Access) :
    ((∀ body : Bytes, body.length = n.toNat →
        Delivers body 0 (r.inMemory spare size body 0) as) ↔ Inside n.toNat (some 0) as) ∧
      (∀ body : Bytes, body.length = n.toNat →
        (Delivers body 0 (r.onDisk body pos) as ↔ Idle n.toNat as)) := by
  have hn : n.toNat < OBuffer.UINT32 := n.toNat_lt
  refine ⟨⟨fun h => ?_, fun h body hbody => ?_⟩, fun body hbody => ?_⟩
  · exact inside_of_delivers r spare size hn (Nat.zero_le _) (Nat.zero_le _) (.inl ⟨rfl, rfl⟩) h
  · rw [← hbody] at h hn
    refine delivers_of_inside r spare size hn ?_ h
    exact fun p hp => ⟨Option.some.inj hp, Option.some.inj hp⟩
  · rw [← hbody]
    exact OnDisk.idle_iff ⟨⟨pos, rfl⟩, rfl, rfl⟩ as 0

/-- Five bytes of three: the call says that it has read five, and reads none. -/
theorem not_delivers_short : ¬ ∀ (r : Request Unit) (spare : Bytes) (size pos : Nat) (n : UInt32)
    (as : List Access) (body : Bytes), body.length = n.toNat →
      Delivers body 0 (r.inMemory spare size body 0) as ∧ Delivers body 0 (r.onDisk body pos) as := by
  intro h
  have hinside := (readsBack_iff (cleared ⟨.dead, 0, 0, true⟩) [] 8 0 3 [.read 5]).1.mp
    fun body hbody => (h _ [] 8 0 3 [.read 5] body hbody).1
  rcases hinside with ⟨hzero, -⟩ | ⟨-, p, hp, hle, -⟩
  · nomatch hzero
  · obtain rfl := Option.some.inj hp
    exact absurd hle (by decide)

end Suil.Http.Request
