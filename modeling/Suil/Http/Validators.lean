import Suil.Basic.CString

set_option autoImplicit false

/-! # The validators of forms

`validators::Password` (`validators.h`, `validators.cpp`) compares the length of a password with two
limits, counts its characters by their class and writes what is missing into a buffer. What it returns
at the end depends on the buffer alone. `validates_iff` says when this is the verdict. -/

namespace Suil.Http.Validators

/-- `validators::Password`. -/
structure Password where
  minChars : CInt := .ofNat 6
  maxChars : CInt := .ofNat 32
  nums : CInt := .ofNat 0
  special : CInt := .ofNat 0
  upper : CInt := .ofNat 0
  lower : CInt := .ofNat 0

/-! ## Characters -/

/-- `isspecial`. -/
def isspecial (a : UInt8) : Bool :=
  (31 < a && a < 48) || (58 < a && a < 65) || (90 < a && a < 97) || (123 < a && a < 127)

/-- `isupper` in the C locale. -/
def isupper (a : UInt8) : Bool := 65 ≤ a && a ≤ 90

/-- `islower` in the C locale. -/
def islower (a : UInt8) : Bool := 97 ≤ a && a ≤ 122

/-- `isalpha` in the C locale. -/
def isalpha (a : UInt8) : Bool := isupper a || islower a

/-- `u`, `l`, `s` and `n`. -/
structure Counts where
  u : Nat
  l : Nat
  s : Nat
  n : Nat

/-- One round of the loop over the password. -/
def Counts.count (k : Counts) (c : UInt8) : Counts :=
  if isspecial c then { k with s := k.s + 1 }
  else if isalpha c then
    if isupper c then { k with u := k.u + 1 }
    else { k with l := k.l + 1 }
  else if isDigit c then { k with n := k.n + 1 }
  else k

def counts (passwd : Bytes) : Counts := passwd.foldl Counts.count ⟨0, 0, 0, 0⟩

/-! ## The validator -/

/-- A requirement is set and there are too few of these characters. -/
def lacks (required : CInt) (k : Nat) : Bool := required.val ≠ 0 && (k : Int) < required.val

/-- What is written when a requirement is not met; `shown` is the number in the message. -/
def complain (ob : Bytes) (required : CInt) (k : Nat) (shown : CInt) (what : String) : Bytes :=
  if lacks required k then
    ob ++ (if ob = [] then [] else str "\n") ++
      (str "Password invalid, requires at least '" ++ showInt shown.val ++ str what)
  else ob

/-- What is written when there are not enough capital letters: the first message, without a line
feed in front of it. -/
def complainUpper (ob : Bytes) (c : Password) (k : Nat) : Bytes :=
  if lacks c.upper k then
    ob ++ (str "Password invalid, requires at least '" ++ showInt c.upper.val ++
      str "' uppercase characters")
  else ob

/-- What the buffer holds behind the four checks; the last message shows `lower`. -/
def complaints (c : Password) (ob : Bytes) (k : Counts) : Bytes :=
  let ob := complainUpper ob c k.u
  let ob := complain ob c.lower k.l c.lower "' lowercase characters"
  let ob := complain ob c.special k.s c.special "' special characters"
  complain ob c.nums k.n c.lower "' digits"

/-- No class of characters is required. -/
def Password.plain (c : Password) : Bool :=
  c.upper.val = 0 && c.lower.val = 0 && c.special.val = 0 && c.nums.val = 0

/-- `operator()(ob, passwd)`: what it returns, and the buffer. -/
def Password.validate (c : Password) (ob passwd : Bytes) : Bool × Bytes :=
  if (passwd.length : Int) < c.minChars.toSize then
    (false, ob ++ str "Password too short, at least '" ++ showInt c.minChars.val ++
      str "' characters required")
  else if c.maxChars.toSize < passwd.length then
    (false, ob ++ str "Password too long, at most '" ++ showInt c.maxChars.val ++
      str "' characters supported")
  else if c.plain then (true, ob)
  else
    let ob := complaints c ob (counts passwd)
    (!ob.isEmpty, ob)

/-- `operator()(passwd)`. -/
def Password.accepts (c : Password) (passwd : Bytes) : Bool := (c.validate [] passwd).1

/-! ## Passwords to be accepted -/

/-- The printable characters that are neither letters nor digits. -/
def isSpecial (a : UInt8) : Bool := 32 ≤ a && a ≤ 126 && !isalpha a && !isDigit a

/-- The length is within the limits. -/
def Password.Fits (c : Password) (passwd : Bytes) : Prop :=
  c.minChars.val ≤ passwd.length ∧ (passwd.length : Int) ≤ c.maxChars.val

/-- There are enough characters of every class. -/
def Password.Varied (c : Password) (passwd : Bytes) : Prop :=
  c.upper.val ≤ passwd.countP isupper ∧ c.lower.val ≤ passwd.countP islower ∧
    c.special.val ≤ passwd.countP isSpecial ∧ c.nums.val ≤ passwd.countP isDigit

/-- A password is accepted when it should be, a message is written when it is not, and the overload
without a buffer has the same verdict. -/
structure Validates (c : Password) (ob passwd : Bytes) : Prop where
  accepted : (c.validate ob passwd).1 = true ↔ c.Fits passwd ∧ c.Varied passwd
  reported : (∃ text, text ≠ [] ∧ (c.validate ob passwd).2 = ob ++ text) ↔
    (c.validate ob passwd).1 = false
  agrees : c.accepts passwd = (c.validate ob passwd).1

/-! ## Passwords that the limits decide -/

/-- The smaller limit is negative and the password is not to be accepted, or the length decides: it is
not within limits that are no negative numbers, or no class of characters is required. -/
def Password.Decided (c : Password) (passwd : Bytes) : Prop :=
  if c.minChars.val < 0 then ¬ (c.Fits passwd ∧ c.Varied passwd)
  else (passwd.length : Int) < c.minChars.val ∨
    0 ≤ c.maxChars.val ∧ (c.maxChars.val < passwd.length ∨ c.plain = true)

/-! ## The counters -/

set_option maxRecDepth 8000 in
/-- The classes of the four counters have no character in common. -/
private theorem classes_apart (a : UInt8) :
    (isspecial a = true → isupper a = false ∧ islower a = false ∧ isDigit a = false) ∧
      (isupper a = true → islower a = false) ∧ (isalpha a = true → isDigit a = false) := by
  refine forall_byte (P := fun a => (isspecial a = true → isupper a = false ∧ islower a = false ∧
    isDigit a = false) ∧ (isupper a = true → islower a = false) ∧
    (isalpha a = true → isDigit a = false)) ?_ a
  decide

/-- One character counts for the class that it is in. -/
private theorem count_eq (k : Counts) (c : UInt8) : k.count c =
    ⟨k.u + if isupper c then 1 else 0, k.l + if islower c then 1 else 0,
      k.s + if isspecial c then 1 else 0, k.n + if isDigit c then 1 else 0⟩ := by
  obtain ⟨hspecial, hupper, halpha⟩ := classes_apart c
  cases hs : isspecial c with
  | true =>
      obtain ⟨h₁, h₂, h₃⟩ := hspecial hs
      simp [Counts.count, hs, h₁, h₂, h₃]
  | false =>
      cases hu : isupper c with
      | true =>
          have hd := halpha (by simp [isalpha, hu])
          simp [Counts.count, isalpha, hs, hu, hupper hu, hd]
      | false =>
          cases hl : islower c with
          | true =>
              have hd := halpha (by simp [isalpha, hl])
              simp [Counts.count, isalpha, hs, hu, hl, hd]
          | false =>
              cases hd : isDigit c with
              | true => simp [Counts.count, isalpha, hs, hu, hl, hd]
              | false => simp [Counts.count, isalpha, hs, hu, hl, hd]

/-- **The counters of the loop.** -/
theorem counts_eq (passwd : Bytes) : counts passwd = ⟨passwd.countP isupper, passwd.countP islower,
    passwd.countP isspecial, passwd.countP isDigit⟩ := by
  have hfold : ∀ k : Counts, passwd.foldl Counts.count k =
      ⟨k.u + passwd.countP isupper, k.l + passwd.countP islower, k.s + passwd.countP isspecial,
        k.n + passwd.countP isDigit⟩ := by
    induction passwd with
    | nil => intro k; rfl
    | cons c passwd ih =>
        intro k
        rw [List.foldl_cons, ih, count_eq]
        simp only [List.countP_cons, Counts.mk.injEq]
        omega
  have hstart := hfold ⟨0, 0, 0, 0⟩
  simp only [Nat.zero_add] at hstart
  exact hstart

set_option maxRecDepth 8000 in
/-- The colon and the opening brace are special characters that are not counted. -/
theorem isSpecial_eq (a : UInt8) : isSpecial a = (isspecial a || a = COLON || a = LBRACE) := by
  refine forall_byte (P := fun a => isSpecial a = (isspecial a || a = COLON || a = LBRACE)) ?_ a
  decide

/-! ## The messages -/

variable {c : Password} {ob passwd : Bytes}

private theorem complain_eq (ob : Bytes) (required : CInt) (k : Nat) (shown : CInt) (what : String) :
    ∃ text, complain ob required k shown what = ob ++ text ∧
      (text = [] ↔ lacks required k = false) := by
  rw [complain]
  cases lacks required k with
  | false => exact ⟨[], (List.append_nil ob).symm, by simp⟩
  | true =>
      refine ⟨(if ob = [] then [] else str "\n") ++ (str "Password invalid, requires at least '" ++
        showInt shown.val ++ str what), ?_, ?_⟩
      · rw [if_pos rfl, List.append_assoc]
      · simp [str]

private theorem complainUpper_eq (ob : Bytes) (c : Password) (k : Nat) :
    ∃ text, complainUpper ob c k = ob ++ text ∧ (text = [] ↔ lacks c.upper k = false) := by
  rw [complainUpper]
  cases lacks c.upper k with
  | false => exact ⟨[], (List.append_nil ob).symm, by simp⟩
  | true =>
      refine ⟨_, if_pos rfl, ?_⟩
      simp [str]

/-- What is written at the end: nothing exactly when no requirement lacks anything. -/
private theorem complaints_eq (c : Password) (ob : Bytes) (k : Counts) :
    ∃ text, complaints c ob k = ob ++ text ∧ (text = [] ↔ lacks c.upper k.u = false ∧
      lacks c.lower k.l = false ∧ lacks c.special k.s = false ∧ lacks c.nums k.n = false) := by
  obtain ⟨t₁, h₁, hnil₁⟩ := complainUpper_eq ob c k.u
  obtain ⟨t₂, h₂, hnil₂⟩ := complain_eq (ob ++ t₁) c.lower k.l c.lower "' lowercase characters"
  obtain ⟨t₃, h₃, hnil₃⟩ := complain_eq (ob ++ t₁ ++ t₂) c.special k.s c.special
    "' special characters"
  obtain ⟨t₄, h₄, hnil₄⟩ := complain_eq (ob ++ t₁ ++ t₂ ++ t₃) c.nums k.n c.lower "' digits"
  refine ⟨t₁ ++ (t₂ ++ (t₃ ++ t₄)), ?_, ?_⟩
  · calc complaints c ob k = ob ++ t₁ ++ t₂ ++ t₃ ++ t₄ := by
          rw [complaints]
          simp only [h₁, h₂, h₃, h₄]
      _ = ob ++ (t₁ ++ (t₂ ++ (t₃ ++ t₄))) := by simp only [List.append_assoc]
  · simp only [List.append_eq_nil_iff, hnil₁, hnil₂, hnil₃, hnil₄]

theorem lacks_iff (required : CInt) (k : Nat) :
    lacks required k = false ↔ required.val ≤ k := by
  rw [lacks]
  by_cases hzero : required.val = 0
  · simp [hzero]
  · simp [hzero]

/-- **A message is written behind the counting exactly when a class is not reached, the colon and the
opening brace left out.** -/
theorem complaints_eq_self_iff (c : Password) (ob passwd : Bytes) :
    complaints c ob (counts passwd) = ob ↔ c.upper.val ≤ passwd.countP isupper ∧
      c.lower.val ≤ passwd.countP islower ∧ c.special.val ≤ passwd.countP isspecial ∧
        c.nums.val ≤ passwd.countP isDigit := by
  obtain ⟨text, htext, hnil⟩ := complaints_eq c ob (counts passwd)
  rw [htext, List.append_right_eq_self, hnil, counts_eq]
  simp only [lacks_iff]

/-! ## The verdict -/

private theorem plain_iff (c : Password) : c.plain = true ↔
    c.upper.val = 0 ∧ c.lower.val = 0 ∧ c.special.val = 0 ∧ c.nums.val = 0 := by
  simp [Password.plain, and_assoc]

private theorem varied_of_plain (h : c.plain = true) (passwd : Bytes) : c.Varied passwd := by
  obtain ⟨hu, hl, hs, hn⟩ := (plain_iff c).mp h
  rw [Password.Varied, hu, hl, hs, hn]
  omega

/-- A password that is refused with a message is to be refused. -/
private theorem validates_of_refused {text : Bytes} (hne : text ≠ [])
    (h : ∀ ob, c.validate ob passwd = (false, ob ++ text)) :
    Validates c ob passwd ↔ ¬ (c.Fits passwd ∧ c.Varied passwd) := by
  constructor
  · intro hv hvalid
    have hacc := hv.accepted.mpr hvalid
    rw [h] at hacc
    nomatch hacc
  · intro hno
    refine ⟨?_, ?_, ?_⟩
    · rw [h]
      exact iff_of_false nofun hno
    · rw [h]
      exact iff_of_true ⟨text, hne, rfl⟩ rfl
    · rw [Password.accepts, h, h]

/-- The verdict of the checks behind the counting is never right. -/
private theorem not_validates_of_counted
    (h : ∀ ob, c.validate ob passwd = (!(complaints c ob (counts passwd)).isEmpty,
      complaints c ob (counts passwd))) : ¬ Validates c ob passwd := by
  rintro ⟨-, hreported, hagrees⟩
  obtain ⟨text, htext, hnil⟩ := complaints_eq c ob (counts passwd)
  obtain ⟨text', htext', hnil'⟩ := complaints_eq c [] (counts passwd)
  rw [Password.accepts, h, h, htext, htext'] at hagrees
  rw [h, htext] at hreported
  by_cases hempty : text = []
  · -- nothing is written: the two verdicts are those of the contents there have been
    have hempty' : text' = [] := hnil'.mpr (hnil.mp hempty)
    rw [hempty] at hreported
    rw [hempty, hempty'] at hagrees
    have hnone : ¬ ∃ t : Bytes, t ≠ [] ∧ ob ++ [] = ob ++ t := by
      rintro ⟨t, hne, heq⟩
      exact hne (List.append_cancel_left heq).symm
    exact hnone (hreported.mpr hagrees.symm)
  · have hfalse := hreported.mp ⟨text, hempty, rfl⟩
    simp [hempty] at hfalse

/-- A length within the limits. -/
private theorem validate_of_fits (hshort : ¬ (passwd.length : Int) < c.minChars.toSize)
    (hlong : ¬ c.maxChars.toSize < passwd.length) (ob : Bytes) : c.validate ob passwd =
      if c.plain then (true, ob)
      else (!(complaints c ob (counts passwd)).isEmpty, complaints c ob (counts passwd)) := by
  rw [Password.validate, if_neg hshort, if_neg hlong]

private theorem not_validates_of_not_plain (hshort : ¬ (passwd.length : Int) < c.minChars.toSize)
    (hlong : ¬ c.maxChars.toSize < passwd.length) (hplain : ¬ c.plain = true) :
    ¬ Validates c ob passwd :=
  not_validates_of_counted fun ob => (validate_of_fits hshort hlong ob).trans (if_neg hplain)

/-- The limits as they are compared. -/
private theorem validates_iff_of_lt (hlen : passwd.length < 2 ^ 32) :
    Validates c ob passwd ↔ c.Decided passwd := by
  have htext : ∀ (text : String) (n : Int) (more : String), text ≠ "" →
      str text ++ showInt n ++ str more ≠ [] := by
    intro text n more htext
    simpa [str] using fun h => absurd h htext
  rw [Password.Decided]
  by_cases hmin : c.minChars.val < 0
  · -- no password is long enough
    have hwide := CInt.toSize_of_neg hmin
    rw [if_pos hmin]
    refine validates_of_refused (htext "Password too short, at least '" c.minChars.val
      "' characters required" (by decide)) fun ob => ?_
    rw [Password.validate, if_pos (by omega)]
    simp only [List.append_assoc]
  rw [if_neg hmin]
  have hsize := CInt.toSize_of_nonneg (Int.not_lt.mp hmin)
  by_cases hshort : (passwd.length : Int) < c.minChars.val
  · refine iff_of_true ((validates_of_refused (htext "Password too short, at least '" c.minChars.val
      "' characters required" (by decide)) fun ob => ?_).mpr ?_) (.inl hshort)
    -- it is too short, and the text says so
    · rw [Password.validate, hsize, if_pos hshort]
      simp only [List.append_assoc]
    · rintro ⟨⟨hle, -⟩, -⟩
      omega
  rw [or_iff_right hshort]
  rw [← hsize] at hshort
  by_cases hmax : c.maxChars.val < 0
  · -- no password is too long, and none should be accepted
    have hlong : ¬ c.maxChars.toSize < passwd.length := by
      have := CInt.toSize_of_neg hmax
      omega
    refine iff_of_false ?_ fun h => absurd h.1 (by omega)
    by_cases hplain : c.plain = true
    · rintro ⟨haccepted, -, -⟩
      rw [validate_of_fits hshort hlong, if_pos hplain] at haccepted
      have hle := (haccepted.mp rfl).1.2
      omega
    · exact not_validates_of_not_plain hshort hlong hplain
  rw [and_iff_right (Int.not_lt.mp hmax)]
  have hsize' := CInt.toSize_of_nonneg (Int.not_lt.mp hmax)
  by_cases hlong : c.maxChars.val < passwd.length
  · refine iff_of_true ((validates_of_refused (htext "Password too long, at most '" c.maxChars.val
      "' characters supported" (by decide)) fun ob => ?_).mpr ?_) (.inl hlong)
    · rw [Password.validate, if_neg hshort, hsize', if_pos hlong]
      simp only [List.append_assoc]
    · rintro ⟨⟨-, hle⟩, -⟩
      omega
  rw [or_iff_right hlong]
  -- the length is in its limits, and the classes of bytes decide
  have hfits : c.Fits passwd := ⟨by omega, by omega⟩
  rw [← hsize'] at hlong
  by_cases hplain : c.plain = true
  · have hval := fun ob => (validate_of_fits hshort hlong ob).trans (if_pos hplain)
    refine iff_of_true ⟨?_, ?_, ?_⟩ hplain
    · rw [hval]
      exact iff_of_true rfl ⟨hfits, varied_of_plain hplain passwd⟩
    · rw [hval]
      refine iff_of_false ?_ nofun
      rintro ⟨text, hne, heq⟩
      exact hne (List.append_right_eq_self.mp heq.symm)
    · rw [Password.accepts, hval, hval]
  · exact iff_of_false (not_validates_of_not_plain hshort hlong hplain) hplain

/-- **The validator of passwords does what it should exactly when the length decides and no limit is
negative, when no class of characters is required, or when the smaller limit is negative and the password
is to be refused.** -/
theorem validates_iff (c : Password) (ob : Bytes) (passwd : Sized (2 ^ 32)) :
    Validates c ob passwd.bytes ↔ c.Decided passwd.bytes :=
  validates_iff_of_lt passwd.bound

set_option maxRecDepth 8000 in
/-- One capital letter is required, and a password without one is accepted. -/
theorem not_validates_abcdef : ¬ ∀ (c : Password) (ob : Bytes) (passwd : Sized (2 ^ 32)),
    Validates c ob passwd.bytes := by
  intro h
  have hv := h { upper := .ofNat 1 } [] ⟨str "abcdef", by decide⟩
  have hvalid := hv.accepted.mp (by decide)
  exact absurd hvalid.2.1 (by decide)

end Suil.Http.Validators
