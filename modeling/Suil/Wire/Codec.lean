import Suil.Wire.Breadboard

set_option autoImplicit false

/-! # The wire codec

`Ty` lists the types that `operator<<` and `operator>>` (`wire.h`, `wire.cpp`) serialise and
`Ty.Val` their values. `write` and `read` are the operators at each type. `>>` assigns to a
variable that already has a value: it replaces it, leaves it as it is, or appends to it.

`Restores` says when `>>` gives back what `<<` wrote whatever the variable held before, and
`readAll_writeAll_iff` that a sequence of values comes back exactly when all of them do. -/

namespace Suil.Wire

open LittleEndian

/-! ## Types and values -/

/-- `sizeof` of an integral type. -/
inductive Width where
  | w8
  | w16
  | w32
  | w64
  deriving DecidableEq, Repr

def Width.bytes : Width → Nat
  | .w8 => 1
  | .w16 => 2
  | .w32 => 4
  | .w64 => 8

/-- The types with a wire format. A record is a chain of fields that ends in `unit`; a field
with the attribute `unwire` is passed over unless the wire is set to serialise it. -/
inductive Ty where
  | int (w : Width)
  | varInt
  | data
  | string
  | stdString
  | blob (n : Fin (2 ^ 64))
  | vector (t : Ty)
  | unit
  | field (unwire : Bool) (t rest : Ty)

/-- Bytes whose number is a `uint32_t`: the contents of a `Data` or a `String`. -/
abbrev Sized : Type := { bs : Bytes // bs.length < 2 ^ 32 }

/-- `Data(ptr, size, false)`: the size is cut to a `uint32_t`. -/
def clip (bs : Bytes) : Sized :=
  ⟨bs.take (bs.length % 2 ^ 32), by
    rw [List.length_take]
    have := Nat.mod_lt bs.length (show 2 ^ 32 > 0 by decide)
    omega⟩

/-- The values of a type; an integer is its bits. -/
@[reducible] def Ty.Val : Ty → Type
  | .int w => Fin (256 ^ w.bytes)
  | .varInt => Fin (2 ^ 64)
  | .data => Sized
  | .string => Sized
  | .stdString => Bytes
  | .blob n => { bs : Bytes // bs.length = n.val }
  | .vector t => { vs : List t.Val // vs.length < 2 ^ 64 }
  | .unit => Unit
  | .field _ t rest => t.Val × rest.Val

theorem int_lt (w : Width) (bs : Bytes) : leNat bs % 256 ^ w.bytes < 256 ^ w.bytes :=
  Nat.mod_lt _ (Nat.pow_pos (by decide))

theorem varInt_lt (n : Nat) : n % 2 ^ 64 < 2 ^ 64 := Nat.mod_lt n (by decide)

theorem nil_lt : ([] : Bytes).length < 2 ^ 32 := by decide

/-- The value of a variable that was declared without one: `junk` is what the memory of an
integer holds that nobody has set. -/
def Ty.default (junk : Nat) : (t : Ty) → t.Val
  | .int w => ⟨junk % 256 ^ w.bytes, Nat.mod_lt _ (Nat.pow_pos (by decide))⟩
  | .varInt => ⟨0, by decide⟩
  | .data => ⟨[], nil_lt⟩
  | .string => ⟨[], nil_lt⟩
  | .stdString => ([] : Bytes)
  | .blob n => ⟨List.replicate n.val 0, List.length_replicate⟩
  | .vector _ => ⟨[], Nat.two_pow_pos 64⟩
  | .unit => ()
  | .field _ t rest => (t.default junk, rest.default junk)

/-! ## Writing -/

/-- `operator<<(const Data&)`. -/
def writeData (d : Sized) (b : Breadboard) : Except WireFault Breadboard := do
  let b ← writeVarInt d.val.length b
  b.forward d.val

/-- The loop over the elements of a vector. -/
def writeEntries {α : Type} (wr : α → Breadboard → Except WireFault Breadboard) :
    List α → Breadboard → Except WireFault Breadboard
  | [], b => .ok b
  | e :: es, b => do
      let b ← wr e b
      writeEntries wr es b

/-- A member of a record: `!m.attributes().has(var(unwire)) || Ego.always`. -/
def writeMember (unwire : Bool) (wr : Breadboard → Except WireFault Breadboard)
    (b : Breadboard) : Except WireFault Breadboard :=
  if !unwire || b.always then wr b else .ok b

/-- `operator<<`. -/
def write : (t : Ty) → t.Val → Breadboard → Except WireFault Breadboard
  | .int w, v, b => b.forward (leBytes w.bytes v.val)
  | .varInt, v, b => writeVarInt v.val b
  | .data, v, b => writeData v b
  | .string, v, b => writeData v b
  | .stdString, v, b => writeData (clip v) b
  | .blob n, v, b => do
      let b ← writeVarInt n.val b
      b.forward v.val
  | .vector t, v, b => do
      let b ← writeVarInt v.val.length b
      writeEntries (write t) v.val b
  | .unit, _, b => .ok b
  | .field unwire t rest, v, b => do
      let b ← writeMember unwire (write t v.1) b
      write rest v.2 b

/-! ## Reading -/

/-- `operator>>(Data&)` into a variable that holds `prior`. -/
def readData (prior : Sized) (b : Breadboard) : Except WireFault (Sized × Breadboard) := do
  let (sz, b) ← readVarInt b
  if sz ≠ 0 then
    let (bs, b) ← b.reverse sz
    .ok (clip bs, b)
  else .ok (prior, b)

/-- `String::dup`: `strndup` copies up to the first NUL, and the NUL, but the size stays. -/
def dup (s : Sized) : Except WireFault Sized :=
  if NUL ∈ s.val.dropLast then .error .stringOverrun else .ok s

/-- The loop of `operator>>` for vectors: `n` more entries, each read into a new variable. -/
def readEntries {α : Type} (rd : Breadboard → Except WireFault (α × Breadboard)) :
    Nat → List α → Breadboard → Except WireFault (List α × Breadboard)
  | 0, v, b => .ok (v, b)
  | n + 1, v, b => do
      let (entry, b) ← rd b
      readEntries rd n (v ++ [entry]) b

/-- A member of a record that holds `prior`. -/
def readMember {α : Type} (unwire : Bool) (rd : Breadboard → Except WireFault (α × Breadboard))
    (prior : α) (b : Breadboard) : Except WireFault (α × Breadboard) :=
  if !unwire || b.always then rd b else .ok (prior, b)

/-- `operator>>` into a variable that holds `prior`. -/
def read (junk : Nat) : (t : Ty) → (prior : t.Val) → Breadboard →
    Except WireFault (t.Val × Breadboard)
  | .int w, _, b => do
      let (bs, b) ← b.reverse w.bytes
      .ok (⟨leNat bs % 256 ^ w.bytes, int_lt w bs⟩, b)
  | .varInt, _, b => do
      let (n, b) ← readVarInt b
      .ok (⟨n % 2 ^ 64, varInt_lt n⟩, b)
  | .data, prior, b => readData prior b
  | .string, prior, b => do
      let (tmp, b) ← readData ⟨[], nil_lt⟩ b
      if tmp.val ≠ [] then
        let s ← dup tmp
        .ok (s, b)
      else .ok (prior, b)
  | .stdString, prior, b => do
      let (rv, b) ← readData ⟨[], nil_lt⟩ b
      if rv.val ≠ [] then .ok (rv.val, b) else .ok (prior, b)
  | .blob n, prior, b => do
      let (sz, b) ← readVarInt b
      if sz ≠ 0 then
        let (bs, b) ← b.reverse sz
        -- `memcpy` over the first `sz` bytes
        if h : (bs ++ prior.val.drop sz).length = n.val then
          .ok (⟨bs ++ prior.val.drop sz, h⟩, b)
        else .error .blobTooSmall
      else .ok (prior, b)
  | .vector t, prior, b => do
      let (entries, b) ← readVarInt b
      let (v, b) ← readEntries (read junk t (t.default junk)) (min entries (2 ^ 31)) prior.val b
      -- `for (int i = 0; i < entries; i++)`: the `int` overflows after 2^31 entries
      if 2 ^ 31 ≤ entries then .error .intOverflow
      else if h : v.length < 2 ^ 64 then .ok (⟨v, h⟩, b)
      else .error .lengthError
  | .unit, _, b => .ok ((), b)
  | .field unwire t rest, prior, b => do
      let (v, b) ← readMember unwire (read junk t prior.1) prior.1 b
      let (vs, b) ← read junk rest prior.2 b
      .ok ((v, vs), b)

/-! ## What is written -/

def dataBytes (bs : Bytes) : Bytes := varIntBytes bs.length ++ bs

/-- The bytes of a value. -/
def bytes (always : Bool) : (t : Ty) → t.Val → Bytes
  | .int w, v => leBytes w.bytes v.val
  | .varInt, v => varIntBytes v.val
  | .data, v => dataBytes v.val
  | .string, v => dataBytes v.val
  | .stdString, v => dataBytes (clip v).val
  | .blob n, v => varIntBytes n.val ++ v.val
  | .vector t, v => varIntBytes v.val.length ++ v.val.flatMap (bytes always t)
  | .unit, _ => []
  | .field unwire t rest, v =>
      (if !unwire || always then bytes always t v.1 else []) ++ bytes always rest v.2

private theorem writeData_writes (d : Sized) : Writes (writeData d) fun _ => dataBytes d.val :=
  Writes.bind (writeVarInt_writes _) (forward_writes _)

private theorem writeEntries_writes {α : Type} {wr : α → Breadboard → Except WireFault Breadboard}
    {f : Bool → α → Bytes} (hwr : ∀ e, Writes (wr e) fun always => f always e) (es : List α) :
    Writes (writeEntries wr es) fun always => es.flatMap (f always) := by
  induction es with
  | nil => exact fun b _ => ⟨b, rfl, .refl b⟩
  | cons e es ih =>
      simp only [List.flatMap_cons]
      exact Writes.bind (hwr e) ih

private theorem writeMember_writes {unwire : Bool} {wr : Breadboard → Except WireFault Breadboard}
    {e : Bool → Bytes} (h : Writes wr e) :
    Writes (writeMember unwire wr) fun always => if !unwire || always then e always else [] := by
  intro b hroom
  rw [writeMember]
  by_cases hw : (!unwire || b.always) = true
  · simp only [if_pos hw] at hroom ⊢
    exact h b hroom
  · simp only [if_neg hw]
    exact ⟨b, rfl, .refl b⟩

/-- **A value is written wherever there is room for its bytes.** -/
theorem write_writes (t : Ty) (v : t.Val) : Writes (write t v) fun always => bytes always t v := by
  induction t with
  | int w => exact forward_writes _
  | varInt => exact writeVarInt_writes _
  | data => exact writeData_writes _
  | string => exact writeData_writes _
  | stdString => exact writeData_writes _
  | blob n => exact Writes.bind (writeVarInt_writes _) (forward_writes _)
  | vector t ih =>
      exact Writes.bind (writeVarInt_writes _) (writeEntries_writes (fun e => ih e) v.val)
  | unit => exact fun b _ => ⟨b, rfl, .refl b⟩
  | field unwire t rest iht ihrest =>
      exact Writes.bind (writeMember_writes (iht v.1)) (ihrest v.2)

/-! ## What is read -/

section ReadBack

variable (junk : Nat) (always : Bool)

/-- What `>>` makes of a variable that holds `prior` in front of the bytes of `v`. -/
def readBack : (t : Ty) → (v prior : t.Val) → Option t.Val
  | .int _, v, _ => some v
  | .varInt, v, _ => some v
  | .data, v, prior => some (if v.val ≠ [] then v else prior)
  | .string, v, prior =>
      if v.val ≠ [] then if NUL ∈ v.val.dropLast then none else some v else some prior
  | .stdString, v, prior => some (if (clip v).val ≠ [] then (clip v).val else prior)
  | .blob _, v, _ => some v
  | .vector t, v, prior =>
      if v.val.length < 2 ^ 31 then
        (v.val.mapM fun e => readBack t e (t.default junk)).bind fun es =>
          if h : (prior.val ++ es).length < 2 ^ 64 then some ⟨prior.val ++ es, h⟩ else none
      else none
  | .unit, _, _ => some ()
  | .field unwire t rest, v, prior =>
      (if !unwire || always then readBack t v.1 prior.1 else some prior.1).bind fun w =>
        (readBack rest v.2 prior.2).map fun ws => (w, ws)

/-- `>>` gives back `v` in a variable that holds `prior`. -/
def Restores : (t : Ty) → (v prior : t.Val) → Prop
  | .int _, _, _ => True
  | .varInt, _, _ => True
  | .data, v, prior => v.val = [] → prior.val = []
  | .string, v, prior => (v.val = [] → prior.val = []) ∧ NUL ∉ v.val.dropLast
  | .stdString, v, prior => if v.length % 2 ^ 32 = 0 then prior = v else v.length < 2 ^ 32
  | .blob _, _, _ => True
  | .vector t, v, prior =>
      prior.val = [] ∧ v.val.length < 2 ^ 31 ∧ ∀ e ∈ v.val, Restores t e (t.default junk)
  | .unit, _, _ => True
  | .field unwire t rest, v, prior =>
      (if !unwire || always then Restores t v.1 prior.1 else prior.1 = v.1) ∧
        Restores rest v.2 prior.2

end ReadBack

section Restores

variable {junk : Nat} {always : Bool}

private theorem clip_nil {bs : Bytes} : (clip bs).val = [] ↔ bs.length % 2 ^ 32 = 0 := by
  rw [clip, ← List.length_eq_zero_iff, List.length_take]
  omega

private theorem clip_eq {bs : Bytes} (h : (clip bs).val = bs) : bs.length < 2 ^ 32 := by
  have := (clip bs).property
  rwa [h] at this

private theorem clip_of_lt {bs : Bytes} (h : bs.length < 2 ^ 32) : (clip bs).val = bs := by
  show bs.take (bs.length % 2 ^ 32) = bs
  rw [Nat.mod_eq_of_lt h, List.take_length]

private theorem mapM_eq_map {α β : Type} (f : α → Option β) (g : α → β) (es : List α) :
    es.mapM f = some (es.map g) ↔ ∀ e ∈ es, f e = some (g e) := by
  induction es with
  | nil => exact iff_of_true rfl (fun _ h => absurd h List.not_mem_nil)
  | cons e es ih =>
      rw [List.mapM_cons, List.map_cons, List.forall_mem_cons, ← ih]
      constructor
      · intro h
        obtain ⟨e', he', h⟩ := Option.bind_eq_some_iff.mp h
        obtain ⟨es', hes', h⟩ := Option.bind_eq_some_iff.mp h
        cases Option.some.inj h
        exact ⟨he', hes'⟩
      · intro h
        simp only [h.1, h.2, bind, Option.bind_some, pure]

private theorem length_mapM {α β : Type} {f : α → Option β} {es : List α} {es' : List β}
    (h : es.mapM f = some es') : es'.length = es.length := by
  induction es generalizing es' with
  | nil => cases h; rfl
  | cons e es ih =>
      rw [List.mapM_cons] at h
      obtain ⟨e', he', h⟩ := Option.bind_eq_some_iff.mp h
      obtain ⟨es', hes', h⟩ := Option.bind_eq_some_iff.mp h
      cases h
      rw [List.length_cons, List.length_cons, ih hes']

/-- **The value comes back when it is restored.** -/
theorem readBack_eq_iff (t : Ty) (v prior : t.Val) :
    readBack junk always t v prior = some v ↔ Restores junk always t v prior := by
  induction t with
  | int w => exact iff_of_true rfl trivial
  | varInt => exact iff_of_true rfl trivial
  | data =>
      rw [readBack, Restores, Option.some_inj]
      -- an empty value leaves the variable as it was
      by_cases hv : v.val = []
      · rw [if_neg (not_not.mpr hv), Subtype.ext_iff, hv]
        exact ⟨fun h _ => h, fun h => h rfl⟩
      · rw [if_pos hv]
        exact iff_of_true rfl fun h => absurd h hv
  | string =>
      rw [readBack, Restores]
      by_cases hv : v.val = []
      · rw [if_neg (not_not.mpr hv), Option.some_inj, Subtype.ext_iff, hv]
        exact ⟨fun h => ⟨fun _ => h, List.not_mem_nil⟩, fun h => h.1 rfl⟩
      · rw [if_pos hv]
        -- `strndup` ends at a NUL inside of the value
        by_cases hn : NUL ∈ v.val.dropLast
        · rw [if_pos hn]
          exact iff_of_false (by simp) fun h => h.2 hn
        · rw [if_neg hn]
          exact iff_of_true rfl ⟨fun h => absurd h hv, hn⟩
  | stdString =>
      rw [readBack, Restores, Option.some_inj]
      -- the length is written in 32 bits
      by_cases hv : v.length % 2 ^ 32 = 0
      · rw [if_neg (not_not.mpr (clip_nil.mpr hv)), if_pos hv]
      · rw [if_pos (mt clip_nil.mp hv), if_neg hv]
        exact ⟨clip_eq, clip_of_lt⟩
  | blob n => exact iff_of_true rfl trivial
  | vector t ih =>
      have hself : (v.val.mapM fun e => readBack junk always t e (t.default junk)) = some v.val ↔
          ∀ e ∈ v.val, Restores junk always t e (t.default junk) := by
        have hself := mapM_eq_map (fun e => readBack junk always t e (t.default junk)) id v.val
        rw [List.map_id] at hself
        rw [hself]
        exact forall₂_congr fun e _ => ih e (t.default junk)
      rw [readBack, Restores]
      by_cases hlen : v.val.length < 2 ^ 31
      · rw [if_pos hlen, ← hself]
        constructor
        · intro h
          obtain ⟨es, hes, h⟩ := Option.bind_eq_some_iff.mp h
          split at h
          case isFalse => cases h
          -- the entries are appended, so they are as many as `v` has only behind nothing
          have hval : prior.val ++ es = v.val := congrArg Subtype.val (Option.some.inj h)
          have hnil : prior.val = [] := by
            have hcount := congrArg List.length hval
            rw [List.length_append, length_mapM hes] at hcount
            exact List.length_eq_zero_iff.mp (by omega)
          rw [hnil, List.nil_append] at hval
          exact ⟨hnil, hlen, hval ▸ hes⟩
        · rintro ⟨hnil, -, hes⟩
          rw [hes, Option.bind_some]
          simp only [hnil, List.nil_append, dif_pos v.property]
      · rw [if_neg hlen]
        exact iff_of_false (by simp) fun h => hlen h.2.1
  | unit => exact iff_of_true rfl trivial
  | field unwire t rest iht ihrest =>
      -- a member that is not sent keeps what it was before
      rw [readBack, Restores, ← ihrest v.2 prior.2]
      have hmember : (if !unwire || always then readBack junk always t v.1 prior.1
          else some prior.1) = some v.1 ↔
          if !unwire || always then Restores junk always t v.1 prior.1 else prior.1 = v.1 := by
        by_cases hw : (!unwire || always) = true
        · simp only [if_pos hw]
          exact iht v.1 prior.1
        · simp only [if_neg hw]
          exact Option.some_inj
      rw [← hmember]
      constructor
      · intro h
        obtain ⟨w, hw, h⟩ := Option.bind_eq_some_iff.mp h
        obtain ⟨ws, hws, h⟩ := Option.map_eq_some_iff.mp h
        cases h
        exact ⟨hw, hws⟩
      · intro h
        rw [h.1, h.2]
        rfl

end Restores

private theorem readData_reads (v prior : Sized) :
    Reads (readData prior) (fun _ => dataBytes v.val)
      fun _ => some (if v.val ≠ [] then v else prior) := by
  have hv : v.val.length < 2 ^ 64 := by have := v.property; omega
  have hbody : ∀ (a : Bool) (sz : Nat), some v.val.length = some sz →
      Reads (fun b => if sz ≠ 0 then do
          let (bs, b) ← b.reverse sz
          .ok (clip bs, b)
        else .ok (prior, b)) (fun _ => v.val) fun _ => some (if v.val ≠ [] then v else prior) := by
    intro a sz hsz
    cases Option.some.inj hsz
    by_cases hnil : v.val = []
    · simp only [hnil, List.length_nil, ne_eq, not_true_eq_false, if_false]
      exact .pure prior
    · simp only [ne_eq, List.length_eq_zero_iff, hnil, not_false_eq_true, if_true]
      have hclip : clip v.val = v := Subtype.ext (clip_of_lt v.property)
      have hmap := (reverse_reads v.val).map clip
      rwa [Option.map_some, hclip] at hmap
  exact (readVarInt_reads hv).bind hbody

private theorem readMember_reads {α : Type} (unwire : Bool)
    {rd : Breadboard → Except WireFault (α × Breadboard)} {e : Bool → Bytes}
    {got : Bool → Option α} (h : Reads rd e got) (prior : α) :
    Reads (readMember unwire rd prior) (fun always => if !unwire || always then e always else [])
      fun always => if !unwire || always then got always else some prior := by
  intro b r hrest
  rw [readMember]
  by_cases hw : (!unwire || b.always) = true
  · simp only [if_pos hw] at hrest ⊢
    exact h b r hrest
  · simp only [if_neg hw] at hrest ⊢
    exact Reads.pure prior b r hrest

private theorem readEntries_reads {α : Type} {rd : Breadboard → Except WireFault (α × Breadboard)}
    {e : Bool → α → Bytes} {got : Bool → α → Option α}
    (h : ∀ v, Reads rd (fun always => e always v) fun always => got always v) (es acc : List α) :
    Reads (readEntries rd es.length acc) (fun always => es.flatMap (e always))
      fun always => (es.mapM (got always)).map fun es' => acc ++ es' := by
  induction es generalizing acc with
  | nil =>
      have hnil : (fun always => (([] : List α).mapM (got always)).map fun es' => acc ++ es') =
          fun _ => some acc := by
        funext always
        rw [List.mapM_nil]
        exact congrArg some (List.append_nil acc)
      rw [hnil]
      exact .pure acc
  | cons v es ih =>
      have hcons : (fun always => ((v :: es).mapM (got always)).map fun es' => acc ++ es') =
          fun always => (got always v).bind fun w =>
            (es.mapM (got always)).map fun es' => acc ++ [w] ++ es' := by
        funext always
        rw [List.mapM_cons]
        cases got always v with
        | none => rfl
        | some w =>
            cases es.mapM (got always) with
            | none => rfl
            | some es' => simp [bind, pure]
      rw [hcons]
      simp only [List.flatMap_cons]
      exact (h v).bind fun _ w _ => ih (acc ++ [w])

private theorem blob_reads (junk : Nat) {n : Fin (2 ^ 64)} (v prior : (Ty.blob n).Val) :
    Reads (read junk (.blob n) prior) (fun always => bytes always (.blob n) v)
      fun _ => some v := by
  have hprior : prior.val.drop n.val = [] := by
    exact List.drop_eq_nil_iff.mpr (Nat.le_of_eq prior.property)
  have hbody : ∀ (a : Bool) (sz : Nat), some n.val = some sz →
      Reads (fun b => if sz ≠ 0 then do
          let (bs, b) ← b.reverse sz
          if h : (bs ++ prior.val.drop sz).length = n.val then
            .ok ((⟨bs ++ prior.val.drop sz, h⟩ : (Ty.blob n).Val), b)
          else .error .blobTooSmall
        else .ok (prior, b)) (fun _ => v.val) fun _ => some v := by
    intro a sz hsz
    cases Option.some.inj hsz
    by_cases hzero : n.val = 0
    · have hnil : v.val = [] := List.length_eq_zero_iff.mp (v.property.trans hzero)
      have hsame : prior = v := by
        apply Subtype.ext
        rw [hnil, ← List.length_eq_zero_iff, prior.property, hzero]
      simp only [hzero, ne_eq, not_true_eq_false, if_false, hnil, hsame]
      exact .pure v
    · simp only [hzero, ne_eq, not_false_eq_true, if_true, hprior, List.append_nil]
      have hrev := reverse_reads v.val
      rw [v.property] at hrev
      have hfit : ∀ (a : Bool) (bs : Bytes), some v.val = some bs →
          Reads (fun b => if h : bs.length = n.val then .ok ((⟨bs, h⟩ : (Ty.blob n).Val), b)
            else .error .blobTooSmall) (fun _ => []) fun _ => some v := by
        intro a bs hbs
        cases Option.some.inj hbs
        simp only [dif_pos v.property]
        exact .pure v
      have hbind := hrev.bind hfit
      simp only [List.append_nil, Option.bind_some] at hbind
      exact hbind
  exact (readVarInt_reads n.isLt).bind hbody

private theorem vector_reads {junk : Nat} {t : Ty}
    (ih : ∀ v prior : t.Val, Reads (read junk t prior) (fun always => bytes always t v)
      fun always => readBack junk always t v prior) (v prior : (Ty.vector t).Val) :
    Reads (read junk (.vector t) prior) (fun always => bytes always (.vector t) v)
      fun always => readBack junk always (.vector t) v prior := by
  have hbody : ∀ (a : Bool) (entries : Nat), some v.val.length = some entries →
      Reads (fun b => do
        let (v, b) ← readEntries (read junk t (t.default junk)) (min entries (2 ^ 31)) prior.val b
        if 2 ^ 31 ≤ entries then .error .intOverflow
        else if h : v.length < 2 ^ 64 then .ok ((⟨v, h⟩ : (Ty.vector t).Val), b)
        else .error .lengthError) (fun always => v.val.flatMap (bytes always t))
        fun always => readBack junk always (.vector t) v prior := by
    intro a entries hentries
    cases Option.some.inj hentries
    simp only [readBack]
    by_cases hlen : v.val.length < 2 ^ 31
    · have hread := readEntries_reads (e := fun always => bytes always t)
        (fun e => ih e (t.default junk)) v.val prior.val
      simp only [Nat.min_eq_left (Nat.le_of_lt hlen), if_neg (Nat.not_le.mpr hlen), if_pos hlen]
      have hfit : ∀ w : List t.Val,
          Reads (fun b => if h : w.length < 2 ^ 64 then .ok ((⟨w, h⟩ : (Ty.vector t).Val), b)
            else .error .lengthError) (fun _ => [])
            fun _ => if h : w.length < 2 ^ 64 then some ⟨w, h⟩ else none := by
        intro w
        by_cases h : w.length < 2 ^ 64
        · simp only [dif_pos h]
          exact .pure _
        · simp only [dif_neg h]
          exact .fail .lengthError _
      have hbind := hread.bind fun _ w _ => hfit w
      simp only [List.append_nil, Option.bind_map] at hbind
      exact hbind
    · intro b r _
      simp only [if_pos (Nat.not_lt.mp hlen), if_neg hlen]
      cases readEntries (read junk t (t.default junk)) (min v.val.length (2 ^ 31)) prior.val b with
      | error x => exact .fault x
      | ok res => exact .fault .intOverflow
  exact (readVarInt_reads v.property).bind hbody

/-- **What `>>` reads in front of the bytes of a value.** -/
theorem read_reads (junk : Nat) (t : Ty) (v prior : t.Val) :
    Reads (read junk t prior) (fun always => bytes always t v)
      fun always => readBack junk always t v prior := by
  induction t with
  | int w =>
      have hrev := reverse_reads (leBytes w.bytes v.val)
      rw [length_leBytes] at hrev
      have hmap := hrev.map fun bs =>
        (⟨leNat bs % 256 ^ w.bytes, int_lt w bs⟩ :
          Fin (256 ^ w.bytes))
      have hval : leNat (leBytes w.bytes v.val) % 256 ^ w.bytes = v.val := by
        rw [leNat_leBytes, Nat.mod_mod, Nat.mod_eq_of_lt v.isLt]
      simp only [Option.map_some, hval] at hmap
      exact hmap
  | varInt =>
      have hmap := (readVarInt_reads v.isLt).map fun n =>
        (⟨n % 2 ^ 64, varInt_lt n⟩ : Fin (2 ^ 64))
      simp only [Option.map_some, Nat.mod_eq_of_lt v.isLt] at hmap
      exact hmap
  | data => exact readData_reads v prior
  | string =>
      have hbody : ∀ (a : Bool) (tmp : Sized),
          some (if v.val ≠ [] then v else ⟨[], by decide⟩) = some tmp →
          Reads (fun b => if tmp.val ≠ [] then do
              let s ← dup tmp
              .ok (s, b)
            else .ok (prior, b)) (fun _ => [])
            fun always => readBack junk always .string v prior := by
        intro a tmp htmp
        cases Option.some.inj htmp
        simp only [readBack]
        by_cases hnil : v.val = []
        · simp only [hnil, ne_eq, not_true_eq_false, if_false]
          exact .pure prior
        · simp only [hnil, ne_eq, not_false_eq_true, if_true, dup]
          by_cases hn : NUL ∈ v.val.dropLast
          · simp only [if_pos hn]
            exact .fail .stringOverrun _
          · simp only [if_neg hn]
            exact .pure v
      -- the text is read into an empty `Data` first
      have hbind := (readData_reads v ⟨[], by decide⟩).bind hbody
      simp only [List.append_nil, Option.bind_some] at hbind
      exact hbind
  | stdString =>
      have hbody : ∀ (a : Bool) (rv : Sized),
          some (if (clip v).val ≠ [] then clip v else ⟨[], by decide⟩) = some rv →
          Reads (fun b => if rv.val ≠ [] then .ok (rv.val, b) else .ok (prior, b)) (fun _ => [])
            fun always => readBack junk always .stdString v prior := by
        intro a rv hrv
        cases Option.some.inj hrv
        simp only [readBack]
        by_cases hnil : (clip v).val = []
        · simp only [hnil, ne_eq, not_true_eq_false, if_false]
          exact .pure prior
        · simp only [hnil, ne_eq, not_false_eq_true, if_true]
          exact .pure (clip v).val
      have hbind := (readData_reads (clip v) ⟨[], by decide⟩).bind hbody
      simp only [List.append_nil, Option.bind_some] at hbind
      exact hbind
  | blob n => exact blob_reads junk v prior
  | vector t ih => exact vector_reads ih v prior
  | unit => exact .pure ()
  | field unwire t rest iht ihrest =>
      exact Reads.bind (readMember_reads unwire (iht v.1 prior.1) prior.1)
        fun _ w _ => (ihrest v.2 prior.2).map fun ws => (w, ws)

/-! ## Sequences of values -/

/-- A value that is written, and what the variable holds that it is read back into. -/
structure Item where
  t : Ty
  value : t.Val
  prior : t.Val

def Item.bytes (always : Bool) (i : Item) : Bytes := Wire.bytes always i.t i.value

/-- `wire << v₁ << v₂ << …`. -/
def writeAll (items : List Item) (b : Breadboard) : Except WireFault Breadboard :=
  writeEntries (fun i => write i.t i.value) items b

/-- `wire >> x₁ >> x₂ >> …`: the values of the variables afterwards. -/
def readAll (junk : Nat) : List Item → Breadboard →
    Except WireFault (List ((t : Ty) × t.Val) × Breadboard)
  | [], b => .ok ([], b)
  | i :: items, b => do
      let (v, b) ← read junk i.t i.prior b
      let (vs, b) ← readAll junk items b
      .ok (⟨i.t, v⟩ :: vs, b)

/-- What is left in the variables after everything was written and read back. -/
def roundTrip (junk : Nat) (items : List Item) (b : Breadboard) :
    Except WireFault (List ((t : Ty) × t.Val) × Breadboard) := do
  let b ← writeAll items b
  readAll junk items b

/-- The values that were written. -/
def written (items : List Item) : List ((t : Ty) × t.Val) := items.map fun i => ⟨i.t, i.value⟩

private def Item.back (junk : Nat) (always : Bool) (i : Item) : Option ((t : Ty) × t.Val) :=
  (readBack junk always i.t i.value i.prior).map (Sigma.mk i.t)

private theorem Item.back_eq_iff {junk : Nat} {always : Bool} {i : Item} :
    i.back junk always = some ⟨i.t, i.value⟩ ↔ Restores junk always i.t i.value i.prior := by
  rw [← readBack_eq_iff, Item.back, Option.map_eq_some_iff]
  constructor
  · rintro ⟨v, hv, heq⟩
    cases heq
    exact hv
  · intro h
    exact ⟨i.value, h, rfl⟩

private theorem readAll_reads (junk : Nat) (items : List Item) :
    Reads (readAll junk items) (fun always => items.flatMap (Item.bytes always))
      fun always => items.mapM (Item.back junk always) := by
  induction items with
  | nil => exact .pure []
  | cons i items ih =>
      have hbind := (read_reads junk i.t i.value i.prior).bind fun _ v _ =>
        ih.map fun vs => (⟨i.t, v⟩ : (t : Ty) × t.Val) :: vs
      have hgot : (fun always => (i :: items).mapM (Item.back junk always)) =
          fun always => (readBack junk always i.t i.value i.prior).bind fun v =>
            (items.mapM (Item.back junk always)).map fun vs => ⟨i.t, v⟩ :: vs := by
        funext always
        rw [List.mapM_cons, Item.back]
        cases readBack junk always i.t i.value i.prior with
        | none => rfl
        | some v =>
            cases items.mapM (Item.back junk always) with
            | none => rfl
            | some vs => rfl
      rw [hgot]
      simp only [List.flatMap_cons]
      exact hbind

/-- **A sequence of values that fits on the breadboard comes back, with nothing left over,
exactly when every one of them is restored in its variable.** -/
theorem roundTrip_iff (junk : Nat) (items : List Item) (b : Breadboard) (hempty : b.rest = [])
    (hroom : b.sink.length + (items.flatMap (Item.bytes b.always)).length ≤ b.M) :
    (∃ b', roundTrip junk items b = .ok (written items, b') ∧ b'.rest = []) ↔
      ∀ i ∈ items, Restores junk b.always i.t i.value i.prior := by
  have hwrites : Writes (writeAll items) fun always => items.flatMap (Item.bytes always) :=
    writeEntries_writes (f := Item.bytes) (fun i => write_writes i.t i.value) items
  obtain ⟨b₁, h₁, hw⟩ := hwrites b hroom
  have hrest : b₁.rest = items.flatMap (Item.bytes b₁.always) ++ [] := by
    rw [hw.rest, hempty, hw.always, List.nil_append, List.append_nil]
  have hout : Outcome b₁ [] (readAll junk items b₁) (items.mapM (Item.back junk b.always)) := by
    rw [← hw.always]
    exact readAll_reads junk items b₁ [] hrest
  have htrip : roundTrip junk items b = readAll junk items b₁ := by
    simp only [roundTrip, bind, Except.bind, h₁]
  have hback : items.mapM (Item.back junk b.always) = some (written items) ↔
      ∀ i ∈ items, Restores junk b.always i.t i.value i.prior := by
    rw [written, mapM_eq_map]
    exact forall₂_congr fun i _ => Item.back_eq_iff
  rw [htrip, ← hback]
  constructor
  · rintro ⟨b', hread, -⟩
    rw [hread] at hout
    exact hout.got_eq.1
  · intro h
    rw [h] at hout
    obtain ⟨b', hread, hr⟩ := hout.exists_ok
    exact ⟨b', hread, hr.rest⟩

/-- A string, a number, a record and a vector, each into a variable that holds something else
but for the vector. -/
def mixedItems : List Item :=
  [⟨.string, ⟨str "hi", by decide⟩, ⟨str "old", by decide⟩⟩,
   ⟨.varInt, ⟨300, by decide⟩, ⟨7, by decide⟩⟩,
   ⟨.field false (.int .w16) .unit, (⟨513, by decide⟩, ()), (⟨1, by decide⟩, ())⟩,
   ⟨.vector .data, ⟨[⟨[0, 1], by decide⟩], by decide⟩, ⟨[], by decide⟩⟩]

theorem roundTrip_mixed :
    ∃ b', roundTrip 0 mixedItems (.new 64) = .ok (written mixedItems, b') ∧ b'.rest = [] := by
  apply (roundTrip_iff 0 mixedItems (.new 64) rfl (by decide)).mpr
  simp only [mixedItems, List.forall_mem_cons, Restores, Breadboard.new]
  have hvector : ([0, 1] : Bytes) = [] → (Ty.default 0 .data).val = [] := fun h => nomatch h
  exact ⟨⟨by decide, by decide⟩, trivial, ⟨trivial, trivial⟩,
    ⟨trivial, by decide, hvector, fun _ h => absurd h List.not_mem_nil⟩,
    fun _ h => absurd h List.not_mem_nil⟩

/-- An empty `Data` into a variable that holds a byte. -/
def emptyItems : List Item := [⟨.data, ⟨[], nil_lt⟩, ⟨[1], by decide⟩⟩]

/-- Nothing is assigned: the variable keeps its byte. -/
theorem roundTrip_empty :
    (emptyItems.flatMap (Item.bytes false)).length ≤ 64 ∧
      ¬ ∃ b', roundTrip 0 emptyItems (.new 64) = .ok (written emptyItems, b') ∧ b'.rest = [] := by
  refine ⟨by decide, ?_⟩
  rintro ⟨b', h, -⟩
  cases h

end Suil.Wire
