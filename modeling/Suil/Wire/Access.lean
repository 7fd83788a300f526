import Suil.Lib.Traced
import Suil.Wire.Codec

set_option autoImplicit false

/-! # The memory that reading a wire touches

`pullTo` is `operator>>` (`wire.h`) with every `memcpy` out of the buffer, and every pointer into
it that is handed out, in the trace. `layout` says where the wire format of a type puts its length
bytes. `pullAll_safe_iff` is the result: reads keep to the window and to their destinations exactly
when no length byte that is reached asks for more than the eight bytes of a `uint64_t` while there
are as many bytes left. -/

namespace Suil.Wire

open LittleEndian Breadboard

/-! ## Reading with its accesses -/

/-- `count` bytes of the buffer from `off` on, for a destination of `room` bytes. -/
structure Access where
  off : Nat
  count : Nat
  room : Nat
  deriving DecidableEq, Repr

/-- The access is inside the window of `b` and inside its destination. -/
def Access.Safe (b : Breadboard) (a : Access) : Prop :=
  b.H ≤ a.off ∧ a.off + a.count ≤ b.sink.length ∧ a.count ≤ a.room

/-- Reading: the accesses, and what comes out of it. -/
abbrev Pull : Type → Type := Traced Access WireFault

/-- `pull` of `es` bytes into a variable of `room` bytes. -/
def pull (room es : Nat) (b : Breadboard) : Pull (Bytes × Breadboard) :=
  match b.reverse es with
  | .ok r => ⟨[⟨b.H, es, room⟩], .ok r⟩
  | .error x => ⟨[], .error x⟩

/-- `reverse(es)`: a pointer to `es` bytes of the buffer. -/
def view (es : Nat) (b : Breadboard) : Pull (Bytes × Breadboard) := pull es es b

/-- `operator>>(VarInt&)`. -/
def pullVarInt (b : Breadboard) : Pull (Nat × Breadboard) := do
  let (sz, b) ← pull 1 1 b
  let sz := leNat sz
  let (tmp, b) ← pull 8 sz b
  if 8 < sz then .lift (.error .stackOverrun) else pure (leNat tmp, b)

/-- `operator>>(Data&)`. -/
def pullData (prior : Sized) (b : Breadboard) : Pull (Sized × Breadboard) := do
  let (sz, b) ← pullVarInt b
  if sz ≠ 0 then
    let (bs, b) ← view sz b
    pure (clip bs, b)
  else pure (prior, b)

/-- The loop of `operator>>` for vectors. -/
def pullEntries {α : Type} (rd : Breadboard → Pull (α × Breadboard)) :
    Nat → List α → Breadboard → Pull (List α × Breadboard)
  | 0, v, b => pure (v, b)
  | n + 1, v, b => do
      let (entry, b) ← rd b
      pullEntries rd n (v ++ [entry]) b

def pullMember {α : Type} (unwire : Bool) (rd : Breadboard → Pull (α × Breadboard)) (prior : α)
    (b : Breadboard) : Pull (α × Breadboard) :=
  if !unwire || b.always then rd b else pure (prior, b)

/-- `operator>>` into a variable that holds `prior`. The copy of a `String` reads what is in front
of the first NUL of its bytes and writes into memory of its own. -/
def pullTo (junk : Nat) : (t : Ty) → (prior : t.Val) → Breadboard → Pull (t.Val × Breadboard)
  | .int w, _, b => do
      let (bs, b) ← pull 8 w.bytes b
      pure (⟨leNat bs % 256 ^ w.bytes, int_lt w bs⟩, b)
  | .varInt, _, b => do
      let (n, b) ← pullVarInt b
      pure (⟨n % 2 ^ 64, varInt_lt n⟩, b)
  | .data, prior, b => pullData prior b
  | .string, prior, b => do
      let (tmp, b) ← pullData ⟨[], nil_lt⟩ b
      pure (if tmp.val ≠ [] then tmp else prior, b)
  | .stdString, prior, b => do
      let (rv, b) ← pullData ⟨[], nil_lt⟩ b
      pure (if rv.val ≠ [] then rv.val else prior, b)
  | .blob n, prior, b => do
      let (sz, b) ← pullVarInt b
      if sz ≠ 0 then
        -- `Blob::copy` throws in front of its `memcpy` when the bytes do not fit
        let (bs, b) ← if sz ≤ n.val then pull n.val sz b else view sz b
        if h : (bs ++ prior.val.drop sz).length = n.val then
          pure (⟨bs ++ prior.val.drop sz, h⟩, b)
        else .lift (.error .blobTooSmall)
      else pure (prior, b)
  | .vector t, prior, b => do
      let (entries, b) ← pullVarInt b
      let (v, b) ← pullEntries (pullTo junk t (t.default junk)) (min entries (2 ^ 31)) prior.val b
      if 2 ^ 31 ≤ entries then .lift (.error .intOverflow)
      else if h : v.length < 2 ^ 64 then pure (⟨v, h⟩, b)
      else .lift (.error .lengthError)
  | .unit, _, b => pure ((), b)
  | .field unwire t rest, prior, b => do
      let (v, b) ← pullMember unwire (pullTo junk t prior.1) prior.1 b
      let (vs, b) ← pullTo junk rest prior.2 b
      pure ((v, vs), b)

/-- `wire >> x₁ >> x₂ >> …` into variables with the given contents. -/
def pullAll (junk : Nat) : List ((t : Ty) × t.Val) → Breadboard →
    Pull (List ((t : Ty) × t.Val) × Breadboard)
  | [], b => pure ([], b)
  | x :: xs, b => do
      let (v, b) ← pullTo junk x.1 x.2 b
      let (vs, b) ← pullAll junk xs b
      pure (⟨x.1, v⟩ :: vs, b)

/-! ## The wire format -/

/-- A layout of bytes: the places where a length byte is expected, as what is left from there on,
and the number and what is left after it unless it is cut short. -/
abbrev Layout (β : Type) : Type := Bool → Bytes → List Bytes × Option (β × Bytes)

namespace Layout

def pure {β : Type} (v : β) : Layout β := fun _ s => ([], some (v, s))

def fail {β : Type} : Layout β := fun _ _ => ([], none)

def bind {β γ : Type} (l : Layout β) (k : β → Layout γ) : Layout γ := fun always s =>
  match (l always s).2 with
  | none => ((l always s).1, none)
  | some (v, r) => ((l always s).1 ++ (k v always r).1, (k v always r).2)

/-- `n` bytes. -/
def take (n : Nat) : Layout Unit := fun _ s =>
  ([], if n ≤ s.length then some ((), s.drop n) else none)

/-- A number: a length byte, which is at most eight, and as many bytes. -/
def number : Layout Nat := fun _ s =>
  ([s], match s with
    | [] => none
    | L :: r =>
        if L.toNat ≤ 8 ∧ L.toNat ≤ r.length then some (leNat (r.take L.toNat), r.drop L.toNat)
        else none)

section

-- Its equations are made here, once.
attribute [local simp] number

end

def many (l : Layout Unit) : Nat → Layout Unit
  | 0 => pure ()
  | n + 1 => bind l fun _ => many l n

end Layout

/-- The wire format of a type; what the variable holds matters for vectors that grow too long. -/
def layout (junk : Nat) : (t : Ty) → (prior : t.Val) → Layout Unit
  | .int w, _ => .take w.bytes
  | .varInt, _ => .bind .number fun _ => .pure ()
  | .data, _ => .bind .number .take
  | .string, _ => .bind .number .take
  | .stdString, _ => .bind .number .take
  | .blob n, _ => .bind .number fun sz =>
      .bind (.take sz) fun _ => if sz ≤ n.val then .pure () else .fail
  | .vector t, prior => .bind .number fun entries =>
      .bind (.many (layout junk t (t.default junk)) (min entries (2 ^ 31))) fun _ =>
        if 2 ^ 31 ≤ entries then .fail
        else if prior.val.length + entries < 2 ^ 64 then .pure () else .fail
  | .unit, _ => .pure ()
  | .field unwire t rest, prior =>
      .bind (fun always => if !unwire || always then layout junk t prior.1 always
        else Layout.pure () always) fun _ => layout junk rest prior.2

def layouts (junk : Nat) : List ((t : Ty) × t.Val) → Layout Unit
  | [] => .pure ()
  | x :: xs => .bind (layout junk x.1 x.2) fun _ => layouts junk xs

/-- The length byte in front is at most eight, or there are fewer bytes behind it than it says. -/
def Tame (s : Bytes) : Prop := ∀ L r, s = L :: r → L.toNat ≤ 8 ∨ r.length < L.toNat

/-! ## Rules for keeping to a layout -/

section Rules

variable {α α' β β' : Type}

/-- `run`, from `b` on, makes accesses inside the window only, ends where the layout ends, and
overruns a destination exactly when the layout meets a length byte that is not tame. -/
structure Follows (b : Breadboard) (run : Pull (α × Breadboard)) (f : α → β)
    (places : List Bytes × Option (β × Bytes)) : Prop where
  inside : ∀ a ∈ run.log, b.H ≤ a.off ∧ a.off + a.count ≤ b.sink.length
  fits : (∀ a ∈ run.log, a.count ≤ a.room) ↔ ∀ s ∈ places.1, Tame s
  ok : ∀ v b', run.res = .ok (v, b') →
    places.2 = some (f v, b'.rest) ∧ b.ReadTo b' b'.rest ∧ b.H ≤ b'.H
  error : ∀ x, run.res = .error x → places.2 = none

/-- Reading with `rd` follows `l` from everywhere; `f` is what the layout knows of the value. -/
def Tracks (rd : Breadboard → Pull (α × Breadboard)) (f : α → β) (l : Layout β) : Prop :=
  ∀ b, Follows b (rd b) f (l b.always b.rest)

private theorem length_rest (b : Breadboard) : b.rest.length = b.sink.length - b.H :=
  List.length_drop

private theorem pull_ok {b : Breadboard} {es : Nat} (room : Nat) (h : es ≤ b.rest.length) :
    ∃ b', pull room es b = ⟨[⟨b.H, es, room⟩], .ok (b.rest.take es, b')⟩ ∧
      b.ReadTo b' (b.rest.drop es) ∧ b'.H = b.H + es ∧ b.H + es ≤ b.sink.length := by
  have hlen : (b.rest.take es).length = es := by
    rw [List.length_take]
    omega
  have hle : b.H + es ≤ b.sink.length := by
    have := b.head_le
    rw [length_rest] at h
    omega
  obtain ⟨b', hrev, hread⟩ := reverse_ok (List.take_append_drop es b.rest).symm
  rw [hlen] at hrev
  refine ⟨b', by rw [pull, hrev], hread, ?_, hle⟩
  rw [reverse, dif_pos (by rw [← length_rest]; exact h)] at hrev
  cases hrev
  rfl

private theorem pull_error {b : Breadboard} {es : Nat} (room : Nat) (h : b.rest.length < es) :
    ∃ x, pull room es b = ⟨[], .error x⟩ := by
  rw [length_rest] at h
  refine ⟨.outOfBytes es (b.sink.length - b.H), ?_⟩
  rw [pull, reverse, dif_neg (by omega)]

private theorem Tracks.pure {v : α} {w : β} {f : α → β} (h : f v = w) :
    Tracks (fun b => Pure.pure (v, b)) f (Layout.pure w) := by
  intro b
  refine ⟨fun a ha => absurd ha List.not_mem_nil, ?_, ?_, ?_⟩
  · exact iff_of_true (fun a ha => absurd ha List.not_mem_nil) fun s hs => absurd hs List.not_mem_nil
  · intro v' b' hres
    cases hres
    exact ⟨by rw [Layout.pure, h], .refl b, Nat.le_refl _⟩
  · intro x hres
    cases hres

/-- Nothing is touched and nothing comes out. -/
private theorem Follows.refused (b : Breadboard) (x : WireFault) (f : α → β) :
    Follows b ⟨[], .error x⟩ f ([], none) := by
  refine ⟨fun a ha => absurd ha List.not_mem_nil, ?_, ?_, fun _ _ => rfl⟩
  · exact iff_of_true (fun a ha => absurd ha List.not_mem_nil) fun s hs => absurd hs List.not_mem_nil
  · intro v b' hres
    cases hres

private theorem Tracks.fail {f : α → β} (x : WireFault) :
    Tracks (fun _ => .lift (.error x)) f Layout.fail :=
  fun b => .refused b x f

/-- What fits into its destination is what the layout takes. -/
private theorem tracks_pull {room es : Nat} (h : es ≤ room) :
    Tracks (pull room es) (fun _ => ()) (.take es) := by
  intro b
  rcases Nat.lt_or_ge b.rest.length es with hlt | hge
  · obtain ⟨x, hx⟩ := pull_error room hlt
    rw [hx, Layout.take, if_neg (Nat.not_le.mpr hlt)]
    exact .refused b x _
  · obtain ⟨b', hb', hread, hhead, hle⟩ := pull_ok room hge
    rw [hb', Layout.take, if_pos hge]
    refine ⟨?_, ?_, ?_, fun x hres => (nomatch hres)⟩
    · intro a ha
      cases List.mem_singleton.mp ha
      exact ⟨Nat.le_refl _, hle⟩
    · refine iff_of_true (fun a ha => ?_) fun s hs => absurd hs List.not_mem_nil
      cases List.mem_singleton.mp ha
      exact h
    · intro v b'' hres
      cases hres
      rw [hread.rest]
      exact ⟨rfl, hread, by omega⟩

/-- One reading after another, when every value of the first has the property `P`. -/
private theorem Tracks.bind_of {rd : Breadboard → Pull (α × Breadboard)}
    {k : α → Breadboard → Pull (α' × Breadboard)} {f : α → β} {g : α' → β'} {l : Layout β}
    {m : β → Layout β'} (P : α → Prop) (hP : ∀ b v b', (rd b).res = .ok (v, b') → P v)
    (h : Tracks rd f l) (hk : ∀ v, P v → Tracks (k v) g (m (f v))) :
    Tracks (fun b => do let (v, b) ← rd b; k v b) g (.bind l m) := by
  intro b
  have hb := h b
  show Follows b (rd b >>= fun x => k x.1 x.2) g (Layout.bind l m b.always b.rest)
  cases hres : (rd b).res with
  | error x =>
      have hnone := hb.error x hres
      rw [Traced.bind_of_error _ hres, Layout.bind, hnone]
      exact ⟨hb.inside, hb.fits, fun v b' h => (by cases h), fun _ _ => rfl⟩
  | ok r =>
      obtain ⟨hsome, hread, hhead⟩ := hb.ok r.1 r.2 hres
      have hr := hk r.1 (hP b r.1 r.2 hres) r.2
      rw [hread.always] at hr
      rw [Traced.bind_of_ok _ hres, Layout.bind, hsome]
      refine ⟨?_, ?_, ?_, hr.error⟩
      · intro a ha
        rcases List.mem_append.mp ha with ha | ha
        · exact hb.inside a ha
        · obtain ⟨hlo, hhi⟩ := hr.inside a ha
          rw [hread.sink] at hhi
          exact ⟨Nat.le_trans hhead hlo, hhi⟩
      · simp only [List.forall_mem_append]
        exact and_congr hb.fits hr.fits
      · intro v b' hok
        obtain ⟨hsome', hread', hhead'⟩ := hr.ok v b' hok
        exact ⟨hsome', hread.trans hread', Nat.le_trans hhead hhead'⟩

private theorem Tracks.bind {rd : Breadboard → Pull (α × Breadboard)}
    {k : α → Breadboard → Pull (α' × Breadboard)} {f : α → β} {g : α' → β'} {l : Layout β}
    {m : β → Layout β'} (h : Tracks rd f l) (hk : ∀ v, Tracks (k v) g (m (f v))) :
    Tracks (fun b => do let (v, b) ← rd b; k v b) g (.bind l m) :=
  h.bind_of (fun _ => True) (fun _ _ _ _ => trivial) fun v _ => hk v

/-- A value is made of what was read, and the layout does not see it. -/
private theorem Tracks.map {rd : Breadboard → Pull (α × Breadboard)} {f : α → Unit}
    {l : Layout Unit} (h : Tracks rd f l) (g : α → α') :
    Tracks (fun b => do let (v, b) ← rd b; Pure.pure (g v, b)) (fun _ => ()) l := by
  have hl : l = .bind l fun _ => .pure () := by
    funext always s
    rw [Layout.bind]
    rcases l always s with ⟨ls, _ | ⟨⟨⟩, r⟩⟩
    · rfl
    · simp [Layout.pure]
  rw [hl]
  have hpure : ∀ v, Tracks (fun b => Pure.pure (g v, b)) (fun _ => ()) (Layout.pure ()) :=
    fun v => .pure rfl
  exact h.bind (m := fun _ => _) hpure

/-! ## Reading follows the wire format -/

private theorem tame_nil : Tame [] := fun _ _ h => (by cases h)

private theorem tame_cons {L : UInt8} {r : Bytes} :
    Tame (L :: r) ↔ L.toNat ≤ 8 ∨ r.length < L.toNat := by
  constructor
  · exact fun h => h L r rfl
  · rintro h L' r' heq
    cases heq
    exact h

/-- **Reading a number**: it overruns the accumulator when its length byte is not tame. -/
private theorem tracks_pullVarInt : Tracks pullVarInt (fun n => n) .number := by
  intro b
  unfold pullVarInt
  cases hrest : b.rest with
  | nil =>
      -- there is no length byte
      have hnone : b.rest.length < 1 := by
        rw [hrest]
        exact Nat.one_pos
      obtain ⟨x, hx⟩ := pull_error 1 hnone
      rw [hx, Traced.bind_of_error _ rfl, Layout.number]
      refine ⟨fun a ha => absurd ha List.not_mem_nil, ?_, fun v b' h => (by cases h), fun _ _ => rfl⟩
      refine iff_of_true (fun a ha => absurd ha List.not_mem_nil) fun s hs => ?_
      cases List.mem_singleton.mp hs
      exact tame_nil
  | cons L r =>
      have hone : 1 ≤ b.rest.length := by
        rw [hrest, List.length_cons]
        omega
      obtain ⟨b₁, h₁, hr₁, hhead₁, hle₁⟩ := pull_ok 1 hone
      rw [hrest] at h₁ hr₁
      rw [h₁, Traced.bind_of_ok _ rfl]
      have hsz : leNat (List.take 1 (L :: r)) = L.toNat := by
        rw [List.take_succ_cons, List.take_zero, leNat, leNat]
        omega
      have hrest₁ : b₁.rest = r := hr₁.rest
      have hfirst : ∀ a ∈ [(⟨b.H, 1, 1⟩ : Access)],
          b.H ≤ a.off ∧ a.off + a.count ≤ b.sink.length ∧ a.count ≤ a.room := by
        intro a ha
        cases List.mem_singleton.mp ha
        exact ⟨Nat.le_refl _, hle₁, Nat.le_refl _⟩
      simp only [hsz]
      rcases Nat.lt_or_ge r.length L.toNat with hlt | hge
      · -- there are fewer bytes than the length byte says
        have hfew : b₁.rest.length < L.toNat := by
          rw [hrest₁]
          exact hlt
        obtain ⟨x, hx⟩ := pull_error 8 hfew
        rw [hx, Traced.bind_of_error _ rfl, Layout.number]
        refine ⟨fun a ha => ?_, ?_, fun v b' h => (by cases h), fun _ _ => if_neg (by omega)⟩
        · exact ⟨(hfirst a ha).1, (hfirst a ha).2.1⟩
        · refine iff_of_true (fun a ha => (hfirst a ha).2.2) fun s hs => ?_
          cases List.mem_singleton.mp hs
          exact tame_cons.mpr (.inr hlt)
      · -- they are copied over the accumulator of eight bytes, and the length is checked after that
        have hall : L.toNat ≤ b₁.rest.length := by
          rw [hrest₁]
          exact hge
        obtain ⟨b₂, h₂, hr₂, hhead₂, hle₂⟩ := pull_ok 8 hall
        rw [hr₁.sink] at hle₂
        rw [hrest₁] at h₂ hr₂
        rw [h₂, Traced.bind_of_ok _ rfl]
        have hlog : ∀ a ∈ [(⟨b.H, 1, 1⟩ : Access)] ++ [⟨b₁.H, L.toNat, 8⟩],
            b.H ≤ a.off ∧ a.off + a.count ≤ b.sink.length := by
          intro a ha
          rcases List.mem_append.mp ha with ha | ha
          · exact ⟨(hfirst a ha).1, (hfirst a ha).2.1⟩
          · cases List.mem_singleton.mp ha
            have hoff : b.H ≤ b₁.H := by omega
            exact ⟨hoff, hle₂⟩
        have hfits : (∀ a ∈ [(⟨b.H, 1, 1⟩ : Access)] ++ [⟨b₁.H, L.toNat, 8⟩], a.count ≤ a.room) ↔
            ∀ s ∈ [L :: r], Tame s := by
          rw [List.forall_mem_append, List.forall_mem_singleton, List.forall_mem_singleton,
            List.forall_mem_singleton, tame_cons]
          constructor
          · exact fun h => .inl h.2
          · exact fun h => ⟨Nat.le_refl _, h.resolve_right (Nat.not_lt.mpr hge)⟩
        by_cases hbig : 8 < L.toNat
        · simp only [if_pos hbig, Layout.number]
          exact ⟨hlog, hfits, fun v b' h => (by cases h), fun _ _ => if_neg (by omega)⟩
        · simp only [if_neg hbig, Layout.number]
          refine ⟨hlog, hfits, fun v b' h => ?_, fun x h => (by cases h)⟩
          cases h
          rw [if_pos ⟨Nat.not_lt.mp hbig, hge⟩, hr₂.rest]
          exact ⟨rfl, hr₁.trans hr₂, by omega⟩

private theorem take_zero : Layout.take 0 = .pure () := by
  funext always s
  rw [Layout.take, if_pos (Nat.zero_le _), List.drop_zero, Layout.pure]

private theorem tracks_pullData (prior : Sized) :
    Tracks (pullData prior) (fun _ => ()) (.bind .number .take) := by
  have hbody : ∀ sz, Tracks (fun b => if sz ≠ 0 then do
        let (bs, b) ← view sz b
        Pure.pure (clip bs, b)
      else Pure.pure (prior, b)) (fun _ => ()) (.take sz) := by
    intro sz
    by_cases hsz : sz = 0
    · simp only [hsz, ne_eq, not_true_eq_false, if_false, take_zero]
      exact .pure rfl
    · simp only [hsz, ne_eq, not_false_eq_true, if_true]
      exact (tracks_pull (Nat.le_refl sz)).map clip
  exact tracks_pullVarInt.bind hbody

private theorem length_pull {room es : Nat} (b : Breadboard) (v : Bytes) (b' : Breadboard)
    (h : (pull room es b).res = .ok (v, b')) : v.length = es := by
  rcases Nat.lt_or_ge b.rest.length es with hlt | hge
  · obtain ⟨x, hx⟩ := pull_error room hlt
    rw [hx] at h
    cases h
  · obtain ⟨b₁, h₁, -⟩ := pull_ok room hge
    rw [h₁] at h
    cases h
    rw [List.length_take]
    omega

private theorem tracks_pullEntries {rd : Breadboard → Pull (α × Breadboard)} {l : Layout Unit}
    (h : Tracks rd (fun _ => ()) l) (n : Nat) (acc : List α) :
    Tracks (pullEntries rd n acc) (fun _ => ()) (.many l n) := by
  induction n generalizing acc with
  | zero => exact .pure rfl
  | succ n ih =>
      have hrest : ∀ v, Tracks (pullEntries rd n (acc ++ [v])) (fun _ => ()) (.many l n) :=
        fun v => ih (acc ++ [v])
      exact h.bind (m := fun _ => .many l n) hrest

private theorem length_pullEntries {rd : Breadboard → Pull (α × Breadboard)} {n : Nat}
    {acc v : List α} {b b' : Breadboard} (h : (pullEntries rd n acc b).res = .ok (v, b')) :
    v.length = acc.length + n := by
  induction n generalizing acc b with
  | zero =>
      cases h
      rfl
  | succ n ih =>
      rw [pullEntries, Traced.res_bind] at h
      cases hres : (rd b).res with
      | error x =>
          rw [hres] at h
          cases h
      | ok r =>
          rw [hres] at h
          have := ih h
          rw [List.length_append, List.length_singleton] at this
          omega

private theorem tracks_pullMember {unwire : Bool} {rd : Breadboard → Pull (α × Breadboard)}
    {l : Layout Unit} (h : Tracks rd (fun _ => ()) l) (prior : α) :
    Tracks (pullMember unwire rd prior) (fun _ => ())
      (fun always => if !unwire || always then l always else Layout.pure () always) := by
  intro b
  rw [pullMember]
  by_cases hw : (!unwire || b.always) = true
  · simp only [if_pos hw]
    exact h b
  · simp only [if_neg hw]
    exact Tracks.pure rfl b

private theorem tracks_pullBlob (junk : Nat) {n : Fin (2 ^ 64)} (prior : (Ty.blob n).Val) :
    Tracks (pullTo junk (.blob n) prior) (fun _ => ()) (layout junk (.blob n) prior) := by
  have hprior := prior.property
  have hbody : ∀ sz, Tracks (fun b => if sz ≠ 0 then do
        let (bs, b) ← if sz ≤ n.val then pull n.val sz b else view sz b
        if h : (bs ++ prior.val.drop sz).length = n.val then
          Pure.pure ((⟨bs ++ prior.val.drop sz, h⟩ : (Ty.blob n).Val), b)
        else .lift (.error .blobTooSmall)
      else Pure.pure (prior, b)) (fun _ => ())
      (.bind (.take sz) fun _ => if sz ≤ n.val then .pure () else .fail) := by
    intro sz
    by_cases hsz : sz = 0
    · simp only [hsz, ne_eq, not_true_eq_false, if_false, take_zero, Nat.zero_le, if_true]
      exact .pure rfl
    simp only [hsz, ne_eq, not_false_eq_true, if_true]
    -- what the copy does with the bytes that were read
    have hcopy : ∀ bs : Bytes, bs.length = sz →
        Tracks (fun b => if h : (bs ++ prior.val.drop sz).length = n.val then
          Pure.pure ((⟨bs ++ prior.val.drop sz, h⟩ : (Ty.blob n).Val), b)
        else .lift (.error .blobTooSmall)) (fun _ => ())
        (if sz ≤ n.val then .pure () else .fail) := by
      intro bs hbs
      have hlen : (bs ++ prior.val.drop sz).length = n.val ↔ sz ≤ n.val := by
        rw [List.length_append, List.length_drop]
        omega
      by_cases hle : sz ≤ n.val
      · simp only [dif_pos (hlen.mpr hle), if_pos hle]
        exact .pure rfl
      · simp only [dif_neg (mt hlen.mp hle), if_neg hle]
        exact .fail .blobTooSmall
    by_cases hle : sz ≤ n.val
    · rw [if_pos hle] at hcopy ⊢
      simp only [if_pos hle]
      exact (tracks_pull hle).bind_of (fun bs => bs.length = sz) length_pull
        (m := fun _ => _) hcopy
    · rw [if_neg hle] at hcopy ⊢
      simp only [if_neg hle]
      exact (tracks_pull (Nat.le_refl sz)).bind_of (fun bs => bs.length = sz) length_pull
        (m := fun _ => _) hcopy
  exact tracks_pullVarInt.bind hbody

private theorem tracks_pullVector {junk : Nat} {t : Ty}
    (ih : ∀ prior : t.Val, Tracks (pullTo junk t prior) (fun _ => ()) (layout junk t prior))
    (prior : (Ty.vector t).Val) :
    Tracks (pullTo junk (.vector t) prior) (fun _ => ()) (layout junk (.vector t) prior) := by
  have hbody : ∀ entries, Tracks (fun b => do
        let (v, b) ← pullEntries (pullTo junk t (t.default junk)) (min entries (2 ^ 31)) prior.val b
        if 2 ^ 31 ≤ entries then .lift (.error .intOverflow)
        else if h : v.length < 2 ^ 64 then Pure.pure ((⟨v, h⟩ : (Ty.vector t).Val), b)
        else .lift (.error .lengthError)) (fun _ => ())
      (.bind (.many (layout junk t (t.default junk)) (min entries (2 ^ 31))) fun _ =>
        if 2 ^ 31 ≤ entries then .fail
        else if prior.val.length + entries < 2 ^ 64 then .pure () else .fail) := by
    intro entries
    have hend : ∀ v : List t.Val, v.length = prior.val.length + min entries (2 ^ 31) →
        Tracks (fun b => if 2 ^ 31 ≤ entries then .lift (.error .intOverflow)
          else if h : v.length < 2 ^ 64 then Pure.pure ((⟨v, h⟩ : (Ty.vector t).Val), b)
          else .lift (.error .lengthError)) (fun _ => ())
        (if 2 ^ 31 ≤ entries then .fail
          else if prior.val.length + entries < 2 ^ 64 then .pure () else .fail) := by
      intro v hv
      by_cases hbig : 2 ^ 31 ≤ entries
      · simp only [if_pos hbig]
        exact .fail .intOverflow
      · have hlen : v.length < 2 ^ 64 ↔ prior.val.length + entries < 2 ^ 64 := by
          rw [hv, Nat.min_eq_left (by omega)]
        simp only [if_neg hbig]
        by_cases h : v.length < 2 ^ 64
        · simp only [dif_pos h, if_pos (hlen.mp h)]
          exact .pure rfl
        · simp only [dif_neg h, if_neg (mt hlen.mpr h)]
          exact .fail .lengthError
    exact (tracks_pullEntries (ih (t.default junk)) _ prior.val).bind_of
      (fun v => v.length = prior.val.length + min entries (2 ^ 31))
      (fun _ _ _ h => length_pullEntries h) (m := fun _ => _) hend
  exact tracks_pullVarInt.bind hbody

/-- **Reading a value follows its wire format.** -/
private theorem tracks_pullTo (junk : Nat) (t : Ty) (prior : t.Val) :
    Tracks (pullTo junk t prior) (fun _ => ()) (layout junk t prior) := by
  induction t with
  | int w =>
      have hw : w.bytes ≤ 8 := by
        cases w <;> decide
      exact (tracks_pull hw).map fun bs =>
        (⟨leNat bs % 256 ^ w.bytes, int_lt w bs⟩ : Fin (256 ^ w.bytes))
  | varInt =>
      have hval : ∀ n, Tracks (fun b => Pure.pure
          ((⟨n % 2 ^ 64, varInt_lt n⟩ : Fin (2 ^ 64)), b)) (fun _ => ())
          (Layout.pure ()) := fun n => .pure rfl
      exact tracks_pullVarInt.bind hval
  | data => exact tracks_pullData prior
  | string => exact (tracks_pullData _).map fun tmp => if tmp.val ≠ [] then tmp else prior
  | stdString => exact (tracks_pullData _).map fun rv => if rv.val ≠ [] then rv.val else prior
  | blob n => exact tracks_pullBlob junk prior
  | vector t ih => exact tracks_pullVector ih prior
  | unit => exact .pure rfl
  | field unwire t rest iht ihrest =>
      have hrest : ∀ v : t.Val, Tracks (fun b => do
          let (vs, b) ← pullTo junk rest prior.2 b
          Pure.pure ((v, vs), b)) (fun _ => ()) (layout junk rest prior.2) :=
        fun v => (ihrest prior.2).map fun vs => (v, vs)
      exact (tracks_pullMember (iht prior.1) prior.1).bind (m := fun _ => _) hrest

private theorem tracks_pullAll (junk : Nat) (xs : List ((t : Ty) × t.Val)) :
    Tracks (pullAll junk xs) (fun _ => ()) (layouts junk xs) := by
  induction xs with
  | nil => exact .pure rfl
  | cons x xs ih =>
      have hrest : ∀ v : x.1.Val, Tracks (fun b => do
          let (vs, b) ← pullAll junk xs b
          Pure.pure ((⟨x.1, v⟩ :: vs : List ((t : Ty) × t.Val)), b)) (fun _ => ())
          (layouts junk xs) :=
        fun v => ih.map fun vs => ⟨x.1, v⟩ :: vs
      exact (tracks_pullTo junk x.1 x.2).bind (m := fun _ => _) hrest

end Rules

/-- **Whatever is in the window and whatever is read, every access is inside the window and inside
its destination exactly when every length byte that is reached is tame.** -/
theorem pullAll_safe_iff (junk : Nat) (xs : List ((t : Ty) × t.Val)) (b : Breadboard) :
    (∀ a ∈ (pullAll junk xs b).log, a.Safe b) ↔
      ∀ s ∈ (layouts junk xs b.always b.rest).1, Tame s := by
  have h := tracks_pullAll junk xs b
  rw [← h.fits]
  constructor
  · exact fun hsafe a ha => (hsafe a ha).2.2
  · exact fun hfits a ha => ⟨(h.inside a ha).1, (h.inside a ha).2, hfits a ha⟩

/-- A length byte that asks for nine bytes, and nine bytes. -/
def nineBytes : Breadboard :=
  { sink := [9, 1, 2, 3, 4, 5, 6, 7, 8, 9], H := 0, M := 16, always := false,
    head_le := by decide, tail_le := by decide }

/-- Nine bytes are copied over the eight of `tmp`. -/
theorem pullAll_nineBytes :
    ¬ ∀ a ∈ (pullAll 0 [⟨.varInt, ⟨0, by decide⟩⟩] nineBytes).log, a.Safe nineBytes := by
  intro h
  have hsafe := h ⟨1, 9, 8⟩ (by decide)
  exact absurd hsafe.2.2 (by decide)

/-! ## The trace belongs to `read` -/

section Read

variable {α β : Type}

/-- The same outcome, unless a `String` is left with a size that its buffer does not have: that is
no access of the read itself. -/
private def Agrees (x y : Except WireFault α) : Prop := x = y ∨ y = .error .stringOverrun

private theorem Agrees.bind {x y : Except WireFault α} {f g : α → Except WireFault β}
    (h : Agrees x y) (hk : ∀ a, Agrees (f a) (g a)) : Agrees (x >>= f) (y >>= g) := by
  rcases h with rfl | rfl
  · cases x with
    | error e => exact .inl rfl
    | ok a => exact hk a
  · exact .inr rfl

private theorem pull_res (room es : Nat) (b : Breadboard) : (pull room es b).res = b.reverse es := by
  rw [pull]
  cases b.reverse es with
  | error x => rfl
  | ok r => rfl

private theorem pullVarInt_res (b : Breadboard) : (pullVarInt b).res = readVarInt b := by
  simp only [pullVarInt, readVarInt, Traced.res_bind, pull_res]
  congr 1
  funext r
  congr 1
  funext r'
  split_ifs <;> rfl

private theorem pullData_res (prior : Sized) (b : Breadboard) :
    (pullData prior b).res = readData prior b := by
  simp only [pullData, readData, Traced.res_bind, pullVarInt_res]
  congr 1
  funext r
  split_ifs
  · simp only [Traced.res_bind, view, pull_res]
    rfl
  · rfl

private theorem pullEntries_agrees {rd : Breadboard → Pull (α × Breadboard)}
    {rd' : Breadboard → Except WireFault (α × Breadboard)}
    (h : ∀ b, Agrees (rd b).res (rd' b)) (n : Nat) (acc : List α) (b : Breadboard) :
    Agrees (pullEntries rd n acc b).res (readEntries rd' n acc b) := by
  induction n generalizing acc b with
  | zero => exact .inl rfl
  | succ n ih =>
      rw [pullEntries, readEntries, Traced.res_bind]
      exact (h b).bind fun r => ih _ _

private theorem pullTo_agrees (junk : Nat) (t : Ty) (prior : t.Val) (b : Breadboard) :
    Agrees (pullTo junk t prior b).res (read junk t prior b) := by
  induction t generalizing b with
  | int w =>
      simp only [pullTo, read, Traced.res_bind, pull_res]
      exact .inl rfl
  | varInt =>
      simp only [pullTo, read, Traced.res_bind, pullVarInt_res]
      exact .inl rfl
  | data => exact .inl (pullData_res prior b)
  | string =>
      simp only [pullTo, read, Traced.res_bind, pullData_res]
      refine Agrees.bind (.inl rfl) fun r => ?_
      by_cases hnil : r.1.val = []
      · simp only [hnil, ne_eq, not_true_eq_false, if_false]
        exact .inl rfl
      · simp only [hnil, ne_eq, not_false_eq_true, if_true, dup]
        -- only the overrun of `dup` is out of view
        split_ifs
        · exact .inr rfl
        · exact .inl rfl
  | stdString =>
      simp only [pullTo, read, Traced.res_bind, pullData_res]
      refine Agrees.bind (.inl rfl) fun r => ?_
      split_ifs <;> exact .inl rfl
  | blob n =>
      simp only [pullTo, read, Traced.res_bind, pullVarInt_res]
      refine Agrees.bind (.inl rfl) fun r => ?_
      -- both ways of taking the bytes have the result of `reverse`
      have hpull : (if r.1 ≤ n.val then pull n.val r.1 r.2 else view r.1 r.2).res =
          r.2.reverse r.1 := by
        split_ifs <;> exact pull_res _ _ _
      by_cases hzero : r.1 = 0
      · simp only [hzero, ne_eq, not_true_eq_false, if_false]
        exact .inl rfl
      · simp only [hzero, ne_eq, not_false_eq_true, if_true]
        refine .inl ?_
        rw [← hpull]
        split_ifs <;>
        · rw [Traced.res_bind]
          congr 1
          funext r'
          split_ifs <;> rfl
  | vector t ih =>
      simp only [pullTo, read, Traced.res_bind, pullVarInt_res]
      refine Agrees.bind (.inl rfl) fun r => ?_
      refine (pullEntries_agrees (ih _) _ _ _).bind fun r' => .inl ?_
      split_ifs <;> rfl
  | unit => exact .inl rfl
  | field unwire t rest iht ihrest =>
      simp only [pullTo, read, Traced.res_bind]
      refine Agrees.bind ?_ fun r => (ihrest prior.2 r.2).bind fun r' => .inl rfl
      rw [pullMember, readMember]
      split_ifs
      · exact iht prior.1 b
      · exact .inl rfl

/-- **What `read` gives back is what is read with the accesses in view.** -/
theorem pullTo_of_read {junk : Nat} {t : Ty} {prior v : t.Val} {b b' : Breadboard}
    (h : read junk t prior b = .ok (v, b')) : (pullTo junk t prior b).res = .ok (v, b') := by
  have hagree := pullTo_agrees junk t prior b
  rw [h] at hagree
  rcases hagree with hres | hover
  · exact hres
  · cases hover

end Read

end Suil.Wire
