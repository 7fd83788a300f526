import Suil.Redis.Command

set_option autoImplicit false

/-! # The operations of a Redis client

The operations of `BaseClient` (`redis.h`) put a command together from a name and their arguments and
send it; `connect` sends the command that selects a database. `sends_iff` says for which arguments the
bytes are the command of the protocol. -/

namespace Suil.Redis

/-- A `String` that is given for a key, a hash, a set or a pattern. -/
structure Key where
  owned : Bool
  text : Sized OBuffer.UINT32

def Key.param (k : Key) : Param := .string k.owned k.text

/-- An `int64_t`. -/
structure CInt64 where
  val : Int
  bound : -2 ^ 63 ≤ val ∧ val < 2 ^ 63

/-- The text of a number is short. -/
theorem showInt_length {n : Int} (h : n.natAbs < 10 ^ 19) : (showInt n).length < OBuffer.UINT32 := by
  have hdigits : (showNat n.natAbs).length ≤ 19 := by
    rw [showNat, List.length_map]
    exact (Nat.length_toDigits_le_iff (by decide) (by decide)).mpr h
  have hwide : 20 < OBuffer.UINT32 := by decide
  rw [showInt]
  by_cases hneg : n < 0
  · rw [if_pos hneg, List.length_append]
    have hsign : (str "-").length = 1 := rfl
    omega
  · rw [if_neg hneg]
    omega

/-- An `int` as a parameter. -/
def ofInt (n : CInt) : Param :=
  .number ⟨showInt n.val, showInt_length (by have := n.bound; omega)⟩

/-- An `int64_t` as a parameter. -/
def ofInt64 (n : CInt64) : Param :=
  .number ⟨showInt n.val, showInt_length (by have := n.bound; omega)⟩

/-- The operations, with what they are called with. `lindex` is the overload of `ltrim` with one
index. -/
inductive Operation where
  | get (key : Key)
  | set (key : Key) (val : Param)
  | incr (key : Key) (amount : CInt)
  | decr (key : Key) (amount : CInt)
  | append (key : Key) (val : Param)
  | substr (key : Key) (start stop : CInt)
  | exists (key : Key)
  | del (key : Key)
  | keys (pattern : Key)
  | expire (key : Key) (secs : CInt64)
  | ttl (key : Key)
  | rpush (key : Key) (vals : List Param)
  | lpush (key : Key) (vals : List Param)
  | llen (key : Key)
  | lrange (key : Key) (start stop : CInt)
  | ltrim (key : Key) (start stop : CInt)
  | lindex (key : Key) (index : CInt)
  | hdel (hash key : Key)
  | hexists (hash key : Key)
  | hkeys (hash : Key)
  | hvals (hash : Key)
  | hget (hash key : Key)
  | hset (hash key : Key) (val : Param)
  | hlen (hash : Key)
  | sadd (members : Key) (vals : List Param)
  | smembers (members : Key)
  | spop (members : Key)
  | scard (members : Key)
  | info
  | select (db : CInt)

namespace Operation

/-- `incr` and `decr`: the name when there is no amount, and the name when there is one. -/
def step (name nameBy : String) (key : Key) (amount : CInt) : Bytes × List Param :=
  if amount.val = 0 then (str name, [key.param]) else (str nameBy, [ofInt amount])

/-- What is given to `Commmand`; `connect` selects the database 0 by sending nothing. -/
def sent : Operation → Option (Bytes × List Param)
  | get key => some (str "GET", [key.param])
  | set key val => some (str "SET", [key.param, val])
  | incr key amount => some (step "INCR" "INCRBY" key amount)
  | decr key amount => some (step "DECR" "DECRBY" key amount)
  | append key val => some (str "APPEND", [key.param, val])
  | substr key start stop => some (str "SUBSTR", [key.param, ofInt start, ofInt stop])
  | .exists key => some (str "EXISTS", [key.param])
  | del key => some (str "DEL", [key.param])
  | keys pattern => some (str "KEYS", [pattern.param])
  | expire key secs => some (str "EXPIRE", [key.param, ofInt64 secs])
  | ttl key => some (str "TTL", [key.param])
  | rpush key vals => some (str "RPUSH", key.param :: vals)
  | lpush key vals => some (str "LPUSH", key.param :: vals)
  | llen key => some (str "LLEN", [key.param])
  | lrange key start stop => some (str "LRANGE", [key.param, ofInt start, ofInt stop])
  | ltrim key start stop => some (str "LTRIM", [key.param, ofInt start, ofInt stop])
  | lindex key index => some (str "LINDEX", [key.param, ofInt index])
  | hdel hash key => some (str "HDEL", [hash.param, key.param])
  | hexists hash key => some (str "HEXISTS", [hash.param, key.param])
  | hkeys hash => some (str "HKEYS", [hash.param])
  | hvals hash => some (str "HVALS", [hash.param])
  | hget hash key => some (str "HGET", [hash.param, key.param])
  | hset hash key val => some (str "HSET", [hash.param, key.param, val])
  | hlen hash => some (str "HLEN", [hash.param])
  | sadd members vals => some (str "SADD", members.param :: vals)
  | smembers members => some (str "SMEMBERS", [members.param])
  | spop members => some (str "spop", [members.param])
  | scard members => some (str "SCARD", [members.param])
  | info => some (str "INFO", [])
  | select db => if db.val = 0 then none else some (str "SELECT", [ofInt (.ofNat 1 CInt.one_lt)])

/-! ## The commands of the protocol -/

/-- The command of the protocol for an amount. -/
def stepBy (name nameBy : String) (key : Key) (amount : CInt) : Bytes × List Bytes :=
  if amount.val = 0 then (str name, [key.text.bytes])
  else (str nameBy, [key.text.bytes, showInt amount.val])

/-- The command of the protocol: its name and its arguments in their order. A new connection has the
database 0 already. -/
def protocol : Operation → Option (Bytes × List Bytes)
  | get key => some (str "GET", [key.text.bytes])
  | set key val => some (str "SET", [key.text.bytes, val.sent])
  | incr key amount => some (stepBy "INCR" "INCRBY" key amount)
  | decr key amount => some (stepBy "DECR" "DECRBY" key amount)
  | append key val => some (str "APPEND", [key.text.bytes, val.sent])
  | substr key start stop =>
      some (str "SUBSTR", [key.text.bytes, showInt start.val, showInt stop.val])
  | .exists key => some (str "EXISTS", [key.text.bytes])
  | del key => some (str "DEL", [key.text.bytes])
  | keys pattern => some (str "KEYS", [pattern.text.bytes])
  | expire key secs => some (str "EXPIRE", [key.text.bytes, showInt secs.val])
  | ttl key => some (str "TTL", [key.text.bytes])
  | rpush key vals => some (str "RPUSH", key.text.bytes :: vals.map Param.sent)
  | lpush key vals => some (str "LPUSH", key.text.bytes :: vals.map Param.sent)
  | llen key => some (str "LLEN", [key.text.bytes])
  | lrange key start stop =>
      some (str "LRANGE", [key.text.bytes, showInt start.val, showInt stop.val])
  | ltrim key start stop =>
      some (str "LTRIM", [key.text.bytes, showInt start.val, showInt stop.val])
  | lindex key index => some (str "LINDEX", [key.text.bytes, showInt index.val])
  | hdel hash key => some (str "HDEL", [hash.text.bytes, key.text.bytes])
  | hexists hash key => some (str "HEXISTS", [hash.text.bytes, key.text.bytes])
  | hkeys hash => some (str "HKEYS", [hash.text.bytes])
  | hvals hash => some (str "HVALS", [hash.text.bytes])
  | hget hash key => some (str "HGET", [hash.text.bytes, key.text.bytes])
  | hset hash key val => some (str "HSET", [hash.text.bytes, key.text.bytes, val.sent])
  | hlen hash => some (str "HLEN", [hash.text.bytes])
  | sadd members vals => some (str "SADD", members.text.bytes :: vals.map Param.sent)
  | smembers members => some (str "SMEMBERS", [members.text.bytes])
  | spop members => some (str "SPOP", [members.text.bytes])
  | scard members => some (str "SCARD", [members.text.bytes])
  | info => some (str "INFO", [])
  | select db => if db.val = 0 then none else some (str "SELECT", [showInt db.val])

/-- The bytes of a command are an array of the name, in any case, and the arguments. -/
def Carries (bytes name : Bytes) (args : List Bytes) : Prop :=
  ∃ name' : Bytes, name'.map toLower = name.map toLower ∧
    bytes = Resp.encode (.array ((name' :: args).map .bulk))

/-- The command that is sent is that of the protocol. -/
def Sends (op : Operation) : Prop :=
  match op.sent, op.protocol with
  | none, none => True
  | some (cmd, params), some (name, args) =>
      ∃ b, construct cmd params = .ok b ∧ Carries b.contents name args
  | _, _ => False

/-! ## Operations that can be put together -/

/-- No argument is left out or replaced. -/
def Whole : Operation → Prop
  | incr _ amount | decr _ amount => amount.val = 0
  | select db => db.val = 0 ∨ db.val = 1
  | _ => True

/-- There is no command, or it can be put together. -/
def Fits (op : Operation) : Prop := ∀ c ∈ op.sent, Sendable c.1 c.2

/-! ## The bytes of an array -/

variable {cmd name : Bytes} {params : List Param} {args : List Bytes} {b : OBuffer}

theorem request_eq (cmd : Bytes) (params : List Param) :
    request cmd params = .array ((cstr cmd :: params.map Param.sent).map .bulk) := by
  rw [request, List.map_cons, List.map_cons, List.map_map]
  rfl

theorem encode_array (vs : List Bytes) : Resp.encode (.array (vs.map .bulk)) =
    Resp.line 42 (showNat vs.length) ++ Resp.encodeAll (vs.map .bulk) := by
  rw [Resp.encode, List.length_map]

/-- The length of an array depends on the length of the name. -/
theorem encode_length {n m : Bytes} (h : n.length = m.length) (args : List Bytes) :
    (Resp.encode (.array ((n :: args).map .bulk))).length =
      (Resp.encode (.array ((m :: args).map .bulk))).length := by
  simp only [List.map_cons, Resp.encodeAll, Resp.encode, List.length_append, List.length_cons, h]

/-- The number of the arguments is that of the parameters. -/
theorem count_of_carries (hb : construct cmd params = .ok b) (h : Carries b.contents name args) :
    (1 + params.length) % 2 ^ 64 = 1 + args.length := by
  obtain ⟨name', -, hbytes⟩ := h
  obtain ⟨rest, hrest⟩ := construct_header hb
  rw [hrest, encode_array] at hbytes
  have hcount := (Resp.line_showNat_inj hbytes).1
  rw [hcount, List.length_cons, Nat.add_comm]

/-! ## The operations -/

/-- **A command whose parameters are the arguments is sent exactly when it can be put together.** -/
theorem carried_iff (hname : (cstr cmd).map toLower = name.map toLower)
    (hargs : params.map Param.sent = args) :
    (∃ b, construct cmd params = .ok b ∧ Carries b.contents name args) ↔ Sendable cmd params := by
  constructor
  · rintro ⟨b, hb, hcarries⟩
    have hcount := count_of_carries hb hcarries
    obtain ⟨name', hname', hbytes⟩ := hcarries
    have hlength : args.length = params.length := by rw [← hargs, List.length_map]
    have hmod := Nat.mod_lt (1 + params.length) (by decide : 2 ^ 64 > 0)
    refine sendable_of_construct hb (by omega) ?_
    have hsame : name'.length = (cstr cmd).length := by
      have := congrArg List.length (hname'.trans hname.symm)
      rwa [List.length_map, List.length_map] at this
    rw [hbytes, request_eq, hargs]
    exact encode_length hsame args
  · intro h
    obtain ⟨b, hb, hbytes⟩ := construct_of_sendable h
    refine ⟨b, hb, cstr cmd, hname, ?_⟩
    rw [hbytes, request_eq, hargs]

/-- A command with another number of parameters is not that of the protocol. -/
theorem not_carries_of_count (h : (1 + params.length) % 2 ^ 64 ≠ 1 + args.length) :
    ¬ ∃ b, construct cmd params = .ok b ∧ Carries b.contents name args :=
  fun ⟨_, hb, hcarries⟩ => h (count_of_carries hb hcarries)

/-- The operations that send what they are given. -/
private theorem sends_iff_of_same {op : Operation} (hsent : op.sent = some (cmd, params))
    (hprotocol : op.protocol = some (name, args))
    (hname : (cstr cmd).map toLower = name.map toLower) (hargs : params.map Param.sent = args)
    (hwhole : op.Whole) : op.Sends ↔ op.Whole ∧ op.Fits := by
  have hfits : op.Fits ↔ Sendable cmd params := by
    rw [Fits, hsent]
    simp
  rw [and_iff_right hwhole, hfits, Sends, hsent, hprotocol]
  exact carried_iff hname hargs

/-- An amount comes without the key. -/
private theorem sends_iff_of_step {op : Operation} {name nameBy : String} {key : Key} {amount : CInt}
    (hsent : op.sent = some (step name nameBy key amount))
    (hprotocol : op.protocol = some (stepBy name nameBy key amount))
    (hname : cstr (str name) = str name) (hwhole : op.Whole ↔ amount.val = 0) :
    op.Sends ↔ op.Whole ∧ op.Fits := by
  rw [step] at hsent
  rw [stepBy] at hprotocol
  by_cases hamount : amount.val = 0
  · rw [if_pos hamount] at hsent hprotocol
    exact sends_iff_of_same hsent hprotocol (congrArg _ hname) rfl (hwhole.mpr hamount)
  · rw [if_neg hamount] at hsent hprotocol
    refine iff_of_false ?_ fun h => hamount (hwhole.mp h.1)
    rw [Sends, hsent, hprotocol]
    refine not_carries_of_count ?_
    show 2 % 2 ^ 64 ≠ 3
    decide

/-- The database 1 is selected whatever is asked for. -/
private theorem select_carries (hb : construct (str "SELECT") [ofInt (.ofNat 1)] = .ok b)
    {n : Int} (h : Carries b.contents (str "SELECT") [showInt n]) : n = 1 := by
  have hone : (construct (str "SELECT") [ofInt (.ofNat 1)]).toOption.map OBuffer.contents =
      some (Resp.line 42 (showNat 2) ++ (Resp.line 36 (showNat 6) ++ (str "SELECT" ++ Resp.CRLF) ++
        (Resp.line 36 (showNat 1) ++ (str "1" ++ Resp.CRLF)))) := by decide
  rw [hb, Except.toOption, Option.map_some, Option.some_inj] at hone
  obtain ⟨name', hname, hbytes⟩ := h
  rw [hone, encode_array] at hbytes
  have hall := (Resp.line_showNat_inj hbytes).2
  rw [List.map_cons, Resp.encodeAll, List.map_cons, Resp.encodeAll, List.map_nil,
    Resp.encodeAll] at hall
  have hselect : Resp.encode (.bulk (str "SELECT")) =
      Resp.line 36 (showNat 6) ++ (str "SELECT" ++ Resp.CRLF) := by
    rw [Resp.encode]
    rfl
  have hdigit : Resp.encode (.bulk (str "1")) =
      Resp.line 36 (showNat 1) ++ (str "1" ++ Resp.CRLF) := by
    rw [Resp.encode]
    rfl
  rw [← hselect, ← hdigit] at hall
  have hrest := (Resp.bulk_inj hall).2
  rw [← List.append_nil (Resp.encode (.bulk (str "1")))] at hrest
  have htext : str "1" = showInt n := (Resp.bulk_inj hrest).1
  rw [showInt] at htext
  by_cases hneg : n < 0
  · rw [if_pos hneg] at htext
    exact absurd (List.head_eq_of_cons_eq htext) (by decide)
  · rw [if_neg hneg] at htext
    have habs : n.natAbs = 1 := by
      rw [← ofDigits_showNat n.natAbs, ← htext]
      decide
    omega

/-- A database is selected as it should be when it is the first or the second one. -/
private theorem select_sends_iff (db : CInt) :
    (select db).Sends ↔ (select db).Whole ∧ (select db).Fits := by
  by_cases hzero : db.val = 0
  · -- nothing is sent, and nothing has to be
    have hsent : (select db).sent = none := if_pos hzero
    have hprotocol : (select db).protocol = none := if_pos hzero
    rw [Sends, Fits, hsent, hprotocol]
    exact iff_of_true trivial ⟨.inl hzero, nofun⟩
  have hsent : (select db).sent = some (str "SELECT", [ofInt (.ofNat 1)]) := if_neg hzero
  have hprotocol : (select db).protocol = some (str "SELECT", [showInt db.val]) := if_neg hzero
  by_cases hone : db.val = 1
  · refine sends_iff_of_same hsent hprotocol (by decide) ?_ (.inr hone)
    rw [hone]
    rfl
  · refine iff_of_false ?_ fun h => h.1.elim hzero hone
    rw [Sends, hsent, hprotocol]
    rintro ⟨b, hb, hcarries⟩
    exact hone (select_carries hb hcarries)

/-- **An operation sends its command exactly when it leaves no argument out and the command can be put
together**: `incr` and `decr` with an amount send no key, and `connect` selects the database 1 whatever
it is asked for. -/
theorem sends_iff (op : Operation) : op.Sends ↔ op.Whole ∧ op.Fits := by
  cases op with
  | incr key amount => exact sends_iff_of_step rfl rfl (by decide) Iff.rfl
  | decr key amount => exact sends_iff_of_step rfl rfl (by decide) Iff.rfl
  | select db => exact select_sends_iff db
  | _ => exact sends_iff_of_same rfl rfl (by decide) rfl trivial

/-- An amount is sent without the key. -/
theorem not_sends_incr : ¬ ∀ op : Operation, op.Sends := by
  intro h
  obtain ⟨b, hb, hcarries⟩ := h (.incr ⟨false, str "n", by decide⟩ (.ofNat 5))
  exact absurd (count_of_carries hb hcarries) (by decide)

end Operation

end Suil.Redis
