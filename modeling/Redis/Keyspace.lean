import Mathlib.Data.List.AList
import Mathlib.Logic.Function.Basic
import Redis.KeyCommands
import Redis.Lib.Machine

/-! # The keyspace of a master (`db.c`, `expire.c`, `lazyfree.c`)

Databases with their main dictionary and the dictionary of expire times, which shares the key strings
of the main one: an entry keeps the address of its string. The dictionaries are the finite maps that
`dict.c` is proved to implement. Every call that reads the clock gets its own reading. `none` is a
failed assertion. What a key removed by expiry had as its expire time is recorded, with the time that
the decision was based on. -/

namespace Redis.Keyspace

variable {K V : Type} [DecidableEq K]

structure RedisDb (K V : Type) where
  dict : AList fun _ : K => Nat × V
  expires : AList fun _ : K => Nat × Int

structure Expiry (K : Type) where
  db : Nat
  key : K
  time : Option Int
  now : Int

/-- The databases, the address of the next string and the keys that expired so far. -/
structure Server (K V : Type) where
  db : Nat → RedisDb K V
  nextSds : Nat
  expired : List (Expiry K)

/-- What a call finds: `mstime()`, the start of the running script, `server.loading`, and the options that
choose between the two ways to delete. -/
structure Env where
  mstime : Int
  luaTimeStart : Option Int
  loading : Bool
  lazyExpire : Bool
  lazyServerDel : Bool

variable (env : Env) (s : Server K V)

def Env.now : Int := env.luaTimeStart.getD env.mstime

def Server.empty : Server K V := ⟨fun _ => ⟨∅, ∅⟩, 0, []⟩

def Server.setDb (j : Nat) (d : RedisDb K V) : Server K V :=
  { s with db := Function.update s.db j d }

/-! ### Keys -/

def lookupKey (j : Nat) (key : K) : Option V := ((s.db j).dict.lookup key).map Prod.snd

def Server.time (j : Nat) (key : K) : Option Int := ((s.db j).expires.lookup key).map Prod.snd

def dbAdd (j : Nat) (key : K) (val : V) : Option (Server K V) :=
  if key ∈ (s.db j).dict then none
  else
    some { s.setDb j { s.db j with dict := (s.db j).dict.insert key (s.nextSds, val) } with nextSds := s.nextSds + 1 }

/-- The entry keeps its key. -/
def dbOverwrite (j : Nat) (key : K) (val : V) : Option (Server K V) :=
  ((s.db j).dict.lookup key).map fun e => s.setDb j { s.db j with dict := (s.db j).dict.insert key (e.1, val) }

def dbSyncDelete (j : Nat) (key : K) : Server K V × Bool :=
  let d := s.db j
  let expires := if d.expires.entries.length > 0 then d.expires.erase key else d.expires
  (s.setDb j ⟨d.dict.erase key, expires⟩, decide (key ∈ d.dict))

/-- A big value is freed by another thread. -/
def dbAsyncDelete (j : Nat) (key : K) : Server K V × Bool := dbSyncDelete s j key

def dbDelete (j : Nat) (key : K) : Server K V × Bool :=
  if env.lazyServerDel then dbAsyncDelete s j key else dbSyncDelete s j key

def emptyDb (j : Nat) : Server K V := s.setDb j ⟨∅, ∅⟩

/-- `emptyDb(-1, …)` for `dbnum` databases. -/
def emptyAll (dbnum : Nat) (s : Server K V) : Server K V := (List.range dbnum).foldl emptyDb s

/-! ### Expires -/

def removeExpire (j : Nat) (key : K) : Option (Server K V × Bool) :=
  if key ∈ (s.db j).dict then
    some (s.setDb j { s.db j with expires := (s.db j).expires.erase key }, decide (key ∈ (s.db j).expires))
  else none

/-- A new entry takes the string of the main dictionary, an old one keeps its own. -/
def setExpire (j : Nat) (key : K) (when : Int) : Option (Server K V) :=
  ((s.db j).dict.lookup key).map fun kde =>
    let sds := (((s.db j).expires.lookup key).map Prod.fst).getD kde.1
    s.setDb j { s.db j with expires := (s.db j).expires.insert key (sds, when) }

def getExpire (j : Nat) (key : K) : Option Int :=
  match s.time j key with
  | none => some (-1)
  | some when => if key ∈ (s.db j).dict then some when else none

/-- The tests of `keyIsExpired`: a negative time is none. -/
def isExpired (loading : Bool) (now when : Int) : Bool := !decide (when < 0) && !loading && decide (now > when)

def keyIsExpired (j : Nat) (key : K) : Option Bool := (getExpire s j key).map (isExpired env.loading env.now)

def deleteExpired (now : Int) (s : Server K V) (j : Nat) (key : K) : Server K V × Bool :=
  let s := { s with expired := s.expired ++ [⟨j, key, s.time j key, now⟩] }
  if env.lazyExpire then dbAsyncDelete s j key else dbSyncDelete s j key

def expireIfNeeded (j : Nat) (key : K) : Option (Server K V × Bool) := do
  let expired ← keyIsExpired env s j key
  if !expired then some (s, false) else some (deleteExpired env env.now s j key)

def lookupKeyRead (j : Nat) (key : K) : Option (Server K V × Option V) := do
  let (s, expired) ← expireIfNeeded env s j key
  if expired then some (s, none) else some (s, lookupKey s j key)

def lookupKeyWrite (j : Nat) (key : K) : Option (Server K V × Option V) := do
  let (s, _) ← expireIfNeeded env s j key
  some (s, lookupKey s j key)

def keyOps : SetOps Option (Server K V) (Nat × K) V where
  lookupKeyWrite s k := lookupKeyWrite env s k.1 k.2
  dbAdd s k := dbAdd s k.1 k.2
  dbDelete s k := some (dbDelete env s k.1 k.2).1
  getExpire s k := getExpire s k.1 k.2
  setExpire s k := setExpire s k.1 k.2
  signalModifiedKey s _ := s
  dbOverwrite s k := dbOverwrite s k.1 k.2
  removeExpire s k := (removeExpire s k.1 k.2).map (·.1)

def setKey (j : Nat) (key : K) (val : V) : Option (Server K V) := (keyOps env).setKey s (j, key) val

/-- On an entry of `expires`. -/
def activeExpireCycleTryExpire (now : Int) (s : Server K V) (j : Nat) (key : K) (t : Int) : Server K V :=
  if now > t then (deleteExpired env now s j key).1 else s

/-- The sampling loop of `activeExpireCycle`: `picks` are the choices of `dictGetRandomKey`. -/
def activeExpireCycle (env : Env) (j : Nat) : List Nat → Server K V → Server K V
  | [], s => s
  | pick :: picks, s =>
    match (s.db j).expires.entries[pick % (s.db j).expires.entries.length]? with
    | none => s
    | some de => activeExpireCycle env j picks (activeExpireCycleTryExpire env env.mstime s j de.1 de.2.2)

/-! ### Commands -/

inductive Reply (V : Type)
  | done
  | flag (b : Bool)
  | value (v : Option V)
  | key (r : KeyReply)

/-- The clock is read once for each of the two keys. -/
def renameGenericCommand (env env' : Env) (s : Server K V) (j : Nat) (src dst : K) (nx : Bool) :
    Option (Server K V × KeyReply) :=
  (keyOps env).renameGenericCommand (keyOps env').toKeyOps s (j, src) (j, dst) nx

def moveCommand (dbnum : Nat) (env env' : Env) (s : Server K V) (j : Nat) (key : K) (dbid : Int) :
    Option (Server K V × KeyReply) :=
  if dbid < 0 ∨ (dbnum : Int) ≤ dbid then some (s, .outOfRange)
  else if j = dbid.toNat then some (s, .sameObject)
  else (keyOps env).moveCommand (keyOps env').toKeyOps s (j, key) (dbid.toNat, key)

def dbSwapDatabases (dbnum : Nat) (s : Server K V) (id1 id2 : Int) : Server K V × KeyReply :=
  if id1 < 0 ∨ (dbnum : Int) ≤ id1 ∨ id2 < 0 ∨ (dbnum : Int) ≤ id2 then (s, .outOfRange)
  else if id1 = id2 then (s, .ok)
  else ((s.setDb id1.toNat (s.db id2.toNat)).setDb id2.toNat (s.db id1.toNat), .ok)

/-! ### The machine -/

inductive Op (K V : Type)
  | dbAdd (j : Nat) (key : K) (val : V)
  | dbOverwrite (j : Nat) (key : K) (val : V)
  | setKey (env : Env) (j : Nat) (key : K) (val : V)
  | setExpire (j : Nat) (key : K) (when : Int)
  | removeExpire (j : Nat) (key : K)
  | dbSyncDelete (j : Nat) (key : K)
  | dbAsyncDelete (j : Nat) (key : K)
  | lookupKeyRead (env : Env) (j : Nat) (key : K)
  | lookupKeyWrite (env : Env) (j : Nat) (key : K)
  | rename (env env' : Env) (j : Nat) (src dst : K) (nx : Bool)
  | move (env env' : Env) (j : Nat) (key : K) (dbid : Int)
  | swapdb (id1 id2 : Int)
  | flushdb (j : Nat)
  | flushall
  | activeExpireCycle (env : Env) (j : Nat) (picks : List Nat)

variable (dbnum : Nat)

def step : Op K V → Server K V → Option (Server K V × Reply V)
  | .dbAdd j key val, s => (dbAdd s j key val).map (·, .done)
  | .dbOverwrite j key val, s => (dbOverwrite s j key val).map (·, .done)
  | .setKey env j key val, s => (setKey env s j key val).map (·, .done)
  | .setExpire j key when, s => (setExpire s j key when).map (·, .done)
  | .removeExpire j key, s => (removeExpire s j key).map fun r => (r.1, .flag r.2)
  | .dbSyncDelete j key, s => some ((dbSyncDelete s j key).1, .flag (dbSyncDelete s j key).2)
  | .dbAsyncDelete j key, s => some ((dbAsyncDelete s j key).1, .flag (dbAsyncDelete s j key).2)
  | .lookupKeyRead env j key, s => (lookupKeyRead env s j key).map fun r => (r.1, .value r.2)
  | .lookupKeyWrite env j key, s => (lookupKeyWrite env s j key).map fun r => (r.1, .value r.2)
  | .rename env env' j src dst nx, s => (renameGenericCommand env env' s j src dst nx).map fun r => (r.1, .key r.2)
  | .move env env' j key dbid, s => (moveCommand dbnum env env' s j key dbid).map fun r => (r.1, .key r.2)
  | .swapdb id1 id2, s => some ((dbSwapDatabases dbnum s id1 id2).1, .key (dbSwapDatabases dbnum s id1 id2).2)
  | .flushdb j, s => some (emptyDb s j, .done)
  | .flushall, s => some (emptyAll dbnum s, .done)
  | .activeExpireCycle env j picks, s => some (activeExpireCycle env j picks s, .done)

def machine : Machine (Op K V) (Server K V) (Reply V) := ⟨.empty, step dbnum⟩

end Redis.Keyspace
