import Mathlib.Algebra.Order.Ring.Int
import Mathlib.Data.List.AList
import Redis.KeyCommands
import Redis.Lib.Machine

/-! # Transactions and watched keys (`multi.c`)

The server of a master with `dbnum` databases and any number of clients, without expiry and outside
cluster mode. Each database maps the keys that are watched to the clients that watch them, and each client
has the list of what it watches. The queued commands of an `EXEC` run one by one, and no command of
another client runs before the last of them. `none` is a failed assertion, or a call that cannot come. -/

namespace Redis.Multi

abbrev Key := List UInt8

/-- The stream commands that write a key and do not call `signalModifiedKey`; `xadd` is an `XADD` whose ID is refused. -/
inductive StreamWrite
  | xadd
  | xgroup
  | xsetid
  | xack
  | xclaim
  | xreadgroup
  deriving DecidableEq

/-- `XADD` and `XGROUP CREATE` with `MKSTREAM` make a key that is missing, the others change one that is there. -/
def StreamWrite.writes (present : Bool) : StreamWrite → Bool
  | .xadd => !present
  | .xgroup => true
  | _ => present

/-- The commands. `stream` has the value that its command leaves at the key, and `invalid` is a command that
`processCommand` refuses. -/
inductive Command (V : Type)
  | set (key : Key) (val : V)
  | stream (cmd : StreamWrite) (key : Key) (val : V)
  | del (keys : List Key)
  | rename (src dst : Key) (nx : Bool)
  | move (key : Key) (dbid : Int)
  | flushdb
  | flushall
  | swapdb (id1 id2 : Int)
  | select (id : Int)
  | watch (keys : List Key)
  | unwatch
  | multi
  | discard
  | exec
  | invalid

inductive Reply
  | ok
  | error
  | queued
  | int (n : Nat)
  | nullMultiBulk
  | execAbort
  | multiBulk (n : Nat)
  deriving DecidableEq

variable {V : Type} {n : Nat}

structure Db (V : Type) where
  dict : AList fun _ : Key => V
  watchedKeys : AList fun _ : Key => List Nat

abbrev WatchedKey (n : Nat) := Fin (n + 1) × Key

structure Client (V : Type) (n : Nat) where
  db : Fin (n + 1)
  multi : Bool
  dirtyCas : Bool
  dirtyExec : Bool
  commands : List (Command V)
  watched : List (WatchedKey n)

/-- The server with `dbnum = n + 1`; `executing` is the client whose `EXEC` is running, with the commands
that are still to come. -/
structure Server (V : Type) (n : Nat) where
  db : Fin (n + 1) → Db V
  clients : List (Nat × Client V n)
  executing : Option (Nat × List (Command V))

def Server.init : Server V n := ⟨fun _ => ⟨∅, ∅⟩, [], none⟩

namespace Server
variable (s : Server V n)

def find (c : Nat) : Option (Client V n) := s.clients.lookup c

def modify (c : Nat) (f : Client V n → Client V n) : Server V n :=
  { s with clients := s.clients.map fun p => if p.1 = c then (p.1, f p.2) else p }

def setDict (i : Fin (n + 1)) (d : AList fun _ : Key => V) : Server V n :=
  { s with db := Function.update s.db i { s.db i with dict := d } }

def setWatchedKeys (i : Fin (n + 1)) (w : AList fun _ : Key => List Nat) : Server V n :=
  { s with db := Function.update s.db i { s.db i with watchedKeys := w } }

end Server

/-! ### Watching keys -/

variable (s : Server V n)

def watchForKey (c : Nat) (i : Fin (n + 1)) (key : Key) : Option (Server V n) := do
  let client ← s.find c
  if (i, key) ∈ client.watched then some s
  else
    let clients := ((s.db i).watchedKeys.lookup key).getD []
    let s := s.setWatchedKeys i ((s.db i).watchedKeys.insert key (clients ++ [c]))
    some (s.modify c fun client => { client with watched := client.watched ++ [(i, key)] })

/-- A round of `unwatchAllKeys`: take the client from the list of a key. -/
def unwatchKey (c : Nat) (wk : WatchedKey n) : Option (Server V n) := do
  let clients ← (s.db wk.1).watchedKeys.lookup wk.2
  if c ∈ clients then
    let clients := clients.erase c
    let keys := (s.db wk.1).watchedKeys
    some (s.setWatchedKeys wk.1 (if clients.length = 0 then keys.erase wk.2 else keys.insert wk.2 clients))
  else none

def unwatchAllKeys (c : Nat) : Option (Server V n) := do
  let client ← s.find c
  let s ← client.watched.foldlM (unwatchKey · c) s
  some (s.modify c fun client => { client with watched := [] })

def touchWatchedKey (i : Fin (n + 1)) (key : Key) : Server V n :=
  let clients := ((s.db i).watchedKeys.lookup key).getD []
  { s with clients := s.clients.map fun p => if p.1 ∈ clients then (p.1, { p.2 with dirtyCas := true }) else p }

/-- `none` is for all databases. -/
def touchWatchedKeysOnFlush (dbid : Option (Fin (n + 1))) : Server V n :=
  { s with
    clients := s.clients.map fun p =>
      if p.2.watched.any fun wk => decide ((dbid = none ∨ dbid = some wk.1) ∧ wk.2 ∈ (s.db wk.1).dict) then
        (p.1, { p.2 with dirtyCas := true })
      else p }

def signalModifiedKey (i : Fin (n + 1)) (key : Key) : Server V n := touchWatchedKey s i key

/-! ### The keyspace -/

def dbAdd (i : Fin (n + 1)) (key : Key) (val : V) : Option (Server V n) :=
  if key ∈ (s.db i).dict then none else some (s.setDict i ((s.db i).dict.insert key val))

def dbOverwrite (i : Fin (n + 1)) (key : Key) (val : V) : Option (Server V n) :=
  if key ∈ (s.db i).dict then some (s.setDict i ((s.db i).dict.insert key val)) else none

def dbDelete (i : Fin (n + 1)) (key : Key) : Server V n × Bool :=
  (s.setDict i ((s.db i).dict.erase key), decide (key ∈ (s.db i).dict))

/-- No key has an expire. -/
def keyOps : SetOps Option (Server V n) (WatchedKey n) V where
  lookupKeyWrite s k := some (s, (s.db k.1).dict.lookup k.2)
  dbAdd s k := dbAdd s k.1 k.2
  dbDelete s k := some (dbDelete s k.1 k.2).1
  getExpire _ _ := some (-1)
  setExpire s _ _ := some s
  signalModifiedKey s k := signalModifiedKey s k.1 k.2
  dbOverwrite s k := dbOverwrite s k.1 k.2
  removeExpire s _ := some s

def setKey (i : Fin (n + 1)) (key : Key) (val : V) : Option (Server V n) := keyOps.setKey s (i, key) val

def dbOfId (id : Int) : Option (Fin (n + 1)) :=
  if h : 0 ≤ id ∧ id < n + 1 then some ⟨id.toNat, by omega⟩ else none

def intOfLong (id : Int) : Int := Int.bmod id (2 ^ 32)

def delGenericCommand (s : Server V n) (i : Fin (n + 1)) : List Key → Nat → Server V n × Reply
  | [], numdel => (s, .int numdel)
  | key :: keys, numdel =>
    let (s', deleted) := dbDelete s i key
    if deleted then delGenericCommand (signalModifiedKey s' i key) i keys (numdel + 1)
    else delGenericCommand s' i keys numdel

def Reply.ofKey : KeyReply → Reply
  | .ok => .ok
  | .zero => .int 0
  | .one => .int 1
  | .noKey | .outOfRange | .sameObject => .error

def renameGenericCommand (i : Fin (n + 1)) (src dst : Key) (nx : Bool) : Option (Server V n × Reply) :=
  (keyOps.renameGenericCommand keyOps.toKeyOps s (i, src) (i, dst) nx).map fun r => (r.1, .ofKey r.2)

def moveCommand (i : Fin (n + 1)) (key : Key) (dbid : Int) : Option (Server V n × Reply) :=
  match dbOfId dbid with
  | none => some (s, .error)
  | some dst =>
    if i = dst then some (s, .error)
    else (keyOps.moveCommand keyOps.toKeyOps s (i, key) (dst, key)).map fun r => (r.1, .ofKey r.2)

/-- The objects are changed in place, or added with `dbAdd`. -/
def streamCommand (i : Fin (n + 1)) (cmd : StreamWrite) (key : Key) (val : V) : Server V n × Reply :=
  if cmd.writes (decide (key ∈ (s.db i).dict)) then
    (s.setDict i ((s.db i).dict.insert key val), if cmd = .xadd then .error else .ok)
  else (s, .error)

def flushdbCommand (i : Fin (n + 1)) : Server V n :=
  (touchWatchedKeysOnFlush s (some i)).setDict i ∅

def flushallCommand : Server V n :=
  let s := touchWatchedKeysOnFlush s none
  { s with db := fun i => { s.db i with dict := ∅ } }

/-- The indexes of watched keys stay where they are. -/
def dbSwapDatabases (id1 id2 : Int) : Option (Server V n) := do
  let i ← dbOfId id1
  let j ← dbOfId id2
  if i = j then some s else some ((s.setDict i (s.db j).dict).setDict j (s.db i).dict)

def swapdbCommand (id1 id2 : Int) : Server V n × Reply :=
  match dbSwapDatabases s (intOfLong id1) (intOfLong id2) with
  | none => (s, .error)
  | some s => (s, .ok)

/-! ### Transactions -/

def discardTransaction (c : Nat) : Option (Server V n) :=
  unwatchAllKeys (s.modify c fun client =>
    { client with commands := [], multi := false, dirtyCas := false, dirtyExec := false }) c

def flagTransaction (c : Nat) : Server V n :=
  s.modify c fun client => if client.multi then { client with dirtyExec := true } else client

/-- Up to its loop. -/
def execCommand (c : Nat) (client : Client V n) : Option (Server V n × Reply) :=
  if !client.multi then some (s, .error)
  else if client.dirtyCas || client.dirtyExec then
    (discardTransaction s c).map (·, if client.dirtyExec then .execAbort else .nullMultiBulk)
  else
    (unwatchAllKeys s c).map fun s =>
      ({ s with executing := some (c, client.commands) }, .multiBulk client.commands.length)

/-- Run a command of the client `c`. -/
def call (c : Nat) (client : Client V n) : Command V → Option (Server V n × Reply)
  | .set key val => (setKey s client.db key val).map (·, .ok)
  | .stream cmd key val => some (streamCommand s client.db cmd key val)
  | .del keys => some (delGenericCommand s client.db keys 0)
  | .rename src dst nx => renameGenericCommand s client.db src dst nx
  | .move key dbid => moveCommand s client.db key dbid
  | .flushdb => some (flushdbCommand s client.db, .ok)
  | .flushall => some (flushallCommand s, .ok)
  | .swapdb id1 id2 => some (swapdbCommand s id1 id2)
  | .select id =>
    match dbOfId (intOfLong id) with
    | none => some (s, .error)
    | some i => some (s.modify c fun client => { client with db := i }, .ok)
  | .watch keys =>
    if client.multi then some (s, .error)
    else (keys.foldlM (fun s key => watchForKey s c client.db key) s).map (·, .ok)
  | .unwatch => (unwatchAllKeys s c).map fun s => (s.modify c fun client => { client with dirtyCas := false }, .ok)
  | .multi =>
    if client.multi then some (s, .error) else some (s.modify c fun client => { client with multi := true }, .ok)
  | .discard => if client.multi then (discardTransaction s c).map (·, .ok) else some (s, .error)
  | .exec => execCommand s c client
  | .invalid => some (flagTransaction s c, .error)

/-- The commands that run at once inside a transaction. -/
def Command.notQueued : Command V → Bool
  | .exec | .discard | .multi | .watch _ | .invalid => true
  | _ => false

def processCommand (c : Nat) (client : Client V n) (cmd : Command V) : Option (Server V n × Reply) :=
  if client.multi && !cmd.notQueued then
    some (s.modify c fun client => { client with commands := client.commands ++ [cmd] }, .queued)
  else call s c client cmd

/-! ### The server as a machine -/

/-- What happens next: a client connects or goes, a client sends a command, or the running `EXEC` goes on. -/
inductive Op (V : Type)
  | connect (c : Nat)
  | disconnect (c : Nat)
  | command (c : Nat) (cmd : Command V)
  | next

/-- The rounds of the loop of `execCommand`, and what follows it. -/
def execNext : Option (Server V n × Reply) :=
  match s.executing with
  | none => none
  | some (c, []) => (discardTransaction { s with executing := none } c).map (·, .ok)
  | some (c, cmd :: cmds) => do
    let client ← s.find c
    call { s with executing := some (c, cmds) } c client cmd

def step (op : Op V) (s : Server V n) : Option (Server V n × Reply) :=
  match op with
  | .next => execNext s
  | .connect c =>
    if s.executing.isSome ∨ (s.find c).isSome then none
    else some ({ s with clients := s.clients ++ [(c, ⟨0, false, false, false, [], []⟩)] }, .ok)
  | .disconnect c =>
    if s.executing.isSome then none
    else (unwatchAllKeys s c).map fun s => ({ s with clients := s.clients.filter fun p => p.1 ≠ c }, .ok)
  | .command c cmd =>
    if s.executing.isSome then none
    else do
      let client ← s.find c
      processCommand s c client cmd

def machine : Machine (Op V) (Server V n) Reply := ⟨.init, step⟩

end Redis.Multi
