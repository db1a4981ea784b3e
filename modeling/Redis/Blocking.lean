import Mathlib.Data.List.AList
import Mathlib.Data.List.Sort
import Redis.KeyCommands
import Redis.Keyspace

/-! # Clients blocked in list pops

`blocked.c` and the commands that block a client or make a key hold a list. A key here is a database and a
name. `db->ready_keys` marks the keys that are in `server.ready_keys`. Each `lookupKeyWrite` reads the clock,
and deletes a key that has expired. The clients of this model are blocked by BLPOP, BRPOP or BRPOPLPUSH. -/

namespace Redis.Blocking

abbrev Elem := List UInt8

abbrev Key := Nat × Nat

inductive Kind
  | zset (card : Nat)
  | stream
  | other
deriving DecidableEq

inductive Value
  | list (xs : List Elem)
  | plain (kind : Kind)
deriving DecidableEq

structure Client where
  db : Nat
  blocked : Bool
  /-- `bpop.keys` and `bpop.target`, names in the database of the client. -/
  keys : List Nat
  target : Option Nat
  head : Bool

inductive Outcome
  | delivered
  | pushed (dst : Key)
  | putBack
deriving DecidableEq

/-- What happened to the lists: a key has expired, with what it held, or a client was served. -/
inductive Event
  | expired (k : Key) (xs : List Elem)
  | served (k : Key) (c : Nat) (value : Elem) (head : Bool) (outcome : Outcome)
deriving DecidableEq

structure Server where
  dict : Key → Option Value
  expires : Key → Option Int
  blockingKeys : AList fun _ : Key => List Nat
  ready : Key → Bool
  readyKeys : List Key
  clients : Nat → Client
  blockedClients : Nat
  ticks : Nat
  log : List Event

/-- Why the server stops: memory used after it was freed, an assertion, or a loop that goes on. -/
inductive Fault
  | freed
  | asserted
  | fuel
deriving DecidableEq

/-! ### The keyspace -/

def Value.elems : Option Value → List Elem
  | some (.list xs) => xs
  | _ => []

def Server.contents (s : Server) (k : Key) : List Elem := Value.elems (s.dict k)

/-- The clients blocked on a key, first the one that blocked first. -/
def Server.clientsOn (s : Server) (k : Key) : List Nat := (s.blockingKeys.lookup k).getD []

def Server.setValue (s : Server) (k : Key) (v : Value) : Server :=
  { s with dict := Function.update s.dict k (some v) }

def Server.setExpire (s : Server) (k : Key) (e : Option Int) : Server :=
  { s with expires := Function.update s.expires k e }

def dbDelete (k : Key) (s : Server) : Server :=
  { s with dict := Function.update s.dict k none, expires := Function.update s.expires k none }

def signalKeyAsReady (k : Key) (s : Server) : Server :=
  if s.blockingKeys.lookup k = none ∨ s.ready k = true then s
  else { s with readyKeys := s.readyKeys ++ [k], ready := Function.update s.ready k true }

/-- The types for which `dbAdd` signals a key. -/
def Value.signals : Value → Bool
  | .list _ | .plain (.zset _) => true
  | .plain .stream | .plain .other => false

def dbAdd (k : Key) (v : Value) (s : Server) : Except Fault Server :=
  if s.dict k = none then .ok (if v.signals then signalKeyAsReady k (s.setValue k v) else s.setValue k v)
  else .error .asserted

variable (clock : Nat → Int)

def Server.keyIsExpired (s : Server) (k : Key) : Bool :=
  match s.expires k with
  | some e => Keyspace.isExpired false (clock s.ticks) e
  | none => false

def Server.tick (s : Server) : Server := { s with ticks := s.ticks + 1 }

def Server.record (s : Server) (ev : Event) : Server := { s with log := s.log ++ [ev] }

def lookupKeyWrite (k : Key) (s : Server) : Server × Option Value :=
  if s.keyIsExpired clock k then ((dbDelete k s.tick).record (.expired k (s.contents k)), none)
  else (s.tick, s.dict k)

/-- That a key with an expire exists, which the source asserts, is proved for `Keyspace`. -/
def keyOps : SetOps (Except Fault) Server Key Value where
  lookupKeyWrite s k := .ok (lookupKeyWrite clock k s)
  dbAdd s k v := dbAdd k v s
  dbDelete s k := .ok (dbDelete k s)
  getExpire s k := .ok ((s.expires k).getD (-1))
  setExpire s k when := .ok (s.setExpire k (some when))
  signalModifiedKey s _ := s
  dbOverwrite s k v := .ok (s.setValue k v)
  removeExpire s k := .ok (s.setExpire k none)

def setKey (k : Key) (v : Value) (s : Server) : Except Fault Server := (keyOps clock).setKey s k v

/-! ### Blocking and unblocking -/

def listTypePush (head : Bool) (v : Elem) (xs : List Elem) : List Elem := if head then v :: xs else xs ++ [v]

def listTypePop (head : Bool) (xs : List Elem) : Option (Elem × List Elem) :=
  if head then
    match xs with
    | [] => none
    | x :: xs => some (x, xs)
  else xs.getLast?.map fun x => (x, xs.dropLast)

/-- One key of `blockForKeys`: nothing is done when the client already waits for it. -/
def blockForKey (c : Nat) (s : Server) (name : Nat) : Server :=
  let cl := s.clients c
  if cl.keys.contains name then s
  else { s with
    clients := Function.update s.clients c { cl with keys := cl.keys ++ [name] }
    blockingKeys := s.blockingKeys.insert (cl.db, name) (s.clientsOn (cl.db, name) ++ [c]) }

def blockForKeys (c : Nat) (names : List Nat) (target : Option Nat) (head : Bool) (s : Server) : Server :=
  let s := names.foldl (blockForKey c)
    { s with clients := Function.update s.clients c { s.clients c with target := target, head := head } }
  { s with
    clients := Function.update s.clients c { s.clients c with blocked := true }
    blockedClients := s.blockedClients + 1 }

def removeWaiter (c : Nat) (s : Server) (k : Key) : Except Fault Server :=
  match s.blockingKeys.lookup k with
  | none => .error .asserted
  | some l =>
    let l' := l.erase c
    if l.contains c then
      .ok { s with blockingKeys := if l' = [] then s.blockingKeys.erase k else s.blockingKeys.insert k l' }
    else .error .freed

def unblockClient (c : Nat) (s : Server) : Except Fault Server := do
  let cl := s.clients c
  if cl.keys = [] then .error .asserted
  else
    let s ← cl.keys.foldlM (fun s name => removeWaiter c s (cl.db, name)) s
    .ok { s with
      clients := Function.update s.clients c { cl with blocked := false, keys := [], target := none }
      blockedClients := s.blockedClients - 1 }

/-! ### Serving blocked clients -/

/-- The push of RPOPLPUSH: the list at the key, if there is one, gets the element at its head. -/
def rpoplpushHandlePush (dst : Key) (v : Elem) (s : Server) : Except Fault Server :=
  match s.dict dst with
  | none => (dbAdd dst (.list []) s).map fun s => s.setValue dst (.list [v])
  | some (.list ys) => .ok (s.setValue dst (.list (v :: ys)))
  | some (.plain _) => .error .asserted

/-- `serveClientBlockedOnList`, and the push that undoes the pop when the target has the wrong type. The list
`o` at `k` is used again after the target was looked up. -/
def serveClientBlockedOnList (k : Key) (c : Nat) (target : Option Nat) (v : Elem) (head : Bool) (s : Server) :
    Except Fault Server :=
  match target with
  | none => .ok (s.record (.served k c v head .delivered))
  | some name =>
    let dst := ((s.clients c).db, name)
    let r := lookupKeyWrite clock dst s
    match r.1.dict k with
    | some (.list xs) =>
      match r.2 with
      | some (.plain _) =>
        .ok ((r.1.setValue k (.list (listTypePush head v xs))).record (.served k c v head .putBack))
      | _ => (rpoplpushHandlePush dst v r.1).map fun s => s.record (.served k c v head (.pushed dst))
    | _ => .error .freed

def serveClients (k : Key) : Nat → Server → Except Fault Server
  | 0, s => .ok s
  | n + 1, s =>
    match s.clientsOn k, s.dict k with
    | c :: _, some (.list xs) =>
      match listTypePop (s.clients c).head xs with
      | none => .ok s
      | some (v, rest) => do
        let cl := s.clients c
        let s ← unblockClient c (s.setValue k (.list rest))
        let s ← serveClientBlockedOnList clock k c cl.target v cl.head s
        serveClients k n s
    | _, _ => .error .freed

def moveToTail : Nat → List Nat → List Nat
  | n + 1, c :: l => moveToTail n (l ++ [c])
  | _, l => l

/-- One ready key. Clients blocked in list pops are served only when it holds a list. -/
def serveKey (k : Key) (s : Server) : Except Fault Server :=
  let r := lookupKeyWrite clock k { s with ready := Function.update s.ready k false }
  let s := r.1
  match r.2 with
  | some (.list _) => do
    let s ← serveClients clock k (s.clientsOn k).length s
    match s.dict k with
    | some (.list []) => .ok (dbDelete k s)
    | some (.list _) => .ok s
    | _ => .error .freed
  | some (.plain (.zset card)) =>
    if card = 0 ∨ s.blockingKeys.lookup k = none then .ok s
    else
      let l := s.clientsOn k
      .ok { s with blockingKeys := s.blockingKeys.insert k (moveToTail l.length l) }
  | _ => .ok s

def serveKeys (ks : List Key) (s : Server) : Except Fault Server := ks.foldlM (fun s k => serveKey clock k s) s

def handleClientsBlockedOnKeys : Nat → Server → Except Fault Server
  | 0, _ => .error .fuel
  | n + 1, s =>
    if s.readyKeys = [] then .ok s
    else do
      let s ← serveKeys clock s.readyKeys { s with readyKeys := [] }
      handleClientsBlockedOnKeys n s

/-! ### Commands -/

def pushGenericCommand (k : Key) (vs : List Elem) (head : Bool) (s : Server) : Except Fault Server :=
  let r := lookupKeyWrite clock k s
  match r.2 with
  | some (.plain _) => .ok r.1
  | some (.list xs) => .ok (r.1.setValue k (.list (vs.foldl (fun xs v => listTypePush head v xs) xs)))
  | none =>
    if vs = [] then .ok r.1
    else (dbAdd k (.list []) r.1).map fun s =>
      s.setValue k (.list (vs.foldl (fun xs v => listTypePush head v xs) []))

/-- Pops an element of the list `xs` at `k`, and deletes the key with its last element. -/
def popFrom (k : Key) (head : Bool) (xs : List Elem) (s : Server) : Server :=
  match listTypePop head xs with
  | none => s
  | some (_, rest) => if rest = [] then dbDelete k s else s.setValue k (.list rest)

def popGenericCommand (k : Key) (head : Bool) (s : Server) : Server :=
  let r := lookupKeyWrite clock k s
  match r.2 with
  | some (.list xs) => popFrom k head xs r.1
  | _ => r.1

/-- The part of RPOPLPUSH after the lookups: the source loses its last element, and is deleted when it is left
empty. -/
def moveTail (src dst : Key) (xs : List Elem) (s : Server) : Except Fault Server :=
  match listTypePop false xs with
  | none => .ok s
  | some (v, rest) => do
    let s ← rpoplpushHandlePush dst v (s.setValue src (.list rest))
    .ok (if s.dict src = some (.list []) then dbDelete src s else s)

def rpoplpushCommand (src dst : Key) (s : Server) : Except Fault Server :=
  let r := lookupKeyWrite clock src s
  match r.2 with
  | some (.list _) =>
    let r := lookupKeyWrite clock dst r.1
    match r.1.dict src, r.2 with
    | some (.list _), some (.plain _) => .ok r.1
    | some (.list xs), _ => moveTail src dst xs r.1
    | _, _ => .error .freed
  | _ => .ok r.1

def renameGenericCommand (src dst : Key) (nx : Bool) (s : Server) : Except Fault Server :=
  ((keyOps clock).renameGenericCommand (keyOps clock).toKeyOps s src dst nx).map Prod.fst

def moveCommand (src : Key) (db : Nat) (s : Server) : Except Fault Server :=
  let dst : Key := (db, src.2)
  if src = dst then .ok s else ((keyOps clock).moveCommand (keyOps clock).toKeyOps s src dst).map Prod.fst

/-- With the deadline in milliseconds. The clock is read again for it. -/
def expireGenericCommand (k : Key) (when : Int) (s : Server) : Server :=
  let r := lookupKeyWrite clock k s
  if r.2 = none then r.1
  else if when ≤ clock r.1.ticks then dbDelete k r.1.tick
  else r.1.tick.setExpire k (some when)

def Value.scanned : Option Value → Bool
  | some (.list _) | some (.plain .stream) | some (.plain (.zset _)) => true
  | some (.plain .other) | none => false

/-- The keys of a dict are visited in some order: here by `rank`. -/
def scanDatabaseForReadyLists (rank : Nat → Nat) (db : Nat) (s : Server) : Server :=
  let keys := (s.blockingKeys.keys.filter fun k => decide (k.1 = db)).insertionSort
    fun k k' => rank k.2 ≤ rank k'.2
  keys.foldl (fun s k => if Value.scanned (s.dict k) then signalKeyAsReady k s else s) s

def swapKey (id1 id2 : Nat) (k : Key) : Key :=
  (if k.1 = id1 then id2 else if k.1 = id2 then id1 else k.1, k.2)

def dbSwapDatabases (id1 id2 : Nat) (rank : Nat → Nat) (s : Server) : Server :=
  if id1 = id2 then s
  else scanDatabaseForReadyLists rank id2 (scanDatabaseForReadyLists rank id1
    { s with dict := fun k => s.dict (swapKey id1 id2 k), expires := fun k => s.expires (swapKey id1 id2 k) })

def sortStore (k : Key) (vs : List Elem) (s : Server) : Except Fault Server :=
  if vs = [] then .ok (dbDelete k s) else setKey clock k (.list vs) s

def blockingPopLoop (c : Nat) (head multi : Bool) (all : List Nat) : List Nat → Server → Server
  | [], s => if multi then s else blockForKeys c all none head s
  | name :: names, s =>
    let k : Key := ((s.clients c).db, name)
    let r := lookupKeyWrite clock k s
    match r.2 with
    | some (.plain _) => r.1
    | some (.list (x :: xs)) => popFrom k head (x :: xs) r.1
    | some (.list []) | none => blockingPopLoop c head multi all names r.1

def brpoplpushCommand (c src dst : Nat) (multi : Bool) (s : Server) : Except Fault Server :=
  let db := (s.clients c).db
  let r := lookupKeyWrite clock (db, src) s
  match r.2 with
  | none => .ok (if multi then r.1 else blockForKeys c [src] (some dst) false r.1)
  | some (.plain _) => .ok r.1
  | some (.list []) => .error .asserted
  | some (.list _) => rpoplpushCommand clock (db, src) (db, dst) r.1

inductive Cmd
  | push (k : Key) (vs : List Elem) (head : Bool)
  | pop (k : Key) (head : Bool)
  | rpoplpush (src dst : Key)
  | rename (db src dst : Nat) (nx : Bool)
  | move (src : Key) (db : Nat)
  | expire (k : Key) (when : Int)
  | swapdb (id1 id2 : Nat) (rank : Nat → Nat)
  | sortStore (k : Key) (vs : List Elem)
  /-- A command that stores a value of another type. -/
  | set (k : Key) (kind : Kind)
  | del (k : Key)
  | select (c db : Nat)
  | blockingPop (c : Nat) (names : List Nat) (head : Bool)
  | brpoplpush (c src dst : Nat)
  /-- A blocked client times out or goes away. -/
  | unblock (c : Nat)

/-- One command. A blocked client does not run commands. -/
def Cmd.run (multi : Bool) (s : Server) : Cmd → Except Fault Server
  | .push k vs head => pushGenericCommand clock k vs head s
  | .pop k head => .ok (popGenericCommand clock k head s)
  | .rpoplpush src dst => rpoplpushCommand clock src dst s
  | .rename db src dst nx => renameGenericCommand clock (db, src) (db, dst) nx s
  | .move src db => moveCommand clock src db s
  | .expire k when => .ok (expireGenericCommand clock k when s)
  | .swapdb id1 id2 rank => .ok (dbSwapDatabases id1 id2 rank s)
  | .sortStore k vs => Blocking.sortStore clock k vs s
  | .set k kind => setKey clock k (.plain kind) s
  | .del k => .ok (dbDelete k s)
  | .select c db =>
    .ok (if (s.clients c).blocked then s
      else { s with clients := Function.update s.clients c { s.clients c with db := db } })
  | .blockingPop c names head =>
    .ok (if (s.clients c).blocked ∨ names = [] then s else blockingPopLoop clock c head multi names names s)
  | .brpoplpush c src dst => if (s.clients c).blocked then .ok s else brpoplpushCommand clock c src dst multi s
  | .unblock c => if (s.clients c).blocked then unblockClient c s else .ok s

inductive Op
  | command (cmd : Cmd)
  | exec (cmds : List Cmd)

def Op.run (s : Server) : Op → Except Fault Server
  | .command cmd => cmd.run clock false s
  | .exec cmds => cmds.foldlM (fun s cmd => cmd.run clock true s) s

def step (op : Op) (s : Server) : Except Fault Server := do
  let s ← op.run clock s
  handleClientsBlockedOnKeys clock (s.blockedClients + 2) s

def Server.init : Server :=
  ⟨fun _ => none, fun _ => none, ∅, fun _ => false, [], fun _ => ⟨0, false, [], none, false⟩, 0, 0, []⟩

def machine : Machine Op Server Unit := ⟨.init, fun op s => (step clock op s).toOption.map fun s => (s, ())⟩

end Redis.Blocking
