import Mathlib.Data.List.AList
import Redis.KeyCommands
import Redis.Keyspace
import Redis.RaxIter

/-! # The keyspace of a cluster node

In cluster mode every key of database 0 is also kept, behind the two bytes of its hash slot, in the radix
tree `slots_to_keys`, and `slots_keys_count` counts the keys of each slot (`db.c`, `lazyfree.c`,
`cluster.c`). The dictionaries are the finite maps that they are proved to be; the counters are not
bounded. `none` is a failed assertion, a fault of the radix tree, a loop that does not end, or an overflow
of an `int`. -/

namespace Redis

/-! ### Hash slots -/

def crc16tab : List UInt16 := [
  0x0000, 0x1021, 0x2042, 0x3063, 0x4084, 0x50a5, 0x60c6, 0x70e7, 0x8108, 0x9129, 0xa14a, 0xb16b,
  0xc18c, 0xd1ad, 0xe1ce, 0xf1ef, 0x1231, 0x0210, 0x3273, 0x2252, 0x52b5, 0x4294, 0x72f7, 0x62d6,
  0x9339, 0x8318, 0xb37b, 0xa35a, 0xd3bd, 0xc39c, 0xf3ff, 0xe3de, 0x2462, 0x3443, 0x0420, 0x1401,
  0x64e6, 0x74c7, 0x44a4, 0x5485, 0xa56a, 0xb54b, 0x8528, 0x9509, 0xe5ee, 0xf5cf, 0xc5ac, 0xd58d,
  0x3653, 0x2672, 0x1611, 0x0630, 0x76d7, 0x66f6, 0x5695, 0x46b4, 0xb75b, 0xa77a, 0x9719, 0x8738,
  0xf7df, 0xe7fe, 0xd79d, 0xc7bc, 0x48c4, 0x58e5, 0x6886, 0x78a7, 0x0840, 0x1861, 0x2802, 0x3823,
  0xc9cc, 0xd9ed, 0xe98e, 0xf9af, 0x8948, 0x9969, 0xa90a, 0xb92b, 0x5af5, 0x4ad4, 0x7ab7, 0x6a96,
  0x1a71, 0x0a50, 0x3a33, 0x2a12, 0xdbfd, 0xcbdc, 0xfbbf, 0xeb9e, 0x9b79, 0x8b58, 0xbb3b, 0xab1a,
  0x6ca6, 0x7c87, 0x4ce4, 0x5cc5, 0x2c22, 0x3c03, 0x0c60, 0x1c41, 0xedae, 0xfd8f, 0xcdec, 0xddcd,
  0xad2a, 0xbd0b, 0x8d68, 0x9d49, 0x7e97, 0x6eb6, 0x5ed5, 0x4ef4, 0x3e13, 0x2e32, 0x1e51, 0x0e70,
  0xff9f, 0xefbe, 0xdfdd, 0xcffc, 0xbf1b, 0xaf3a, 0x9f59, 0x8f78, 0x9188, 0x81a9, 0xb1ca, 0xa1eb,
  0xd10c, 0xc12d, 0xf14e, 0xe16f, 0x1080, 0x00a1, 0x30c2, 0x20e3, 0x5004, 0x4025, 0x7046, 0x6067,
  0x83b9, 0x9398, 0xa3fb, 0xb3da, 0xc33d, 0xd31c, 0xe37f, 0xf35e, 0x02b1, 0x1290, 0x22f3, 0x32d2,
  0x4235, 0x5214, 0x6277, 0x7256, 0xb5ea, 0xa5cb, 0x95a8, 0x8589, 0xf56e, 0xe54f, 0xd52c, 0xc50d,
  0x34e2, 0x24c3, 0x14a0, 0x0481, 0x7466, 0x6447, 0x5424, 0x4405, 0xa7db, 0xb7fa, 0x8799, 0x97b8,
  0xe75f, 0xf77e, 0xc71d, 0xd73c, 0x26d3, 0x36f2, 0x0691, 0x16b0, 0x6657, 0x7676, 0x4615, 0x5634,
  0xd94c, 0xc96d, 0xf90e, 0xe92f, 0x99c8, 0x89e9, 0xb98a, 0xa9ab, 0x5844, 0x4865, 0x7806, 0x6827,
  0x18c0, 0x08e1, 0x3882, 0x28a3, 0xcb7d, 0xdb5c, 0xeb3f, 0xfb1e, 0x8bf9, 0x9bd8, 0xabbb, 0xbb9a,
  0x4a75, 0x5a54, 0x6a37, 0x7a16, 0x0af1, 0x1ad0, 0x2ab3, 0x3a92, 0xfd2e, 0xed0f, 0xdd6c, 0xcd4d,
  0xbdaa, 0xad8b, 0x9de8, 0x8dc9, 0x7c26, 0x6c07, 0x5c64, 0x4c45, 0x3ca2, 0x2c83, 0x1ce0, 0x0cc1,
  0xef1f, 0xff3e, 0xcf5d, 0xdf7c, 0xaf9b, 0xbfba, 0x8fd9, 0x9ff8, 0x6e17, 0x7e36, 0x4e55, 0x5e74,
  0x2e93, 0x3eb2, 0x0ed1, 0x1ef0]

def crc16 (buf : List UInt8) : UInt16 :=
  buf.foldl (fun crc b => (crc <<< 8) ^^^ crc16tab.getD (((crc >>> 8) ^^^ b.toUInt16) &&& 0xff).toNat 0) 0

abbrev HashSlot := Fin 16384

def crcSlot (crc : UInt16) : HashSlot :=
  ⟨(crc &&& 0x3fff).toNat, Nat.lt_succ_of_le (by rw [UInt16.toNat_and]; exact Nat.and_le_right)⟩

/-- The length is an `int`; a negative one stops all loops at once. -/
def keyHashSlot (key : List UInt8) : HashSlot :=
  let key := key.take (Int.bmod key.length (2 ^ 32)).toNat
  let s := key.findIdx (· == 123)
  if s = key.length then crcSlot (crc16 key)
  else
    let tag := (key.drop (s + 1)).takeWhile (· != 125)
    let e := s + 1 + tag.length
    if e = key.length ∨ e = s + 1 then crcSlot (crc16 key) else crcSlot (crc16 tag)

def slotBytes (slot : HashSlot) : List UInt8 :=
  [UInt8.ofNat (slot.val >>> 8 &&& 0xff), UInt8.ofNat (slot.val &&& 0xff)]

def slotKey (key : List UInt8) : List UInt8 := slotBytes (keyHashSlot key) ++ key

/-! ### The database -/

abbrev DbKey := List UInt8

structure ClusterDb (V : Type) where
  dict : AList fun _ : DbKey => V
  expires : AList fun _ : DbKey => Int
  slotsToKeys : Rax Unit
  slotsKeysCount : HashSlot → Nat

/-- What the calls read of the server: the time, `server.loading`, whether `server.masterhost` is set, and
the options that choose between the two ways to delete a key. -/
structure DbEnv where
  now : Int
  loading : Bool
  slave : Bool
  lazyExpire : Bool
  lazyServerDel : Bool

variable {V : Type}

def ClusterDb.empty : ClusterDb V := ⟨∅, ∅, raxNew, fun _ => 0⟩

variable (env : DbEnv) (s : ClusterDb V)

def slotToKeyUpdateKey (key : DbKey) (add : Bool) : Option (ClusterDb V) :=
  let slot := keyHashSlot key
  let n := s.slotsKeysCount slot
  let count := Function.update s.slotsKeysCount slot (if add then n + 1 else n - 1)
  let tree := if add then (raxInsert s.slotsToKeys (slotKey key) none).map (·.1)
    else (raxRemove s.slotsToKeys (slotKey key)).map (·.1)
  tree.map fun r => { s with slotsToKeys := r, slotsKeysCount := count }

def slotToKeyAdd (key : DbKey) : Option (ClusterDb V) := slotToKeyUpdateKey s key true

def slotToKeyDel (key : DbKey) : Option (ClusterDb V) := slotToKeyUpdateKey s key false

/-- `slotToKeyFlushAsync` leaves the old tree to another thread. -/
def slotToKeyFlush : ClusterDb V :=
  { s with slotsToKeys := raxNew, slotsKeysCount := fun _ => 0 }

def dbAdd (key : DbKey) (val : V) : Option (ClusterDb V) :=
  if key ∈ s.dict then none else slotToKeyAdd { s with dict := s.dict.insert key val } key

def dbOverwrite (key : DbKey) (val : V) : Option (ClusterDb V) :=
  if key ∈ s.dict then some { s with dict := s.dict.insert key val } else none

def dbSyncDelete (key : DbKey) : Option (ClusterDb V × Bool) :=
  let s := if s.expires.entries.length > 0 then { s with expires := s.expires.erase key } else s
  if key ∈ s.dict then (slotToKeyDel { s with dict := s.dict.erase key } key).map (·, true) else some (s, false)

/-- A big value is freed by another thread. -/
def dbAsyncDelete (key : DbKey) : Option (ClusterDb V × Bool) := dbSyncDelete s key

def dbDelete (key : DbKey) : Option (ClusterDb V × Bool) :=
  if env.lazyServerDel then dbAsyncDelete s key else dbSyncDelete s key

def emptyDb : ClusterDb V × Nat :=
  (slotToKeyFlush { s with dict := ∅, expires := ∅ }, s.dict.entries.length)

/-! ### Expiry -/

def getExpire (key : DbKey) : Option Int :=
  match s.expires.lookup key with
  | none => some (-1)
  | some when => if key ∈ s.dict then some when else none

def setExpire (key : DbKey) (when : Int) : Option (ClusterDb V) :=
  if key ∈ s.dict then some { s with expires := s.expires.insert key when } else none

def keyIsExpired (key : DbKey) : Option Bool := (getExpire s key).map (Keyspace.isExpired env.loading env.now)

def deleteExpired (key : DbKey) : Option (ClusterDb V × Bool) :=
  if env.lazyExpire then dbAsyncDelete s key else dbSyncDelete s key

/-- Only a master deletes the key. -/
def expireIfNeeded (key : DbKey) : Option (ClusterDb V × Bool) := do
  let expired ← keyIsExpired env s key
  if !expired then some (s, false)
  else if env.slave then some (s, true)
  else deleteExpired env s key

def activeExpireCycleTryExpire (key : DbKey) : Option (ClusterDb V × Bool) :=
  match s.expires.lookup key with
  | none => none
  | some t => if env.now > t then (deleteExpired env s key).map (·.1, true) else some (s, false)

def lookupKeyWrite (key : DbKey) : Option (ClusterDb V × Option V) := do
  let (s, _) ← expireIfNeeded env s key
  some (s, s.dict.lookup key)

/-! ### Commands -/

def ClusterDb.keyOps : KeyOps Option (ClusterDb V) DbKey V where
  lookupKeyWrite := lookupKeyWrite env
  dbAdd := dbAdd
  dbDelete s key := (dbDelete env s key).map (·.1)
  getExpire := getExpire
  setExpire := setExpire
  signalModifiedKey s _ := s

/-- The clock is read once for each of the two keys. -/
def renameGenericCommand (env env' : DbEnv) (s : ClusterDb V) (src dst : DbKey) (nx : Bool) :
    Option (ClusterDb V × KeyReply) :=
  (ClusterDb.keyOps env).renameGenericCommand (ClusterDb.keyOps env') s src dst nx

/-! ### The keys of a slot -/

def intMax : Nat := 2 ^ 31 - 1

/-- The loop of `getKeysInSlot`: the keys it stores from the index `j` on. -/
def getKeysLoop (r : Rax Unit) (indexed : List UInt8) : Nat → RaxIterator Unit → Nat → Option (List DbKey)
  | 0, _, _ => some []
  | count + 1, it, j => do
    let it ← raxIteratorNextStep r it false
    if it.eof || it.key.take 2 != indexed then some []
    else if j = intMax then none
    else do
      let keys ← getKeysLoop r indexed count it (j + 1)
      some (it.key.drop 2 :: keys)

def getKeysInSlot (slot : HashSlot) (count : Nat) : Option (List DbKey) := do
  let it ← raxSeek s.slotsToKeys (raxStart s.slotsToKeys) .ge (slotBytes slot)
  getKeysLoop s.slotsToKeys (slotBytes slot) count it 0

/-- The loop of `delKeysInSlot`, with a bound on its rounds. A key shorter than two bytes is a fault. -/
def delKeysLoop (env : DbEnv) (slot : HashSlot) : Nat → ClusterDb V → RaxIterator Unit → Nat →
    Option (ClusterDb V × Nat)
  | fuel, s, it, j =>
    if s.slotsKeysCount slot = 0 then some (s, j)
    else
      match fuel with
      | 0 => none
      | fuel + 1 => do
        let it ← raxSeek s.slotsToKeys it .ge (slotBytes slot)
        let it ← raxIteratorNextStep s.slotsToKeys it false
        if it.key.length < 2 ∨ j = intMax then none
        else do
          let (s, _) ← dbDelete env s (it.key.drop 2)
          delKeysLoop env slot fuel s it (j + 1)

def delKeysInSlot (slot : HashSlot) : Option (ClusterDb V × Nat) :=
  delKeysLoop env slot (s.slotsKeysCount slot) s (raxStart s.slotsToKeys) 0

/-! ### The keyspace as a machine -/

inductive DbOp (V : Type)
  | add (key : DbKey) (val : V)
  | overwrite (key : DbKey) (val : V)
  | syncDelete (key : DbKey)
  | asyncDelete (key : DbKey)
  | setExpire (key : DbKey) (when : Int)
  | rename (env env' : DbEnv) (src dst : DbKey) (nx : Bool)
  | expireIfNeeded (env : DbEnv) (key : DbKey)
  | tryExpire (env : DbEnv) (key : DbKey)
  | emptyDb
  | delKeysInSlot (env : DbEnv) (slot : HashSlot)

inductive DbReply
  | done
  | deleted (b : Bool)
  | renamed (r : KeyReply)
  | removed (n : Nat)
  deriving DecidableEq

def dbStep : DbOp V → ClusterDb V → Option (ClusterDb V × DbReply)
  | .add key val, s => (dbAdd s key val).map (·, .done)
  | .overwrite key val, s => (dbOverwrite s key val).map (·, .done)
  | .syncDelete key, s => (dbSyncDelete s key).map fun r => (r.1, .deleted r.2)
  | .asyncDelete key, s => (dbAsyncDelete s key).map fun r => (r.1, .deleted r.2)
  | .setExpire key when, s => (setExpire s key when).map (·, .done)
  | .rename env env' src dst nx, s => (renameGenericCommand env env' s src dst nx).map fun r => (r.1, .renamed r.2)
  | .expireIfNeeded env key, s => (expireIfNeeded env s key).map fun r => (r.1, .deleted r.2)
  | .tryExpire env key, s => (activeExpireCycleTryExpire env s key).map fun r => (r.1, .deleted r.2)
  | .emptyDb, s => some ((emptyDb s).1, .removed (emptyDb s).2)
  | .delKeysInSlot env slot, s => (delKeysInSlot env s slot).map fun r => (r.1, .removed r.2)

def dbMachine : Machine (DbOp V) (ClusterDb V) DbReply := ⟨.empty, dbStep⟩

end Redis
