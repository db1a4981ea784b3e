import Mathlib.Data.List.AList
import Mathlib.Data.List.Sort
import Redis.Lib.Heap
import Redis.StreamIds

/-! # Consumer groups of a stream

The consumer-group half of `t_stream.c`. A group indexes the records of its pending entries
(`streamNACK`) in its own radix tree and in the tree of the consumer that owns each of them. Records
and consumers live on heaps and the trees hold their addresses, so that the sharing of a record, the
back pointer to its consumer and a use after free are all visible. A radix tree is taken as the finite
map it refines (`rax_refines_map`); its iterator walks the keys in order. -/

namespace Redis

/-- How a command can bring the server down: in the functions on the entries of the stream, by the
panic `NACK half-created`, or by a pointer that is null, not found or freed. -/
inductive Crash
  | entries
  | halfCreated
  | pointer
deriving DecidableEq, Repr

def deref {α : Type} : Option α → Except Crash α
  | none => .error .pointer
  | some v => .ok v

def ofEntries {α : Type} : Option α → Except Crash α
  | none => .error .entries
  | some v => .ok v

/-- A tree of pending entries, with the addresses of the records. -/
abbrev Pel := AList fun _ : StreamID => Nat

/-- The entries of a tree in the order of its iterator. -/
def Pel.walk (pel : Pel) : List (StreamID × Nat) :=
  (pel.entries.map fun e => (e.1, e.2)).insertionSort fun a b => a.1 ≤ b.1

structure StreamNACK where
  deliveryTime : Int
  deliveryCount : UInt64
  consumer : Option Nat

structure StreamConsumer where
  seenTime : Int
  name : List UInt8
  pel : Pel

/-- `struct streamCG`, with the records and the consumers that it owns. -/
structure StreamCG where
  lastId : StreamID
  pel : Pel
  consumers : AList fun _ : List UInt8 => Nat
  nackHeap : Heap StreamNACK
  consumerHeap : Heap StreamConsumer

structure GroupedStream where
  stream : Stream
  cgroups : AList fun _ : List UInt8 => StreamCG

/-- A command as it goes to the replicas and the append only file. -/
inductive Propagated
  | xclaim (consumer : List UInt8) (id : StreamID) (time : Int) (retrycount : UInt64) (lastId : StreamID)
  | setid (lastId : StreamID)
deriving DecidableEq

/-! ### Groups and consumers -/

variable (cg : StreamCG)

namespace StreamCG

/-- `raxTryInsert` or `raxInsert` of a record in the tree of a consumer. -/
def putPel (b : Nat) (id : StreamID) (n : Nat) : Except Crash StreamCG := do
  let heap ← deref (cg.consumerHeap.modify b fun c => { c with pel := c.pel.insert id n })
  .ok { cg with consumerHeap := heap }

def delPel (b : Nat) (id : StreamID) : Except Crash StreamCG := do
  let heap ← deref (cg.consumerHeap.modify b fun c => { c with pel := c.pel.erase id })
  .ok { cg with consumerHeap := heap }

/-- `raxRemove` from the tree of the consumer of a record, if it has one. -/
def leaveConsumer (id : StreamID) : Option Nat → Except Crash StreamCG
  | some owner => cg.delPel owner id
  | none => .ok cg

def setNACK (n : Nat) (f : StreamNACK → StreamNACK) : Except Crash StreamCG := do
  let heap ← deref (cg.nackHeap.modify n f)
  .ok { cg with nackHeap := heap }

def createNACK (consumer : Option Nat) (now : Int) : StreamCG × Nat :=
  let r := cg.nackHeap.alloc ⟨now, 1, consumer⟩
  ({ cg with nackHeap := r.1 }, r.2)

def freeNACK (n : Nat) : Except Crash StreamCG := do
  let heap ← deref (cg.nackHeap.free n)
  .ok { cg with nackHeap := heap }

end StreamCG

def streamCreateCG (id : StreamID) : StreamCG := ⟨id, ∅, ∅, .empty, .empty⟩

def streamLookupConsumer (name : List UInt8) (create : Bool) (now : Int) : Except Crash (StreamCG × Option Nat) :=
  match cg.consumers.lookup name with
  | none =>
    if !create then .ok (cg, none)
    else
      let r := cg.consumerHeap.alloc ⟨now, name, ∅⟩
      .ok ({ cg with consumerHeap := r.1, consumers := cg.consumers.insert name r.2 }, some r.2)
  | some b => do
    let heap ← deref (cg.consumerHeap.modify b fun c => { c with seenTime := now })
    .ok ({ cg with consumerHeap := heap }, some b)

def streamDelPending : List (StreamID × Nat) → StreamCG → Except Crash StreamCG
  | [], cg => .ok cg
  | (id, n) :: l, cg => do
    let cg ← StreamCG.freeNACK { cg with pel := cg.pel.erase id } n
    streamDelPending l cg

/-- The number of entries the consumer had. -/
def streamDelConsumer (name : List UInt8) (now : Int) : Except Crash (StreamCG × Nat) := do
  let (cg, consumer) ← streamLookupConsumer cg name false now
  match consumer with
  | none => .ok (cg, 0)
  | some b => do
    let c ← deref (cg.consumerHeap.cell b)
    let cg ← streamDelPending c.pel.walk cg
    let heap ← deref (cg.consumerHeap.free b)
    .ok ({ cg with consumers := cg.consumers.erase name, consumerHeap := heap }, c.pel.keys.length)

/-! ### Delivery -/

/-- The part of `streamReplyWithRange` that gives the entry to the consumer: a new record is tried
first, and if there is one already it changes hands. -/
def streamDeliver (b : Nat) (id : StreamID) (now : Int) : Except Crash (StreamCG × Nat) := do
  let (cg, n) := cg.createNACK (some b) now
  let groupInserted := (cg.pel.lookup id).isNone
  let cg := if groupInserted then { cg with pel := cg.pel.insert id n } else cg
  let consumer ← deref (cg.consumerHeap.cell b)
  let consumerInserted := (consumer.pel.lookup id).isNone
  let cg ← (if consumerInserted then cg.putPel b id n else .ok cg)
  if !groupInserted then do
    let cg ← cg.freeNACK n
    let n ← deref (cg.pel.lookup id)
    let nack ← deref (cg.nackHeap.cell n)
    let owner ← deref nack.consumer
    let cg ← cg.delPel owner id
    let cg ← cg.setNACK n fun _ => ⟨now, 1, some b⟩
    let cg ← cg.putPel b id n
    .ok (cg, n)
  else if !consumerInserted then .error .halfCreated
  else .ok (cg, n)

def streamPropagateXCLAIM (id : StreamID) (n : Nat) : Except Crash Propagated := do
  let nack ← deref (cg.nackHeap.cell n)
  let b ← deref nack.consumer
  let consumer ← deref (cg.consumerHeap.cell b)
  .ok (.xclaim consumer.name id nack.deliveryTime nack.deliveryCount cg.lastId)

/-- The group while entries are read on behalf of one of its consumers. -/
structure GroupRead where
  cg : StreamCG
  propagateLastId : Bool
  propagated : List Propagated

/-- What `streamReplyWithRange` does to the group for one entry. -/
def groupEntry (noack : Bool) (b : Nat) (now : Int) (id : StreamID) (g : GroupRead) : Except Crash GroupRead := do
  let g := if streamCompareID id g.cg.lastId > 0 then
    { g with cg := { g.cg with lastId := id }, propagateLastId := true } else g
  if !noack then do
    let (cg, n) ← streamDeliver g.cg b id now
    let p ← streamPropagateXCLAIM cg id n
    .ok { g with cg := cg, propagated := g.propagated ++ [p] }
  else if g.propagateLastId then .ok { g with propagated := g.propagated ++ [.setid g.cg.lastId] }
  else .ok g

/-- The fields and values of the entry under the iterator. -/
def streamEmitFields : Nat → StreamIterator → Option (StreamIterator × List (List UInt8 × List UInt8))
  | 0, si => some (si, [])
  | n + 1, si => do
    let (si, field, value) ← streamIteratorGetField si
    let (si, l) ← streamEmitFields n si
    some (si, (field, value) :: l)

abbrev Emitted := StreamID × List (List UInt8 × List UInt8)

/-- The loop of `streamReplyWithRange`, with what it does for each entry; `count` is zero for no limit. -/
def streamRangeLoop {σ : Type} (f : StreamID → σ → Except Crash σ) (count : Nat) :
    Nat → StreamIterator → σ → List Emitted → Except Crash (σ × List Emitted)
  | 0, _, _, _ => .error .entries
  | fuel + 1, si, st, out => do
    let (si, r) ← ofEntries (streamIteratorGetID (si.ri.length + 2) si)
    match r with
    | none => .ok (st, out)
    | some (id, numfields) => do
      let (si, fields) ← ofEntries (streamEmitFields numfields.toNat si)
      let st ← f id st
      let out := out ++ [(id, fields)]
      if count ≠ 0 ∧ out.length = count then .ok (st, out) else streamRangeLoop f count fuel si st out

variable (s : Stream)

def streamEntryBound : Nat := (s.rax.map fun n => n.2.length).sum

/-- Without `STREAM_RWR_HISTORY`. -/
def streamReplyWithRange {σ : Type} (f : StreamID → σ → Except Crash σ) (s : Stream) (start end_ : Option StreamID)
    (count : Nat) (rev : Bool) (st : σ) : Except Crash (σ × List Emitted) :=
  streamRangeLoop f count (streamEntryBound s + 1) (streamIteratorStart s start end_ rev) st []

/-- The entry with an ID, as the calls without a group look it up. -/
def streamEmitEntry (id : StreamID) : Except Crash (Option Emitted) := do
  let (_, out) ← streamReplyWithRange (fun _ u => .ok u) s (some id) (some id) 1 false ()
  .ok out.head?

inductive StreamItem
  | id (id : StreamID)
  | entry (e : Emitted)
  | deleted (id : StreamID)
  | nullBulk
deriving DecidableEq

/-- The loop of `streamReplyWithRangeFromConsumerPEL`, over the entries that the iterator meets. -/
def streamHistoryLoop (s : Stream) (now : Int) :
    List (StreamID × Nat) → StreamCG → List StreamItem → Except Crash (StreamCG × List StreamItem)
  | [], cg, out => .ok (cg, out)
  | (id, n) :: l, cg, out => do
    let e ← streamEmitEntry s id
    match e with
    | none => streamHistoryLoop s now l cg (out ++ [.deleted id])
    | some e => do
      let cg ← cg.setNACK n fun nack => { nack with deliveryTime := now, deliveryCount := nack.deliveryCount + 1 }
      streamHistoryLoop s now l cg (out ++ [.entry e])

def streamReplyWithRangeFromConsumerPEL (cg : StreamCG) (b : Nat) (start : StreamID) (count : Nat)
    (now : Int) : Except Crash (StreamCG × List StreamItem) := do
  let consumer ← deref (cg.consumerHeap.cell b)
  let from_ := consumer.pel.walk.filter fun e => decide (start ≤ e.1)
  streamHistoryLoop s now (if count = 0 then from_ else from_.take count) cg []

/-! ### Commands -/

/-- The options of `XCLAIM`; `-1` stands for a number that is not given. -/
structure ClaimOptions where
  force : Bool := false
  justid : Bool := false
  deliverytime : Int := -1
  retrycount : Int := -1
  lastId : StreamID := .zero

/-- The commands on one stream, with their arguments parsed and the clock as they read it. The ID of
`XGROUP CREATE` and `SETID` is none for `$`, an ID of `XACK` is none if it is malformed, and `XREADGROUP`
takes the greatest ID for `>`. -/
inductive GroupCmd
  | entries (cmd : StreamCmd)
  | create (group : List UInt8) (id : Option StreamID)
  | setid (group : List UInt8) (id : Option StreamID)
  | destroy (group : List UInt8)
  | delconsumer (group consumer : List UInt8) (now : Int)
  | xreadgroup (group consumer : List UInt8) (count : Nat) (noack : Bool) (id : StreamID) (now : Int)
  | xack (group : List UInt8) (ids : List (Option StreamID))
  | xclaim (group consumer : List UInt8) (minidle : Int) (ids : List StreamID) (opts : ClaimOptions) (now : Int)

inductive GroupReply
  | entries (r : StreamReply)
  | ok
  | number (n : Nat)
  | items (l : List StreamItem)
  | null
  | error (msg : String)
deriving DecidableEq

/-- The error for a group that does not exist, in `XGROUP`, in `XREADGROUP` and in `XCLAIM`. -/
def noGroupXGROUP : GroupReply := .error "-NOGROUP No such consumer group '%s' for key name '%s'"
def noGroupXREADGROUP : GroupReply :=
  .error "-NOGROUP No such key '%s' or consumer group '%s' in XREADGROUP with GROUP option"
def noGroupXCLAIM : GroupReply := .error "-NOGROUP No such key '%s' or consumer group '%s'"

/-- The loop of `xackCommand`; the number of IDs acknowledged, unless one is malformed. -/
def xackLoop : List (Option StreamID) → StreamCG → Nat → Except Crash (StreamCG × GroupReply)
  | [], cg, acknowledged => .ok (cg, .number acknowledged)
  | none :: _, cg, _ => .ok (cg, .error "Invalid stream ID specified as stream command argument")
  | some id :: ids, cg, acknowledged =>
    match cg.pel.lookup id with
    | none => xackLoop ids cg acknowledged
    | some n => do
      let cg := { cg with pel := cg.pel.erase id }
      let nack ← deref (cg.nackHeap.cell n)
      let owner ← deref nack.consumer
      let cg ← cg.delPel owner id
      let cg ← cg.freeNACK n
      xackLoop ids cg (acknowledged + 1)

/-- The record of an entry to be claimed, which `FORCE` creates for an entry that exists. -/
def xclaimFind (cg : StreamCG) (force : Bool) (id : StreamID) (now : Int) :
    Except Crash (StreamCG × Option Nat) :=
  match cg.pel.lookup id with
  | some n => .ok (cg, some n)
  | none =>
    if !force then .ok (cg, none)
    else do
      let (_, found) ← ofEntries
        (streamIteratorGetID (s.rax.length + 1) (streamIteratorStart s (some id) (some id) false))
      if found.isNone then .ok (cg, none)
      else
        let (cg, n) := cg.createNACK none now
        .ok ({ cg with pel := cg.pel.insert id n }, some n)

/-- `delivery_count` after a claim. -/
def claimedCount (opts : ClaimOptions) (count : UInt64) : UInt64 :=
  if opts.retrycount ≥ 0 then UInt64.ofNat opts.retrycount.toNat
  else if !opts.justid then count + 1
  else count

def xclaimTake (b n : Nat) (id : StreamID) (opts : ClaimOptions) (deliverytime : Int) : Except Crash StreamCG := do
  let nack ← deref (cg.nackHeap.cell n)
  let cg ← cg.leaveConsumer id nack.consumer
  let cg ← cg.setNACK n fun nack => ⟨deliverytime, claimedCount opts nack.deliveryCount, some b⟩
  cg.putPel b id n

def claimReply (id : StreamID) (justid : Bool) : Except Crash StreamItem :=
  if justid then .ok (.id id)
  else do
    let e ← streamEmitEntry s id
    .ok ((e.map StreamItem.entry).getD .nullBulk)

def xclaimLoop (s : Stream) (b : Nat) (minidle : Int) (opts : ClaimOptions) (deliverytime now : Int) :
    List StreamID → GroupRead → List StreamItem → Except Crash (GroupRead × List StreamItem)
  | [], g, out => .ok (g, out)
  | id :: ids, g, out => do
    let (cg, nack) ← xclaimFind s g.cg opts.force id now
    match nack with
    | none => xclaimLoop s b minidle opts deliverytime now ids { g with cg := cg } out
    | some n => do
      let nack ← deref (cg.nackHeap.cell n)
      -- a record that FORCE created has no consumer: its idle time does not count
      if nack.consumer.isSome && decide (minidle ≠ 0) && decide (now - nack.deliveryTime < minidle) then
        xclaimLoop s b minidle opts deliverytime now ids { g with cg := cg } out
      else do
        let cg ← xclaimTake cg b n id opts deliverytime
        let item ← claimReply s id opts.justid
        let p ← streamPropagateXCLAIM cg id n
        xclaimLoop s b minidle opts deliverytime now ids ⟨cg, false, g.propagated ++ [p]⟩ (out ++ [item])

/-- For a group that exists. -/
def xclaimCommand (cg : StreamCG) (consumer : List UInt8) (minidle : Int) (ids : List StreamID)
    (opts : ClaimOptions) (now : Int) : Except Crash (StreamCG × GroupReply × List Propagated) := do
  let minidle := if minidle < 0 then 0 else minidle
  let newer := decide (streamCompareID opts.lastId cg.lastId > 0)
  let cg := if newer then { cg with lastId := opts.lastId } else cg
  let deliverytime := if opts.deliverytime < 0 ∨ opts.deliverytime > now then now else opts.deliverytime
  let (cg, b) ← streamLookupConsumer cg consumer true now
  let b ← deref b
  let (g, out) ← xclaimLoop s b minidle opts deliverytime now ids ⟨cg, newer, []⟩ []
  let propagated := if g.propagateLastId then g.propagated ++ [.setid g.cg.lastId] else g.propagated
  .ok (g.cg, .items out, propagated)

/-- The part of `xreadCommand` that serves a group which exists. -/
def xreadgroupCommand (cg : StreamCG) (consumer : List UInt8) (count : Nat) (noack : Bool)
    (id : StreamID) (now : Int) : Except Crash (StreamCG × GroupReply × List Propagated) := do
  if id ≠ .max then do
    let (cg, b) ← streamLookupConsumer cg consumer true now
    let b ← deref b
    let (cg, out) ← streamReplyWithRangeFromConsumerPEL s cg b { id with seq := id.seq + 1 } count now
    .ok (cg, .items out, [])
  else if s.length ≠ 0 ∧ streamCompareID s.lastId cg.lastId > 0 then do
    let start := { cg.lastId with seq := cg.lastId.seq + 1 }
    let (cg, b) ← streamLookupConsumer cg consumer true now
    let b ← deref b
    let (g, out) ← streamReplyWithRange (groupEntry noack b now) s (some start) none count false ⟨cg, false, []⟩
    .ok (g.cg, .items (out.map .entry), g.propagated)
  else .ok (cg, .null, [])

namespace GroupedStream

def withGroup (gs : GroupedStream) (group : List UInt8) (missing : GroupReply)
    (f : StreamCG → Except Crash (StreamCG × GroupReply × List Propagated)) :
    Except Crash (GroupedStream × GroupReply × List Propagated) :=
  match gs.cgroups.lookup group with
  | none => .ok (gs, missing, [])
  | some cg => do
    let (cg, r, p) ← f cg
    .ok ({ gs with cgroups := gs.cgroups.insert group cg }, r, p)

def groupID (gs : GroupedStream) (id : Option StreamID) : StreamID := id.getD gs.stream.lastId

/-- A command, its reply and what is propagated in its place. -/
def exec (limits : StreamLimits) (gs : GroupedStream) :
    GroupCmd → Except Crash (GroupedStream × GroupReply × List Propagated)
  | .entries cmd => do
    let (s, r) ← ofEntries (streamCmdStep limits cmd gs.stream)
    .ok ({ gs with stream := s }, .entries r, [])
  | .create group id =>
    match gs.cgroups.lookup group with
    | some _ => .ok (gs, .error "-BUSYGROUP Consumer Group name already exists", [])
    | none => .ok ({ gs with cgroups := gs.cgroups.insert group (streamCreateCG (gs.groupID id)) }, .ok, [])
  | .setid group id => gs.withGroup group noGroupXGROUP fun cg => .ok ({ cg with lastId := gs.groupID id }, .ok, [])
  | .destroy group =>
    match gs.cgroups.lookup group with
    | none => .ok (gs, .number 0, [])
    | some _ => .ok ({ gs with cgroups := gs.cgroups.erase group }, .number 1, [])
  | .delconsumer group consumer now => gs.withGroup group noGroupXGROUP fun cg => do
    let (cg, pending) ← streamDelConsumer cg consumer now
    .ok (cg, .number pending, [])
  | .xreadgroup group consumer count noack id now => gs.withGroup group noGroupXREADGROUP fun cg =>
    xreadgroupCommand gs.stream cg consumer count noack id now
  | .xack group ids => gs.withGroup group (.number 0) fun cg => do
    let (cg, r) ← xackLoop ids cg 0
    .ok (cg, r, [])
  | .xclaim group consumer minidle ids opts now => gs.withGroup group noGroupXCLAIM fun cg =>
    xclaimCommand gs.stream cg consumer minidle ids opts now

/-- A stream under the commands of its clients; it has no step once the server is down. -/
def machine (limits : StreamLimits) : Machine GroupCmd GroupedStream (GroupReply × List Propagated) where
  init := ⟨streamNew, ∅⟩
  step cmd gs := (gs.exec limits cmd).toOption

end GroupedStream
end Redis
