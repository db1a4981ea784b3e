import Mathlib.Data.List.AList
import Mathlib.Logic.Function.Basic
import Redis.QueryBuffer

/-! # A node's table of the cluster (`cluster.c`)

Every node of a cluster keeps a `clusterNode` for each node it knows, the table `nodes` from names to
them, and three arrays over the hash slots: who owns a slot, where it is being migrated to, from where
it is being imported. Ownership is stored twice, in the array `slots` and in the bitmap of the owner,
and so is replication, in the replica's `slaveof` and in the array `slaves` of its master.

A pointer to a `clusterNode` is an address of `State.mem`. An address is used once, and what it holds
stays there when the node is freed, so that a dangling pointer is an address that `nodes` no longer
leads to. The keyspace is present with its key counts only. -/

namespace Redis.ClusterTable

def clusterSlots : Nat := 16384

/-! ### Bitmaps -/

/-- A bitmap of `CLUSTER_SLOTS/8` bytes; bit `pos&7` of byte `pos/8` is bit `pos`. -/
abbrev Bitmap := BitVec clusterSlots

def bitmapTestBit (bitmap : Bitmap) (pos : Nat) : Bool := bitmap.getLsbD pos

def bitmapSetBit (bitmap : Bitmap) (pos : Nat) : Bitmap := bitmap ||| BitVec.twoPow clusterSlots pos

def bitmapClearBit (bitmap : Bitmap) (pos : Nat) : Bitmap := bitmap &&& ~~~BitVec.twoPow clusterSlots pos

/-! ### Nodes -/

def isHexChar (c : UInt8) : Bool := decide (48 ≤ c.toNat ∧ c.toNat ≤ 57 ∨ 97 ≤ c.toNat ∧ c.toNat ≤ 102)

/-- The name of a node: `CLUSTER_NAMELEN` hexadecimal digits, as `getRandomHexChars` makes them. -/
structure Name where
  bytes : List UInt8
  length_eq : bytes.length = 40
  hex : ∀ c ∈ bytes, isHexChar c = true
deriving DecidableEq

def isIpChar (c : UInt8) : Bool := decide (33 ≤ c.toNat ∧ c.toNat ≤ 126 ∧ c.toNat ≠ 34 ∧ c.toNat ≠ 39)

/-- An address as text, short enough for a buffer of `NET_IP_STR_LEN` bytes. -/
structure Ip where
  bytes : List UInt8
  length_lt : bytes.length < 46
  text : ∀ c ∈ bytes, isIpChar c = true
deriving DecidableEq

/-- The bits `CLUSTER_NODE_*` of `flags`. -/
structure Flags where
  master : Bool := false
  slave : Bool := false
  pfail : Bool := false
  fail : Bool := false
  myself : Bool := false
  handshake : Bool := false
  noaddr : Bool := false
  meet : Bool := false
  migrateTo : Bool := false
  nofailover : Bool := false
deriving DecidableEq

structure ClusterNode where
  name : Name
  flags : Flags
  configEpoch : UInt64
  slots : Bitmap
  numslots : Int
  slaves : List Nat
  slaveof : Option Nat
  pingSent : Nat
  pongReceived : Nat
  link : Bool
  ip : List UInt8
  port : Int
  cport : Int

def createClusterNode (name : Name) (flags : Flags) : ClusterNode where
  name := name
  flags := flags
  configEpoch := 0
  slots := 0
  numslots := 0
  slaves := []
  slaveof := none
  pingSent := 0
  pongReceived := 0
  link := false
  ip := []
  port := 0
  cport := 0

/-- `clusterState`, with the key counts of the slots and of the whole database. -/
structure State where
  mem : Nat → ClusterNode
  brk : Nat
  nodes : AList fun _ : Name => Nat
  myself : Nat
  slots : Nat → Option Nat
  migratingSlotsTo : Nat → Option Nat
  importingSlotsFrom : Nat → Option Nat
  currentEpoch : UInt64
  lastVoteEpoch : UInt64
  failoverAuthEpoch : UInt64
  keys : Nat → Nat
  dbSize : Nat
  noRedirection : Bool

inductive Fault
  /-- `serverAssert(clusterNodeClearSlotBit(n,slot) == 1)`. -/
  | delSlot
  /-- `serverAssert(n != myself)`. -/
  | setMasterMyself
  /-- `serverAssert(myself->numslots == 0)`. -/
  | setMasterSlots
  /-- `serverAssertWithInfo(c,NULL,retval == C_OK)`. -/
  | addSlots
  /-- `serverAssert(dictDelete(server.cluster->nodes,nodename) == DICT_OK)`. -/
  | dictDelete
  /-- `curmaster->numslots` where `curmaster` is `NULL`. -/
  | nullMaster
deriving DecidableEq

variable (s : State)

namespace State

def modify (a : Nat) (f : ClusterNode → ClusterNode) : State :=
  { s with mem := Function.update s.mem a (f (s.mem a)) }

def modifyFlags (a : Nat) (f : Flags → Flags) : State :=
  s.modify a fun n => { n with flags := f n.flags }

def setOwner (slot : Nat) (o : Option Nat) : State :=
  { s with slots := Function.update s.slots slot o }

end State

def clusterLookupNode (name : Name) : Option Nat := s.nodes.lookup name

def clusterMastersHaveSlaves : Bool :=
  (s.nodes.entries.map fun e => if (s.mem e.2).flags.slave then 0 else (s.mem e.2).slaves.length).sum != 0

/-! ### Slots -/

def ClusterNode.setSlotBit (m : ClusterNode) (slot : Nat) : ClusterNode :=
  { m with
    slots := bitmapSetBit m.slots slot
    numslots := if bitmapTestBit m.slots slot then m.numslots else m.numslots + 1 }

def ClusterNode.clearSlotBit (m : ClusterNode) (slot : Nat) : ClusterNode :=
  { m with
    slots := bitmapClearBit m.slots slot
    numslots := if bitmapTestBit m.slots slot then m.numslots - 1 else m.numslots }

def clusterNodeSetSlotBit (n slot : Nat) : Bool × State :=
  let old := bitmapTestBit (s.mem n).slots slot
  let s₁ := s.modify n (·.setSlotBit slot)
  -- a master that gets its first slot is a target for replicas, if there are replicas
  (old, if !old && (s₁.mem n).numslots == 1 && clusterMastersHaveSlaves s₁ then
      s₁.modifyFlags n fun f => { f with migrateTo := true }
    else s₁)

def clusterNodeClearSlotBit (n slot : Nat) : Bool × State :=
  (bitmapTestBit (s.mem n).slots slot, s.modify n (·.clearSlotBit slot))

def clusterAddSlot (n slot : Nat) : Bool × State :=
  if (s.slots slot).isSome then (false, s)
  else
    (true, (clusterNodeSetSlotBit s n slot).2.setOwner slot (some n))

def clusterDelSlot (slot : Nat) : Except Fault (Bool × State) :=
  match s.slots slot with
  | none => .ok (false, s)
  | some n =>
    let r := clusterNodeClearSlotBit s n slot
    if r.1 then .ok (true, r.2.setOwner slot none) else .error .delSlot

@[irreducible] def forSlots {α : Type} (body : α → Nat → Except Fault α) (a : α) : Except Fault α :=
  (List.range clusterSlots).foldlM body a

/-- No caller uses the number of slots that it returns. -/
def clusterDelNodeSlots (node : Nat) : Except Fault State :=
  forSlots (fun s j =>
    if bitmapTestBit (s.mem node).slots j then (clusterDelSlot s j).map (·.2) else .ok s) s

def clusterCloseAllSlots : State :=
  { s with migratingSlotsTo := fun _ => none, importingSlotsFrom := fun _ => none }

/-! ### Masters and replicas -/

def clusterNodeRemoveSlave (master slave : Nat) : State :=
  if (s.mem master).slaves.contains slave then
    s.modify master fun m =>
      { m with
        slaves := m.slaves.erase slave
        flags := if (m.slaves.erase slave).isEmpty then { m.flags with migrateTo := false } else m.flags }
  else s

def clusterNodeAddSlave (master slave : Nat) : State :=
  if (s.mem master).slaves.contains slave then s
  else
    s.modify master fun m =>
      { m with slaves := m.slaves ++ [slave], flags := { m.flags with migrateTo := true } }

/-- The node is no longer listed with its master, if it has one. -/
def leaveMaster (n : Nat) : State :=
  match (s.mem n).slaveof with
  | none => s
  | some m => clusterNodeRemoveSlave s m n

def ClusterNode.asMaster (n : ClusterNode) : ClusterNode :=
  { n with flags := { n.flags with slave := false, master := true }, slaveof := none }

def ClusterNode.asSlave (n : ClusterNode) : ClusterNode :=
  { n with flags := { n.flags with master := false, migrateTo := false, slave := true } }

def ClusterNode.withSlaveof (n : ClusterNode) (o : Option Nat) : ClusterNode := { n with slaveof := o }

def clusterSetNodeAsMaster (n : Nat) : State :=
  if (s.mem n).flags.master then s
  else
    let s₁ := leaveMaster s n
    let s₂ :=
      if (s.mem n).slaveof.isSome ∧ n ≠ s.myself then s₁.modifyFlags n fun f => { f with migrateTo := true } else s₁
    s₂.modify n (·.asMaster)

def clusterSetMaster (n : Nat) : Except Fault State :=
  if n = s.myself then .error .setMasterMyself
  else if (s.mem s.myself).numslots ≠ 0 then .error .setMasterSlots
  else
    let s₁ :=
      if (s.mem s.myself).flags.master then clusterCloseAllSlots (s.modify s.myself (·.asSlave))
      else leaveMaster s s.myself
    .ok (clusterNodeAddSlave (s₁.modify s₁.myself (·.withSlaveof (some n))) n s₁.myself)

/-! ### The table of nodes -/

/-- `clusterAddNode` after `createClusterNode`. A name that is in the table stays with its node. -/
def addNode (n : ClusterNode) : State :=
  let s₁ := { s with mem := Function.update s.mem s.brk n, brk := s.brk + 1 }
  if (clusterLookupNode s n.name).isSome then s₁ else { s₁ with nodes := s₁.nodes.insert n.name s.brk }

def orphanSlaves (n : Nat) : State :=
  (s.mem n).slaves.foldl (fun s x => s.modify x (·.withSlaveof none)) s

def freeClusterNode (n : Nat) : Except Fault State :=
  let s₁ := orphanSlaves s n
  let s₂ := if (s₁.mem n).flags.slave then leaveMaster s₁ n else s₁
  if (clusterLookupNode s₂ (s₂.mem n).name).isSome then
    .ok { s₂ with nodes := s₂.nodes.erase (s₂.mem n).name }
  else .error .dictDelete

def clearIf (f : Nat → Option Nat) (delnode j : Nat) : Nat → Option Nat :=
  if f j = some delnode then Function.update f j none else f

def delNodeSlot (delnode : Nat) (s : State) (j : Nat) : Except Fault State :=
  let s₁ := { s with
    importingSlotsFrom := clearIf s.importingSlotsFrom delnode j
    migratingSlotsTo := clearIf s.migratingSlotsTo delnode j }
  if s₁.slots j = some delnode then (clusterDelSlot s₁ j).map (·.2) else .ok s₁

/-- Without the failure reports. -/
def clusterDelNode (delnode : Nat) : Except Fault State :=
  (forSlots (delNodeSlot delnode) s).bind fun s => freeClusterNode s delnode

def clusterRenameNode (n : Nat) (newname : Name) : Except Fault State :=
  if (clusterLookupNode s (s.mem n).name).isSome then
    let s₁ := { s with nodes := s.nodes.erase (s.mem n).name }
    let s₂ := s₁.modify n fun m => { m with name := newname }
    .ok (if (clusterLookupNode s₂ newname).isSome then s₂ else { s₂ with nodes := s₂.nodes.insert newname n })
  else .error .dictDelete

/-! ### Configuration epochs -/

def clusterGetMaxEpoch : UInt64 :=
  let max := s.nodes.entries.foldl (fun max e => if max < (s.mem e.2).configEpoch then (s.mem e.2).configEpoch else max) 0
  if max < s.currentEpoch then s.currentEpoch else max

def takeNewEpoch : State :=
  { s with currentEpoch := s.currentEpoch + 1 }.modify s.myself fun m => { m with configEpoch := s.currentEpoch + 1 }

/-- `true` is `C_OK`. -/
def clusterBumpConfigEpochWithoutConsensus : Bool × State :=
  if (s.mem s.myself).configEpoch = 0 ∨ (s.mem s.myself).configEpoch ≠ clusterGetMaxEpoch s then
    (true, takeNewEpoch s)
  else (false, s)

def clusterHandleConfigEpochCollision (sender : Nat) : State :=
  if (s.mem sender).configEpoch ≠ (s.mem s.myself).configEpoch ∨ (s.mem sender).flags.master = false ∨
      (s.mem s.myself).flags.master = false then s
  else if (s.mem sender).name.bytes ≤ (s.mem s.myself).name.bytes then s
  else takeNewEpoch s

/-! ### Slots as other nodes claim them -/

/-- Is the slot unassigned, or is its owner's epoch older than `epoch`? -/
def isOlder (epoch : UInt64) (j : Nat) : Bool :=
  match s.slots j with
  | none => true
  | some o => (s.mem o).configEpoch < epoch

structure SlotScan where
  state : State
  newmaster : Bool
  dirtySlots : List Nat

def updateSlot (sender : Nat) (epoch : UInt64) (slots : Bitmap) (curmaster : Option Nat) (r : SlotScan) (j : Nat) :
    Except Fault SlotScan :=
  let s := r.state
  if bitmapTestBit slots j = false ∨ s.slots j = some sender ∨ (s.importingSlotsFrom j).isSome then .ok r
  else if isOlder s epoch j then
    (clusterDelSlot s j).map fun d =>
      { state := (clusterAddSlot d.2 sender j).2
        newmaster := r.newmaster || decide (s.slots j = curmaster)
        dirtySlots :=
          if s.slots j = some s.myself ∧ s.keys j ≠ 0 ∧ sender ≠ s.myself then r.dirtySlots ++ [j] else r.dirtySlots }
  else .ok r

def delKeysInSlot (j : Nat) : State :=
  { s with keys := Function.update s.keys j 0, dbSize := s.dbSize - s.keys j }

def reconfigureMyself (sender : Nat) (curmaster : Option Nat) (r : SlotScan) : Except Fault State :=
  let s := r.state
  if s.noRedirection then .ok s
  else if r.newmaster then
    match curmaster with
    | none => .error .nullMaster
    | some m =>
      if (s.mem m).numslots = 0 then clusterSetMaster s sender else .ok (r.dirtySlots.foldl delKeysInSlot s)
  else .ok (r.dirtySlots.foldl delKeysInSlot s)

def clusterUpdateSlotsConfigWith (sender : Nat) (epoch : UInt64) (slots : Bitmap) : Except Fault State :=
  let curmaster := if (s.mem s.myself).flags.master then some s.myself else (s.mem s.myself).slaveof
  if sender = s.myself then .ok s
  else
    (forSlots (updateSlot sender epoch slots curmaster) ⟨s, false, []⟩).bind (reconfigureMyself sender curmaster)

end Redis.ClusterTable
