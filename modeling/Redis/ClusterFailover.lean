import Mathlib.Logic.Function.Basic
import Mathlib.Algebra.Order.Ring.Int
import Redis.Lib.Machine

/-! # Failover elections (`cluster.c`)

A replica whose master failed schedules an election (`clusterHandleSlaveFailover`), later takes the next
epoch and asks all nodes for their vote, counts the `FAILOVER_AUTH_ACK` messages that come in, and
becomes a master when a majority of the masters has voted. A master votes once per epoch
(`clusterSendFailoverAuthIfNeeded`). The masters that serve slots are fixed and known to every node.

The bus keeps the messages on their way in a list: any of them can be delivered or lost next. A node's
view of the others comes from the rest of the gossip protocol and can change at any time; so can the
clock. The epochs are saved by `clusterBeforeSleep`, after the events of a round: the messages of an event
can leave the node before that, and a restart finds the epochs saved last. -/

namespace Redis.Cluster

structure Config where
  nodes : List Nat
  masters : List Nat
  nodup : masters.Nodup
  nodeTimeout : Int
  slaveValidityFactor : Int
  replPingSlavePeriod : Int
  slaveNoFailover : Bool

variable (cfg : Config)

def Config.neededQuorum : Nat := cfg.masters.length / 2 + 1

inductive MsgData
  | other
  | failoverAuthRequest (claimedSlots : List Nat) (forceAck : Bool)
  | failoverAuthAck
deriving DecidableEq

structure Msg where
  sender : Nat
  receiver : Nat
  currentEpoch : Nat
  configEpoch : Nat
  data : MsgData
deriving DecidableEq

structure View where
  isMaster : Nat → Bool
  slaveof : Nat → Option Nat
  failed : Nat → Bool
  votedTime : Nat → Int
  configEpoch : Nat → Nat
  slots : Nat → Option Nat

structure Saved where
  currentEpoch : Nat
  lastVoteEpoch : Nat
deriving DecidableEq

structure Node where
  currentEpoch : Nat
  lastVoteEpoch : Nat
  failoverAuthTime : Int
  failoverAuthCount : Nat
  failoverAuthSent : Bool
  failoverAuthRank : Int
  failoverAuthEpoch : Nat
  mfEnd : Int
  mfCanStart : Bool
  slaveof : Option Nat
  configEpoch : Nat
  view : View
  todoSaveConfig : Bool
  saved : Saved

/-- What a node does that the others, or an observer, can see. -/
inductive Event
  | none
  | requested (replica epoch : Nat)
  | voted (master replica epoch : Nat)
  | acked (replica master epoch : Nat)
  | won (replica epoch : Nat)
deriving DecidableEq

def nextEpoch (epoch : Nat) : Nat := (epoch + 1) % 2 ^ 64

variable (nd : Node)

/-- With the flag `CLUSTER_TODO_SAVE_CONFIG`. -/
def Node.clusterDoBeforeSleep : Node := { nd with todoSaveConfig := true }

def Node.clusterBeforeSleep : Node :=
  if nd.todoSaveConfig then { nd with saved := ⟨nd.currentEpoch, nd.lastVoteEpoch⟩, todoSaveConfig := false } else nd

/-- The `configEpoch` in the header of a message: a replica sends that of its master. -/
def Node.headerConfigEpoch : Nat :=
  match nd.slaveof with
  | none => nd.configEpoch
  | some master => nd.view.configEpoch master

/-! ### Voting -/

/-- The masters with a greater epoch than the request in the slots it claims. -/
def View.slotsOutdated (v : View) (claimedSlots : List Nat) (configEpoch : Nat) : Bool :=
  claimedSlots.any fun j =>
    match v.slots j with
    | none => false
    | some owner => v.configEpoch owner > configEpoch

def clusterSendFailoverAuthIfNeeded (me : Nat) (now : Int) (nd : Node) (request : Msg)
    (claimedSlots : List Nat) (forceAck : Bool) : Node × List Msg × Event :=
  let refused := (nd, [], Event.none)
  if me ∉ cfg.masters then refused
  else if request.currentEpoch < nd.currentEpoch then refused
  else if nd.lastVoteEpoch = nd.currentEpoch then refused
  else if nd.view.isMaster request.sender then refused
  else
    match nd.view.slaveof request.sender with
    | none => refused
    | some master =>
      if !nd.view.failed master && !forceAck then refused
      else if now - nd.view.votedTime master < cfg.nodeTimeout * 2 then refused
      else if nd.view.slotsOutdated claimedSlots request.configEpoch then refused
      else
        (Node.clusterDoBeforeSleep { nd with
          lastVoteEpoch := nd.currentEpoch
          view := { nd.view with votedTime := Function.update nd.view.votedTime master now } },
        [⟨me, request.sender, nd.currentEpoch, nd.headerConfigEpoch, .failoverAuthAck⟩],
        .voted me request.sender request.currentEpoch)

/-- The epochs that a node takes over from a message. -/
def Node.updateEpochs (msg : Msg) : Node :=
  let nd := if msg.currentEpoch > nd.currentEpoch then { nd with currentEpoch := msg.currentEpoch } else nd
  if msg.configEpoch > nd.view.configEpoch msg.sender then
    Node.clusterDoBeforeSleep { nd with
      view := { nd.view with configEpoch := Function.update nd.view.configEpoch msg.sender msg.configEpoch } }
  else nd

/-- The part of `clusterProcessPacket` about the epochs and the election. -/
def clusterProcessPacket (me : Nat) (now : Int) (nd : Node) (msg : Msg) : Node × List Msg × Event :=
  let nd := nd.updateEpochs msg
  match msg.data with
  | .other => (nd, [], .none)
  | .failoverAuthRequest claimedSlots forceAck =>
    clusterSendFailoverAuthIfNeeded cfg me now nd msg claimedSlots forceAck
  | .failoverAuthAck =>
    if msg.sender ∈ cfg.masters ∧ msg.currentEpoch ≥ nd.failoverAuthEpoch then
      ({ nd with failoverAuthCount := nd.failoverAuthCount + 1 }, [], .acked me msg.sender msg.currentEpoch)
    else (nd, [], .acked me msg.sender msg.currentEpoch)

/-! ### Elections -/

/-- The clock and what replication knows when `clusterHandleSlaveFailover` is called. -/
structure FailoverEnv where
  now : Int
  dataAge : Int
  random : Int
  rank : Int
  slots : List Nat

def Config.authTimeout : Int := if cfg.nodeTimeout * 2 < 2000 then 2000 else cfg.nodeTimeout * 2

def Config.authRetryTime : Int := cfg.authTimeout * 2

def Node.authAge (now : Int) : Int := now - nd.failoverAuthTime

def Node.manualFailover : Bool := nd.mfEnd ≠ 0 && nd.mfCanStart

def Config.dataTooOld (dataAge : Int) : Bool :=
  let dataAge := if dataAge > cfg.nodeTimeout then dataAge - cfg.nodeTimeout else dataAge
  cfg.slaveValidityFactor ≠ 0 &&
    dataAge > cfg.replPingSlavePeriod * 1000 + cfg.nodeTimeout * cfg.slaveValidityFactor

def Node.schedule (env : FailoverEnv) : Node :=
  { nd with
    failoverAuthTime := if nd.mfEnd ≠ 0 then env.now else env.now + 500 + env.random % 500 + env.rank * 1000
    failoverAuthCount := 0
    failoverAuthSent := false
    failoverAuthRank := if nd.mfEnd ≠ 0 then 0 else env.rank }

def Node.updateRank (env : FailoverEnv) : Node :=
  if nd.failoverAuthSent = false ∧ nd.mfEnd = 0 ∧ env.rank > nd.failoverAuthRank then
    { nd with
      failoverAuthTime := nd.failoverAuthTime + (env.rank - nd.failoverAuthRank) * 1000
      failoverAuthRank := env.rank }
  else nd

def clusterRequestFailoverAuth (me : Nat) (nd : Node) (env : FailoverEnv) : List Msg :=
  (cfg.nodes.filter (· ≠ me)).map fun n =>
    ⟨me, n, nd.currentEpoch, nd.headerConfigEpoch, .failoverAuthRequest env.slots (nd.mfEnd ≠ 0)⟩

/-- `clusterFailoverReplaceYourMaster`, with the epoch of the election. -/
def Node.replaceMaster : Node :=
  Node.clusterDoBeforeSleep { nd with
    configEpoch := if nd.configEpoch < nd.failoverAuthEpoch then nd.failoverAuthEpoch else nd.configEpoch
    slaveof := none
    mfEnd := 0
    mfCanStart := false }

def clusterHandleSlaveFailover (me : Nat) (nd : Node) (env : FailoverEnv) : Node × List Msg × Event :=
  match nd.slaveof with
  | none => (nd, [], .none)
  | some master =>
    if (!nd.view.failed master && !nd.manualFailover) || (cfg.slaveNoFailover && !nd.manualFailover) ||
        decide (master ∉ cfg.masters) then (nd, [], .none)
    else if cfg.dataTooOld env.dataAge && !nd.manualFailover then (nd, [], .none)
    else if nd.authAge env.now > cfg.authRetryTime then (nd.schedule env, [], .none)
    else
      let authAge := nd.authAge env.now
      let nd := nd.updateRank env
      if env.now < nd.failoverAuthTime then (nd, [], .none)
      else if authAge > cfg.authTimeout then (nd, [], .none)
      else if nd.failoverAuthSent = false then
        let epoch := nextEpoch nd.currentEpoch
        let nd := Node.clusterDoBeforeSleep
          { nd with currentEpoch := epoch, failoverAuthEpoch := epoch, failoverAuthSent := true }
        (nd, clusterRequestFailoverAuth cfg me nd env, .requested me epoch)
      else if nd.failoverAuthCount ≥ cfg.neededQuorum then (nd.replaceMaster, [], .won me nd.failoverAuthEpoch)
      else (nd, [], .none)

/-! ### The cluster as a machine -/

structure State where
  nodes : Nat → Node
  net : List Msg

/-- A message of another type, which carries the epochs. -/
def Node.ping (me receiver : Nat) : Msg := ⟨me, receiver, nd.currentEpoch, nd.headerConfigEpoch, .other⟩

/-- `clusterHandleConfigEpochCollision`. -/
def Node.newConfigEpoch : Node :=
  Node.clusterDoBeforeSleep
    { nd with currentEpoch := nextEpoch nd.currentEpoch, configEpoch := nextEpoch nd.currentEpoch }

/-- The state after `clusterInit` and `clusterLoadConfig`; `maxEpoch` is the greatest `configEpoch` in the
file. -/
def Node.restart (maxEpoch : Nat) : Node :=
  { nd with
    currentEpoch := max nd.saved.currentEpoch maxEpoch
    lastVoteEpoch := nd.saved.lastVoteEpoch
    failoverAuthTime := 0
    failoverAuthCount := 0
    failoverAuthSent := false
    failoverAuthRank := 0
    failoverAuthEpoch := 0
    mfEnd := 0
    mfCanStart := false
    todoSaveConfig := false }

/-- What can happen next. `reconfigure` is what the other messages of the bus do to a node's view and role,
`manual` is `CLUSTER FAILOVER` and its time-out. -/
inductive Op
  | ping (n receiver : Nat)
  | deliver (i : Nat) (now : Int)
  | lose (i : Nat)
  | failover (n : Nat) (env : FailoverEnv)
  | beforeSleep (n : Nat)
  | restart (n maxEpoch : Nat)
  | collision (n : Nat)
  | reconfigure (n : Nat) (slaveof : Option Nat) (view : View) (save : Bool)
  | manual (n : Nat) (mfEnd : Int) (mfCanStart : Bool)

def State.handle (s : State) (n : Nat) (r : Node × List Msg × Event) : State × Event :=
  (⟨Function.update s.nodes n r.1, s.net ++ r.2.1⟩, r.2.2)

def step (op : Op) (s : State) : Option (State × Event) :=
  match op with
  | .ping n receiver => some (s.handle n (s.nodes n, [(s.nodes n).ping n receiver], .none))
  | .deliver i now =>
    match s.net[i]? with
    | none => none
    | some msg =>
      some (State.handle { s with net := s.net.eraseIdx i } msg.receiver
        (clusterProcessPacket cfg msg.receiver now (s.nodes msg.receiver) msg))
  | .lose i => some ({ s with net := s.net.eraseIdx i }, .none)
  | .failover n env => some (s.handle n (clusterHandleSlaveFailover cfg n (s.nodes n) env))
  | .beforeSleep n => some (s.handle n ((s.nodes n).clusterBeforeSleep, [], .none))
  | .restart n maxEpoch => some (s.handle n ((s.nodes n).restart maxEpoch, [], .none))
  | .collision n => some (s.handle n ((s.nodes n).newConfigEpoch, [], .none))
  | .reconfigure n slaveof view save =>
    let nd := { s.nodes n with slaveof := slaveof, view := view }
    some (s.handle n (if save then nd.clusterDoBeforeSleep else nd, [], .none))
  | .manual n mfEnd mfCanStart =>
    some (s.handle n ({ s.nodes n with mfEnd := mfEnd, mfCanStart := mfCanStart }, [], .none))

def View.init : View := ⟨fun _ => true, fun _ => none, fun _ => false, fun _ => 0, fun _ => 0, fun _ => none⟩

def State.init : State :=
  ⟨fun _ => ⟨0, 0, 0, 0, false, 0, 0, 0, false, none, 0, View.init, false, ⟨0, 0⟩⟩, []⟩

def machine : Machine Op State Event := ⟨.init, step cfg⟩

end Redis.Cluster
