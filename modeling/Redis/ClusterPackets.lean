import Redis.ClusterTable

/-! # Packets and commands that change the table of the cluster

`clusterProcessPacket`, the subcommands of `CLUSTER` that touch nodes or slots, and the parts of
`clusterCron` that do. What comes from outside the table is part of the operation: random names, the
addresses of sockets, the time, the outcome of an election. The gossip section of a packet acts through
operations of its own (`Op.startHandshake`, `Op.gossipAddress`, `Op.markFail`). -/

namespace Redis.ClusterTable

/-! ### Packets -/

/-- The bit of `CLUSTER_NODE_MASTER|CLUSTER_NODE_SLAVE` that the sender has set for itself. -/
inductive Role
  | master
  | slave
deriving DecidableEq

/-- The header of a packet. `ip` is the address that `nodeIp2String` finds. -/
structure Header where
  sender : Name
  role : Role
  nofailover : Bool := false
  slaveof : Option Name := none
  myslots : Bitmap := 0
  currentEpoch : UInt64 := 0
  configEpoch : UInt64 := 0
  ip : Ip
  port : UInt16
  cport : UInt16

inductive PingType
  | ping
  | pong
  | meet
deriving DecidableEq

/-- A `PING`, `PONG` or `MEET`, and how it came in: `link` names the node of a link that this node has
opened. `sockIp` is its own address on the link unless one is configured, `undoFail` says that a `FAIL`
flag would be old enough to be cleared. -/
structure Ping where
  type : PingType
  hdr : Header
  link : Option Name := none
  tempName : Name
  sockIp : Option Ip := none
  undoFail : Bool := false
  now : Nat := 0

variable (s : State)

def seeEpoch (epoch : UInt64) : State :=
  if s.currentEpoch < epoch then { s with currentEpoch := epoch } else s

def updateEpochs (sender : Option Nat) (hdr : Header) : State :=
  match sender with
  | none => s
  | some a =>
    if (s.mem a).flags.handshake then s
    else if (s.mem a).configEpoch < hdr.configEpoch then
      (seeEpoch s hdr.currentEpoch).modify a fun n => { n with configEpoch := hdr.configEpoch }
    else seeEpoch s hdr.currentEpoch

def senderConfigEpoch (sender : Nat) (hdr : Header) : UInt64 :=
  if (s.mem sender).flags.handshake then 0 else hdr.configEpoch

def setMyIp (p : Ping) : State :=
  match p.sockIp with
  | none => s
  | some ip =>
    if p.type = .meet ∨ (s.mem s.myself).ip = [] then s.modify s.myself fun n => { n with ip := ip.bytes } else s

def meetNode (p : Ping) : ClusterNode :=
  { createClusterNode p.tempName { handshake := true } with
    ip := p.hdr.ip.bytes, port := p.hdr.port.toNat, cport := p.hdr.cport.toNat }

/-- A `PING` or `MEET` is answered, a `MEET` from a stranger makes it a node in handshake. -/
def answerPing (sender : Option Nat) (p : Ping) : State :=
  if p.type = .pong then s
  else if sender = none ∧ p.type = .meet then addNode (setMyIp s p) (meetNode p)
  else setMyIp s p

def setAddress (n : Nat) (ip : List UInt8) (port cport : Int) : State :=
  s.modify n fun m =>
    { m with ip := ip, port := port, cport := cport, link := false, flags := { m.flags with noaddr := false } }

def nodeUpdateAddressIfNeeded (n : Nat) (link : Option Nat) (hdr : Header) : State :=
  if link = some n then s
  else if (s.mem n).port = hdr.port.toNat ∧ (s.mem n).cport = hdr.cport.toNat ∧ (s.mem n).ip = hdr.ip.bytes then s
  else setAddress s n hdr.ip.bytes hdr.port.toNat hdr.cport.toNat

/-- The node of the link has answered, `clearNodeFailureIfNeeded` included. -/
def pongReceived (s : State) (link : Option Nat) (p : Ping) : State :=
  match link with
  | none => s
  | some l =>
    if p.type = .pong then
      let s₁ := s.modify l fun n => { n with pongReceived := p.now, pingSent := 0 }
      if (s₁.mem l).flags.pfail then s₁.modifyFlags l fun f => { f with pfail := false }
      else if (s₁.mem l).flags.fail then
        if (s₁.mem l).flags.slave ∨ (s₁.mem l).numslots = 0 ∨
            (s₁.mem l).flags.master ∧ 0 < (s₁.mem l).numslots ∧ p.undoFail then
          s₁.modifyFlags l fun f => { f with fail := false }
        else s₁
      else s₁
    else s

def changeMaster (sender : Nat) (master : Option Nat) : State :=
  match master with
  | none => s
  | some m =>
    if (s.mem sender).slaveof = some m then s
    else (clusterNodeAddSlave (leaveMaster s sender) m sender).modify sender (·.withSlaveof (some m))

def roleSwitch (sender : Nat) (hdr : Header) : Except Fault State :=
  match hdr.slaveof with
  | none => .ok (clusterSetNodeAsMaster s sender)
  | some name =>
    let master := clusterLookupNode s name
    if (s.mem sender).flags.master then
      (clusterDelNodeSlots s sender).map fun s => changeMaster (s.modify sender (·.asSlave)) sender master
    else .ok (changeMaster s sender master)

/-- The slots that the sender claims, if they are not the ones known. -/
def claimedSlots (sender : Nat) (epoch : UInt64) (hdr : Header) : Except Fault State :=
  if (s.mem sender).flags.master ∧ (s.mem sender).slots ≠ hdr.myslots then
    clusterUpdateSlotsConfigWith s sender epoch hdr.myslots
  else .ok s

/-- The configuration in a `PING`, `PONG` or `MEET`. -/
def processConfig (sender link : Option Nat) (epoch : UInt64) (p : Ping) : Except Fault State :=
  match sender with
  | none => .ok (pongReceived s link p)
  | some a => do
    let s := s.modifyFlags a fun f => { f with nofailover := p.hdr.nofailover }
    let s := if p.type = .ping ∧ (s.mem a).flags.handshake = false then nodeUpdateAddressIfNeeded s a link p.hdr else s
    let s := pongReceived s link p
    let s ← roleSwitch s a p.hdr
    let s ← claimedSlots s a epoch p.hdr
    if (s.mem s.myself).flags.master ∧ (s.mem a).flags.master ∧ epoch = (s.mem s.myself).configEpoch then
      .ok (clusterHandleConfigEpochCollision s a)
    else .ok s

def finishHandshake (l : Nat) (hdr : Header) : Except Fault State :=
  (clusterRenameNode s l hdr.sender).map fun s =>
    s.modifyFlags l fun f =>
      { f with handshake := false, master := f.master || hdr.role == .master, slave := f.slave || hdr.role == .slave }

/-- `clusterProcessPacket` for `PING`, `PONG` and `MEET`. -/
def processPing (p : Ping) : Except Fault State :=
  let sender := clusterLookupNode s p.hdr.sender
  let epoch := match sender with | none => 0 | some a => senderConfigEpoch s a p.hdr
  let link := p.link.bind (clusterLookupNode s)
  let s₁ := answerPing (updateEpochs s sender p.hdr) sender p
  match link with
  | none => processConfig s₁ sender none epoch p
  | some l =>
    if (s₁.mem l).flags.handshake then
      match sender with
      | some a => clusterDelNode (nodeUpdateAddressIfNeeded s₁ a link p.hdr) l
      | none => (finishHandshake s₁ l p.hdr).bind fun s => processConfig s none link epoch p
    else if (s₁.mem l).name ≠ p.hdr.sender then
      .ok (s₁.modify l fun n =>
        { n with flags := { n.flags with noaddr := true }, ip := [], port := 0, cport := 0, link := false })
    else processConfig s₁ sender link epoch p

def processUpdate (hdr : Header) (nodename : Name) (epoch : UInt64) (slots : Bitmap) : Except Fault State :=
  let sender := clusterLookupNode s hdr.sender
  let s₁ := updateEpochs s sender hdr
  match sender, clusterLookupNode s₁ nodename with
  | some _, some n =>
    if epoch ≤ (s₁.mem n).configEpoch then .ok s₁
    else
      let s₂ := if (s₁.mem n).flags.slave then clusterSetNodeAsMaster s₁ n else s₁
      clusterUpdateSlotsConfigWith (s₂.modify n fun m => { m with configEpoch := epoch }) n epoch slots
  | _, _ => .ok s₁

def processFail (hdr : Header) (about : Name) : State :=
  let sender := clusterLookupNode s hdr.sender
  let s₁ := updateEpochs s sender hdr
  match sender, clusterLookupNode s₁ about with
  | some _, some n =>
    if (s₁.mem n).flags.fail ∨ (s₁.mem n).flags.myself then s₁
    else s₁.modifyFlags n fun f => { f with fail := true, pfail := false }
  | _, _ => s₁

/-- `late` says that the last vote about the master is old enough. -/
def clusterSendFailoverAuthIfNeeded (node : Nat) (hdr : Header) (forceAck late : Bool) : State :=
  if (s.mem s.myself).flags.slave ∨ (s.mem s.myself).numslots = 0 then s
  else if hdr.currentEpoch < s.currentEpoch ∨ s.lastVoteEpoch = s.currentEpoch then s
  else
    match (s.mem node).slaveof with
    | none => s
    | some master =>
      if (s.mem node).flags.master ∨ ((s.mem master).flags.fail = false ∧ forceAck = false) ∨ late = false then s
      else if (List.range clusterSlots).any fun j =>
          bitmapTestBit hdr.myslots j && (s.slots j).any fun o => hdr.configEpoch < (s.mem o).configEpoch then s
      else { s with lastVoteEpoch := s.currentEpoch }

def processAuthRequest (hdr : Header) (forceAck late : Bool) : State :=
  let sender := clusterLookupNode s hdr.sender
  let s₁ := updateEpochs s sender hdr
  match sender with
  | none => s₁
  | some a => clusterSendFailoverAuthIfNeeded s₁ a hdr forceAck late

/-! ### Failover -/

def clusterFailoverReplaceYourMaster : Except Fault State :=
  match (s.mem s.myself).slaveof with
  | none => .ok s
  | some oldmaster =>
    if (s.mem s.myself).flags.master then .ok s
    else
      forSlots (fun s j =>
        if bitmapTestBit (s.mem oldmaster).slots j then
          (clusterDelSlot s j).map fun d => (clusterAddSlot d.2 d.2.myself j).2
        else .ok s) (clusterSetNodeAsMaster s s.myself)

/-- The end of `clusterHandleSlaveFailover`, the election won. -/
def winElection (manual noFailover : Bool) : Except Fault State :=
  match (s.mem s.myself).slaveof with
  | none => .ok s
  | some m =>
    if (s.mem s.myself).flags.master ∨ ((s.mem m).flags.fail = false ∧ manual = false) ∨
        (noFailover ∧ manual = false) ∨ (s.mem m).numslots = 0 then .ok s
    else
      clusterFailoverReplaceYourMaster
        (s.modify s.myself fun n =>
          { n with configEpoch := if n.configEpoch < s.failoverAuthEpoch then s.failoverAuthEpoch else n.configEpoch })

def clusterCountNonFailingSlaves (n : Nat) : Nat :=
  ((s.mem n).slaves.filter fun x => !(s.mem x).flags.fail).length

/-- The last step of `clusterHandleSlaveMigration`, this node being the candidate. -/
def migrateTo (target : Nat) : Except Fault State :=
  if (s.mem s.myself).flags.slave = false ∨ (s.mem s.myself).slaveof = none then .ok s
  else if (s.mem target).flags.slave ∨ (s.mem target).flags.fail ∨ (s.mem target).flags.migrateTo = false ∨
      ((s.mem target).flags.master ∧ 0 < clusterCountNonFailingSlaves s target) ∨ (s.mem target).numslots ≤ 0 then .ok s
  else clusterSetMaster s target

/-! ### Commands -/

inductive Reply
  | none
  | ok
  | error (text : String)
deriving DecidableEq

/-- The arguments of `CLUSTER ADDSLOTS` and `DELSLOTS` are checked first: how often each slot is named,
or the error. -/
def checkSlots (s : State) (del : Bool) : List Nat → (Nat → Nat) → Except String (Nat → Nat)
  | [], count => .ok count
  | slot :: args, count =>
    if clusterSlots ≤ slot then .error "Invalid or out of range slot"
    else if del && (s.slots slot).isNone then .error s!"Slot {slot} is already unassigned"
    else if !del && (s.slots slot).isSome then .error s!"Slot {slot} is already busy"
    else if count slot = 1 then .error s!"Slot {slot} specified multiple times"
    else checkSlots s del args (Function.update count slot (count slot + 1))

def assignSlot (del : Bool) (s : State) (j : Nat) : Except Fault State :=
  let s₁ := { s with importingSlotsFrom := Function.update s.importingSlotsFrom j none }
  (if del then clusterDelSlot s₁ j else .ok (clusterAddSlot s₁ s₁.myself j)).bind fun r =>
    if r.1 then .ok r.2 else .error .addSlots

def assignSlots (del : Bool) (args : List Nat) : Except Fault (State × Reply) :=
  match checkSlots s del args fun _ => 0 with
  | .error e => .ok (s, .error e)
  | .ok count =>
    (forSlots (fun s j => if count j = 0 then .ok s else assignSlot del s j) s).map fun s => (s, .ok)

def flushSlots : Except Fault (State × Reply) :=
  if s.dbSize ≠ 0 then .ok (s, .error "DB must be empty to perform CLUSTER FLUSHSLOTS.")
  else (clusterDelNodeSlots s s.myself).map fun s => (s, .ok)

inductive SetSlot
  | migrating (node : Name)
  | importing (node : Name)
  | stable
  | node (node : Name)

def Name.text (n : Name) : String := String.ofList (n.bytes.map fun c => Char.ofNat c.toNat)

/-- `CLUSTER SETSLOT <slot> NODE <node>`, the slot in range. -/
def setSlotNode (slot : Nat) (name : Name) : Except Fault (State × Reply) :=
  match clusterLookupNode s name with
  | none => .ok (s, .error ("Unknown node " ++ name.text))
  | some n =>
    if s.slots slot = some s.myself ∧ n ≠ s.myself ∧ s.keys slot ≠ 0 then
      .ok (s, .error (s!"Can't assign hashslot {slot} to a different node " ++
        "while I still hold keys for this hash slot."))
    else
      let s₁ :=
        if s.keys slot = 0 then { s with migratingSlotsTo := Function.update s.migratingSlotsTo slot none } else s
      let s₂ :=
        if n = s₁.myself ∧ (s₁.importingSlotsFrom slot).isSome then
          let b := (clusterBumpConfigEpochWithoutConsensus s₁).2
          { b with importingSlotsFrom := Function.update b.importingSlotsFrom slot none }
        else s₁
      (clusterDelSlot s₂ slot).map fun d => ((clusterAddSlot d.2 n slot).2, .ok)

def setSlot (slot : Nat) (action : SetSlot) : Except Fault (State × Reply) :=
  if (s.mem s.myself).flags.slave then .ok (s, .error "Please use SETSLOT only with masters.")
  else if clusterSlots ≤ slot then .ok (s, .error "Invalid or out of range slot")
  else
    match action with
    | .migrating name =>
      if s.slots slot ≠ some s.myself then .ok (s, .error s!"I'm not the owner of hash slot {slot}")
      else
        match clusterLookupNode s name with
        | none => .ok (s, .error ("I don't know about node " ++ name.text))
        | some n => .ok ({ s with migratingSlotsTo := Function.update s.migratingSlotsTo slot (some n) }, .ok)
    | .importing name =>
      if s.slots slot = some s.myself then .ok (s, .error s!"I'm already the owner of hash slot {slot}")
      else
        match clusterLookupNode s name with
        | none => .ok (s, .error ("I don't know about node " ++ name.text))
        | some n => .ok ({ s with importingSlotsFrom := Function.update s.importingSlotsFrom slot (some n) }, .ok)
    | .stable =>
      .ok ({ s with
        importingSlotsFrom := Function.update s.importingSlotsFrom slot none
        migratingSlotsTo := Function.update s.migratingSlotsTo slot none }, .ok)
    | .node name => setSlotNode s slot name

def forget (s : State) (name : Name) : Except Fault (State × Reply) :=
  match clusterLookupNode s name with
  | none => .ok (s, .error ("Unknown node " ++ name.text))
  | some n =>
    if n = s.myself then .ok (s, .error "I tried hard but I can't forget myself...")
    else if (s.mem s.myself).flags.slave ∧ (s.mem s.myself).slaveof = some n then
      .ok (s, .error "Can't forget my master!")
    else (clusterDelNode s n).map fun s => (s, .ok)

def replicate (s : State) (name : Name) : Except Fault (State × Reply) :=
  match clusterLookupNode s name with
  | none => .ok (s, .error ("Unknown node " ++ name.text))
  | some n =>
    if n = s.myself then .ok (s, .error "Can't replicate myself")
    else if (s.mem n).flags.slave then .ok (s, .error "I can only replicate a master, not a replica.")
    else if (s.mem s.myself).flags.master ∧ ((s.mem s.myself).numslots ≠ 0 ∨ s.dbSize ≠ 0) then
      .ok (s, .error "To set a master the node must be empty and without assigned slots.")
    else (clusterSetMaster s n).map fun s => (s, .ok)

def takeover : Except Fault (State × Reply) :=
  if (s.mem s.myself).flags.master then .ok (s, .error "You should send CLUSTER FAILOVER to a replica")
  else if (s.mem s.myself).slaveof = none then .ok (s, .error "I'm a replica but my master is unknown to me")
  else (clusterFailoverReplaceYourMaster (clusterBumpConfigEpochWithoutConsensus s).2).map fun s => (s, .ok)

def setConfigEpoch (epoch : UInt64) : State × Reply :=
  if s.nodes.entries.length > 1 then
    (s, .error "The user can assign a config epoch only when the node does not know any other node.")
  else if (s.mem s.myself).configEpoch ≠ 0 then (s, .error "Node config epoch is already non-zero")
  else
    let s₁ := s.modify s.myself fun n => { n with configEpoch := epoch }
    (if s₁.currentEpoch < epoch then { s₁ with currentEpoch := epoch } else s₁, .ok)

def renewMyself (newname : Name) : State :=
  let s₁ := { s with currentEpoch := 0, lastVoteEpoch := 0, nodes := s.nodes.erase (s.mem s.myself).name }
  let s₂ := s₁.modify s₁.myself fun n => { n with configEpoch := 0, name := newname }
  { s₂ with nodes := s₂.nodes.insert newname s₂.myself }

/-- `hard` holds the new name. -/
def clusterReset (hard : Option Name) : Except Fault State := do
  let s :=
    if (s.mem s.myself).flags.slave then { clusterSetNodeAsMaster s s.myself with keys := fun _ => 0, dbSize := 0 } else s
  let s ← forSlots (fun s j => (clusterDelSlot s j).map (·.2)) (clusterCloseAllSlots s)
  let s ← s.nodes.entries.foldlM (fun s e => if e.2 = s.myself then .ok s else clusterDelNode s e.2) s
  .ok (match hard with | none => s | some newname => renewMyself s newname)

def reset (hard : Option Name) : Except Fault (State × Reply) :=
  if (s.mem s.myself).flags.master ∧ s.dbSize ≠ 0 then
    .ok (s, .error "CLUSTER RESET can't be called with master nodes containing keys")
  else (clusterReset s hard).map fun s => (s, .ok)

def clusterHandshakeInProgress (ip : List UInt8) (port cport : Int) : Bool :=
  s.nodes.entries.any fun e =>
    (s.mem e.2).flags.handshake && Input.strcaseeq (s.mem e.2).ip ip && (s.mem e.2).port == port &&
      (s.mem e.2).cport == cport

/-- `false` is `EINVAL`. `ip` is the normal form of the address, if it is one. -/
def clusterStartHandshake (tempName : Name) (ip : Option Ip) (port cport : Int) : Bool × State :=
  match ip with
  | none => (false, s)
  | some ip =>
    if port ≤ 0 ∨ 65535 < port ∨ cport ≤ 0 ∨ 65535 < cport then (false, s)
    else if clusterHandshakeInProgress s ip.bytes port cport then (true, s)
    else
      (true, addNode s { createClusterNode tempName { handshake := true, meet := true } with
        ip := ip.bytes, port := port, cport := cport })

/-! ### The machine -/

inductive Op
  | addSlot (node : Name) (slot : Nat)
  | delSlot (slot : Nat)
  | delNodeSlots (node : Name)
  | addSlots (slots : List Nat)
  | delSlots (slots : List Nat)
  | flushSlots
  | setSlot (slot : Nat) (action : SetSlot)
  | ping (p : Ping)
  | update (hdr : Header) (nodename : Name) (epoch : UInt64) (slots : Bitmap)
  | fail (hdr : Header) (about : Name)
  | authRequest (hdr : Header) (forceAck late : Bool)
  | otherPacket (hdr : Header)
  | startHandshake (tempName : Name) (ip : Option Ip) (port cport : Int)
  | handshakeTimeout (node : Name)
  | forget (node : Name)
  | replicate (node : Name)
  | startElection
  | winElection (manual noFailover : Bool)
  | takeover
  | migrateTo (target : Name)
  | bumpEpoch
  | setConfigEpoch (epoch : UInt64)
  | reset (hard : Option Name)
  | markPfail (node : Name)
  | markFail (node : Name)
  | gossipAddress (node : Name) (ip : Ip) (port cport : UInt16)
  | linkState (node : Name) (link : Bool) (pingSent pongReceived : Nat)
  | keyspace (keys : Nat → Nat) (dbSize : Nat)

def withNode (name : Name) (f : Nat → Except Fault State) : Except Fault (State × Reply) :=
  match clusterLookupNode s name with
  | none => .ok (s, .none)
  | some n => (f n).map fun s => (s, .none)

def exec : Op → Except Fault (State × Reply)
  | .addSlot node slot =>
    withNode s node fun n => .ok (if slot < clusterSlots then (clusterAddSlot s n slot).2 else s)
  | .delSlot slot => (clusterDelSlot s slot).map fun r => (r.2, .none)
  | .delNodeSlots node => withNode s node (clusterDelNodeSlots s)
  | .addSlots slots => assignSlots s false slots
  | .delSlots slots => assignSlots s true slots
  | .flushSlots => flushSlots s
  | .setSlot slot action => setSlot s slot action
  | .ping p => (processPing s p).map fun s => (s, .none)
  | .update hdr nodename epoch slots => (processUpdate s hdr nodename epoch slots).map fun s => (s, .none)
  | .fail hdr about => .ok (processFail s hdr about, .none)
  | .authRequest hdr forceAck late => .ok (processAuthRequest s hdr forceAck late, .none)
  | .otherPacket hdr => .ok (updateEpochs s (clusterLookupNode s hdr.sender) hdr, .none)
  | .startHandshake tempName ip port cport =>
    let r := clusterStartHandshake s tempName ip port cport
    .ok (r.2, if r.1 then .ok else .error "Invalid node address specified")
  | .handshakeTimeout node =>
    withNode s node fun n =>
      if (s.mem n).flags.myself ∨ (s.mem n).flags.noaddr ∨ (s.mem n).flags.handshake = false then .ok s
      else clusterDelNode s n
  | .forget node => forget s node
  | .replicate node => replicate s node
  | .startElection =>
    if (s.mem s.myself).flags.master then .ok (s, .none)
    else .ok ({ s with currentEpoch := s.currentEpoch + 1, failoverAuthEpoch := s.currentEpoch + 1 }, .none)
  | .winElection manual noFailover => (winElection s manual noFailover).map fun s => (s, .none)
  | .takeover => takeover s
  | .migrateTo target => withNode s target (migrateTo s)
  | .bumpEpoch => .ok ((clusterBumpConfigEpochWithoutConsensus s).2, .ok)
  | .setConfigEpoch epoch => .ok (setConfigEpoch s epoch)
  | .reset hard => reset s hard
  | .markPfail node =>
    withNode s node fun n =>
      if (s.mem n).flags.myself ∨ (s.mem n).flags.noaddr ∨ (s.mem n).flags.handshake ∨ (s.mem n).flags.pfail ∨
          (s.mem n).flags.fail then .ok s
      else .ok (s.modifyFlags n fun f => { f with pfail := true })
  | .markFail node =>
    withNode s node fun n =>
      if (s.mem n).flags.pfail = false ∨ (s.mem n).flags.fail then .ok s
      else .ok (s.modifyFlags n fun f => { f with pfail := false, fail := true })
  | .gossipAddress node ip port cport =>
    withNode s node fun n =>
      if (s.mem n).flags.fail ∨ (s.mem n).flags.pfail then .ok (setAddress s n ip.bytes port.toNat cport.toNat) else .ok s
  | .linkState node link pingSent pongReceived =>
    withNode s node fun n =>
      .ok (s.modify n fun m => { m with link := link, pingSent := pingSent, pongReceived := pongReceived })
  | .keyspace keys dbSize => .ok ({ s with keys := keys, dbSize := dbSize }, .none)

/-- Without a configuration file: `name` is random, `port` the port for clients. -/
def clusterInit (name : Name) (port : UInt16) (noRedirection : Bool) : State where
  mem := fun _ =>
    { createClusterNode name { myself := true, master := true } with port := port.toNat, cport := port.toNat + 10000 }
  brk := 1
  nodes := AList.singleton name 0
  myself := 0
  slots := fun _ => none
  migratingSlotsTo := fun _ => none
  importingSlotsFrom := fun _ => none
  currentEpoch := 0
  lastVoteEpoch := 0
  failoverAuthEpoch := 0
  keys := fun _ => 0
  dbSize := 0
  noRedirection := noRedirection

/-- A node that starts without a configuration file; a failed assertion ends the run. -/
def machine (name : Name) (port : UInt16) (noRedirection : Bool) : Machine Op State Reply where
  init := clusterInit name port noRedirection
  step := fun op s => (exec s op).toOption

end Redis.ClusterTable
