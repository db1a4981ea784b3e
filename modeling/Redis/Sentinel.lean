import Mathlib.Algebra.Order.Ring.Int
import Mathlib.Data.List.Sort
import Mathlib.Logic.Function.Basic
import Redis.Lib.Machine

/-! # Sentinel: the election of the leader of a failover

`sentinelVoteLeader`, `sentinelGetLeader`, the messages by which a Sentinel asks for votes, and the start of
a failover. A Sentinel has one current epoch for all its masters. It votes for a master at most once in an
epoch, and writes its configuration file when it votes. The Sentinels of a master know each other. What sets
off a step (a master that is down, timers, connections) is left to the run. -/

namespace Redis.Sentinel

/-- `leader` and `leader_epoch`. No leader is NULL, and `*` in a reply. -/
structure Vote where
  leader : Option Nat
  leaderEpoch : Nat

inductive FailoverState
  | none
  | waitStart
  | selectSlave
deriving DecidableEq

structure Master where
  vote : Vote
  failoverState : FailoverState
  failoverEpoch : Nat
  sentinels : Nat → Vote

/-- The part of the configuration file that elections read back. -/
structure Saved where
  currentEpoch : Nat
  leaderEpoch : Nat → Nat

structure Node where
  currentEpoch : Nat
  masters : Nat → Master
  saved : Saved

structure Config where
  sentinels : Nat → List Nat
  nodup : ∀ m, (sentinels m).Nodup
  quorum : Nat → Nat → Nat

inductive Msg
  /-- `SENTINEL is-master-down-by-addr`, with a run id to ask for a vote. -/
  | request (sender receiver m epoch : Nat) (runid : Option Nat)
  | reply (sender receiver m : Nat) (vote : Vote)
  | hello (receiver currentEpoch : Nat)

/-- What an election did: a vote for a master in an epoch; a leader, with the votes it has counted for
itself and the epochs these are for. -/
inductive Event
  | voted (v m epoch leader : Nat)
  | elected (leader m epoch : Nat) (votes : List (Nat × Nat))
deriving DecidableEq

/-! ### One Sentinel -/

def Node.flush (nd : Node) : Node :=
  { nd with saved := ⟨nd.currentEpoch, fun m => (nd.masters m).vote.leaderEpoch⟩ }

def Node.setMaster (nd : Node) (m : Nat) (master : Master) : Node :=
  { nd with masters := Function.update nd.masters m master }

theorem setMaster_self (nd : Node) (m : Nat) (master : Master) : (nd.setMaster m master).masters m = master :=
  Function.update_self ..

/-- The epochs are `uint64_t`. -/
def nextEpoch (e : Nat) : Nat := (e + 1) % 2 ^ 64

/-- The first branch of `sentinelVoteLeader`; a hello message is handled the same way. -/
def Node.raiseEpoch (nd : Node) (epoch : Nat) : Node :=
  if nd.currentEpoch < epoch then Node.flush { nd with currentEpoch := epoch } else nd

/-- The vote of this Sentinel, a new one or the old one. -/
def sentinelVoteLeader (me m : Nat) (nd : Node) (reqEpoch reqRunid : Nat) : Node × Vote × List Event :=
  let nd := nd.raiseEpoch reqEpoch
  let master := nd.masters m
  if master.vote.leaderEpoch < reqEpoch ∧ nd.currentEpoch ≤ reqEpoch then
    let vote : Vote := ⟨some reqRunid, nd.currentEpoch⟩
    ((nd.setMaster m { master with vote := vote }).flush, vote, [.voted me m reqEpoch reqRunid])
  else (nd, master.vote, [])

/-- The counters with one more vote, and the new count. -/
def sentinelLeaderIncr (runid : Nat) : List (Nat × Nat) → List (Nat × Nat) × Nat
  | [] => ([(runid, 1)], 1)
  | p :: counters =>
    if p.1 = runid then ((runid, p.2 + 1) :: counters, p.2 + 1)
    else (p :: (sentinelLeaderIncr runid counters).1, (sentinelLeaderIncr runid counters).2)

variable (cfg : Config)

def Config.monitors (s m : Nat) : Bool := (cfg.sentinels m).contains s

def Config.others (me m : Nat) : List Nat := (cfg.sentinels m).filter fun v => decide (v ≠ me)

/-- The leaders that the other Sentinels have reported for the current epoch. -/
def Node.reported (me m : Nat) (nd : Node) : List Nat :=
  (cfg.others me m).filterMap fun v =>
    if ((nd.masters m).sentinels v).leaderEpoch = nd.currentEpoch then ((nd.masters m).sentinels v).leader
    else none

def countVotes (leaders : List Nat) : List (Nat × Nat) :=
  leaders.foldl (fun counters runid => (sentinelLeaderIncr runid counters).1) []

/-- The first counter with the greatest number of votes. -/
def mostVotes (counters : List (Nat × Nat)) : Nat × Option Nat :=
  counters.foldl (fun best p => if best.1 < p.2 then (p.2, some p.1) else best) (0, none)

/-- The vote of this Sentinel is counted when it is for the epoch. -/
def countOwn (counters : List (Nat × Nat)) (best : Nat × Option Nat) (epoch : Nat) (myvote : Vote) : Nat × Option Nat :=
  match myvote.leader with
  | none => best
  | some runid =>
    if myvote.leaderEpoch = epoch then
      let votes := (sentinelLeaderIncr runid counters).2
      if best.1 < votes then (votes, some runid) else best
    else best

/-- The counters are a dict, visited in some order: here by `rank`. -/
def sentinelGetLeader (me m : Nat) (rank : Nat → Nat) (nd : Node) (epoch : Nat) :
    Option Nat × Node × Vote × List Event :=
  let counters := countVotes (nd.reported cfg me m)
  let best := mostVotes (counters.insertionSort fun p q => rank p.1 ≤ rank q.1)
  let r := sentinelVoteLeader me m nd epoch (best.2.getD me)
  let best := countOwn counters best epoch r.2.1
  let votersQuorum := ((cfg.others me m).length + 1) / 2 + 1
  (if best.1 < votersQuorum ∨ best.1 < cfg.quorum me m then none else best.2, r)

/-- The votes that `sentinelGetLeader` counts for a leader: who voted, and for which epoch. -/
def votesFor (me m : Nat) (nd : Node) (epoch : Nat) (myvote : Vote) (leader : Nat) : List (Nat × Nat) :=
  ((cfg.others me m).filter fun v =>
      decide (((nd.masters m).sentinels v).leaderEpoch = nd.currentEpoch ∧
        ((nd.masters m).sentinels v).leader = some leader)).map
    (fun v => (v, ((nd.masters m).sentinels v).leaderEpoch)) ++
  if myvote.leader = some leader ∧ myvote.leaderEpoch = epoch then [(me, myvote.leaderEpoch)] else []

def Node.setState (nd : Node) (m : Nat) (st : FailoverState) : Node :=
  nd.setMaster m { nd.masters m with failoverState := st }

def sentinelStartFailover (m : Nat) (nd : Node) : Node :=
  let nd := { nd with currentEpoch := nextEpoch nd.currentEpoch }
  nd.setMaster m { nd.masters m with failoverState := .waitStart, failoverEpoch := nd.currentEpoch }

/-- When the failover was not forced. -/
def sentinelFailoverWaitStart (me m : Nat) (rank : Nat → Nat) (timeout : Bool) (nd : Node) : Node × List Event :=
  let epoch := (nd.masters m).failoverEpoch
  let r := sentinelGetLeader cfg me m rank nd epoch
  if r.1 = some me then
    (r.2.1.setState m .selectSlave, r.2.2.2 ++ [.elected me m epoch (votesFor cfg me m nd epoch r.2.2.1 me)])
  else if timeout then (r.2.1.setState m .none, r.2.2.2)
  else (r.2.1, r.2.2.2)

/-- A request of `sentinelAskMasterStateToOtherSentinels`. -/
def Node.ask (nd : Node) (me m receiver : Nat) : Msg :=
  .request me receiver m nd.currentEpoch (if (nd.masters m).failoverState = .none then none else some me)

/-- Sets what a Sentinel has heard of the vote of another one. -/
def Node.setView (nd : Node) (m v : Nat) (vote : Vote) : Node :=
  nd.setMaster m { nd.masters m with sentinels := Function.update (nd.masters m).sentinels v vote }

/-- `sentinelResetMaster`, which keeps `leader_epoch` (and, when a master changes its address, the other
Sentinels). -/
def sentinelResetMaster (m : Nat) (nd : Node) : Node :=
  nd.setMaster m { nd.masters m with
    vote := ⟨none, (nd.masters m).vote.leaderEpoch⟩, failoverState := .none }

/-- A Sentinel starts from its configuration file, which may hold a `config-epoch`. -/
def Node.restart (nd : Node) (configEpoch : Nat) : Node :=
  ⟨max nd.saved.currentEpoch configEpoch,
    fun m => ⟨⟨none, nd.saved.leaderEpoch m⟩, .none, 0, fun _ => ⟨none, 0⟩⟩, nd.saved⟩

/-- A message arrives. The epoch of a request is read as a `long long`: on an error there is no vote, and
the other side ignores the reply. -/
def receive (nd : Node) : Msg → Node × List Msg × List Event
  | .request sender receiver m epoch runid =>
    if 2 ^ 63 ≤ epoch then (nd, [], [])
    else match runid with
      | none => (nd, [.reply receiver sender m ⟨none, 0⟩], [])
      | some id =>
        let r := sentinelVoteLeader receiver m nd epoch id
        (r.1, [.reply receiver sender m r.2.1], r.2.2)
  -- `sentinelReceiveIsMasterDownReply`
  | .reply sender _ m vote => (if vote.leader = none then nd else nd.setView m sender vote, [], [])
  | .hello _ epoch => (nd.raiseEpoch epoch, [], [])

/-! ### All the Sentinels -/

structure State where
  nodes : Nat → Node
  net : List Msg

inductive Op
  | startFailover (s m : Nat)
  | ask (s m receiver : Nat)
  | forget (s m v : Nat)
  | failoverWaitStart (s m : Nat) (rank : Nat → Nat) (timeout : Bool)
  | endFailover (s m : Nat)
  | resetMaster (s m : Nat)
  | hello (s receiver : Nat)
  | flush (s : Nat)
  | restart (s configEpoch : Nat)
  | deliver (i : Nat)
  | lose (i : Nat)

def Msg.receiver : Msg → Nat
  | .request _ receiver _ _ _ => receiver
  | .reply _ receiver _ _ => receiver
  | .hello receiver _ => receiver

def State.handle (s : State) (n : Nat) (r : Node × List Msg × List Event) : State × List Event :=
  (⟨Function.update s.nodes n r.1, s.net ++ r.2.1⟩, r.2.2)

/-- The step of one Sentinel for a master that it monitors. -/
def masterStep (nd : Node) (s m : Nat) : Op → Node × List Msg × List Event
  | .startFailover _ _ =>
    (if (nd.masters m).failoverState = .none then sentinelStartFailover m nd else nd, [], [])
  | .ask _ _ receiver => (nd, if (cfg.others s m).contains receiver then [nd.ask s m receiver] else [], [])
  | .forget _ _ v => (nd.setView m v ⟨none, ((nd.masters m).sentinels v).leaderEpoch⟩, [], [])
  | .failoverWaitStart _ _ rank timeout =>
    if (nd.masters m).failoverState = .waitStart then
      let r := sentinelFailoverWaitStart cfg s m rank timeout nd
      (r.1, [], r.2)
    else (nd, [], [])
  | .endFailover _ _ =>
    (if (nd.masters m).failoverState = .selectSlave then nd.setState m .none else nd, [], [])
  | .resetMaster _ _ => (sentinelResetMaster m nd, [], [])
  | _ => (nd, [], [])

def step (op : Op) (s : State) : State × List Event :=
  let onMaster (n m : Nat) :=
    if cfg.monitors n m then s.handle n (masterStep cfg (s.nodes n) n m op) else (s, [])
  match op with
  | .startFailover n m => onMaster n m
  | .ask n m _ => onMaster n m
  | .forget n m _ => onMaster n m
  | .failoverWaitStart n m _ _ => onMaster n m
  | .endFailover n m => onMaster n m
  | .resetMaster n m => onMaster n m
  | .hello n receiver => s.handle n (s.nodes n, [.hello receiver (s.nodes n).currentEpoch], [])
  | .flush n => s.handle n ((s.nodes n).flush, [], [])
  | .restart n configEpoch => s.handle n ((s.nodes n).restart configEpoch, [], [])
  | .deliver i =>
    match s.net[i]? with
    | none => (s, [])
    | some msg => State.handle { s with net := s.net.eraseIdx i } msg.receiver (receive (s.nodes msg.receiver) msg)
  | .lose i => ({ s with net := s.net.eraseIdx i }, [])

def State.init : State :=
  ⟨fun _ => ⟨0, fun _ => ⟨⟨none, 0⟩, .none, 0, fun _ => ⟨none, 0⟩⟩, ⟨0, fun _ => 0⟩⟩, []⟩

def machine : Machine Op State (List Event) := ⟨.init, fun op s => some (step cfg op s)⟩

end Redis.Sentinel
