import Mathlib.Algebra.Order.Ring.Int
import Redis.Lib.Machine
import Redis.Lib.Ring

/-! # The replication backlog

A master keeps the end of its replication stream in a circular buffer (`replication.c`). The stream is
numbered by `master_repl_offset`, the number of its last byte; a replica that lost its link asks with
PSYNC for everything from some number on. The specification is the stream itself with the place where
the current buffer was started. -/

namespace Redis

/-! ### The source -/

/-- The fields of `server` that the backlog works with. -/
structure ReplServer where
  replBacklog : Option (List UInt8)
  replBacklogSize : Nat
  replBacklogHistlen : Nat
  replBacklogIdx : Nat
  replBacklogOff : Int
  masterReplOffset : Int
  replid : List UInt8
  replid2 : List UInt8
  secondReplidOffset : Int

def configReplBacklogMinSize : Nat := 1024 * 16

def configDefaultReplBacklogSize : Nat := 1024 * 1024

/-- The memory holds whatever was there. -/
def zmalloc (junk : Nat → UInt8) (n : Nat) : List UInt8 := (List.range n).map junk

variable (s : ReplServer)

/-- A new empty buffer: virtually its first byte is the next one of the stream. -/
def ReplServer.emptyBacklog (junk : Nat → UInt8) : ReplServer :=
  { s with
    replBacklog := some (zmalloc junk s.replBacklogSize)
    replBacklogHistlen := 0
    replBacklogIdx := 0
    replBacklogOff := s.masterReplOffset + 1 }

def createReplicationBacklog (junk : Nat → UInt8) : Option ReplServer :=
  if s.replBacklog.isSome then none else some (s.emptyBacklog junk)

/-- The old contents are dropped. -/
def resizeReplicationBacklog (newsize : Int) (junk : Nat → UInt8) : ReplServer :=
  let newsize := if newsize < configReplBacklogMinSize then configReplBacklogMinSize else newsize.toNat
  if s.replBacklogSize = newsize then s
  else
    let s := { s with replBacklogSize := newsize }
    if s.replBacklog.isSome then s.emptyBacklog junk else s

/-- Called when there are no replicas. -/
def freeReplicationBacklog : ReplServer := { s with replBacklog := none }

/-- The loop of `feedReplicationBacklog` with its buffer, index and history length. Every turn copies at
least one byte, so that it needs no more turns than there are bytes. -/
def feedLoop (size : Nat) : Nat → List UInt8 → List UInt8 → Nat → Nat → Option (List UInt8 × Nat × Nat)
  | _, [], buf, idx, histlen => some (buf, idx, histlen)
  | 0, _ :: _, _, _, _ => none
  | fuel + 1, b :: p, buf, idx, histlen => do
    let thislen := if size - idx > (b :: p).length then (b :: p).length else size - idx
    let buf ← blit buf idx ((b :: p).take thislen)
    let idx := if idx + thislen = size then 0 else idx + thislen
    feedLoop size fuel ((b :: p).drop thislen) buf idx (histlen + thislen)

def feedReplicationBacklog (p : List UInt8) : Option ReplServer := do
  let buf ← s.replBacklog
  let (buf, idx, histlen) ← feedLoop s.replBacklogSize p.length p buf s.replBacklogIdx s.replBacklogHistlen
  let masterReplOffset := s.masterReplOffset + p.length
  let histlen := if histlen > s.replBacklogSize then s.replBacklogSize else histlen
  some { s with
    replBacklog := some buf
    replBacklogHistlen := histlen
    replBacklogIdx := idx
    replBacklogOff := masterReplOffset - histlen + 1
    masterReplOffset := masterReplOffset }

/-- The loop of `addReplyReplicationBacklog`: two parts if the data cross the end of the buffer. -/
def addReplyBacklogLoop (buf : List UInt8) (size : Int) : Nat → Int → Int → Option (List UInt8)
  | 0, _, len => if len = 0 then some [] else none
  | fuel + 1, j, len =>
    if len = 0 then some []
    else
      let thislen := if size - j < len then size - j else len
      if j < 0 ∨ thislen < 0 then none
      else do
        let part ← slice buf j.toNat thislen.toNat
        let rest ← addReplyBacklogLoop buf size fuel 0 (len - thislen)
        some (part ++ rest)

/-- The bytes it sends and the number it returns. -/
def addReplyReplicationBacklog (offset : Int) : Option (List UInt8 × Int) :=
  if s.replBacklogHistlen = 0 then some ([], 0)
  else do
    let buf ← s.replBacklog
    let size : Int := s.replBacklogSize
    let skip := offset - s.replBacklogOff
    let j := ((s.replBacklogIdx : Int) + (size - s.replBacklogHistlen)).tmod size
    let j := (j + skip).tmod size
    let len := (s.replBacklogHistlen : Int) - skip
    let bytes ← addReplyBacklogLoop buf size 2 j len
    some (bytes, (s.replBacklogHistlen : Int) - skip)

def strcaseEq (a b : List UInt8) : Bool :=
  let lower := fun c : UInt8 => if 65 ≤ c ∧ c ≤ 90 then c + 32 else c
  decide ((a.takeWhile (· ≠ 0)).map lower = (b.takeWhile (· ≠ 0)).map lower)

inductive PsyncReply
  | fullResync
  | closed
  | continue (header : List UInt8) (sent : List UInt8) (len : Int)
  deriving DecidableEq

def asciiBytes (s : String) : List UInt8 := s.toList.map fun c => c.toNat.toUInt8

def continueHeader (psync2 : Bool) : List UInt8 :=
  if psync2 then asciiBytes "+CONTINUE " ++ s.replid ++ asciiBytes "\r\n" else asciiBytes "+CONTINUE\r\n"

/-- The replication ID a replica names is this server's, or its previous one up to the offset where it
was replaced. -/
def replidMatches (masterReplid : List UInt8) (psyncOffset : Int) : Bool :=
  !(!strcaseEq masterReplid s.replid &&
    (!strcaseEq masterReplid s.replid2 || decide (psyncOffset > s.secondReplidOffset)))

/-- The offset is none if the argument is not a number; `wrote` tells
whether the socket took the whole header. -/
def masterTryPartialResynchronization (masterReplid : List UInt8) (psyncOffset : Option Int)
    (psync2 wrote : Bool) : Option PsyncReply :=
  match psyncOffset with
  | none => some .fullResync
  | some offset =>
    if !replidMatches s masterReplid offset then some .fullResync
    else if s.replBacklog.isNone || decide (offset < s.replBacklogOff) ||
        decide (offset > s.replBacklogOff + s.replBacklogHistlen) then some .fullResync
    else if !wrote then some .closed
    else do
      let (sent, len) ← addReplyReplicationBacklog s offset
      some (.continue (continueHeader s psync2) sent len)

/-! ### The server as a machine -/

/-- The calls; the callers feed a backlog only if there is one, and create one only if there is none. -/
inductive ReplOp
  | feed (p : List UInt8)
  | create (junk : Nat → UInt8)
  | resize (newsize : Int) (junk : Nat → UInt8)
  | free
  | psync (masterReplid : List UInt8) (psyncOffset : Option Int) (psync2 wrote : Bool)

def replStep : ReplOp → ReplServer → Option (ReplServer × Option PsyncReply)
  | .feed p, s => if s.replBacklog.isSome then (feedReplicationBacklog s p).map (·, none) else some (s, none)
  | .create junk, s =>
    if s.replBacklog.isNone then (createReplicationBacklog s junk).map (·, none) else some (s, none)
  | .resize newsize junk, s => some (resizeReplicationBacklog s newsize junk, none)
  | .free, s => some (freeReplicationBacklog s, none)
  | .psync masterReplid psyncOffset psync2 wrote, s =>
    (masterTryPartialResynchronization s masterReplid psyncOffset psync2 wrote).map fun r => (s, some r)

/-- The server as `initServerConfig` leaves it, at any place of the replication stream. -/
def replInit (masterReplOffset : Int) (replid replid2 : List UInt8) (secondReplidOffset : Int) : ReplServer :=
  ⟨none, configDefaultReplBacklogSize, 0, 0, 0, masterReplOffset, replid, replid2, secondReplidOffset⟩

def replMachine (init : ReplServer) : Machine ReplOp ReplServer (Option PsyncReply) := ⟨init, replStep⟩

end Redis
