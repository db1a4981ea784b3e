import Redis.Lib.Machine
import Redis.Listpack

/-! # The output buffers of a client

Replies go to a static buffer and, once that is full, to a list of blocks (`networking.c`). The length
of an array that is not known yet is kept free by a list node without a block. `write` may accept any
part of what it is offered; `sentlen` counts the bytes already sent of the buffer or of the first block.
The client is one that accepts replies: `prepareClientToWrite` returns `C_OK`. -/

namespace Redis

def protoReplyChunkBytes : Nat := 16 * 1024

def netMaxWritesPerEvent : Nat := 1024 * 64

/-- `clientReplyBlock`, with its first `used` bytes. -/
structure ReplyBlock where
  size : Nat
  data : List UInt8
  fits : data.length ≤ size

/-- A node of the list `reply`: its address and its block, or none for a placeholder. -/
abbrev ReplyNode := Nat × Option ReplyBlock

/-- The fields of a client that hold its output; `buf` are the first `bufpos` bytes of the static buffer
and `fresh` is the address of the next list node. -/
structure ReplyClient where
  buf : List UInt8
  bufFits : buf.length ≤ protoReplyChunkBytes
  sentlen : Nat
  reply : List ReplyNode
  replyBytes : Nat
  fresh : Nat

def createClient : ReplyClient := ⟨[], Nat.zero_le _, 0, [], 0, 0⟩

variable (c : ReplyClient)

def clientHasPendingReplies : Bool :=
  decide (0 < c.buf.length) || decide (0 < c.reply.length)

def ReplyClient.addNode (b : Option ReplyBlock) : ReplyClient :=
  { c with reply := c.reply ++ [(c.fresh, b)], fresh := c.fresh + 1 }

/-! ### Appending -/

/-- `_addReplyToBuffer`; none is `C_ERR`. -/
def addReplyToBuffer (s : List UInt8) : Option ReplyClient :=
  if c.reply.length > 0 then none
  else if h : s.length > protoReplyChunkBytes - c.buf.length then none
  else
    some { c with
      buf := c.buf ++ s
      bufFits := by have := c.bufFits; rw [List.length_append]; omega }

def ReplyBlock.copy (b : ReplyBlock) (len : Nat) : Nat :=
  let avail := b.size - b.data.length
  if avail ≥ len then len else avail

theorem ReplyBlock.copy_le (b : ReplyBlock) (len : Nat) : b.data.length + b.copy len ≤ b.size := by
  have := b.fits
  unfold copy
  dsimp only
  split <;> omega

def ReplyBlock.extend (b : ReplyBlock) (s : List UInt8) : ReplyBlock where
  size := b.size
  data := b.data ++ s.take (b.copy s.length)
  fits := by
    have := b.copy_le s.length
    rw [List.length_append, List.length_take]
    omega

def fillTail (s : List UInt8) : ReplyClient × List UInt8 :=
  match c.reply.getLast? with
  | some (i, some tail) =>
    ({ c with reply := c.reply.dropLast ++ [(i, some (tail.extend s))] }, s.drop (tail.copy s.length))
  | _ => (c, s)

/-- A block allocated for `s`: the allocator gives `slack` bytes more than the `size` it is asked for. -/
def ReplyBlock.alloc (s : List UInt8) (size slack : Nat) (h : s.length ≤ size) : ReplyBlock :=
  ⟨size + slack, s, Nat.le_add_right_of_le h⟩

/-- A new node for `s`, of at least `PROTO_REPLY_CHUNK_BYTES` bytes. -/
def addTail (s : List UInt8) (slack : Nat) : ReplyClient :=
  let size := if s.length < protoReplyChunkBytes then protoReplyChunkBytes else s.length
  let tail := ReplyBlock.alloc s size slack (by dsimp only [size]; split <;> omega)
  { c.addNode (some tail) with replyBytes := c.replyBytes + tail.size }

def addReplyStringToList (s : List UInt8) (slack : Nat) : ReplyClient :=
  let (c, s) := fillTail c s
  if s.length = 0 then c else addTail c s slack

def addReplyString (s : List UInt8) (slack : Nat) : ReplyClient :=
  match addReplyToBuffer c s with
  | some c => c
  | none => addReplyStringToList c s slack

/-- The list with a placeholder, and its node. -/
def addDeferredMultiBulkLength : ReplyClient × Nat := (c.addNode none, c.fresh)

def multiBulkHeader (length : Int) : List UInt8 := 42 :: (lltoa length ++ [13, 10])

def ReplyBlock.glue (b : ReplyBlock) (lenstr : List UInt8) (h : b.size - b.data.length ≥ lenstr.length) :
    ReplyBlock where
  size := b.size
  data := lenstr ++ b.data
  fits := by
    have := b.fits
    rw [List.length_append]
    omega

/-- A placeholder `i` is filled: the nodes from it on, and the growth of `reply_bytes`. The header is put
in front of the next block if that has room and is not too long. -/
def fillPlaceholder (i : Nat) (lenstr : List UInt8) (slack : Nat) : List ReplyNode → List ReplyNode × Nat
  | (j, some next) :: rest =>
    if h : next.size - next.data.length ≥ lenstr.length ∧ next.data.length < protoReplyChunkBytes * 4 then
      ((j, some (next.glue lenstr h.1)) :: rest, 0)
    else
      ((i, some (.alloc lenstr lenstr.length slack le_rfl)) :: (j, some next) :: rest, lenstr.length + slack)
  | rest => ((i, some (.alloc lenstr lenstr.length slack le_rfl)) :: rest, lenstr.length + slack)

/-- The list with the node filled. A node that is not in the list or was filled before is a fault. -/
def fillNode (node : Nat) (lenstr : List UInt8) (slack : Nat) : List ReplyNode → Option (List ReplyNode × Nat)
  | [] => none
  | (i, b) :: rest =>
    if i = node then
      if b.isSome then none else some (fillPlaceholder i lenstr slack rest)
    else (fillNode node lenstr slack rest).map fun r => ((i, b) :: r.1, r.2)

def setDeferredMultiBulkLength (node : Nat) (length : Int) (slack : Nat) : Option ReplyClient :=
  (fillNode node (multiBulkHeader length) slack c.reply).map fun r =>
    { c with reply := r.1, replyBytes := c.replyBytes + r.2 }

/-! ### Writing -/

/-- What the system does at one turn of the loop of `writeToClient`: `write` accepts `accepted + 1` bytes,
or as many as it is offered, or fails with `EAGAIN`; `yields` tells that the memory limit and the kind of
client let the loop stop after `NET_MAX_WRITES_PER_EVENT` bytes. -/
structure WriteTurn where
  accepted : Option Nat
  yields : Bool

def WriteTurn.take (t : WriteTurn) (offered : List UInt8) : Option (List UInt8) :=
  t.accepted.map fun n => offered.take (n + 1)

/-- The first block was sent. The assertion of the source is a fault. -/
def dropFirstBlock (size : Nat) : Option ReplyClient :=
  let c := { c with reply := c.reply.tail, replyBytes := c.replyBytes - size, sentlen := 0 }
  if c.reply.length = 0 ∧ c.replyBytes ≠ 0 then none else some c

/-- One `write`: the client after it, the bytes sent, and none if the call failed. A placeholder that is
not filled is a fault. -/
def writeOnce (t : WriteTurn) (c : ReplyClient) : Option (Option (ReplyClient × List UInt8)) :=
  if c.buf.length > 0 then
    match t.take (c.buf.drop c.sentlen) with
    | none => some none
    | some d =>
      if c.sentlen + d.length = c.buf.length then
        some (some ({ c with buf := [], bufFits := Nat.zero_le _, sentlen := 0 }, d))
      else some (some ({ c with sentlen := c.sentlen + d.length }, d))
  else
    match c.reply with
    | (_, some o) :: _ =>
      match t.take (o.data.drop c.sentlen) with
      | none => some none
      | some d =>
        if c.sentlen + d.length = o.data.length then (dropFirstBlock c o.size).map fun c => some (c, d)
        else some (some ({ c with sentlen := c.sentlen + d.length }, d))
    | _ => none

def emptyFirstBlock : Option Nat :=
  match c.buf, c.reply with
  | [], (_, some o) :: _ => if o.data.length = 0 then some o.size else none
  | _, _ => none

/-- The loop of `writeToClient`, with a bound on its turns; the `write` calls beyond the given turns fail. -/
def writeLoop : Nat → List WriteTurn → ReplyClient → Nat → Option (ReplyClient × List UInt8)
  | 0, _, _, _ => none
  | fuel + 1, turns, c, totwritten =>
    if !clientHasPendingReplies c then some (c, [])
    else
      match emptyFirstBlock c with
      | some size =>
        writeLoop fuel turns { c with reply := c.reply.tail, replyBytes := c.replyBytes - size } totwritten
      | none =>
        match turns with
        | [] => some (c, [])
        | t :: turns => do
          let r ← writeOnce t c
          match r with
          | none => some (c, [])
          | some (c, d) =>
            let totwritten := totwritten + d.length
            if totwritten > netMaxWritesPerEvent && t.yields then some (c, d)
            else do
              let (c, d') ← writeLoop fuel turns c totwritten
              some (c, d ++ d')

/-- The client and the bytes that went to the socket. -/
def writeToClient (turns : List WriteTurn) : Option (ReplyClient × List UInt8) := do
  let (c, d) ← writeLoop (turns.length + c.reply.length + 1) turns c 0
  if !clientHasPendingReplies c then some ({ c with sentlen := 0 }, d) else some (c, d)

/-! ### The client as a machine -/

inductive ReplyOp
  | add (s : List UInt8) (slack : Nat)
  | defer
  | setDeferred (node : Nat) (length : Int) (slack : Nat)
  | write (turns : List WriteTurn)

inductive ReplyResult
  | done
  | node (i : Nat)
  | sent (d : List UInt8)
  deriving DecidableEq

def replyStep : ReplyOp → ReplyClient → Option (ReplyClient × ReplyResult)
  | .add s slack, c => some (addReplyString c s slack, .done)
  | .defer, c => some ((addDeferredMultiBulkLength c).1, .node (addDeferredMultiBulkLength c).2)
  | .setDeferred node length slack, c => (setDeferredMultiBulkLength c node length slack).map (·, .done)
  | .write turns, c => (writeToClient c turns).map fun r => (r.1, .sent r.2)

def replyMachine : Machine ReplyOp ReplyClient ReplyResult := ⟨createClient, replyStep⟩

end Redis
