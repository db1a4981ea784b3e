import Redis.Lib.Machine
import Redis.Ziplist

/-! # The query buffer of a client

The input path of `networking.c`: `readQueryFromClient` appends what one `read(2)` returned to
`querybuf`, and `processInputBuffer` parses requests from the position `qb_pos` on and hands each
one to `processCommand`. A client record holds, next to the fields of the source, what the path
has done so far: the argument vectors handed over and the protocol errors replied. -/

namespace Redis.Input

def protoIobufLen : Nat := 1024 * 16
def protoInlineMaxSize : Nat := 1024 * 64
def protoMbulkBigArg : Nat := 1024 * 32

/-- On a string whose NUL terminator follows the list. -/
def strchr (ch : UInt8) : List UInt8 → Option Nat
  | [] => none
  | b :: bs => if b = ch then some 0 else if b = 0 then none else (strchr ch bs).map (· + 1)

theorem strchr_eq_none {ch : UInt8} {l : List UInt8} (h : ch ∉ l) : strchr ch l = none := by
  induction l with
  | nil => rfl
  | cons b l ih =>
    rw [List.mem_cons, not_or] at h
    rw [strchr, if_neg (Ne.symm h.1), ih h.2]
    split <;> rfl

theorem strchr_append {ch : UInt8} {l : List UInt8} (r : List UInt8) (h : ch ∉ l) (h0 : (0 : UInt8) ∉ l) :
    strchr ch (l ++ ch :: r) = some l.length := by
  induction l with
  | nil => simp [strchr]
  | cons b l ih =>
    rw [List.mem_cons, not_or] at h h0
    rw [List.cons_append, strchr, if_neg (Ne.symm h.1), if_neg (Ne.symm h0.1), ih h.2 h0.2]
    rfl

/-- The part of a string that the functions on C strings see. -/
def cstr (s : List UInt8) : List UInt8 := s.takeWhile (· ≠ 0)

def tolower (c : UInt8) : UInt8 := if 65 ≤ c.toNat ∧ c.toNat ≤ 90 then c + 32 else c

def isspace (c : UInt8) : Bool := decide (c = 32 ∨ 9 ≤ c.toNat ∧ c.toNat ≤ 13)

def strcaseeq (a b : List UInt8) : Bool := decide ((cstr a).map tolower = (cstr b).map tolower)

/-! ### The client -/

inductive ReqType
  | unknown
  | inline
  | multibulk
deriving DecidableEq, Repr

/-- The client flags that the input path reads, with the two server-wide conditions it reads. -/
structure Flags where
  master : Bool := false
  slave : Bool := false
  blocked : Bool := false
  blockedModule : Bool := false
  closeAfterReply : Bool := false
  closeAsap : Bool := false
  multi : Bool := false
  clientsArePaused : Bool := false
  luaTimedout : Bool := false
deriving DecidableEq, Repr

/-- One of the `break`s at the head of the loop of `processInputBuffer` is taken. -/
def Flags.stops (f : Flags) : Bool :=
  (!f.slave && f.clientsArePaused) || f.blocked || (f.luaTimedout && f.master) ||
    (f.closeAfterReply || f.closeAsap)

inductive ProtocolError
  | tooBigMbulkCount
  | invalidMbulkLength
  | tooBigBulkCount
  | expectedDollar (got : UInt8)
  | invalidBulkLength
  | tooBigInline
  | unbalancedQuotes
deriving DecidableEq, Repr

structure Client where
  querybuf : List UInt8 := []
  qbPos : Nat := 0
  reqtype : ReqType := .unknown
  multibulklen : Nat := 0
  bulklen : Int := -1
  argv : List (List UInt8) := []
  flags : Flags := {}
  reploff : Int := 0
  readReploff : Int := 0
  pendingQuerybuf : List UInt8 := []
  forwarded : List UInt8 := []
  handed : List (List (List UInt8)) := []
  errors : List ProtocolError := []
  freed : Bool := false
deriving DecidableEq, Repr

/-- The limits of the configuration, and what the execution of a request does to the flags: `none`
when it frees the client. It depends on the requests handed over before. -/
structure Config where
  protoMaxBulkLen : Nat
  clientMaxQuerybufLen : Nat
  call : List (List (List UInt8)) → List (List UInt8) → Flags → Option Flags
  bulkLen_lt : protoMaxBulkLen < 2 ^ 63

variable (cfg : Config) (c : Client)

namespace Client

def unparsed : List UInt8 := c.querybuf.drop c.qbPos

def protocolError (e : ProtocolError) : Client :=
  { c with errors := c.errors ++ [e], flags := { c.flags with closeAfterReply := true } }

def resetClient : Client :=
  { c with argv := [], reqtype := .unknown, multibulklen := 0, bulklen := -1 }

/-- `sdsrange(c->querybuf,c->qb_pos,-1)` and `qb_pos = 0`. -/
def trim : Client := { c with querybuf := c.unparsed, qbPos := 0 }

end Client

/-- How a parsing function ends: `C_OK`, `C_ERR`, or going on with what follows. -/
inductive Parsed
  | ok
  | err
  | go
deriving DecidableEq, Repr

/-! ### Inline requests -/

/-- Inside which quotes `sdssplitargs` is. -/
inductive Quote
  | plain
  | double
  | single
deriving DecidableEq, Repr

def isHexDigit (c : UInt8) : Bool :=
  decide (48 ≤ c.toNat ∧ c.toNat ≤ 57 ∨ 97 ≤ c.toNat ∧ c.toNat ≤ 102 ∨ 65 ≤ c.toNat ∧ c.toNat ≤ 70)

def hexDigitToInt (c : UInt8) : Nat :=
  if c.toNat ≤ 57 then c.toNat - 48 else if 97 ≤ c.toNat then c.toNat - 87 else c.toNat - 55

/-- The `switch` on the character after a backslash. -/
def unescape (c : UInt8) : UInt8 :=
  if c = 110 then 10 else if c = 114 then 13 else if c = 116 then 9 else if c = 98 then 8
  else if c = 97 then 7 else c

/-- A closing quote is followed by a space or by nothing. -/
def closesToken : List UInt8 → Bool
  | [] => true
  | c :: _ => isspace c

/-- The inner loop of `sdssplitargs`, on a line without NUL: the token and what follows it. -/
def splitToken : Quote → List UInt8 → List UInt8 → Option (List UInt8 × List UInt8)
  | .double, current, 92 :: 120 :: a :: b :: p =>
    if isHexDigit a && isHexDigit b then
      splitToken .double (current ++ [UInt8.ofNat (hexDigitToInt a * 16 + hexDigitToInt b)]) p
    else splitToken .double (current ++ [120]) (a :: b :: p)
  | .double, current, 92 :: e :: p => splitToken .double (current ++ [unescape e]) p
  | .double, current, 34 :: p => if closesToken p then some (current, p) else none
  | .double, _, [] => none
  | .double, current, b :: p => splitToken .double (current ++ [b]) p
  | .single, current, 92 :: 39 :: p => splitToken .single (current ++ [39]) p
  | .single, current, 39 :: p => if closesToken p then some (current, p) else none
  | .single, _, [] => none
  | .single, current, b :: p => splitToken .single (current ++ [b]) p
  | .plain, current, [] => some (current, [])
  | .plain, current, b :: p =>
    if b = 32 ∨ b = 10 ∨ b = 13 ∨ b = 9 then some (current, p)
    else if b = 34 then splitToken .double current p
    else if b = 39 then splitToken .single current p
    else splitToken .plain (current ++ [b]) p

/-- The outer loop of `sdssplitargs`, with room for `fuel` tokens. -/
def splitArgs : Nat → List UInt8 → Option (List (List UInt8))
  | 0, _ => none
  | fuel + 1, line =>
    match line.dropWhile isspace with
    | [] => some []
    | p =>
      match splitToken .plain [] p with
      | none => none
      | some (token, rest) => (splitArgs fuel rest).map (token :: ·)

def sdssplitargs (line : List UInt8) : Option (List (List UInt8)) :=
  splitArgs ((cstr line).length + 1) (cstr line)

def processInlineBuffer : Parsed × Client :=
  match strchr 10 c.unparsed with
  | none =>
    if c.unparsed.length > protoInlineMaxSize then (.err, c.protocolError .tooBigInline) else (.err, c)
  | some newline =>
    -- the CR of a CRLF belongs to the line feed characters
    let cr := decide (newline ≠ 0 ∧ c.unparsed[newline - 1]? = some 13)
    let querylen := if cr then newline - 1 else newline
    match sdssplitargs (c.unparsed.take querylen) with
    | none => (.err, c.protocolError .unbalancedQuotes)
    | some argv => (.ok, { c with qbPos := c.qbPos + newline + 1, argv := argv.filter (· ≠ []) })

/-! ### Multi bulk requests -/

/-- The search for a header line, made for the multi bulk length and for each bulk length. -/
inductive Line
  | tooBig
  | wait
  | found (newline : Nat)
deriving DecidableEq, Repr

def findLine (u : List UInt8) : Line :=
  match strchr 13 u with
  | none => if u.length > protoInlineMaxSize then .tooBig else .wait
  | some newline => if (newline : Int) > (u.length : Int) - 2 then .wait else .found newline

/-- The number in a header line that ends at `newline`. -/
def lineNumber (u : List UInt8) (newline : Nat) : Option Int := string2ll ((u.take newline).drop 1)

/-- `processMultibulkBuffer` while `multibulklen` is zero. -/
def readMultibulkLen : Option (Parsed × Client) :=
  if c.argv ≠ [] then none
  else
    match findLine c.unparsed with
    | .tooBig => some (.err, c.protocolError .tooBigMbulkCount)
    | .wait => some (.err, c)
    | .found newline =>
      if c.unparsed.head? ≠ some 42 then none
      else
        match lineNumber c.unparsed newline with
        | none => some (.err, c.protocolError .invalidMbulkLength)
        | some ll =>
          if ll > 1024 * 1024 then some (.err, c.protocolError .invalidMbulkLength)
          else if ll ≤ 0 then some (.ok, { c with qbPos := c.qbPos + newline + 2 })
          else some (.go, { c with qbPos := c.qbPos + newline + 2, multibulklen := ll.toNat })

/-- The bulk length, in the loop of `processMultibulkBuffer`. -/
def readBulkLen : Parsed × Client :=
  if c.bulklen ≠ -1 then (.go, c)
  else
    match findLine c.unparsed with
    | .tooBig => (.err, c.protocolError .tooBigBulkCount)
    | .wait => (.err, c)
    | .found newline =>
      if c.unparsed.head? ≠ some 36 then (.err, c.protocolError (.expectedDollar (c.unparsed.headD 0)))
      else
        match lineNumber c.unparsed newline with
        | none => (.err, c.protocolError .invalidBulkLength)
        | some ll =>
          if ll < 0 ∨ ll > cfg.protoMaxBulkLen then (.err, c.protocolError .invalidBulkLength)
          else
            let c := { c with qbPos := c.qbPos + newline + 2 }
            -- a big argument is made to start at the buffer's first byte
            let c := if ll ≥ protoMbulkBigArg ∧ (c.unparsed.length : Int) ≤ ll + 2 then c.trim else c
            (.go, { c with bulklen := ll })

/-- The bulk itself, in the loop of `processMultibulkBuffer`. -/
def readBulkArg : Parsed × Client :=
  if (c.unparsed.length : Int) < c.bulklen + 2 then (.err, c)
  else if c.qbPos = 0 ∧ c.bulklen ≥ protoMbulkBigArg ∧ (c.querybuf.length : Int) = c.bulklen + 2 then
    -- the buffer itself becomes the argument, without its CRLF, and a new one takes its place
    (.go, { c with
      argv := c.argv ++ [c.querybuf.take (c.querybuf.length - 2)], querybuf := []
      bulklen := -1, multibulklen := c.multibulklen - 1 })
  else
    (.go, { c with
      argv := c.argv ++ [c.unparsed.take c.bulklen.toNat], qbPos := c.qbPos + c.bulklen.toNat + 2
      bulklen := -1, multibulklen := c.multibulklen - 1 })

/-- The loop of `processMultibulkBuffer`, over the arguments left to read. -/
def readArgs (cfg : Config) : Nat → Client → Parsed × Client
  | 0, c => (.ok, c)
  | n + 1, c =>
    match readBulkLen cfg c with
    | (.go, c) =>
      match readBulkArg c with
      | (.go, c) => readArgs cfg n c
      | r => r
    | r => r

def processMultibulkBuffer : Option (Parsed × Client) :=
  if c.multibulklen = 0 then
    match readMultibulkLen c with
    | some (.go, c) => some (readArgs cfg c.multibulklen c)
    | r => r
  else some (readArgs cfg c.multibulklen c)

/-! ### The loop over requests -/

def quitName : List UInt8 := [113, 117, 105, 116]

def processCommand : Parsed × Client :=
  let c' := { c with handed := c.handed ++ [c.argv] }
  if strcaseeq (c.argv.headD []) quitName then
    (.err, { c' with flags := { c.flags with closeAfterReply := true } })
  else
    match cfg.call c.handed c.argv c.flags with
    | none => (.err, { c' with freed := true })
    | some flags => (.ok, { c' with flags := flags })

def Client.setReploff : Client :=
  if c.flags.master && !c.flags.multi then { c with reploff := c.readReploff - c.querybuf.length + c.qbPos } else c

/-- What `processInputBuffer` does after a request that returned `C_OK`. -/
def afterCommand : Client :=
  if !c.flags.blocked || !c.flags.blockedModule then c.setReploff.resetClient else c.setReploff

def Client.setReqType : Client :=
  if c.reqtype = .unknown then
    { c with reqtype := if c.unparsed.head? = some 42 then .multibulk else .inline }
  else c

def processRequest : Option (Parsed × Client) :=
  if c.reqtype = .inline then some (processInlineBuffer c) else processMultibulkBuffer cfg c

/-- The loop of `processInputBuffer`. -/
def processInputLoop (cfg : Config) : Nat → Client → Option Client
  | 0, _ => none
  | fuel + 1, c =>
    if c.querybuf.length ≤ c.qbPos then some c
    else if c.flags.stops then some c
    else
      match processRequest cfg c.setReqType with
      | none => none
      | some (.err, c) => some c
      | some (_, c) =>
        if c.argv = [] then processInputLoop cfg fuel c.resetClient
        else
          match processCommand cfg c with
          | (.ok, c) => processInputLoop cfg fuel (afterCommand c)
          | (_, c) => if c.freed then some c else processInputLoop cfg fuel c

/-- Every turn of the loop that goes on consumes a byte. -/
def processInputBuffer : Option Client :=
  (processInputLoop cfg (c.unparsed.length + 1) c).map fun c => if c.freed then c else c.trim

def processInputBufferAndReplicate : Option Client :=
  if c.flags.master then
    (processInputBuffer cfg c).map fun c' =>
      let applied := (c'.reploff - c.reploff).toNat
      { c' with
        forwarded := c'.forwarded ++ c'.pendingQuerybuf.take applied
        pendingQuerybuf := c'.pendingQuerybuf.drop applied }
  else processInputBuffer cfg c

/-! ### Reads -/

def readlen : Nat :=
  if c.reqtype = .multibulk ∧ c.multibulklen ≠ 0 ∧ c.bulklen ≠ -1 ∧ c.bulklen ≥ protoMbulkBigArg then
    let remaining := c.bulklen + 2 - c.querybuf.length
    if 0 < remaining ∧ remaining < protoIobufLen then remaining.toNat else protoIobufLen
  else protoIobufLen

/-- A client and the bytes of its connection that are not read yet. -/
structure State where
  client : Client
  socket : List UInt8
deriving DecidableEq, Repr

/-- What `read(2)` meets: no data, an error, the end of the connection, or `n` bytes at hand. -/
inductive Op
  | again
  | error
  | closed
  | data (n : Nat)
deriving DecidableEq, Repr

/-- The bytes one `read(2)` returns. -/
def State.chunk (s : State) (n : Nat) : List UInt8 := s.socket.take (min n (readlen s.client))

def State.free (s : State) : State := { s with client := { s.client with freed := true } }

def Client.append (bytes : List UInt8) : Client :=
  { c with
    querybuf := c.querybuf ++ bytes
    pendingQuerybuf := if c.flags.master then c.pendingQuerybuf ++ bytes else c.pendingQuerybuf
    readReploff := if c.flags.master then c.readReploff + bytes.length else c.readReploff }

/-- A read that finds no byte returns `EAGAIN`. -/
def readQueryFromClient (s : State) : Op → Option State
  | .again => some s
  | .error => some s.free
  | .closed => some s.free
  | .data n =>
    if s.chunk n = [] then some s
    else
      let t : State := ⟨s.client.append (s.chunk n), s.socket.drop (s.chunk n).length⟩
      if t.client.querybuf.length > cfg.clientMaxQuerybufLen then some t.free
      else (processInputBufferAndReplicate cfg t.client).map fun c => { t with client := c }

/-- The reads of one connection, which ends when the client is freed. -/
def machine (flags : Flags) (input : List UInt8) : Machine Op State Unit where
  init := ⟨{ flags := flags }, input⟩
  step op s := if s.client.freed then some (s, ()) else (readQueryFromClient cfg s op).map (·, ())

end Redis.Input
