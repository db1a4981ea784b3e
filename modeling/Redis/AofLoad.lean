import Redis.QueryParse
import Redis.Strtol

/-! # Loading the append only file (`aof.c`)

The file is a list of bytes, read through the buffered reads of the C library with their end-of-file
indicator; reading, truncating and seeking succeed. The dataset and the execution of commands are
parameters. `loadAppendOnlyFile` returns the dataset and the file it leaves behind, or nothing when
the server exits. -/

namespace Redis.Aof

abbrev Cmd := List (List UInt8)

/-! ### Files -/

/-- An open file: the bytes that are left and the end-of-file indicator. -/
structure File where
  rest : List UInt8
  eof : Bool
  deriving DecidableEq

def line : Nat → List UInt8 → List UInt8
  | 0, _ => []
  | _ + 1, [] => []
  | n + 1, b :: bs => if b = 10 then [b] else b :: line n bs

def fgets (f : File) : Option (List UInt8) × File :=
  let buf := line 127 f.rest
  if buf = [] then (none, { f with eof := true })
  else
    let short := decide (buf.length < 127) && decide (buf.getLast? ≠ some 10)
    (some buf, ⟨f.rest.drop buf.length, f.eof || short⟩)

/-- `fread(buf,len,1,fp)`; `none` is 0. -/
def fread (len : Nat) (f : File) : Option (List UInt8) × File :=
  if len ≤ f.rest.length then (some (f.rest.take len), { f with rest := f.rest.drop len })
  else (none, ⟨[], true⟩)

/-! ### Commands -/

/-- How reading goes on: with a value, or at one of the labels `readerr` and `fmterr`. -/
inductive Parsed (α : Type)
  | value (a : α) (f : File)
  | readerr (f : File)
  | fmterr

def Parsed.bind {α β : Type} : Parsed α → (α → File → Parsed β) → Parsed β
  | value a f, g => g a f
  | readerr f, _ => readerr f
  | fmterr, _ => fmterr

/-- An argument: the line with its length, its bytes and the line end behind them. -/
def readArg (f : File) : Parsed (List UInt8) :=
  match fgets f with
  | (none, f) => .readerr f
  | (some buf, f) =>
    if buf.head? ≠ some 36 then .fmterr
    else
      let len := ((strtoll (buf.drop 1)).1 % 2 ^ 64).toNat
      match if len = 0 then (some [], f) else fread len f with
      | (none, f) => .readerr f
      | (some arg, f) =>
        match fread 2 f with
        | (none, f) => .readerr f
        | (some _, f) => .value arg f

def readArgs : Nat → File → Parsed Cmd
  | 0, f => .value [] f
  | n + 1, f => (readArg f).bind fun arg f => (readArgs n f).bind fun args f => .value (arg :: args) f

def atoi (s : List UInt8) : Int := ((strtoll s).1 + 2 ^ 31) % 2 ^ 32 - 2 ^ 31

/-- A command from its first line on; no command at the end of the file. -/
def readCommand (f : File) : Parsed (Option Cmd) :=
  match fgets f with
  | (none, f) => if f.eof then .value none f else .readerr f
  | (some buf, f) =>
    if buf.head? ≠ some 42 then .fmterr
    else if (buf.drop 1).headD 0 = 0 then .readerr f
    else if atoi (buf.drop 1) < 1 then .fmterr
    else (readArgs (atoi (buf.drop 1)).toNat f).bind fun argv f => .value (some argv) f

/-! ### The fake client -/

inductive Proc
  | multi
  | exec
  | other
  deriving DecidableEq

/-- The rest of the server: the empty dataset, the names of the other commands, what these do, the RDB
loader with the number of bytes it reads, and the option `aof-load-truncated`. -/
structure Server (σ : Type) where
  init : σ
  known : List UInt8 → Bool
  call : σ → Cmd → σ
  rdbLoadRio : List UInt8 → Option (σ × Nat)
  aofLoadTruncated : Bool

structure Client (σ : Type) where
  data : σ
  multi : Bool
  commands : List Cmd

variable {σ : Type} (srv : Server σ)

def lookupCommand (name : List UInt8) : Option Proc :=
  if name.map Input.tolower = [109, 117, 108, 116, 105] then some .multi
  else if name.map Input.tolower = [101, 120, 101, 99] then some .exec
  else if srv.known name then some .other
  else none

def execCommand (c : Client σ) : Client σ :=
  if c.multi then ⟨c.commands.foldl srv.call c.data, false, []⟩ else c

def runCommand (c : Client σ) (proc : Proc) (cmd : Cmd) : Client σ :=
  if c.multi && proc ≠ .exec then
    -- `queueMultiCommand`
    { c with commands := c.commands ++ [cmd] }
  else
    match proc with
    | .multi => { c with multi := true }
    | .exec => execCommand srv c
    | .other => { c with data := srv.call c.data cmd }

/-! ### The loader -/

structure Loader (σ : Type) where
  client : Client σ
  file : File
  validUpTo : Nat
  validBeforeMulti : Nat

inductive Exit
  | eof
  | readerr
  | fmterr
  | unknown
  | fuel
  deriving DecidableEq

/-- The loop over the commands of a file of `size` bytes. Each turn reads at least one byte. -/
def loadLoop (size : Nat) : Nat → Loader σ → Loader σ × Exit
  | 0, l => (l, .fuel)
  | fuel + 1, l =>
    match readCommand l.file with
    | .readerr f => ({ l with file := f }, .readerr)
    | .fmterr => (l, .fmterr)
    | .value none f => ({ l with file := f }, .eof)
    | .value (some cmd) f =>
      match lookupCommand srv (cmd.headD []) with
      | none => (l, .unknown)
      | some proc =>
        loadLoop size fuel
          { client := runCommand srv l.client proc cmd
            file := f
            -- `ftello`
            validUpTo := if srv.aofLoadTruncated then size - f.rest.length else l.validUpTo
            validBeforeMulti := if proc = .multi then l.validUpTo else l.validBeforeMulti }

inductive Ret
  | ok
  | err
  deriving DecidableEq

def unexpectedEof (file : List UInt8) (l : Loader σ) (validUpTo : Nat) : Option (Ret × σ × List UInt8) :=
  if srv.aofLoadTruncated then some (.ok, l.client.data, file.take validUpTo) else none

def afterLoop (file : List UInt8) : Loader σ × Exit → Option (Ret × σ × List UInt8)
  | (l, .eof) =>
    if l.client.multi then unexpectedEof srv file l l.validBeforeMulti else some (.ok, l.client.data, file)
  | (l, .readerr) => if l.file.eof then unexpectedEof srv file l l.validUpTo else none
  | _ => none

def loadAppendOnlyFile (file : List UInt8) : Option (Ret × σ × List UInt8) :=
  if file = [] then some (.err, srv.init, file)
  else
    match if file.take 5 = [82, 69, 68, 73, 83] then srv.rdbLoadRio file else some (srv.init, 0) with
    | none => none
    | some (data, n) =>
      afterLoop srv file
        (loadLoop srv file.length (file.length + 1) ⟨⟨data, false, []⟩, ⟨file.drop n, false⟩, 0, 0⟩)

end Redis.Aof
