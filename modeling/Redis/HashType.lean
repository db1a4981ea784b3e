import Redis.DictIter
import Redis.ZiplistOps

/-! # Hash objects (`t_hash.c`)

A hash is a ziplist of alternating fields and values or a hash table. The models of both are the ones
the other modules prove facts about. A failed assertion and a panic are faults (`none`). The flags of
`hashTypeSet` only say who frees the two strings, and are left out. -/

namespace Redis

abbrev Sds := List UInt8

/-- The options that the hash type reads, and whether hash tables may be resized. -/
structure HashConfig where
  hashMaxZiplistEntries : Nat
  hashMaxZiplistValue : Nat
  canResize : Bool

inductive HashObj
  | ziplist (zl : Ziplist)
  | ht (d : Dict Sds Sds)

def createHashObject : HashObj := .ziplist ziplistNew

/-- A 64-bit number goes through the division once at most. -/
def digits10 : Nat → Nat → Nat
  | 0, _ => 0
  | fuel + 1, v =>
    if v < 10 then 1
    else if v < 100 then 2
    else if v < 1000 then 3
    else if v < 1000000000000 then
      if v < 100000000 then
        if v < 1000000 then
          if v < 10000 then 4 else 5 + (if v ≥ 100000 then 1 else 0)
        else 7 + (if v ≥ 10000000 then 1 else 0)
      else if v < 10000000000 then 9 + (if v ≥ 1000000000 then 1 else 0)
      else 11 + (if v ≥ 100000000000 then 1 else 0)
    else 12 + digits10 fuel (v / 1000000000000)

def sdigits10 (v : Int) : Nat :=
  if v < 0 then digits10 2 (if v ≠ -2 ^ 63 then (-v).toNat else 2 ^ 63) + 1 else digits10 2 v.toNat

/-! ### Iteration -/

inductive HashIterator
  | ziplist (fptr vptr : Option Nat)
  | ht (di : DictIterator Sds Sds) (de : Option (DictEntry Sds Sds))

inductive HashPart
  | key
  | value
  deriving DecidableEq

def hashTypeInitIterator : HashObj → HashIterator
  | .ziplist _ => .ziplist none none
  | .ht _ => .ht dictGetIterator none

/-- The field pointer behind the cursor of a ziplist iterator. -/
def hashTypeAdvance (zl : Ziplist) : Option Nat → Option Nat → Option (Option Nat)
  | none, none => some (ziplistIndex zl 0)
  | some _, some vptr => some (ziplistNext zl vptr)
  | _, _ => none

/-- `true` is `C_OK`. -/
def hashTypeNext : HashObj → HashIterator → Option (HashIterator × Bool)
  | .ziplist zl, .ziplist fptr vptr =>
    match hashTypeAdvance zl fptr vptr with
    | none => none
    | some none => some (.ziplist fptr vptr, false)
    | some (some fptr) =>
      match ziplistNext zl fptr with
      | none => none
      | some vptr => some (.ziplist (some fptr) (some vptr), true)
  | .ht d, .ht di _ =>
    match dictNext d di with
    | none => none
    | some (di, none) => some (.ht di none, false)
    | some (di, some de) => some (.ht di (some de), true)
  | _, _ => none

/-- A string of the hash table comes with its length cut to an `unsigned int`. -/
def hashTypeCurrentObject : HashObj → HashIterator → HashPart → Option ZlValue
  | .ziplist zl, .ziplist fptr _, .key => fptr.bind (ziplistGet zl)
  | .ziplist zl, .ziplist _ vptr, .value => vptr.bind (ziplistGet zl)
  | .ht _, .ht _ de, .key => de.map fun e => .str (ziplistArg e.key)
  | .ht _, .ht _ de, .value => de.bind fun e => e.val.map fun v => .str (ziplistArg v)
  | _, _, _ => none

def hashTypeCurrentObjectNewSds (o : HashObj) (hi : HashIterator) (what : HashPart) : Option Sds :=
  (hashTypeCurrentObject o hi what).map ZlValue.bytes

def hashTypeLength : HashObj → Nat
  | .ziplist zl => ziplistLen zl / 2
  | .ht d => dictSize d

def hashTypeEntriesLoop (o : HashObj) : Nat → HashIterator → Option (List (Sds × Sds))
  | 0, _ => none
  | fuel + 1, hi =>
    match hashTypeNext o hi with
    | none => none
    | some (_, false) => some []
    | some (hi, true) => do
      let key ← hashTypeCurrentObjectNewSds o hi .key
      let value ← hashTypeCurrentObjectNewSds o hi .value
      let rest ← hashTypeEntriesLoop o fuel hi
      some ((key, value) :: rest)

def hashTypeEntries (o : HashObj) : Option (List (Sds × Sds)) :=
  hashTypeEntriesLoop o (hashTypeLength o + 1) (hashTypeInitIterator o)

def hashTypeFindField (zl : Ziplist) (field : Sds) : Option Nat :=
  (ziplistIndex zl 0).bind fun fptr => ziplistFind zl fptr (ziplistArg field) 1

def hashTypeGetFromZiplist (zl : Ziplist) (field : Sds) : Option (Option ZlValue) :=
  match hashTypeFindField zl field with
  | none => some none
  | some fptr =>
    match ziplistNext zl fptr with
    | none => none
    | some vptr => (ziplistGet zl vptr).map some

def ziplistValueLength : ZlValue → Nat
  | .str vstr => vstr.length
  | .int vll => sdigits10 vll

section

variable (hash : Sds → BitVec 64)

/-- With the table after the lookup. -/
def hashTypeGetFromHashTable (d : Dict Sds Sds) (field : Sds) : Option (Dict Sds Sds × Option Sds) :=
  match dictFind hash d field with
  | none => none
  | some (d, none) => some (d, none)
  | some (d, some de) => (dictDeref d de).map fun e => (d, e.val)

def hashTypeGetValue : HashObj → Sds → Option (HashObj × Option ZlValue)
  | .ziplist zl, field => (hashTypeGetFromZiplist zl field).map fun v => (.ziplist zl, v)
  | .ht d, field =>
    (hashTypeGetFromHashTable hash d field).map fun (d, v) => (.ht d, v.map fun v => .str (ziplistArg v))

def hashTypeGetValueLength : HashObj → Sds → Option (HashObj × Nat)
  | .ziplist zl, field => (hashTypeGetFromZiplist zl field).map fun v => (.ziplist zl, v.elim 0 ziplistValueLength)
  | .ht d, field => (hashTypeGetFromHashTable hash d field).map fun (d, v) => (.ht d, v.elim 0 List.length)

def hashTypeExists : HashObj → Sds → Option (HashObj × Bool)
  | .ziplist zl, field => (hashTypeGetFromZiplist zl field).map fun v => (.ziplist zl, v.isSome)
  | .ht d, field => (hashTypeGetFromHashTable hash d field).map fun (d, v) => (.ht d, v.isSome)

/-! ### Conversion -/

def hashTypeConvertLoop (cfg : HashConfig) (o : HashObj) : Nat → HashIterator → Dict Sds Sds → Option (Dict Sds Sds)
  | 0, _, _ => none
  | fuel + 1, hi, d =>
    match hashTypeNext o hi with
    | none => none
    | some (_, false) => some d
    | some (hi, true) => do
      let key ← hashTypeCurrentObjectNewSds o hi .key
      let value ← hashTypeCurrentObjectNewSds o hi .value
      match ← dictAdd hash cfg.canResize d key value with
      | (d, .ok) => hashTypeConvertLoop cfg o fuel hi d
      -- "Ziplist corruption detected"
      | (_, .err) => none

variable (cfg : HashConfig)

/-- To `OBJ_ENCODING_HT`. -/
def hashTypeConvert : HashObj → Option HashObj
  | .ziplist zl =>
    (hashTypeConvertLoop hash cfg (.ziplist zl) (hashTypeLength (.ziplist zl) + 1)
      (hashTypeInitIterator (.ziplist zl)) dictCreate).map .ht
  | .ht _ => none

/-- On the arguments that are encoded as `sds`. -/
def hashTypeTryConversion (argv : List Sds) : HashObj → Option HashObj
  | .ziplist zl =>
    if argv.any fun a => decide (a.length > cfg.hashMaxZiplistValue) then hashTypeConvert hash cfg (.ziplist zl)
    else some (.ziplist zl)
  | .ht d => some (.ht d)

/-! ### Changes -/

/-- The check that `hashTypeSet` makes after a change of the ziplist. -/
def hashTypeCheckEntries (zl : Ziplist) : Option HashObj :=
  if hashTypeLength (.ziplist zl) > cfg.hashMaxZiplistEntries then hashTypeConvert hash cfg (.ziplist zl)
  else some (.ziplist zl)

/-- `true` is an update. -/
def hashTypeSet : HashObj → Sds → Sds → Option (HashObj × Bool)
  | .ziplist zl, field, value =>
    match hashTypeFindField zl field with
    | some fptr =>
      match ziplistNext zl fptr with
      | none => none
      | some vptr => do
        let zl ← ziplistDelete zl vptr
        let zl ← ziplistInsert zl vptr (ziplistArg value)
        let o ← hashTypeCheckEntries hash cfg zl
        some (o, true)
    | none => do
      let zl ← ziplistPush zl (ziplistArg field) .tail
      let zl ← ziplistPush zl (ziplistArg value) .tail
      let o ← hashTypeCheckEntries hash cfg zl
      some (o, false)
  | .ht d, field, value =>
    match dictFind hash d field with
    | none => none
    | some (d, some de) => some (.ht (dictSetVal d de value), true)
    -- The result of `dictAdd` is not looked at.
    | some (d, none) => (dictAdd hash cfg.canResize d field value).map fun (d, _) => (.ht d, false)

def htNeedsResize (d : Dict Sds Sds) : Bool :=
  let size := d.ht0.size + d.ht1.size
  decide (size > dictHtInitialSize) && decide (dictSize d * 100 / size < 10)

def hashTypeDelete : HashObj → Sds → Option (HashObj × Bool)
  | .ziplist zl, field =>
    match hashTypeFindField zl field with
    | some fptr => do
      let zl ← ziplistDelete zl fptr
      let zl ← ziplistDelete zl fptr
      some (.ziplist zl, true)
    | none => some (.ziplist zl, false)
  | .ht d, field =>
    match dictDelete hash d field with
    | none => none
    | some (d, .ok) => some (.ht (if htNeedsResize d then (dictResize cfg.canResize d).1 else d), true)
    | some (d, .err) => some (.ht d, false)

/-! ### The machine -/

inductive HashOp
  | set (cfg : HashConfig) (field value : Sds)
  | delete (cfg : HashConfig) (field : Sds)
  | getValue (field : Sds)
  | getValueLength (field : Sds)
  | fieldExists (field : Sds)
  | entries
  | tryConversion (cfg : HashConfig) (argv : List Sds)

inductive HashReply
  | flag (b : Bool)
  | value (v : Option Sds)
  | length (n : Nat)
  | pairs (ps : List (Sds × Sds))
  | unit

def hashStep : HashOp → HashObj → Option (HashObj × HashReply)
  | .set cfg field value, o => (hashTypeSet hash cfg o field value).map fun (o, b) => (o, .flag b)
  | .delete cfg field, o => (hashTypeDelete hash cfg o field).map fun (o, b) => (o, .flag b)
  | .getValue field, o => (hashTypeGetValue hash o field).map fun (o, v) => (o, .value (v.map ZlValue.bytes))
  | .getValueLength field, o => (hashTypeGetValueLength hash o field).map fun (o, n) => (o, .length n)
  | .fieldExists field, o => (hashTypeExists hash o field).map fun (o, b) => (o, .flag b)
  | .entries, o => (hashTypeEntries o).map fun ps => (o, .pairs ps)
  | .tryConversion cfg argv, o => (hashTypeTryConversion hash cfg argv o).map fun o => (o, .unit)

def hashMachine : Machine HashOp HashObj HashReply := ⟨createHashObject, hashStep hash⟩

end

end Redis
