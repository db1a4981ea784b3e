import Mathlib.Algebra.Order.Ring.Int
import Redis.Lib.Machine

/-! # The hash table (`dict.c`)

Two chained tables of power-of-two size, the second one live only while an incremental rehashing
moves the buckets of the first one over. A bucket is the list of its entries, a table that was
never allocated (`table == NULL`) is `[]` and has size 0, and a pointer to an entry is its place: table,
bucket and position in the chain. `zcalloc` hands out the bytes it is asked for, and their number is taken
modulo `2 ^ 64`: a table of `2 ^ 61` or more buckets gets none of them.

An operation returns `none` when the C function would fail an `assert`, follow a `NULL` pointer or
index a table outside its bounds. -/

namespace Redis

inductive DictRes
  | ok
  | err
deriving DecidableEq, Repr

/-- `dictEntry`. The value is `none` between the allocation and the first `dictSetVal`. -/
structure DictEntry (K V : Type) where
  key : K
  val : Option V
deriving DecidableEq, Repr

structure Dictht (K V : Type) where
  table : List (List (DictEntry K V))
  size : Nat
  sizemask : BitVec 64
  used : Nat
deriving DecidableEq, Repr

/-- `dict`; `rehashidx` is `none` for the source's `-1`. -/
structure Dict (K V : Type) where
  ht0 : Dictht K V
  ht1 : Dictht K V
  rehashidx : Option Nat
  iterators : Nat
deriving DecidableEq, Repr

/-- A `dictEntry *`. -/
structure EntryRef where
  second : Bool
  idx : Nat
  pos : Nat
deriving DecidableEq, Repr

/-- What `_dictKeyIndex` finds: a bucket for the key, the key itself, or (with `*existing == NULL`)
nothing because the table could not be expanded. -/
inductive KeyIndex
  | index (i : Nat)
  | found (e : EntryRef)
  | fail
deriving DecidableEq, Repr

def dictHtInitialSize : Nat := 4

def dictForceResizeRatio : Nat := 5

def longMax : Nat := 2 ^ 63 - 1

variable {K V : Type} [DecidableEq K]

def dictReset : Dictht K V := ⟨[], 0, 0, 0⟩

def dictCreate : Dict K V := ⟨dictReset, dictReset, none, 0⟩

def dictIsRehashing (d : Dict K V) : Bool := d.rehashidx.isSome

def dictSize (d : Dict K V) : Nat := d.ht0.used + d.ht1.used

def dictNextPowerLoop (size : Nat) : Nat → Nat → Nat
  | 0, i => i
  | fuel + 1, i => if size ≤ i then i else dictNextPowerLoop size fuel (i * 2)

/-- `_dictNextPower`. The loop doubles `4` at most 61 times before it passes `LONG_MAX`. -/
def dictNextPower (size : Nat) : Nat :=
  if longMax ≤ size then longMax + 1 else dictNextPowerLoop size 61 dictHtInitialSize

def dictExpand (d : Dict K V) (size : Nat) : Dict K V × DictRes :=
  if dictIsRehashing d = true ∨ size < d.ht0.used then (d, .err)
  else
    let realsize := dictNextPower size
    if realsize = d.ht0.size then (d, .err)
    else
      let buckets := realsize * 8 % 2 ^ 64 / 8
      let n : Dictht K V := ⟨List.replicate buckets [], realsize, BitVec.ofNat 64 (realsize - 1), 0⟩
      if d.ht0.size = 0 then ({ d with ht0 := n }, .ok)
      else ({ d with ht1 := n, rehashidx := some 0 }, .ok)

/-- The element count goes through an `int`. -/
def dictResize (canResize : Bool) (d : Dict K V) : Dict K V × DictRes :=
  if canResize = false ∨ dictIsRehashing d = true then (d, .err)
  else
    let minimal := Int.bmod d.ht0.used (2 ^ 32)
    let minimal := if minimal < dictHtInitialSize then (dictHtInitialSize : Int) else minimal
    dictExpand d minimal.toNat

/-- `_dictExpandIfNeeded`. The entries counted by `used` are allocated objects of 24 bytes, so
`used * 2` stays far below the range of `unsigned long`. -/
def dictExpandIfNeeded (canResize : Bool) (d : Dict K V) : Dict K V × DictRes :=
  if dictIsRehashing d = true then (d, .ok)
  else if d.ht0.size = 0 then dictExpand d dictHtInitialSize
  else if d.ht0.size ≤ d.ht0.used ∧
      (canResize = true ∨ dictForceResizeRatio < d.ht0.used / d.ht0.size) then
    dictExpand d (d.ht0.used * 2)
  else (d, .ok)

/-- Where the inner loop of `dictRehash` over empty buckets ends. -/
inductive SkipRes
  | fault
  | budget (idx : Nat)
  | found (idx emptyVisits : Nat)
deriving DecidableEq, Repr

/-- The loop `while (table[rehashidx] == NULL)` over the buckets from `rehashidx` on. -/
def dictRehashSkip : List (List (DictEntry K V)) → Nat → Nat → SkipRes
  | [], _, _ => .fault
  | [] :: bs, idx, emptyVisits =>
    if emptyVisits - 1 = 0 then .budget (idx + 1) else dictRehashSkip bs (idx + 1) (emptyVisits - 1)
  | (_ :: _) :: _, idx, emptyVisits => .found idx emptyVisits

def findPos (key : K) (chain : List (DictEntry K V)) : Option Nat :=
  chain.findIdx? fun e => decide (key = e.key)

def Dictht.setVal (t : Dictht K V) (idx pos : Nat) (v : V) : Dictht K V :=
  { t with table := t.table.modify idx fun chain => chain.modify pos fun e => { e with val := some v } }

def dictSetVal (d : Dict K V) (e : EntryRef) (v : V) : Dict K V :=
  if e.second then { d with ht1 := d.ht1.setVal e.idx e.pos v }
  else { d with ht0 := d.ht0.setVal e.idx e.pos v }

def dictDeref (d : Dict K V) (e : EntryRef) : Option (DictEntry K V) :=
  ((if e.second then d.ht1 else d.ht0).table[e.idx]?).bind fun chain => chain[e.pos]?

/-- `dictDisableResize` and `dictEnableResize` act on a global next to the table. -/
structure DictState (K V : Type) where
  dict : Dict K V
  canResize : Bool
deriving DecidableEq, Repr

section
variable (hash : K → BitVec 64) (canResize : Bool) (d : Dict K V)

def Dictht.bucketOf (t : Dictht K V) (key : K) : Nat := (hash key &&& t.sizemask).toNat

def Dictht.push (t : Dictht K V) (idx : Nat) (e : DictEntry K V) : Option (Dictht K V) :=
  match t.table[idx]? with
  | none => none
  | some chain => some { t with table := t.table.set idx (e :: chain), used := t.used + 1 }

/-- The loop of `dictRehash` over the entries of one bucket. -/
def dictRehashChain : List (DictEntry K V) → Dictht K V → Option (Dictht K V)
  | [], t => some t
  | de :: rest, t =>
    match t.push (t.bucketOf hash de.key) de with
    | none => none
    | some t' => dictRehashChain rest t'

def dictRehashFinish : Dict K V × Bool :=
  if d.ht0.used = 0 then ({ d with ht0 := d.ht1, ht1 := dictReset, rehashidx := none }, false)
  else (d, true)

/-- The main loop of `dictRehash`, at bucket `idx`. -/
def dictRehashLoop : Nat → Nat → Nat → Dict K V → Option (Dict K V × Bool)
  | 0, _, _, d => some (dictRehashFinish d)
  | n + 1, emptyVisits, idx, d =>
    if d.ht0.used = 0 then some (dictRehashFinish d)
    else if d.ht0.size ≤ idx then none
    else
      match dictRehashSkip (d.ht0.table.drop idx) idx emptyVisits with
      | .fault => none
      | .budget idx' => some ({ d with rehashidx := some idx' }, true)
      | .found idx' emptyVisits' =>
        match d.ht0.table[idx']? with
        | none => none
        | some chain =>
          match dictRehashChain hash chain d.ht1 with
          | none => none
          | some t =>
            dictRehashLoop n emptyVisits' (idx' + 1)
              { d with
                ht0 := { d.ht0 with table := d.ht0.table.set idx' [], used := d.ht0.used - chain.length }
                ht1 := t
                rehashidx := some (idx' + 1) }

/-- For the step counts `0 ≤ n` with `n * 10` in the range of `int`. -/
def dictRehash (n : Nat) : Option (Dict K V × Bool) :=
  match d.rehashidx with
  | none => some (d, false)
  | some idx => dictRehashLoop hash n (n * 10) idx d

def dictRehashStep : Option (Dict K V) :=
  if d.iterators = 0 then (dictRehash hash d 1).map Prod.fst else some d

def dictRehashStepIf : Option (Dict K V) :=
  if dictIsRehashing d = true then dictRehashStep hash d else some d

/-- The `table` loop that the lookups share: search the key's bucket of the first table and, while
rehashing, of the second one. -/
def dictLookup (key : K) : Option (Option EntryRef) :=
  match d.ht0.table[d.ht0.bucketOf hash key]? with
  | none => none
  | some chain =>
    match findPos key chain with
    | some pos => some (some ⟨false, d.ht0.bucketOf hash key, pos⟩)
    | none =>
      if dictIsRehashing d = false then some none
      else
        match d.ht1.table[d.ht1.bucketOf hash key]? with
        | none => none
        | some chain =>
          match findPos key chain with
          | some pos => some (some ⟨true, d.ht1.bucketOf hash key, pos⟩)
          | none => some none

def dictKeyIndex (key : K) : Option (Dict K V × KeyIndex) :=
  match dictExpandIfNeeded canResize d with
  | (d, .err) => some (d, .fail)
  | (d, .ok) =>
    match dictLookup hash d key with
    | none => none
    | some (some e) => some (d, .found e)
    | some none =>
      some (d, .index (if dictIsRehashing d then d.ht1.bucketOf hash key else d.ht0.bucketOf hash key))

/-- The new entry, if any, and `*existing`. -/
def dictAddRaw (key : K) : Option (Dict K V × Option EntryRef × Option EntryRef) :=
  match dictRehashStepIf hash d with
  | none => none
  | some d =>
    match dictKeyIndex hash canResize d key with
    | none => none
    | some (d, .found e) => some (d, none, some e)
    | some (d, .fail) => some (d, none, none)
    | some (d, .index i) =>
      if dictIsRehashing d then
        (d.ht1.push i ⟨key, none⟩).map fun t => ({ d with ht1 := t }, some ⟨true, i, 0⟩, none)
      else
        (d.ht0.push i ⟨key, none⟩).map fun t => ({ d with ht0 := t }, some ⟨false, i, 0⟩, none)

def dictAdd (key : K) (v : V) : Option (Dict K V × DictRes) :=
  match dictAddRaw hash canResize d key with
  | none => none
  | some (d, none, _) => some (d, .err)
  | some (d, some e, _) => some (dictSetVal d e v, .ok)

/-- `true` if the key was added from scratch. -/
def dictReplace (key : K) (v : V) : Option (Dict K V × Bool) :=
  match dictAddRaw hash canResize d key with
  | none => none
  | some (d, some e, _) => some (dictSetVal d e v, true)
  | some (d, none, some e) => some (dictSetVal d e v, false)
  | some (_, none, none) => none

def dictAddOrFind (key : K) : Option (Dict K V × Option EntryRef) :=
  (dictAddRaw hash canResize d key).map fun (d, entry, existing) => (d, entry.or existing)

def Dictht.unlink (t : Dictht K V) (idx pos : Nat) : Dictht K V :=
  { t with table := t.table.modify idx fun chain => chain.eraseIdx pos, used := t.used - 1 }

/-- With and without `nofree` it leaves the same table. -/
def dictGenericDelete (key : K) : Option (Dict K V × Option (DictEntry K V)) :=
  if d.ht0.used = 0 ∧ d.ht1.used = 0 then some (d, none)
  else
    match dictRehashStepIf hash d with
    | none => none
    | some d =>
      match dictLookup hash d key with
      | none => none
      | some none => some (d, none)
      | some (some e) =>
        match dictDeref d e with
        | none => none
        | some he =>
          if e.second then some ({ d with ht1 := d.ht1.unlink e.idx e.pos }, some he)
          else some ({ d with ht0 := d.ht0.unlink e.idx e.pos }, some he)

def dictDelete (key : K) : Option (Dict K V × DictRes) :=
  (dictGenericDelete hash d key).map fun (d, he) => (d, if he.isSome then .ok else .err)

def dictUnlink (key : K) : Option (Dict K V × Option (DictEntry K V)) :=
  dictGenericDelete hash d key

def dictFind (key : K) : Option (Dict K V × Option EntryRef) :=
  if d.ht0.used + d.ht1.used = 0 then some (d, none)
  else
    match dictRehashStepIf hash d with
    | none => none
    | some d => (dictLookup hash d key).map fun e => (d, e)

end

/-- The calls of a client of the table. `addOrFind` stores a value through the entry it gets when
the client has one to store. -/
inductive DictOp (K V : Type)
  | add (key : K) (v : V)
  | replace (key : K) (v : V)
  | addOrFind (key : K) (v : Option V)
  | delete (key : K)
  | unlink (key : K)
  | find (key : K)
  | expand (size : Nat)
  | resize
  | rehash (n : Nat)
  | enableResize
  | disableResize
deriving DecidableEq, Repr

/-- The replies: a status, a flag, or the entry returned (`none` for `NULL`). -/
inductive DictReply (K V : Type)
  | status (r : DictRes)
  | flag (b : Bool)
  | entry (e : Option (DictEntry K V))
  | none
deriving DecidableEq, Repr

def dictStep (hash : K → BitVec 64) : DictOp K V → DictState K V → Option (DictState K V × DictReply K V)
  | .add key v, ⟨d, c⟩ => (dictAdd hash c d key v).map fun (d, r) => (⟨d, c⟩, .status r)
  | .replace key v, ⟨d, c⟩ => (dictReplace hash c d key v).map fun (d, b) => (⟨d, c⟩, .flag b)
  | .addOrFind key v, ⟨d, c⟩ =>
    match dictAddOrFind hash c d key with
    | none => none
    | some (d, none) => some (⟨d, c⟩, .entry none)
    | some (d, some e) =>
      let d' := match v with
        | none => d
        | some v => dictSetVal d e v
      some (⟨d', c⟩, .entry (dictDeref d e))
  | .delete key, ⟨d, c⟩ => (dictDelete hash d key).map fun (d, r) => (⟨d, c⟩, .status r)
  | .unlink key, ⟨d, c⟩ => (dictUnlink hash d key).map fun (d, he) => (⟨d, c⟩, .entry he)
  | .find key, ⟨d, c⟩ => (dictFind hash d key).map fun (d, e) => (⟨d, c⟩, .entry (e.bind (dictDeref d)))
  | .expand size, ⟨d, c⟩ => let (d, r) := dictExpand d size; some (⟨d, c⟩, .status r)
  | .resize, ⟨d, c⟩ => let (d, r) := dictResize c d; some (⟨d, c⟩, .status r)
  | .rehash n, ⟨d, c⟩ => (dictRehash hash d n).map fun (d, b) => (⟨d, c⟩, .flag b)
  | .enableResize, ⟨d, _⟩ => some (⟨d, true⟩, .none)
  | .disableResize, ⟨d, _⟩ => some (⟨d, false⟩, .none)

def dictMachine (hash : K → BitVec 64) : Machine (DictOp K V) (DictState K V) (DictReply K V) :=
  ⟨⟨dictCreate, true⟩, dictStep hash⟩

end Redis
