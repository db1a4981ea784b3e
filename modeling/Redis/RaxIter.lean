import Redis.RaxTree

/-! # Iterators over radix trees (`rax.c`)

The stack of an iterator is that of `raxLowWalk`, and its node is the head when the stack is empty. A
key that is shortened keeps its bytes in the buffer; the buffer is not written again in a step that
ends at the end of the tree, so that restoring the length restores the key. `prevchild` is read only
below the head, where the key is not empty. The loops that go down and up again have fuel, `none` being
a loop that does not end in the number of nodes. -/

namespace Redis
variable {V : Type}

/-- Where an iterator stands: the node, the parents above it and the key. -/
structure RaxPos (V : Type) where
  node : RaxNode V
  stack : List (RaxFrame V)
  key : List UInt8
deriving Repr

/-- `raxIterator`, with its flags. -/
structure RaxIterator (V : Type) extends RaxPos V where
  justSeeked : Bool
  eof : Bool
  data : Option V
deriving Repr

variable (r : Rax V) (it : RaxIterator V)

/-- The node is not read before a seek, since the iterator is at the end. -/
def raxStart : RaxIterator V := ⟨⟨r.head, [], []⟩, false, true, none⟩

def raxIteratorDelChars (key : List UInt8) (count : Nat) : List UInt8 := key.take (key.length - count)

/-- The first child, with the characters that lead to it. -/
def raxFirstChild : RaxNode V → Option (List UInt8 × RaxNode V)
  | .normal _ [] => none
  | .normal _ ((c, child) :: _) => some ([c], child)
  | .compr _ cs child => some (cs, child)

def raxKeyAt (n : RaxNode V) (key : List UInt8) : List UInt8 :=
  raxIteratorDelChars key (if n.iscompr then n.size else 1)

def raxEnter (n : RaxNode V) (ts : List (RaxFrame V)) (key : List UInt8) (j : Nat) : Option (RaxPos V) :=
  match n with
  | .compr _ _ _ => none
  | .normal _ es => es[j]?.map fun e => ⟨e.2, ⟨n, j⟩ :: ts, key ++ [e.1]⟩

/-- The scan of a node for the next child after `prevchild`. -/
def raxScanNext (n : RaxNode V) (prevchild : UInt8) (least : Nat) : Option Nat :=
  match n with
  | .compr _ _ _ => none
  | .normal _ es => if es.length > least then es.findIdx? fun e => decide (prevchild < e.1) else none

/-- The scan of a node for the previous child before `prevchild`. -/
def raxScanPrev (n : RaxNode V) (prevchild : UInt8) (least : Nat) : Option Nat :=
  match n with
  | .compr _ _ _ => none
  | .normal _ es =>
    if es.length > least then
      (es.reverse.findIdx? fun e => decide (e.1 < prevchild)).map fun j => es.length - 1 - j
    else none

/-- The inner loop of `raxIteratorNextStep`: go up until there is a next child. -/
def raxNextUp : List (RaxFrame V) → List UInt8 → Option (RaxPos V)
  | [], _ => none
  | f :: fs, key =>
    match (raxScanNext f.node (key.getLastD 0) 1).bind (raxEnter f.node fs (raxKeyAt f.node key)) with
    | some p => some p
    | none => raxNextUp fs (raxKeyAt f.node key)

/-- The inner loop started with `noup`: its first round stays on the node. -/
def raxNextUpFrom (p : RaxPos V) (noup : Bool) : Option (RaxPos V) :=
  if noup then
    match (raxScanNext p.node (p.key.getLastD 0) 0).bind (raxEnter p.node p.stack (raxKeyAt p.node p.key)) with
    | some q => some q
    | none => raxNextUp p.stack (raxKeyAt p.node p.key)
  else raxNextUp p.stack p.key

/-- The loop of `raxIteratorNextStep`; the inner `none` is the end of the tree. -/
def raxNextLoop : Nat → RaxPos V → Bool → Option (Option (RaxPos V))
  | 0, _, _ => none
  | fuel + 1, p, noup =>
    match if noup then none else raxFirstChild p.node with
    | some (cs, child) =>
      let q : RaxPos V := ⟨child, ⟨p.node, 0⟩ :: p.stack, p.key ++ cs⟩
      if child.hdr.iskey then some (some q) else raxNextLoop fuel q false
    | none =>
      match raxNextUpFrom p noup with
      | none => some none
      | some q => if q.node.hdr.iskey then some (some q) else raxNextLoop fuel q false

mutual
def raxSeekGreatest : RaxNode V → List (RaxFrame V) → List UInt8 → RaxPos V
  | .normal hdr es, ts, key => raxSeekLastChild (.normal hdr es) es 0 ts key
  | .compr hdr cs child, ts, key => raxSeekGreatest child (⟨.compr hdr cs child, 0⟩ :: ts) (key ++ cs)
/-- A round of `raxSeekGreatest` in a normal node `n`: on to its last child, if it has one. -/
def raxSeekLastChild (n : RaxNode V) : List (UInt8 × RaxNode V) → Nat → List (RaxFrame V) → List UInt8 → RaxPos V
  | [], _, ts, key => ⟨n, ts, key⟩
  | (c, child) :: es, j, ts, key =>
    match es with
    | [] => raxSeekGreatest child (⟨n, j⟩ :: ts) (key ++ [c])
    | _ :: _ => raxSeekLastChild n es (j + 1) ts key
end

/-- The end of a round of `raxIteratorPrevStep` at the node `n`: the greatest key of the child that the
scan has found, or the node itself. -/
def raxPrevVisit (n : RaxNode V) (ts : List (RaxFrame V)) (key : List UInt8) (scan : Option Nat) : RaxPos V :=
  match scan.bind (raxEnter n ts key) with
  | some q => raxSeekGreatest q.node q.stack q.key
  | none => ⟨n, ts, key⟩

/-- The loop of `raxIteratorPrevStep`. -/
def raxPrevLoop : Nat → RaxPos V → Bool → Option (Option (RaxPos V))
  | 0, _, _ => none
  | fuel + 1, p, noup =>
    match if noup then some (p.node, p.stack) else p.stack.head?.map fun f => (f.node, p.stack.tail) with
    | none => some none
    | some (n, ts) =>
      let q := raxPrevVisit n ts (raxKeyAt n p.key) (raxScanPrev n (p.key.getLastD 0) (if noup then 0 else 1))
      if q.node.hdr.iskey then some (some q) else raxPrevLoop fuel q false

def RaxIterator.moved : Option (RaxPos V) → RaxIterator V
  | none => { it with eof := true }
  | some p => { it with toRaxPos := p, data := raxGetData p.node.hdr }

def raxIteratorNextStep (noup : Bool) : Option (RaxIterator V) :=
  if it.eof then some it
  else if it.justSeeked then some { it with justSeeked := false }
  else (raxNextLoop (r.head.count + 1) it.toRaxPos noup).map it.moved

def raxIteratorPrevStep (noup : Bool) : Option (RaxIterator V) :=
  if it.eof then some it
  else if it.justSeeked then some { it with justSeeked := false }
  else (raxPrevLoop (r.head.count + 1) it.toRaxPos noup).map it.moved

/-- The operators of `raxSeek`: `=`, `>`, `>=`, `<`, `<=`, `^` and `$`. -/
inductive RaxSeekOp
  | eq | gt | ge | lt | le | first | last
deriving DecidableEq, Repr

/-- The flag `eq` of an operator, and the flags `lt` and `gt`. -/
def RaxSeekOp.iseq : RaxSeekOp → Bool
  | .eq | .ge | .le => true
  | _ => false

def RaxSeekOp.islt : RaxSeekOp → Bool
  | .lt | .le => true
  | _ => false

def RaxSeekOp.isgt : RaxSeekOp → Bool
  | .gt | .ge => true
  | _ => false

/-- The part of `raxSeek` for an element that is not a key, or not to be included: the step from where
the walk stopped. -/
def raxSeekStep (op : RaxSeekOp) (w : RaxWalk V) : Option (RaxIterator V) :=
  let it := { it with key := raxPath w.stack, justSeeked := false }
  match w.rest, w.node with
  | c :: _, .normal _ _ =>
    let it := { it with key := it.key ++ [c] }
    if op.islt then raxIteratorPrevStep r it true else raxIteratorNextStep r it true
  | c :: _, .compr _ cs _ =>
    match cs[w.splitpos]? with
    | none => none
    | some nodechar =>
      if op.isgt then
        if c < nodechar then raxIteratorNextStep r it false
        else raxIteratorNextStep r { it with key := it.key ++ cs } true
      else if nodechar < c then
        let p := raxSeekGreatest it.node it.stack it.key
        some { it with toRaxPos := p, data := raxGetData p.node.hdr }
      else raxIteratorPrevStep r { it with key := it.key ++ cs } true
  | [], n =>
    -- in the middle of a compressed node that is a key, that key is the match; `data` is not set
    if n.iscompr = true ∧ n.hdr.iskey = true ∧ w.splitpos ≠ 0 ∧ op.islt = true then some it
    else if op.isgt then raxIteratorNextStep r it false
    else raxIteratorPrevStep r it false

/-- `raxSeek` from its lookup on. -/
def raxSeekEle (op : RaxSeekOp) (ele : List UInt8) : Option (RaxIterator V) :=
  let w := raxLowWalk r ele
  let it := { it with node := w.node, stack := w.stack }
  if op.iseq = true ∧ w.rest = [] ∧ (w.node.iscompr = false ∨ w.splitpos = 0) ∧ w.node.hdr.iskey = true then
    some { it with key := ele, data := raxGetData w.node.hdr }
  else if op.islt = true ∨ op.isgt = true then
    (raxSeekStep r it op w).map fun it => { it with justSeeked := true }
  else some { it with eof := true }

def raxSeek (op : RaxSeekOp) (ele : List UInt8) : Option (RaxIterator V) :=
  let it := { it with stack := [], justSeeked := true, eof := false, key := [] }
  if r.numele = 0 then some { it with eof := true }
  else
    match op with
    | .first => raxSeekEle r it .ge []
    | .last =>
      let p := raxSeekGreatest r.head [] []
      if p.node.hdr.iskey then some { it with toRaxPos := p, data := raxGetData p.node.hdr } else none
    | op => raxSeekEle r it op ele

inductive RaxIterOp
  | seek (op : RaxSeekOp) (ele : List UInt8)
  | next
  | prev
deriving DecidableEq, Repr

/-- Their replies: a seek returns 1; a step returns 1 with the key, or 0 at the end. -/
inductive RaxIterReply
  | seeked
  | key (k : List UInt8)
  | eof
deriving DecidableEq, Repr

/-- The reply of `raxNext` and `raxPrev`. -/
def RaxIterator.reply : RaxIterReply := if it.eof then .eof else .key it.key

/-- One call on an iterator of the tree `r`. -/
def raxIterStep : RaxIterOp → RaxIterator V → Option (RaxIterator V × RaxIterReply)
  | .seek op ele, it => (raxSeek r it op ele).map fun it => (it, .seeked)
  | .next, it => (raxIteratorNextStep r it false).map fun it => (it, it.reply)
  | .prev, it => (raxIteratorPrevStep r it false).map fun it => (it, it.reply)

def raxIterMachine : Machine RaxIterOp (RaxIterator V) RaxIterReply := ⟨raxStart r, raxIterStep r⟩

end Redis
