import Redis.StreamIds

/-! # The nodes of a stream

A node of the tree holds a master entry and the entries of the stream one behind the other, each in a number
of listpack elements. `StreamNode.encode` is that sequence for a list of items, and `LpSeq.cursor` a place in it. -/

namespace Redis
open List

/-! ### Cursors -/

namespace LpSeq

/-- The cursor at the start of the elements `rest`, with which the listpack ends. -/
def cursor (lp rest : LpSeq) : Option Nat := if rest = [] then none else some (lp.length - rest.length)

variable {lp r xs : LpSeq} {x : List UInt8}

theorem cursor_cons : lp.cursor (x :: r) = some (lp.length - (x :: r).length) := if_neg (cons_ne_nil _ _)

theorem cursor_mid (pre r : LpSeq) (x : List UInt8) : cursor (pre ++ x :: r) (x :: r) = some pre.length := by
  rw [cursor_cons]
  simp

theorem first_eq_cursor : lp.first = lp.cursor lp := by
  cases lp with
  | nil => rfl
  | cons x r => rw [cursor_cons, first, if_neg (by simp), Nat.sub_self]

theorem last_eq_cursor (h : [x] <:+ lp) : lp.last = lp.cursor [x] := by
  obtain ⟨pre, rfl⟩ := h
  rw [cursor_cons, last, if_neg (by simp), length_singleton]

theorem get_cursor (h : (x :: r) <:+ lp) : lp.get (lp.cursor (x :: r)) = some x := by
  obtain ⟨pre, rfl⟩ := h
  rw [cursor_cons]
  simp [get]

theorem getInteger_cursor {v : Int} (h1 : -2 ^ 63 ≤ v) (h2 : v < 2 ^ 63) (h : (lltoa v :: r) <:+ lp) :
    lp.getInteger (lp.cursor (lltoa v :: r)) = some v := by
  rw [getInteger, get_cursor h, Option.bind_some, lpStringToInt64_lltoa h1 h2]

theorem next_cursor (h : (x :: r) <:+ lp) : lp.next (lp.cursor (x :: r)) = some (lp.cursor r) := by
  obtain ⟨pre, rfl⟩ := h
  rcases r with - | ⟨y, r⟩
  · simp [cursor, next]
  rw [cursor_cons, cursor_cons]
  simp [next]
  omega

theorem nextTimes_cursor (h : (xs ++ r) <:+ lp) : lp.nextTimes xs.length (lp.cursor (xs ++ r)) = some (lp.cursor r) := by
  induction xs with
  | nil => rfl
  | cons x xs ih =>
    have hx : (x :: (xs ++ r)) <:+ lp := h
    rw [length_cons, nextTimes, cons_append, next_cursor hx]
    exact ih ((suffix_cons ..).trans hx)

theorem prev_cursor (h : (x :: r) <:+ lp) (hr : r ≠ []) : prev (lp.cursor r) = some (lp.cursor (x :: r)) := by
  obtain ⟨pre, rfl⟩ := h
  have hi : (pre ++ x :: r).length - r.length = pre.length + 1 := by simp; omega
  rw [cursor_cons, cursor, if_neg hr, hi]
  simp [prev]

theorem prevTimes_cursor (h : (xs ++ r) <:+ lp) (hr : r ≠ []) :
    prevTimes xs.length (lp.cursor r) = some (lp.cursor (xs ++ r)) := by
  induction xs using List.reverseRecOn generalizing r with
  | nil => rfl
  | append_singleton xs x ih =>
    rw [append_assoc] at h
    have hx : (x :: r) <:+ lp := (suffix_append ..).trans h
    rw [length_append, length_singleton, prevTimes, prev_cursor hx hr, append_assoc]
    exact ih h (cons_ne_nil _ _)

theorem bytes_append (lp r : LpSeq) : bytes (lp ++ r) = lp.bytes + (r.map lpElementBytes).sum := by
  simp [bytes, add_assoc]

theorem two_le_lpElementBytes (x : List UInt8) : 2 ≤ lpElementBytes x := by
  have hback := (lpEncodeBacklen_length (lpElement x).length).1
  have henc : 1 ≤ (lpElement x).length := by
    unfold lpElement
    split
    · unfold lpEncodeInt
      split_ifs <;> simp
    · rw [lpEncodeString_length]
      split_ifs <;> omega
  unfold lpElementBytes
  omega

theorem length_le_bytes (lp : LpSeq) : 2 * lp.length ≤ lp.bytes := by
  have h : 2 * lp.length ≤ (lp.map lpElementBytes).sum := by
    induction lp with
    | nil => simp
    | cons x lp ih =>
      have := two_le_lpElementBytes x
      rw [length_cons, map_cons, sum_cons]
      omega
  unfold bytes
  omega

end LpSeq

/-! ### Differences of IDs -/

theorem asInt64_range (x : UInt64) : -2 ^ 63 ≤ asInt64 x ∧ asInt64 x < 2 ^ 63 := by
  have := x.toNat_lt
  unfold asInt64
  split <;> omega

theorem addInt64_asInt64 (x y : UInt64) : addInt64 x (asInt64 (y - x)) = y := by
  have hmod : (asInt64 (y - x) % 2 ^ 64).toNat = (y - x).toNat := by
    have := (y - x).toNat_lt
    unfold asInt64
    split <;> omega
  rw [addInt64, hmod, UInt64.ofNat_toNat, UInt64.add_comm, UInt64.sub_add_cancel]

/-! ### Items -/

abbrev Argv := List (List UInt8 × List UInt8)

/-- An entry in a listpack: if it is deleted, if it shares the fields of the master entry. -/
structure Item where
  deleted : Bool
  same : Bool
  id : StreamID
  argv : Argv

namespace Item

def flags (it : Item) : Nat :=
  (if it.deleted then itemFlagDeleted else 0) + (if it.same then itemFlagSamefields else 0)

/-- The elements that hold values, and the fields unless they are shared. -/
def pairs (it : Item) : LpSeq :=
  if it.same then it.argv.map Prod.snd else it.argv.flatMap fun fv => [fv.1, fv.2]

/-- The elements between the ID and the number of elements. -/
def content (it : Item) : LpSeq := if it.same then it.pairs else lltoa it.argv.length :: it.pairs

def mark (it : Item) : List UInt8 := lltoa (3 + it.content.length : Nat)

def encode (master : StreamID) (it : Item) : LpSeq := streamEntry it.flags it.id master it.argv

theorem hasFlag_deleted (it : Item) : hasFlag it.flags itemFlagDeleted = it.deleted := by
  rcases it with ⟨- | -, - | -, id, argv⟩ <;> simp [hasFlag, flags, itemFlagDeleted, itemFlagSamefields]

theorem hasFlag_same (it : Item) : hasFlag it.flags itemFlagSamefields = it.same := by
  rcases it with ⟨- | -, - | -, id, argv⟩ <;> simp [hasFlag, flags, itemFlagDeleted, itemFlagSamefields]

theorem flags_le (it : Item) : it.flags ≤ 3 := by
  unfold flags itemFlagDeleted itemFlagSamefields
  split <;> split <;> decide

theorem length_pairs (it : Item) : it.pairs.length = if it.same then it.argv.length else it.argv.length * 2 := by
  unfold pairs
  split
  · simp
  · simp [length_flatMap]

theorem encode_eq (master : StreamID) (it : Item) :
    it.encode master = lltoa it.flags :: lltoa (asInt64 (it.id.ms - master.ms)) ::
      lltoa (asInt64 (it.id.seq - master.seq)) :: (it.content ++ [it.mark]) := by
  have hlen := it.length_pairs
  unfold encode streamEntry mark content
  simp only [hasFlag_same]
  rcases hs : it.same with - | -
  · simp only [hs, pairs] at hlen ⊢
    simp at hlen ⊢
    congr 1
    omega
  · simp only [hs, pairs] at hlen ⊢
    simp
    congr 1
    omega

end Item

/-! ### Nodes -/

structure StreamNode where
  key : StreamID
  fields : List (List UInt8)
  items : List Item

namespace StreamNode

variable (n : StreamNode)

def live : List Item := n.items.filter fun it => !it.deleted

def dead : List Item := n.items.filter fun it => it.deleted

def elements (items : List Item) : LpSeq := items.flatMap (Item.encode n.key)

def encode : LpSeq :=
  lltoa n.live.length :: lltoa n.dead.length :: lltoa n.fields.length :: (n.fields ++ lltoa 0 :: n.elements n.items)

def entry : StreamID × LpSeq := (n.key, n.encode)

/-- The last element before the items that follow `pre`: the number of elements of the last item, or the zero
that ends the master entry. -/
def mark (pre : List Item) : List UInt8 := (pre.getLast?.map Item.mark).getD (lltoa 0)

def gap (pre post : List Item) : LpSeq := mark pre :: n.elements post

/-- The items fit in a listpack, and those that share the fields of the master entry have these fields. -/
structure WF (n : StreamNode) : Prop where
  fields : ∀ it ∈ n.items, it.same = true → it.argv.map Prod.fst = n.fields
  size : n.encode.bytes ≤ uint32Max

variable {n : StreamNode} {pre post : List Item} {it : Item}

theorem elements_cons (n : StreamNode) (it : Item) (post : List Item) :
    n.elements (it :: post) = it.encode n.key ++ n.elements post := rfl

theorem mark_concat (pre : List Item) (it : Item) : mark (pre ++ [it]) = it.mark := by
  simp [mark]

theorem encode_append_elements (n : StreamNode) (pre post : List Item) (it : Item) :
    it.encode n.key ++ n.elements post = lltoa it.flags :: lltoa (asInt64 (it.id.ms - n.key.ms)) ::
      lltoa (asInt64 (it.id.seq - n.key.seq)) :: (it.content ++ n.gap (pre ++ [it]) post) := by
  rw [Item.encode_eq, gap, mark_concat]
  simp

theorem gap_cons (n : StreamNode) (pre post : List Item) (it : Item) :
    n.gap pre (it :: post) = mark pre :: lltoa it.flags :: lltoa (asInt64 (it.id.ms - n.key.ms)) ::
      lltoa (asInt64 (it.id.seq - n.key.seq)) :: (it.content ++ n.gap (pre ++ [it]) post) := by
  rw [gap, elements_cons, encode_append_elements]

theorem gap_suffix (h : n.items = pre ++ post) : n.gap pre post <:+ n.encode := by
  have hmark : ∃ q, lltoa 0 :: n.elements pre = q ++ [mark pre] := by
    rcases eq_nil_or_concat pre with rfl | ⟨pre, it, rfl⟩
    · exact ⟨[], rfl⟩
    rw [concat_eq_append, mark_concat]
    refine ⟨lltoa 0 :: (n.elements pre ++ lltoa it.flags :: lltoa (asInt64 (it.id.ms - n.key.ms)) ::
      lltoa (asInt64 (it.id.seq - n.key.seq)) :: it.content), ?_⟩
    rw [elements, flatMap_append, flatMap_singleton, Item.encode_eq]
    simp [elements]
  obtain ⟨q, hq⟩ := hmark
  refine ⟨lltoa n.live.length :: lltoa n.dead.length :: lltoa n.fields.length :: (n.fields ++ q), ?_⟩
  rw [encode, h, elements, flatMap_append]
  have hsplit : lltoa 0 :: (pre.flatMap (Item.encode n.key) ++ post.flatMap (Item.encode n.key)) =
      q ++ [mark pre] ++ n.elements post := by
    rw [← hq]
    rfl
  rw [hsplit, gap]
  simp

theorem WF.length_encode (h : n.WF) : n.encode.length < 2 ^ 31 := by
  have := n.encode.length_le_bytes
  have := h.size
  rw [uint32Max] at this
  omega

theorem WF.length_fields (h : n.WF) : n.fields.length < 2 ^ 31 := by
  have := h.length_encode
  rw [encode] at this
  simp at this
  omega

theorem length_items_le (n : StreamNode) : 4 * n.items.length ≤ n.encode.length := by
  have h : 4 * n.items.length ≤ (n.elements n.items).length := by
    generalize n.items = l
    induction l with
    | nil => simp
    | cons it l ih =>
      rw [elements_cons, Item.encode_eq]
      simp
      omega
  rw [encode]
  simp
  omega

theorem WF.length_live (h : n.WF) : n.live.length < 2 ^ 30 := by
  have := h.length_encode
  have := n.length_items_le
  have := length_filter_le (fun it : Item => !it.deleted) n.items
  unfold live
  omega

theorem WF.getInteger_first (hwf : n.WF) : n.encode.getInteger n.encode.first = some (n.live.length : Int) := by
  have := hwf.length_live
  rw [LpSeq.first_eq_cursor]
  exact LpSeq.getInteger_cursor (by omega) (by omega) suffix_rfl

theorem WF.length_dead (h : n.WF) : n.dead.length < 2 ^ 30 := by
  have := h.length_encode
  have := n.length_items_le
  have := length_filter_le (fun it : Item => it.deleted) n.items
  unfold dead
  omega

theorem WF.length_content (h : n.WF) (hit : it ∈ n.items) : 3 + it.content.length < 2 ^ 31 := by
  obtain ⟨pre, post, hn⟩ := append_of_mem hit
  have hsuf := (gap_suffix hn).length_le
  have := h.length_encode
  rw [gap_cons] at hsuf
  simp at hsuf
  omega

theorem WF.length_argv (h : n.WF) (hit : it ∈ n.items) : it.argv.length < 2 ^ 31 := by
  have := h.length_content hit
  have hpairs := it.length_pairs
  unfold Item.content at this
  split at this <;> simp_all <;> omega

end StreamNode

end Redis
