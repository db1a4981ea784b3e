import Redis.ListpackEnc

/-! # Well-formed listpacks

`LpWF lp es`: the buffer `lp` is a header with the right length and count, the entries `es`, and the
terminator. An entry is any encoding that `lpCurrentEncodedSize` accepts, canonical or not.
`lpOffset es i` is where element `i` starts (or the terminator, for `i = es.length`); the walking
functions move between these offsets. -/

namespace Redis
open List Option

structure LpEntry where
  enc : List UInt8
  size : lpCurrentEncodedSize enc = some enc.length
  not_eof : enc.head? ≠ some lpEof

open LpEntry

namespace LpEntry
variable (e : LpEntry)

def val : List UInt8 := (lpGet e.enc).getD []

def bytes : List UInt8 := e.enc ++ lpEncodeBacklen e.enc.length

theorem exists_cons : ∃ b rest, e.enc = b :: rest ∧ b ≠ lpEof := by
  cases henc : e.enc with
  | nil =>
    have := e.size
    rw [henc] at this
    cases this
  | cons b rest =>
    refine ⟨b, rest, rfl, fun hb => e.not_eof ?_⟩
    rw [henc, hb, head?_cons]

theorem size_append (rest : List UInt8) : lpCurrentEncodedSize (e.enc ++ rest) = some e.enc.length := by
  have hsize := e.size
  rcases henc : e.enc with - | ⟨b, bs⟩
  · rw [henc] at hsize; cases hsize
  rw [henc] at hsize
  rw [← hsize, cons_append]
  simp only [lpCurrentEncodedSize] at hsize ⊢
  cases he : lpEncoding b with
  | str12 =>
    rw [he] at hsize
    rcases bs with _ | ⟨b1, bs⟩
    · cases hsize
    · rfl
  | str32 =>
    rw [he] at hsize
    rcases bs with _ | ⟨b1, _ | ⟨b2, _ | ⟨b3, _ | ⟨b4, bs⟩⟩⟩⟩
    iterate 4 cases hsize
    rfl
  | _ => rfl

end LpEntry

theorem lpStr_append {p : List UInt8} {hdr count : Nat} (h : hdr + count = p.length) (rest : List UInt8) :
    lpStr (p ++ rest) hdr count = lpStr p hdr count ∧ (lpStr p hdr count).isSome = true := by
  unfold lpStr
  rw [if_pos (by rw [length_append]; omega), if_pos (by omega)]
  refine ⟨?_, rfl⟩
  rw [drop_append_of_le_length (by omega), take_append_of_le_length (by rw [length_drop]; omega)]

theorem lpInt_append {bs : List UInt8} {n a b : Nat} (h : n = bs.length) (rest : List UInt8) :
    lpInt (bs ++ rest) n a b = lpInt bs n a b ∧ (lpInt bs n a b).isSome = true := by
  unfold lpInt
  rw [if_pos (by rw [length_append]; omega), if_pos (by omega)]
  refine ⟨?_, rfl⟩
  rw [take_append_of_le_length (by omega)]

namespace LpEntry
variable (e : LpEntry)

theorem get_append (rest : List UInt8) : lpGet (e.enc ++ rest) = some e.val := by
  have hread : lpGet (e.enc ++ rest) = lpGet e.enc ∧ (lpGet e.enc).isSome = true := by
    obtain ⟨b, bs, henc, hb⟩ := e.exists_cons
    have hsize := e.size
    rw [henc] at hsize
    rw [henc, cons_append]
    simp only [lpCurrentEncodedSize] at hsize
    simp only [lpGet]
    cases he : lpEncoding b with
    | uint7 => exact ⟨rfl, rfl⟩
    | str6 =>
      simp only [he, some.injEq] at hsize
      exact lpStr_append hsize rest
    | int13 =>
      simp only [he, some.injEq, length_cons] at hsize
      rcases bs with _ | ⟨b1, bs⟩
      · simp at hsize
      · exact ⟨rfl, rfl⟩
    | int16 | int24 | int32 | int64 =>
      simp only [he, some.injEq, length_cons] at hsize
      exact lpInt_append (by omega) rest
    | str12 =>
      simp only [he] at hsize
      rcases bs with _ | ⟨b1, bs⟩
      · cases hsize
      · simp only [some.injEq] at hsize
        exact lpStr_append hsize rest
    | str32 =>
      simp only [he] at hsize
      rcases bs with _ | ⟨b1, _ | ⟨b2, _ | ⟨b3, _ | ⟨b4, bs⟩⟩⟩⟩
      iterate 4 cases hsize
      · simp only [some.injEq, length_cons] at hsize
        have hlt := leVal_lt [b1, b2, b3, b4]
        simp only [length_cons, length_nil] at hlt
        refine lpStr_append (p := b :: b1 :: b2 :: b3 :: b4 :: bs) ?_ rest
        simp
        omega
    | eof => exact absurd (eq_eof_of_lpEncoding b he) hb
    | unknown => simp [he] at hsize
  rw [hread.1, val]
  cases hg : lpGet e.enc with
  | none => simp [hg] at hread
  | some s => rfl

theorem length_lt : e.enc.length < 2 ^ 32 := by
  have hsize := e.size
  obtain ⟨b, bs, henc, -⟩ := e.exists_cons
  rw [henc] at hsize ⊢
  simp only [lpCurrentEncodedSize] at hsize
  have h6 := toNat_and_0x3f b
  split at hsize <;> simp only [some.injEq, reduceCtorEq] at hsize
  all_goals try omega
  rename_i b1 _ _
  have := b1.toNat_lt
  rw [toNat_and_0xf, shiftLeft_or _ (by omega)] at hsize
  omega

end LpEntry

/-! ### Layout -/

def lpBlob (es : List LpEntry) : List UInt8 := es.flatMap LpEntry.bytes

def lpHeader (total num : Nat) : List UInt8 := leBytes 4 total ++ leBytes 2 num

structure LpWF (lp : List UInt8) (es : List LpEntry) (num : Nat) : Prop where
  layout : lp = lpHeader lp.length num ++ (lpBlob es ++ [lpEof])
  total : lp.length ≤ uint32Max
  count : num = es.length ∧ num < lpHdrNumeleUnknown ∨ num = lpHdrNumeleUnknown

def lpOffset (es : List LpEntry) (i : Nat) : Nat := lpHdrSize + (lpBlob (es.take i)).length

/-- The pointer to element `i`, `NULL` past the last one. -/
def lpPtr (es : List LpEntry) (i : Nat) : Option Nat := if i < es.length then some (lpOffset es i) else none

theorem lpBlob_append (es es' : List LpEntry) : lpBlob (es ++ es') = lpBlob es ++ lpBlob es' := by
  rw [lpBlob, lpBlob, lpBlob, flatMap_append]

theorem lpBlob_cons (e : LpEntry) (es : List LpEntry) : lpBlob (e :: es) = e.bytes ++ lpBlob es := rfl

@[simp] theorem lpHeader_length (total num : Nat) : (lpHeader total num).length = lpHdrSize := rfl

theorem lpGetTotalBytes_header {total : Nat} (num : Nat) (rest : List UInt8) (h : total ≤ uint32Max) :
    lpGetTotalBytes (lpHeader total num ++ rest) = some total := by
  have hval := leVal_leBytes_of_lt (n := 4) (v := total) (by simp only [uint32Max] at h; omega)
  show some (leVal (leBytes 4 total)) = _
  rw [hval]

theorem lpGetNumElements_header (total : Nat) {num : Nat} (rest : List UInt8) (h : num ≤ lpHdrNumeleUnknown) :
    lpGetNumElements (lpHeader total num ++ rest) = some num := by
  have hval := leVal_leBytes_of_lt (n := 2) (v := num) (by simp only [lpHdrNumeleUnknown] at h; omega)
  show some (leVal (leBytes 2 num)) = _
  rw [hval]

namespace LpWF
variable {lp : List UInt8} {es : List LpEntry} {num i : Nat}
variable {e : LpEntry}

section
variable (h : LpWF lp es num)
include h

theorem num_le : num ≤ lpHdrNumeleUnknown := by
  rcases h.count with ⟨-, h⟩ | h <;> omega

theorem length_eq : lp.length = lpHdrSize + (lpBlob es).length + 1 := by
  have := congrArg length h.layout
  rw [length_append, lpHeader_length, length_append] at this
  omega

theorem totalBytes : lpGetTotalBytes lp = some lp.length := by
  have := lpGetTotalBytes_header num (lpBlob es ++ [lpEof]) h.total
  rwa [← h.layout] at this

theorem numElements : lpGetNumElements lp = some num := by
  have := lpGetNumElements_header lp.length (lpBlob es ++ [lpEof]) h.num_le
  rwa [← h.layout] at this

theorem split (i : Nat) : lp = (lpHeader lp.length num ++ lpBlob (es.take i)) ++ (lpBlob (es.drop i) ++ [lpEof]) ∧
      (lpHeader lp.length num ++ lpBlob (es.take i)).length = lpOffset es i := by
  refine ⟨?_, by rw [length_append, lpHeader_length, lpOffset]⟩
  rw [append_assoc, ← append_assoc (lpBlob _), ← lpBlob_append, take_append_drop]
  exact h.layout

theorem drop_offset (i : Nat) : lp.drop (lpOffset es i) = lpBlob (es.drop i) ++ [lpEof] := by
  obtain ⟨hlp, hlen⟩ := h.split i
  conv_lhs => rw [hlp]
  rw [← hlen, drop_left]

theorem take_offset (i : Nat) : lp.take (lpOffset es i) = lpHeader lp.length num ++ lpBlob (es.take i) := by
  obtain ⟨hlp, hlen⟩ := h.split i
  conv_lhs => rw [hlp]
  rw [← hlen, take_left]

theorem getElem?_offset (i : Nat) : lp[lpOffset es i]? = (lpBlob (es.drop i) ++ [lpEof])[0]? := by
  rw [← h.drop_offset i, getElem?_drop, add_zero]

end

theorem offset_succ (he : es[i]? = some e) : lpOffset es (i + 1) = lpOffset es i + e.bytes.length := by
  rw [lpOffset, lpOffset, take_add_one, he, lpBlob_append,
    add_assoc]
  simp [lpBlob]

theorem drop_cons (he : es[i]? = some e) : es.drop i = e :: es.drop (i + 1) := by
  obtain ⟨hi, rfl⟩ := List.getElem?_eq_some_iff.1 he
  exact drop_eq_getElem_cons hi

section
variable (h : LpWF lp es num)
include h

theorem drop_offset_cons (he : es[i]? = some e) : lp.drop (lpOffset es i) =
      e.enc ++ (lpEncodeBacklen e.enc.length ++ (lpBlob (es.drop (i + 1)) ++ [lpEof])) := by
  rw [h.drop_offset, drop_cons he, lpBlob_cons, bytes, append_assoc, append_assoc]

theorem head_offset (i : Nat) : ∃ b, lp[lpOffset es i]? = some b ∧ (b = lpEof ↔ es.length ≤ i) := by
  rcases lt_or_ge i es.length with hi | hi
  · have he : es[i]? = some es[i] := getElem?_eq_getElem hi
    obtain ⟨b, rest, henc, hb⟩ := es[i].exists_cons
    refine ⟨b, ?_, ⟨fun heq => absurd heq hb, fun hle => by omega⟩⟩
    rw [← add_zero (lpOffset es i), ← getElem?_drop, h.drop_offset_cons he, henc]
    rfl
  · refine ⟨lpEof, ?_, ⟨fun _ => hi, fun _ => rfl⟩⟩
    rw [h.getElem?_offset, drop_of_length_le hi]
    rfl

/-! ### Walking -/

theorem get (he : es[i]? = some e) : lpGet (lp.drop (lpOffset es i)) = some e.val := by
  rw [h.drop_offset_cons he]
  exact e.get_append _

theorem currentSize (he : es[i]? = some e) : lpCurrentEncodedSize (lp.drop (lpOffset es i)) = some e.enc.length := by
  rw [h.drop_offset_cons he]
  exact e.size_append _

theorem skip (hi : i < es.length) : lpSkip lp (lpOffset es i) = some (lpOffset es (i + 1)) := by
  have he : es[i]? = some es[i] := getElem?_eq_getElem hi
  rw [lpSkip, h.currentSize he, offset_succ he, bytes, length_append]

theorem ptr_of_head (i : Nat) :
    ((lp[lpOffset es i]?).map fun b => if b = lpEof then none else some (lpOffset es i)) = some (lpPtr es i) := by
  obtain ⟨b, hb, hiff⟩ := h.head_offset i
  rw [hb, map_some, lpPtr]
  split_ifs with h1 h2 h2
  · have := hiff.1 h1
    omega
  · rfl
  · rfl
  · exact absurd (hiff.2 (by omega)) h1

theorem first : lpFirst lp = some (lpPtr es 0) := h.ptr_of_head 0

theorem next (hi : i < es.length) : lpNext lp (lpOffset es i) = some (lpPtr es (i + 1)) := by
  rw [lpNext, h.skip hi]
  exact h.ptr_of_head (i + 1)

end

theorem prev_zero : lpPrev lp (lpOffset es 0) = some none := rfl

section
variable (h : LpWF lp es num)
include h

theorem prev_succ (hi : i < es.length) : lpPrev lp (lpOffset es (i + 1)) = some (some (lpOffset es i)) := by
  have he : es[i]? = some es[i] := getElem?_eq_getElem hi
  have hlen := es[i].length_lt
  obtain ⟨hb1, hb5⟩ := lpEncodeBacklen_length es[i].enc.length
  have hoff := offset_succ he
  rw [bytes, length_append] at hoff
  have htake : es.take (i + 1) = es.take i ++ [es[i]] := by rw [take_add_one, he, toList_some]
  have hdec : lpDecodeBacklen (lp.take (lpOffset es (i + 1))).reverse = some es[i].enc.length := by
    rw [h.take_offset, htake, lpBlob_append, lpBlob_cons, bytes]
    have : lpBlob [] = [] := rfl
    rw [this, append_nil, ← append_assoc, ← append_assoc]
    exact lpDecodeBacklen_encode (by omega) _
  have hge : lpHdrSize ≤ lpOffset es i := Nat.le_add_right ..
  rw [lpPrev, if_neg (by omega), hdec]
  simp only
  rw [if_neg (by omega)]
  congr 2
  omega

theorem offset_length : lpOffset es es.length = lp.length - 1 := by
  rw [h.length_eq, lpOffset, take_length]
  omega

def lastPtr (es : List LpEntry) : Option Nat := if es.length = 0 then none else some (lpOffset es (es.length - 1))

theorem last : lpLast lp = some (lastPtr es) := by
  have hlen := h.length_eq
  rw [lpLast, h.totalBytes]
  simp only
  rw [if_neg (by omega), ← h.offset_length, lastPtr]
  split_ifs with h0
  · rw [h0]
    exact prev_zero
  · obtain ⟨k, hk⟩ := Nat.exists_eq_succ_of_ne_zero h0
    rw [hk]
    exact h.prev_succ (by omega)

/-! ### Seeking -/

theorem seekForward : ∀ (k i : Nat), lpSeekForward lp k (lpPtr es i) = some (lpPtr es (i + k))
  | 0, i => by
    rw [add_zero]
    unfold lpPtr
    split_ifs <;> rfl
  | k + 1, i => by
    rw [lpPtr]
    split_ifs with hi
    · rw [lpSeekForward, h.next hi]
      simp only
      rw [seekForward k (i + 1), show i + 1 + k = i + (k + 1) by omega]
    · rw [lpSeekForward, lpPtr, if_neg (by omega)]

theorem seekBackward : ∀ (k i : Nat), i < es.length → k ≤ i →
    lpSeekBackward lp k (some (lpOffset es i)) = some (some (lpOffset es (i - k)))
  | 0, _, _, _ => rfl
  | k + 1, 0, _, hk => absurd hk (by omega)
  | k + 1, i + 1, hi, hk => by
    rw [lpSeekBackward, h.prev_succ (by omega)]
    simp only
    rw [seekBackward k i (by omega) (by omega), show i + 1 - (k + 1) = i - k by omega]

theorem scan_forward {index : Int} (h0 : 0 ≤ index) (hlt : index < es.length) :
    lpScan lp true index = some (some (lpOffset es index.toNat)) := by
  rw [lpScan, h.first]
  simp only [if_true]
  rw [h.seekForward, zero_add, lpPtr, if_pos (by omega)]

theorem scan_backward {index : Int} (h0 : index < 0) (hge : -(es.length : Int) ≤ index) :
    lpScan lp false index = some (some (lpOffset es (es.length + index).toNat)) := by
  rw [lpScan, if_neg (by decide), h.last]
  simp only
  rw [if_neg (by decide), lastPtr, if_neg (by omega), h.seekBackward _ _ (by omega) (by omega)]
  congr 3
  omega

theorem seek (hi : i < es.length) : lpSeek lp i = some (some (lpOffset es i)) ∧
      lpSeek lp ((i : Int) - es.length) = some (some (lpOffset es i)) := by
  have key : ∀ index : Int, index = i ∨ index = (i : Int) - es.length →
      lpSeek lp index = some (some (lpOffset es i)) := by
    intro index hindex
    rw [lpSeek, h.numElements]
    simp only
    rcases h.count with ⟨hnum, hne⟩ | hnum
    · have hidx : (if index < 0 then (num : Int) + index else index) = i := by
        rcases hindex with rfl | rfl <;> split_ifs <;> omega
      rw [if_pos (by omega), hidx, if_neg (by omega), if_neg (by omega)]
      split_ifs
      · rw [h.scan_backward (by omega) (by omega)]
        congr 3
        omega
      · rw [h.scan_forward (by omega) (by omega)]
        rfl
    · rw [if_neg (by omega)]
      rcases hindex with rfl | rfl
      · rw [decide_eq_true (by omega), h.scan_forward (by omega) (by omega)]
        rfl
      · rw [decide_eq_false (by omega), h.scan_backward (by omega) (by omega)]
        congr 3
        omega
  exact ⟨key _ (.inl rfl), key _ (.inr rfl)⟩

end

end LpWF

/-! ### Whole walks -/

/-- The strings met on a walk that goes on with `step` until it returns `NULL`. -/
def lpWalk (lp : List UInt8) (step : List UInt8 → Nat → Option (Option Nat)) :
    Nat → Option Nat → Option (List (List UInt8))
  | _, none => some []
  | 0, some _ => none
  | fuel + 1, some p =>
    match lpGet (lp.drop p), step lp p with
    | some s, some q => (lpWalk lp step fuel q).map fun ss => s :: ss
    | _, _ => none

theorem lpWalk_none (lp : List UInt8) (step : List UInt8 → Nat → Option (Option Nat)) (fuel : Nat) :
    lpWalk lp step fuel none = some [] := by
  cases fuel <;> rfl

namespace LpWF
variable {lp : List UInt8} {es : List LpEntry} {num : Nat}

section
variable (h : LpWF lp es num)
include h

theorem walk_next : ∀ (fuel i : Nat), es.length - i ≤ fuel →
    lpWalk lp lpNext fuel (lpPtr es i) = some ((es.drop i).map val)
  | 0, i, hf => by
    rw [lpPtr, if_neg (by omega), drop_of_length_le (by omega)]
    rfl
  | fuel + 1, i, hf => by
    rw [lpPtr]
    split_ifs with hi
    · have he : es[i]? = some es[i] := getElem?_eq_getElem hi
      rw [lpWalk, h.get he, h.next hi]
      simp only
      rw [walk_next fuel (i + 1) (by omega), map_some, drop_cons he, map_cons]
    · rw [drop_of_length_le (by omega)]
      rfl

theorem walk_prev : ∀ (fuel i : Nat), i < es.length → i < fuel →
    lpWalk lp lpPrev fuel (some (lpOffset es i)) = some ((es.take (i + 1)).map val).reverse
  | 0, _, _, hf => absurd hf (by omega)
  | fuel + 1, 0, hi, _ => by
    have he : es[0]? = some es[0] := getElem?_eq_getElem hi
    rw [lpWalk, h.get he, prev_zero]
    simp only [lpWalk_none]
    rw [take_add_one, he]
    rfl
  | fuel + 1, i + 1, hi, hf => by
    have he : es[i + 1]? = some es[i + 1] := getElem?_eq_getElem hi
    rw [lpWalk, h.get he, h.prev_succ (by omega)]
    simp only
    have htake : es.take (i + 1 + 1) = es.take (i + 1) ++ [es[i + 1]] := by
      rw [take_add_one, he, toList_some]
    rw [walk_prev fuel i (by omega) (by omega), htake, map_append, reverse_append]
    rfl

theorem length_le : es.length ≤ lp.length := by
  have hblob : ∀ es : List LpEntry, es.length ≤ (lpBlob es).length := by
    intro es
    induction es with
    | nil => exact Nat.le_refl 0
    | cons e es ih =>
      have := (lpEncodeBacklen_length e.enc.length).1
      rw [lpBlob_cons, bytes, length_append, length_append, length_cons]
      omega
  have := hblob es
  have := h.length_eq
  omega

theorem walk_first : ∃ p, lpFirst lp = some p ∧ lpWalk lp lpNext lp.length p = some (es.map val) :=
  ⟨_, h.first, h.walk_next _ 0 (by have := h.length_le; omega)⟩

theorem walk_last : ∃ p, lpLast lp = some p ∧ lpWalk lp lpPrev lp.length p = some (es.map val).reverse := by
  have hle := h.length_le
  refine ⟨_, h.last, ?_⟩
  unfold lastPtr
  split_ifs with h0
  · rw [lpWalk_none, eq_nil_of_length_eq_zero h0]
    rfl
  · rw [h.walk_prev _ _ (by omega) (by omega), show es.length - 1 + 1 = es.length by omega, take_length]

end

end LpWF

end Redis
