import Redis.Lib.Lists
import Redis.ListpackWF

/-! # Updating a listpack

`lpInsert` in its four uses is one splice of the buffer (`lpMakeRoom_spec`, `lpStore_spec`) followed
by an update of the header (`lpUpdateHeader_spec`). The bytes that `realloc` leaves undefined are
all overwritten, so the result does not depend on `junk`. -/

namespace Redis
open List

variable {lp : List UInt8} {ele : Option (List UInt8)} {num : Nat} {replace : Bool} {es : List LpEntry}

/-- What is stored for an element, with the length of a long string in full. -/
def lpElement (ele : List UInt8) : List UInt8 :=
  match lpStringToInt64 ele with
  | some v => lpEncodeInt v
  | none => lpEncodeString ele

def lpElementBytes (ele : List UInt8) : Nat :=
  (lpElement ele).length + (lpEncodeBacklen (lpElement ele).length).length

theorem lpEncodeString_length (s : List UInt8) : (lpEncodeString s).length =
      if s.length < 64 then 1 + s.length else if s.length < 4096 then 2 + s.length else 5 + s.length := by
  unfold lpEncodeString
  split_ifs
  · rw [length_cons, add_comm]
  · rw [length_cons, length_cons]
    omega
  · rw [length_cons, length_append, leBytes_length]
    omega

/-- The bytes of an element if its length is taken in 32 bits. -/
def lpWrappedBytes (ele : List UInt8) : Nat :=
  (lpElement ele).length % 2 ^ 32 + (lpEncodeBacklen ((lpElement ele).length % 2 ^ 32)).length

theorem lpEncodeGetType_length (ele : List UInt8) : (lpEncodeGetType ele).2 = (lpElement ele).length % 2 ^ 32 := by
  unfold lpEncodeGetType lpElement
  cases lpStringToInt64 ele with
  | some v =>
    refine (Nat.mod_eq_of_lt (show (lpEncodeInt v).length < 2 ^ 32 from ?_)).symm
    unfold lpEncodeInt
    split_ifs <;> simp [leBytes_length]
  | none =>
    dsimp only
    rw [lpEncodeString_length]
    split_ifs <;> omega

theorem exists_entry (ele : List UInt8) (h : (lpElement ele).length ≤ uint32Max) :
    ∃ e : LpEntry, e.enc = lpElement ele ∧ e.val = ele ∧ (lpEncodeGetType ele).2 = e.enc.length ∧
      (lpEncodeGetType ele).1.getD (lpEncodeString ele) = e.enc := by
  have henc : LpEncodes (lpElement ele) ele ∧ (lpEncodeGetType ele).2 = (lpElement ele).length ∧
      (lpEncodeGetType ele).1.getD (lpEncodeString ele) = lpElement ele := by
    unfold lpEncodeGetType lpElement
    cases hs : lpStringToInt64 ele with
    | some v =>
      obtain ⟨ha, h1, h2⟩ := lpStringToInt64_spec hs
      exact ⟨ha ▸ lpEncodeInt_encodes h1 h2, rfl, rfl⟩
    | none =>
      rw [lpElement, hs] at h
      simp only [uint32Max] at h
      have hlen := lpEncodeString_length ele
      refine ⟨lpEncodeString_encodes ?_, ?_, rfl⟩
      · split_ifs at hlen <;> omega
      rw [hlen]
      split_ifs at hlen ⊢
      · rfl
      · rfl
      · exact Nat.mod_eq_of_lt (by omega)
  exact ⟨⟨lpElement ele, henc.1.size, henc.1.not_eof⟩, rfl, by rw [LpEntry.val, henc.1.get]; rfl, henc.2⟩

/-! ### The splice -/

theorem lpMakeRoom_spec (junk : Nat → UInt8) {P Q S : List UInt8} {new room : Nat} (hlp : lp = P ++ (Q ++ S))
    (hnew : new = P.length + room + S.length) : ∃ X, X.length = room ∧
      lpMakeRoom junk lp lp.length new P.length Q.length room = some (P ++ (X ++ S)) := by
  have hlen : lp.length = P.length + Q.length + S.length := by
    rw [hlp, length_append, length_append, add_assoc]
  -- the buffer the `memmove` works on
  obtain ⟨L, hL⟩ : ∃ L, L = if new > lp.length then realloc junk lp new else lp := ⟨_, rfl⟩
  have hLlen : L.length = max new lp.length := by
    rw [hL]
    split_ifs
    · rw [realloc_length]
      omega
    · omega
  have hP : L.take P.length = P := by
    rw [hL]
    split_ifs
    · rw [take_realloc junk (by omega) (by omega), hlp, take_left]
    · rw [hlp, take_left]
  have hS : (L.drop (P.length + Q.length)).take S.length = S := by
    have hdrop : lp.drop (P.length + Q.length) = S := by
      rw [hlp, ← drop_drop, drop_left, drop_left]
    rw [hL]
    split_ifs
    · rw [take_drop_realloc junk (by omega) (by omega), hdrop, take_length]
    · rw [hdrop, take_length]
  have hX : L.take (P.length + room) = P ++ (L.drop P.length).take room := by
    rw [take_add, hP]
  refine ⟨(L.drop P.length).take room, by rw [length_take, length_drop]; omega, ?_⟩
  have hrest : lp.length - P.length - Q.length = S.length := by omega
  rw [lpMakeRoom, ← hL, hrest, memmove, if_pos (by omega), hS, hX]
  simp only
  split_ifs with hlt
  · rw [realloc, show new - _ = 0 by simp only [length_append, length_take, length_drop]; omega,
      range_zero, map_nil, append_nil, ← append_assoc,
      take_left' (by simp only [length_append, length_take, length_drop]; omega),
      append_assoc]
  · have hend : L.drop (P.length + room + S.length) = [] := drop_of_length_le (by omega)
    rw [hend, append_nil, append_assoc]

theorem lpStore_spec {P X S ele : List UInt8} {e : LpEntry} (henclen : (lpEncodeGetType ele).2 = e.enc.length)
    (henc : (lpEncodeGetType ele).1.getD (lpEncodeString ele) = e.enc) (hX : X.length = e.bytes.length) :
    lpStore (P ++ (X ++ S)) P.length (some ele) = some (P ++ (e.bytes ++ S)) := by
  rw [LpEntry.bytes, length_append] at hX
  have hback : (P ++ e.enc).length = P.length + e.enc.length := length_append
  unfold lpStore
  simp only [henclen, henc]
  rw [memcpy_middle (by omega)]
  simp only
  rw [← append_assoc, ← hback, memcpy_middle (by rw [length_drop]; omega), drop_drop,
    drop_of_length_le (by omega), LpEntry.bytes, append_assoc, append_assoc, nil_append]

theorem lpUpdateHeader_spec (total new : Nat) (rest : List UInt8) (replace : Bool) (ele : Option (List UInt8))
    (hnum : num ≤ lpHdrNumeleUnknown) : lpUpdateHeader (lpHeader total num ++ rest) replace ele new =
      some (lpHeader new (if (replace = false ∨ ele = none) ∧ num ≠ lpHdrNumeleUnknown then
        (if ele.isSome then num + 1 else (num + 2 ^ 32 - 1) % 2 ^ 32) else num) ++ rest) := by
  have htotal : ∀ n, lpSetTotalBytes (lpHeader total n ++ rest) new = some (lpHeader new n ++ rest) := fun n => rfl
  have hset : ∀ n, lpSetNumElements (lpHeader total num ++ rest) n = some (lpHeader total n ++ rest) := fun n => rfl
  unfold lpUpdateHeader
  rw [lpGetNumElements_header total rest hnum]
  by_cases h1 : replace = false ∨ ele = none
  · rw [if_pos h1]
    by_cases h2 : num ≠ lpHdrNumeleUnknown
    · simp only [if_pos h2, hset, htotal, if_pos (And.intro h1 h2)]
    · simp only [if_neg h2, htotal]
      rw [if_neg fun h => h2 h.2]
  · rw [if_neg h1, if_neg fun h => h1 h.1]
    exact htotal num

/-! ### `lpInsert` -/

/-- The entries stored for `ele`: none for a deletion. -/
inductive LpStored : Option (List UInt8) → List LpEntry → Prop
  | none : LpStored none []
  | some (ele : List UInt8) (e : LpEntry) : (lpEncodeGetType ele).2 = e.enc.length →
      (lpEncodeGetType ele).1.getD (lpEncodeString ele) = e.enc → LpStored (some ele) [e]

theorem lpCount_update {n i k : Nat} {N : List LpEntry} (hN : LpStored ele N) (hne : replace = false → ele ≠ none)
    (hk : k = if replace then 1 else 0) (hi : i + k ≤ n)
    (hcount : num = n ∧ num < lpHdrNumeleUnknown ∨ num = lpHdrNumeleUnknown) (num' : Nat)
    (hnum' : num' = if (replace = false ∨ ele = none) ∧ num ≠ lpHdrNumeleUnknown then
      (if ele.isSome then num + 1 else (num + 2 ^ 32 - 1) % 2 ^ 32) else num) :
    num' = i + N.length + (n - (i + k)) ∧ num' < lpHdrNumeleUnknown ∨ num' = lpHdrNumeleUnknown := by
  simp only [lpHdrNumeleUnknown] at *
  cases hN with
  | none =>
    rcases replace with - | -
    · exact absurd rfl (hne rfl)
    simp only [or_true, true_and, Option.isSome_none, if_true, Bool.false_eq_true, if_false] at hk hnum'
    rw [length_nil]
    split_ifs at hnum' <;> omega
  | some ele e h1 h2 =>
    rw [length_singleton]
    cases replace with
    | false =>
      simp only [true_or, true_and, Option.isSome_some, if_true, Bool.false_eq_true, if_false] at hk hnum'
      split_ifs at hnum' <;> omega
    | true =>
      simp only [reduceCtorEq, Bool.true_eq_false, or_self, false_and, if_false, if_true] at hk hnum'
      omega

theorem LpWF.replaced {i k : Nat} (h : LpWF lp es num) (hk : k = if replace then 1 else 0) (hi : i + k ≤ es.length) :
    ∃ cur, (if replace then lpCurrentEncodedSize (lp.drop (lpOffset es i)) else some 0) = some cur ∧
      (if replace then (cur + (lpEncodeBacklen cur).length) % 2 ^ 32 else 0) = (lpBlob ((es.drop i).take k)).length ∧
      (lpBlob ((es.drop i).take k)).length ≤ lp.length := by
  have hle : (lpBlob ((es.drop i).take k)).length ≤ (lpBlob es).length := by
    conv_rhs => rw [← take_append_drop i es, lpBlob_append, ← take_append_drop k (es.drop i),
      lpBlob_append]
    simp only [length_append]
    omega
  have hlen := h.length_eq
  rcases replace with - | -
  · exact ⟨0, rfl, by rw [hk]; rfl, by omega⟩
  have hlt : i < es.length := by
    rw [hk, if_pos rfl] at hi
    omega
  have he : es[i]? = some es[i] := getElem?_eq_getElem hlt
  have hQ : (lpBlob ((es.drop i).take k)).length =
      es[i].enc.length + (lpEncodeBacklen es[i].enc.length).length := by
    rw [hk, LpWF.drop_cons he, if_pos rfl, take_succ_cons, lpBlob_cons, LpEntry.bytes]
    simp [lpBlob]
  have hmax := h.total
  simp only [uint32Max] at hmax
  refine ⟨es[i].enc.length, h.currentSize he, ?_, by omega⟩
  rw [← hQ]
  exact Nat.mod_eq_of_lt (by omega)

theorem lpInsertAt_spec (junk : Nat → UInt8) (replace : Bool) {N : List LpEntry} {i k : Nat} (h : LpWF lp es num)
    (hk : k = if replace then 1 else 0) (hi : i + k ≤ es.length) (hN : LpStored ele N)
    (hne : replace = false → ele ≠ none)
    (hfit : lp.length + (lpBlob N).length ≤ uint32Max + (lpBlob ((es.drop i).take k)).length) :
    ∃ lp' num', lpInsertAt junk lp ele (lpOffset es i) replace =
        some (some (lp', if ele = none ∧ es.length ≤ i + k then none else some (lpOffset es i))) ∧
      LpWF lp' (es.take i ++ (N ++ es.drop (i + k))) num' := by
  obtain ⟨hlp, hP⟩ := h.split i
  obtain ⟨cur, hcur1, hcur2, -⟩ := h.replaced hk hi
  obtain ⟨Q, hQdef⟩ : ∃ Q, Q = lpBlob ((es.drop i).take k) := ⟨_, rfl⟩
  obtain ⟨S, hSdef⟩ : ∃ S, S = lpBlob (es.drop (i + k)) ++ [lpEof] := ⟨_, rfl⟩
  obtain ⟨A, hA⟩ : ∃ A, A = lpBlob (es.take i) := ⟨_, rfl⟩
  have hsplit : lp = (lpHeader lp.length num ++ A) ++ (Q ++ S) := by
    have : lpBlob (es.drop i) = Q ++ lpBlob (es.drop (i + k)) := by
      rw [hQdef, ← lpBlob_append, ← drop_drop, take_append_drop]
    rw [hSdef, ← append_assoc Q, ← this, hA]
    exact hlp
  rw [← hA] at hP
  rw [← hQdef] at hfit hcur2
  have hlen : lp.length = lpOffset es i + Q.length + S.length := by
    have := congrArg List.length hsplit
    rw [length_append, hP, length_append] at this
    omega
  obtain ⟨new, hnew⟩ : ∃ new, new = lpOffset es i + (lpBlob N).length + S.length := ⟨_, rfl⟩
  obtain ⟨X, hX, hroom⟩ := lpMakeRoom_spec junk hsplit (hP ▸ hnew)
  rw [hP] at hroom
  -- the element is stored in the room, or there is none
  have hstore : lpStore ((lpHeader lp.length num ++ A) ++ (X ++ S)) (lpOffset es i) ele =
      some ((lpHeader lp.length num ++ A) ++ (lpBlob N ++ S)) := by
    rcases hN with - | ⟨ele, e, h1, h2⟩
    · rw [eq_nil_of_length_eq_zero hX]
      rfl
    have hblob : lpBlob [e] = e.bytes := by simp [lpBlob]
    rw [hblob] at hX ⊢
    rw [← hP]
    exact lpStore_spec h1 h2 hX
  have hlenN : lpEnclen ele + (if ele.isSome = true then (lpEncodeBacklen (lpEnclen ele)).length else 0) =
      (lpBlob N).length := by
    cases hN with
    | none => rfl
    | some ele e h1 h2 => simp [lpEnclen, h1, lpBlob, LpEntry.bytes]
  have hmod : (lp.length + (lpBlob N).length + 2 ^ 64 - Q.length) % 2 ^ 64 = new := by
    simp only [uint32Max] at hfit
    omega
  have hsize : (es.take i ++ (N ++ es.drop (i + k))).length = i + N.length + (es.length - (i + k)) := by
    rw [length_append, length_append, length_take, length_drop]
    omega
  have hupd := lpUpdateHeader_spec lp.length new (A ++ (lpBlob N ++ S)) replace ele h.num_le
  have hcount := lpCount_update hN hne hk hi h.count _ rfl
  rw [← hsize] at hcount
  generalize (if (replace = false ∨ ele = none) ∧ num ≠ lpHdrNumeleUnknown then
    (if ele.isSome then num + 1 else (num + 2 ^ 32 - 1) % 2 ^ 32) else num) = num' at hupd hcount
  refine ⟨lpHeader new num' ++ (A ++ (lpBlob N ++ S)), num', ?_, ?_⟩
  · -- the byte at the place tells `*newp` of a deletion
    have hhead : ∃ b, ((lpHeader lp.length num ++ A) ++ (X ++ S))[lpOffset es i]? = some b ∧
        (ele = none → (b = lpEof ↔ es.length ≤ i + k)) := by
      rw [← hP, getElem?_append_right le_rfl, Nat.sub_self]
      cases hN with
      | none =>
        obtain ⟨b, hb, hiff⟩ := h.head_offset (i + k)
        rw [h.getElem?_offset, ← hSdef] at hb
        rw [eq_nil_of_length_eq_zero hX]
        exact ⟨b, hb, fun _ => hiff⟩
      | some ele e h1 h2 =>
        cases X with
        | nil =>
          have := (lpEncodeBacklen_length e.enc.length).1
          rw [length_nil, lpBlob_cons, LpEntry.bytes, length_append, length_append] at hX
          omega
        | cons b X => exact ⟨b, rfl, fun hnone => by cases hnone⟩
    obtain ⟨b, hb, hiff⟩ := hhead
    have hnewp : (if ele = none ∧ b = lpEof then none else some (lpOffset es i)) =
        if ele = none ∧ es.length ≤ i + k then none else some (lpOffset es i) := by
      by_cases hele : ele = none
      · simp only [hele, true_and, hiff hele]
      · simp only [hele, false_and]
    rw [append_assoc (lpHeader _ _) A (lpBlob N ++ S)] at hstore
    unfold lpInsertAt
    simp only [h.totalBytes, hcur1, hcur2]
    rw [add_assoc lp.length, hlenN, hmod]
    rw [if_neg (by simp only [uint32Max] at hfit ⊢; omega), hroom]
    simp only [hb, hstore, hupd, Option.map_some, hnewp]
  · have hlen' : (lpHeader new num' ++ (A ++ (lpBlob N ++ S))).length = new := by
      have hA' : lpOffset es i = lpHdrSize + A.length := by rw [lpOffset, hA]
      simp
      omega
    refine ⟨?_, ?_, hcount⟩
    · rw [hlen', hA, hSdef, lpBlob_append, lpBlob_append]
      simp
    · omega

def lpVals (es : List LpEntry) : List (List UInt8) := es.map LpEntry.val

section
variable (junk : Nat → UInt8) {lp ele : List UInt8} {es : List LpEntry} {num i : Nat}

theorem exists_stored {room : Nat} (hfit : room + lpElementBytes ele ≤ uint32Max) :
    ∃ e, LpStored (some ele) [e] ∧ e.val = ele ∧ (lpBlob [e]).length = lpElementBytes ele := by
  obtain ⟨e, henc, hval, h1, h2⟩ := exists_entry ele (by rw [lpElementBytes] at hfit; omega)
  refine ⟨e, .some ele e h1 h2, hval, ?_⟩
  rw [lpElementBytes, ← henc]
  simp [lpBlob, LpEntry.bytes]

theorem lpBlob_take_one {old : LpEntry} (hi : es[i]? = some old) : lpBlob ((es.drop i).take 1) = old.bytes := by
  rw [LpWF.drop_cons hi, take_succ_cons]
  simp [lpBlob]

section
variable (h : LpWF lp es num)
include h

theorem lpInsertAt_before (hi : i ≤ es.length) (hfit : lp.length + lpElementBytes ele ≤ uint32Max) :
    ∃ lp' es' num', lpInsertAt junk lp (some ele) (lpOffset es i) false = some (some (lp', some (lpOffset es i))) ∧
      LpWF lp' es' num' ∧ lpVals es' = (lpVals es).insertIdx i ele := by
  obtain ⟨e, hst, hval, hlen⟩ := exists_stored hfit
  obtain ⟨lp', num', hins, hwf⟩ := lpInsertAt_spec junk false h rfl hi hst (fun _ => Option.some_ne_none _)
    (by rw [hlen]; omega)
  refine ⟨lp', _, num', ?_, hwf, ?_⟩
  · rw [hins, if_neg fun hn => Option.some_ne_none _ hn.1]
  · rw [insertIdx_eq_take_drop _ _ (by rw [lpVals, length_map]; exact hi)]
    simp [lpVals, hval]

theorem lpInsert_after (hi : i < es.length) (hfit : lp.length + lpElementBytes ele ≤ uint32Max) :
    ∃ lp' es' num', lpInsert junk lp (some ele) (lpOffset es i) .after = some (some (lp', some (lpOffset es (i + 1)))) ∧
      LpWF lp' es' num' ∧ lpVals es' = (lpVals es).insertIdx (i + 1) ele := by
  obtain ⟨lp', es', num', hins, hwf, hvals⟩ := lpInsertAt_before junk h hi hfit
  exact ⟨lp', es', num', by simpa [lpInsert, h.skip hi] using hins, hwf, hvals⟩

theorem lpInsertAt_null_iff {replace : Bool} {k : Nat} (hk : k = if replace then 1 else 0) (hi : i + k ≤ es.length) :
    lpInsertAt junk lp (some ele) (lpOffset es i) replace = some none ↔
      uint32Max < lp.length - (lpBlob ((es.drop i).take k)).length + lpWrappedBytes ele := by
  obtain ⟨cur, hcur1, hcur2, hle⟩ := h.replaced hk hi
  have hback := (lpEncodeBacklen_length ((lpElement ele).length % 2 ^ 32)).2
  have hmax := h.total
  have hlen : (lpElement ele).length % 2 ^ 32 < 2 ^ 32 := Nat.mod_lt _ (by decide)
  unfold lpInsertAt
  simp only [h.totalBytes, hcur1, hcur2, lpEnclen, lpEncodeGetType_length, Option.isSome_some, if_true]
  -- the sum of three 32-bit numbers does not wrap in the 64 bits of `new_listpack_bytes`
  generalize hnew : (lp.length + (lpElement ele).length % 2 ^ 32 + (lpEncodeBacklen ((lpElement ele).length % 2 ^ 32)).length +
    2 ^ 64 - (lpBlob ((es.drop i).take k)).length) % 2 ^ 64 = new
  have hsum : new = lp.length - (lpBlob ((es.drop i).take k)).length + lpWrappedBytes ele := by
    simp only [lpWrappedBytes, uint32Max] at hmax ⊢
    omega
  rw [← hsum]
  by_cases hbig : new > uint32Max
  · rw [if_pos hbig]
    exact iff_of_true rfl hbig
  · rw [if_neg hbig]
    refine iff_of_false (fun heq => ?_) hbig
    split at heq
    · cases heq
    split at heq
    · obtain ⟨lp', -, hsome⟩ := Option.map_eq_some_iff.1 heq
      cases hsome
    · cases heq

theorem lpInsert_replace {old : LpEntry} (hi : es[i]? = some old)
    (hfit : lp.length - old.bytes.length + lpElementBytes ele ≤ uint32Max) :
    ∃ lp' es' num', lpInsert junk lp (some ele) (lpOffset es i) .replace = some (some (lp', some (lpOffset es i))) ∧
      LpWF lp' es' num' ∧ lpVals es' = (lpVals es).set i ele := by
  obtain ⟨hlt, -⟩ := List.getElem?_eq_some_iff.1 hi
  obtain ⟨e, hst, hval, hlen⟩ := exists_stored hfit
  have hold := lpBlob_take_one hi
  obtain ⟨lp', num', hins, hwf⟩ := lpInsertAt_spec junk true h (k := 1) rfl hlt hst
    (fun hf => absurd hf (by decide))
    (by rw [hold]; omega)
  refine ⟨lp', _, num', ?_, hwf, ?_⟩
  · simpa [lpInsert] using hins
  · rw [set_eq_take_append_cons_drop, if_pos (by rw [lpVals, length_map]; exact hlt)]
    simp [lpVals, hval]

theorem lpAppend_spec (hfit : lp.length + lpElementBytes ele ≤ uint32Max) :
    ∃ lp' es' num' newp, lpAppend junk lp ele = some (some (lp', newp)) ∧
      LpWF lp' es' num' ∧ lpVals es' = lpVals es ++ [ele] := by
  obtain ⟨lp', es', num', hins, hwf, hvals⟩ := lpInsertAt_before junk h le_rfl hfit
  have hlen := h.length_eq
  refine ⟨lp', es', num', some (lpOffset es es.length), ?_, hwf, ?_⟩
  · rw [lpAppend, h.totalBytes]
    simp only
    rw [if_neg (by omega), ← h.offset_length]
    exact hins
  · have hl : (lpVals es).length = es.length := length_map ..
    rw [hvals, insertIdx_eq_take_drop _ _ (by rw [hl]), ← hl, take_length, drop_length]

theorem lpDelete_spec (hi : i < es.length) :
    ∃ lp' es' num', lpDelete junk lp (lpOffset es i) = some (some (lp', lpPtr es' i)) ∧
      LpWF lp' es' num' ∧ lpVals es' = (lpVals es).eraseIdx i := by
  have hmax := h.total
  obtain ⟨lp', num', hins, hwf⟩ := lpInsertAt_spec junk true h (k := 1) rfl hi .none
    (fun hf => absurd hf (by decide))
    (by show lp.length + 0 ≤ _; omega)
  refine ⟨lp', _, num', ?_, hwf, ?_⟩
  · have hptr : lpPtr (es.take i ++ ([] ++ es.drop (i + 1))) i =
        if es.length ≤ i + 1 then none else some (lpOffset es i) := by
      have htake : (es.take i ++ ([] ++ es.drop (i + 1))).take i = es.take i :=
        take_left' (by rw [length_take]; omega)
      rw [lpPtr, lpOffset, htake]
      simp only [length_append, length_take, length_drop, length_nil]
      split_ifs <;> first | rfl | omega
    rw [hptr]
    simpa [lpDelete, lpInsert] using hins
  · rw [eraseIdx_eq_take_drop_succ]
    simp [lpVals]

end

end

/-- Every update of a well-formed listpack that fits in `2 ^ 32 - 1` bytes gives a well-formed listpack
with that one change; `lpGet` returns the strings, both walks and both ways to seek agree, and the
header counts the elements or says that it does not. -/
theorem listpack_refines_list (junk : Nat → UInt8) {lp : List UInt8} {es : List LpEntry} {num : Nat}
    (h : LpWF lp es num) :
    (∀ ele i, i ≤ es.length → lp.length + lpElementBytes ele ≤ uint32Max →
      ∃ lp' es' num', lpInsert junk lp (some ele) (lpOffset es i) .before =
          some (some (lp', some (lpOffset es i))) ∧
        LpWF lp' es' num' ∧ lpVals es' = (lpVals es).insertIdx i ele) ∧
    (∀ ele i, i < es.length → lp.length + lpElementBytes ele ≤ uint32Max →
      ∃ lp' es' num', lpInsert junk lp (some ele) (lpOffset es i) .after =
          some (some (lp', some (lpOffset es (i + 1)))) ∧
        LpWF lp' es' num' ∧ lpVals es' = (lpVals es).insertIdx (i + 1) ele) ∧
    (∀ ele i old, es[i]? = some old → lp.length - old.bytes.length + lpElementBytes ele ≤ uint32Max →
      ∃ lp' es' num', lpInsert junk lp (some ele) (lpOffset es i) .replace =
          some (some (lp', some (lpOffset es i))) ∧
        LpWF lp' es' num' ∧ lpVals es' = (lpVals es).set i ele) ∧
    (∀ ele, lp.length + lpElementBytes ele ≤ uint32Max →
      ∃ lp' es' num' newp, lpAppend junk lp ele = some (some (lp', newp)) ∧
        LpWF lp' es' num' ∧ lpVals es' = lpVals es ++ [ele]) ∧
    (∀ i, i < es.length →
      ∃ lp' es' num', lpDelete junk lp (lpOffset es i) = some (some (lp', lpPtr es' i)) ∧
        LpWF lp' es' num' ∧ lpVals es' = (lpVals es).eraseIdx i) ∧
    (∀ i, i < es.length → lpGet (lp.drop (lpOffset es i)) = (lpVals es)[i]?) ∧
    (∃ p, lpFirst lp = some p ∧ lpWalk lp lpNext lp.length p = some (lpVals es)) ∧
    (∃ p, lpLast lp = some p ∧ lpWalk lp lpPrev lp.length p = some (lpVals es).reverse) ∧
    (∀ i : Nat, i < es.length → lpSeek lp i = some (some (lpOffset es i)) ∧
      lpSeek lp ((i : Int) - es.length) = some (some (lpOffset es i))) ∧
    (lpGetNumElements lp = some es.length ∨ lpGetNumElements lp = some lpHdrNumeleUnknown) := by
  refine ⟨fun ele i hi hf => lpInsertAt_before junk h hi hf, fun ele i hi hf => lpInsert_after junk h hi hf,
    fun ele i old hi hf => lpInsert_replace junk h hi hf, fun ele hf => lpAppend_spec junk h hf,
    fun i hi => lpDelete_spec junk h hi, fun i hi => ?_, h.walk_first, h.walk_last, fun i hi => h.seek hi, ?_⟩
  · rw [h.get (getElem?_eq_getElem hi), lpVals, getElem?_map, getElem?_eq_getElem hi]
    rfl
  rw [h.numElements]
  rcases h.count with ⟨hnum, -⟩ | hnum
  · exact .inl (congrArg some hnum)
  · exact .inr (congrArg some hnum)

/-- The elements `7`, `ab` and `-5`. -/
def threeElements : List LpEntry :=
  [⟨[7], by decide, by decide⟩, ⟨[0x82, 97, 98], by decide, by decide⟩, ⟨[0xdf, 0xfb], by decide, by decide⟩]

/-- A replacement and a deletion in a listpack of three elements, and an element behind them. -/
theorem listpack_refines_list_three :
    let lp := lpHeader 16 3 ++ (lpBlob threeElements ++ [lpEof])
    LpWF lp threeElements 3 ∧ lpVals threeElements = [[55], [97, 98], [45, 53]] ∧
      (∃ lp' es' num', lpInsert (fun _ => 0) lp (some [45, 54]) (lpOffset threeElements 1) .replace =
          some (some (lp', some (lpOffset threeElements 1))) ∧
        LpWF lp' es' num' ∧ lpVals es' = [[55], [45, 54], [45, 53]]) ∧
      (∃ lp' es' num', lpDelete (fun _ => 0) lp (lpOffset threeElements 0) = some (some (lp', lpPtr es' 0)) ∧
        LpWF lp' es' num' ∧ lpVals es' = [[97, 98], [45, 53]]) ∧
      ∃ lp' es' num' newp, lpAppend (fun _ => 0) lp [] = some (some (lp', newp)) ∧
        LpWF lp' es' num' ∧ lpVals es' = [[55], [97, 98], [45, 53], []] := by
  intro lp
  have hwf : LpWF lp threeElements 3 := ⟨by decide, by decide, .inl ⟨rfl, by decide⟩⟩
  have hvals : lpVals threeElements = [[55], [97, 98], [45, 53]] := by decide
  obtain ⟨-, -, hreplace, happend, hdelete, -⟩ := listpack_refines_list (fun _ => 0) hwf
  rw [hvals] at hreplace happend hdelete
  exact ⟨hwf, hvals, hreplace [45, 54] 1 _ rfl (by decide), hdelete 0 (by decide), happend [] (by decide)⟩

/-- The total that `lpInsert` sees is too large if the true one is; `room` is what the other elements take. -/
def LpSeen (room : Nat) (ele : List UInt8) : Prop :=
  uint32Max < room + lpElementBytes ele → uint32Max < room + lpWrappedBytes ele

theorem lpElement_replicate {n : Nat} (hn : 4096 ≤ n) : lpEncodeGetType (replicate n 97) = (none, (5 + n) % 2 ^ 32) ∧
      (lpElement (replicate n 97)).length = 5 + n ∧ (lpEncodeString (replicate n 97)).length = 5 + n := by
  have hnone : lpStringToInt64 (replicate n 97) = none := by
    obtain ⟨m, rfl⟩ : ∃ m, n = m + 2 := ⟨n - 2, by omega⟩
    simp [replicate_succ, lpStringToInt64, lpUnsigned]
  have h64 : ¬n < 64 := by omega
  have h4096 : ¬n < 4096 := by omega
  simp [lpEncodeGetType, lpElement, hnone, lpEncodeString_length, h64, h4096]

theorem lpInsert_past_end {ele : List UInt8} (htype : lpEncodeGetType ele = (none, 0))
    (hlen : 2 < (lpEncodeString ele).length) : lpInsert (fun _ => 0) lpNew (some ele) 6 .before = none := by
  have htot : lpGetTotalBytes lpNew = some 7 := rfl
  have hroom : lpMakeRoom (fun _ => 0) lpNew 7 8 6 0 1 = some [7, 0, 0, 0, 0, 0, 0xff, 0xff] := rfl
  have hstore : lpStore [7, 0, 0, 0, 0, 0, 0xff, 0xff] 6 (some ele) = none := by
    simp only [lpStore, htype, Option.getD_none, memcpy]
    rw [if_neg (by simp only [length_cons, length_nil]; omega)]
  simp [lpInsert, lpInsertAt, lpEnclen, htype, htot, lpEncodeBacklen, uint32Max, hroom, hstore]

end Redis
