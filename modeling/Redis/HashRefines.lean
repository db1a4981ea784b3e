import Redis.HashType

/-! # A hash object is a finite map

Both encodings store a list of pairs with distinct fields. Conversion and iteration go through the
same iterator, so one statement about the pairs it yields serves both. -/

open scoped List

namespace Redis
open List Function Option

variable {hash : Sds → BitVec 64}
variable {fuel : Nat} {s : Sds} {o : HashObj} {hi : HashIterator}

/-! ### Lengths of numbers -/

/-- The number `v` is written with `k` digits. -/
structure HasDigits (v k : Nat) : Prop where
  pos : 1 ≤ k
  lt : v < 10 ^ k
  ge : k = 1 ∨ 10 ^ (k - 1) ≤ v

theorem decDigits_length {n k : Nat} (h : HasDigits n k) (hkf : k ≤ fuel) : (decDigits fuel n).length = k := by
  induction fuel generalizing n k with
  | zero => exact absurd h.pos (by omega)
  | succ fuel ih =>
    obtain ⟨hk, hlt, hge⟩ := h
    rw [decDigits]
    rcases lt_or_ge k 2 with h1 | h2
    · obtain rfl : k = 1 := by omega
      rw [if_pos (by simpa using hlt)]
      rfl
    obtain ⟨j, rfl⟩ : ∃ j, k = j + 2 := ⟨k - 2, by omega⟩
    have hpow' : 10 ^ (j + 2) = 10 ^ (j + 1) * 10 := pow_succ ..
    have hge := hge.resolve_left (by omega)
    simp only [show j + 2 - 1 = j + 1 by omega] at hge
    rw [if_neg (by omega), length_append, length_singleton]
    have hdigits : HasDigits (n / 10) (j + 1) := by
      refine ⟨by omega, by omega, .inr ?_⟩
      rw [Nat.add_sub_cancel]
      omega
    rw [ih hdigits (by omega)]

theorem digits10_small {v : Nat} (h : v < 10 ^ 12) : HasDigits v (digits10 (fuel + 1) v) := by
  rw [digits10]
  repeat' split
  all_goals exact ⟨by omega, by omega, by omega⟩

theorem HasDigits.le {v k n : Nat} (h : HasDigits v k) (hv : v < 10 ^ n) (hn : 1 ≤ n) : k ≤ n := by
  rcases h.ge with rfl | hge
  · exact hn
  · have := (Nat.pow_lt_pow_iff_right (show 1 < 10 by decide)).1 (hge.trans_lt hv)
    omega

theorem digits10_hasDigits {v : Nat} (h : v < 2 ^ 64) : HasDigits v (digits10 2 v) := by
  by_cases hsmall : v < 10 ^ 12
  · exact digits10_small hsmall
  have hrest : HasDigits (v / 1000000000000) (digits10 1 (v / 1000000000000)) := digits10_small (by omega)
  have heq : digits10 2 v = 12 + digits10 1 (v / 1000000000000) := by
    rw [digits10, if_neg (by omega), if_neg (by omega), if_neg (by omega), if_neg (by omega)]
  obtain ⟨hpos, hlt, hge⟩ := hrest
  rw [heq]
  generalize digits10 1 (v / 1000000000000) = k at *
  have hpow : 10 ^ (12 + k) = 1000000000000 * 10 ^ k := by rw [Nat.pow_add]
  have hpow' : 10 ^ (12 + k - 1) = 1000000000000 * 10 ^ (k - 1) := by
    rw [show 12 + k - 1 = 12 + (k - 1) by omega, Nat.pow_add]
  refine ⟨by omega, by omega, .inr ?_⟩
  rcases hge with rfl | hge
  · omega
  · omega

theorem sdigits10_eq {v : Int} (h : -2 ^ 63 ≤ v ∧ v < 2 ^ 63) : sdigits10 v = (lltoa v).length := by
  have habs : v.natAbs < 2 ^ 64 := by omega
  have hdigits := digits10_hasDigits habs
  have hlen : (decDigits 20 v.natAbs).length = _ := decDigits_length hdigits (hdigits.le (by omega) (by decide))
  rw [sdigits10, lltoa]
  split
  · rw [length_cons, hlen]
    split
    · rw [show (-v).toNat = v.natAbs by omega]
    · rw [show 2 ^ 63 = v.natAbs by omega]
  · rw [hlen, show v.toNat = v.natAbs by omega]

/-! ### Lists of pairs -/

/-- The pairs are those of the map, one for each field. -/
structure IsMap (ps : List (Sds × Sds)) (m : Sds → Option Sds) : Prop where
  nodup : (ps.map Prod.fst).Nodup
  mem : ∀ f v, m f = some v ↔ (f, v) ∈ ps

variable {ps a b : List (Sds × Sds)} {m : Sds → Option Sds} {f v w : Sds}

theorem IsMap.eq_none_iff (h : IsMap ps m) : m f = none ↔ f ∉ ps.map Prod.fst := by
  rw [eq_none_iff_forall_ne_some, List.mem_map]
  constructor
  · rintro hne ⟨⟨f', v⟩, hmem, rfl⟩
    exact hne v ((h.mem _ v).2 hmem)
  · intro hne v hv
    exact hne ⟨(f, v), (h.mem f v).1 hv, rfl⟩

theorem IsMap.perm {ps' : List (Sds × Sds)} (h : IsMap ps m) (hp : ps ~ ps') : IsMap ps' m :=
  ⟨(hp.map _).nodup_iff.1 h.nodup, fun f v => (h.mem f v).trans hp.mem_iff⟩

theorem IsMap.cons (h : IsMap ps m) (hf : m f = none) : IsMap ((f, v) :: ps) (update m f (some v)) := by
  have hnot := h.eq_none_iff.1 hf
  refine ⟨nodup_cons.2 ⟨hnot, h.nodup⟩, fun f' v' => ?_⟩
  rw [mem_cons, Prod.mk.injEq, update_apply]
  split
  next heq =>
    subst heq
    have hps : (f', v') ∉ ps := fun hmem => hnot (mem_map_of_mem hmem)
    simp [hps, eq_comm]
  next hne => simp [hne, h.mem]

theorem IsMap.of_cons (h : IsMap ((f, v) :: ps) m) : IsMap ps (update m f none) := by
  obtain ⟨hnot, hn⟩ : f ∉ ps.map Prod.fst ∧ _ := nodup_cons.1 h.nodup
  refine ⟨hn, fun f' v' => ?_⟩
  rw [update_apply]
  split
  next heq =>
    subst heq
    have hps : (f', v') ∉ ps := fun hmem => hnot (mem_map_of_mem hmem)
    simp [hps]
  next hne => simp [h.mem, hne]

theorem IsMap.append (h : IsMap ps m) (hf : m f = none) : IsMap (ps ++ [(f, v)]) (update m f (some v)) :=
  (h.cons hf).perm (perm_append_singleton ..).symm

section
variable (h : IsMap (a ++ (f, v) :: b) m)
include h

theorem IsMap.not_mem : f ∉ a.map Prod.fst := by
  have hn := h.nodup
  rw [map_append, map_cons, nodup_append] at hn
  exact fun hf => hn.2.2 f hf f (.head _) rfl

theorem IsMap.erase : IsMap (a ++ b) (update m f none) := (h.perm perm_middle).of_cons

theorem IsMap.replace : IsMap (a ++ (f, w) :: b) (update m f (some w)) := by
  have hr := h.erase.cons (v := w) (update_self ..)
  rw [update_idem] at hr
  exact hr.perm perm_middle.symm

end

/-! ### Pairs in a ziplist -/

def zipPairs (ps : List (Sds × Sds)) : List ZlValue := ps.flatMap fun p => [zipEncode p.1, zipEncode p.2]

theorem zipPairs_length (ps : List (Sds × Sds)) : (zipPairs ps).length = 2 * ps.length := by
  induction ps with
  | nil => rfl
  | cons p ps ih =>
    rw [zipPairs, flatMap_cons, length_append, ← zipPairs]
    simp
    omega

theorem zipPairs_append (a b : List (Sds × Sds)) : zipPairs (a ++ b) = zipPairs a ++ zipPairs b :=
  flatMap_append

theorem zipPairs_cons (p : Sds × Sds) (ps : List (Sds × Sds)) :
    zipPairs (p :: ps) = zipEncode p.1 :: zipEncode p.2 :: zipPairs ps := rfl

theorem zipEncode_inj {t : Sds} (h : zipEncode s = zipEncode t) : s = t := by
  rw [← zipEncode_bytes s, h, zipEncode_bytes]

theorem eq_iff_of_zipEncode_str {t u : Sds} (h : zipEncode s = .str u) : u = t ↔ s = t := by
  have hbytes := zipEncode_bytes s
  rw [h] at hbytes
  rw [show u = s from hbytes]

theorem zipEncode_eq_int_iff {v : Int} : zipEncode s = .int v ↔ zipTryEncoding s = some v := by
  unfold zipEncode
  cases zipTryEncoding s <;> simp

theorem eq_iff_of_zipEncode_int {t : Sds} {v : Int} (h : zipEncode s = .int v) : zipTryEncoding t = some v ↔ s = t := by
  rw [← zipEncode_eq_int_iff, ← h]
  exact ⟨fun heq => (zipEncode_inj heq).symm, fun heq => heq ▸ rfl⟩

theorem ziplistFindLoop_pairs {es : List ZlEntry} (hes : es.map ZlEntry.value = zipPairs ps) (p : Nat)
    {venc : Option (Option Int)} (hv : venc.getD (zipTryEncoding f) = zipTryEncoding f) :
    ziplistFindLoop f 1 es p 0 venc = (ps.findIdx? fun q => decide (q.1 = f)).map fun j => p + 2 * j := by
  induction ps generalizing es p venc with
  | nil =>
    obtain rfl : es = [] := map_eq_nil_iff.1 hes
    rfl
  | cons q ps ih =>
    obtain ⟨e, es, rfl, he, hes⟩ := map_eq_cons_iff.1 hes
    obtain ⟨e', es, rfl, he', hes⟩ := map_eq_cons_iff.1 hes
    have hstep : ∀ venc' : Option (Option Int), venc'.getD (zipTryEncoding f) = zipTryEncoding f → q.1 ≠ f →
        ziplistFindLoop f 1 (e' :: es) (p + 1) 1 venc' =
          ((q :: ps).findIdx? fun q => decide (q.1 = f)).map fun j => p + 2 * j := by
      intro venc' hv' hne
      rw [ziplistFindLoop, ih hes (p + 1 + 1) hv', findIdx?_cons, if_neg (by simpa using hne),
        Option.map_map]
      congr 1
      funext j
      show p + 1 + 1 + 2 * j = p + 2 * (j + 1)
      omega
    have hfound : q.1 = f → (some p : Option Nat) =
        ((q :: ps).findIdx? fun q => decide (q.1 = f)).map fun j => p + 2 * j := by
      intro heq
      rw [findIdx?_cons, if_pos (by simpa using heq)]
      rfl
    rw [ziplistFindLoop.eq_def]
    dsimp only
    rw [he]
    cases henc : zipEncode q.1 with
    | str s =>
      have hcmp := eq_iff_of_zipEncode_str (t := f) henc
      dsimp only
      split
      next heq => exact hfound (hcmp.1 heq)
      next hne => exact hstep venc hv fun heq => hne (hcmp.2 heq)
    | int v =>
      have hcmp := eq_iff_of_zipEncode_int (t := f) henc
      dsimp only
      rw [hv]
      split
      next heq => exact hfound (hcmp.1 heq)
      next hne => exact hstep _ rfl fun heq => hne (hcmp.2 heq)

/-! ### The calls on a ziplist -/

/-- A ziplist with these pairs, whose length cannot overflow whatever the widths of its fields. -/
structure ZipHolds (zl : Ziplist) (ps : List (Sds × Sds)) : Prop where
  values : zl.values = zipPairs ps
  cap : zlCap zl.values < 2 ^ 32

variable {zl : Ziplist}

theorem ZipHolds.entries_length (h : ZipHolds zl ps) : zl.entries.length = 2 * ps.length := by
  rw [← Ziplist.values_length, h.values, zipPairs_length]

theorem ziplistArg_of_lt (h : s.length < 2 ^ 32) : ziplistArg s = s := by
  rw [ziplistArg, Nat.mod_eq_of_lt h, take_length]

theorem hashTypeFindField_eq (h : ZipHolds zl ps) (hf : f.length < 2 ^ 32) :
    hashTypeFindField zl f = (ps.findIdx? fun q => decide (q.1 = f)).map (2 * ·) := by
  rw [hashTypeFindField, ziplistArg_of_lt hf]
  rcases ps with - | ⟨p, ps⟩
  · have hnil : zl.entries.length = 0 := h.entries_length
    simp [ziplistIndex, hnil]
  have hlen := h.entries_length
  have hidx : ziplistIndex zl 0 = some 0 := by
    rw [ziplistIndex, if_neg (by decide), if_pos (by rw [hlen, length_cons, Int.toNat_zero]; omega)]
    rfl
  rw [hidx, bind_some, ziplistFind, drop_zero, ziplistFindLoop_pairs h.values 0 rfl]
  simp

theorem findIdx?_field (h : f ∉ ps.map Prod.fst) : ps.findIdx? (fun q => decide (q.1 = f)) = none := by
  rw [findIdx?_eq_none_iff]
  intro q hq
  rw [decide_eq_false_iff_not]
  rintro rfl
  exact h (mem_map_of_mem hq)

theorem hashTypeFindField_none (h : ZipHolds zl ps) (hm : IsMap ps m) (hf : f.length < 2 ^ 32) (hnone : m f = none) :
    hashTypeFindField zl f = none := by
  rw [hashTypeFindField_eq h hf, findIdx?_field (hm.eq_none_iff.1 hnone), map_none]

theorem hashTypeFindField_some (h : ZipHolds zl (a ++ (f, v) :: b)) (hm : IsMap (a ++ (f, v) :: b) m)
    (hf : f.length < 2 ^ 32) : hashTypeFindField zl f = some (2 * a.length) := by
  rw [hashTypeFindField_eq h hf, findIdx?_append, findIdx?_field hm.not_mem, findIdx?_cons]
  simp

theorem ziplistNext_pair (h : ZipHolds zl (a ++ (f, v) :: b)) :
    ziplistNext zl (2 * a.length) = some (2 * a.length + 1) := by
  rw [ziplistNext, if_pos]
  rw [h.entries_length, length_append, length_cons]
  omega

theorem ziplistGet_eq (zl : Ziplist) (p : Nat) : ziplistGet zl p = zl.values[p]? := by
  rw [ziplistGet, Ziplist.values, getElem?_map]

theorem zipPairs_getElem? (a b : List (Sds × Sds)) (f v : Sds) :
    (zipPairs (a ++ (f, v) :: b))[2 * a.length]? = some (zipEncode f) ∧
      (zipPairs (a ++ (f, v) :: b))[2 * a.length + 1]? = some (zipEncode v) := by
  rw [zipPairs_append, ← zipPairs_length]
  constructor
  · rw [getElem?_append_right le_rfl, Nat.sub_self]
    rfl
  · rw [getElem?_append_right (Nat.le_add_right _ _), Nat.add_sub_cancel_left]
    rfl

theorem hashTypeGetFromZiplist_eq (h : ZipHolds zl ps) (hm : IsMap ps m) (hf : f.length < 2 ^ 32) :
    hashTypeGetFromZiplist zl f = some ((m f).map zipEncode) := by
  unfold hashTypeGetFromZiplist
  rcases hmf : m f with - | v
  · rw [hashTypeFindField_none h hm hf hmf]; rfl
  obtain ⟨a, b, rfl⟩ := append_of_mem ((hm.mem f v).1 hmf)
  rw [hashTypeFindField_some h hm hf]
  dsimp only
  rw [ziplistNext_pair h]
  dsimp only
  rw [ziplistGet_eq, h.values, (zipPairs_getElem? a b f v).2]
  rfl

theorem ziplistReplace_pair (h : ZipHolds zl (a ++ (f, v) :: b)) (hroom : zlCap zl.values + w.length + 14 < 2 ^ 32) :
    ∃ zl₁ zl₂, ziplistDelete zl (2 * a.length + 1) = some zl₁ ∧ ziplistInsert zl₁ (2 * a.length + 1) w = some zl₂ ∧
      ZipHolds zl₂ (a ++ (f, w) :: b) := by
  obtain ⟨zl₁, hdel⟩ := ziplistDeleteAt_isSome zl (2 * a.length + 1) 1 h.cap
  have hcap := ziplistDeleteAt_cap hdel
  obtain ⟨zl₂, hins⟩ := ziplistInsert_isSome zl₁ (2 * a.length + 1) w (by omega)
  refine ⟨zl₁, zl₂, hdel, hins, ?_, ?_⟩
  · have hlen : (zipPairs a ++ [zipEncode f]).length = 2 * a.length + 1 := by
      rw [length_append, zipPairs_length, length_singleton]
    have hval : zl.values = (zipPairs a ++ [zipEncode f]) ++ zipEncode v :: zipPairs b := by
      rw [h.values, zipPairs_append, append_assoc]
      rfl
    have hval₁ : zl₁.values = (zipPairs a ++ [zipEncode f]) ++ zipPairs b := by
      rw [ziplistDeleteAt_values hdel, hval, ← hlen, take_left, ← drop_drop, drop_left]
      rfl
    rw [ziplistInsert_values hins, hval₁, ← hlen, take_left, drop_left, zipPairs_append,
      append_assoc]
    rfl
  · have := ziplistInsert_cap hins
    omega

theorem ziplistPush_pair (h : ZipHolds zl ps) (hroom : zlCap zl.values + f.length + v.length + 28 < 2 ^ 32) :
    ∃ zl₁ zl₂, ziplistPush zl f .tail = some zl₁ ∧ ziplistPush zl₁ v .tail = some zl₂ ∧
      ZipHolds zl₂ (ps ++ [(f, v)]) := by
  have hpush : ∀ {zl zl' : Ziplist} {s : Sds}, ziplistPush zl s .tail = some zl' →
      zl'.values = zl.values ++ [zipEncode s] ∧ zlCap zl'.values ≤ zlCap zl.values + s.length + 14 := by
    intro zl zl' s hp
    refine ⟨?_, ziplistInsert_cap hp⟩
    rw [ziplistInsert_values hp, if_neg (by decide), ← Ziplist.values_length, take_length, drop_length]
  obtain ⟨zl₁, h₁⟩ := ziplistInsert_isSome zl (if ListEnd.tail = .head then 0 else zl.entries.length) f (by omega)
  obtain ⟨hv₁, hc₁⟩ := hpush h₁
  obtain ⟨zl₂, h₂⟩ := ziplistInsert_isSome zl₁ (if ListEnd.tail = .head then 0 else zl₁.entries.length) v (by omega)
  obtain ⟨hv₂, hc₂⟩ := hpush h₂
  refine ⟨zl₁, zl₂, h₁, h₂, ?_, by omega⟩
  rw [hv₂, hv₁, h.values, zipPairs_append, append_assoc]
  rfl

theorem ziplistDelete_pair (h : ZipHolds zl (a ++ (f, v) :: b)) :
    ∃ zl₁ zl₂, ziplistDelete zl (2 * a.length) = some zl₁ ∧ ziplistDelete zl₁ (2 * a.length) = some zl₂ ∧
      ZipHolds zl₂ (a ++ b) := by
  obtain ⟨zl₁, h₁⟩ := ziplistDeleteAt_isSome zl (2 * a.length) 1 h.cap
  have hc₁ := ziplistDeleteAt_cap h₁
  have hc := h.cap
  obtain ⟨zl₂, h₂⟩ := ziplistDeleteAt_isSome zl₁ (2 * a.length) 1 (by omega)
  have hc₂ := ziplistDeleteAt_cap h₂
  refine ⟨zl₁, zl₂, h₁, h₂, ?_, by omega⟩
  have hdrop : ∀ (x : ZlValue) (xs : List ZlValue), (zipPairs a ++ x :: xs).take (2 * a.length) ++
      (zipPairs a ++ x :: xs).drop (2 * a.length + 1) = zipPairs a ++ xs := by
    intro x xs
    rw [← zipPairs_length, take_left, ← drop_drop, drop_left]
    rfl
  rw [ziplistDeleteAt_values h₂, ziplistDeleteAt_values h₁, h.values, zipPairs_append, zipPairs_cons, hdrop, hdrop,
    zipPairs_append]

/-! ### Iteration -/

inductive Yields (o : HashObj) : HashIterator → List (Sds × Sds) → Prop
  | done {hi hi' : HashIterator} (h : hashTypeNext o hi = some (hi', false)) : Yields o hi []
  | next {hi hi' : HashIterator} {f v : Sds} {ps : List (Sds × Sds)} (h : hashTypeNext o hi = some (hi', true))
      (hkey : hashTypeCurrentObjectNewSds o hi' .key = some f)
      (hvalue : hashTypeCurrentObjectNewSds o hi' .value = some v) (rest : Yields o hi' ps) : Yields o hi ((f, v) :: ps)

theorem hashTypeEntriesLoop_eq (h : Yields o hi ps) (hfuel : ps.length < fuel) :
    hashTypeEntriesLoop o fuel hi = some ps := by
  induction h generalizing fuel with
  | done h =>
    obtain ⟨fuel, rfl⟩ := Nat.exists_eq_add_one.2 hfuel
    rw [hashTypeEntriesLoop, h]
  | next h hkey hvalue _ ih =>
    obtain ⟨fuel, rfl⟩ := Nat.exists_eq_add_one.2 (Nat.zero_lt_of_lt hfuel)
    rw [length_cons] at hfuel
    rw [hashTypeEntriesLoop, h]
    simp [hkey, hvalue, ih (show _ < fuel by omega)]

/-- The cursor of a ziplist iterator behind `n` pairs. -/
def zipCursor (n : Nat) : HashIterator :=
  if n = 0 then .ziplist none none else .ziplist (some (2 * n - 2)) (some (2 * n - 1))

theorem zipCursor_succ (n : Nat) : zipCursor (n + 1) = .ziplist (some (2 * n)) (some (2 * n + 1)) := by
  rw [zipCursor, if_neg (Nat.succ_ne_zero n)]
  simp [show 2 * (n + 1) - 2 = 2 * n by omega, show 2 * (n + 1) - 1 = 2 * n + 1 by omega]

theorem hashTypeAdvance_cursor (h : ZipHolds zl (a ++ b)) : ∃ fptr vptr, zipCursor a.length = .ziplist fptr vptr ∧
      hashTypeAdvance zl fptr vptr = some (if b = [] then none else some (2 * a.length)) := by
  have hlen := h.entries_length
  rw [length_append] at hlen
  have hat : (if 2 * a.length < zl.entries.length then some (2 * a.length) else none) =
      if b = [] then none else some (2 * a.length) := by
    cases b with
    | nil => exact if_neg (by simp [hlen])
    | cons p b => exact if_pos (by rw [hlen, length_cons]; omega)
  rw [zipCursor]
  split
  next ha =>
    refine ⟨none, none, rfl, ?_⟩
    rw [← hat, hashTypeAdvance, ziplistIndex, if_neg (by decide), Int.toNat_zero, ha]
  next ha =>
    refine ⟨_, _, rfl, ?_⟩
    rw [← hat, hashTypeAdvance, ziplistNext, show 2 * a.length - 1 + 1 = 2 * a.length by omega]

theorem yields_ziplist (h : ZipHolds zl (a ++ b)) : Yields (.ziplist zl) (zipCursor a.length) b := by
  induction b generalizing a with
  | nil =>
    obtain ⟨fptr, vptr, hcur, hadv⟩ := hashTypeAdvance_cursor h
    rw [hcur]
    have hend : hashTypeNext (.ziplist zl) (.ziplist fptr vptr) = some (.ziplist fptr vptr, false) := by
      rw [hashTypeNext, hadv]
      rfl
    exact .done hend
  | cons p b ih =>
    obtain ⟨f, v⟩ := p
    obtain ⟨fptr, vptr, hcur, hadv⟩ := hashTypeAdvance_cursor h
    have hcur' : zipCursor (a ++ [(f, v)]).length = .ziplist (some (2 * a.length)) (some (2 * a.length + 1)) := by
      rw [length_append, length_singleton, zipCursor_succ]
    have hnext : hashTypeNext (.ziplist zl) (.ziplist fptr vptr) = some (zipCursor (a ++ [(f, v)]).length, true) := by
      rw [hashTypeNext, hadv, if_neg (by simp), hcur']
      dsimp only
      rw [ziplistNext_pair h]
    have hget := zipPairs_getElem? a b f v
    rw [hcur]
    refine .next hnext ?_ ?_ (ih ?_)
    · rw [hcur', hashTypeCurrentObjectNewSds, hashTypeCurrentObject, bind_some, ziplistGet_eq, h.values, hget.1,
        map_some, zipEncode_bytes]
    · rw [hcur', hashTypeCurrentObjectNewSds, hashTypeCurrentObject, bind_some, ziplistGet_eq, h.values, hget.2,
        map_some, zipEncode_bytes]
    · rwa [append_assoc]

/-! ### Hash tables -/

/-- A table that stores the map, with strings whose length fits an `unsigned int`. -/
structure TableHolds (hash : Sds → BitVec 64) (d : Dict Sds Sds) (m : Sds → Option Sds) : Prop where
  inv : d.Inv hash
  holds : d.Holds fun k => (m k).map some
  short : ∀ k v, m k = some v → k.length < 2 ^ 32 ∧ v.length < 2 ^ 32

variable {d : Dict Sds Sds}

def entryPair (e : DictEntry Sds Sds) : Sds × Sds := (e.key, e.val.getD [])

theorem TableHolds.entry (h : TableHolds hash d m) {e : DictEntry Sds Sds} (he : e ∈ d.entries) :
    ∃ v, e.val = some v ∧ m e.key = some v := by
  have hmap : (m e.key).map some = some e.val := h.holds.eq_some he
  obtain ⟨v, hv, hval⟩ := map_eq_some_iff.1 hmap
  exact ⟨v, hval.symm, hv⟩

theorem TableHolds.isMap (h : TableHolds hash d m) : IsMap (d.entries.map entryPair) m := by
  constructor
  · rw [List.map_map]
    exact h.inv.nodup
  intro f v
  rw [List.mem_map]
  constructor
  · intro hv
    exact ⟨⟨f, some v⟩, (h.holds f (some v)).1 (by simp [hv]), rfl⟩
  rintro ⟨e, he, heq⟩
  obtain ⟨v', hval, hm⟩ := h.entry he
  simp only [entryPair, hval, getD_some, Prod.mk.injEq] at heq
  rw [← heq.1, ← heq.2]
  exact hm

theorem yields_table (h : TableHolds hash d m) {es : List (DictEntry Sds Sds)} (hes : ∀ e ∈ es, e ∈ d.entries)
    {it : DictIterator Sds Sds} (hahead : it.ahead d = es) (de : Option (DictEntry Sds Sds)) :
    Yields (.ht d) (.ht it de) (es.map entryPair) := by
  induction es generalizing it de with
  | nil =>
    rcases dictNext_spec h.inv it with ⟨-, it', hnext⟩ | ⟨e, it', -, hcons⟩
    · have hend : hashTypeNext (.ht d) (.ht it de) = some (.ht it' none, false) := by
        rw [hashTypeNext, hnext]
      exact .done hend
    · rw [hahead] at hcons
      cases hcons
  | cons e es ih =>
    rcases dictNext_spec h.inv it with ⟨hnil, -⟩ | ⟨e', it', hnext, hcons⟩
    · rw [hahead] at hnil
      cases hnil
    rw [hahead, cons.injEq] at hcons
    obtain ⟨rfl, hrest⟩ := hcons
    obtain ⟨v, hval, hm⟩ := h.entry (hes e (.head _))
    obtain ⟨hk, hv⟩ := h.short _ _ hm
    have hstep : hashTypeNext (.ht d) (.ht it de) = some (.ht it' (some e), true) := by
      rw [hashTypeNext, hnext]
    refine .next hstep ?_ ?_ (ih (fun e he => hes e (.tail _ he)) hrest.symm _)
    · rw [hashTypeCurrentObjectNewSds, hashTypeCurrentObject, map_some, ziplistArg_of_lt hk]
      rfl
    · rw [hashTypeCurrentObjectNewSds, hashTypeCurrentObject, bind_some, hval, map_some,
        ziplistArg_of_lt hv]
      rfl

theorem map_update_some (m : Sds → Option Sds) (f : Sds) (o : Option Sds) :
    update (fun k => (m k).map some) f (o.map some) = fun k => ((update m f o) k).map some := by
  funext k
  rw [update_apply, update_apply]
  split <;> rfl

theorem TableHolds.find (h : TableHolds hash d m) (f : Sds) :
    ∃ d', TableHolds hash d' m ∧ (m f = none ∧ dictFind hash d f = some (d', none) ∨
      ∃ r v, m f = some v ∧ dictFind hash d f = some (d', some r) ∧ dictDeref d' r = some ⟨f, some v⟩) := by
  obtain ⟨d', r, hfind, hmv, hout⟩ := dictFind_spec h.inv f
  have h' : TableHolds hash d' m := ⟨hmv.inv, h.holds.moved hmv, h.short⟩
  refine ⟨d', h', ?_⟩
  rcases hout with ⟨p, e, rfl, hd, rfl⟩ | ⟨rfl, hne⟩
  · obtain ⟨v, hval, hm⟩ := h'.entry (dictDeref_mem hd)
    exact .inr ⟨p, v, hm, hfind, by rw [hd, ← hval]⟩
  · have hnone : (m f).map some = none := h.holds.eq_none hne
    exact .inl ⟨map_eq_none_iff.1 hnone, hfind⟩

theorem hashTypeGetFromHashTable_eq (h : TableHolds hash d m) (f : Sds) :
    ∃ d', hashTypeGetFromHashTable hash d f = some (d', m f) ∧ TableHolds hash d' m := by
  obtain ⟨d', h', ⟨hm, hfind⟩ | ⟨r, v, hm, hfind, hd⟩⟩ := h.find f
  · refine ⟨d', ?_, h'⟩
    rw [hashTypeGetFromHashTable, hfind, hm]
  refine ⟨d', ?_, h'⟩
  rw [hashTypeGetFromHashTable, hfind, hm]
  dsimp only
  rw [hd]
  rfl

/-! ### Conversion -/

theorem hashTypeConvertLoop_spec (cfg : HashConfig) (hy : Yields o hi ps) (hfuel : ps.length < fuel)
    {m₀ : Sds → Option Sds} (hI : d.Inv hash) (hd : d.Holds fun k => (m₀ k).map some)
    (hlen : d.entries.length + ps.length ≤ 2 ^ 59) (hnodup : (ps.map Prod.fst).Nodup) (hfresh : ∀ p ∈ ps, m₀ p.1 = none)
    (hm : ∀ k v, m k = some v ↔ m₀ k = some v ∨ (k, v) ∈ ps) :
    ∃ d', hashTypeConvertLoop hash cfg o fuel hi d = some d' ∧ d'.Inv hash ∧ d'.Holds fun k => (m k).map some := by
  induction hy generalizing fuel m₀ d with
  | done h =>
    obtain ⟨fuel, rfl⟩ := Nat.exists_eq_add_one.2 hfuel
    obtain rfl : m = m₀ := funext fun k => ext fun v => by simpa using hm k v
    exact ⟨d, by rw [hashTypeConvertLoop, h], hI, hd⟩
  | @next hi hi' f v ps h hkey hvalue _ ih =>
    obtain ⟨fuel, rfl⟩ := Nat.exists_eq_add_one.2 (Nat.zero_lt_of_lt hfuel)
    rw [length_cons] at hfuel hlen
    rw [map_cons, nodup_cons] at hnodup
    have hf : m₀ f = none := hfresh _ (.head _)
    have hsize : dictSize d ≤ 2 ^ 59 := hI.entries_length ▸ by omega
    have hnone : (m₀ f).map some = none := by rw [hf, map_none]
    obtain ⟨d₁, hadd, hI₁, hd₁, hlen₁⟩ := dictAdd_fresh hI hd hsize cfg.canResize hnone v
    rw [show (some (some v) : Option (Option Sds)) = (some v).map some from rfl, map_update_some] at hd₁
    rw [hashTypeConvertLoop, h]
    simp only [hkey, hvalue, hadd, some_bind]
    refine ih (by omega) hI₁ hd₁ (by omega) hnodup.2 ?_ ?_
    · intro p hp
      rw [update_of_ne, hfresh p (.tail _ hp)]
      intro heq
      have hmem : p.1 ∈ ps.map Prod.fst := mem_map_of_mem hp
      exact hnodup.1 (heq ▸ hmem)
    · intro k v'
      rw [hm, mem_cons, Prod.mk.injEq, update_apply]
      split
      next heq =>
        subst heq
        simp [hf, eq_comm]
      next hne => simp [hne]

theorem length_lt_of_zipEncode {n : Nat} (h : (zipEncode s).size ≤ n) (hn : n < 2 ^ 32) : s.length < 2 ^ 32 := by
  cases henc : zipTryEncoding s with
  | none =>
    rw [zipEncode, henc] at h
    simp only [ZlValue.size] at h
    omega
  | some v =>
    rw [zipTryEncoding] at henc
    split at henc
    · cases henc
    · omega

theorem size_le_zlCap {x : ZlValue} {xs : List ZlValue} (h : x ∈ xs) : x.size ≤ zlCap xs := by
  obtain ⟨l, r, rfl⟩ := append_of_mem h
  rw [zlCap_insert]
  omega

theorem ZipHolds.short (h : ZipHolds zl ps) : ∀ p ∈ ps, p.1.length < 2 ^ 32 ∧ p.2.length < 2 ^ 32 := by
  intro p hp
  obtain ⟨a, b, rfl⟩ := append_of_mem hp
  have hcap := h.cap
  rw [h.values, zipPairs_append, zipPairs_cons] at hcap
  exact ⟨length_lt_of_zipEncode (size_le_zlCap (by simp)) hcap, length_lt_of_zipEncode (size_le_zlCap (by simp)) hcap⟩

theorem ZipHolds.length_lt (h : ZipHolds zl ps) : ps.length < 2 ^ 31 := by
  have := two_mul_length_le_bytes zl.entries
  have := zl.bytes_lt
  have := h.entries_length
  omega

theorem ZipHolds.hashTypeLength (h : ZipHolds zl ps) : hashTypeLength (.ziplist zl) = ps.length := by
  show ziplistLen zl / 2 = ps.length
  rw [ziplistLen_eq, h.entries_length]
  omega

section
variable (cfg : HashConfig) (h : ZipHolds zl ps) (hm : IsMap ps m)
include h hm

theorem hashTypeConvert_spec : ∃ d, hashTypeConvert hash cfg (.ziplist zl) = some (.ht d) ∧ TableHolds hash d m := by
  have hlt := h.length_lt
  have hy : Yields (.ziplist zl) (zipCursor ([] : List (Sds × Sds)).length) ps := yields_ziplist h
  have hempty : (dictCreate : Dict Sds Sds).Holds fun k => ((fun _ => none : Sds → Option Sds) k).map some := .create
  have hlen : (dictCreate : Dict Sds Sds).entries.length + ps.length ≤ 2 ^ 59 := by
    rw [show (dictCreate : Dict Sds Sds).entries = [] from rfl, length_nil]
    omega
  have hmem : ∀ k v, m k = some v ↔ (fun _ => none : Sds → Option Sds) k = some v ∨ (k, v) ∈ ps := by
    intro k v
    rw [hm.mem]
    simp
  have hinv : (dictCreate : Dict Sds Sds).Inv hash := .create
  obtain ⟨d, hd, hI, hholds⟩ := hashTypeConvertLoop_spec cfg hy (Nat.lt_succ_self _) hinv hempty hlen
    hm.nodup (fun _ _ => rfl) hmem
  refine ⟨d, ?_, hI, hholds, fun k v hkv => h.short _ ((hm.mem k v).1 hkv)⟩
  rw [hashTypeConvert, h.hashTypeLength]
  exact congrArg (Option.map HashObj.ht) hd

/-! ### The machine -/

def HashObj.Stores (hash : Sds → BitVec 64) (o : HashObj) (m : Sds → Option Sds) : Prop :=
  match o with
  | .ziplist zl => ∃ ps, ZipHolds zl ps ∧ IsMap ps m
  | .ht d => TableHolds hash d m

def hashSpec : Spec HashOp (Sds → Option Sds) HashReply
  | .set _ f v, m, r, m' => r = .flag (m f).isSome ∧ m' = Function.update m f (some v)
  | .delete _ f, m, r, m' => r = .flag (m f).isSome ∧ m' = Function.update m f none
  | .getValue f, m, r, m' => r = .value (m f) ∧ m' = m
  | .getValueLength f, m, r, m' => r = .length ((m f).elim 0 List.length) ∧ m' = m
  | .fieldExists f, m, r, m' => r = .flag (m f).isSome ∧ m' = m
  | .entries, m, r, m' => (∃ ps, r = .pairs ps ∧ IsMap ps m) ∧ m' = m
  | .tryConversion _ _, m, r, m' => r = .unit ∧ m' = m

/-- Lengths fit an `unsigned int`, a ziplist with one more pair fits 4 GiB however wide its length fields
get, and a hash table has few enough fields to grow. -/
def HashOp.Fits (op : HashOp) (o : HashObj) : Prop :=
  match op with
  | .set _ f v => f.length < 2 ^ 32 ∧ v.length < 2 ^ 32 ∧
    match o with
    | .ziplist zl => zlCap zl.values + f.length + v.length + 28 < 2 ^ 32
    | .ht d => dictSize d ≤ 2 ^ 59
  | .delete _ f | .getValue f | .getValueLength f | .fieldExists f => f.length < 2 ^ 32
  | .entries | .tryConversion _ _ => True

theorem convertIf_spec (p : Prop) [Decidable p] :
    ∃ o, (if p then hashTypeConvert hash cfg (.ziplist zl) else some (.ziplist zl)) = some o ∧ o.Stores hash m := by
  split
  · obtain ⟨d, hd, hh⟩ := hashTypeConvert_spec cfg h hm
    exact ⟨_, hd, hh⟩
  · exact ⟨_, rfl, ps, h, hm⟩

theorem hashTypeCheckEntries_spec : ∃ o, hashTypeCheckEntries hash cfg zl = some o ∧ o.Stores hash m :=
  convertIf_spec cfg h hm _

end

theorem TableHolds.update (h : TableHolds hash d m) {d' : Dict Sds Sds} {o : Option Sds} (hI : d'.Inv hash)
    (hd : d'.Holds (update (fun k => (m k).map some) f (o.map some))) (hf : f.length < 2 ^ 32)
    (ho : ∀ v, o = some v → v.length < 2 ^ 32) : TableHolds hash d' (update m f o) := by
  rw [map_update_some] at hd
  refine ⟨hI, hd, fun k v hkv => ?_⟩
  rw [update_apply] at hkv
  split at hkv
  next heq => exact ⟨heq ▸ hf, ho v hkv⟩
  · exact h.short k v hkv

theorem TableHolds.set (h : TableHolds hash d m) (cfg : HashConfig) (hs : dictSize d ≤ 2 ^ 59) (hf : f.length < 2 ^ 32)
    (hv : v.length < 2 ^ 32) : ∃ d', hashTypeSet hash cfg (.ht d) f v = some (.ht d', (m f).isSome) ∧
      TableHolds hash d' (Function.update m f (some v)) := by
  have ho : ∀ w, some v = some w → w.length < 2 ^ 32 := fun w hw => Option.some.inj hw ▸ hv
  obtain ⟨d₁, h₁, ⟨hm, hfind⟩ | ⟨r, v', hm, hfind, hd⟩⟩ := h.find f
  · have hs₁ : dictSize d₁ ≤ 2 ^ 59 := by
      obtain ⟨d', r, hfind', hmv, -⟩ := dictFind_spec h.inv f
      cases hfind.symm.trans hfind'
      rwa [← hmv.inv.entries_length, hmv.perm.length_eq, h.inv.entries_length]
    have hnone : (m f).map some = none := by rw [hm, map_none]
    obtain ⟨d₂, hadd, hI₂, hd₂, -⟩ := dictAdd_fresh h₁.inv h₁.holds hs₁ cfg.canResize hnone v
    refine ⟨d₂, ?_, h₁.update hI₂ hd₂ hf ho⟩
    rw [hashTypeSet, hfind]
    dsimp only
    rw [hadd, hm]
    rfl
  · obtain ⟨hI₂, hd₂⟩ := dictSetVal_holds h₁.inv h₁.holds hd v
    refine ⟨dictSetVal d₁ r v, ?_, h₁.update hI₂ hd₂ hf ho⟩
    rw [hashTypeSet, hfind, hm]
    rfl

theorem TableHolds.delete (h : TableHolds hash d m) (cfg : HashConfig) (hf : f.length < 2 ^ 32) :
    ∃ d', hashTypeDelete hash cfg (.ht d) f = some (.ht d', (m f).isSome) ∧
      TableHolds hash d' (Function.update m f none) := by
  obtain ⟨d₁, hdel, hI, hd⟩ := dictGenericDelete_holds h.inv h.holds f
  have h₁ : TableHolds hash d₁ (Function.update m f none) := h.update hI hd hf (by simp)
  have hresize : TableHolds hash (dictResize cfg.canResize d₁).1 (Function.update m f none) := by
    have hmv := dictResize_moved hI cfg.canResize
    exact ⟨hmv.inv, h₁.holds.moved hmv, h₁.short⟩
  rw [hashTypeDelete, dictDelete, hdel]
  rcases hm : m f with - | v
  · exact ⟨d₁, rfl, h₁⟩
  refine ⟨_, rfl, ?_⟩
  split
  · exact hresize
  · exact h₁

theorem IsMap.update_ziplist (h : ZipHolds zl ps) (hm : IsMap ps m) (cfg : HashConfig) (hf : f.length < 2 ^ 32)
    (hv : v.length < 2 ^ 32) (hroom : zlCap zl.values + f.length + v.length + 28 < 2 ^ 32) :
    ∃ o, hashTypeSet hash cfg (.ziplist zl) f v = some (o, (m f).isSome) ∧ o.Stores hash (update m f (some v)) := by
  cases hmf : m f with
  | none =>
    obtain ⟨zl₁, zl₂, h₁, h₂, hz⟩ := ziplistPush_pair h hroom
    obtain ⟨o, ho, hst⟩ := hashTypeCheckEntries_spec cfg hz (hm.append hmf)
    refine ⟨o, ?_, hst⟩
    rw [hashTypeSet, hashTypeFindField_none h hm hf hmf, ziplistArg_of_lt hf, ziplistArg_of_lt hv]
    simp [h₁, h₂, ho]
  | some v' =>
    obtain ⟨a, b, rfl⟩ := append_of_mem ((hm.mem f v').1 hmf)
    obtain ⟨zl₁, zl₂, h₁, h₂, hz⟩ := ziplistReplace_pair (w := v) h (by omega)
    obtain ⟨o, ho, hst⟩ := hashTypeCheckEntries_spec cfg hz hm.replace
    refine ⟨o, ?_, hst⟩
    rw [hashTypeSet, hashTypeFindField_some h hm hf, ziplistArg_of_lt hv]
    dsimp only
    rw [ziplistNext_pair h]
    simp [h₁, h₂, ho]

theorem IsMap.delete_ziplist (h : ZipHolds zl ps) (hm : IsMap ps m) (cfg : HashConfig) (hf : f.length < 2 ^ 32) :
    ∃ o, hashTypeDelete hash cfg (.ziplist zl) f = some (o, (m f).isSome) ∧ o.Stores hash (update m f none) := by
  cases hmf : m f with
  | none =>
    refine ⟨.ziplist zl, ?_, ps, h, ?_⟩
    · rw [hashTypeDelete, hashTypeFindField_none h hm hf hmf]
      rfl
    · rwa [update_eq_self_iff.2 hmf.symm]
  | some v' =>
    obtain ⟨a, b, rfl⟩ := append_of_mem ((hm.mem f v').1 hmf)
    obtain ⟨zl₁, zl₂, h₁, h₂, hz⟩ := ziplistDelete_pair h
    refine ⟨.ziplist zl₂, ?_, a ++ b, hz, hm.erase⟩
    rw [hashTypeDelete, hashTypeFindField_some h hm hf]
    simp [h₁, h₂]

theorem ziplistValueLength_zipEncode (s : Sds) : ziplistValueLength (zipEncode s) = s.length := by
  rcases henc : zipTryEncoding s with - | v
  · rw [zipEncode, henc]
    rfl
  have hbytes := zipEncode_bytes s
  rw [zipEncode_eq_int_iff.2 henc] at hbytes ⊢
  rw [← hbytes]
  rw [zipTryEncoding] at henc
  split at henc
  · cases henc
  · exact sdigits10_eq (lpStringToInt64_spec (string2ll_eq s ▸ henc)).2

theorem hashTypeEntries_spec (h : o.Stores hash m) : ∃ ps, hashTypeEntries o = some ps ∧ IsMap ps m := by
  cases o with
  | ziplist zl =>
    obtain ⟨ps, hz, hm⟩ := h
    have hy : Yields (.ziplist zl) (zipCursor ([] : List (Sds × Sds)).length) ps := yields_ziplist hz
    refine ⟨ps, ?_, hm⟩
    exact hashTypeEntriesLoop_eq hy (by rw [hz.hashTypeLength]; omega)
  | ht d =>
    refine ⟨_, ?_, h.isMap⟩
    refine hashTypeEntriesLoop_eq (yields_table h (fun e he => he) (ahead_init h.inv) none) ?_
    rw [length_map, h.inv.entries_length]
    exact Nat.lt_succ_self _

theorem hashMachine_simulates : (hashMachine hash).Simulates hashSpec HashOp.Fits (HashObj.Stores hash) := by
  intro op o m hst hfit
  cases o with
  | ziplist zl =>
    obtain ⟨ps, hz, hm⟩ := id hst
    cases op with
    | set cfg f v =>
      obtain ⟨hf, hv, hroom⟩ := hfit
      obtain ⟨o, ho, hst'⟩ := hm.update_ziplist hz cfg hf hv hroom
      exact ⟨o, _, _, congrArg (Option.map _) ho, ⟨rfl, rfl⟩, hst'⟩
    | delete cfg f =>
      obtain ⟨o, ho, hst'⟩ := hm.delete_ziplist hz cfg hfit
      exact ⟨o, _, _, congrArg (Option.map _) ho, ⟨rfl, rfl⟩, hst'⟩
    | getValue f =>
      refine ⟨.ziplist zl, .value (m f), m, ?_, ⟨rfl, rfl⟩, hst⟩
      show ((Option.map _ (hashTypeGetFromZiplist zl f)).map _) = _
      rw [hashTypeGetFromZiplist_eq hz hm hfit]
      cases m f with
      | none => rfl
      | some v => simp [zipEncode_bytes]
    | getValueLength f =>
      refine ⟨.ziplist zl, _, m, ?_, ⟨rfl, rfl⟩, hst⟩
      show ((Option.map _ (hashTypeGetFromZiplist zl f)).map _) = _
      rw [hashTypeGetFromZiplist_eq hz hm hfit]
      cases m f with
      | none => rfl
      | some v => simp [ziplistValueLength_zipEncode]
    | fieldExists f =>
      refine ⟨.ziplist zl, _, m, ?_, ⟨rfl, rfl⟩, hst⟩
      show ((Option.map _ (hashTypeGetFromZiplist zl f)).map _) = _
      rw [hashTypeGetFromZiplist_eq hz hm hfit]
      simp
    | entries =>
      obtain ⟨ps, hps, hm⟩ := hashTypeEntries_spec hst
      exact ⟨_, .pairs ps, m, congrArg (Option.map _) hps, ⟨⟨ps, rfl, hm⟩, rfl⟩, hst⟩
    | tryConversion cfg argv =>
      obtain ⟨o, ho, hst'⟩ : ∃ o, hashTypeTryConversion hash cfg argv (.ziplist zl) = some o ∧ o.Stores hash m :=
        convertIf_spec cfg hz hm _
      exact ⟨o, _, m, congrArg (Option.map _) ho, ⟨rfl, rfl⟩, hst'⟩
  | ht d =>
    have hget := hashTypeGetFromHashTable_eq (show TableHolds hash d m from hst)
    cases op with
    | set cfg f v =>
      obtain ⟨hf, hv, hroom⟩ := hfit
      obtain ⟨d', hd, hst'⟩ := TableHolds.set hst cfg hroom hf hv
      exact ⟨.ht d', _, _, congrArg (Option.map _) hd, ⟨rfl, rfl⟩, hst'⟩
    | delete cfg f =>
      obtain ⟨d', hd, hst'⟩ := TableHolds.delete hst cfg hfit
      exact ⟨.ht d', _, _, congrArg (Option.map _) hd, ⟨rfl, rfl⟩, hst'⟩
    | getValue f =>
      obtain ⟨d', hd, hst'⟩ := hget f
      refine ⟨.ht d', .value (m f), m, ?_, ⟨rfl, rfl⟩, hst'⟩
      show ((Option.map _ (hashTypeGetFromHashTable hash d f)).map _) = _
      rw [hd]
      cases hm : m f with
      | none => rfl
      | some v => simp [ziplistArg_of_lt (TableHolds.short hst f v hm).2, ZlValue.bytes]
    | getValueLength f | fieldExists f =>
      obtain ⟨d', hd, hst'⟩ := hget f
      exact ⟨.ht d', _, m, congrArg (Option.map _) (congrArg (Option.map _) hd), ⟨rfl, rfl⟩, hst'⟩
    | entries =>
      obtain ⟨ps, hps, hm⟩ := hashTypeEntries_spec hst
      exact ⟨_, .pairs ps, m, congrArg (Option.map _) hps, ⟨⟨ps, rfl, hm⟩, rfl⟩, hst⟩
    | tryConversion cfg argv => exact ⟨.ht d, _, m, rfl, ⟨rfl, rfl⟩, hst⟩

theorem createHashObject_stores : createHashObject.Stores hash fun _ => none :=
  ⟨[], ⟨rfl, by decide⟩, by simp, by simp⟩

/-- Every run in which lengths and sizes fit goes through without a failed assertion or a panic, and answers as a
finite map does, whatever the thresholds and wherever the object is converted. -/
theorem hashType_refines_map (hash : Sds → BitVec 64) (ops : List HashOp)
    (hg : (hashMachine hash).Guarded HashOp.Fits ops createHashObject) :
    ∃ o rs m, (hashMachine hash).run ops createHashObject = some (o, rs) ∧ hashSpec.Run ops (fun _ => none) rs m ∧
      o.Stores hash m :=
  hashMachine_simulates.run createHashObject_stores hg

instance : ∀ (op : HashOp) (o : HashObj), Decidable (op.Fits o)
  | .set _ _ _, .ziplist _ | .set _ _ _, .ht _ => inferInstanceAs (Decidable (_ ∧ _ ∧ _))
  | .delete _ _, _ | .getValue _, _ | .getValueLength _, _ | .fieldExists _, _ => inferInstanceAs (Decidable (_ < _))
  | .entries, _ | .tryConversion _ _, _ => inferInstanceAs (Decidable True)

/-- A hash with a field and a value that look like integers, before and after its conversion. -/
theorem hashType_refines_map_integers :
    ∃ o rs m, (hashMachine fun s => BitVec.ofNat 64 s.length).run
        [.set ⟨2, 64, true⟩ [49, 50] [45, 55], .getValue [49, 50], .tryConversion ⟨2, 0, true⟩ [[0]],
          .getValueLength [49, 50]] createHashObject = some (o, rs) ∧
      hashSpec.Run [.set ⟨2, 64, true⟩ [49, 50] [45, 55], .getValue [49, 50], .tryConversion ⟨2, 0, true⟩ [[0]],
          .getValueLength [49, 50]] (fun _ => none) rs m ∧
      o.Stores (fun s => BitVec.ofNat 64 s.length) m :=
  hashType_refines_map _ _ (Machine.guarded_of_check (by decide))

theorem hashTable_reads_arg {big : Sds} (hbig : 64 < big.length) : ((hashMachine fun s => BitVec.ofNat 64 s.length).run
      [.tryConversion ⟨512, 64, true⟩ [[], big], .set ⟨512, 64, true⟩ [] big, .getValue []] createHashObject).map
        Prod.snd = some [.unit, .flag false, .value (some (ziplistArg big))] := by
  have hconv : hashTypeTryConversion (fun s => BitVec.ofNat 64 s.length) ⟨512, 64, true⟩ [[], big] createHashObject =
      some (.ht dictCreate) := by
    rw [createHashObject, hashTypeTryConversion, if_pos (by simp [hbig])]
    rfl
  let d : Dict Sds Sds := ⟨⟨[[⟨[], some big⟩], [], [], []], 4, 3, 1⟩, dictReset, none, 0⟩
  have hset : hashTypeSet (fun s => BitVec.ofNat 64 s.length) ⟨512, 64, true⟩ (.ht dictCreate) [] big =
      some (.ht d, false) := rfl
  have hfind : dictFind (fun s : Sds => BitVec.ofNat 64 s.length) d [] = some (d, some ⟨false, 0, 0⟩) := by
    simp [dictFind, d, dictReset, dictRehashStepIf, dictIsRehashing, dictLookup, Dictht.bucketOf, findPos]
  have hget : hashTypeGetValue (fun s => BitVec.ofNat 64 s.length) (.ht d) [] =
      some (.ht d, some (.str (ziplistArg big))) := by
    rw [hashTypeGetValue, hashTypeGetFromHashTable, hfind]
    rfl
  simp [Machine.run, hashMachine, hashStep, hconv, hset, hget, ZlValue.bytes]

/-- A value of 4 GiB comes back empty. -/
theorem hashType_value_cut :
    ((hashMachine fun s => BitVec.ofNat 64 s.length).run
      [.tryConversion ⟨512, 64, true⟩ [[], List.replicate (2 ^ 32) 0], .set ⟨512, 64, true⟩ [] (List.replicate (2 ^ 32) 0),
        .getValue []] createHashObject).map Prod.snd = some [.unit, .flag false, .value (some [])] := by
  have hlen : (replicate (2 ^ 32) (0 : UInt8)).length = 2 ^ 32 := length_replicate
  have harg : ziplistArg (replicate (2 ^ 32) 0) = [] := by
    rw [ziplistArg, hlen, Nat.mod_self, take_zero]
  rw [hashTable_reads_arg (by omega), harg]

end Redis
