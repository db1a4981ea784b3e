import Redis.Lib.Lists
import Redis.Ziplist

/-! # What the ziplist operations do to the elements

The operations move elements as list operations do and change nothing but the widths of `prevlen`
fields besides. `zlCap` bounds the length of a blob with all fields wide; it depends on the elements
only, so it is what an operation adds to or takes away from. -/

namespace Redis
open List ZlEntry

variable {es : List ZlEntry}

theorem zipEncode_bytes (s : List UInt8) : (zipEncode s).bytes = s := by
  simp only [zipEncode, zipTryEncoding, string2ll_eq]
  split
  next v h =>
    split at h
    · cases h
    · exact (lpStringToInt64_spec h).1
  · rfl

theorem zipIntSize_le (v : Int) : zipIntSize v ≤ 8 := by
  unfold zipIntSize
  repeat' split
  all_goals omega

theorem zipEncode_size_le (s : List UInt8) : (zipEncode s).size ≤ s.length + 9 := by
  unfold zipEncode
  split
  next v _ =>
    have := zipIntSize_le v
    simp [ZlValue.size]; omega
  · simp only [ZlValue.size]
    split <;> [skip; split] <;> omega

theorem ZlValue.one_le_size (v : ZlValue) : 1 ≤ v.size := by
  cases v <;> simp only [ZlValue.size]
  · split <;> [skip; split] <;> omega
  · omega

/-! ### The widths of the `prevlen` fields -/

/-- The most bytes a ziplist with these elements takes. -/
def zlCap (vs : List ZlValue) : Nat := 11 + (vs.map fun v => 5 + v.size).sum

theorem zlBytes_le_cap (es : List ZlEntry) : zlBytes es ≤ zlCap (es.map value) := by
  unfold zlBytes zlCap
  induction es with
  | nil => simp
  | cons e es ih =>
    have : e.rawlen ≤ 5 + e.value.size := by unfold rawlen; split <;> omega
    simp only [map_cons, sum_cons] at ih ⊢
    omega

theorem two_mul_length_le_bytes (es : List ZlEntry) : 11 + 2 * es.length ≤ zlBytes es := by
  unfold zlBytes
  induction es with
  | nil => simp
  | cons e es ih =>
    have := e.value.one_le_size
    have : 2 ≤ e.rawlen := by unfold rawlen; split <;> omega
    simp only [map_cons, sum_cons, length_cons] at ih ⊢
    omega

theorem zlCap_insert (vs ws : List ZlValue) (v : ZlValue) : zlCap (vs ++ v :: ws) = zlCap (vs ++ ws) + 5 + v.size := by
  unfold zlCap
  simp
  omega

theorem zlCap_sublist {vs ws : List ZlValue} (h : vs.Sublist ws) : zlCap vs ≤ zlCap ws := by
  unfold zlCap
  induction h with
  | slnil => exact le_rfl
  | cons v _ ih => simp only [map_cons, sum_cons]; omega
  | cons_cons v _ ih => simp only [map_cons, sum_cons] at ih ⊢; omega

/-! ### Elements -/

theorem ziplistCascadeUpdate_value (cur : ZlEntry) (es : List ZlEntry) :
    (ziplistCascadeUpdate cur es).map value = es.map value := by
  induction es generalizing cur with
  | nil => rfl
  | cons next rest ih =>
    unfold ziplistCascadeUpdate
    split
    · simp [ih]
    · rfl

theorem zlStorePrevlen_value (prevlen : Nat) (es : List ZlEntry) :
    (zlStorePrevlen prevlen es).map value = es.map value := by
  rcases es with - | ⟨next, rest⟩
  · rfl
  unfold zlStorePrevlen
  dsimp only
  split
  · rfl
  · simp [ziplistCascadeUpdate_value]

theorem zlInsertEntries_value (es : List ZlEntry) (i : Nat) (v : ZlValue) : (zlInsertEntries es i v).map value =
      (es.map value).take i ++ v :: (es.map value).drop i := by
  unfold zlInsertEntries
  dsimp only
  split <;> simp [zlStorePrevlen_value, map_take, map_drop]

theorem zlDeleteEntries_value (es : List ZlEntry) (i num : Nat) : (zlDeleteEntries es i num).map value =
      (es.map value).take i ++ (es.map value).drop (i + num) := by
  unfold zlDeleteEntries
  rw [map_append, zlStorePrevlen_value, drop_drop, map_take, map_drop]

namespace Ziplist

def values (zl : Ziplist) : List ZlValue := zl.entries.map ZlEntry.value

def toList (zl : Ziplist) : List (List UInt8) := zl.values.map ZlValue.bytes

variable {zl : Ziplist}

@[simp] theorem values_length : zl.values.length = zl.entries.length := length_map ..

@[simp] theorem toList_length : zl.toList.length = zl.entries.length := by
  rw [toList, length_map, values_length]

end Ziplist

variable {zl zl' : Ziplist} {s : List UInt8} {i num : Nat}

theorem ziplistLen_eq (zl : Ziplist) : ziplistLen zl = zl.entries.length := by
  unfold ziplistLen
  have := zl.zllen_eq
  split <;> omega

theorem ziplistResize_eq_some {n : Nat} {h : n = 65535 ∨ n < 65535 ∧ n = es.length}
    (hz : ziplistResize es n h = some zl) : zl.entries = es := by
  unfold ziplistResize at hz
  split at hz
  · cases hz; rfl
  · cases hz

theorem ziplistResize_isSome {n : Nat} (h : n = 65535 ∨ n < 65535 ∧ n = es.length)
    (hc : zlCap (es.map value) < 2 ^ 32) : ∃ zl, ziplistResize es n h = some zl := by
  exact ⟨_, dif_pos ((zlBytes_le_cap es).trans_lt hc)⟩

/-! ### Insertion -/

theorem ziplistInsert_values (h : ziplistInsert zl i s = some zl') :
    zl'.values = zl.values.take i ++ zipEncode s :: zl.values.drop i := by
  unfold Ziplist.values
  rw [ziplistResize_eq_some h, zlInsertEntries_value]

theorem ziplistInsert_isSome (zl : Ziplist) (i : Nat) (s : List UInt8)
    (hc : zlCap zl.values + s.length + 14 < 2 ^ 32) : ∃ zl', ziplistInsert zl i s = some zl' := by
  refine ziplistResize_isSome _ ?_
  have := zipEncode_size_le s
  have := zlCap_insert (zl.values.take i) (zl.values.drop i) (zipEncode s)
  rw [take_append_drop] at this
  rw [zlInsertEntries_value]
  show zlCap (zl.values.take i ++ zipEncode s :: zl.values.drop i) < _
  omega

theorem ziplistInsert_cap (h : ziplistInsert zl i s = some zl') :
    zlCap zl'.values ≤ zlCap zl.values + s.length + 14 := by
  have := zipEncode_size_le s
  have := zlCap_insert (zl.values.take i) (zl.values.drop i) (zipEncode s)
  rw [take_append_drop, ← ziplistInsert_values h] at this
  omega

/-! ### Deletion -/

theorem ziplistDeleteAt_values (h : ziplistDeleteAt zl i num = some zl') :
    zl'.values = zl.values.take i ++ zl.values.drop (i + num) := by
  unfold ziplistDeleteAt at h
  dsimp only at h
  split at h
  next h0 =>
    cases h
    rcases Nat.eq_zero_or_pos num with rfl | hn
    · rw [Nat.add_zero, take_append_drop]
    · have : zl.values.length ≤ i := by rw [Ziplist.values_length]; omega
      rw [take_of_length_le this, drop_eq_nil_of_le (by omega), append_nil]
  · unfold Ziplist.values
    rw [ziplistResize_eq_some h, zlDeleteEntries_value]

theorem take_append_drop_sublist {α : Type} (l : List α) (i j : Nat) : (l.take i ++ l.drop (i + j)).Sublist l := by
  conv => rhs; rw [← take_append_drop i l]
  rw [← drop_drop]
  exact (List.Sublist.refl _).append (drop_sublist _ _)

theorem ziplistDeleteAt_isSome (zl : Ziplist) (i num : Nat) (hc : zlCap zl.values < 2 ^ 32) :
    ∃ zl', ziplistDeleteAt zl i num = some zl' := by
  unfold ziplistDeleteAt
  dsimp only
  split
  · exact ⟨zl, rfl⟩
  · refine ziplistResize_isSome _ ?_
    rw [zlDeleteEntries_value]
    exact (zlCap_sublist (take_append_drop_sublist zl.values i num)).trans_lt hc

theorem ziplistDeleteAt_cap (h : ziplistDeleteAt zl i num = some zl') : zlCap zl'.values ≤ zlCap zl.values := by
  rw [ziplistDeleteAt_values h]
  exact zlCap_sublist (take_append_drop_sublist zl.values i num)

/-! ### Merging -/

theorem ziplistMerge_toList {a b : Ziplist} {first : Bool} (h : ziplistMerge a b = some (zl, first)) :
    zl.toList = a.toList ++ b.toList := by
  obtain ⟨zl₁, hz, heq⟩ := Option.map_eq_some_iff.1 h
  cases heq
  unfold Ziplist.toList Ziplist.values
  rw [ziplistResize_eq_some hz, zlMergeEntries, map_append, map_append]
  cases a.entries.getLast? with
  | none => rfl
  | some cur => rw [ziplistCascadeUpdate_value]

end Redis
