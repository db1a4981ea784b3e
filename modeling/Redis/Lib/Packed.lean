import Mathlib.Data.Nat.Bitwise
import Mathlib.Algebra.Order.Ring.Int

/-! # Arrays of small counters in a byte buffer

Counter `i` of `w ≤ 8` bits takes the bits `i * w, …, i * w + w - 1` of the buffer, each byte from its
lowest bit on. A counter is read and written through the two bytes that it can touch, so the buffer has
one byte more than the counters take. -/

namespace Redis
open List Option

def bitAt (buf : List UInt8) (k : Nat) : Bool := ((buf[k / 8]?).getD 0).toBitVec.getLsbD (k % 8)

def packedGet (w : Nat) (buf : List UInt8) (i : Nat) : Option Nat := do
  let byte := i * w / 8
  let fb := i * w % 8
  let b0 ← buf[byte]?
  let b1 ← buf[byte + 1]?
  some (((b0.toNat >>> fb) ||| (b1.toNat <<< (8 - fb))) &&& (2 ^ w - 1))

/-- Write counter `i`: clear its bits in both bytes, then set those of `v`. -/
def packedSet (w : Nat) (buf : List UInt8) (i v : Nat) : Option (List UInt8) := do
  let byte := i * w / 8
  let fb := i * w % 8
  let b0 ← buf[byte]?
  let buf := buf.set byte ((b0 &&& ~~~UInt8.ofNat ((2 ^ w - 1) <<< fb)) ||| UInt8.ofNat (v <<< fb))
  let b1 ← buf[byte + 1]?
  some (buf.set (byte + 1)
    ((b1 &&& ~~~UInt8.ofNat ((2 ^ w - 1) >>> (8 - fb))) ||| UInt8.ofNat (v >>> (8 - fb))))

section
variable {w i v : Nat} {buf : List UInt8}

theorem testBit_toNat (b : UInt8) (j : Nat) : b.toNat.testBit j = b.toBitVec.getLsbD j := rfl

theorem packedGet_spec (hw : w ≤ 8) (hi : i * w / 8 + 1 < buf.length) :
    ∃ v, packedGet w buf i = some v ∧ v < 2 ^ w ∧ ∀ j < w, v.testBit j = bitAt buf (i * w + j) := by
  obtain ⟨b0, hb0⟩ : ∃ b0, buf[i * w / 8]? = some b0 := ⟨_, getElem?_eq_getElem (by omega)⟩
  obtain ⟨b1, hb1⟩ : ∃ b1, buf[i * w / 8 + 1]? = some b1 := ⟨_, getElem?_eq_getElem hi⟩
  have hget : packedGet w buf i =
      some (((b0.toNat >>> (i * w % 8)) ||| (b1.toNat <<< (8 - i * w % 8))) &&& (2 ^ w - 1)) := by
    simp [packedGet, hb0, hb1]
  refine ⟨_, hget, ?_, ?_⟩
  · exact Nat.and_le_right.trans_lt (Nat.sub_lt (Nat.two_pow_pos w) Nat.one_pos)
  intro j hj
  rw [Nat.testBit_and, Nat.testBit_two_pow_sub_one, Nat.testBit_or, Nat.testBit_shiftRight,
    Nat.testBit_shiftLeft, testBit_toNat, decide_eq_true hj, Bool.and_true]
  rcases lt_or_ge (i * w % 8 + j) 8 with h | h
  · have h1 : (i * w + j) / 8 = i * w / 8 := by omega
    have h2 : (i * w + j) % 8 = i * w % 8 + j := by omega
    rw [bitAt, h1, h2, hb0, decide_eq_false (by omega), Bool.false_and, Bool.or_false]
    rfl
  · have h1 : (i * w + j) / 8 = i * w / 8 + 1 := by omega
    have h2 : (i * w + j) % 8 = j - (8 - i * w % 8) := by omega
    rw [bitAt, h1, h2, hb1, decide_eq_true (by omega),
      BitVec.getLsbD_of_ge b0.toBitVec _ h]
    rfl

theorem bitAt_set (buf : List UInt8) (n : Nat) (b : UInt8) (hn : n < buf.length) (k : Nat) :
    bitAt (buf.set n b) k = if k / 8 = n then b.toBitVec.getLsbD (k % 8) else bitAt buf k := by
  by_cases h : k / 8 = n
  · subst h
    rw [bitAt, getElem?_set_self hn, if_pos rfl]
    rfl
  · rw [bitAt, getElem?_set_ne (Ne.symm h), if_neg h, bitAt]

theorem getLsbD_masked (b : UInt8) (m v j : Nat) (hj : j < 8) :
    ((b &&& ~~~UInt8.ofNat m) ||| UInt8.ofNat v).toBitVec.getLsbD j =
      (b.toBitVec.getLsbD j && !m.testBit j || v.testBit j) := by
  have hof : ∀ n, (UInt8.ofNat n).toBitVec.getLsbD j = n.testBit j := fun n => by
    rw [UInt8.toBitVec_ofNat', BitVec.getLsbD_ofNat, decide_eq_true hj, Bool.true_and]
  rw [UInt8.toBitVec_or, UInt8.toBitVec_and, UInt8.toBitVec_not, BitVec.getLsbD_or, BitVec.getLsbD_and,
    BitVec.getLsbD_not, hof, hof, decide_eq_true hj, Bool.true_and]

theorem packedSet_spec (hw : w ≤ 8) (hv : v < 2 ^ w) (hi : i * w / 8 + 1 < buf.length) :
    ∃ buf', packedSet w buf i v = some buf' ∧ buf'.length = buf.length ∧
      ∀ k, bitAt buf' k = if i * w ≤ k ∧ k < i * w + w then v.testBit (k - i * w) else bitAt buf k := by
  obtain ⟨b0, hb0⟩ : ∃ b0, buf[i * w / 8]? = some b0 := ⟨_, getElem?_eq_getElem (by omega)⟩
  obtain ⟨b1, hb1⟩ : ∃ b1, buf[i * w / 8 + 1]? = some b1 := ⟨_, getElem?_eq_getElem hi⟩
  have hget : ∀ b, (buf.set (i * w / 8) b)[i * w / 8 + 1]? = some b1 := by
    intro b
    rw [getElem?_set_ne (by omega), hb1]
  obtain ⟨b0', hb0'⟩ : ∃ b, b = (b0 &&& ~~~UInt8.ofNat ((2 ^ w - 1) <<< (i * w % 8))) |||
    UInt8.ofNat (v <<< (i * w % 8)) := ⟨_, rfl⟩
  obtain ⟨b1', hb1'⟩ : ∃ b, b = (b1 &&& ~~~UInt8.ofNat ((2 ^ w - 1) >>> (8 - i * w % 8))) |||
    UInt8.ofNat (v >>> (8 - i * w % 8)) := ⟨_, rfl⟩
  have hset : packedSet w buf i v = some ((buf.set (i * w / 8) b0').set (i * w / 8 + 1) b1') := by
    simp [packedSet, hb0, hget, hb0', hb1']
  refine ⟨_, hset, by rw [length_set, length_set], ?_⟩
  intro k
  have hk : k % 8 < 8 := Nat.mod_lt _ (by omega)
  have hhigh : ∀ j, w ≤ j → v.testBit j = false := fun j hj =>
    Nat.testBit_lt_two_pow (hv.trans_le (Nat.pow_le_pow_right (by omega) hj))
  have hmask : i * w ≤ k → (bitAt buf k && !decide (k - i * w < w) || v.testBit (k - i * w)) =
      if i * w ≤ k ∧ k < i * w + w then v.testBit (k - i * w) else bitAt buf k := fun hle => by
    by_cases hin : k < i * w + w
    · rw [if_pos ⟨hle, hin⟩, decide_eq_true (by omega), Bool.not_true, Bool.and_false, Bool.false_or]
    · rw [if_neg (by omega), decide_eq_false (by omega), Bool.not_false, Bool.and_true, hhigh _ (by omega),
        Bool.or_false]
  rw [bitAt_set _ _ _ (by simpa using hi), bitAt_set _ _ _ (by omega)]
  by_cases h1 : k / 8 = i * w / 8 + 1
  · have hbit : bitAt buf k = b1.toBitVec.getLsbD (k % 8) := by rw [bitAt, h1, hb1]; rfl
    have hpos : 8 - i * w % 8 + k % 8 = k - i * w := by omega
    rw [if_pos h1, hb1', getLsbD_masked _ _ _ _ hk, Nat.testBit_shiftRight, Nat.testBit_shiftRight,
      Nat.testBit_two_pow_sub_one, hpos, ← hbit, hmask (by omega)]
  · rw [if_neg h1]
    by_cases h0 : k / 8 = i * w / 8
    · have hbit : bitAt buf k = b0.toBitVec.getLsbD (k % 8) := by rw [bitAt, h0, hb0]; rfl
      rw [if_pos h0, hb0', getLsbD_masked _ _ _ _ hk, Nat.testBit_shiftLeft, Nat.testBit_shiftLeft,
        Nat.testBit_two_pow_sub_one, ← hbit]
      by_cases hge : i * w % 8 ≤ k % 8
      · have hpos : k % 8 - i * w % 8 = k - i * w := by omega
        rw [hpos, decide_eq_true hge, Bool.true_and, Bool.true_and, hmask (by omega)]
      · rw [decide_eq_false (by omega), Bool.false_and, Bool.false_and, Bool.not_false,
          Bool.and_true, Bool.or_false, if_neg (by omega)]
    · rw [if_neg h0, if_neg (by omega)]

theorem packedGet_eq_some (hw : w ≤ 8) (hi : i * w / 8 + 1 < buf.length) (hv : v < 2 ^ w) :
    packedGet w buf i = some v ↔ ∀ j < w, v.testBit j = bitAt buf (i * w + j) := by
  obtain ⟨u, hu, hlt, hbits⟩ := packedGet_spec hw hi
  rw [hu, some_inj]
  refine ⟨?_, fun h => Nat.eq_of_testBit_eq fun j => ?_⟩
  · rintro rfl
    exact hbits
  rcases lt_or_ge j w with hj | hj
  · rw [hbits j hj, h j hj]
  · have hle : 2 ^ w ≤ 2 ^ j := Nat.pow_le_pow_right (by omega) hj
    rw [Nat.testBit_lt_two_pow (hlt.trans_le hle), Nat.testBit_lt_two_pow (hv.trans_le hle)]

theorem packedGet_set {buf' : List UInt8} (hw : w ≤ 8) (hv : v < 2 ^ w) (hi : i * w / 8 + 1 < buf.length)
    (hset : packedSet w buf i v = some buf') {k : Nat} (hk : k * w / 8 + 1 < buf.length) :
    packedGet w buf' k = if k = i then some v else packedGet w buf k := by
  obtain ⟨buf'', hset', hlen, hbits⟩ := packedSet_spec hw hv hi
  cases hset'.symm.trans hset
  split
  next h =>
    subst h
    refine (packedGet_eq_some hw (hlen ▸ hk) hv).2 fun j hj => ?_
    rw [hbits, if_pos (by omega), Nat.add_sub_cancel_left]
  next hne =>
    obtain ⟨u, hu, hlt, hget⟩ := packedGet_spec hw hk
    rw [hu]
    refine (packedGet_eq_some hw (hlen ▸ hk) hlt).2 fun j hj => ?_
    have hout : ¬ (i * w ≤ k * w + j ∧ k * w + j < i * w + w) := by
      rcases Nat.lt_or_gt_of_ne hne with h | h
      all_goals
        have := Nat.mul_le_mul_right w (Nat.succ_le_of_lt h)
        rw [Nat.succ_mul] at this
        omega
    rw [hget j hj, hbits, if_neg hout]

theorem packedGet_zero {n : Nat} (hw : w ≤ 8) (hi : i * w / 8 + 1 < n) :
    packedGet w (List.replicate n 0) i = some 0 := by
  refine (packedGet_eq_some hw (by simpa using hi) (Nat.two_pow_pos w)).2 fun j hj => ?_
  rw [Nat.zero_testBit, bitAt, getElem?_replicate]
  split
  · exact BitVec.getLsbD_zero.symm
  · exact BitVec.getLsbD_zero.symm

end

end Redis
