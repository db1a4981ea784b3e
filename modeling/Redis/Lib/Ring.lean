import Mathlib.Data.List.Basic

/-! # Ring buffers

A ring keeps the end of a history in a buffer of fixed length: the element at position `p` of the
history lies at index `p % length`. Pieces that do not cross the end of the buffer are written with
`blit` and read with `slice`. -/

namespace Redis
open List
variable {α : Type}

/-- `memcpy` into a buffer; a copy past its end is a fault. -/
def blit (buf : List α) (i : Nat) (d : List α) : Option (List α) :=
  if i + d.length ≤ buf.length then some (buf.take i ++ d ++ buf.drop (i + d.length)) else none

/-- Read `n` elements from index `i`; a read past the end is a fault. -/
def slice (buf : List α) (i n : Nat) : Option (List α) :=
  if i + n ≤ buf.length then some ((buf.drop i).take n) else none

/-- `buf` holds the last elements of `hist`. -/
structure Ring (buf hist : List α) : Prop where
  pos : 0 < buf.length
  cell : ∀ p, p < hist.length → hist.length ≤ p + buf.length → buf[p % buf.length]? = hist[p]?

variable {buf hist d : List α} {n p T : Nat}

theorem Ring.nil (h : 0 < buf.length) : Ring buf ([] : List α) := ⟨h, fun _ hp => absurd hp (Nat.not_lt_zero _)⟩

theorem mod_shift {e : Nat} (hn : 0 < n) (he : e < n) (hp : p = T + e ∨ p + n = T + e) :
    p % n = if T % n + e < n then T % n + e else T % n + e - n := by
  have hmod : p % n = (T % n + e) % n := by
    rcases hp with rfl | hp
    · rw [Nat.mod_add_mod]
    · rw [Nat.mod_add_mod, ← hp, Nat.add_mod_right]
  have hlt := Nat.mod_lt T hn
  rw [hmod]
  split
  · exact Nat.mod_eq_of_lt ‹_›
  · rw [Nat.mod_eq_sub_mod (by omega), Nat.mod_eq_of_lt (by omega)]

theorem getElem?_blit {i j : Nat} (h : i + d.length ≤ buf.length) : (buf.take i ++ d ++ buf.drop (i + d.length))[j]? =
      if i ≤ j ∧ j < i + d.length then d[j - i]? else buf[j]? := by
  have hi : (buf.take i).length = i := by rw [length_take]; omega
  by_cases hj : j < i
  · rw [if_neg (by omega), append_assoc, getElem?_append_left (by omega), getElem?_take_of_lt hj]
  by_cases hd : j < i + d.length
  · rw [if_pos ⟨by omega, hd⟩, getElem?_append_left (by simp; omega), getElem?_append_right (by omega), hi]
  rw [if_neg (by omega), getElem?_append_right (by simp; omega), getElem?_drop]
  congr 1
  simp [hi]
  omega

theorem Ring.blit (h : Ring buf hist) (hd : hist.length % buf.length + d.length ≤ buf.length) :
    ∃ buf', Redis.blit buf (hist.length % buf.length) d = some buf' ∧ buf'.length = buf.length ∧
      Ring buf' (hist ++ d) := by
  have hlen : (buf.take (hist.length % buf.length) ++ d ++ buf.drop (hist.length % buf.length + d.length)).length =
      buf.length := by
    simp
    omega
  refine ⟨_, if_pos hd, hlen, ?_, ?_⟩
  · rw [hlen]
    exact h.pos
  intro p hp hle
  rw [hlen] at hle ⊢
  rw [length_append] at hp hle
  rw [getElem?_blit hd]
  by_cases hold : p < hist.length
  · -- an old element that is still kept lies outside the piece
    have hidx := mod_shift (e := p + buf.length - hist.length) (T := hist.length) (p := p) h.pos (by omega)
      (.inr (by omega))
    have hout : ¬ (hist.length % buf.length ≤ p % buf.length ∧
        p % buf.length < hist.length % buf.length + d.length) := by
      rw [hidx]
      split <;> omega
    rw [if_neg hout, getElem?_append_left hold]
    exact h.cell p hold (by omega)
  · by_cases hsmall : p - hist.length < buf.length
    · have hidx := mod_shift (e := p - hist.length) (T := hist.length) (p := p) h.pos hsmall (.inl (by omega))
      rw [if_pos (by omega)] at hidx
      rw [if_pos (by omega), getElem?_append_right (by omega)]
      congr 1
      omega
    · omega

theorem Ring.slice (h : Ring buf hist) (hold : hist.length ≤ p + buf.length) (hn : p + n ≤ hist.length)
    (hj : p % buf.length + n ≤ buf.length) : Redis.slice buf (p % buf.length) n = some ((hist.drop p).take n) := by
  unfold Redis.slice
  rw [if_pos hj]
  congr 1
  refine ext_getElem? fun k => ?_
  by_cases hk : k < n
  · rw [getElem?_take_of_lt hk, getElem?_take_of_lt hk, getElem?_drop, getElem?_drop,
      ← h.cell (p + k) (by omega) (by omega)]
    have hidx := mod_shift (p := p + k) h.pos (by omega) (.inl rfl)
    rw [if_pos (by omega)] at hidx
    rw [hidx]
  · rw [getElem?_eq_none (by simp; omega), getElem?_eq_none (by simp; omega)]

end Redis
