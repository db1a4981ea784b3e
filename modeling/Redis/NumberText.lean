import Redis.HashRefines

/-! # Numbers as text (`util.c`)

`ll2string` computes the number of digits first and then fills the buffer from its end, two digits at
a time. Its text is the printed form that `lltoa` builds digit by digit. -/

namespace Redis
open List

/-- The table `"000102…9899"`. -/
def digits : List UInt8 := (List.range 100).flatMap fun k => [UInt8.ofNat (48 + k / 10), UInt8.ofNat (48 + k % 10)]

/-- The two bytes of the table at `i`, written to `dst[next - 1]` and `dst[next]`. -/
def ll2stringPair (dst : List UInt8) (next i : Nat) : Option (List UInt8) := do
  let dst ← memcpy dst next ((digits.drop (i + 1)).take 1)
  memcpy dst ((next + 2 ^ 32 - 1) % 2 ^ 32) ((digits.drop i).take 1)

/-- The loop of `ll2string`, with the last one or two digits behind it. -/
def ll2stringDigits : Nat → Nat → Nat → List UInt8 → Option (List UInt8)
  | 0, _, _, _ => none
  | fuel + 1, value, next, dst =>
    if value ≥ 100 then do
      let dst ← ll2stringPair dst next (value % 100 * 2)
      ll2stringDigits fuel (value / 100) ((next + 2 ^ 32 - 2) % 2 ^ 32) dst
    else if value < 10 then memcpy dst next [UInt8.ofNat (48 + value)]
    else ll2stringPair dst next (value * 2)

def ll2string (dst : List UInt8) (svalue : Int) : Option (Nat × List UInt8) :=
  let negative := if svalue < 0 then 1 else 0
  let value := if svalue < 0 then if svalue ≠ -2 ^ 63 then (-svalue).toNat else 2 ^ 63 else svalue.toNat
  let length := digits10 2 value + negative
  if length ≥ dst.length then some (0, dst)
  else do
    let dst ← memcpy dst length [0]
    let dst ← ll2stringDigits 11 value (length - 1) dst
    let dst ← if svalue < 0 then memcpy dst 0 [45] else some dst
    some (length, dst)

theorem digits_pair {k : Nat} (hk : k < 100) : (digits.drop (k * 2)).take 1 = [UInt8.ofNat (48 + k / 10)] ∧
      (digits.drop (k * 2 + 1)).take 1 = [UInt8.ofNat (48 + k % 10)] := by
  have hall : ∀ k < 100, (digits.drop (k * 2)).take 1 = [UInt8.ofNat (48 + k / 10)] ∧
      (digits.drop (k * 2 + 1)).take 1 = [UInt8.ofNat (48 + k % 10)] := by decide +kernel
  exact hall k hk

variable {P S Y : List UInt8} {k v n : Nat}

theorem ll2stringPair_eq (hk : k < 100) (hY : Y.length = 2) (hP : P.length + 1 < 2 ^ 32) :
    ll2stringPair (P ++ (Y ++ S)) (P.length + 1) (k * 2) =
      some (P ++ ([UInt8.ofNat (48 + k / 10), UInt8.ofNat (48 + k % 10)] ++ S)) := by
  obtain ⟨a, b, rfl⟩ := length_eq_two.1 hY
  obtain ⟨htens, hones⟩ := digits_pair hk
  have hlast := memcpy_exact (P ++ [a]) S (X := [b]) (B := [UInt8.ofNat (48 + k % 10)]) rfl
  have hfirst := memcpy_exact P (UInt8.ofNat (48 + k % 10) :: S) (X := [a])
    (B := [UInt8.ofNat (48 + k / 10)]) rfl
  simp only [append_assoc, singleton_append, length_append, length_singleton] at hlast hfirst
  rw [ll2stringPair, htens, hones, show (P.length + 1 + 2 ^ 32 - 1) % 2 ^ 32 = P.length by omega]
  simp only [cons_append, nil_append, hlast, some_bind, hfirst]

theorem decDigits_two (h : 100 ≤ v) (hmax : v ≤ uint64Max) : decDigits 20 v =
    decDigits 20 (v / 100) ++ [UInt8.ofNat (48 + v % 100 / 10), UInt8.ofNat (48 + v % 100 % 10)] := by
  have hones := decDigits_append (v := v / 10) (d := v % 10) (by omega) (by omega) (by omega)
  have htens := decDigits_append (v := v / 100) (d := v / 10 % 10) (by omega) (by omega) (by omega)
  rw [show v / 10 * 10 + v % 10 = v by omega] at hones
  rw [show v / 100 * 10 + v / 10 % 10 = v / 10 by omega] at htens
  rw [hones, htens, append_assoc, show v % 100 / 10 = v / 10 % 10 by omega, show v % 100 % 10 = v % 10 by omega]
  rfl

theorem ll2stringDigits_eq (hf : 0 < n) (hv : v < 100 ^ n) (hmax : v ≤ uint64Max)
    (hY : Y.length = (decDigits 20 v).length) (hP : P.length + Y.length < 2 ^ 32) :
    ll2stringDigits n v (P.length + Y.length - 1) (P ++ (Y ++ S)) = some (P ++ (decDigits 20 v ++ S)) := by
  induction n generalizing v Y S with
  | zero => exact absurd hf (lt_irrefl 0)
  | succ n ih =>
    rw [ll2stringDigits]
    split
    next h100 =>
      have hpos : 0 < n := by
        by_contra h0
        rw [Nat.eq_zero_of_not_pos h0] at hv
        omega
      rw [decDigits_two h100 hmax, length_append] at hY
      have hY' : (Y.take (decDigits 20 (v / 100)).length).length = (decDigits 20 (v / 100)).length := by
        rw [length_take, hY]
        exact min_eq_left (Nat.le_add_right _ _)
      have hlast : (Y.drop (decDigits 20 (v / 100)).length).length = 2 := by
        rw [length_drop, hY, Nat.add_sub_cancel_left]
        rfl
      rw [← take_append_drop (decDigits 20 (v / 100)).length Y] at hP ⊢
      generalize Y.take (decDigits 20 (v / 100)).length = Y' at *
      rw [length_append, hlast] at hP ⊢
      have hpair := ll2stringPair_eq (P := P ++ Y') (S := S) (Nat.mod_lt v (by decide : 0 < 100)) hlast
        (by rw [length_append]; omega)
      rw [length_append, append_assoc, append_assoc] at hpair
      have hne := length_pos_iff.2 (decDigits_ne_nil (v / 100))
      rw [show P.length + (Y'.length + 2) - 1 = P.length + Y'.length + 1 by omega, append_assoc, hpair, some_bind,
        show (P.length + Y'.length + 1 + 2 ^ 32 - 2) % 2 ^ 32 = P.length + Y'.length - 1 by omega,
        ih hpos (by omega) (by omega) hY' (by omega), decDigits_two h100 hmax, append_assoc]
    next h100 =>
      split
      next h10 =>
        have hone : decDigits 20 v = [UInt8.ofNat (48 + v)] := by rw [decDigits, if_pos h10]
        rw [hone] at hY ⊢
        rw [show P.length + Y.length - 1 = P.length by rw [hY]; rfl, memcpy_exact P S hY.symm]
      next h10 =>
        have htwo : decDigits 20 v = [UInt8.ofNat (48 + v / 10), UInt8.ofNat (48 + v % 10)] := by
          rw [decDigits, if_neg h10, decDigits, if_pos (by omega)]
          rfl
        rw [htwo] at hY ⊢
        have hlen : Y.length = 2 := hY
        rw [hlen]
        exact ll2stringPair_eq (by omega) hlen (by omega)

theorem ll2string_eq {v : Int} {dst : List UInt8} (hv : -2 ^ 63 ≤ v ∧ v < 2 ^ 63) (hdst : sdigits10 v < dst.length) :
    ll2string dst v = some (sdigits10 v, lltoa v ++ 0 :: dst.drop (sdigits10 v + 1)) := by
  have hvalue : (if v < 0 then if v ≠ -2 ^ 63 then (-v).toNat else 2 ^ 63 else v.toNat) = v.natAbs := by
    split
    · split
      · omega
      · omega
    · omega
  have hlen : digits10 2 v.natAbs + (if v < 0 then 1 else 0) = sdigits10 v := by
    rw [sdigits10]
    split at hvalue
    next hneg => rw [if_pos hneg, if_pos hneg, hvalue]
    next hneg => rw [if_neg hneg, if_neg hneg, hvalue, Nat.add_zero]
  have htext := sdigits10_eq hv
  -- the buffer is the text's room, the place of the terminator and the rest
  have hsplit : dst = dst.take (sdigits10 v) ++ ((dst.drop (sdigits10 v)).take 1 ++ dst.drop (sdigits10 v + 1)) := by
    rw [← drop_drop, take_append_drop, take_append_drop]
  have hroom : (dst.take (sdigits10 v)).length = sdigits10 v := by
    rw [length_take]
    omega
  have hterm : ((dst.drop (sdigits10 v)).take 1).length = 1 := by
    rw [length_take, length_drop]
    omega
  have hnul := memcpy_exact (dst.take (sdigits10 v)) (dst.drop (sdigits10 v + 1)) (B := [0]) hterm.symm
  rw [← hsplit, hroom] at hnul
  have hdigits := fun P Y => ll2stringDigits_eq (P := P) (Y := Y) (n := 11) (v := v.natAbs)
    (S := [0] ++ dst.drop (sdigits10 v + 1)) (by decide) (by omega) (by simp only [uint64Max]; omega)
  have hshort := decDigits_length_le 20 v.natAbs
  simp only [ll2string, hvalue, hlen, ge_iff_le, not_le.2 hdst, if_false, hnul, some_bind]
  rw [lltoa] at htext ⊢
  split
  next hneg =>
    rw [if_pos hneg, length_cons] at htext
    obtain ⟨b, Y, hb⟩ := exists_cons_of_length_pos (l := dst.take (sdigits10 v)) (by omega)
    rw [hb, length_cons] at hroom
    have hw := hdigits [b] Y (by omega) (by rw [length_singleton]; omega)
    rw [length_singleton, show 1 + Y.length - 1 = sdigits10 v - 1 by omega] at hw
    rw [hb]
    simp only [nil_append, cons_append] at hw ⊢
    rw [hw, some_bind]
    rfl
  next hneg =>
    rw [if_neg hneg] at htext
    have hw := hdigits [] (dst.take (sdigits10 v)) (by omega) (by rw [length_nil]; omega)
    rw [length_nil, Nat.zero_add, hroom, nil_append] at hw
    rw [hw]
    rfl

/-- Printing and strict parsing are inverse to each other, for both parsers. -/
theorem string2ll_iff_ll2string (s : List UInt8) {v : Int} (hv : -2 ^ 63 ≤ v ∧ v < 2 ^ 63) {dst : List UInt8}
    (hdst : sdigits10 v < dst.length) :
    ∃ text rest, ll2string dst v = some (sdigits10 v, text ++ 0 :: rest) ∧ sdigits10 v = text.length ∧
      (text ++ 0 :: rest).length = dst.length ∧ (string2ll s = some v ↔ s = text) ∧
      lpStringToInt64 s = string2ll s := by
  refine ⟨lltoa v, dst.drop (sdigits10 v + 1), ll2string_eq hv hdst, sdigits10_eq hv, ?_, ?_, (string2ll_eq s).symm⟩
  · rw [length_append, length_cons, length_drop, ← sdigits10_eq hv]
    omega
  rw [string2ll_eq]
  constructor
  · intro h
    exact (lpStringToInt64_spec h).1.symm
  · rintro rfl
    exact lpStringToInt64_lltoa hv.1 hv.2

theorem string2ll_iff_ll2string_min : sdigits10 (-2 ^ 63) < (replicate 21 (7 : UInt8)).length ∧
    ∃ text rest, ll2string (replicate 21 7) (-2 ^ 63) = some (sdigits10 (-2 ^ 63), text ++ 0 :: rest) ∧
      sdigits10 (-2 ^ 63) = text.length ∧ (text ++ 0 :: rest).length = (replicate 21 (7 : UInt8)).length ∧
      (string2ll [45, 48] = some (-2 ^ 63) ↔ [45, 48] = text) ∧ lpStringToInt64 [45, 48] = string2ll [45, 48] :=
  ⟨by decide, string2ll_iff_ll2string [45, 48] (by decide) (by decide)⟩

end Redis
