import Redis.QueryBuffer

/-! # `strtoll`

The C library's conversion of the start of a string, and what it makes of a printed number or of a
part of one. -/

namespace Redis
open List

def digitsVal (ds : List UInt8) : Nat := ds.foldl (fun n d => n * 10 + (d.toNat - 48)) 0

def strtoll (s : List UInt8) : Int × Nat :=
  let ws := (s.takeWhile Input.isspace).length
  let t := s.drop ws
  let sign := if t.head? = some 45 ∨ t.head? = some 43 then 1 else 0
  let ds := (t.drop sign).takeWhile isDigit
  if ds = [] then (0, 0)
  else
    (max (-2 ^ 63) (min (2 ^ 63 - 1) (if t.head? = some 45 then -(digitsVal ds : Int) else digitsVal ds)),
      ws + sign + ds.length)

theorem digitsVal_concat (ds : List UInt8) (d : UInt8) : digitsVal (ds ++ [d]) = digitsVal ds * 10 + (d.toNat - 48) := by
  rw [digitsVal, foldl_append]
  rfl

theorem digitsVal_decDigits {fuel n : Nat} (hf : 0 < fuel) (h : n < 10 ^ fuel) : digitsVal (decDigits fuel n) = n := by
  induction fuel generalizing n with
  | zero => omega
  | succ fuel ih =>
    rw [decDigits]
    split
    next hn =>
      show 0 * 10 + ((UInt8.ofNat (48 + n)).toNat - 48) = n
      rw [ofNat_toNat (by omega)]
      omega
    next hn =>
      have hlt : n / 10 < 10 ^ fuel := by
        rw [Nat.div_lt_iff_lt_mul (by decide)]
        exact h
      have hpos : 0 < fuel := by
        rcases Nat.eq_zero_or_pos fuel with rfl | hpos
        · omega
        · exact hpos
      rw [digitsVal_concat, ih hpos hlt, ofNat_toNat (by omega)]
      omega

theorem digitsVal_of_isPrefix {fuel n : Nat} {p : List UInt8} (h : n < 10 ^ fuel) (h1 : 1 ≤ n)
    (hp : p <+: decDigits fuel n) (hne : p ≠ []) : 1 ≤ digitsVal p ∧ digitsVal p ≤ n := by
  induction fuel generalizing n with
  | zero => omega
  | succ fuel ih =>
    have hval := digitsVal_decDigits (Nat.succ_pos fuel) h
    rw [decDigits] at hp hval
    split at hp
    next hn =>
      rw [if_pos hn] at hval
      obtain rfl : p = [UInt8.ofNat (48 + n)] := by
        rcases prefix_cons_iff.1 hp with rfl | ⟨t, rfl, ht⟩
        · exact absurd rfl hne
        · rw [prefix_nil.1 ht]
      omega
    next hn =>
      rw [if_neg hn] at hval
      rcases prefix_concat_iff.1 hp with rfl | hp
      · omega
      have hlt : n / 10 < 10 ^ fuel := by
        rw [Nat.div_lt_iff_lt_mul (by decide)]
        exact h
      have := ih hlt (by omega) hp
      omega

theorem strtoll_digits {ds rest : List UInt8} (hne : ds ≠ []) (hd : ∀ d ∈ ds, 48 ≤ d.toNat ∧ d.toNat ≤ 57)
    (hrest : ∀ c ∈ rest.head?, isDigit c = false) (hlt : digitsVal ds < 2 ^ 63) :
    strtoll (ds ++ rest) = ((digitsVal ds : Int), ds.length) := by
  obtain ⟨d, ds', rfl⟩ := exists_cons_of_ne_nil hne
  have hd0 := hd d (.head _)
  have hws : ((d :: ds') ++ rest).takeWhile Input.isspace = [] := by
    have hsp : Input.isspace d = false := by
      simp only [Input.isspace, decide_eq_false_iff_not, not_or]
      refine ⟨?_, by omega⟩
      rintro rfl
      exact absurd hd0.1 (by decide)
    rw [cons_append, takeWhile_cons, hsp]
    rfl
  have hsign : ¬ (((d :: ds') ++ rest).head? = some 45 ∨ ((d :: ds') ++ rest).head? = some 43) := by
    rintro (h | h)
    · cases h
      exact absurd hd0.1 (by decide)
    · cases h
      exact absurd hd0.1 (by decide)
  have htake : ((d :: ds') ++ rest).takeWhile isDigit = d :: ds' := by
    have hrest' : rest.takeWhile isDigit = [] := by
      cases rest with
      | nil => rfl
      | cons c rest => rw [takeWhile_cons, hrest c rfl]; rfl
    have hdig : ∀ x ∈ d :: ds', isDigit x = true := fun x hx => by
      simp only [isDigit, decide_eq_true_eq]
      exact hd x hx
    rw [takeWhile_append_of_pos hdig, hrest', append_nil]
  unfold strtoll
  rw [hws]
  simp only [length_nil, drop_zero, if_neg hsign, htake, reduceCtorEq, if_false]
  rw [if_neg fun h => hsign (.inl h)]
  have hmin : min (2 ^ 63 - 1 : Int) (digitsVal (d :: ds')) = digitsVal (d :: ds') := by omega
  have hmax : max (-2 ^ 63 : Int) (digitsVal (d :: ds')) = digitsVal (d :: ds') := by omega
  rw [hmin, hmax, add_zero, zero_add]

end Redis
