import Redis.NumberText

/-! # Bit offsets and ranges (`bitops.c`, `t_string.c`, `t_list.c`) -/

namespace Redis
open List

/-! ### Offsets -/

def bitOffsetError : String := "bit offset is not an integer or out of range"

/-- With the text of the error reply; the product wraps around in 64 bits. -/
def getBitOffsetFromArgument (p : List UInt8) (hash : Bool) (bits : Int) : Except String Nat :=
  let usehash := p.head? = some 35 ∧ hash = true ∧ bits > 0
  match string2ll (if usehash then p.drop 1 else p) with
  | none => .error bitOffsetError
  | some loffset =>
    let loffset := if usehash then (loffset * bits).bmod (2 ^ 64) else loffset
    if loffset < 0 ∨ loffset.toNat >>> 3 ≥ 512 * 1024 * 1024 then .error bitOffsetError else .ok loffset.toNat

/-- The printed form of a number of any size. -/
def intText (n : Int) : List UInt8 :=
  if n < 0 then 45 :: decDigits (n.natAbs + 1) n.natAbs else decDigits (n.natAbs + 1) n.natAbs

/-- The argument `p` stands for the offset `x`. -/
def OffsetText (p : List UInt8) (hash : Bool) (bits x : Int) : Prop :=
  if p.head? = some 35 ∧ hash = true ∧ bits > 0 then ∃ n, p = 35 :: intText n ∧ x = n * bits else p = intText x

theorem decDigits_add {fuel n : Nat} (hf : 0 < fuel) (h : n < 10 ^ fuel) (k : Nat) :
    decDigits (fuel + k) n = decDigits fuel n := by
  induction k with
  | zero => rfl
  | succ k ih =>
    rw [← Nat.add_assoc, decDigits_succ (by omega) (h.trans_le (Nat.pow_le_pow_right (by decide) (Nat.le_add_right _ _))), ih]

theorem intText_eq {n : Int} (h : -2 ^ 63 ≤ n ∧ n < 2 ^ 63) : intText n = lltoa n := by
  have hd : decDigits (n.natAbs + 1) n.natAbs = decDigits 20 n.natAbs := by
    have hpow : n.natAbs < 10 ^ (n.natAbs + 1) :=
      (Nat.lt_succ_self _).trans (Nat.lt_pow_self (by decide))
    rw [← decDigits_add (Nat.succ_pos _) hpow 20, Nat.add_comm, decDigits_add (by decide) (by omega)]
  rw [intText, lltoa, hd]

theorem string2ll_iff_intText {s : List UInt8} {v : Int} :
    string2ll s = some v ↔ s = intText v ∧ -2 ^ 63 ≤ v ∧ v < 2 ^ 63 := by
  rw [string2ll_eq]
  constructor
  · intro h
    obtain ⟨htext, hrange⟩ := lpStringToInt64_spec h
    exact ⟨by rw [intText_eq hrange, htext], hrange⟩
  · rintro ⟨rfl, hlo, hhi⟩
    rw [intText_eq ⟨hlo, hhi⟩]
    exact lpStringToInt64_lltoa hlo hhi

theorem offset_limit (x : Int) (off : Nat) :
    (if x < 0 ∨ x.toNat >>> 3 ≥ 512 * 1024 * 1024 then .error bitOffsetError else .ok x.toNat : Except String Nat) =
      .ok off ↔ x = off ∧ off < 2 ^ 32 := by
  split
  next h =>
    constructor
    · intro he
      cases he
    · omega
  next h =>
    rw [Except.ok.injEq]
    omega

/-- A number whose product is in range fits 64 bits. -/
theorem small_of_product {n m : Int} {off : Nat} (hm : 0 < m) (hn : off = n * m) (hoff : off < 2 ^ 32) :
    -2 ^ 63 ≤ n ∧ n < 2 ^ 63 := by
  have hpos : 0 ≤ n := nonneg_of_mul_nonneg_left (by omega) hm
  have hle : n ≤ n * m := le_mul_of_one_le_right hpos hm
  omega

theorem offset_parsed {s : List UInt8} {m : Int} {f : Int → Int} (hm : 0 < m) (off : Nat)
    (hf : ∀ v, s = intText v → -2 ^ 63 ≤ v ∧ v < 2 ^ 63 → off < 2 ^ 32 → (f v = off ↔ v * m = off)) :
    (match string2ll s with
      | none => .error bitOffsetError
      | some v => if f v < 0 ∨ (f v).toNat >>> 3 ≥ 512 * 1024 * 1024 then .error bitOffsetError else .ok (f v).toNat :
        Except String Nat) = .ok off ↔ (∃ n, s = intText n ∧ off = n * m) ∧ off < 2 ^ 32 := by
  cases hs : string2ll s with
  | none =>
    constructor
    · intro h
      cases h
    · rintro ⟨⟨n, htext, hn⟩, hoff⟩
      rw [string2ll_iff_intText.2 ⟨htext, small_of_product hm hn hoff⟩] at hs
      cases hs
  | some v =>
    obtain ⟨htext, hrange⟩ := string2ll_iff_intText.1 hs
    rw [offset_limit]
    refine and_congr_left fun hoff => ?_
    rw [hf v htext hrange hoff]
    refine ⟨fun h => ⟨v, htext, h.symm⟩, ?_⟩
    rintro ⟨n, hn, hoff'⟩
    rw [string2ll_iff_intText.2 ⟨hn, small_of_product hm hoff' hoff⟩] at hs
    rw [← Option.some.inj hs, hoff']

/-- No product of a `#` argument differs from an offset in range by a multiple of `2 ^ 64`. -/
def ProductFits (p : List UInt8) (hash : Bool) (bits : Int) : Prop :=
  hash = true → 0 < bits → ∀ n k : Int, p = 35 :: intText n → -2 ^ 63 ≤ n ∧ n < 2 ^ 63 →
    0 ≤ n * bits - 2 ^ 64 * k → n * bits - 2 ^ 64 * k < 2 ^ 32 → k = 0

theorem bmod_eq_of_sub {x k : Int} (h₀ : 0 ≤ x - 2 ^ 64 * k) (h : x - 2 ^ 64 * k < 2 ^ 32) :
    x.bmod (2 ^ 64) = x - 2 ^ 64 * k := by
  rw [Int.bmod_def]
  omega

/-- An offset is accepted exactly when it is in range, iff the product does not wrap into the range. -/
theorem getBitOffsetFromArgument_exact (p : List UInt8) (hash : Bool) (bits : Int) :
    (∀ off : Nat, getBitOffsetFromArgument p hash bits = .ok off ↔ OffsetText p hash bits off ∧ off < 2 ^ 32) ↔
      ProductFits p hash bits := by
  unfold getBitOffsetFromArgument OffsetText
  by_cases hu : p.head? = some 35 ∧ hash = true ∧ bits > 0
  · obtain ⟨s, rfl⟩ := head?_eq_some_iff.1 hu.1
    simp only [hu, and_self, if_true, drop_one, tail_cons, cons.injEq, true_and]
    refine ⟨fun h _ _ n k htext hrange h₀ hlt => ?_, fun h off => ?_⟩
    · -- the code gives the wrapped product, which is then the product of the argument
      obtain ⟨off, hoff⟩ := Int.eq_ofNat_of_zero_le h₀
      have hs := string2ll_iff_intText.2 ⟨(cons.inj htext).2, hrange⟩
      have hok := h off
      rw [hs] at hok
      dsimp only at hok
      rw [bmod_eq_of_sub h₀ hlt, offset_limit] at hok
      obtain ⟨⟨n', hn', hprod⟩, hsmall⟩ := hok.1 ⟨hoff, by omega⟩
      have hs' := string2ll_iff_intText.2 ⟨hn', small_of_product hu.2.2 hprod hsmall⟩
      obtain rfl : n = n' := Option.some.inj (hs.symm.trans hs')
      omega
    · refine offset_parsed hu.2.2 off fun v htext hrange hoff => ⟨fun hmod => ?_, fun hprod => ?_⟩
      · obtain ⟨k, hk⟩ : ∃ k, (v * bits).bmod (2 ^ 64) = v * bits - 2 ^ 64 * k := ⟨_, Int.bmod_eq_self_sub_mul_bdiv _ _⟩
        have := h rfl hu.2.2 v k (by rw [htext]) hrange (by omega) (by omega)
        omega
      · exact (Int.bmod_eq_of_le (by omega) (by omega)).trans hprod
  · simp only [hu, if_false]
    refine iff_of_true (fun off => ?_) fun hh hb n k htext => absurd ⟨by rw [htext]; rfl, hh, hb⟩ hu
    simpa only [mul_one, exists_eq_right'] using offset_parsed one_pos off fun v _ _ _ => by rw [mul_one]

/-- `#288230376151711744` with a width of 64 is the offset `2 ^ 64`, but the product wraps around to 0. -/
theorem getBitOffsetFromArgument_wraps :
    getBitOffsetFromArgument (35 :: intText (2 ^ 58)) true 64 = .ok 0 ∧ ¬(2 ^ 58 * 64 : Int) < 2 ^ 32 := by
  decide

end Redis
