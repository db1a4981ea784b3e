import Mathlib.Tactic.SplitIfs
import Redis.Listpack

/-! # The encodings of a listpack

What `lpEncodeGetType` and `lpEncodeString` write, `lpCurrentEncodedSize` measures and `lpGet` reads
back: integers lose nothing because `lpStringToInt64` accepts only the decimal form that `snprintf`
prints. What `lpEncodeBacklen` writes, `lpDecodeBacklen` reads from its end. -/

namespace Redis
open List

variable {n : Nat} {v : Int} {s bs : List UInt8}

/-! ### Bytes -/

section
variable (b : UInt8)

theorem lpEncoding_range (e : LpEncoding) (lo hi : Nat) (h : lo ≤ b.toNat ∧ b.toNat < hi)
    (hall : ∀ x : BitVec 8, lo ≤ x.toNat ∧ x.toNat < hi → lpEncoding ⟨x⟩ = e) : lpEncoding b = e :=
  hall b.toBitVec h

theorem eq_eof_of_lpEncoding (h : lpEncoding b = .eof) : b = lpEof := by
  have hall : ∀ x : BitVec 8, lpEncoding ⟨x⟩ = .eof → x = 0xFF#8 := by decide
  exact UInt8.toBitVec_inj.1 (hall b.toBitVec h)

theorem lpEncoding_eof : lpEncoding lpEof = .eof := by decide

theorem toNat_and_0x7f : (b &&& 0x7f).toNat = b.toNat % 128 := by
  exact Nat.and_two_pow_sub_one_eq_mod _ 7

theorem toNat_and_0x3f : (b &&& 0x3F).toNat = b.toNat % 64 := by
  exact Nat.and_two_pow_sub_one_eq_mod _ 6

theorem toNat_and_0x1f : (b &&& 0x1f).toNat = b.toNat % 32 := by
  exact Nat.and_two_pow_sub_one_eq_mod _ 5

theorem toNat_and_0xf : (b &&& 0xF).toNat = b.toNat % 16 := by
  exact Nat.and_two_pow_sub_one_eq_mod _ 4

end

theorem ofNat_toNat (h : n < 256) : (UInt8.ofNat n).toNat = n := by
  exact Nat.mod_eq_of_lt h

theorem or_eq_add {k : Nat} (c : Nat) (h : n < 2 ^ k) (hc : 2 ^ k ∣ c) : n ||| c = n + c := by
  obtain ⟨q, rfl⟩ := hc
  rw [Nat.or_comm, ← Nat.two_pow_add_eq_or_of_lt h, add_comm]

theorem shiftLeft_or (x : Nat) {y : Nat} (h : y < 256) : x <<< 8 ||| y = y + x * 256 := by
  rw [Nat.or_comm]
  exact or_shiftLeft_eq_add (show y < 2 ^ 8 from h)

theorem toNat_two_bytes {x c k : Nat} (hx : x / 256 < 2 ^ k) (hk : 2 ^ k ∣ c) (hc : x / 256 + c < 256) :
    (UInt8.ofNat ((x >>> 8) ||| c)).toNat = x / 256 + c ∧ (UInt8.ofNat (x &&& 0xff)).toNat = x % 256 := by
  rw [Nat.shiftRight_eq_div_pow x 8, or_eq_add c hx hk, show x &&& 0xff = x % 256 from Nat.and_two_pow_sub_one_eq_mod x 8]
  exact ⟨ofNat_toNat hc, ofNat_toNat (Nat.mod_lt x (by decide))⟩

/-! ### Decimal digits -/

theorem decDigits_succ {fuel : Nat} (hf : 0 < fuel) (h : n < 10 ^ fuel) :
    decDigits (fuel + 1) n = decDigits fuel n := by
  induction fuel generalizing n with
  | zero => omega
  | succ fuel ih =>
    rw [decDigits]
    conv_rhs => rw [decDigits]
    split
    · rfl
    next hn =>
      have hlt : n / 10 < 10 ^ fuel := by
        rw [Nat.div_lt_iff_lt_mul (by decide)]
        exact h
      rcases Nat.eq_zero_or_pos fuel with rfl | hpos
      · omega
      · rw [ih hpos hlt]

theorem decDigits_append {v d : Nat} (hv : 0 < v) (hd : d < 10) (hmax : v * 10 + d ≤ uint64Max) :
    decDigits 20 (v * 10 + d) = decDigits 20 v ++ [UInt8.ofNat (48 + d)] := by
  have hlt : v < 10 ^ 19 := by
    simp only [uint64Max] at hmax
    omega
  rw [decDigits, if_neg (by omega), show (v * 10 + d) / 10 = v by omega,
    show (v * 10 + d) % 10 = d by omega, decDigits_succ (by decide) hlt]

theorem lpDigits_spec : ∀ (cs : List UInt8) (v w : Nat), 0 < v → lpDigits cs v = some w →
    decDigits 20 w = decDigits 20 v ++ cs ∧ 0 < w
  | [], v, w, hv, h => by
    simp only [lpDigits, Option.some.injEq] at h
    subst h
    exact ⟨by simp, hv⟩
  | c :: cs, v, w, hv, h => by
    rw [lpDigits] at h
    split at h
    next hc =>
      simp only [isDigit, decide_eq_true_eq] at hc
      split at h
      · cases h
      split at h
      · cases h
      next h1 h2 =>
        obtain ⟨ih, hw⟩ := lpDigits_spec cs _ w (by omega) h
        have hd : UInt8.ofNat (48 + (c.toNat - 48)) = c := by
          rw [show 48 + (c.toNat - 48) = c.toNat by omega]
          exact UInt8.ofNat_toNat
        refine ⟨?_, hw⟩
        rw [ih, decDigits_append hv (by omega) (by omega), hd, append_assoc, singleton_append]
    · cases h

theorem lpUnsigned_spec {v : Nat} (h : lpUnsigned s = some v) : decDigits 20 v = s ∧ 0 < v := by
  rcases s with - | ⟨d, ds⟩
  · cases h
  rw [lpUnsigned] at h
  split at h
  next hd =>
    obtain ⟨hs, hv⟩ := lpDigits_spec ds _ v (by omega) h
    refine ⟨?_, hv⟩
    rw [hs, decDigits, if_pos (by omega), show 48 + (d.toNat - 48) = d.toNat by omega,
      UInt8.ofNat_toNat, singleton_append]
  · cases h

theorem lpStringToInt64_spec (h : lpStringToInt64 s = some v) : lltoa v = s ∧ -2 ^ 63 ≤ v ∧ v < 2 ^ 63 := by
  unfold lpStringToInt64 at h
  split at h
  next hs =>
    cases h
    subst hs
    exact ⟨by decide, by decide, by decide⟩
  · split at h
    next ds _ =>
      rcases hu : lpUnsigned ds with - | u
      · simp [hu] at h
      simp only [hu] at h
      split at h
      · cases h
      cases h
      obtain ⟨hd, hpos⟩ := lpUnsigned_spec hu
      refine ⟨?_, by omega, by omega⟩
      rw [lltoa, if_pos (by omega), Int.natAbs_neg, Int.natAbs_natCast, hd]
    · rcases hu : lpUnsigned s with - | u
      · simp [hu] at h
      simp only [hu] at h
      split at h
      · cases h
      cases h
      obtain ⟨hd, hpos⟩ := lpUnsigned_spec hu
      refine ⟨?_, by omega, by omega⟩
      rw [lltoa, if_neg (by omega), Int.natAbs_natCast, hd]

theorem lpDigits_append (cs ds : List UInt8) (v : Nat) :
    lpDigits (cs ++ ds) v = (lpDigits cs v).bind (lpDigits ds) := by
  induction cs generalizing v with
  | nil => rfl
  | cons c cs ih =>
    rw [cons_append, lpDigits, lpDigits]
    split
    · split
      · rfl
      · split
        · rfl
        · exact ih _
    · rfl

theorem lpUnsigned_decDigits {v : Nat} (hv : 0 < v) (hmax : v ≤ uint64Max) : lpUnsigned (decDigits 20 v) = some v := by
  induction v using Nat.strongRecOn with
  | ind v ih =>
    by_cases hsmall : v < 10
    · have hd : (UInt8.ofNat (48 + v)).toNat = 48 + v := ofNat_toNat (by omega)
      rw [decDigits, if_pos hsmall, lpUnsigned, if_pos (by omega), lpDigits]
      congr 1
      omega
    · have hd : (UInt8.ofNat (48 + v % 10)).toNat = 48 + v % 10 := ofNat_toNat (by omega)
      have hsplit : decDigits 20 v = decDigits 20 (v / 10) ++ [UInt8.ofNat (48 + v % 10)] := by
        conv_lhs => rw [show v = v / 10 * 10 + v % 10 by omega]
        exact decDigits_append (by omega) (by omega) (by omega)
      have ih := ih (v / 10) (by omega) (by omega) (by omega)
      rw [hsplit]
      rcases hl : decDigits 20 (v / 10) with - | ⟨c, cs⟩
      · simp [hl, lpUnsigned] at ih
      rw [hl, lpUnsigned] at ih
      rw [cons_append, lpUnsigned]
      split at ih
      next hc =>
        rw [if_pos hc, lpDigits_append, ih, Option.bind_some, lpDigits,
          if_pos (by simp only [isDigit, hd, decide_eq_true_eq]; omega), if_neg (by omega), if_neg (by omega), lpDigits]
        congr 1
        omega
      · cases ih

theorem lpStringToInt64_decDigits (h : n < 2 ^ 63) : lpStringToInt64 (decDigits 20 n) = some (n : Int) := by
  rcases Nat.eq_zero_or_pos n with rfl | hpos
  · rfl
  have hu := lpUnsigned_decDigits hpos (by simp only [uint64Max]; omega)
  rcases hl : decDigits 20 n with - | ⟨c, cs⟩
  · simp [hl, lpUnsigned] at hu
  rw [hl] at hu
  have hc : 49 ≤ c.toNat ∧ c.toNat ≤ 57 := by
    rw [lpUnsigned] at hu
    split at hu
    · assumption
    · cases hu
  unfold lpStringToInt64
  split
  next h48 =>
    obtain ⟨rfl, rfl⟩ := List.cons.inj h48
    exact absurd hc.1 (by decide)
  · split
    next h45 =>
      obtain ⟨rfl, rfl⟩ := List.cons.inj h45
      exact absurd hc.1 (by decide)
    · rw [hu]
      exact if_neg (by omega)

theorem lpStringToInt64_lltoa (h1 : -2 ^ 63 ≤ v) (h2 : v < 2 ^ 63) : lpStringToInt64 (lltoa v) = some v := by
  rw [lltoa]
  split
  · have hu := lpUnsigned_decDigits (v := v.natAbs) (by omega) (by simp only [uint64Max]; omega)
    unfold lpStringToInt64
    rw [if_neg (by simp)]
    simp only [hu]
    rw [if_neg (by omega)]
    congr 1
    omega
  · rw [lpStringToInt64_decDigits (by omega)]
    congr 1
    omega

theorem isDigit_of_mem_decDigits {fuel : Nat} {b : UInt8} (h : b ∈ decDigits fuel n) : 48 ≤ b.toNat ∧ b.toNat ≤ 57 := by
  induction fuel generalizing n with
  | zero => simp [decDigits] at h
  | succ fuel ih =>
    rw [decDigits] at h
    split at h
    · rw [mem_singleton.1 h, ofNat_toNat (by omega)]
      omega
    rcases mem_append.1 h with h | h
    · exact ih h
    · rw [mem_singleton.1 h, ofNat_toNat (by omega)]
      omega

theorem decDigits_ne_nil (n : Nat) : decDigits 20 n ≠ [] := by
  rw [decDigits]
  split <;> simp

theorem decDigits_length_le (fuel n : Nat) : (decDigits fuel n).length ≤ fuel := by
  induction fuel generalizing n with
  | zero => simp [decDigits]
  | succ fuel ih =>
    rw [decDigits]
    split
    · simp
    · have := ih (n / 10)
      simp
      omega

/-! ### Elements -/

/-- `enc` is a complete encoding of the string `s`. -/
structure LpEncodes (enc s : List UInt8) : Prop where
  size : lpCurrentEncodedSize enc = some enc.length
  not_eof : enc.head? ≠ some lpEof
  get : lpGet enc = some s

theorem lpSigned_lpWrap {w : Nat} (h1 : -2 ^ w ≤ v) (h2 : v < 2 ^ w) :
    lpWrap (w + 1) v < 2 ^ (w + 1) ∧ lpSigned (lpWrap (w + 1) v) (2 ^ w) (2 ^ (w + 1) - 1) = lltoa v := by
  obtain ⟨P, hP⟩ : ∃ P : Nat, P = 2 ^ w := ⟨_, rfl⟩
  have hI : (2 : Int) ^ w = P := by rw [hP]; push_cast; rfl
  have hw : (2 : Int) ^ (w + 1) = 2 * P := by rw [pow_succ, hI]; omega
  rw [lpSigned, lpWrap, hw]
  refine ⟨by split <;> omega, ?_⟩
  congr 1
  split <;> split <;> omega

theorem head_ne_eof {b : UInt8} (h : lpEncoding b ≠ .eof) : (b :: bs).head? ≠ some lpEof := by
  intro he
  rw [head?_cons, Option.some.injEq] at he
  exact h (he ▸ lpEncoding_eof)

theorem lpEncodes_int {b : UInt8} {w : Nat} (he : lpEncoding b ≠ .eof) (hn : 256 ^ n = 2 ^ (w + 1))
    (hsize : ∀ rest, lpCurrentEncodedSize (b :: rest) = some (n + 1))
    (hget : ∀ rest, lpGet (b :: rest) = lpInt rest n (2 ^ w) (2 ^ (w + 1) - 1)) (h1 : -2 ^ w ≤ v) (h2 : v < 2 ^ w) :
    LpEncodes (b :: leBytes n (lpWrap (w + 1) v)) (lltoa v) := by
  obtain ⟨hlt, hs⟩ := lpSigned_lpWrap h1 h2
  refine ⟨by rw [hsize, length_cons, leBytes_length], head_ne_eof he, ?_⟩
  rw [hget, lpInt, if_pos (by rw [leBytes_length]), take_of_length_le (by rw [leBytes_length]),
    leVal_leBytes_of_lt (hn ▸ hlt), hs]

theorem lpEncodeInt_encodes (h1 : -2 ^ 63 ≤ v) (h2 : v < 2 ^ 63) : LpEncodes (lpEncodeInt v) (lltoa v) := by
  unfold lpEncodeInt
  split_ifs
  · have hb : (UInt8.ofNat v.toNat).toNat = v.toNat := ofNat_toNat (by omega)
    have he := lpEncoding_range (UInt8.ofNat v.toNat) .uint7 0 128 (by omega) (by decide)
    refine ⟨by simp [lpCurrentEncodedSize, he], head_ne_eof (by rw [he]; decide), ?_⟩
    simp only [lpGet, he, toNat_and_0x7f, hb]
    rw [lpSigned, if_neg (by simp only [uint64Max]; omega)]
    congr 2
    omega
  · obtain ⟨hlt, hs⟩ : lpWrap 13 v < 2 ^ 13 ∧ lpSigned (lpWrap 13 v) (2 ^ 12) 8191 = lltoa v :=
      lpSigned_lpWrap (by omega) (by omega)
    obtain ⟨hb, hb1⟩ := toNat_two_bytes (x := lpWrap 13 v) (c := 0xC0) (k := 5) (by omega) (by decide) (by omega)
    generalize UInt8.ofNat ((lpWrap 13 v >>> 8) ||| 0xC0) = b at hb
    have he := lpEncoding_range b .int13 192 224 (by omega) (by decide)
    refine ⟨by simp [lpCurrentEncodedSize, he], head_ne_eof (by rw [he]; decide), ?_⟩
    simp only [lpGet, he, toNat_and_0x1f, hb, hb1]
    rw [shiftLeft_or _ (by omega), show lpWrap 13 v % 256 + (lpWrap 13 v / 256 + 192) % 32 * 256 = lpWrap 13 v by omega, hs]
  iterate 3
    · exact lpEncodes_int (by decide) rfl (fun _ => rfl) (fun _ => rfl) (by omega) (by omega)
  · exact lpEncodes_int (by decide) rfl (fun _ => rfl) (fun _ => rfl) h1 h2

theorem lpEncodeString_encodes (h : s.length + 5 < 2 ^ 32) : LpEncodes (lpEncodeString s) s := by
  unfold lpEncodeString
  split_ifs with h64 h4096
  · have hb : (UInt8.ofNat (s.length ||| 0x80)).toNat = s.length + 128 := by
      rw [or_eq_add (k := 6) 0x80 (by omega) (by decide)]
      exact ofNat_toNat (by omega)
    generalize UInt8.ofNat (s.length ||| 0x80) = b at hb
    have he := lpEncoding_range b .str6 128 192 (by omega) (by decide)
    have hl : (s.length + 128) % 64 = s.length := by omega
    refine ⟨?_, head_ne_eof (by rw [he]; decide), ?_⟩
    · simp only [lpCurrentEncodedSize, he, toNat_and_0x3f, hb, hl, length_cons, add_comm]
    · simp only [lpGet, he, toNat_and_0x3f, hb, hl, lpStr, length_cons]
      rw [if_pos (by omega)]
      simp
  · obtain ⟨hb, hb1⟩ := toNat_two_bytes (x := s.length) (c := 0xE0) (k := 4) (by omega) (by decide) (by omega)
    generalize UInt8.ofNat ((s.length >>> 8) ||| 0xE0) = b at hb
    have he := lpEncoding_range b .str12 224 240 (by omega) (by decide)
    have hl : s.length % 256 + (s.length / 256 + 224) % 16 * 256 = s.length := by omega
    refine ⟨?_, head_ne_eof (by rw [he]; decide), ?_⟩
    · simp only [lpCurrentEncodedSize, he, toNat_and_0xf, hb, hb1, length_cons]
      rw [shiftLeft_or _ (by omega), hl, add_comm]
    · simp only [lpGet, he, toNat_and_0xf, hb, hb1, lpStr, length_cons]
      rw [shiftLeft_or _ (by omega), hl, if_pos (by omega)]
      simp
  · have he : lpEncoding 0xF0 = .str32 := by decide
    have hval := leVal_leBytes_of_lt (n := 4) (v := s.length) (by omega)
    obtain ⟨b1, b2, b3, b4, hbs⟩ : ∃ b1 b2 b3 b4, leBytes 4 s.length = [b1, b2, b3, b4] :=
      ⟨_, _, _, _, rfl⟩
    rw [hbs] at hval ⊢
    refine ⟨?_, head_ne_eof (by rw [he]; decide), ?_⟩
    · simp only [lpCurrentEncodedSize, he, cons_append, nil_append, hval, length_cons]
      congr 1
      omega
    · simp only [lpGet, he, cons_append, nil_append, hval, lpStr, length_cons]
      rw [if_pos (by omega)]
      simp

/-! ### Back lengths -/

theorem lpDecodeBacklenLoop_more {x shift val : Nat} (hs : shift + 7 ≤ 28) (hv : val < 2 ^ shift) :
    lpDecodeBacklenLoop (UInt8.ofNat ((x &&& 127) ||| 128) :: bs) shift val =
      lpDecodeBacklenLoop bs (shift + 7) (val + x % 128 * 2 ^ shift) := by
  have hx : x &&& 127 = x % 128 := Nat.and_two_pow_sub_one_eq_mod x 7
  have hb : (UInt8.ofNat ((x &&& 127) ||| 128)).toNat = x % 128 + 128 := by
    rw [hx, or_eq_add (k := 7) 128 (by omega) (by decide)]
    exact ofNat_toNat (by omega)
  generalize UInt8.ofNat ((x &&& 127) ||| 128) = b at hb
  have hcont : ¬ b &&& 128 = 0 := by
    have hall : ∀ y : BitVec 8, y &&& 128#8 = 0#8 → y.toNat < 128 := by decide
    intro h0
    have := hall b.toBitVec (by rw [← UInt8.toBitVec_inj] at h0; exact h0)
    have : b.toNat < 128 := this
    omega
  rw [lpDecodeBacklenLoop, if_neg hcont, if_neg (by omega), toNat_and_0x7f, hb,
    show (x % 128 + 128) % 128 = x % 128 by omega, or_shiftLeft_eq_add hv]

theorem lpDecodeBacklenLoop_last {x shift val : Nat} (hx : x < 128) (hv : val < 2 ^ shift) :
    lpDecodeBacklenLoop (UInt8.ofNat x :: bs) shift val = some (val + x * 2 ^ shift) := by
  have hb : (UInt8.ofNat x).toNat = x := ofNat_toNat (by omega)
  generalize UInt8.ofNat x = b at hb
  have hend : b &&& 128 = 0 := by
    have hall : ∀ y : BitVec 8, y.toNat < 128 → y &&& 128#8 = 0#8 := by decide
    rw [← UInt8.toBitVec_inj]
    exact hall b.toBitVec (show b.toNat < 128 by omega)
  rw [lpDecodeBacklenLoop, if_pos hend, toNat_and_0x7f, hb, Nat.mod_eq_of_lt hx, or_shiftLeft_eq_add hv]

/-- A back length is read back from its last byte, whatever comes before its first one. -/
theorem lpDecodeBacklen_encode {l : Nat} (h : l < 2 ^ 35) (before : List UInt8) :
    lpDecodeBacklen (before ++ lpEncodeBacklen l).reverse = some l := by
  have hsh : ∀ k, l >>> k = l / 2 ^ k := Nat.shiftRight_eq_div_pow l
  rw [reverse_append, lpDecodeBacklen]
  unfold lpEncodeBacklen
  split_ifs <;> simp only [reverse_cons, reverse_nil, nil_append, cons_append, hsh]
  · rw [lpDecodeBacklenLoop_last (by omega) (by decide)]
    congr 1
    omega
  · rw [lpDecodeBacklenLoop_more (by decide) (by decide), lpDecodeBacklenLoop_last (by omega) (by omega)]
    congr 1
    omega
  · rw [lpDecodeBacklenLoop_more (by decide) (by decide), lpDecodeBacklenLoop_more (by decide) (by omega),
      lpDecodeBacklenLoop_last (by omega) (by omega)]
    congr 1
    omega
  · rw [lpDecodeBacklenLoop_more (by decide) (by decide), lpDecodeBacklenLoop_more (by decide) (by omega),
      lpDecodeBacklenLoop_more (by decide) (by omega), lpDecodeBacklenLoop_last (by omega) (by omega)]
    congr 1
    omega
  · rw [lpDecodeBacklenLoop_more (by decide) (by decide), lpDecodeBacklenLoop_more (by decide) (by omega),
      lpDecodeBacklenLoop_more (by decide) (by omega), lpDecodeBacklenLoop_more (by decide) (by omega),
      lpDecodeBacklenLoop_last (by omega) (by omega)]
    congr 1
    omega

theorem lpEncodeBacklen_length (l : Nat) : 1 ≤ (lpEncodeBacklen l).length ∧ (lpEncodeBacklen l).length ≤ 5 := by
  unfold lpEncodeBacklen
  split_ifs <;> simp

end Redis
