import Mathlib.Data.List.TakeWhile
import Redis.Stream
import Redis.Strtol

/-! # Stream IDs as clients write them

`streamGenericParseIDOrReply` copies its argument to a buffer and reads C strings there. Numbers go through
`string2ll`, which takes the printed form of a number only, and then through `strtoull`, which takes more. -/

namespace Redis
open List

variable {c : UInt8} {s : List UInt8} {missingSeq : UInt64} {strict : Bool} {id : StreamID}

/-- What `strtoull(s,&endptr,10)` leaves: the value, the offset of `endptr`, and whether `errno` is `ERANGE`. -/
structure Strtoull where
  value : UInt64
  endptr : Nat
  erange : Bool

/-- The bytes behind the blanks and the sign that `strtoull` passes over. -/
def unsignedPart (s : List UInt8) : List UInt8 :=
  let t := s.dropWhile Input.isspace
  if t.head? = some 45 ∨ t.head? = some 43 then t.drop 1 else t

/-- In base 10. A number behind a minus sign is negated as an unsigned number. -/
def strtoull (s : List UInt8) : Strtoull :=
  let u := unsignedPart s
  let ds := u.takeWhile isDigit
  let endptr := s.length - u.length + ds.length
  if ds = [] then ⟨0, 0, false⟩
  else if digitsVal ds > uint64Max then ⟨UInt64.ofNat uint64Max, endptr, true⟩
  else
    let v := UInt64.ofNat (digitsVal ds)
    ⟨if (s.dropWhile Input.isspace).head? = some 45 then -v else v, endptr, false⟩

def string2ull (s : List UInt8) : Option UInt64 :=
  match string2ll s with
  | some ll => if ll < 0 then none else some (UInt64.ofNat ll.toNat)
  | none =>
    let r := strtoull s
    if r.erange ∨ ¬(s ≠ [] ∧ r.endptr = s.length) then none else some r.value

/-- The buffer has room for 127 bytes and the terminator. -/
def streamGenericParseIDOrReply (o : List UInt8) (missingSeq : UInt64) (strict : Bool) : Option StreamID :=
  if o.length > 127 then none
  else
    let buf := Input.cstr o
    if strict ∧ (buf = [45] ∨ buf = [43]) then none
    else if buf = [45] then some .zero
    else if buf = [43] then some .max
    else
      match Input.strchr 45 buf with
      | none => (string2ull buf).map fun ms => ⟨ms, missingSeq⟩
      | some dot =>
        (string2ull (buf.take dot)).bind fun ms => (string2ull (buf.drop (dot + 1))).map fun seq => ⟨ms, seq⟩

def streamParseStrictIDOrReply (o : List UInt8) (missingSeq : UInt64) : Option StreamID :=
  streamGenericParseIDOrReply o missingSeq true

/-! ### The documented form -/

def IsDecimal (s : List UInt8) (v : UInt64) : Prop :=
  s ≠ [] ∧ (∀ c ∈ s, isDigit c = true) ∧ digitsVal s = v.toNat

/-- The argument is `<ms>`, `<ms>-<seq>` or, if allowed, one of `-` and `+`, and stands for the ID. -/
inductive IsStreamID (missingSeq : UInt64) (strict : Bool) : List UInt8 → StreamID → Prop
  | least : strict = false → IsStreamID missingSeq strict [45] .zero
  | greatest : strict = false → IsStreamID missingSeq strict [43] .max
  | ms {s : List UInt8} {v : UInt64} : IsDecimal s v → s.length ≤ 127 → IsStreamID missingSeq strict s ⟨v, missingSeq⟩
  | seq {s t : List UInt8} {v w : UInt64} : IsDecimal s v → IsDecimal t w → s.length + 1 + t.length ≤ 127 →
      IsStreamID missingSeq strict (s ++ 45 :: t) ⟨v, w⟩

/-- The bytes do not start with one that `strtoull` skips or takes as a sign. -/
def Unsigned (s : List UInt8) : Prop :=
  ∀ c ∈ s.head?, Input.isspace c = false ∧ c ≠ 43 ∧ c ≠ 45

/-- A lone `+`, or no NUL and no blank or sign before either number. -/
def PlainArg (o : List UInt8) : Prop :=
  o = [43] ∨ (∀ c ∈ o, c ≠ 0) ∧ Unsigned (o.takeWhile (· != 45)) ∧ Unsigned ((o.dropWhile (· != 45)).tail)

/-- Digits behind blanks and a sign, but for the printed form of a negative number, which `string2ll` takes. -/
def LooseDecimal (s : List UInt8) : Prop :=
  (∃ v, IsDecimal (unsignedPart s) v) ∧ ∀ n : Int, -2 ^ 63 ≤ n → n < 0 → s ≠ lltoa n

/-- The documented form, with blanks and signs before the numbers. -/
def LooseID (strict : Bool) (s : List UInt8) : Prop :=
  if s = [45] ∨ s = [43] then strict = false
  else if 45 ∈ s then LooseDecimal (s.takeWhile (· != 45)) ∧ LooseDecimal (s.dropWhile (· != 45)).tail
  else LooseDecimal s

/-! ### Numbers -/

theorem isDigit_iff : isDigit c = true ↔ 48 ≤ c.toNat ∧ c.toNat ≤ 57 := by
  rw [isDigit, decide_eq_true_eq]

theorem digitsVal_lltoa {v : Int} (h0 : 0 ≤ v) (hlt : v < 2 ^ 63) : digitsVal (lltoa v) = v.toNat := by
  rw [lltoa, if_neg (by omega), digitsVal_decDigits (by decide) (by omega)]
  omega

theorem IsDecimal.unsigned {v : UInt64} (h : IsDecimal s v) : Unsigned s := by
  intro c hc
  have hdigit := isDigit_iff.1 (h.2.1 c (mem_of_mem_head? hc))
  refine ⟨decide_eq_false ?_, ?_, ?_⟩
  · rintro (rfl | hblank)
    · simp at hdigit
    · omega
  all_goals
    rintro rfl
    simp at hdigit

theorem Unsigned.dropWhile_eq (hs : Unsigned s) : s.dropWhile Input.isspace = s := by
  cases s with
  | nil => rfl
  | cons c s => rw [dropWhile_cons, (hs c rfl).1]; rfl

theorem Unsigned.part_eq (hs : Unsigned s) : unsignedPart s = s := by
  rw [unsignedPart, hs.dropWhile_eq]
  exact if_neg fun h => h.elim (fun h => (hs 45 h).2.2 rfl) fun h => (hs 43 h).2.1 rfl

theorem Unsigned.ne_lltoa {n : Int} (hs : Unsigned s) (hn : n < 0) : s ≠ lltoa n := by
  rintro rfl
  rw [lltoa, if_pos hn] at hs
  exact (hs 45 rfl).2.2 rfl

theorem length_unsignedPart_le (s : List UInt8) : (unsignedPart s).length ≤ s.length := by
  have hle := (dropWhile_suffix Input.isspace (l := s)).length_le
  rw [unsignedPart]
  split
  · rw [length_drop]
    omega
  · exact hle

theorem strtoull_decimal {v : UInt64} (hv : IsDecimal (unsignedPart s) v) :
    strtoull s = ⟨if (s.dropWhile Input.isspace).head? = some 45 then -v else v, s.length, false⟩ := by
  obtain ⟨hne, hdig, hval⟩ := hv
  have hmax := v.toNat_lt
  have hbig : ¬digitsVal (unsignedPart s) > uint64Max := by
    rw [hval, uint64Max]
    omega
  rw [strtoull, takeWhile_eq_self_iff.2 hdig]
  dsimp only
  rw [if_neg hne, if_neg hbig, hval, UInt64.ofNat_toNat, Nat.sub_add_cancel (length_unsignedPart_le s)]

theorem strtoull_other (h : ∀ v, ¬IsDecimal (unsignedPart s) v) :
    (strtoull s).erange ∨ ¬(s ≠ [] ∧ (strtoull s).endptr = s.length) := by
  have hle := length_unsignedPart_le s
  unfold strtoull
  dsimp only
  by_cases hnil : (unsignedPart s).takeWhile isDigit = []
  · rw [if_pos hnil]
    exact .inr fun h => h.1 (length_eq_zero_iff.1 h.2.symm)
  rw [if_neg hnil]
  by_cases hbig : digitsVal ((unsignedPart s).takeWhile isDigit) > uint64Max
  · rw [if_pos hbig]
    exact .inl rfl
  · rw [if_neg hbig]
    refine .inr fun hend => h (UInt64.ofNat (digitsVal (unsignedPart s))) ?_
    have hlen := hend.2
    dsimp only at hlen
    have hself : (unsignedPart s).takeWhile isDigit = unsignedPart s := by
      refine IsPrefix.eq_of_length ?_ (by omega)
      exact List.takeWhile_prefix isDigit
    rw [hself] at hnil hbig
    exact ⟨hnil, takeWhile_eq_self_iff.1 hself, (UInt64.toNat_ofNat_of_lt' (Nat.lt_of_not_le hbig)).symm⟩

theorem isDecimal_of_string2ll {ll : Int} (h : string2ll s = some ll) (h0 : 0 ≤ ll) : IsDecimal s (UInt64.ofNat ll.toNat) := by
  rw [string2ll_eq] at h
  obtain ⟨hprint, -, hhi⟩ := lpStringToInt64_spec h
  refine ⟨?_, fun c hc => ?_, ?_⟩
  · rintro rfl
    cases h
  · rw [← hprint, lltoa, if_neg (by omega)] at hc
    exact isDigit_iff.2 (isDigit_of_mem_decDigits hc)
  · rw [← hprint, digitsVal_lltoa h0 hhi, UInt64.toNat_ofNat_of_lt' (by rw [UInt64.size]; omega)]

theorem string2ull_isSome : (string2ull s).isSome ↔ LooseDecimal s := by
  unfold string2ull
  cases hll : string2ll s with
  | some ll =>
    dsimp only
    by_cases h0 : ll < 0
    · rw [if_pos h0]
      rw [string2ll_eq] at hll
      obtain ⟨hprint, hlo, -⟩ := lpStringToInt64_spec hll
      exact iff_of_false (by simp) fun h => h.2 ll hlo h0 hprint.symm
    · have hdec := isDecimal_of_string2ll hll (Int.not_lt.1 h0)
      rw [if_neg h0]
      exact iff_of_true rfl ⟨⟨_, hdec.unsigned.part_eq.symm ▸ hdec⟩, fun n _ hn => hdec.unsigned.ne_lltoa hn⟩
  | none =>
    dsimp only
    by_cases hdec : ∃ v, IsDecimal (unsignedPart s) v
    · obtain ⟨v, hv⟩ := hdec
      have hne : s ≠ [] := by
        rintro rfl
        exact hv.1 rfl
      rw [strtoull_decimal hv, if_neg (by simp [hne])]
      refine iff_of_true rfl ⟨⟨v, hv⟩, fun n hlo hn hs => ?_⟩
      rw [hs, string2ll_eq, lpStringToInt64_lltoa hlo (by omega)] at hll
      cases hll
    · rw [if_pos (strtoull_other (not_exists.1 hdec))]
      exact iff_of_false (by simp) fun h => hdec h.1

theorem string2ull_decimal {v : UInt64} (hv : IsDecimal s v) : string2ull s = some v := by
  have hs := hv.unsigned
  unfold string2ull
  cases hll : string2ll s with
  | some ll =>
    have h0 : ¬ll < 0 := by
      intro hneg
      rw [string2ll_eq] at hll
      exact hs.ne_lltoa hneg (lpStringToInt64_spec hll).1.symm
    have hval := (isDecimal_of_string2ll hll (Int.not_lt.1 h0)).2.2
    rw [hv.2.2] at hval
    dsimp only
    rw [if_neg h0, UInt64.toNat_inj.1 hval]
  | none =>
    have h45 : s.head? ≠ some 45 := fun h => (hs 45 h).2.2 rfl
    rw [strtoull_decimal (hs.part_eq.symm ▸ hv), hs.dropWhile_eq]
    simp [hv.1, h45]

theorem string2ull_iff (hs : Unsigned s) (v : UInt64) : string2ull s = some v ↔ IsDecimal s v := by
  refine ⟨fun h => ?_, string2ull_decimal⟩
  obtain ⟨w, hw⟩ := (string2ull_isSome.1 (Option.isSome_of_mem h)).1
  rw [hs.part_eq] at hw
  rw [string2ull_decimal hw] at h
  cases h
  exact hw

/-! ### IDs -/

theorem IsDecimal.ne_of_mem {v : UInt64} (h : IsDecimal s v) (hc : c ∈ s) : c ≠ 45 ∧ c ≠ 0 := by
  have := isDigit_iff.1 (h.2.1 c hc)
  refine ⟨?_, ?_⟩ <;> rintro rfl <;> simp at this

theorem cstr_eq_self (h : ∀ c ∈ s, c ≠ 0) : Input.cstr s = s :=
  takeWhile_eq_self_iff.2 fun c hc => by simpa using h c hc

theorem isStreamID_iff_ms (h45 : 45 ∉ s) (h43 : s ≠ [43]) :
    IsStreamID missingSeq strict s id ↔ s.length ≤ 127 ∧ ∃ v, IsDecimal s v ∧ ⟨v, missingSeq⟩ = id := by
  constructor
  · intro h
    cases h with
    | least => exact absurd (mem_singleton_self _) h45
    | greatest => exact absurd rfl h43
    | ms hdec hlen => exact ⟨hlen, _, hdec, rfl⟩
    | seq => exact absurd (mem_append_right _ (.head _)) h45
  · rintro ⟨hlen, v, hdec, rfl⟩
    exact .ms hdec hlen

theorem isStreamID_iff_seq {t : List UInt8} (hs : 45 ∉ s) (hne : s ++ 45 :: t ≠ [45]) :
    IsStreamID missingSeq strict (s ++ 45 :: t) id ↔
      (s ++ 45 :: t).length ≤ 127 ∧ ∃ v, IsDecimal s v ∧ ∃ w, IsDecimal t w ∧ ⟨v, w⟩ = id := by
  have hmem : (45 : UInt8) ∈ s ++ 45 :: t := mem_append_right _ (.head _)
  constructor
  · intro h
    generalize ho : s ++ 45 :: t = o at h hne hmem
    cases h with
    | least => exact absurd rfl hne
    | greatest => simp at hmem
    | ms hdec => exact absurd rfl (hdec.ne_of_mem hmem).1
    | @seq s' t' v w hs' ht' hlen =>
      have hsplit := append_eq_append_iff.1 ho
      rcases hsplit with ⟨u, rfl, hu⟩ | ⟨u, rfl, hu⟩
      · cases u with
        | nil =>
          cases hu
          rw [append_nil] at hs'
          refine ⟨?_, v, hs', w, ht', rfl⟩
          simpa [add_assoc, add_comm 1] using hlen
        | cons c u =>
          cases hu
          exact absurd rfl (hs'.ne_of_mem (mem_append_right _ (.head _))).1
      · cases u with
        | nil =>
          cases hu
          refine ⟨?_, v, ?_, w, ht', rfl⟩
          · simpa [add_assoc, add_comm 1] using hlen
          · simpa using hs'
        | cons c u =>
          cases hu
          exact absurd (mem_append_right _ (.head _)) hs
  · rintro ⟨hlen, v, hv, w, hw, rfl⟩
    refine .seq hv hw ?_
    rw [length_append, length_cons] at hlen
    omega

theorem exists_first_minus {o : List UInt8} (h : 45 ∈ o) : ∃ s t, o = s ++ 45 :: t ∧ 45 ∉ s ∧
    o.takeWhile (· != 45) = s ∧ (o.dropWhile (· != 45)).tail = t := by
  have hs : (45 : UInt8) ∉ o.takeWhile (· != 45) := fun hm => by simpa using mem_takeWhile_imp hm
  have happ := takeWhile_append_dropWhile (p := (· != (45 : UInt8))) (l := o)
  rcases hd : o.dropWhile (· != 45) with - | ⟨c, t⟩
  · rw [hd, append_nil] at happ
    exact absurd h (happ ▸ hs)
  have hc : c = 45 := by simpa [hd] using head?_dropWhile_not (· != (45 : UInt8)) o
  subst hc
  exact ⟨_, t, by rw [← hd, happ], hs, rfl, rfl⟩

theorem isStreamID_sign (bound : StreamID) (hc : isDigit c = false) (hleast : c = 45 → bound = .zero)
    (hgreatest : c = 43 → bound = .max) :
    IsStreamID missingSeq strict [c] id ↔ strict = false ∧ (c = 45 ∨ c = 43) ∧ bound = id := by
  constructor
  · intro h
    generalize ho : [c] = o at h
    cases h with
    | least hs =>
      cases ho
      exact ⟨hs, .inl rfl, hleast rfl⟩
    | greatest hs =>
      cases ho
      exact ⟨hs, .inr rfl, hgreatest rfl⟩
    | ms hdec => simp [hdec.2.1 c (ho ▸ mem_singleton_self c)] at hc
    | seq hs ht =>
      have := congrArg List.length ho
      have := length_pos_of_ne_nil ht.1
      simp at *
      omega
  · rintro ⟨rfl, rfl | rfl, rfl⟩
    · exact hleast rfl ▸ .least rfl
    · exact hgreatest rfl ▸ .greatest rfl

theorem IsStreamID.length_le {o : List UInt8} (h : IsStreamID missingSeq strict o id) : o.length ≤ 127 := by
  cases h with
  | least | greatest => decide
  | ms hs hlen => exact hlen
  | seq hs ht hlen =>
    rw [length_append, length_cons]
    omega

theorem IsStreamID.plain {o : List UInt8} (h : IsStreamID missingSeq strict o id) : PlainArg o := by
  cases h with
  | least => exact .inr ⟨by simp, by simp [Unsigned], by simp [Unsigned]⟩
  | greatest => exact .inl rfl
  | ms hs =>
    have hall : ∀ c ∈ o, (c != 45) = true := fun c hc => by simpa using (hs.ne_of_mem hc).1
    refine .inr ⟨fun c hc => (hs.ne_of_mem hc).2, ?_, ?_⟩
    · rw [takeWhile_eq_self_iff.2 hall]
      exact hs.unsigned
    · rw [dropWhile_eq_nil_iff.2 hall]
      simp [Unsigned]
  | @seq s t v w hs ht hlen =>
    have hall : ∀ c ∈ s, (c != 45) = true := fun c hc => by simpa using (hs.ne_of_mem hc).1
    refine .inr ⟨fun c hc => ?_, ?_, ?_⟩
    · rcases mem_append.1 hc with hc | hc
      · exact (hs.ne_of_mem hc).2
      · rcases mem_cons.1 hc with rfl | hc
        · decide
        · exact (ht.ne_of_mem hc).2
    · rw [takeWhile_append_of_pos hall]
      simpa using hs.unsigned
    · rw [dropWhile_append_of_pos hall]
      simpa using ht.unsigned

theorem parse_eq {o : List UInt8} (hlen : o.length ≤ 127) (hsign : ¬(Input.cstr o = [45] ∨ Input.cstr o = [43])) :
    streamGenericParseIDOrReply o missingSeq strict =
      if 45 ∈ Input.cstr o then
        (string2ull ((Input.cstr o).takeWhile (· != 45))).bind fun ms =>
          (string2ull ((Input.cstr o).dropWhile (· != 45)).tail).map fun seq => ⟨ms, seq⟩
      else (string2ull (Input.cstr o)).map fun ms => ⟨ms, missingSeq⟩ := by
  have h0 : (0 : UInt8) ∉ Input.cstr o := fun h => by simpa using mem_takeWhile_imp h
  rw [streamGenericParseIDOrReply, if_neg (by omega)]
  generalize Input.cstr o = b at h0 hsign
  dsimp only
  rw [if_neg (fun h => hsign h.2), if_neg (fun h => hsign (.inl h)), if_neg (fun h => hsign (.inr h))]
  by_cases hm : 45 ∈ b
  · rw [if_pos hm]
    obtain ⟨s, t, rfl, hs, hs', ht'⟩ := exists_first_minus hm
    rw [Input.strchr_append _ hs fun h => h0 (mem_append_left _ h), hs', ht']
    simp
  · rw [if_neg hm, Input.strchr_eq_none hm]

theorem parse_isSome {o : List UInt8} (hlen : o.length ≤ 127) :
    (streamGenericParseIDOrReply o missingSeq strict).isSome ↔ LooseID strict (Input.cstr o) := by
  unfold LooseID
  by_cases hsign : Input.cstr o = [45] ∨ Input.cstr o = [43]
  · rw [if_pos hsign, streamGenericParseIDOrReply, if_neg (by omega)]
    rcases hsign with h | h <;> cases strict <;> simp [h]
  · rw [if_neg hsign, parse_eq hlen hsign]
    split
    · rw [← string2ull_isSome, ← string2ull_isSome]
      simp [Option.isSome_bind, Option.any_eq_true_iff_get]
    · rw [Option.isSome_map, string2ull_isSome]

/-- On arguments without NUL and without blanks and signs before the numbers, the parser takes the documented IDs. -/
theorem parse_plain {o : List UInt8} (ho : PlainArg o) :
    streamGenericParseIDOrReply o missingSeq strict = some id ↔ IsStreamID missingSeq strict o id := by
  by_cases h43 : o = [43]
  · subst h43
    rw [isStreamID_sign .max rfl (by simp) (by simp)]
    cases strict <;> simp [streamGenericParseIDOrReply, Input.cstr]
  by_cases h45 : o = [45]
  · subst h45
    rw [isStreamID_sign .zero rfl (by simp) (by simp)]
    cases strict <;> simp [streamGenericParseIDOrReply, Input.cstr]
  obtain ⟨hnul, hms, hseq⟩ := ho.resolve_left h43
  by_cases hlen : o.length ≤ 127
  · rw [parse_eq hlen (by simp [cstr_eq_self hnul, h43, h45]), cstr_eq_self hnul]
    split
    next hm =>
      obtain ⟨s, t, rfl, hs, hs', ht'⟩ := exists_first_minus hm
      rw [isStreamID_iff_seq hs h45, hs', ht']
      rw [hs'] at hms
      rw [ht'] at hseq
      simp only [Option.bind_eq_some_iff, Option.map_eq_some_iff, string2ull_iff hms, string2ull_iff hseq]
      exact (and_iff_right hlen).symm
    next hm =>
      have hs : o.takeWhile (· != 45) = o := by
        refine takeWhile_eq_self_iff.2 fun c hc => ?_
        simpa using fun he : c = 45 => hm (he ▸ hc)
      rw [hs] at hms
      rw [isStreamID_iff_ms hm h43]
      simp only [Option.map_eq_some_iff, string2ull_iff hms]
      exact (and_iff_right hlen).symm
  · rw [streamGenericParseIDOrReply, if_pos (by omega)]
    exact iff_of_false (by simp) fun h => hlen h.length_le

/-- The parser takes the documented IDs and nothing else, but for arguments that have the documented form only without
what stands behind a NUL or without blanks and signs. -/
theorem streamID_parsed_iff (o : List UInt8) (missingSeq : UInt64) (strict : Bool) :
    (∀ id, streamGenericParseIDOrReply o missingSeq strict = some id ↔ IsStreamID missingSeq strict o id) ↔
      (o.length ≤ 127 → LooseID strict (Input.cstr o) → PlainArg o) := by
  constructor
  · intro h hlen hloose
    have hsome : (streamGenericParseIDOrReply o missingSeq strict).isSome := (parse_isSome hlen).2 hloose
    obtain ⟨id, hid⟩ := Option.isSome_iff_exists.1 hsome
    exact ((h id).1 hid).plain
  · intro h id
    by_cases ho : PlainArg o
    · exact parse_plain ho
    refine iff_of_false (fun hid => ?_) fun hid => ho hid.plain
    have hlen : o.length ≤ 127 := by
      by_contra hlen
      rw [streamGenericParseIDOrReply, if_pos (by omega)] at hid
      cases hid
    exact ho (h hlen ((parse_isSome hlen).1 (Option.isSome_of_mem hid)))

/-- Blanks, signs and what follows a NUL get through: ` 5`, `+5`, `5--02` (as 5-18446744073709551614), `5\x00x`. -/
theorem streamID_parsed_too_much :
    (streamGenericParseIDOrReply [32, 53] 0 true = some ⟨5, 0⟩ ∧ ¬IsStreamID 0 true [32, 53] ⟨5, 0⟩) ∧
    (streamGenericParseIDOrReply [43, 53] 0 true = some ⟨5, 0⟩ ∧ ¬IsStreamID 0 true [43, 53] ⟨5, 0⟩) ∧
    (streamGenericParseIDOrReply [53, 45, 45, 48, 50] 0 true = some ⟨5, -2⟩ ∧
      ¬IsStreamID 0 true [53, 45, 45, 48, 50] ⟨5, -2⟩) ∧
    (streamGenericParseIDOrReply [53, 0, 120] 0 true = some ⟨5, 0⟩ ∧ ¬IsStreamID 0 true [53, 0, 120] ⟨5, 0⟩) := by
  refine ⟨⟨by decide, fun h => ?_⟩, ⟨by decide, fun h => ?_⟩, ⟨by decide, fun h => ?_⟩, by decide, fun h => ?_⟩
  all_goals exact absurd h.plain (by simp [PlainArg, Unsigned, Input.isspace])

end Redis
