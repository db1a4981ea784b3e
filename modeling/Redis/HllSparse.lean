import Mathlib.Data.List.GetD
import Redis.Hll

/-! # Sparse and dense registers agree

The bytes of a sparse HLL are read as a list of opcodes `HllOp`, whose fields are in the range that the
bits have. Every case of `hllSparseSet` replaces an opcode by opcodes for the same registers
(`hllSparseReplace_spec`) and then merges neighbours (`hllSparseMerge_spec`), so the registers are those
of the update (`hllSparseSet_spec`); `hll_sparse_refines_dense` is the result for every run. -/

namespace Redis
open List Function Option

variable {o : HllObject} {vs : List Nat}

/-- The registers that a sequence of opcodes stands for. -/
def hllSparseValues : List UInt8 → List Nat
  | [] => []
  | b :: rest =>
    if hllSparseIsZero b then List.replicate (hllSparseZeroLen b) 0 ++ hllSparseValues rest
    else if hllSparseIsXzero b then
      match rest with
      | [] => List.replicate (hllSparseXzeroLen b 0) 0
      | b1 :: rest => List.replicate (hllSparseXzeroLen b b1) 0 ++ hllSparseValues rest
    else List.replicate (hllSparseValLen b) (hllSparseValValue b) ++ hllSparseValues rest

/-- The registers of an object; a sparse one has opcodes for exactly `HLL_REGISTERS` of them. -/
def HllObject.decode (o : HllObject) : Option (List Nat) :=
  match o.encoding with
  | .sparse =>
    let vs := hllSparseValues o.registers.dropLast
    if vs.length = hllRegisters then some vs else none
  | .dense => (List.range hllRegisters).mapM (hllDenseGetRegister o.registers)

/-! ### Opcodes -/

/-- `ZERO`, `XZERO` and `VAL`, with the lengths and the value less one. -/
inductive HllOp
  | zero (n : Fin 64)
  | xzero (n : Fin 16384)
  | val (v : Fin 32) (n : Fin 4)

open HllOp

namespace HllOp

def bytes : HllOp → List UInt8
  | zero n => hllSparseZeroSet (n + 1)
  | xzero n => hllSparseXzeroSet (n + 1)
  | val v n => hllSparseValSet (v + 1) (n + 1)

def value : HllOp → Nat
  | zero _ => 0
  | xzero _ => 0
  | val v _ => v + 1

def len : HllOp → Nat
  | zero n => n + 1
  | xzero n => n + 1
  | val _ n => n + 1

def values (op : HllOp) : List Nat := List.replicate op.len op.value

theorem len_pos (op : HllOp) : 0 < op.len := by cases op <;> exact Nat.succ_pos _

theorem bytes_zero (n : Fin 64) : ∃ b, (zero n).bytes = [b] ∧ hllSparseIsZero b = true ∧
    hllSparseIsXzero b = false ∧ hllSparseIsVal b = false ∧ hllSparseZeroLen b = n + 1 := by
  refine ⟨_, rfl, ?_⟩
  revert n
  decide

theorem bytes_val (v : Fin 32) (n : Fin 4) : ∃ b, (val v n).bytes = [b] ∧ hllSparseIsZero b = false ∧
    hllSparseIsXzero b = false ∧ hllSparseIsVal b = true ∧ hllSparseValValue b = v + 1 ∧ hllSparseValLen b = n + 1 := by
  refine ⟨_, rfl, ?_⟩
  revert v n
  decide

theorem xzero_high : ∀ h : Fin 64, hllSparseIsZero (UInt8.ofNat (h ||| 0x40)) = false ∧
    hllSparseIsXzero (UInt8.ofNat (h ||| 0x40)) = true ∧ hllSparseIsVal (UInt8.ofNat (h ||| 0x40)) = false ∧
    (UInt8.ofNat (h ||| 0x40) &&& 0x3f).toNat = h := by
  decide

theorem bytes_xzero (n : Fin 16384) : ∃ b b1, (xzero n).bytes = [b, b1] ∧ hllSparseIsZero b = false ∧
    hllSparseIsXzero b = true ∧ hllSparseIsVal b = false ∧ hllSparseXzeroLen b b1 = n + 1 := by
  obtain ⟨n, hn⟩ := n
  have hhigh : n >>> 8 < 64 := by rw [Nat.shiftRight_eq_div_pow]; omega
  obtain ⟨hz, hx, hv, hl⟩ := xzero_high ⟨n >>> 8, hhigh⟩
  refine ⟨_, _, rfl, hz, hx, hv, ?_⟩
  have hlow : n &&& 0xff = n % 256 := Nat.and_two_pow_sub_one_eq_mod n 8
  have hbyte : (UInt8.ofNat (n % 256)).toNat = n % 256 := by simp
  show ((UInt8.ofNat (n >>> 8 ||| 0x40) &&& 0x3f).toNat <<< 8 ||| (UInt8.ofNat (n &&& 0xff)).toNat) + 1 = n + 1
  rw [hl, hlow, hbyte, Nat.or_comm, or_shiftLeft_eq_add (x := n % 256) (Nat.mod_lt _ (by omega))]
  dsimp only
  omega

theorem bytes_pos (op : HllOp) : 0 < op.bytes.length := by cases op <;> exact Nat.succ_pos _

end HllOp

def hllBytes (ops : List HllOp) : List UInt8 := ops.flatMap HllOp.bytes

def hllValues (ops : List HllOp) : List Nat := ops.flatMap HllOp.values

section
variable {A B : List HllOp} {op : HllOp}

@[simp] theorem hllBytes_append : hllBytes (A ++ B) = hllBytes A ++ hllBytes B := flatMap_append
@[simp] theorem hllBytes_cons : hllBytes (op :: A) = op.bytes ++ hllBytes A := flatMap_cons
@[simp] theorem hllBytes_nil : hllBytes [] = [] := rfl
@[simp] theorem hllValues_append : hllValues (A ++ B) = hllValues A ++ hllValues B := flatMap_append
@[simp] theorem hllValues_cons : hllValues (op :: A) = op.values ++ hllValues A := flatMap_cons
@[simp] theorem hllValues_nil : hllValues [] = [] := rfl
@[simp] theorem HllOp.values_length : op.values.length = op.len := length_replicate

end

theorem hllSparseValues_cons (op : HllOp) (rest : List UInt8) :
    hllSparseValues (op.bytes ++ rest) = op.values ++ hllSparseValues rest := by
  cases op with
  | zero n =>
    obtain ⟨b, hb, hz, -, -, hl⟩ := bytes_zero n
    rw [hb, singleton_append, hllSparseValues.eq_def]
    simp only [hz, if_true, hl]
    rfl
  | xzero n =>
    obtain ⟨b, b1, hb, hz, hx, -, hl⟩ := bytes_xzero n
    rw [hb, cons_append, singleton_append, hllSparseValues.eq_def]
    simp only [hz, hx, Bool.false_eq_true, if_false, if_true, hl]
    rfl
  | val v n =>
    obtain ⟨b, hb, hz, hx, -, hv, hl⟩ := bytes_val v n
    rw [hb, singleton_append, hllSparseValues.eq_def]
    simp only [hz, hx, Bool.false_eq_true, if_false, hv, hl]
    rfl

theorem hllSparseValues_bytes (ops : List HllOp) : hllSparseValues (hllBytes ops) = hllValues ops := by
  induction ops with
  | nil => rfl
  | cons op ops ih => rw [hllBytes_cons, hllSparseValues_cons, ih, hllValues_cons]

/-! ### Locating an opcode -/

theorem hllSparseLocate_cons (index : Nat) (op : HllOp) (rest : List UInt8) (c : HllCursor) :
    hllSparseLocate index (op.bytes ++ rest) c =
      if index < c.first + op.len then { c with span := op.len }
      else hllSparseLocate index rest ⟨c.p + op.bytes.length, c.first + op.len, op.len, some c.p⟩ := by
  have hiff : index ≤ c.first + op.len - 1 ↔ index < c.first + op.len := by
    have := op.len_pos
    omega
  cases op with
  | zero n =>
    obtain ⟨b, hb, hz, -, -, hl⟩ := bytes_zero n
    rw [hb, singleton_append, hllSparseLocate.eq_def]
    simp only [hz, hl, if_true, Bool.true_or]
    exact if_congr hiff rfl rfl
  | xzero n =>
    obtain ⟨b, b1, hb, hz, hx, hv, hl⟩ := bytes_xzero n
    rw [hb, cons_append, singleton_append, hllSparseLocate.eq_def]
    simp only [hz, hv, hl, Bool.false_eq_true, if_false, Bool.false_or, headD_cons]
    exact if_congr hiff rfl rfl
  | val v n =>
    obtain ⟨b, hb, hz, -, hv, -, hl⟩ := bytes_val v n
    rw [hb, singleton_append, hllSparseLocate.eq_def]
    simp only [hz, hv, hl, Bool.false_eq_true, if_false, if_true, Bool.or_true]
    exact if_congr hiff rfl rfl

/-- The cursor is at the opcode after `D`, and `prev` at an earlier one. -/
structure HllCursor.After (c : HllCursor) (D : List HllOp) : Prop where
  p : c.p = (hllBytes D).length
  first : c.first = (hllValues D).length
  prev : ∃ D₁ D₂, D = D₁ ++ D₂ ∧ c.prev.getD 0 = (hllBytes D₁).length

theorem hllSparseLocate_spec (index : Nat) : ∀ (ops D : List HllOp) (c : HllCursor), c.After D →
    c.first ≤ index → index < (hllValues (D ++ ops)).length →
    ∃ A op B, D ++ ops = A ++ op :: B ∧ (hllSparseLocate index (hllBytes ops) c).After A ∧
      (hllSparseLocate index (hllBytes ops) c).span = op.len ∧
      (hllValues A).length ≤ index ∧ index < (hllValues A).length + op.len := by
  intro ops
  induction ops with
  | nil =>
    intro D c h hfirst hlt
    rw [append_nil, ← h.first] at hlt
    omega
  | cons op ops ih =>
    intro D c h hfirst hlt
    rw [hllBytes_cons, hllSparseLocate_cons]
    split
    next hin => exact ⟨D, op, ops, rfl, ⟨h.p, h.first, h.prev⟩, rfl, h.first ▸ hfirst, h.first ▸ hin⟩
    next hout =>
      have hafter : HllCursor.After ⟨c.p + op.bytes.length, c.first + op.len, op.len, some c.p⟩ (D ++ [op]) := by
        refine ⟨?_, ?_, D, [op], rfl, h.p⟩
        · simp [h.p]
        · simp [h.first]
      have happ : D ++ op :: ops = D ++ [op] ++ ops := by simp
      rw [happ] at hlt ⊢
      exact ih _ _ hafter (Nat.le_of_not_lt hout) hlt

/-! ### Replacing an opcode -/

theorem set_length_eq {L B : List UInt8} (h : L.take B.length = B) (hlt : B.length < L.length) :
    L.set B.length 0 = B ++ 0 :: L.drop (B.length + 1) := by
  rw [set_eq_take_append_cons_drop, if_pos hlt, h]

theorem hllSparseReplace_spec (A X B T seq : List UInt8) (hroom : seq.length ≤ X.length + T.length) {next last : Nat}
    (hnext : next = A.length + X.length) (hlast : last = next + B.length) :
    ∃ T', hllSparseReplace (A ++ (X ++ (B ++ 0 :: T))) A.length next last seq = some (A ++ (seq ++ (B ++ 0 :: T'))) := by
  obtain ⟨buf, hbuf⟩ : ∃ buf, buf = A ++ (X ++ (B ++ 0 :: T)) := ⟨_, rfl⟩
  obtain ⟨d, hd⟩ : ∃ d : Int, d = seq.length - (next - A.length : Nat) := ⟨_, rfl⟩
  have hlen : buf.length = last + 1 + T.length := by
    rw [hbuf]
    simp only [length_append, length_cons]
    omega
  have htake : ∀ {k}, k ≤ A.length → buf.take k = A.take k := fun hk => by
    rw [hbuf, take_append_of_le_length hk]
  -- after the move the stretch `B` is in its new place
  obtain ⟨buf₁, hmove, hlen₁, htake₁, hdrop₁⟩ : ∃ buf₁,
      (if d ≠ 0 ∧ next < last then memmove buf (next + d).toNat next (last - next) else some buf) = some buf₁ ∧
      buf₁.length = buf.length ∧ buf₁.take A.length = A ∧ (buf₁.drop (A.length + seq.length)).take B.length = B := by
    by_cases hcase : d ≠ 0 ∧ next < last
    · have hdst : (next + d).toNat = A.length + seq.length := by omega
      have hcount : last - next = B.length := by omega
      have hmid := memmove_middle (P := A ++ X) (B := B) (Q := 0 :: T) (A.length + seq.length)
        (by simp only [length_append, length_cons]; omega)
      rw [append_assoc, ← hbuf, length_append, ← hnext] at hmid
      rw [if_pos hcase, hdst, hcount, hmid]
      refine ⟨_, rfl, ?_, ?_, ?_⟩
      · simp only [length_append, length_take, length_drop]
        omega
      · rw [take_append_of_le_length (by rw [length_take]; omega), take_take,
          min_eq_left (by omega), htake le_rfl, take_length]
      · rw [drop_append_of_le_length (by rw [length_take]; omega),
          drop_eq_nil_of_le (by rw [length_take]; omega), nil_append, take_left]
    · rw [if_neg hcase]
      refine ⟨buf, rfl, rfl, by rw [htake le_rfl, take_length], ?_⟩
      rcases Nat.eq_zero_or_pos B.length with hB | hB
      · rw [length_eq_zero_iff.1 hB]
        exact take_zero
      · have hseq : seq.length = X.length := by omega
        rw [hseq, hbuf, ← append_assoc, drop_left' (by simp), take_left]
  have hincr : sdsIncrLen buf₁ last d = some (buf₁.set (A.length + seq.length + B.length) 0) := by
    have hend : (last + d).toNat = A.length + seq.length + B.length := by omega
    rw [sdsIncrLen, if_pos (by omega), hend]
  obtain ⟨L, hL⟩ : ∃ L, L = buf₁.drop (A.length + seq.length) := ⟨_, rfl⟩
  have hset : (buf₁.set (A.length + seq.length + B.length) 0).drop (A.length + seq.length) =
      B ++ 0 :: L.drop (B.length + 1) := by
    rw [drop_set, if_neg (by omega), Nat.add_sub_cancel_left, ← hL]
    exact set_length_eq (hL ▸ hdrop₁) (by rw [hL, length_drop]; omega)
  refine ⟨L.drop (B.length + 1), ?_⟩
  rw [← hbuf, hllSparseReplace]
  simp only [← hd, hmove, hincr, some_bind]
  rw [memcpy, if_pos (by rw [length_set]; omega), hset, take_set_of_le (by omega), htake₁]

/-! ### Merging -/

variable {bs : List UInt8}

theorem HllOp.eq_val_of_isVal {op : HllOp} {b : UInt8} (hb : op.bytes = b :: bs)
    (h : hllSparseIsVal b = true) : ∃ v n, op = .val v n := by
  cases op with
  | zero n =>
    obtain ⟨c, hc, -, -, hv, -⟩ := bytes_zero n
    cases hc.symm.trans hb
    rw [hv] at h
    cases h
  | xzero n =>
    obtain ⟨c, c1, hc, -, -, hv, -⟩ := bytes_xzero n
    cases hc.symm.trans hb
    rw [hv] at h
    cases h
  | val v n => exact ⟨v, n, rfl⟩

theorem merge_writes (P R T : List UInt8) (b0 b1 b : UInt8) :
    ∃ buf buf', memcpy (P ++ (b0 :: b1 :: R ++ 0 :: T)) (P.length + 1) [b] = some buf ∧
      memmove buf P.length (P.length + 1) (R.length + 2) = some buf' ∧
      sdsIncrLen buf' (P.length + (R.length + 2)) (-1) = some (P ++ (b :: R ++ 0 :: 0 :: T)) := by
  have hcpy : memcpy (P ++ (b0 :: b1 :: R ++ 0 :: T)) (P.length + 1) [b] =
      some (P ++ (b0 :: b :: R ++ 0 :: T)) := by
    have := memcpy_exact (P ++ [b0]) (R ++ 0 :: T) (show [b].length = [b1].length from rfl)
    simpa using this
  have hmove : memmove (P ++ (b0 :: b :: R ++ 0 :: T)) P.length (P.length + 1) (R.length + 2) =
      some (P ++ (b :: R ++ 0 :: 0 :: T)) := by
    have := memmove_middle (P := P ++ [b0]) (B := b :: R ++ [0]) (Q := T) P.length (by simp)
    simpa [add_assoc] using this
  refine ⟨_, _, hcpy, hmove, ?_⟩
  have hend : ((P.length + (R.length + 2) : Nat) + (-1) : Int).toNat = (P ++ b :: R).length := by
    rw [length_append, length_cons]
    omega
  have happ : P ++ (b :: R ++ 0 :: 0 :: T) = (P ++ b :: R) ++ 0 :: 0 :: T := by simp
  rw [sdsIncrLen, if_pos (by simp; omega), hend, happ, set_append_right _ _ le_rfl, Nat.sub_self,
    set_cons_zero]

theorem hllSparseMerge_spec : ∀ (scanlen : Nat) (A R : List HllOp) (T : List UInt8),
    ∃ ops T', hllSparseMerge scanlen (hllBytes (A ++ R) ++ 0 :: T) (hllBytes A).length (hllBytes (A ++ R)).length =
      some (hllBytes ops ++ 0 :: T', (hllBytes ops).length) ∧ hllValues ops = hllValues (A ++ R) := by
  intro scanlen
  induction scanlen with
  | zero => exact fun A R T => ⟨A ++ R, T, rfl, rfl⟩
  | succ scanlen ih =>
    intro A R T
    rcases R with - | ⟨op, R⟩
    · refine ⟨A, T, ?_, by rw [append_nil]⟩
      rw [append_nil, hllSparseMerge, if_neg (lt_irrefl _)]
    have hskip : ∃ ops T', hllSparseMerge scanlen (hllBytes (A ++ op :: R) ++ 0 :: T)
        ((hllBytes A).length + op.bytes.length) (hllBytes (A ++ op :: R)).length =
          some (hllBytes ops ++ 0 :: T', (hllBytes ops).length) ∧ hllValues ops = hllValues (A ++ op :: R) := by
      have hp : (hllBytes (A ++ [op])).length = (hllBytes A).length + op.bytes.length := by simp
      have := ih (A ++ [op]) R T
      rwa [append_assoc, singleton_append, hp] at this
    have hp : (hllBytes A).length < (hllBytes (A ++ op :: R)).length := by
      have := op.bytes_pos
      rw [hllBytes_append, hllBytes_cons, length_append, length_append]
      omega
    rw [hllSparseMerge, if_pos hp]
    cases op with
    | zero n =>
      obtain ⟨b, hb, hz, hx, -⟩ := bytes_zero n
      have hget : (hllBytes (A ++ zero n :: R) ++ 0 :: T)[(hllBytes A).length]? = some b := by simp [hb]
      simp only [hget, hx, hz, some_bind, Bool.false_eq_true, if_false, if_true]
      exact hskip
    | xzero n =>
      obtain ⟨b, b1, hb, -, hx, -⟩ := bytes_xzero n
      have hget : (hllBytes (A ++ xzero n :: R) ++ 0 :: T)[(hllBytes A).length]? = some b := by simp [hb]
      simp only [hget, hx, some_bind, if_true]
      exact hskip
    | val v n =>
      obtain ⟨b, hb, hz, hx, -, hv, hl⟩ := bytes_val v n
      have hget : (hllBytes (A ++ val v n :: R) ++ 0 :: T)[(hllBytes A).length]? = some b := by simp [hb]
      have hlt : (hllBytes A).length + 1 < (hllBytes (A ++ val v n :: R) ++ 0 :: T).length := by
        simp only [hllBytes_append, hllBytes_cons, hb, length_append, length_cons]
        omega
      obtain ⟨b1, hget1⟩ : ∃ b1, (hllBytes (A ++ val v n :: R) ++ 0 :: T)[(hllBytes A).length + 1]? =
        some b1 := ⟨_, getElem?_eq_getElem hlt⟩
      simp only [hget, hget1, hx, hz, some_bind, Bool.false_eq_true, if_false]
      split
      next hmerge =>
        obtain ⟨hend, hval1, hveq, hmax⟩ := hmerge
        rcases R with - | ⟨op', R⟩
        · simp [hb] at hend
        obtain ⟨c, cs, hc⟩ := exists_cons_of_length_pos op'.bytes_pos
        have hcb : c = b1 := by simpa [hb, hc] using hget1
        subst hcb
        obtain ⟨v', n', rfl⟩ := eq_val_of_isVal hc hval1
        obtain ⟨c', hc', -, -, -, hv', hl'⟩ := bytes_val v' n'
        cases hc'.symm.trans hc
        have hvv : v' = v := Fin.ext (by omega)
        rw [hllSparseValMaxLen] at hmax
        obtain ⟨m, hm⟩ : ∃ m : Fin 4, (m : Nat) = n + n' + 1 := ⟨⟨n + n' + 1, by omega⟩, rfl⟩
        obtain ⟨d, hd⟩ : ∃ d, (val v m).bytes = [d] := ⟨_, rfl⟩
        have hnew : hllSparseValSet (v + 1) (n + 1 + (n' + 1)) = [d] := by
          rw [← hd, bytes]
          congr 1
          omega
        obtain ⟨buf, buf', hcpy, hmove, hincr⟩ := merge_writes (hllBytes A) (hllBytes R) T b c d
        have hbuf : hllBytes (A ++ val v n :: val v' n' :: R) ++ 0 :: T =
            hllBytes A ++ (b :: c :: hllBytes R ++ 0 :: T) := by simp [hb, hc]
        have hlen : (hllBytes (A ++ val v n :: val v' n' :: R)).length =
            (hllBytes A).length + ((hllBytes R).length + 2) := by simp [hb, hc, add_assoc]
        have hcount : (hllBytes A).length + ((hllBytes R).length + 2) - (hllBytes A).length =
            (hllBytes R).length + 2 := by omega
        obtain ⟨ops, T', hops, hvalues⟩ := ih A (val v m :: R) (0 :: T)
        refine ⟨ops, T', ?_, hvalues.trans ?_⟩
        · rw [hbuf, hlen, hcount, hv, hl, hl', hnew]
          simp only [hcpy, hmove, hincr, some_bind]
          rw [← hops]
          congr 1
          · simp [hd]
          · simp [hd]
        · simp [values, value, len, hvv, hm]
          rw [← append_assoc, replicate_append_replicate]
          congr 2
          omega
      · exact hskip

/-! ### The new sequence -/

theorem hllSparseZeros_spec {len : Nat} (h1 : 0 < len) (h2 : len ≤ 16384) :
    ∃ op : HllOp, hllSparseZeros len = op.bytes ∧ op.values = replicate len 0 ∧
      op.bytes.length = if len > 64 then 2 else 1 := by
  have hlen : len - 1 + 1 = len := Nat.sub_add_cancel h1
  unfold hllSparseZeros
  split
  next hlong =>
    refine ⟨.xzero ⟨len - 1, by omega⟩, ?_, ?_, (if_pos hlong).symm⟩
    · rw [bytes, hlen]
    · rw [HllOp.values, HllOp.len, hlen]
      rfl
  next hshort =>
    refine ⟨.zero ⟨len - 1, by rw [hllSparseZeroMaxLen] at hshort; omega⟩, ?_, ?_, (if_neg hshort).symm⟩
    · rw [bytes, hlen]
    · rw [HllOp.values, HllOp.len, hlen]
      rfl

theorem hllSparseValSet_spec (val len : Nat) (hv : 0 < val) (hv' : val ≤ 32) (hl : 0 < len) (hl' : len ≤ 4) :
    ∃ op : HllOp, hllSparseValSet val len = op.bytes ∧ op.values = replicate len val ∧ op.bytes.length = 1 := by
  have hval : val - 1 + 1 = val := Nat.sub_add_cancel hv
  have hlen : len - 1 + 1 = len := Nat.sub_add_cancel hl
  refine ⟨.val ⟨val - 1, by omega⟩ ⟨len - 1, by omega⟩, ?_, ?_, rfl⟩
  · rw [bytes, hval, hlen]
  · rw [HllOp.values, HllOp.len, HllOp.value, hval, hlen]

theorem exists_part {f : Nat → List UInt8} {c : Prop} [Decidable c] {k u m : Nat} (hc : c ↔ 0 < k)
    (h : 0 < k → ∃ op : HllOp, f k = op.bytes ∧ op.values = replicate k u ∧ op.bytes.length ≤ m) :
    ∃ S, (if c then f k else []) = hllBytes S ∧ hllValues S = replicate k u ∧ (hllBytes S).length ≤ m := by
  split
  next hk =>
    obtain ⟨op, hb, hv, hl⟩ := h (hc.1 hk)
    exact ⟨[op], by simp [hb], by simp [hv], by simpa using hl⟩
  next hk =>
    have hzero : k = 0 := Nat.eq_zero_of_not_pos fun hpos => hk (hc.2 hpos)
    exact ⟨[], rfl, by rw [hzero]; rfl, Nat.zero_le _⟩

theorem hllSparseSeq_spec {op : HllOp} {b : UInt8} (hb : op.bytes = b :: bs) {first index count : Nat}
    (h1 : first ≤ index) (h2 : index < first + op.len) (hc : 0 < count) (hc' : count ≤ 32) :
    ∃ S, hllSparseSeq b first (first + op.len - 1) index count = hllBytes S ∧
      hllValues S = replicate (index - first) op.value ++ (count :: replicate (first + op.len - 1 - index) op.value) ∧
      (hllBytes S).length ≤ op.bytes.length + 3 ∧ 0 < (hllBytes S).length := by
  obtain ⟨cop, hcb, hcv, hcl⟩ := hllSparseValSet_spec count 1 hc hc' Nat.one_pos (by decide)
  -- the sequence from its three parts
  have hparts : ∀ (f : Nat → List UInt8) (m : Nat), 2 * m ≤ op.bytes.length + 2 →
      (∀ k, 0 < k → k ≤ op.len → ∃ op' : HllOp, f k = op'.bytes ∧ op'.values = replicate k op.value ∧
        op'.bytes.length ≤ m) →
      ∃ S, (if index ≠ first then f (index - first) else []) ++ hllSparseValSet count 1 ++
          (if index ≠ first + op.len - 1 then f (first + op.len - 1 - index) else []) = hllBytes S ∧
        hllValues S = replicate (index - first) op.value ++
          (count :: replicate (first + op.len - 1 - index) op.value) ∧
        (hllBytes S).length ≤ op.bytes.length + 3 ∧ 0 < (hllBytes S).length := by
    intro f m hm hf
    obtain ⟨S₁, hS₁, hv₁, hl₁⟩ := exists_part (c := index ≠ first) (k := index - first)
      (by omega) fun hk => hf _ hk (by omega)
    obtain ⟨S₂, hS₂, hv₂, hl₂⟩ := exists_part (c := index ≠ first + op.len - 1)
      (k := first + op.len - 1 - index) (by omega) fun hk => hf _ hk (by omega)
    refine ⟨S₁ ++ cop :: S₂, ?_, ?_, ?_, ?_⟩
    · rw [hS₁, hS₂, hcb, hllBytes_append, hllBytes_cons, append_assoc]
    · rw [hllValues_append, hllValues_cons, hv₁, hv₂, hcv]
      rfl
    all_goals
      rw [hllBytes_append, hllBytes_cons, length_append, length_append]
      omega
  cases op with
  | zero n =>
    obtain ⟨b', hb', hz, -⟩ := bytes_zero n
    cases hb'.symm.trans hb
    rw [hllSparseSeq, hz, Bool.true_or]
    refine hparts hllSparseZeros 1 (by rw [hb]; simp) fun k hk hk' => ?_
    have hlen : (zero n).len = n + 1 := rfl
    obtain ⟨op', h1, h2, h3⟩ := hllSparseZeros_spec hk (by omega)
    exact ⟨op', h1, h2, by rw [h3, if_neg (by omega)]⟩
  | xzero n =>
    obtain ⟨b', b1', hb', hz, hx, -⟩ := bytes_xzero n
    cases hb'.symm.trans hb
    rw [hllSparseSeq, hx, Bool.or_true]
    refine hparts hllSparseZeros 2 (by rw [hb]; simp) fun k hk hk' => ?_
    have hlen : (xzero n).len = n + 1 := rfl
    obtain ⟨op', h1, h2, h3⟩ := hllSparseZeros_spec hk (by omega)
    exact ⟨op', h1, h2, by rw [h3]; split <;> omega⟩
  | val v n =>
    obtain ⟨b', hb', hz, hx, -, hv, -⟩ := bytes_val v n
    cases hb'.symm.trans hb
    rw [hllSparseSeq, hz, hx, Bool.or_false, hv]
    refine hparts (hllSparseValSet (v + 1)) 1 (by rw [hb]; simp) fun k hk hk' => ?_
    have hlen : (val v n).len = n + 1 := rfl
    obtain ⟨op', h1, h2, h3⟩ := hllSparseValSet_spec (v + 1) k (by omega) (by omega) hk (by omega)
    exact ⟨op', h1, h2, by rw [h3]⟩

/-! ### Dense registers -/

structure HllDense (r : List UInt8) (v : Nat → Nat) : Prop where
  length : r.length = hllDenseSize - hllHdrSize + 1
  get : ∀ i < hllRegisters, hllDenseGetRegister r i = some (v i)

theorem HllDense.inside {r : List UInt8} {v : Nat → Nat} (h : HllDense r v) {i : Nat} (hi : i < hllRegisters) :
    i * hllBits / 8 + 1 < r.length := by
  have hlen : r.length = 12289 := h.length
  have hi' : i < 16384 := hi
  have hbits : i * hllBits = i * 6 := rfl
  omega

theorem hllDense_zero : HllDense (replicate (hllDenseSize - hllHdrSize + 1) 0) fun _ => 0 := by
  refine ⟨length_replicate, fun i hi => packedGet_zero (by decide) ?_⟩
  have hi' : i < 16384 := hi
  show i * 6 / 8 + 1 < 12289
  omega

section
variable {r : List UInt8} {v : Nat → Nat} {index count : Nat}

theorem hllDenseSetRegister_spec (index : Nat) (h : HllDense r v) (hi : index < hllRegisters) (hc : count < 64) :
    ∃ r', hllDenseSetRegister r index count = some r' ∧ HllDense r' (update v index count) := by
  obtain ⟨r', hr', hlen, -⟩ := packedSet_spec (by decide) hc (h.inside hi)
  refine ⟨r', hr', hlen.trans h.length, fun i hi' => ?_⟩
  have hget := packedGet_set (by decide) hc (h.inside hi) hr' (h.inside hi')
  rw [hllDenseGetRegister, hget, update_apply]
  split
  · rfl
  · exact h.get i hi'

theorem hllDenseSet_spec (h : HllDense r v) (hi : index < hllRegisters) (hc : count < 64) :
    ∃ r', hllDenseSet r index count = some (r', if v index < count then 1 else 0) ∧
      HllDense r' (update v index (max (v index) count)) := by
  unfold hllDenseSet
  simp only [h.get index hi, some_bind]
  by_cases hlt : v index < count
  · obtain ⟨r', hr', h'⟩ := hllDenseSetRegister_spec index h hi hc
    rw [if_pos hlt, if_pos hlt, max_eq_right hlt.le, hr']
    exact ⟨r', rfl, h'⟩
  · rw [if_neg hlt, if_neg hlt, max_eq_left (Nat.le_of_not_lt hlt), update_eq_self]
    exact ⟨r, rfl, h⟩

theorem hllDenseFill_spec (hc : count < 64) : ∀ (runlen idx : Nat) {r : List UInt8} {v : Nat → Nat},
    HllDense r v → idx + runlen ≤ hllRegisters → ∃ r', hllDenseFill count runlen r idx = some r' ∧
      HllDense r' fun i => if idx ≤ i ∧ i < idx + runlen then count else v i := by
  intro runlen
  induction runlen with
  | zero =>
    intro idx r v h _
    refine ⟨r, rfl, h.length, fun i hi => ?_⟩
    rw [if_neg (by omega)]
    exact h.get i hi
  | succ runlen ih =>
    intro idx r v h hle
    obtain ⟨r₁, hr₁, h₁⟩ := hllDenseSetRegister_spec idx h (by omega) hc
    obtain ⟨r₂, hr₂, h₂⟩ := ih (idx + 1) h₁ (by omega)
    refine ⟨r₂, by rw [hllDenseFill, hr₁]; exact hr₂, h₂.length, fun i hi => ?_⟩
    rw [h₂.get i hi, update_apply]
    by_cases hidx : i = idx
    · rw [if_neg (by omega), if_pos hidx, if_pos (by omega)]
    · rw [if_neg hidx]
      exact congrArg some (if_congr (by omega) rfl rfl)

end

theorem getD_append_replicate (l : List Nat) (k u i : Nat) :
    (l ++ replicate k u).getD i 0 = if l.length ≤ i ∧ i < l.length + k then u else l.getD i 0 := by
  by_cases h1 : i < l.length
  · rw [getD_append _ _ _ _ h1, if_neg (by omega)]
  rw [getD_append_right _ _ _ _ (by omega)]
  by_cases h2 : i < l.length + k
  · rw [getD_replicate _ (by omega), if_pos (by omega)]
  · rw [getD_eq_default _ _ (by rw [length_replicate]; omega), if_neg (by omega),
      getD_eq_default _ _ (by omega)]

theorem getD_append_zeros (l : List Nat) (k i : Nat) : (l ++ replicate k 0).getD i 0 = l.getD i 0 := by
  rw [getD_append_replicate]
  split
  next h => rw [getD_eq_default _ _ h.1]
  · rfl

/-! ### Promotion -/

theorem hllSparseToDenseLoop_spec : ∀ (ops : List HllOp) (pre : List Nat) {r : List UInt8},
    HllDense r (fun i => pre.getD i 0) → pre.length + (hllValues ops).length ≤ hllRegisters →
    ∃ r', hllSparseToDenseLoop (hllBytes ops) r pre.length = some (r', pre.length + (hllValues ops).length) ∧
      HllDense r' fun i => (pre ++ hllValues ops).getD i 0 := by
  intro ops
  induction ops with
  | nil => exact fun pre r h _ => ⟨r, rfl, by rwa [hllValues_nil, append_nil]⟩
  | cons op ops ih =>
    intro pre r h hle
    rw [hllValues_cons, length_append, values_length] at hle
    -- the opcode puts its registers after `pre`
    have hstep : ∃ r', hllSparseToDenseLoop (op.bytes ++ hllBytes ops) r pre.length =
        hllSparseToDenseLoop (hllBytes ops) r' (pre.length + op.len) ∧
        HllDense r' fun i => (pre ++ op.values).getD i 0 := by
      cases op with
      | zero n =>
        obtain ⟨b, hb, hz, -, -, hl⟩ := bytes_zero n
        refine ⟨r, ?_, h.length, fun i hi => ?_⟩
        · rw [hb, singleton_append, hllSparseToDenseLoop.eq_def]
          simp only [hz, if_true, hl]
          rfl
        · rw [h.get i hi]
          exact congrArg some (getD_append_zeros pre _ i).symm
      | xzero n =>
        obtain ⟨b, b1, hb, hz, hx, -, hl⟩ := bytes_xzero n
        refine ⟨r, ?_, h.length, fun i hi => ?_⟩
        · rw [hb, cons_append, singleton_append, hllSparseToDenseLoop.eq_def]
          simp only [hz, hx, Bool.false_eq_true, if_false, if_true, hl]
          rfl
        · rw [h.get i hi]
          exact congrArg some (getD_append_zeros pre _ i).symm
      | val u n =>
        obtain ⟨b, hb, hz, hx, -, hv, hl⟩ := bytes_val u n
        have hlen : (val u n).len = n + 1 := rfl
        obtain ⟨r', hr', h'⟩ := hllDenseFill_spec (by omega : (u : Nat) + 1 < 64) (n + 1) pre.length h (by omega)
        refine ⟨r', ?_, h'.length, fun i hi => ?_⟩
        · rw [hb, singleton_append, hllSparseToDenseLoop.eq_def]
          simp only [hz, hx, Bool.false_eq_true, if_false, hv, hl, hr', some_bind]
          rw [if_neg (by omega)]
          rfl
        · rw [h'.get i hi]
          exact congrArg some (getD_append_replicate pre _ _ i).symm
    obtain ⟨r', hr', h'⟩ := hstep
    have hlen : (pre ++ op.values).length = pre.length + op.len := by rw [length_append, values_length]
    obtain ⟨r'', hr'', h''⟩ := ih (pre ++ op.values) h' (by omega)
    refine ⟨r'', ?_, ?_⟩
    · rw [hllBytes_cons, hr', ← hlen, hr'', hlen, hllValues_cons, length_append, values_length,
        add_assoc]
    · rwa [hllValues_cons, ← append_assoc]

/-! ### Objects -/

structure HllSparse (o : HllObject) (ops : List HllOp) : Prop where
  encoding : o.encoding = .sparse
  registers : o.registers = hllBytes ops ++ [0]
  count : (hllValues ops).length = hllRegisters

/-- The object has the registers `vs`. -/
def HllObject.Holds (o : HllObject) (vs : List Nat) : Prop :=
  (∃ ops, HllSparse o ops ∧ hllValues ops = vs) ∨
    (o.encoding = .dense ∧ vs.length = hllRegisters ∧ HllDense o.registers fun i => vs.getD i 0)

section
variable {o : HllObject} {ops : List HllOp} {index count : Nat}
variable {A B : List HllOp} {op : HllOp}

theorem HllObject.Holds.length {vs : List Nat} (h : o.Holds vs) : vs.length = hllRegisters := by
  rcases h with ⟨ops, h, rfl⟩ | ⟨-, h, -⟩
  · exact h.count
  · exact h

theorem hllSparseToDense_spec (h : HllSparse o ops) :
    ∃ r, hllSparseToDense o = some ({ o with encoding := .dense, registers := r }, true) ∧
      HllDense r fun i => (hllValues ops).getD i 0 := by
  obtain ⟨r, hr, h'⟩ := hllSparseToDenseLoop_spec ops []
    ⟨hllDense_zero.length, fun i hi => hllDense_zero.get i hi⟩ (by rw [h.count]; exact Nat.le_of_eq (zero_add _))
  refine ⟨r, ?_, h'⟩
  rw [length_nil, zero_add, h.count] at hr
  rw [hllSparseToDense, if_neg (by rw [h.encoding]; decide), h.registers, dropLast_concat]
  simp only [hr, some_bind, ne_eq, not_true, if_false]

theorem getD_set_eq (vs : List Nat) (hi : index < vs.length) (i : Nat) :
    (vs.set index count).getD i 0 = update (fun i => vs.getD i 0) index count i := by
  rw [getD_eq_getElem?_getD, getElem?_set, update_apply]
  by_cases h : index = i
  · rw [if_pos h, if_pos hi, if_pos h.symm]
    rfl
  · rw [if_neg h, if_neg (Ne.symm h), getD_eq_getElem?_getD]

theorem hllPromote_spec (h : HllSparse o ops) (hi : index < hllRegisters) (hc : count < 64)
    (hlt : (hllValues ops).getD index 0 < count) :
    ∃ o', hllPromote o index count = some (o', 1) ∧ o'.Holds ((hllValues ops).set index count) := by
  obtain ⟨r, hr, hd⟩ := hllSparseToDense_spec h
  obtain ⟨r', hr', hd'⟩ := hllDenseSet_spec hd hi hc
  rw [if_pos hlt] at hr'
  refine ⟨{ o with encoding := .dense, registers := r' }, ?_, .inr ⟨rfl, by rw [length_set, h.count], ?_⟩⟩
  · simp only [hllPromote, hr, hr', some_bind, Bool.true_eq_false, if_false, if_true]
  · rw [max_eq_right hlt.le] at hd'
    refine ⟨hd'.length, fun i hi' => ?_⟩
    rw [hd'.get i hi', getD_set_eq _ (by rw [h.count]; exact hi)]

theorem hllSparseUpdated_spec (ho : o.encoding = .sparse) (D R : List HllOp) (T : List UInt8) {prev : Option Nat}
    (hprev : prev.getD 0 = (hllBytes D).length) (hcount : (hllValues (D ++ R)).length = hllRegisters) :
    ∃ o', hllSparseUpdated o (hllBytes (D ++ R) ++ 0 :: T) prev (hllBytes (D ++ R)).length = some (o', 1) ∧
      o'.Holds (hllValues (D ++ R)) := by
  obtain ⟨ops, T', hops, hvalues⟩ := hllSparseMerge_spec 5 D R T
  have htake : (hllBytes ops ++ 0 :: T').take ((hllBytes ops).length + 1) = hllBytes ops ++ [0] := by
    rw [take_length_add_append]
    rfl
  refine ⟨hllInvalidateCache { o with registers := hllBytes ops ++ [0] }, ?_,
    .inl ⟨ops, ⟨ho, rfl, hvalues ▸ hcount⟩, hvalues⟩⟩
  simp only [hllSparseUpdated, hprev, hops, htake, some_bind]

theorem hllValues_split {S : List HllOp} (h1 : (hllValues A).length ≤ index)
    (h2 : index < (hllValues A).length + op.len)
    (hS : hllValues S = replicate (index - (hllValues A).length) op.value ++
      (count :: replicate ((hllValues A).length + op.len - 1 - index) op.value)) :
    hllValues (A ++ (S ++ B)) = (hllValues (A ++ op :: B)).set index count := by
  obtain ⟨k, hk⟩ : ∃ k, k = index - (hllValues A).length := ⟨_, rfl⟩
  obtain ⟨l, hl⟩ : ∃ l, l = (hllValues A).length + op.len - 1 - index := ⟨_, rfl⟩
  have hop : op.values = replicate k op.value ++ op.value :: replicate l op.value := by
    rw [values, ← replicate_succ, replicate_append_replicate]
    congr 1
    omega
  have hidx : index = (hllValues A ++ replicate k op.value).length := by
    rw [length_append, length_replicate]
    omega
  have happ : hllValues (A ++ op :: B) = (hllValues A ++ replicate k op.value) ++
      (op.value :: (replicate l op.value ++ hllValues B)) := by
    rw [hllValues_append, hllValues_cons, hop]
    simp
  rw [happ, set_append_right _ _ hidx.symm.le, ← hidx, Nat.sub_self,
    hllValues_append, hllValues_append, hS, ← hk, ← hl]
  simp

theorem getD_hllValues (h1 : (hllValues A).length ≤ index) (h2 : index < (hllValues A).length + op.len) :
    (hllValues (A ++ op :: B)).getD index 0 = op.value := by
  rw [hllValues_append, hllValues_cons, getD_append_right _ _ _ _ h1,
    getD_append _ _ _ _ (by rw [values_length]; omega), values, getD_replicate _ (by omega)]

theorem HllOp.isVal_iff {b : UInt8} (hb : op.bytes = b :: bs) (hc : 0 < count) :
    ((hllSparseIsVal b && decide (hllSparseValValue b ≥ count)) = true ↔ count ≤ op.value) ∧
      ((hllSparseIsVal b && decide (hllSparseValLen b = 1) ||
        hllSparseIsZero b && decide (hllSparseZeroLen b = 1)) = true → op.len = 1 ∧ bs = []) ∧
      (if hllSparseIsXzero b then 2 else 1) = op.bytes.length := by
  cases op with
  | zero n =>
    obtain ⟨c, hcb, hz, hx, hv, hl⟩ := bytes_zero n
    cases hcb.symm.trans hb
    refine ⟨?_, ?_, ?_⟩
    · simp [hv, value]
      omega
    · simp [hv, hz, hl, len]
    · rw [hx]
      rfl
  | xzero n =>
    obtain ⟨c, c1, hcb, hz, hx, hv, hl⟩ := bytes_xzero n
    cases hcb.symm.trans hb
    refine ⟨?_, ?_, ?_⟩
    · simp [hv, value]
      omega
    · simp [hv, hz]
    · rw [hx]
      rfl
  | val v n =>
    obtain ⟨c, hcb, hz, hx, hv, hval, hl⟩ := bytes_val v n
    cases hcb.symm.trans hb
    refine ⟨?_, ?_, ?_⟩
    · simp [hv, hval, value]
    · simp [hv, hz, hl, len]
    · rw [hx]
      rfl

theorem HllOp.value_le (op : HllOp) : op.value ≤ 32 := by
  cases op with
  | zero n | xzero n => exact Nat.zero_le _
  | val v n => exact v.isLt

theorem set_getD_self (vs : List Nat) (hi : index < vs.length) : vs.set index (vs.getD index 0) = vs := by
  rw [getD_eq_getElem _ _ hi, set_getElem_self]

theorem hllSparseUpdated_splice {S : List HllOp} {c : HllCursor} (h : HllSparse o (A ++ op :: B)) (hafter : c.After A)
    (T : List UInt8) (hS : hllValues (A ++ (S ++ B)) = (hllValues (A ++ op :: B)).set index count) :
    ∃ o', hllSparseUpdated o (hllBytes A ++ (hllBytes S ++ (hllBytes B ++ 0 :: T))) c.prev
        ((hllBytes A).length + (hllBytes S).length + (hllBytes B).length) = some (o', 1) ∧
      o'.Holds ((hllValues (A ++ op :: B)).set index count) := by
  obtain ⟨D, E, hA, hprev⟩ := hafter.prev
  have happ : D ++ (E ++ (S ++ B)) = A ++ (S ++ B) := by rw [hA, append_assoc]
  have hcount : (hllValues (A ++ (S ++ B))).length = hllRegisters := by rw [hS, length_set, h.count]
  obtain ⟨o', ho', hholds⟩ := hllSparseUpdated_spec h.encoding D (E ++ (S ++ B)) T hprev (happ ▸ hcount)
  rw [happ] at ho' hholds
  refine ⟨o', ?_, hS ▸ hholds⟩
  rw [← ho']
  simp [add_assoc]

theorem hllSparseSetAt_spec (maxBytes : Nat) {c : HllCursor} {T : List UInt8} (h : HllSparse o (A ++ op :: B))
    (hafter : c.After A) (hspan : c.span = op.len) (hi : index < hllRegisters) (hle : (hllValues A).length ≤ index)
    (hlt : index < (hllValues A).length + op.len) (hT : T.length = 3) (hc : 0 < count) (hsmall : count ≤ 32) :
    ∃ o', hllSparseSetAt maxBytes o (hllBytes A ++ (op.bytes ++ (hllBytes B ++ 0 :: T)))
        ((hllBytes A).length + op.bytes.length + (hllBytes B).length) c index count =
          some (o', if op.value < count then 1 else 0) ∧
      o'.Holds ((hllValues (A ++ op :: B)).set index (max op.value count)) := by
  have hvalue := getD_hllValues (B := B) hle hlt
  obtain ⟨b, bs, hb⟩ := exists_cons_of_length_pos op.bytes_pos
  obtain ⟨hge, hplace, hoplen⟩ := isVal_iff hb hc
  have hget : (hllBytes A ++ (op.bytes ++ (hllBytes B ++ 0 :: T)))[c.p]? = some b := by simp [hafter.p, hb]
  simp only [hllSparseSetAt, hget, some_bind]
  by_cases hup : count ≤ op.value
  · rw [if_pos (hge.2 hup), if_neg (Nat.not_lt_of_le hup), max_eq_left hup, ← hvalue,
      set_getD_self _ (by rw [h.count]; exact hi)]
    exact ⟨o, rfl, .inl ⟨_, h, rfl⟩⟩
  rw [if_neg fun hcond => hup (hge.1 hcond)]
  replace hup : op.value < count := Nat.lt_of_not_le hup
  rw [max_eq_right hup.le]
  split
  next hcond =>
    obtain ⟨hlen, rfl⟩ := hplace hcond
    obtain ⟨cop, hcb, hcv, hcl⟩ := hllSparseValSet_spec count 1 hc hsmall Nat.one_pos (by decide)
    have hsize : cop.bytes.length = op.bytes.length := hcl.trans (by rw [hb]; rfl)
    have hsplit : hllValues (A ++ ([cop] ++ B)) = (hllValues (A ++ op :: B)).set index count := by
      refine hllValues_split hle hlt ?_
      have h1 : index - (hllValues A).length = 0 := by omega
      have h2 : (hllValues A).length + op.len - 1 - index = 0 := by omega
      rw [h1, h2, hllValues_cons, hcv]
      rfl
    obtain ⟨o', ho', hholds⟩ := hllSparseUpdated_splice h hafter T hsplit
    refine ⟨o', ?_, hholds⟩
    rw [hllBytes_cons, hllBytes_nil, append_nil, hsize] at ho'
    rw [hafter.p, hcb, memcpy_exact (hllBytes A) (hllBytes B ++ 0 :: T) hsize]
    exact ho'
  · obtain ⟨S, hS, hSv, hSl, hSpos⟩ := hllSparseSeq_spec hb hle hlt hc hsmall
    rw [hafter.first, hspan, hS, hoplen]
    split
    · exact hllPromote_spec h hi (by omega) (hvalue ▸ hup)
    obtain ⟨T', hT'⟩ := hllSparseReplace_spec (hllBytes A) op.bytes (hllBytes B) T (hllBytes S) (by omega) rfl rfl
    obtain ⟨o', ho', hholds⟩ := hllSparseUpdated_splice h hafter T' (hllValues_split hle hlt hSv)
    refine ⟨o', ?_, hholds⟩
    rw [hafter.p, hT', ← ho']
    simp only [some_bind]
    congr 1
    omega

theorem hllSparseSet_spec (junk : Nat → UInt8) (maxBytes : Nat) (h : HllSparse o ops) (hi : index < hllRegisters)
    (hc : 0 < count) (hc' : count < 64) : ∃ o', hllSparseSet junk maxBytes o index count =
        some (o', if (hllValues ops).getD index 0 < count then 1 else 0) ∧
      o'.Holds ((hllValues ops).set index (max ((hllValues ops).getD index 0) count)) := by
  -- the opcode that covers the register
  obtain ⟨A, op, B, happ, hafter, hspan, hle, hlt⟩ := hllSparseLocate_spec index ops [] ⟨0, 0, 0, none⟩
    ⟨rfl, rfl, [], [], rfl, rfl⟩ (Nat.zero_le _) (by rw [nil_append, h.count]; exact hi)
  obtain rfl : ops = A ++ op :: B := happ
  rw [getD_hllValues hle hlt, hllSparseSet]
  split
  next hbig =>
    have hup : op.value < count := Nat.lt_of_le_of_lt op.value_le hbig
    rw [if_pos hup, Nat.max_eq_right (Nat.le_of_lt hup)]
    exact hllPromote_spec h hi hc' (by rw [getD_hllValues hle hlt]; exact hup)
  next hsmall =>
    have hend : o.registers.length - 1 = (hllBytes A).length + op.bytes.length + (hllBytes B).length := by
      rw [h.registers]
      simp
      omega
    have hbuf : realloc junk o.registers (o.registers.length + 3) =
        hllBytes A ++ (op.bytes ++ (hllBytes B ++ 0 :: (range 3).map junk)) := by
      rw [realloc, take_of_length_le (by omega), h.registers]
      simp
    have htake : (hllBytes A ++ (op.bytes ++ (hllBytes B ++ 0 :: (range 3).map junk))).take
        ((hllBytes A).length + op.bytes.length + (hllBytes B).length) = hllBytes (A ++ op :: B) := by
      have happ : hllBytes A ++ (op.bytes ++ (hllBytes B ++ 0 :: (range 3).map junk)) =
        hllBytes (A ++ op :: B) ++ 0 :: (range 3).map junk := by simp
      rw [happ, take_left' (by simp [Nat.add_assoc])]
    simp only [hbuf, hend, htake]
    rw [if_neg (by rw [hspan]; exact Nat.ne_of_gt op.len_pos)]
    exact hllSparseSetAt_spec maxBytes h hafter hspan hi hle hlt (by simp) hc (Nat.le_of_not_lt hsmall)

end

/-! ### Runs -/

theorem createHLLObject_sparse : HllSparse createHLLObject [.xzero 16383] :=
  ⟨rfl, rfl, by rw [hllValues_cons, hllValues_nil, append_nil, values_length]; rfl⟩

theorem hllSet_spec (junk : Nat → UInt8) (maxBytes : Nat) (h : o.Holds vs) {index count : Nat}
    (hi : index < hllRegisters) (hc : 0 < count) (hc' : count < 64) :
    ∃ o', hllSet junk maxBytes (index, count) o = some (o', if vs.getD index 0 < count then 1 else 0) ∧
      o'.Holds (vs.set index (max (vs.getD index 0) count)) := by
  rcases h with ⟨ops, h, rfl⟩ | ⟨hdense, hlen, h⟩
  · rw [hllSet, h.encoding]
    exact hllSparseSet_spec junk maxBytes h hi hc hc'
  obtain ⟨r, hr, h'⟩ := hllDenseSet_spec h hi hc'
  refine ⟨{ o with registers := r }, ?_, .inr ⟨hdense, by rw [length_set, hlen], h'.length, fun i hi' => ?_⟩⟩
  · rw [hllSet, hdense]
    simp [hr]
  · rw [getD_set_eq _ (by rw [hlen]; exact hi)]
    exact h'.get i hi'

variable (us : List (Nat × Nat))

/-- The largest count with which a register was updated. -/
def hllMax (i : Nat) : Nat := us.foldl (fun m u => if u.1 = i then max m u.2 else m) 0

def hllRaise (vs : List Nat) (u : Nat × Nat) : List Nat := vs.set u.1 (max (vs.getD u.1 0) u.2)

theorem length_foldl_hllRaise : ∀ vs : List Nat, (us.foldl hllRaise vs).length = vs.length := by
  induction us with
  | nil => exact fun _ => rfl
  | cons u us ih =>
    intro vs
    rw [foldl_cons, ih, hllRaise, length_set]

theorem getD_foldl_hllRaise : ∀ vs : List Nat, (∀ u ∈ us, u.1 < vs.length) → ∀ i,
    (us.foldl hllRaise vs).getD i 0 = us.foldl (fun m u => if u.1 = i then max m u.2 else m) (vs.getD i 0) := by
  induction us with
  | nil => exact fun _ _ _ => rfl
  | cons u us ih =>
    intro vs hus i
    have hu := hus u (.head _)
    have hraise : (hllRaise vs u).getD i 0 = if u.1 = i then max (vs.getD i 0) u.2 else vs.getD i 0 := by
      rw [hllRaise, getD_set_eq _ hu, update_apply]
      by_cases h : u.1 = i
      · rw [if_pos h, if_pos h.symm, h]
      · rw [if_neg h, if_neg (Ne.symm h)]
    rw [foldl_cons, foldl_cons, ih, hraise]
    intro w hw
    rw [hllRaise, length_set]
    exact hus w (.tail _ hw)

theorem foldl_hllRaise_zero (hus : ∀ u ∈ us, u.1 < hllRegisters) :
    us.foldl hllRaise (replicate hllRegisters 0) = (range hllRegisters).map (hllMax us) := by
  refine ext_getElem ?_ fun i h1 h2 => ?_
  · rw [length_foldl_hllRaise, length_replicate, length_map, length_range]
  have hlen : i < hllRegisters := by rwa [length_map, length_range] at h2
  have := getD_foldl_hllRaise us (replicate hllRegisters 0)
    (fun u hu => by rw [length_replicate]; exact hus u hu) i
  rw [getD_eq_getElem _ _ h1, getD_replicate _ hlen] at this
  rw [this, getElem_map, getElem_range, hllMax]

theorem hll_run_spec (junk : Nat → UInt8) (maxBytes : Nat) (us : List (Nat × Nat)) :
    ∀ {o : HllObject} {r : List UInt8} {vs : List Nat}, o.Holds vs → HllDense r (fun i => vs.getD i 0) →
    (∀ u ∈ us, u.1 < hllRegisters ∧ 1 ≤ u.2 ∧ u.2 ≤ 51) →
    ∃ o' r' rs, (hllMachine junk maxBytes).run us o = some (o', rs) ∧ hllDenseMachine.run us r = some (r', rs) ∧
      o'.Holds (us.foldl hllRaise vs) ∧ HllDense r' fun i => (us.foldl hllRaise vs).getD i 0 := by
  induction us with
  | nil => exact fun h hr _ => ⟨_, _, [], rfl, rfl, h, hr⟩
  | cons u us ih =>
    intro o r vs h hr hus
    obtain ⟨hi, hc, hc'⟩ := hus u (.head _)
    have hbits : u.2 < 64 := by omega
    obtain ⟨o₁, ho₁, h₁⟩ := hllSet_spec junk maxBytes h hi hc hbits
    obtain ⟨r₁, hr₁, hd₁⟩ := hllDenseSet_spec hr hi hbits
    have hd : HllDense r₁ fun i => (hllRaise vs u).getD i 0 :=
      ⟨hd₁.length, fun i hi' => by rw [hllRaise, getD_set_eq _ (by rw [h.length]; exact hi)]; exact hd₁.get i hi'⟩
    obtain ⟨o₂, r₂, rs, ho₂, hr₂, h₂, hd₂⟩ := ih h₁ hd fun w hw => hus w (.tail _ hw)
    refine ⟨o₂, r₂, (if vs.getD u.1 0 < u.2 then 1 else 0) :: rs, ?_, ?_, h₂, hd₂⟩
    · have hs : (hllMachine junk maxBytes).step u o = _ := ho₁
      simp [Machine.run, hs, ho₂]
    · have hs : hllDenseMachine.step u r = _ := hr₁
      simp [Machine.run, hs, hr₂]

theorem mapM_eq_some_map {f : Nat → Option Nat} {g : Nat → Nat} :
    ∀ {l : List Nat}, (∀ i ∈ l, f i = some (g i)) → l.mapM f = some (l.map g)
  | [], _ => rfl
  | i :: l, h => by
    rw [mapM_cons, h i (.head _), mapM_eq_some_map fun j hj => h j (.tail _ hj)]
    rfl

theorem HllDense.mapM {r : List UInt8} (h : HllDense r fun i => vs.getD i 0) (hlen : vs.length = hllRegisters) :
    (range hllRegisters).mapM (hllDenseGetRegister r) = some vs := by
  rw [mapM_eq_some_map fun i hi => h.get i (mem_range.1 hi)]
  refine congrArg some (ext_getElem ?_ fun i h1 h2 => ?_)
  · rw [length_map, length_range, hlen]
  · rw [getElem_map, getElem_range, getD_eq_getElem _ _ h2]

theorem HllObject.Holds.decode (h : o.Holds vs) : o.decode = some vs := by
  rcases h with ⟨ops, h, rfl⟩ | ⟨hdense, hlen, h⟩
  · rw [HllObject.decode, h.encoding]
    simp [h.registers, hllSparseValues_bytes, h.count]
  · rw [HllObject.decode, hdense]
    exact h.mapM hlen

theorem HllObject.Holds.promoted (h : o.Holds vs) :
    ∃ o', hllSparseToDense o = some (o', true) ∧ o'.encoding = .dense ∧ o'.decode = some vs := by
  rcases h with ⟨ops, h, rfl⟩ | ⟨hdense, hlen, h⟩
  · obtain ⟨r, hr, hd⟩ := hllSparseToDense_spec h
    exact ⟨_, hr, rfl, hd.mapM h.count⟩
  · refine ⟨o, by rw [hllSparseToDense, if_pos hdense], hdense, ?_⟩
    rw [HllObject.decode, hdense]
    exact h.mapM hlen

/-- After any updates of a new HLL the object, promoted or not, has the maxima of the updates, as an HLL
that was dense from the start; it can be promoted without loss, and the next update raises a register or
returns 0. -/
theorem hll_sparse_refines_dense (junk : Nat → UInt8) (maxBytes : Nat) (us : List (Nat × Nat))
    (hus : ∀ u ∈ us, u.1 < hllRegisters ∧ 1 ≤ u.2 ∧ u.2 ≤ 51) :
    ∃ o r rs, (hllMachine junk maxBytes).run us createHLLObject = some (o, rs) ∧
      hllDenseMachine.run us hllDenseMachine.init = some (r, rs) ∧
      o.decode = some ((List.range hllRegisters).map (hllMax us)) ∧
      (List.range hllRegisters).mapM (hllDenseGetRegister r) = some ((List.range hllRegisters).map (hllMax us)) ∧
      (∃ o', hllSparseToDense o = some (o', true) ∧ o'.encoding = .dense ∧ o'.decode = o.decode) ∧
      ∀ index count, index < hllRegisters → 1 ≤ count → count ≤ 51 →
        ∃ o', hllSet junk maxBytes (index, count) o = some (o', if hllMax us index < count then 1 else 0) := by
  have hzero : ∀ i, (replicate hllRegisters 0).getD i 0 = 0 := fun i => getD_append_zeros [] hllRegisters i
  have hinit : createHLLObject.Holds (replicate hllRegisters 0) :=
    .inl ⟨_, createHLLObject_sparse, append_nil _⟩
  have hdense : HllDense hllDenseMachine.init fun i => (replicate hllRegisters 0).getD i 0 :=
    ⟨hllDense_zero.length, fun i hi => by rw [hzero]; exact hllDense_zero.get i hi⟩
  obtain ⟨o, r, rs, ho, hr, h, hd⟩ := hll_run_spec junk maxBytes us hinit hdense hus
  rw [foldl_hllRaise_zero us fun u hu => (hus u hu).1] at h hd
  have hdec := h.decode
  refine ⟨o, r, rs, ho, hr, hdec, hd.mapM h.length, hdec ▸ h.promoted, fun index count hi hc hc' => ?_⟩
  obtain ⟨o', ho', -⟩ := hllSet_spec junk maxBytes h hi hc (by omega)
  refine ⟨o', ho'.trans ?_⟩
  rw [getD_eq_getElem _ _ (by rw [h.length]; exact hi), getElem_map, getElem_range]

/-- Two updates that end in merged opcodes, one that promotes the object and one that changes nothing. -/
theorem hll_sparse_refines_dense_promoted :
    ∃ o r rs, (hllMachine (fun _ => 7) 3000).run [(4, 5), (5, 5), (4, 40), (5, 2)] createHLLObject = some (o, rs) ∧
      hllDenseMachine.run [(4, 5), (5, 5), (4, 40), (5, 2)] hllDenseMachine.init = some (r, rs) ∧
      o.decode = some ((List.range hllRegisters).map (hllMax [(4, 5), (5, 5), (4, 40), (5, 2)])) ∧
      (List.range hllRegisters).mapM (hllDenseGetRegister r) =
        some ((List.range hllRegisters).map (hllMax [(4, 5), (5, 5), (4, 40), (5, 2)])) ∧
      (∃ o', hllSparseToDense o = some (o', true) ∧ o'.encoding = .dense ∧ o'.decode = o.decode) ∧
      ∀ index count, index < hllRegisters → 1 ≤ count → count ≤ 51 →
        ∃ o', hllSet (fun _ => 7) 3000 (index, count) o =
          some (o', if hllMax [(4, 5), (5, 5), (4, 40), (5, 2)] index < count then 1 else 0) :=
  hll_sparse_refines_dense _ _ _ (by decide)

example : ((hllMachine (fun _ => 7) 3000).run [(4, 5), (5, 5)] createHLLObject).map (fun p => p.1.registers) =
    some [0x03, 0x91, 0x7f, 0xf9, 0] := by decide

end Redis
