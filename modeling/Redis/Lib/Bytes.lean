import Mathlib.Data.Nat.Bitwise
import Mathlib.Algebra.Order.Ring.Int

/-! # Byte buffers

Buffers are lists of bytes. `memmove` and `memcpy` return `none` outside the buffer, `realloc` fills
what it adds with arbitrary bytes `junk`. `leVal` and `leBytes` are the little-endian reads and
writes that C spells out byte by byte. -/

namespace Redis
open List

def memmove (buf : List UInt8) (dst src n : Nat) : Option (List UInt8) :=
  if src + n ≤ buf.length ∧ dst + n ≤ buf.length then
    some (buf.take dst ++ ((buf.drop src).take n ++ buf.drop (dst + n)))
  else none

def memcpy (buf : List UInt8) (dst : Nat) (bs : List UInt8) : Option (List UInt8) :=
  if dst + bs.length ≤ buf.length then some (buf.take dst ++ (bs ++ buf.drop (dst + bs.length))) else none

def realloc (junk : Nat → UInt8) (buf : List UInt8) (n : Nat) : List UInt8 :=
  buf.take n ++ (List.range (n - buf.length)).map junk

def leVal : List UInt8 → Nat
  | [] => 0
  | b :: bs => b.toNat ||| (leVal bs <<< 8)

def leBytes : Nat → Nat → List UInt8
  | 0, _ => []
  | n + 1, v => UInt8.ofNat (v &&& 0xff) :: leBytes n (v >>> 8)

theorem or_shiftLeft_eq_add {x y k : Nat} (hx : x < 2 ^ k) : x ||| (y <<< k) = x + y * 2 ^ k := by
  rw [Nat.or_comm, ← Nat.shiftLeft_add_eq_or_of_lt hx, Nat.shiftLeft_eq, add_comm]

theorem leVal_cons (b : UInt8) (bs : List UInt8) : leVal (b :: bs) = b.toNat + leVal bs * 256 := by
  exact or_shiftLeft_eq_add (show b.toNat < 2 ^ 8 from b.toNat_lt)

theorem leVal_lt : ∀ bs : List UInt8, leVal bs < 256 ^ bs.length
  | [] => by simp [leVal]
  | b :: bs => by
    rw [leVal_cons, length_cons, pow_succ]
    have := b.toNat_lt
    have := leVal_lt bs
    omega

@[simp] theorem leBytes_length : ∀ n v : Nat, (leBytes n v).length = n
  | 0, _ => rfl
  | n + 1, v => by rw [leBytes, length_cons, leBytes_length n]

theorem leVal_leBytes : ∀ n v : Nat, leVal (leBytes n v) = v % 256 ^ n
  | 0, v => by rw [leBytes, leVal, Nat.pow_zero, Nat.mod_one]
  | n + 1, v => by
    have hb : v &&& 0xff = v % 256 := Nat.and_two_pow_sub_one_eq_mod v 8
    have hs : v >>> 8 = v / 256 := Nat.shiftRight_eq_div_pow v 8
    have hu : (UInt8.ofNat (v % 256)).toNat = v % 256 := by simp
    rw [leBytes, leVal_cons, leVal_leBytes n, hb, hs, hu, pow_succ, mul_comm (256 ^ n), Nat.mod_mul,
      mul_comm 256]

theorem leVal_leBytes_of_lt {n v : Nat} (h : v < 256 ^ n) : leVal (leBytes n v) = v := by
  rw [leVal_leBytes, Nat.mod_eq_of_lt h]

theorem memcpy_middle {P X S bs : List UInt8} (h : bs.length ≤ X.length) :
    memcpy (P ++ (X ++ S)) P.length bs = some (P ++ (bs ++ (X.drop bs.length ++ S))) := by
  rw [memcpy, if_pos (by rw [length_append, length_append]; omega), take_left,
    ← drop_drop, drop_left, drop_append_of_le_length h]

theorem memcpy_exact (P S : List UInt8) {X B : List UInt8} (h : B.length = X.length) :
    memcpy (P ++ (X ++ S)) P.length B = some (P ++ (B ++ S)) := by
  rw [memcpy_middle h.le, h, drop_length, nil_append]

theorem memmove_middle {P B Q : List UInt8} (dst : Nat) (h : dst + B.length ≤ (P ++ (B ++ Q)).length) :
    memmove (P ++ (B ++ Q)) dst P.length B.length =
      some ((P ++ (B ++ Q)).take dst ++ (B ++ (P ++ (B ++ Q)).drop (dst + B.length))) := by
  have hsrc : P.length + B.length ≤ (P ++ (B ++ Q)).length := by
    simp only [length_append]
    omega
  rw [memmove, if_pos ⟨hsrc, h⟩, drop_left, take_left]

section
variable {buf : List UInt8} {n : Nat} (junk : Nat → UInt8)

@[simp] theorem realloc_length : (realloc junk buf n).length = n := by
  rw [realloc, length_append, length_take, length_map, length_range]
  omega

theorem take_realloc {k : Nat} (hk : k ≤ n) (hb : k ≤ buf.length) : (realloc junk buf n).take k = buf.take k := by
  rw [realloc, take_append_of_le_length (by rw [length_take]; omega), take_take,
    min_eq_left hk]

theorem take_drop_realloc {k m : Nat} (hk : m + k ≤ n) (hb : m + k ≤ buf.length) :
    ((realloc junk buf n).drop m).take k = (buf.drop m).take k := by
  have h := take_realloc junk hk hb
  rw [take_drop, take_drop, h]

end

end Redis
