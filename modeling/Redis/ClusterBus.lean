import Mathlib.Algebra.Order.Ring.Int

/-!
# Cluster bus: the length checks on a packet (`cluster.c`)

`clusterReadHandler` collects `totlen` bytes and calls `clusterProcessPacket`, which compares
`totlen` with the length that the header fields ask for, kept in a `uint32_t`.
-/

namespace Redis.ClusterBus

/-- The receive buffer of a link and the memory behind it. -/
structure Rcvbuf where
  mem : Nat → UInt8
  len : Nat

namespace Rcvbuf
variable (b : Rcvbuf)

def ntohs (i : Nat) : Nat := (b.mem i).toNat * 256 + (b.mem (i + 1)).toNat

def ntohl (i : Nat) : Nat := b.ntohs i * 65536 + b.ntohs (i + 2)

def totlen : Nat := b.ntohl 4
def ver : Nat := b.ntohs 8
def type : Nat := b.ntohs 12
def count : Nat := b.ntohs 14

/-- The offset of `data` in `clusterMsg`. -/
def minLen : Nat := 2256

/-- `clusterReadHandler` hands over the buffer when it holds a whole packet. -/
def complete : Bool :=
  [b.mem 0, b.mem 1, b.mem 2, b.mem 3] == [82, 67, 109, 98] && minLen ≤ b.totlen && b.len == b.totlen

-- the fields of `data.publish.msg` and `data.module.msg`
def channelLen : Nat := b.ntohl minLen
def messageLen : Nat := b.ntohl (minLen + 4)
def moduleLen : Nat := b.ntohl (minLen + 8)

/-- The sums are formed in `size_t` and stored in a `uint32_t`; `none` for a type that is not checked. -/
def explen : Option UInt32 :=
  match b.type with
  | 0 | 1 | 2 => some (.ofNat minLen + .ofNat (104 * b.count))
  | 3 => some (.ofNat minLen + 40)
  | 4 => some (.ofNat minLen + .ofNat (16 - 8 + b.channelLen + b.messageLen))
  | 5 | 6 | 8 => some (.ofNat minLen)
  | 7 => some (.ofNat minLen + 2096)
  | 9 => some (.ofNat minLen + .ofNat (16 - 3 + b.moduleLen))
  | _ => none

/-- `clusterProcessPacket` goes on to use the packet. -/
def lengthChecks : Bool :=
  !(b.totlen < 16) && !(b.len < b.totlen) && b.ver == 1 && b.explen.all (·.toNat == b.totlen)

/-- Where the part of variable size ends: `count` gossip entries of 104 bytes, the channel and the
message from `bulk_data` at 8, the payload from `bulk_data` at 13. -/
def variableEnd : Option Nat :=
  match b.type with
  | 0 | 1 | 2 => some (minLen + 104 * b.count)
  | 4 => some (minLen + 8 + b.channelLen + b.messageLen)
  | 9 => some (minLen + 13 + b.moduleLen)
  | _ => none

theorem ntohs_lt (i : Nat) : b.ntohs i < 65536 := by
  have h₁ := (b.mem i).toNat_lt
  have h₂ := (b.mem (i + 1)).toNat_lt
  unfold ntohs
  omega

theorem explen_of_variableEnd {b : Rcvbuf} {e : Nat} (h : b.variableEnd = some e) :
    b.explen.map UInt32.toNat = some (e % 2 ^ 32) := by
  unfold variableEnd at h
  unfold explen
  split at h <;> cases h <;> simp [*, minLen] <;> omega

/-- The parts of variable size end inside the packet iff the sum of their lengths is not cut. -/
theorem variable_parts_inside {b : Rcvbuf} {e : Nat} (hc : b.lengthChecks) (he : b.variableEnd = some e) :
    b.totlen ≤ b.len ∧ (e ≤ b.totlen ↔ (b.type = 4 ∨ b.type = 9 → e < 2 ^ 32)) := by
  have hlt : (b.type = 4 ∨ b.type = 9 → e < 2 ^ 32) → e < 2 ^ 32 := by
    intro hw
    have := b.ntohs_lt 14
    unfold variableEnd at he
    split at he
    case h_4 ht => exact hw (.inl ht)
    case h_5 ht => exact hw (.inr ht)
    all_goals simp [minLen, count] at he <;> omega
  obtain ⟨x, hx, hxe⟩ := Option.map_eq_some_iff.1 (explen_of_variableEnd he)
  simp [lengthChecks, hx] at hc
  refine ⟨hc.1.1.2, fun hle _ => ?_, fun hw => ?_⟩
  · have := x.toNat_lt
    omega
  · rw [Nat.mod_eq_of_lt (hlt hw)] at hxe
    omega

end Rcvbuf

/-- A packet with the given bytes up to `count`, zeros in the rest of the header, and `data`. -/
def packet (head data : List UInt8) (len : Nat) : Rcvbuf where
  mem i := if i < Rcvbuf.minLen then head.getD i 0 else data.getD (i - Rcvbuf.minLen) 0
  len := len

theorem variable_parts_inside_publish :
    let b := packet [82, 67, 109, 98, 0, 0, 8, 218, 0, 1, 0, 0, 0, 4] [0, 0, 0, 1, 0, 0, 0, 1, 97, 98] 2266
    b.totlen ≤ b.len ∧ (2266 ≤ b.totlen ↔ (b.type = 4 ∨ b.type = 9 → 2266 < 2 ^ 32)) :=
  Rcvbuf.variable_parts_inside (by decide) (by decide)

/-- Lengths of `2 ^ 31` each cancel out in the sum: a channel of 2 GiB is taken from an empty payload. -/
theorem publish_length_wraps :
    let b := packet [82, 67, 109, 98, 0, 0, 8, 216, 0, 1, 0, 0, 0, 4] [128, 0, 0, 0, 128, 0, 0, 0] 2264
    b.complete ∧ b.lengthChecks ∧ b.channelLen = 2 ^ 31 ∧ b.variableEnd = some (b.totlen + 2 ^ 32) := by
  decide

end Redis.ClusterBus
