import Mathlib.Logic.Function.Basic

/-! # A heap of records

Records of one type, reached through addresses. An address is never handed out twice, so that a use
of a freed record is always seen. -/

namespace Redis

/-- The cells from `next` on were never allocated. -/
structure Heap (α : Type) where
  next : Nat
  cell : Nat → Option α
  fresh : ∀ a, next ≤ a → cell a = none

namespace Heap
variable {α : Type}

def empty : Heap α := ⟨0, fun _ => none, fun _ _ => rfl⟩

def alloc (h : Heap α) (v : α) : Heap α × Nat :=
  ⟨⟨h.next + 1, Function.update h.cell h.next (some v), fun a ha => by
    rw [Function.update_of_ne (by omega)]
    exact h.fresh a (by omega)⟩, h.next⟩

def modify (h : Heap α) (a : Nat) (f : α → α) : Option (Heap α) :=
  match hc : h.cell a with
  | none => none
  | some v => some ⟨h.next, Function.update h.cell a (some (f v)), fun b hb => by
      rw [Function.update_of_ne]
      · exact h.fresh b hb
      · rintro rfl
        rw [h.fresh b hb] at hc
        cases hc⟩

def free (h : Heap α) (a : Nat) : Option (Heap α) :=
  match h.cell a with
  | none => none
  | some _ => some ⟨h.next, Function.update h.cell a none, fun b hb => by
      by_cases hba : b = a
      · rw [hba, Function.update_self]
      · rw [Function.update_of_ne hba, h.fresh b hb]⟩

variable {h h' : Heap α} {a : Nat} {v : α} {f : α → α}

theorem cell_next (h : Heap α) : h.cell h.next = none := h.fresh _ (Nat.le_refl _)

@[simp] theorem alloc_cell : (h.alloc v).1.cell = Function.update h.cell h.next (some v) := rfl

theorem ne_next (hv : h.cell a = some v) : a ≠ h.next := by
  rintro rfl
  rw [h.cell_next] at hv
  cases hv

theorem modify_of_some (hv : h.cell a = some v) :
    ∃ h', h.modify a f = some h' ∧ h'.cell = Function.update h.cell a (some (f v)) := by
  unfold modify
  split
  next hc =>
    rw [hc] at hv
    cases hv
  next w hc =>
    rw [hc] at hv
    cases hv
    exact ⟨_, rfl, rfl⟩

theorem free_of_some (hv : h.cell a = some v) : ∃ h', h.free a = some h' ∧ h'.cell = Function.update h.cell a none := by
  unfold free
  split
  next hc =>
    rw [hc] at hv
    cases hv
  · exact ⟨_, rfl, rfl⟩

end Heap
end Redis
