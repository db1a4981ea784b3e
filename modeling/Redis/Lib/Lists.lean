import Mathlib.Data.Finset.Card
import Mathlib.Data.List.Basic
import Mathlib.Data.List.Perm.Basic

/-! # Lists read at one place

`l[i]? = some a` cuts `l` into what stands before and after `a`; `set` and `modify` at `i` act on
the middle. In a list in order, a predicate that holds at first splits it. Two majorities of a list meet. -/

namespace List
variable {α : Type}

theorem exists_split_of_getElem? {l : List α} {i : Nat} {a : α} (h : l[i]? = some a) :
    ∃ A B, l = A ++ a :: B ∧ A.length = i ∧ (∀ b, l.set i b = A ++ b :: B) ∧
      ∀ f : α → α, l.modify i f = A ++ f a :: B := by
  obtain ⟨hi, ha⟩ := List.getElem?_eq_some_iff.1 h
  have hl : l = l.take i ++ a :: l.drop (i + 1) := by
    rw [← ha, ← List.drop_eq_getElem_cons hi, List.take_append_drop]
  have hlen : (l.take i).length = i := by rw [List.length_take]; omega
  refine ⟨l.take i, l.drop (i + 1), hl, hlen, fun b => ?_, fun f => ?_⟩
  · rw [List.set_eq_take_append_cons_drop, if_pos hi]
  · rw [List.modify_eq_take_cons_drop hi, ha]

theorem getElem?_of_split {A B : List α} {a : α} : (A ++ a :: B)[A.length]? = some a := by simp

theorem getElem?_split_ne {A B : List α} {a b : α} {j : Nat} (hj : j ≠ A.length) :
    (A ++ a :: B)[j]? = (A ++ b :: B)[j]? := by
  rcases Nat.lt_or_gt_of_ne hj with h | h
  · rw [List.getElem?_append_left h, List.getElem?_append_left h]
  · rw [List.getElem?_append_right h.le, List.getElem?_append_right h.le]
    obtain ⟨k, hk⟩ : ∃ k, j - A.length = k + 1 := ⟨j - A.length - 1, by omega⟩
    simp [hk]

theorem insertIdx_eq_take_drop {a : α} :
    ∀ (l : List α) (i : Nat), i ≤ l.length → l.insertIdx i a = l.take i ++ a :: l.drop i
  | l, 0, _ => by simp
  | [], i + 1, h => by simp at h
  | x :: l, i + 1, h => by
    rw [List.insertIdx_succ_cons, insertIdx_eq_take_drop l i (Nat.le_of_succ_le_succ h)]
    rfl

section pairwise
variable {R : α → α → Prop} {p : α → Bool} {l : List α}

theorem takeWhile_eq_filter_of_pairwise (hl : l.Pairwise R) (hp : ∀ a b, R a b → p b = true → p a = true) :
    l.takeWhile p = l.filter p := by
  induction l with
  | nil => rfl
  | cons a l ih =>
    obtain ⟨ha, hl⟩ := List.pairwise_cons.1 hl
    rw [List.takeWhile_cons, List.filter_cons]
    split
    · rw [ih hl]
    next hpa => exact (List.filter_eq_nil_iff.2 fun b hb hpb => hpa (hp a b (ha b hb) hpb)).symm

theorem filter_append_filter_of_pairwise (hl : l.Pairwise R) (hp : ∀ a b, R a b → p b = true → p a = true) :
    l.filter p ++ l.filter (fun a => !p a) = l := by
  induction l with
  | nil => rfl
  | cons a l ih =>
    obtain ⟨ha, hl'⟩ := List.pairwise_cons.1 hl
    cases hpa : p a with
    | true => simp [hpa, ih hl']
    | false =>
      have hnone : ∀ b ∈ l, p b = false := fun b hb => by
        by_contra hpb
        rw [hp a b (ha b hb) (by simpa using hpb)] at hpa
        cases hpa
      rw [List.filter_cons, List.filter_cons, hpa, List.filter_eq_nil_iff.2 (by simpa using hnone),
        List.filter_eq_self.2 (by simpa using hnone)]
      simp

theorem findIdx_split (hl : l.Pairwise R) (hp : ∀ a b, R a b → p a = true → p b = true) :
    (∀ a ∈ l.take (l.findIdx p), p a = false) ∧ ∀ a ∈ l.drop (l.findIdx p), p a = true := by
  induction l with
  | nil => exact ⟨forall_mem_nil _, forall_mem_nil _⟩
  | cons a l ih =>
    obtain ⟨ha, hl⟩ := List.pairwise_cons.1 hl
    rw [List.findIdx_cons]
    cases hpa : p a with
    | true => exact ⟨forall_mem_nil _, List.forall_mem_cons.2 ⟨hpa, fun b hb => hp a b (ha b hb) hpa⟩⟩
    | false => exact ⟨List.forall_mem_cons.2 ⟨hpa, (ih hl).1⟩, (ih hl).2⟩

end pairwise

theorem exists_common_of_majorities [DecidableEq α] {M P Q : List α} (hP : P.Nodup) (hQ : Q.Nodup)
    (hPM : ∀ v ∈ P, v ∈ M) (hQM : ∀ v ∈ Q, v ∈ M) (hP' : M.length / 2 + 1 ≤ P.length)
    (hQ' : M.length / 2 + 1 ≤ Q.length) : ∃ v, v ∈ P ∧ v ∈ Q := by
  by_contra hno
  have hdisj := (Finset.disjoint_left).2 fun v hv hv' =>
    hno ⟨v, List.mem_toFinset.1 hv, List.mem_toFinset.1 hv'⟩
  have hsub : P.toFinset ∪ Q.toFinset ⊆ M.toFinset := by
    intro v hv
    rw [Finset.mem_union, List.mem_toFinset, List.mem_toFinset] at hv
    exact List.mem_toFinset.2 (hv.elim (hPM v) (hQM v))
  have hcard := (Finset.card_le_card hsub).trans (List.toFinset_card_le M)
  rw [Finset.card_union_of_disjoint hdisj, List.toFinset_card_of_nodup hP, List.toFinset_card_of_nodup hQ] at hcard
  omega

end List
