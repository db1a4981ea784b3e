import Mathlib.Data.List.Basic

/-! # Doubly linked lists in memory

Cells with `prev` and `next` pointers live in a memory indexed by addresses; a freed or never
allocated address holds nothing. `Linked m p ns n` reads the addressed contents `ns` off the memory
as a segment that hangs between the pointers `p` and `n`. The lemmas below say what one store does
to a segment; a list operation is a few stores at the seam of two segments. -/

namespace Redis
open List Option

structure DCell (β : Type) where
  prev : Option Nat
  next : Option Nat
  data : β

abbrev DMem (β : Type) := Nat → Option (DCell β)

variable {β : Type}

namespace DMem

def set (m : DMem β) (i : Nat) (c : Option (DCell β)) : DMem β := fun j => if j = i then c else m j

/-- Change the cell behind a pointer; following a null or dangling pointer is a fault. -/
def modify (m : DMem β) (i : Option Nat) (f : DCell β → DCell β) : Option (DMem β) :=
  match i with
  | none => none
  | some a => (m a).map fun c => m.set a (some (f c))

def setPrev (m : DMem β) (i p : Option Nat) : Option (DMem β) := m.modify i fun c => { c with prev := p }

def setNext (m : DMem β) (i n : Option Nat) : Option (DMem β) := m.modify i fun c => { c with next := n }

@[simp] theorem set_same (m : DMem β) (i : Nat) (c : Option (DCell β)) : m.set i c i = c := if_pos rfl

theorem set_ne (m : DMem β) {i j : Nat} (c : Option (DCell β)) (h : j ≠ i) : m.set i c j = m j := if_neg h

section
variable {m : DMem β} {a : Nat} {c : DCell β} (f : DCell β → DCell β) (h : m a = some c)
include h

theorem modify_some : m.modify (some a) f = some (m.set a (some (f c))) := by simp [modify, h]

theorem modify_spec : ∃ m', m.modify (some a) f = some m' ∧ m' a = some (f c) ∧ ∀ b, b ≠ a → m' b = m b :=
  ⟨_, modify_some f h, set_same .., fun _ hb => set_ne _ _ hb⟩

end

/-- The stores that put the cell at `j` after `old`. -/
def linkAfter (m : DMem β) (old : Option Nat) (j : Nat) : Option (DMem β) := do
  let m ← m.setPrev (some j) old
  match old with
  | none => some m
  | some o => do
    let c ← m o
    let m ← m.setNext (some j) c.next
    let m ← (if c.next = none then some m else m.setPrev c.next (some j))
    m.setNext (some o) (some j)

/-- The stores that put the cell at `j` before `old`. -/
def linkBefore (m : DMem β) (old : Option Nat) (j : Nat) : Option (DMem β) := do
  let m ← m.setNext (some j) old
  match old with
  | none => some m
  | some o => do
    let c ← m o
    let m ← m.setPrev (some j) c.prev
    let m ← (if c.prev = none then some m else m.setNext c.prev (some j))
    m.setPrev (some o) (some j)

/-- The stores that take the cell `c` out of its list. -/
def unlink (m : DMem β) (c : DCell β) : Option (DMem β) := do
  let m ← (if c.next = none then some m else m.setPrev c.next c.prev)
  if c.prev = none then some m else m.setNext c.prev c.next

end DMem

/-- The address of the first cell of a segment, or the pointer behind the segment. -/
def headPtr (ns : List (Nat × β)) (n : Option Nat) : Option Nat :=
  match ns with
  | [] => n
  | x :: _ => some x.1

/-- The address of the last cell of a segment, or the pointer before the segment. -/
def lastPtr (p : Option Nat) : List (Nat × β) → Option Nat
  | [] => p
  | x :: ns => lastPtr (some x.1) ns

/-- The addressed contents `ns` form a segment of a doubly linked list. -/
def Linked (m : DMem β) : Option Nat → List (Nat × β) → Option Nat → Prop
  | _, [], _ => True
  | p, x :: ns, n => m x.1 = some ⟨p, headPtr ns n, x.2⟩ ∧ Linked m (some x.1) ns n

section pointers
variable {L R : List (Nat × β)} {p n : Option Nat} {x : Nat × β}

@[simp] theorem headPtr_nil : headPtr ([] : List (Nat × β)) n = n := rfl

@[simp] theorem headPtr_cons : headPtr (x :: L) n = some x.1 := rfl

@[simp] theorem lastPtr_nil : lastPtr p ([] : List (Nat × β)) = p := rfl

@[simp] theorem lastPtr_cons : lastPtr p (x :: L) = lastPtr (some x.1) L := rfl

@[simp] theorem headPtr_append : headPtr (L ++ R) n = headPtr L (headPtr R n) := by
  cases L <;> rfl

@[simp] theorem lastPtr_append : lastPtr p (L ++ R) = lastPtr (lastPtr p L) R := by
  induction L generalizing p with
  | nil => rfl
  | cons y L ih => exact ih

theorem exists_headPtr (h : L ≠ []) : ∃ i ∈ L.map Prod.fst, ∀ n, headPtr L n = some i := by
  obtain ⟨y, L', rfl⟩ := exists_cons_of_ne_nil h
  exact ⟨y.1, by simp, fun _ => rfl⟩

theorem exists_lastPtr (h : L ≠ []) : ∃ i ∈ L.map Prod.fst, ∀ p, lastPtr p L = some i := by
  rcases eq_nil_or_concat' L with rfl | ⟨A, y, rfl⟩
  · exact absurd rfl h
  · exact ⟨y.1, by simp, fun _ => by simp⟩

theorem lastPtr_concat : lastPtr p (L ++ [x]) = some x.1 := by simp

theorem headPtr_congr {L' : List (Nat × β)} (h : L.map Prod.fst = L'.map Prod.fst) : headPtr L n = headPtr L' n := by
  cases L <;> cases L' <;> simp_all

theorem lastPtr_congr : ∀ {L L' : List (Nat × β)} {p : Option Nat},
    L.map Prod.fst = L'.map Prod.fst → lastPtr p L = lastPtr p L'
  | [], [], _, _ => rfl
  | [], _ :: _, _, h => by simp at h
  | _ :: _, [], _, h => by simp at h
  | y :: L, z :: L', p, h => by
    simp only [map_cons, List.cons.injEq] at h
    rw [lastPtr_cons, lastPtr_cons, h.1]
    exact lastPtr_congr h.2

end pointers

namespace Linked
variable {m m' : DMem β} {L R : List (Nat × β)} {p n : Option Nat} {i : Nat} {x y : β}

theorem append : Linked m p (L ++ R) n ↔ Linked m p L (headPtr R n) ∧ Linked m (lastPtr p L) R n := by
  induction L generalizing p with
  | nil => simp [Linked]
  | cons a L ih => simp [Linked, ih, and_assoc]

theorem middle : Linked m p (L ++ (i, x) :: R) n ↔
    Linked m p L (some i) ∧ m i = some ⟨lastPtr p L, headPtr R n, x⟩ ∧ Linked m (some i) R n := by
  rw [append]; rfl

theorem frame (h : Linked m p L n) (hm : ∀ a ∈ L.map Prod.fst, m' a = m a) : Linked m' p L n := by
  induction L generalizing p with
  | nil => trivial
  | cons a L ih =>
    simp only [map_cons, mem_cons, forall_eq_or_imp] at hm
    exact ⟨hm.1.trans h.1, ih h.2 hm.2⟩

theorem set_frame {c : Option (DCell β)} (h : Linked m p L n) (hi : i ∉ L.map Prod.fst) : Linked (m.set i c) p L n :=
  h.frame fun _ ha => DMem.set_ne m c fun he => hi (he ▸ ha)

theorem set_data (h : Linked m p (L ++ (i, x) :: R) n) (hd : ((L ++ (i, x) :: R).map Prod.fst).Nodup) :
    Linked (m.set i (some ⟨lastPtr p L, headPtr R n, y⟩)) p (L ++ (i, y) :: R) n := by
  obtain ⟨hL, -, hR⟩ := middle.1 h
  simp only [map_append, map_cons, nodup_append, nodup_cons, mem_cons] at hd
  refine middle.2 ⟨hL.set_frame fun hi => hd.2.2 i hi i (.inl rfl) rfl, ?_, hR.set_frame hd.2.1.1⟩
  exact DMem.set_same ..

end Linked

/-! ### Seams -/

/-- Redirect the pointer out of the front of the segment `R` to `p`. -/
def relinkHead (m : DMem β) (R : List (Nat × β)) (n p : Option Nat) : DMem β :=
  match R with
  | [] => m
  | x :: R => m.set x.1 (some ⟨p, headPtr R n, x.2⟩)

/-- Redirect the pointer out of the end of the segment `L` to `n`. -/
def relinkLast (m : DMem β) (p : Option Nat) (L : List (Nat × β)) (n : Option Nat) : DMem β :=
  match L.getLast? with
  | none => m
  | some x => m.set x.1 (some ⟨lastPtr p L.dropLast, n, x.2⟩)

section seams
variable {m : DMem β} {L R : List (Nat × β)} {p n : Option Nat} {i : Nat}

theorem relinkHead_of_notMem {p' : Option Nat} (hi : i ∉ R.map Prod.fst) : relinkHead m R n p' i = m i := by
  cases R with
  | nil => rfl
  | cons x R => exact DMem.set_ne _ _ fun he => hi (by simp [he])

theorem relinkLast_of_notMem {n' : Option Nat} (hi : i ∉ L.map Prod.fst) : relinkLast m p L n' i = m i := by
  unfold relinkLast
  cases hx : L.getLast? with
  | none => rfl
  | some x => exact DMem.set_ne _ _ fun he => hi (List.mem_map.2 ⟨x, mem_of_getLast? hx, he.symm⟩)

theorem Linked.headRelinked (h : Linked m p R n) (hd : (R.map Prod.fst).Nodup) (p' : Option Nat) :
    Linked (relinkHead m R n p') p' R n := by
  cases R with
  | nil => trivial
  | cons x R => exact ⟨DMem.set_same .., h.2.set_frame (nodup_cons.1 hd).1⟩

theorem Linked.lastRelinked (h : Linked m p L n) (hd : (L.map Prod.fst).Nodup) (n' : Option Nat) :
    Linked (relinkLast m p L n') p L n' := by
  rcases eq_nil_or_concat' L with rfl | ⟨A, x, rfl⟩
  · trivial
  unfold relinkLast
  rw [getLast?_concat]
  simp only [dropLast_concat]
  simp only [map_append, map_cons, map_nil, nodup_append] at hd
  obtain ⟨hA, -, -⟩ := Linked.middle.1 h
  refine Linked.middle.2 ⟨hA.set_frame fun hi => hd.2.2 x.1 hi x.1 (by simp) rfl, DMem.set_same .., trivial⟩

theorem Linked.setPrev_headPtr (h : Linked m p R none) (p' : Option Nat) :
    (if headPtr R none = none then some m else m.setPrev (headPtr R none) p') = some (relinkHead m R none p') := by
  cases R with
  | nil => rfl
  | cons x R =>
    rw [headPtr_cons, DMem.setPrev, DMem.modify_some _ h.1]
    rfl

theorem Linked.setNext_lastPtr (h : Linked m none L n) (n' : Option Nat) :
    (if lastPtr none L = none then some m else m.setNext (lastPtr none L) n') = some (relinkLast m none L n') := by
  rcases eq_nil_or_concat' L with rfl | ⟨A, x, rfl⟩
  · rfl
  obtain ⟨-, hx, -⟩ := Linked.middle.1 h
  rw [lastPtr_concat, if_neg (by simp), DMem.setNext, DMem.modify_some _ hx, relinkLast,
    getLast?_concat]
  simp

end seams

/-! ### Insertion and removal -/

section operations
variable {m : DMem β} {A B : List (Nat × β)} {i j : Nat} {x y : β} {p n : Option Nat}

section
variable (h : Linked m none (A ++ (i, x) :: B) none) (hd : ((A ++ (i, x) :: B).map Prod.fst).Nodup)
include h hd

theorem Linked.linkAfter (hj : m j = some ⟨p, n, y⟩) (hnj : j ∉ (A ++ (i, x) :: B).map Prod.fst) :
    ∃ m', m.linkAfter (some i) j = some m' ∧ Linked m' none (A ++ (i, x) :: (j, y) :: B) none := by
  obtain ⟨hA, hi, hB⟩ := Linked.middle.1 h
  simp only [map_append, map_cons, mem_append, mem_cons, not_or, nodup_append,
    nodup_cons] at hd hnj
  obtain ⟨hdA, ⟨hiB, hdB⟩, hAB⟩ := hd
  obtain ⟨hjA, hji, hjB⟩ := hnj
  obtain ⟨m₁, e₁, hj₁, f₁⟩ := DMem.modify_spec (fun c => { c with prev := some i }) hj
  obtain ⟨m₂, e₂, hj₂, f₂⟩ := DMem.modify_spec (fun c => { c with next := headPtr B none }) hj₁
  have hi₁ : m₁ i = _ := (f₁ i (Ne.symm hji)).trans hi
  have hB₂ : Linked m₂ (some i) B none := hB.frame fun a ha => by
    have : a ≠ j := fun he => hjB (he ▸ ha)
    rw [f₂ a this, f₁ a this]
  have hi₃ : relinkHead m₂ B none (some j) i = some ⟨lastPtr none A, headPtr B none, x⟩ := by
    rw [relinkHead_of_notMem hiB, f₂ i (Ne.symm hji)]; exact hi₁
  obtain ⟨m₄, e₄, hi₄, f₄⟩ := DMem.modify_spec (fun c => { c with next := some j }) hi₃
  refine ⟨m₄, ?_, Linked.middle.2 ⟨hA.frame fun a ha => ?_, hi₄, ?_, ?_⟩⟩
  · have e₃ := hB₂.setPrev_headPtr (some j)
    unfold DMem.linkAfter
    simp only [bind_eq_bind, bind_some, show m.setPrev (some j) (some i) = some m₁ from e₁, hi₁,
      show m₁.setNext (some j) (headPtr B none) = some m₂ from e₂, e₃]
    exact e₄
  · have haj : a ≠ j := fun he => hjA (he ▸ ha)
    rw [f₄ a (hAB a ha i (.inl rfl)), relinkHead_of_notMem fun hb => hAB a ha a (.inr hb) rfl, f₂ a haj, f₁ a haj]
  · rw [f₄ j hji, relinkHead_of_notMem hjB]; exact hj₂
  · exact (hB₂.headRelinked hdB (some j)).frame fun a ha => f₄ a fun he => hiB (he ▸ ha)

theorem Linked.linkBefore (hj : m j = some ⟨p, n, y⟩) (hnj : j ∉ (A ++ (i, x) :: B).map Prod.fst) :
    ∃ m', m.linkBefore (some i) j = some m' ∧ Linked m' none (A ++ (j, y) :: (i, x) :: B) none := by
  obtain ⟨hA, hi, hB⟩ := Linked.middle.1 h
  simp only [map_append, map_cons, mem_append, mem_cons, not_or, nodup_append,
    nodup_cons] at hd hnj
  obtain ⟨hdA, ⟨hiB, hdB⟩, hAB⟩ := hd
  obtain ⟨hjA, hji, hjB⟩ := hnj
  have hiA : i ∉ A.map Prod.fst := fun ha => hAB i ha i (.inl rfl) rfl
  obtain ⟨m₁, e₁, hj₁, f₁⟩ := DMem.modify_spec (fun c => { c with next := some i }) hj
  obtain ⟨m₂, e₂, hj₂, f₂⟩ := DMem.modify_spec (fun c => { c with prev := lastPtr none A }) hj₁
  have hi₁ : m₁ i = _ := (f₁ i (Ne.symm hji)).trans hi
  have hA₂ : Linked m₂ none A (some i) := hA.frame fun a ha => by
    have : a ≠ j := fun he => hjA (he ▸ ha)
    rw [f₂ a this, f₁ a this]
  have hi₃ : relinkLast m₂ none A (some j) i = some ⟨lastPtr none A, headPtr B none, x⟩ := by
    rw [relinkLast_of_notMem hiA, f₂ i (Ne.symm hji)]; exact hi₁
  obtain ⟨m₄, e₄, hi₄, f₄⟩ := DMem.modify_spec (fun c => { c with prev := some j }) hi₃
  refine ⟨m₄, ?_, Linked.middle.2 ⟨?_, ?_, hi₄, hB.frame fun a ha => ?_⟩⟩
  · have e₃ := hA₂.setNext_lastPtr (some j)
    unfold DMem.linkBefore
    simp only [bind_eq_bind, bind_some, show m.setNext (some j) (some i) = some m₁ from e₁, hi₁,
      show m₁.setPrev (some j) (lastPtr none A) = some m₂ from e₂, e₃]
    exact e₄
  · exact (hA₂.lastRelinked hdA (some j)).frame fun a ha => f₄ a fun he => hiA (he ▸ ha)
  · rw [f₄ j hji, relinkLast_of_notMem hjA]; exact hj₂
  · have haj : a ≠ j := fun he => hjB (he ▸ ha)
    rw [f₄ a fun he => hiB (he ▸ ha), relinkLast_of_notMem fun hb => hAB a hb a (.inr ha) rfl, f₂ a haj, f₁ a haj]

theorem Linked.unlink :
    ∃ m', m.unlink ⟨lastPtr none A, headPtr B none, x⟩ = some m' ∧ Linked m' none (A ++ B) none := by
  obtain ⟨hA, -, hB⟩ := Linked.middle.1 h
  simp only [map_append, map_cons, nodup_append, nodup_cons, mem_cons] at hd
  obtain ⟨hdA, ⟨-, hdB⟩, hAB⟩ := hd
  have hA₁ : Linked (relinkHead m B none (lastPtr none A)) none A (some i) :=
    hA.frame fun a ha => relinkHead_of_notMem fun hb => hAB a ha a (.inr hb) rfl
  refine ⟨relinkLast (relinkHead m B none (lastPtr none A)) none A (headPtr B none), ?_, Linked.append.2 ⟨?_, ?_⟩⟩
  · unfold DMem.unlink
    rw [hB.setPrev_headPtr, bind_eq_bind]
    exact hA₁.setNext_lastPtr _
  · exact hA₁.lastRelinked hdA _
  · exact (hB.headRelinked hdB _).frame fun a ha => relinkLast_of_notMem fun hb => hAB a hb a (.inr ha) rfl

end

end operations
end Redis
