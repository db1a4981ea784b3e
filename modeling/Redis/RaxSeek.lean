import Mathlib.Order.Bounds.Basic
import Redis.RaxIterStep
import Redis.RaxMap

/-! # Iterators walk the keys in order

`raxCursorSpec` says what an iterator is for: a cursor on a set of keys, that a seek puts on the key its
operator asks for and that a step moves to the neighbouring key in the order of byte strings. The place
where `raxLowWalk` stops divides the entries of the tree at the element that is looked for; from there
`raxIterMachine_simulates` is shown operator by operator. -/

namespace Redis
open List Option RaxFrame
variable {V : Type} {root : RaxNode V}
variable {a b k ele : List UInt8} {e : List UInt8 × Option V} {fs : List (RaxFrame V)} {r : Rax V}
variable {it : RaxIterator V} {op : RaxSeekOp} {f : RaxFrame V} {hdr : RaxHdr V}

/-! ### The cursor -/

/-- The state of a cursor: at the end, on a key it has been put on but not reported, or on the key it
reported last. -/
inductive RaxCursor
  | eof
  | seeked (k : List UInt8)
  | on (k : List UInt8)

/-- The keys an operator admits for the element `e`. -/
def RaxSeekOp.candidates (keys : Set (List UInt8)) (e : List UInt8) : RaxSeekOp → Set (List UInt8)
  | .eq => {k ∈ keys | k = e}
  | .gt => {k ∈ keys | e < k}
  | .ge => {k ∈ keys | e ≤ k}
  | .lt => {k ∈ keys | k < e}
  | .le => {k ∈ keys | k ≤ e}
  | .first | .last => keys

/-- The key an operator denotes: the smallest candidate, or the largest for `<`, `<=` and `$`. -/
def RaxSeekOp.Denotes (keys : Set (List UInt8)) (e k : List UInt8) (op : RaxSeekOp) : Prop :=
  match op with
  | .lt | .le | .last => IsGreatest (op.candidates keys e) k
  | _ => IsLeast (op.candidates keys e) k

/-- What the calls do to a cursor on the set `keys`. -/
def raxCursorSpec (keys : Set (List UInt8)) : Spec RaxIterOp RaxCursor RaxIterReply
  | .seek op e, _, r, c => r = .seeked ∧
    ((∃ k, op.Denotes keys e k ∧ c = .seeked k) ∨ (op.candidates keys e = ∅ ∧ c = .eof))
  | .next, .on k, r, c => (∃ k', IsLeast {k' ∈ keys | k < k'} k' ∧ r = .key k' ∧ c = .on k') ∨
    ({k' ∈ keys | k < k'} = ∅ ∧ r = .eof ∧ c = .eof)
  | .prev, .on k, r, c => (∃ k', IsGreatest {k' ∈ keys | k' < k} k' ∧ r = .key k' ∧ c = .on k') ∨
    ({k' ∈ keys | k' < k} = ∅ ∧ r = .eof ∧ c = .eof)
  | .next, .seeked k, r, c | .prev, .seeked k, r, c => r = .key k ∧ c = .on k
  | .next, .eof, r, c | .prev, .eof, r, c => r = .eof ∧ c = .eof

/-! ### The order of the entries around a place -/

theorem prefix_lt {p : List UInt8} {c : UInt8} (t : List UInt8) : p < p ++ c :: t := by
  have : p ++ [] < p ++ c :: t := append_left_lt (nil_lt_cons c t)
  rwa [append_nil] at this

theorem lt_of_lt_head {p : List UInt8} {c d : UInt8} (h : c < d) : p ++ c :: a < p ++ d :: b :=
  append_left_lt (cons_lt_cons_iff.2 (.inl h))

theorem RaxFrame.path_normal {es : List (UInt8 × RaxNode V)}
    (hnode : f.node = .normal hdr es) (hj : f.idx < es.length) : f.path = [es[f.idx].1] := by
  rw [path, hnode]
  simp [getElem?_eq_getElem hj]

theorem RaxFrame.before_lt (hf : f.WF) (he : e ∈ f.before) (t : List UInt8) : e.1 < f.path ++ t := by
  obtain ⟨k, v⟩ := e
  cases hnode : f.node with
  | normal hdr es =>
    obtain ⟨hj, hsort, -⟩ := hf.normal hdr es hnode
    rw [before, hnode] at he
    rw [path_normal hnode hj]
    rcases mem_append.1 he with he | he
    · obtain ⟨-, rfl, -⟩ := mem_entry.1 he
      exact nil_lt_cons ..
    · obtain ⟨e, he', t', rfl, -⟩ := mem_raxEdgeEntries.1 he
      rw [← take_append_drop f.idx es, drop_eq_getElem_cons hj, pairwise_append] at hsort
      exact cons_lt_cons_iff.2 (.inl (hsort.2.2 e he' _ (.head _)))
  | compr hdr cs n =>
    have hlen := hf.compr hdr cs n hnode
    rw [before, hnode] at he
    rw [path, hnode]
    obtain ⟨-, rfl, -⟩ := mem_entry.1 he
    cases cs with
    | nil => cases hlen
    | cons c cs => exact nil_lt_cons ..

theorem RaxFrame.lt_after (hf : f.WF) (he : e ∈ f.after) (t : List UInt8) : f.path ++ t < e.1 := by
  obtain ⟨k, v⟩ := e
  cases hnode : f.node with
  | normal hdr es =>
    obtain ⟨hj, hsort, -⟩ := hf.normal hdr es hnode
    rw [after, hnode] at he
    rw [path_normal hnode hj]
    obtain ⟨e, he', t', rfl, -⟩ := mem_raxEdgeEntries.1 he
    rw [← take_append_drop f.idx es, drop_eq_getElem_cons hj, pairwise_append,
      pairwise_cons] at hsort
    exact cons_lt_cons_iff.2 (.inl (hsort.2.1.1 e he'))
  | compr hdr cs n =>
    rw [after, hnode] at he
    cases he

theorem raxBefore_lt (hfs : ∀ f ∈ fs, f.WF) (he : e ∈ raxBefore fs) (t : List UInt8) : e.1 < raxPath fs ++ t := by
  induction fs generalizing t with
  | nil => cases he
  | cons f fs ih =>
    rw [raxPath, append_assoc]
    rcases mem_append.1 he with he | he
    · exact ih (fun g hg => hfs g (.tail _ hg)) he _
    · obtain ⟨e', he', rfl⟩ := mem_map.1 he
      exact append_left_lt (before_lt (hfs f (.head _)) he' t)

theorem lt_raxAfter (hfs : ∀ f ∈ fs, f.WF) (he : e ∈ raxAfter fs) (t : List UInt8) : raxPath fs ++ t < e.1 := by
  induction fs generalizing t with
  | nil => cases he
  | cons f fs ih =>
    rw [raxPath, append_assoc]
    rcases mem_append.1 he with he | he
    · obtain ⟨e', he', rfl⟩ := mem_map.1 he
      exact append_left_lt (lt_after (hfs f (.head _)) he' t)
    · exact ih (fun g hg => hfs g (.tail _ hg)) he _

/-! ### The first and the last entry -/

def Rax.keys (r : Rax V) : Set (List UInt8) := {k | raxFind r k ≠ none}

theorem Rax.mem_keys (h : r.head.WF) : k ∈ r.keys ↔ ∃ e ∈ r.head.entries, e.1 = k := by
  change raxFind r k ≠ none ↔ _
  rw [ne_none_iff_exists']
  constructor
  · rintro ⟨v, hv⟩
    exact ⟨(k, v), (raxFind_spec h).1 hv, rfl⟩
  · rintro ⟨⟨k, v⟩, he, rfl⟩
    exact ⟨v, (raxFind_spec h).2 he⟩

/-- The position of an iterator that is not at the end. -/
def RaxIterator.pos? (it : RaxIterator V) : Option (RaxPos V) := if it.eof then none else some it.toRaxPos

open RaxIterator

section
variable {r : Rax V} {L R : List (List UInt8 × Option V)} {P : List UInt8 → Prop}
variable {res : Option (RaxPos V)}

theorem Rax.mem_sep_keys (h : r.head.WF) {M : List (List UInt8 × Option V)} (hL : ∀ e ∈ L, ¬ P e.1)
    (hM : ∀ e ∈ M, P e.1) (hR : ∀ e ∈ R, ¬ P e.1) (heq : r.head.entries = L ++ M ++ R) :
    k ∈ {k ∈ r.keys | P k} ↔ ∃ e ∈ M, e.1 = k := by
  rw [Set.mem_sep_iff, Rax.mem_keys h, heq]
  constructor
  · rintro ⟨⟨e, he, rfl⟩, hP⟩
    rcases mem_append.1 he with he | he
    · rcases mem_append.1 he with he | he
      · exact absurd hP (hL e he)
      · exact ⟨e, he, rfl⟩
    · exact absurd hP (hR e he)
  · rintro ⟨e, he, rfl⟩
    exact ⟨⟨e, mem_append_left _ (mem_append_right _ he), rfl⟩, hM e he⟩

theorem RaxFirst.isLeast (h : r.head.WF) (hL : ∀ e ∈ L, ¬ P e.1) (hR : ∀ e ∈ R, P e.1) (heq : r.head.entries = L ++ R)
    (hres : RaxFirst r.head R res) : (res = none ∧ {k ∈ r.keys | P k} = ∅) ∨
      ∃ q, res = some q ∧ q.At r.head ∧ q.node.hdr.iskey = true ∧ IsLeast {k ∈ r.keys | P k} q.key := by
  have hmem : ∀ k, k ∈ {k ∈ r.keys | P k} ↔ ∃ e ∈ R, e.1 = k :=
    fun _ => Rax.mem_sep_keys (R := []) h hL hR (by simp) (by rw [append_nil, heq])
  cases res with
  | none =>
    refine .inl ⟨rfl, Set.eq_empty_of_forall_notMem fun k hk => ?_⟩
    obtain ⟨e, he, -⟩ := (hmem k).1 hk
    rw [show R = [] from hres] at he
    cases he
  | some q =>
    obtain ⟨hat, hkey, hR'⟩ := hres
    refine .inr ⟨q, rfl, hat, hkey, (hmem _).2 ⟨_, hR' ▸ mem_cons_self .., rfl⟩, fun k hk => ?_⟩
    obtain ⟨e, he, rfl⟩ := (hmem k).1 hk
    have hs := h.sorted
    rw [heq, hR', pairwise_append, pairwise_cons] at hs
    rw [hR'] at he
    rcases mem_cons.1 he with rfl | he
    · exact List.le_refl _
    · exact List.le_of_lt (hs.2.1.1 e he)

theorem RaxLast.isGreatest (h : r.head.WF) (hL : ∀ e ∈ L, P e.1) (hR : ∀ e ∈ R, ¬ P e.1)
    (heq : r.head.entries = L ++ R) (hres : RaxLast r.head L res) : (res = none ∧ {k ∈ r.keys | P k} = ∅) ∨
      ∃ q, res = some q ∧ q.At r.head ∧ q.node.hdr.iskey = true ∧ IsGreatest {k ∈ r.keys | P k} q.key := by
  have hmem : ∀ k, k ∈ {k ∈ r.keys | P k} ↔ ∃ e ∈ L, e.1 = k :=
    fun _ => Rax.mem_sep_keys (L := []) h (by simp) hL hR heq
  cases res with
  | none =>
    refine .inl ⟨rfl, Set.eq_empty_of_forall_notMem fun k hk => ?_⟩
    obtain ⟨e, he, -⟩ := (hmem k).1 hk
    rw [show L = [] from hres] at he
    cases he
  | some q =>
    obtain ⟨hat, hkey, hL'⟩ := hres
    refine .inr ⟨q, rfl, hat, hkey, (hmem _).2 ⟨_, hL' ▸ mem_append_right _ (mem_singleton_self _), rfl⟩,
      fun k hk => ?_⟩
    obtain ⟨e, he, rfl⟩ := (hmem k).1 hk
    have hs := h.sorted
    rw [heq, hL', pairwise_append, pairwise_append] at hs
    rw [hL'] at he
    rcases mem_append.1 he with he | he
    · exact List.le_of_lt (hs.1.2.2 e he _ (mem_singleton_self _))
    · rw [mem_singleton.1 he]
      exact List.le_refl _

end

/-! ### Steps -/

theorem pos_moved (h : it.eof = false) (res : Option (RaxPos V)) : (it.moved res).pos? = res := by
  cases res with
  | none => rfl
  | some q => rw [moved, pos?, h, if_neg Bool.false_ne_true]

theorem justSeeked_moved (it : RaxIterator V) (res : Option (RaxPos V)) :
    (it.moved res).justSeeked = it.justSeeked := by
  cases res <;> rfl

section
variable {r : Rax V} {it : RaxIterator V} {noup : Bool} {L : List (List UInt8 × Option V)}

theorem raxIteratorNextStep_first (heof : it.eof = false) (hjust : it.justSeeked = false)
    (h : ∃ res, raxNextLoop (r.head.count + 1) it.toRaxPos noup = some res ∧ RaxFirst r.head L res) :
    ∃ it', raxIteratorNextStep r it noup = some it' ∧ it'.justSeeked = false ∧ RaxFirst r.head L it'.pos? := by
  obtain ⟨res, heq, hres⟩ := h
  refine ⟨it.moved res, ?_, by rw [justSeeked_moved, hjust], by rwa [pos_moved heof]⟩
  rw [raxIteratorNextStep, heof, hjust, if_neg Bool.false_ne_true, if_neg Bool.false_ne_true, heq, map_some]

theorem raxIteratorPrevStep_last (heof : it.eof = false) (hjust : it.justSeeked = false)
    (h : ∃ res, raxPrevLoop (r.head.count + 1) it.toRaxPos noup = some res ∧ RaxLast r.head L res) :
    ∃ it', raxIteratorPrevStep r it noup = some it' ∧ it'.justSeeked = false ∧ RaxLast r.head L it'.pos? := by
  obtain ⟨res, heq, hres⟩ := h
  refine ⟨it.moved res, ?_, by rw [justSeeked_moved, hjust], by rwa [pos_moved heof]⟩
  rw [raxIteratorPrevStep, heof, hjust, if_neg Bool.false_ne_true, if_neg Bool.false_ne_true, heq, map_some]

end

/-! ### Seeking -/

/-- The entries divided at an element: smaller keys, the element itself, larger keys. -/
structure RaxDivided (root : RaxNode V) (ele : List UInt8) (L E R : List (List UInt8 × Option V)) : Prop where
  entries : root.entries = L ++ E ++ R
  lt : ∀ e ∈ L, e.1 < ele
  eq : ∀ e ∈ E, e.1 = ele
  gt : ∀ e ∈ R, ele < e.1

section
variable {n : RaxNode V} {ts : List (RaxFrame V)} {t : List UInt8} {L E R : List (List UInt8 × Option V)}

theorem RaxDivided.not_gt (h : RaxDivided root ele L E R) : ∀ e ∈ L ++ E, ¬ ele < e.1 := by
  intro e he
  rcases mem_append.1 he with he | he
  · exact List.not_lt.2 (List.le_of_lt (h.lt e he))
  · rw [h.eq e he]
    exact List.lt_irrefl _

theorem RaxDivided.not_lt (h : RaxDivided root ele L E R) : ∀ e ∈ E ++ R, ¬ e.1 < ele := by
  intro e he
  rcases mem_append.1 he with he | he
  · rw [h.eq e he]
    exact List.lt_irrefl _
  · exact List.not_lt.2 (List.le_of_lt (h.gt e he))

theorem RaxPlace.divided (hplace : RaxPlace root n ts) (hroot : root.WF)
    (hent : n.entries = L ++ E ++ R) (hlt : ∀ e ∈ L, e.1 < t) (heq : ∀ e ∈ E, e.1 = t) (hgt : ∀ e ∈ R, t < e.1) :
    RaxDivided root (raxPath ts ++ t) (raxBefore ts ++ L.map (raxUnder (raxPath ts)))
      (E.map (raxUnder (raxPath ts))) (R.map (raxUnder (raxPath ts)) ++ raxAfter ts) := by
  obtain ⟨hplug, hfs, -⟩ := hplace.spec hroot
  refine ⟨?_, ?_, ?_, ?_⟩
  · rw [← hplug, entries_plug hfs, hent]
    simp
  · intro e he
    rcases mem_append.1 he with he | he
    · exact raxBefore_lt hfs he t
    · obtain ⟨e', he', rfl⟩ := mem_map.1 he
      exact append_left_lt (hlt e' he')
  · intro e he
    obtain ⟨e', he', rfl⟩ := mem_map.1 he
    rw [raxUnder, heq e' he']
  · intro e he
    rcases mem_append.1 he with he | he
    · obtain ⟨e', he', rfl⟩ := mem_map.1 he
      exact append_left_lt (hgt e' he')
    · exact lt_raxAfter hfs he t

theorem eq_nil_of_mem_entry {e : List UInt8 × Option V} (h : e ∈ hdr.entry) : e.1 = [] :=
  (mem_entry.1 h).2.1

theorem nil_lt_of_ne_nil {k : List UInt8} (h : k ≠ []) : [] < k := by
  obtain ⟨c, k, rfl⟩ := exists_cons_of_ne_nil h
  exact nil_lt_cons ..

section
variable (hplace : RaxPlace root n ts) (hroot : root.WF)
include hplace hroot

theorem RaxPlace.divided_here : RaxDivided root (raxPath ts ++ []) (raxBefore ts) (RaxPos.own ⟨n, ts, raxPath ts⟩)
      (RaxPos.rest ⟨n, ts, raxPath ts⟩) := by
  have hwf := (hplace.spec hroot).2.2.1
  have := hplace.divided hroot (entries_eq n) (fun _ he => absurd he not_mem_nil)
    (fun _ he => eq_nil_of_mem_entry he) fun _ he => nil_lt_of_ne_nil (hwf.ne_nil_of_mem_subEntries he)
  rwa [map_nil, append_nil (raxBefore ts)] at this

theorem RaxPlace.divided_above (ht : t ≠ []) (hsub : ∀ e ∈ n.subEntries, t < e.1) :
    RaxDivided root (raxPath ts ++ t) (raxBefore ts ++ RaxPos.own ⟨n, ts, raxPath ts⟩) []
      (RaxPos.rest ⟨n, ts, raxPath ts⟩) := by
  refine hplace.divided hroot ?_ (fun e he => ?_) (fun _ he => absurd he not_mem_nil)
    hsub
  · rw [append_nil, entries_eq]
  · rw [eq_nil_of_mem_entry he]
    exact nil_lt_of_ne_nil ht

theorem RaxPlace.divided_below (ht : t ≠ []) (hsub : ∀ e ∈ n.subEntries, e.1 < t) :
    RaxDivided root (raxPath ts ++ t) (raxBefore ts ++ n.entries.map (raxUnder (raxPath ts))) [] (raxAfter ts) := by
  refine hplace.divided hroot ?_ (fun e he => ?_)
    (fun _ he => absurd he not_mem_nil) fun _ he => absurd he not_mem_nil
  · rw [append_nil, append_nil]
  rw [entries_eq] at he
  rcases mem_append.1 he with he | he
  · rw [eq_nil_of_mem_entry he]
    exact nil_lt_of_ne_nil ht
  · exact hsub e he

end

theorem RaxPlace.divided_edge {es : List (UInt8 × RaxNode V)} {c : UInt8} {i : Nat} (s : List UInt8)
    (hplace : RaxPlace root (.normal hdr es) ts) (hroot : root.WF) (htake : ∀ e ∈ es.take i, e.1 < c)
    (hdrop : ∀ e ∈ es.drop i, c < e.1) : RaxDivided root (raxPath ts ++ c :: s)
      (raxBefore ts ++ (hdr.entry ++ raxEdgeEntries (es.take i)).map (raxUnder (raxPath ts))) []
      ((raxEdgeEntries (es.drop i)).map (raxUnder (raxPath ts)) ++ raxAfter ts) := by
  refine hplace.divided hroot ?_ ?_ (fun _ he => absurd he not_mem_nil) ?_
  · rw [append_nil, entries_normal, append_assoc, ← raxEdgeEntries_append, take_append_drop]
  · rintro ⟨k, v⟩ he
    rcases mem_append.1 he with he | he
    · rw [eq_nil_of_mem_entry he]
      exact nil_lt_cons ..
    · obtain ⟨e, he', t', rfl, -⟩ := mem_raxEdgeEntries.1 he
      exact cons_lt_cons_iff.2 (.inl (htake e he'))
  · rintro ⟨k, v⟩ he
    obtain ⟨e, he', t', rfl, -⟩ := mem_raxEdgeEntries.1 he
    exact cons_lt_cons_iff.2 (.inl (hdrop e he'))

end

/-! ### Keys below a compressed node -/

section
variable {hdr : RaxHdr V} {cs s : List UInt8} {child : RaxNode V} {j : Nat} {c d : UInt8}
  {e : List UInt8 × Option V}

theorem chars_split (h : cs[j]? = some d) : cs = cs.take j ++ d :: cs.drop (j + 1) := by
  obtain ⟨hj, rfl⟩ := List.getElem?_eq_some_iff.1 h
  rw [← drop_eq_getElem_cons hj, take_append_drop]

theorem exists_of_mem_compr (h : cs[j]? = some d) (he : e ∈ (RaxNode.compr hdr cs child).subEntries) :
    ∃ t, e.1 = cs.take j ++ d :: t := by
  obtain ⟨e', -, rfl⟩ := mem_map.1 he
  refine ⟨cs.drop (j + 1) ++ e'.1, ?_⟩
  rw [raxUnder]
  conv_lhs => rw [chars_split h]
  simp

theorem take_lt_of_mem_compr (hlen : j < cs.length) (he : e ∈ (RaxNode.compr hdr cs child).subEntries) :
    cs.take j < e.1 := by
  obtain ⟨t, ht⟩ := exists_of_mem_compr (getElem?_eq_getElem hlen) he
  rw [ht]
  exact prefix_lt t

theorem lt_of_mem_compr (h : cs[j]? = some d) (hcd : c < d) (he : e ∈ (RaxNode.compr hdr cs child).subEntries) :
    cs.take j ++ c :: s < e.1 := by
  obtain ⟨t, ht⟩ := exists_of_mem_compr h he
  rw [ht]
  exact lt_of_lt_head hcd

theorem mem_compr_lt (h : cs[j]? = some d) (hcd : d < c) (he : e ∈ (RaxNode.compr hdr cs child).subEntries) :
    e.1 < cs.take j ++ c :: s := by
  obtain ⟨t, ht⟩ := exists_of_mem_compr h he
  rw [ht]
  exact lt_of_lt_head hcd

end

section
variable (h : r.head.WF) {w : RaxWalk V} (hw : w.Stops r.head ele) (heof : it.eof = false)
include h hw heof

theorem raxSeekStep_gt (hop : op.isgt = true) : ∃ L E R it', RaxDivided r.head ele L E R ∧
      raxSeekStep r { it with node := w.node, stack := w.stack } op w = some it' ∧ it'.justSeeked = false ∧
      RaxFirst r.head R it'.pos? := by
  have hlt : op.islt = false := by
    cases op <;> first | rfl | cases hop
  obtain ⟨rest, n, j, ts⟩ := w
  obtain ⟨hplace, t, rfl, hstop⟩ := hw
  dsimp only at hplace hstop ⊢
  have hstep : ∀ {key noup R}, (∃ res, raxNextLoop (r.head.count + 1) ⟨n, ts, key⟩ noup = some res ∧
      RaxFirst r.head R res) →
      ∃ it', raxIteratorNextStep r { it with node := n, stack := ts, key := key, justSeeked := false } noup = some it' ∧
        it'.justSeeked = false ∧ RaxFirst r.head R it'.pos? :=
    fun hloop => raxIteratorNextStep_first heof rfl hloop
  obtain ⟨it₀, hit₀⟩ := hstep (raxNextLoop_spec h (p := ⟨n, ts, raxPath ts⟩) ⟨hplace, rfl⟩)
  cases hstop with
  | exact =>
    rw [raxSeekStep]
    simp only [hlt, Bool.false_eq_true, and_false, if_false, hop, if_true]
    exact ⟨_, _, _, it₀, hplace.divided_here h, hit₀⟩
  | inside hdr cs child j hj hlen =>
    rw [raxSeekStep]
    simp only [hlt, Bool.false_eq_true, and_false, if_false, hop, if_true]
    refine ⟨_, _, _, it₀, hplace.divided_above h ?_ fun e he => take_lt_of_mem_compr hlen he, hit₀⟩
    exact ne_nil_of_length_pos (by rw [length_take]; omega)
  | split hdr cs child j d c s hget hdc =>
    rw [raxSeekStep]
    simp only [hget, hop, if_true]
    by_cases hcd : c < d
    · rw [if_pos hcd]
      exact ⟨_, _, _, it₀, hplace.divided_above h (by simp) fun e he => lt_of_mem_compr hget hcd he, hit₀⟩
    rw [if_neg hcd]
    have hdc' : d < c := UInt8.lt_of_le_of_ne (UInt8.not_lt.1 hcd) hdc
    obtain ⟨it', hit'⟩ := hstep (raxNextLoop_chain h hplace)
    exact ⟨_, _, _, it', hplace.divided_below h (by simp) fun e he => mem_compr_lt hget hdc' he, hit'⟩
  | miss hdr es c s hmiss =>
    rw [raxSeekStep]
    simp only [hlt, Bool.false_eq_true, if_false]
    obtain ⟨i, htake, hdrop, hloop⟩ := raxNextLoop_edge h hplace c
    obtain ⟨it', hit'⟩ := hstep hloop
    have htake' : ∀ e ∈ es.take i, e.1 < c := fun e he =>
      UInt8.lt_of_le_of_ne (UInt8.not_lt.1 (htake e he)) (hmiss e (mem_of_mem_take he))
    exact ⟨_, _, _, it', hplace.divided_edge s h htake' hdrop, hit'⟩

theorem raxSeekStep_lt (hop : op.islt = true) : ∃ L E R it', RaxDivided r.head ele L E R ∧
      raxSeekStep r { it with node := w.node, stack := w.stack } op w = some it' ∧ it'.justSeeked = false ∧
      RaxLast r.head L it'.pos? := by
  have hgt : op.isgt = false := by
    cases op <;> first | rfl | cases hop
  obtain ⟨rest, n, j, ts⟩ := w
  obtain ⟨hplace, t, rfl, hstop⟩ := hw
  have hdepth := raxPlace_depth hplace h
  have hstep : ∀ {key noup L}, (∃ res, raxPrevLoop (r.head.count + 1) ⟨n, ts, key⟩ noup = some res ∧
      RaxLast r.head L res) →
      ∃ it', raxIteratorPrevStep r { it with node := n, stack := ts, key := key, justSeeked := false } noup = some it' ∧
        it'.justSeeked = false ∧ RaxLast r.head L it'.pos? :=
    fun hloop => raxIteratorPrevStep_last heof rfl hloop
  obtain ⟨it₀, hit₀⟩ := hstep (raxPrevLoop_spec h hplace (r.head.count + 1) (by omega))
  cases hstop with
  | exact =>
    rw [raxSeekStep]
    simp only [hgt, ne_eq, not_true_eq_false, false_and, and_false, Bool.false_eq_true, if_false]
    exact ⟨_, _, _, it₀, hplace.divided_here h, hit₀⟩
  | inside hdr cs child j hj hlen =>
    have hdiv := hplace.divided_above h (ne_nil_of_length_pos (by rw [length_take]; omega))
      fun e he => take_lt_of_mem_compr hlen he
    rw [raxSeekStep]
    cases hk : hdr.iskey with
    | true =>
      simp only [RaxNode.iscompr, RaxNode.hdr, hk, hop, ne_eq, Nat.ne_of_gt hj, not_false_eq_true, and_self, if_true]
      refine ⟨_, _, _, _, hdiv, rfl, rfl, ?_⟩
      have hat : RaxPos.At ⟨.compr hdr cs child, ts, raxPath ts⟩ r.head := ⟨hplace, rfl⟩
      rw [pos?]
      rw [heof, RaxPos.own_of_iskey hat hk]
      exact ⟨hat, hk, rfl⟩
    | false =>
      simp only [RaxNode.hdr, hk, hgt, Bool.false_eq_true, false_and, and_false, if_false]
      refine ⟨_, _, _, it₀, hdiv, ?_⟩
      rw [RaxPos.own_of_not_iskey (p := ⟨.compr hdr cs child, ts, raxPath ts⟩) hk, append_nil]
      exact hit₀
  | split hdr cs child j d c s hget hdc =>
    rw [raxSeekStep]
    simp only [hget, hgt, Bool.false_eq_true, if_false]
    by_cases hcd : d < c
    · rw [if_pos hcd]
      have hg := raxSeekGreatest_spec (hplace.spec h).2.2.1 hplace
      have hkey := hg.iskey trivial
      refine ⟨_, _, _, _, hplace.divided_below h (by simp) fun e he => mem_compr_lt hget hcd he, rfl, rfl, ?_⟩
      rw [pos?]
      rw [heof]
      refine ⟨hg.at_root, hkey, ?_⟩
      rw [hg.entries, RaxPos.own_of_iskey hg.at_root hkey]
    · rw [if_neg hcd]
      have hcd' : c < d := UInt8.lt_of_le_of_ne (UInt8.not_lt.1 hcd) (Ne.symm hdc)
      obtain ⟨it', hit'⟩ := hstep (raxPrevLoop_chain h hplace)
      exact ⟨_, _, _, it', hplace.divided_above h (by simp) fun e he => lt_of_mem_compr hget hcd' he, hit'⟩
  | miss hdr es c s hmiss =>
    rw [raxSeekStep]
    simp only [hop, if_true]
    obtain ⟨i, htake, hdrop, hloop⟩ := raxPrevLoop_edge h hplace c
    obtain ⟨it', hit'⟩ := hstep hloop
    have hdrop' : ∀ e ∈ es.drop i, c < e.1 := fun e he =>
      UInt8.lt_of_le_of_ne (UInt8.not_lt.1 (hdrop e he)) (Ne.symm (hmiss e (mem_of_mem_drop he)))
    exact ⟨_, _, _, it', hplace.divided_edge s h htake hdrop', hit'⟩

end

/-- What a seek leaves: the iterator is on the key the operator denotes, or at the end if there is no
such key. -/
structure RaxSeeked (r : Rax V) (op : RaxSeekOp) (ele : List UInt8) (it : RaxIterator V) : Prop where
  justSeeked : it.justSeeked = true
  denotes : (it.pos? = none ∧ op.candidates r.keys ele = ∅) ∨
    ∃ q, it.pos? = some q ∧ q.At r.head ∧ q.node.hdr.iskey = true ∧ op.Denotes r.keys ele q.key

theorem pos_of_eof (h : it.eof = false) : it.pos? = some it.toRaxPos := by
  rw [pos?, h, if_neg Bool.false_ne_true]

theorem raxSeekEle_spec (h : r.head.WF) (heof : it.eof = false) (hjust : it.justSeeked = true)
    (hop : op ≠ .first ∧ op ≠ .last) (ele : List UInt8) :
    ∃ it', raxSeekEle r it op ele = some it' ∧ RaxSeeked r op ele it' := by
  have hw := raxLowWalk_spec h ele
  unfold raxSeekEle
  generalize raxLowWalk r ele = w at hw
  dsimp only
  split
  · -- the element is there
    rename_i hfound
    obtain ⟨hiseq, hrest, hsplit, hkey⟩ := hfound
    obtain ⟨hplace, t, rfl, hstop⟩ := hw
    have ht : t = [] := by
      rcases hstop.node_or_absent with ⟨ht, -⟩ | ⟨h' | h', -⟩
      · exact ht
      · exact absurd hrest h'
      rcases hsplit with h'' | h''
      · rw [h''] at h'
        cases h'.1
      · exact absurd h'' h'.2
    subst ht
    have hat : RaxPos.At ⟨w.node, w.stack, raxPath w.stack ++ []⟩ r.head := ⟨hplace, append_nil _⟩
    have hmem : raxPath w.stack ++ [] ∈ r.keys := by
      refine (Rax.mem_keys h).2 ⟨(raxPath w.stack ++ [], raxGetData w.node.hdr), ?_, rfl⟩
      rw [hat.entries h, RaxPos.own_of_iskey hat hkey]
      exact mem_append_left _ (mem_append_right _ (mem_singleton_self _))
    refine ⟨_, rfl, hjust, .inr ⟨_, pos_of_eof heof, hat, hkey, ?_⟩⟩
    cases op with
    | eq => exact ⟨⟨hmem, rfl⟩, fun k hk => hk.2 ▸ List.le_refl _⟩
    | ge | le => exact ⟨⟨hmem, List.le_refl _⟩, fun k hk => hk.2⟩
    | _ => cases hiseq
  next hnot =>
    -- with `eq` in the operator, the element is not a key
    have habs : op.iseq = true → ∀ v, (ele, v) ∉ r.head.entries := by
      intro hiseq v hv
      obtain ⟨hplace, t, rfl, hstop⟩ := hw
      obtain ⟨hplug, hfs, hwf, -⟩ := hplace.spec h
      rw [← hplug, mem_entries_plug hfs] at hv
      rcases hstop.node_or_absent with ⟨rfl, hrest, hj⟩ | ⟨-, hnone⟩
      · exact hnot ⟨hiseq, hrest, .inr hj, ((mem_entries_nil hwf).1 hv).1⟩
      · exact hnone v hv
    have hE : ∀ {L E R}, RaxDivided r.head ele L E R → op.iseq = true → E = [] := by
      intro L E R hdiv hiseq
      refine eq_nil_iff_forall_not_mem.2 fun e he => habs hiseq e.2 ?_
      rw [← hdiv.eq e he, hdiv.entries]
      exact mem_append_left _ (mem_append_right _ he)
    split
    next hstep =>
      rcases hstep with hlt | hgt
      · obtain ⟨L, E, R, it', hdiv, heq, -, hlast⟩ := raxSeekStep_lt h hw heof hlt
        refine ⟨{ it' with justSeeked := true }, by rw [heq, map_some], rfl, ?_⟩
        cases op with
        | lt => exact hlast.isGreatest h hdiv.lt hdiv.not_lt (by rw [hdiv.entries, append_assoc])
        | le =>
          obtain rfl := hE hdiv rfl
          refine hlast.isGreatest (R := R) h (fun e he => List.le_of_lt (hdiv.lt e he)) (fun e he => ?_)
            (by rw [hdiv.entries, append_nil])
          exact fun hle => hle (hdiv.gt e he)
        | _ => cases hlt
      · obtain ⟨L, E, R, it', hdiv, heq, -, hfirst⟩ := raxSeekStep_gt h hw heof hgt
        refine ⟨{ it' with justSeeked := true }, by rw [heq, map_some], rfl, ?_⟩
        cases op with
        | gt => exact hfirst.isLeast h hdiv.not_gt hdiv.gt hdiv.entries
        | ge =>
          obtain rfl := hE hdiv rfl
          refine hfirst.isLeast h (fun e he => ?_) (fun e he => List.le_of_lt (hdiv.gt e he))
            (by rw [hdiv.entries, append_nil])
          exact fun hle => hle (hdiv.lt e he)
        | _ => cases hgt
    next hstep =>
      refine ⟨_, rfl, hjust, .inl ⟨rfl, ?_⟩⟩
      cases op with
      | eq =>
        refine Set.eq_empty_of_forall_notMem fun k hk => ?_
        obtain ⟨e, he, hek⟩ := (Rax.mem_keys h).1 hk.1
        exact habs rfl e.2 (hk.2 ▸ hek ▸ he)
      | gt | ge => exact absurd (.inr rfl) hstep
      | lt | le => exact absurd (.inl rfl) hstep
      | first => exact absurd rfl hop.1
      | last => exact absurd rfl hop.2

theorem RaxSeekOp.candidates_subset (op : RaxSeekOp) (keys : Set (List UInt8)) (e : List UInt8) :
    op.candidates keys e ⊆ keys := by
  cases op with
  | first | last => exact fun k hk => hk
  | _ => exact fun k hk => hk.1

theorem live_of_entries {n : RaxNode V} (h : n.entries ≠ []) : n.Live := by
  rcases n with ⟨hdr, _ | ⟨e, es⟩⟩ | ⟨hdr, cs, child⟩
  · cases hk : hdr.iskey with
    | true => exact hk
    | false =>
      rw [entries_normal, entry_of_not_iskey hk] at h
      exact absurd rfl h
  · trivial
  · trivial

theorem raxSeek_spec (h : r.Inv) (it : RaxIterator V) (op : RaxSeekOp) (ele : List UInt8) :
    ∃ it', raxSeek r it op ele = some it' ∧ RaxSeeked r op ele it' := by
  unfold raxSeek
  by_cases hele : r.numele = 0
  · rw [if_pos hele]
    rw [h.numele] at hele
    refine ⟨_, rfl, rfl, .inl ⟨rfl, Set.eq_empty_of_forall_notMem fun k hk => ?_⟩⟩
    obtain ⟨e, he, -⟩ := (Rax.mem_keys h.wf).1 (op.candidates_subset r.keys ele hk)
    rw [length_eq_zero_iff.1 hele] at he
    cases he
  · rw [if_neg hele]
    cases op with
    | first =>
      obtain ⟨it', heq, hjust, hden⟩ : ∃ it', raxSeekEle r
          { it with stack := [], justSeeked := true, eof := false, key := [] } .ge [] = some it' ∧
          RaxSeeked r .ge [] it' := raxSeekEle_spec h.wf rfl rfl ⟨by simp, by simp⟩ []
      have hall : RaxSeekOp.candidates r.keys [] .ge = r.keys := by
        ext k
        exact ⟨fun hk => hk.1, fun hk => ⟨hk, nil_le k⟩⟩
      refine ⟨it', heq, hjust, ?_⟩
      rcases hden with ⟨hp, hc⟩ | ⟨q, hp, hat, hkey, hd⟩
      · exact .inl ⟨hp, hall ▸ hc⟩
      · exact .inr ⟨q, hp, hat, hkey, hall ▸ hd⟩
    | last =>
      have hent : r.head.entries ≠ [] := fun h0 => hele (by rw [h.numele, h0]; rfl)
      have hg : RaxGreatest r.head r.head [] (raxSeekGreatest r.head [] []) := raxSeekGreatest_spec h.wf .head
      have hkey := hg.iskey (live_of_entries hent)
      have hlast : RaxLast r.head r.head.entries (some (raxSeekGreatest r.head [] [])) := by
        refine ⟨hg.at_root, hkey, ?_⟩
        rw [← RaxPos.own_of_iskey hg.at_root hkey]
        have := hg.entries
        rw [raxPath, map_raxUnder_nil] at this
        exact this
      rw [if_pos hkey]
      refine ⟨_, rfl, rfl, ?_⟩
      rcases hlast.isGreatest (P := fun _ => True) h.wf (fun _ _ => trivial)
        (fun _ he => absurd he not_mem_nil) (append_nil _).symm with ⟨hq, -⟩ | ⟨q, hq, hat, hkey', hgr⟩
      · cases hq
      · rw [Set.sep_true] at hgr
        exact .inr ⟨q, hq, hat, hkey', hgr⟩
    | _ => exact raxSeekEle_spec h.wf rfl rfl ⟨by simp, by simp⟩ ele

/-! ### The calls -/

def RaxIterator.Shows (root : RaxNode V) (it : RaxIterator V) : RaxCursor → Prop
  | .eof => it.eof = true
  | .seeked k => it.eof = false ∧ it.justSeeked = true ∧ it.toRaxPos.At root ∧ it.node.hdr.iskey = true ∧ it.key = k
  | .on k => it.eof = false ∧ it.justSeeked = false ∧ it.toRaxPos.At root ∧ it.node.hdr.iskey = true ∧ it.key = k

theorem eof_of_pos (h : it.pos? = none) : it.eof = true := by
  cases heof : it.eof with
  | true => rfl
  | false =>
    rw [pos_of_eof heof] at h
    cases h

theorem pos_eq_some {q : RaxPos V} (h : it.pos? = some q) : it.eof = false ∧ it.toRaxPos = q := by
  cases heof : it.eof with
  | true =>
    rw [pos?, if_pos heof] at h
    cases h
  | false =>
    rw [pos_of_eof heof] at h
    exact ⟨rfl, some.inj h⟩

theorem raxNext_on (h : r.head.WF) (hit : it.Shows r.head (.on k)) : ∃ it', raxIteratorNextStep r it false = some it' ∧
      ((it'.Shows r.head .eof ∧ {k' ∈ r.keys | k < k'} = ∅) ∨
        ∃ k', it'.Shows r.head (.on k') ∧ IsLeast {k' ∈ r.keys | k < k'} k') := by
  obtain ⟨heof, hjust, hat, hkey, rfl⟩ := hit
  obtain ⟨it', heq, hjust', hfirst⟩ := raxIteratorNextStep_first heof hjust (raxNextLoop_spec h hat)
  have hdiv := hat.place.divided_here h
  rw [append_nil, ← hat.key] at hdiv
  refine ⟨it', heq, ?_⟩
  rcases hfirst.isLeast h hdiv.not_gt hdiv.gt hdiv.entries with ⟨hp, hempty⟩ | ⟨q, hp, hat', hkey', hleast⟩
  · exact .inl ⟨eof_of_pos hp, hempty⟩
  · obtain ⟨heof', rfl⟩ := pos_eq_some hp
    exact .inr ⟨_, ⟨heof', hjust', hat', hkey', rfl⟩, hleast⟩

theorem raxPrev_on (h : r.head.WF) (hit : it.Shows r.head (.on k)) : ∃ it', raxIteratorPrevStep r it false = some it' ∧
      ((it'.Shows r.head .eof ∧ {k' ∈ r.keys | k' < k} = ∅) ∨
        ∃ k', it'.Shows r.head (.on k') ∧ IsGreatest {k' ∈ r.keys | k' < k} k') := by
  obtain ⟨heof, hjust, hat, hkey, rfl⟩ := hit
  have hdepth := raxPlace_depth hat.place h
  obtain ⟨res, hloop, hres⟩ := raxPrevLoop_spec h hat.place (r.head.count + 1) (by omega)
  rw [← hat.key] at hloop
  obtain ⟨it', heq, hjust', hlast⟩ := raxIteratorPrevStep_last heof hjust ⟨res, hloop, hres⟩
  have hdiv := hat.place.divided_here h
  rw [append_nil, ← hat.key] at hdiv
  refine ⟨it', heq, ?_⟩
  rcases hlast.isGreatest (P := (· < it.key)) h hdiv.lt hdiv.not_lt (by rw [hdiv.entries, append_assoc]) with
    ⟨hp, hempty⟩ | ⟨q, hp, hat', hkey', hgreatest⟩
  · exact .inl ⟨eof_of_pos hp, hempty⟩
  · obtain ⟨heof', rfl⟩ := pos_eq_some hp
    exact .inr ⟨_, ⟨heof', hjust', hat', hkey', rfl⟩, hgreatest⟩

theorem reply_of_eof (h : it.eof = true) : it.reply = .eof := by
  rw [reply, if_pos h]

theorem reply_of_on (h : it.Shows root (.on k)) : it.reply = .key k := by
  rw [reply, h.1, if_neg Bool.false_ne_true, h.2.2.2.2]

-- the first two branches of a step are the same in both directions
theorem step_of_seeked {found : Option (RaxIterator V)} (h : it.Shows root (.seeked k)) :
    (if it.eof then some it else if it.justSeeked then some { it with justSeeked := false } else found) =
        some { it with justSeeked := false } ∧
      RaxIterator.Shows root { it with justSeeked := false } (.on k) := by
  obtain ⟨heof, hjust, hat⟩ := h
  refine ⟨?_, heof, rfl, hat⟩
  rw [heof, if_neg Bool.false_ne_true, if_pos hjust]

theorem raxIterMachine_simulates (h : r.Inv) :
    (raxIterMachine r).Simulates (raxCursorSpec r.keys) (fun _ _ => True) (RaxIterator.Shows r.head) := by
  rintro op it c hit -
  cases op with
  | seek op ele =>
    obtain ⟨it', heq, hjust, hden⟩ := raxSeek_spec h it op ele
    have hstep : (raxIterMachine r).step (.seek op ele) it = some (it', .seeked) := by
      simp [raxIterMachine, raxIterStep, heq]
    rcases hden with ⟨hp, hempty⟩ | ⟨q, hp, hat, hkey, hd⟩
    · exact ⟨it', _, .eof, hstep, ⟨rfl, .inr ⟨hempty, rfl⟩⟩, eof_of_pos hp⟩
    · obtain ⟨heof, rfl⟩ := pos_eq_some hp
      exact ⟨it', _, .seeked it'.key, hstep, ⟨rfl, .inl ⟨_, hd, rfl⟩⟩, heof, hjust, hat, hkey, rfl⟩
  | next =>
    have hstep : ∀ {it'}, raxIteratorNextStep r it false = some it' →
        (raxIterMachine r).step .next it = some (it', it'.reply) := fun heq => by
      simp [raxIterMachine, raxIterStep, heq]
    cases c with
    | eof => exact ⟨it, _, .eof, hstep (if_pos hit), ⟨reply_of_eof hit, rfl⟩, hit⟩
    | seeked k =>
      obtain ⟨heq, hon⟩ := step_of_seeked hit
      exact ⟨_, _, .on k, hstep heq, ⟨reply_of_on hon, rfl⟩, hon⟩
    | on k =>
      obtain ⟨it', heq, ⟨heof, hempty⟩ | ⟨k', hon, hleast⟩⟩ := raxNext_on h.wf hit
      · exact ⟨it', _, .eof, hstep heq, .inr ⟨hempty, reply_of_eof heof, rfl⟩, heof⟩
      · exact ⟨it', _, .on k', hstep heq, .inl ⟨k', hleast, reply_of_on hon, rfl⟩, hon⟩
  | prev =>
    have hstep : ∀ {it'}, raxIteratorPrevStep r it false = some it' →
        (raxIterMachine r).step .prev it = some (it', it'.reply) := fun heq => by
      simp [raxIterMachine, raxIterStep, heq]
    cases c with
    | eof => exact ⟨it, _, .eof, hstep (if_pos hit), ⟨reply_of_eof hit, rfl⟩, hit⟩
    | seeked k =>
      obtain ⟨heq, hon⟩ := step_of_seeked hit
      exact ⟨_, _, .on k, hstep heq, ⟨reply_of_on hon, rfl⟩, hon⟩
    | on k =>
      obtain ⟨it', heq, ⟨heof, hempty⟩ | ⟨k', hon, hgreatest⟩⟩ := raxPrev_on h.wf hit
      · exact ⟨it', _, .eof, hstep heq, .inr ⟨hempty, reply_of_eof heof, rfl⟩, heof⟩
      · exact ⟨it', _, .on k', hstep heq, .inl ⟨k', hgreatest, reply_of_on hon, rfl⟩, hon⟩

/-! ### Walking to the end -/

/-- Steps that go to the nearest key behind the current one, in the order `rel`, report the keys behind it
one after the other, and then the end. -/
theorem raxCursorSpec_steps {keys : Set (List UInt8)} (rel : List UInt8 → List UInt8 → Prop) {op : RaxIterOp}
    (hirr : ∀ k, ¬ rel k k) (htrans : ∀ {a b c}, rel a b → rel b c → rel a c)
    (hop : ∀ {k r c}, raxCursorSpec keys op (.on k) r c →
      (∃ k', k' ∈ keys ∧ rel k k' ∧ (∀ k'' ∈ keys, rel k k'' → ¬ rel k'' k') ∧ r = .key k' ∧ c = .on k') ∨
        ({k' ∈ keys | rel k k'} = ∅ ∧ r = .eof ∧ c = .eof)) :
    ∀ {ks : List (List UInt8)} {k : List UInt8} {reps : List RaxIterReply} {c : RaxCursor},
      ks.Pairwise rel → (∀ k', k' ∈ ks ↔ k' ∈ keys ∧ rel k k') →
      (raxCursorSpec keys).Run (replicate (ks.length + 1) op) (.on k) reps c → reps = ks.map .key ++ [.eof] := by
  intro ks
  induction ks with
  | nil =>
    intro k reps c _ hks hrun
    cases hrun with
    | cons hstep hrun =>
      cases hrun
      rcases hop hstep with ⟨k', hk', hrel, -⟩ | ⟨-, rfl, -⟩
      · exact absurd ((hks k').2 ⟨hk', hrel⟩) not_mem_nil
      · rfl
  | cons a ks ih =>
    intro k reps c hsort hks hrun
    rw [pairwise_cons] at hsort
    have ha := (hks a).1 (.head _)
    cases hrun with
    | cons hstep hrun =>
      rcases hop hstep with ⟨k', hk', hrel, hleast, rfl, rfl⟩ | ⟨hempty, -⟩
      · -- the nearest key is the first one of the list
        obtain rfl : k' = a := by
          rcases mem_cons.1 ((hks k').2 ⟨hk', hrel⟩) with heq | hmem
          · exact heq
          · exact absurd (hsort.1 k' hmem) (hleast a ha.1 ha.2)
        refine congrArg (RaxIterReply.key k' :: ·) (ih hsort.2 (fun k'' => ?_) hrun)
        constructor
        · exact fun hk'' => ⟨((hks k'').1 (.tail _ hk'')).1, hsort.1 k'' hk''⟩
        rintro ⟨hmem, hlt⟩
        rcases mem_cons.1 ((hks k'').2 ⟨hmem, htrans hrel hlt⟩) with rfl | hk''
        · exact absurd hlt (hirr _)
        · exact hk''
      · exact absurd (hempty ▸ ha : a ∈ (∅ : Set (List UInt8))) (Set.notMem_empty a)

section
variable {keys : Set (List UInt8)} {ks : List (List UInt8)} {reps : List RaxIterReply} {c : RaxCursor}

theorem raxCursorSpec_forward (hsort : ks.Pairwise (· < ·)) (hks : ∀ k', k' ∈ ks ↔ k' ∈ keys ∧ k < k')
    (hrun : (raxCursorSpec keys).Run (replicate (ks.length + 1) .next) (.on k) reps c) :
    reps = ks.map .key ++ [.eof] := by
  refine raxCursorSpec_steps (· < ·) (fun _ => List.lt_irrefl _) List.lt_trans ?_ hsort hks hrun
  rintro k r c (⟨k', hleast, hr⟩ | hend)
  · exact .inl ⟨k', hleast.1.1, hleast.1.2, fun k'' hk'' hlt => List.not_lt.2 (hleast.2 ⟨hk'', hlt⟩), hr⟩
  · exact .inr hend

theorem raxCursorSpec_backward (hsort : ks.Pairwise (fun a b => b < a)) (hks : ∀ k', k' ∈ ks ↔ k' ∈ keys ∧ k' < k)
    (hrun : (raxCursorSpec keys).Run (replicate (ks.length + 1) .prev) (.on k) reps c) :
    reps = ks.map .key ++ [.eof] := by
  refine raxCursorSpec_steps (fun a b => b < a) (fun _ => List.lt_irrefl _)
    (fun hab hbc => List.lt_trans hbc hab) ?_ hsort hks hrun
  rintro k r c (⟨k', hgreatest, hr⟩ | hend)
  · exact .inl ⟨k', hgreatest.1.1, hgreatest.1.2, fun k'' hk'' hlt => List.not_lt.2 (hgreatest.2 ⟨hk'', hlt⟩), hr⟩
  · exact .inr hend

end

theorem exists_sorted_keys (h : r.head.WF) (P : List UInt8 → Prop) [DecidablePred P] :
    ∃ ks : List (List UInt8), ks.Pairwise (· < ·) ∧ ∀ k, k ∈ ks ↔ k ∈ r.keys ∧ P k := by
  refine ⟨(r.head.entries.map Prod.fst).filter P, ?_, fun k => ?_⟩
  · exact (pairwise_map.2 h.sorted).sublist filter_sublist
  · rw [mem_filter, decide_eq_true_iff, List.mem_map, Rax.mem_keys h]

def RaxIterator.Loaded (it : RaxIterator V) : Prop := it.eof = false → it.data = raxGetData it.node.hdr

/-- The calls that load the value: all but the seeks to a smaller key whose element ends inside a
compressed node that is a key. -/
def RaxIterOp.Loads (r : Rax V) : RaxIterOp → Prop
  | .seek op ele => ¬ ((raxLowWalk r ele).rest = [] ∧ (raxLowWalk r ele).node.iscompr = true ∧
      (raxLowWalk r ele).node.hdr.iskey = true ∧ (raxLowWalk r ele).splitpos ≠ 0 ∧ op.islt = true)
  | _ => True

section
variable {it it' : RaxIterator V}

theorem RaxIterator.loaded_moved (it : RaxIterator V) (res : Option (RaxPos V)) : (it.moved res).Loaded := by
  cases res with
  | none => exact nofun
  | some p => exact fun _ => rfl

/-- A step, in either direction, loads the value unless it stays where the seek has stopped. -/
theorem RaxIterator.loaded_step {found : Option (Option (RaxPos V))}
    (h : (if it.eof then some it else if it.justSeeked then some { it with justSeeked := false }
      else found.map it.moved) = some it') (hit : it.Loaded ∨ it.justSeeked = false) : it'.Loaded := by
  split at h
  next heof =>
    cases h
    exact fun h => absurd (heof.symm.trans h) (by simp)
  · split at h
    next hjust =>
      cases h
      rcases hit with hit | hit
      · exact hit
      · exact absurd (hjust.symm.trans hit) (by simp)
    · obtain ⟨res, -, rfl⟩ := map_eq_some_iff.1 h
      exact it.loaded_moved res

theorem raxSeekStep_loaded {op : RaxSeekOp} {w : RaxWalk V}
    (hw : ¬ (w.rest = [] ∧ w.node.iscompr = true ∧ w.node.hdr.iskey = true ∧ w.splitpos ≠ 0 ∧ op.islt = true))
    (h : raxSeekStep r it op w = some it') : it'.Loaded := by
  unfold raxSeekStep at h
  split at h
  · split at h <;> exact loaded_step h (.inr rfl)
  · split at h
    · cases h
    split at h
    · split at h <;> exact loaded_step h (.inr rfl)
    · split at h
      · cases h
        exact fun _ => rfl
      · exact loaded_step h (.inr rfl)
  next hrest =>
    rw [if_neg (fun hc => hw ⟨hrest, hc⟩)] at h
    split at h <;> exact loaded_step h (.inr rfl)

theorem raxSeekEle_loaded {op : RaxSeekOp} {ele : List UInt8}
    (hop : (RaxIterOp.seek op ele).Loads r) (h : raxSeekEle r it op ele = some it') : it'.Loaded := by
  unfold raxSeekEle at h
  dsimp only at h
  split at h
  · cases h
    exact fun _ => rfl
  split at h
  · obtain ⟨it₁, h₁, rfl⟩ := map_eq_some_iff.1 h
    have hloaded : it₁.Loaded := raxSeekStep_loaded hop h₁
    exact hloaded
  · cases h
    exact nofun

theorem raxIterMachine_loaded {op : RaxIterOp} {rep : RaxIterReply} (hit : it.Loaded) (hop : op.Loads r)
    (h : (raxIterMachine r).step op it = some (it', rep)) : it'.Loaded := by
  cases op with
  | seek op ele =>
    obtain ⟨it₁, h₁, he⟩ := map_eq_some_iff.1 h
    cases he
    unfold raxSeek at h₁
    dsimp only at h₁
    split at h₁
    · cases h₁
      exact nofun
    split at h₁
    · refine raxSeekEle_loaded ?_ h₁
      exact fun hc => nomatch hc.2.2.2.2
    · split at h₁
      · cases h₁
        exact fun _ => rfl
      · cases h₁
    · exact raxSeekEle_loaded hop h₁
  | next | prev =>
    obtain ⟨it₁, h₁, he⟩ := map_eq_some_iff.1 h
    cases he
    exact loaded_step h₁ (.inl hit)

theorem raxFind_of_at (h : r.head.WF) (hat : it.toRaxPos.At r.head) (hkey : it.node.hdr.iskey = true) :
    raxFind r it.key = some (raxGetData it.node.hdr) := by
  rw [raxFind_spec h, hat.entries h, RaxPos.own_of_iskey hat hkey]
  simp

end

/-- After every sequence of calls that load the value, on every tree built by insertions and removals,
the value of an iterator that has not reached the end is the one stored for its key. -/
theorem raxIterator_data_found {r : Rax V} (h : raxMachine.Reachable r) {calls : List RaxIterOp}
    (hcalls : ∀ op ∈ calls, op.Loads r) :
    ∃ it reps, (raxIterMachine r).run calls (raxStart r) = some (it, reps) ∧
      (it.eof = false → raxFind r it.key = some it.data) := by
  have hinv := rax_reachable_inv h
  have hall : (raxIterMachine r).Guarded (fun _ _ => True) calls (raxStart r) :=
    Machine.guarded_of_forall_mem (fun _ _ _ => trivial) _
  obtain ⟨it, reps, c, heq, -, hit⟩ := (raxIterMachine_simulates hinv).run (a := .eof) (s := raxStart r) rfl hall
  refine ⟨it, reps, heq, fun heof => ?_⟩
  have hloaded : it.Loaded := (Machine.guarded_of_forall_mem
    (fun op hop _ => hcalls op hop) (raxStart r)).inv nofun raxIterMachine_loaded heq
  rw [hloaded heof]
  cases c with
  | eof => exact absurd (hit.symm.trans heof) (by simp)
  | seeked k | on k => exact raxFind_of_at hinv.wf hit.2.2.1 hit.2.2.2.1

/-- The keys `abc` and `a`: a tree with a compressed node `bc` that is the key `a`. -/
def raxTwoKeys : Rax Nat :=
  ⟨.normal ⟨false, false, none⟩ [(97, .compr ⟨true, false, some 7⟩ [98, 99] (.normal ⟨true, false, some 1⟩ []))], 2, 3⟩

theorem raxTwoKeys_reachable : raxMachine.Reachable raxTwoKeys :=
  Machine.Reachable.of_run .init
    (show raxMachine.run [.insert [97, 98, 99] (some 1), .insert [97] (some 7)] raxNew = some (raxTwoKeys, _) from rfl)

theorem raxIterator_data_found_le :
    ∃ it reps, (raxIterMachine raxTwoKeys).run [.seek .le [97, 99], .next, .prev] (raxStart raxTwoKeys) = some (it, reps) ∧
      (it.eof = false → raxFind raxTwoKeys it.key = some it.data) := by
  refine raxIterator_data_found raxTwoKeys_reachable (forall_mem_cons.2 ⟨?_, forall_mem_cons.2 ⟨trivial, ?_⟩⟩)
  · exact fun hc => nomatch hc.1
  · exact forall_mem_singleton.2 trivial

/-- The seek `< ab` ends inside the node `bc`: the key `a` is reported, but the value is still the one
the iterator started with. -/
theorem raxIterator_data_stale :
    ∃ it : RaxIterator Nat, (raxIterMachine raxTwoKeys).run [.seek .lt [97, 98], .next] (raxStart raxTwoKeys) =
        some (it, [.seeked, .key [97]]) ∧ it.eof = false ∧ it.key = [97] ∧ it.data = none ∧
      raxFind raxTwoKeys it.key = some (some 7) :=
  ⟨_, rfl, rfl, rfl, rfl, rfl⟩

end Redis
