import Redis.Lib.Lists
import Redis.Rax

/-! # The entries of a radix tree

`RaxNode.entries` lists the keys below a node with their values, in the order of the tree walk, and
`RaxNode.WF` is the shape of the trees that `rax.c` builds: edges in strictly increasing order,
compressed nodes of two characters or more, and no leaf that is not a key except an empty head. The
entries of a well-formed tree are strictly increasing. `entries_plug` and `mem_entries_plug` say what
replacing a node does to them. -/

namespace Redis
open List
variable {V : Type}
variable {n : RaxNode V} {l : List (List UInt8 × Option V)} {hdr : RaxHdr V} {es : List (UInt8 × RaxNode V)}

def raxUnder (p : List UInt8) (e : List UInt8 × Option V) : List UInt8 × Option V := (p ++ e.1, e.2)

def RaxHdr.entry (h : RaxHdr V) : List (List UInt8 × Option V) :=
  if h.iskey then [([], raxGetData h)] else []

mutual
def RaxNode.entries : RaxNode V → List (List UInt8 × Option V)
  | .normal hdr es => hdr.entry ++ raxEdgeEntries es
  | .compr hdr cs n => hdr.entry ++ n.entries.map (raxUnder cs)
def raxEdgeEntries : List (UInt8 × RaxNode V) → List (List UInt8 × Option V)
  | [] => []
  | (c, n) :: es => n.entries.map (raxUnder [c]) ++ raxEdgeEntries es
end

open RaxNode

mutual
def RaxNode.count : RaxNode V → Nat
  | .normal _ es => 1 + raxEdgeCount es
  | .compr _ _ n => 1 + n.count
def raxEdgeCount : List (UInt8 × RaxNode V) → Nat
  | [] => 0
  | (_, n) :: es => n.count + raxEdgeCount es
end

def RaxNode.Live : RaxNode V → Prop
  | .normal hdr [] => hdr.iskey = true
  | _ => True

inductive RaxNode.WF : RaxNode V → Prop
  | normal {hdr : RaxHdr V} {es : List (UInt8 × RaxNode V)} : es.Pairwise (fun a b => a.1 < b.1) →
      (∀ e ∈ es, e.2.WF) → (∀ e ∈ es, e.2.Live) → RaxNode.WF (.normal hdr es)
  | compr {hdr : RaxHdr V} {cs : List UInt8} {n : RaxNode V} : 2 ≤ cs.length → n.WF → n.Live →
      RaxNode.WF (.compr hdr cs n)

theorem RaxNode.ind {P : RaxNode V → Prop} (hn : ∀ hdr es, (∀ e ∈ es, P e.2) → P (.normal hdr es))
    (hc : ∀ hdr cs n, P n → P (.compr hdr cs n)) : ∀ n, P n
  | .normal hdr es => hn hdr es (edges hn hc es)
  | .compr hdr cs n => hc hdr cs n (ind hn hc n)
where
  edges {P : RaxNode V → Prop} (hn : ∀ hdr es, (∀ e ∈ es, P e.2) → P (.normal hdr es))
      (hc : ∀ hdr cs n, P n → P (.compr hdr cs n)) : ∀ es : List (UInt8 × RaxNode V), ∀ e ∈ es, P e.2
    | (_, n) :: es, e, he => by
      rcases mem_cons.1 he with rfl | h
      · exact ind hn hc n
      · exact edges hn hc es e h

/-! ### Entries and counts of edge lists -/

section
variable {es es' : List (UInt8 × RaxNode V)} {hdr : RaxHdr V} {n : RaxNode V} {cs p q : List UInt8}
variable {k : List UInt8} {v : Option V}

theorem raxUnder_raxUnder (e : List UInt8 × Option V) : raxUnder p (raxUnder q e) = raxUnder (p ++ q) e := by
  simp [raxUnder]

theorem map_raxUnder_map (l : List (List UInt8 × Option V)) :
    (l.map (raxUnder q)).map (raxUnder p) = l.map (raxUnder (p ++ q)) := by
  rw [map_map]
  exact map_congr_left fun e _ => raxUnder_raxUnder e

@[simp] theorem map_raxUnder_nil (l : List (List UInt8 × Option V)) : l.map (raxUnder []) = l :=
  map_id'' (fun _ => rfl) l

theorem mem_map_raxUnder {l : List (List UInt8 × Option V)} : (p ++ k, v) ∈ l.map (raxUnder p) ↔ (k, v) ∈ l := by
  simp [raxUnder]

theorem entries_normal : (normal hdr es).entries = hdr.entry ++ raxEdgeEntries es := by
  rw [entries]

theorem entries_compr : (compr hdr cs n).entries = hdr.entry ++ n.entries.map (raxUnder cs) := by
  rw [entries]

theorem raxEdgeEntries_cons (c : UInt8) :
    raxEdgeEntries ((c, n) :: es) = n.entries.map (raxUnder [c]) ++ raxEdgeEntries es := by
  rw [raxEdgeEntries]

theorem raxEdgeEntries_append : raxEdgeEntries (es ++ es') = raxEdgeEntries es ++ raxEdgeEntries es' := by
  induction es with
  | nil => simp [raxEdgeEntries]
  | cons e es ih =>
    rw [cons_append, raxEdgeEntries_cons, raxEdgeEntries_cons, ih, append_assoc]

theorem raxEdgeCount_append : raxEdgeCount (es ++ es') = raxEdgeCount es + raxEdgeCount es' := by
  induction es with
  | nil => simp [raxEdgeCount]
  | cons e es ih =>
    rw [cons_append, raxEdgeCount, raxEdgeCount, ih, add_assoc]

theorem mem_raxEdgeEntries : (k, v) ∈ raxEdgeEntries es ↔ ∃ e ∈ es, ∃ t, k = e.1 :: t ∧ (t, v) ∈ e.2.entries := by
  induction es with
  | nil => simp [raxEdgeEntries]
  | cons e es ih =>
    obtain ⟨c, n⟩ := e
    rw [raxEdgeEntries_cons, mem_append, ih]
    constructor
    · rintro (h | ⟨e, he, t, hk, ht⟩)
      · obtain ⟨⟨t, w⟩, ht, heq⟩ := mem_map.1 h
        simp only [raxUnder, singleton_append, Prod.mk.injEq] at heq
        exact ⟨(c, n), mem_cons_self .., t, heq.1.symm, heq.2 ▸ ht⟩
      · exact ⟨e, mem_cons_of_mem _ he, t, hk, ht⟩
    · rintro ⟨e, he, t, rfl, ht⟩
      rcases mem_cons.1 he with rfl | he
      · exact .inl (mem_map.2 ⟨(t, v), ht, rfl⟩)
      · exact .inr ⟨e, he, t, rfl, ht⟩

theorem mem_entry : (k, v) ∈ hdr.entry ↔ hdr.iskey = true ∧ k = [] ∧ v = raxGetData hdr := by
  rw [RaxHdr.entry]
  split
  next h => simp [h]
  next h => simp [h]

end

def RaxNode.subEntries : RaxNode V → List (List UInt8 × Option V)
  | .normal _ es => raxEdgeEntries es
  | .compr _ cs n => n.entries.map (raxUnder cs)

theorem entries_eq (n : RaxNode V) : n.entries = n.hdr.entry ++ n.subEntries := by
  cases n with
  | normal => exact entries_normal
  | compr => exact entries_compr

theorem RaxNode.WF.ne_nil_of_mem_subEntries (h : n.WF) {e : List UInt8 × Option V} (he : e ∈ n.subEntries) :
    e.1 ≠ [] := by
  obtain ⟨k, v⟩ := e
  cases h with
  | normal _ _ _ =>
    obtain ⟨e, -, t, rfl, -⟩ := mem_raxEdgeEntries.1 he
    exact cons_ne_nil _ _
  | compr hlen _ _ =>
    obtain ⟨e', -, heq⟩ := mem_map.1 he
    rw [← heq]
    intro h0
    have := congrArg length h0
    simp only [raxUnder, length_append, length_nil] at this
    omega

theorem RaxNode.WF.entries_ne_nil (h : n.WF) (hl : n.Live) : n.entries ≠ [] := by
  induction h with
  | @normal hdr es _ _ hlive ih =>
    rw [entries_normal]
    rcases es with - | ⟨e, es⟩
    · simp only [RaxNode.Live] at hl
      simp [RaxHdr.entry, hl]
    obtain ⟨c, m⟩ := e
    have := ih (c, m) (.head _) (hlive _ (.head _))
    simp [raxEdgeEntries_cons, this]
  | compr _ _ hlive ih =>
    rw [entries_compr]
    simp [ih hlive]

/-! ### Order -/

theorem pairwise_map_raxUnder (p : List UInt8) (h : l.Pairwise fun a b => a.1 < b.1) :
    (l.map (raxUnder p)).Pairwise fun a b => a.1 < b.1 := by
  rw [pairwise_map]
  exact h.imp append_left_lt

theorem pairwise_entry_append (h : l.Pairwise fun a b => a.1 < b.1) (hne : ∀ e ∈ l, e.1 ≠ []) :
    (hdr.entry ++ l).Pairwise fun a b => a.1 < b.1 := by
  rw [RaxHdr.entry]
  split
  · refine pairwise_cons.2 ⟨fun e he => ?_, h⟩
    obtain ⟨c, t, hk⟩ := exists_cons_of_ne_nil (hne e he)
    rw [hk]
    exact nil_lt_cons ..
  · exact h

theorem RaxNode.WF.sorted (h : n.WF) : n.entries.Pairwise fun a b => a.1 < b.1 := by
  induction h with
  | @normal hdr es hsort hwf hlive ih =>
    refine pairwise_entry_append ?_ fun e he =>
      RaxNode.WF.ne_nil_of_mem_subEntries (n := .normal hdr es) (.normal hsort hwf hlive) he
    clear hwf hlive
    induction es with
    | nil => simp [raxEdgeEntries]
    | cons e es ihes =>
      obtain ⟨c, m⟩ := e
      rw [pairwise_cons] at hsort
      rw [raxEdgeEntries_cons, pairwise_append]
      refine ⟨pairwise_map_raxUnder _ (ih (c, m) (.head _)),
        ihes hsort.2 (fun e he => ih e (.tail _ he)), ?_⟩
      rintro a ha ⟨k, v⟩ hb
      obtain ⟨a', -, rfl⟩ := mem_map.1 ha
      obtain ⟨e, he, t, rfl, -⟩ := mem_raxEdgeEntries.1 hb
      exact cons_lt_cons_iff.2 (.inl (hsort.1 e he))
  | @compr hdr cs n hlen hwf hlive ih =>
    exact pairwise_entry_append (pairwise_map_raxUnder cs ih) fun e he =>
      RaxNode.WF.ne_nil_of_mem_subEntries (n := .compr hdr cs n) (.compr hlen hwf hlive) he

theorem RaxNode.WF.nodup (h : n.WF) : (n.entries.map Prod.fst).Nodup := by
  have hs := pairwise_map.2 h.sorted
  refine hs.imp fun hab heq => ?_
  rw [heq] at hab
  exact List.lt_irrefl _ hab

/-! ### Places in a tree -/

namespace RaxFrame

variable (f : RaxFrame V)

def path : List UInt8 :=
  match f.node with
  | .normal _ es => (es[f.idx]?.map Prod.fst).toList
  | .compr _ cs _ => cs

/-- The entries of the parent that come before the child, and after it. -/
def before : List (List UInt8 × Option V) :=
  match f.node with
  | .normal hdr es => hdr.entry ++ raxEdgeEntries (es.take f.idx)
  | .compr hdr _ _ => hdr.entry

def after : List (List UInt8 × Option V) :=
  match f.node with
  | .normal _ es => raxEdgeEntries (es.drop (f.idx + 1))
  | .compr _ _ _ => []

def count : Nat :=
  match f.node with
  | .normal _ es => 1 + (raxEdgeCount (es.take f.idx) + raxEdgeCount (es.drop (f.idx + 1)))
  | .compr _ _ _ => 1

/-- A frame whose parent is well formed outside the child. -/
structure WF (f : RaxFrame V) : Prop where
  normal : ∀ hdr es, f.node = .normal hdr es → f.idx < es.length ∧ es.Pairwise (fun a b => a.1 < b.1) ∧
    ∀ e ∈ es.take f.idx ++ es.drop (f.idx + 1), e.2.WF ∧ e.2.Live
  compr : ∀ hdr cs n, f.node = .compr hdr cs n → 2 ≤ cs.length

end RaxFrame

def raxPath : List (RaxFrame V) → List UInt8
  | [] => []
  | f :: fs => raxPath fs ++ f.path

def raxBefore : List (RaxFrame V) → List (List UInt8 × Option V)
  | [] => []
  | f :: fs => raxBefore fs ++ f.before.map (raxUnder (raxPath fs))

def raxAfter : List (RaxFrame V) → List (List UInt8 × Option V)
  | [] => []
  | f :: fs => f.after.map (raxUnder (raxPath fs)) ++ raxAfter fs

/-- The nodes of the tree above and beside the place. -/
def raxOutside : List (RaxFrame V) → Nat
  | [] => 0
  | f :: fs => raxOutside fs + f.count

section
variable {f : RaxFrame V} {fs gs : List (RaxFrame V)} {n : RaxNode V}
variable {k : List UInt8} {v : Option V}

theorem modify_edge {es : List (UInt8 × RaxNode V)} {j : Nat} (hj : j < es.length) (n : RaxNode V) :
    ∃ c, es[j]?.map Prod.fst = some c ∧ es.modify j (fun e => (e.1, n)) = es.take j ++ (c, n) :: es.drop (j + 1) := by
  refine ⟨es[j].1, by rw [getElem?_eq_getElem hj]; rfl, ?_⟩
  rw [modify_eq_take_cons_drop hj]

theorem entries_setChild (hf : f.WF) (n : RaxNode V) :
    (f.node.setChild f.idx n).entries = f.before ++ n.entries.map (raxUnder f.path) ++ f.after := by
  cases hnode : f.node with
  | normal hdr es =>
    obtain ⟨c, hc, hmod⟩ := modify_edge (hf.normal hdr es hnode).1 n
    rw [setChild, hmod, entries_normal, raxEdgeEntries_append, raxEdgeEntries_cons, RaxFrame.before,
      RaxFrame.path, RaxFrame.after, hnode]
    simp only [hc, Option.toList_some, append_assoc]
  | compr hdr cs m =>
    rw [setChild, entries_compr, RaxFrame.before, RaxFrame.path, RaxFrame.after, hnode]
    simp only [append_nil]

theorem count_setChild (hf : f.WF) (n : RaxNode V) : (f.node.setChild f.idx n).count = f.count + n.count := by
  cases hnode : f.node with
  | normal hdr es =>
    obtain ⟨c, -, hmod⟩ := modify_edge (hf.normal hdr es hnode).1 n
    rw [RaxNode.setChild, hmod, RaxNode.count, raxEdgeCount_append, raxEdgeCount, RaxFrame.count, hnode]
    dsimp only
    omega
  | compr hdr cs m => rw [RaxNode.setChild, RaxNode.count, RaxFrame.count, hnode]

theorem wf_setChild (hf : f.WF) (hn : n.WF) (hl : n.Live) : (f.node.setChild f.idx n).WF := by
  cases hnode : f.node with
  | normal hdr es =>
    obtain ⟨hj, hsort, hrest⟩ := hf.normal hdr es hnode
    have hmod : es.modify f.idx (fun e => (e.1, n)) = es.take f.idx ++ (es[f.idx].1, n) :: es.drop (f.idx + 1) :=
      modify_eq_take_cons_drop hj
    have hall : ∀ e ∈ es.modify f.idx (fun e => (e.1, n)), e.2.WF ∧ e.2.Live := by
      intro e he
      rw [hmod] at he
      rcases mem_append.1 he with he | he
      · exact hrest e (mem_append_left _ he)
      · rcases mem_cons.1 he with rfl | he
        · exact ⟨hn, hl⟩
        · exact hrest e (mem_append_right _ he)
    have hfst : (es.modify f.idx fun e => (e.1, n)).map Prod.fst = es.map Prod.fst := by
      rw [hmod]
      conv_rhs => rw [← take_append_drop f.idx es, drop_eq_getElem_cons hj]
      simp only [map_append, map_cons]
    refine .normal ?_ (fun e he => (hall e he).1) fun e he => (hall e he).2
    have hs := pairwise_map.2 hsort
    rw [← hfst] at hs
    exact pairwise_map.1 hs
  | compr hdr cs m => exact .compr (hf.compr hdr cs m hnode) hn hl

theorem live_setChild (hf : f.WF) (n : RaxNode V) : (f.node.setChild f.idx n).Live := by
  cases hnode : f.node with
  | normal hdr es =>
    obtain ⟨c, -, hmod⟩ := modify_edge (hf.normal hdr es hnode).1 n
    rw [setChild, hmod]
    cases es.take f.idx <;> trivial
  | compr hdr cs m => trivial

section
variable (hfs : ∀ f ∈ fs, f.WF)
include hfs

theorem entries_plug (n : RaxNode V) :
    (raxPlug fs n).entries = raxBefore fs ++ n.entries.map (raxUnder (raxPath fs)) ++ raxAfter fs := by
  induction fs generalizing n with
  | nil => simp [raxPlug, raxBefore, raxAfter, raxPath]
  | cons f fs ih =>
    rw [raxPlug, ih (fun g hg => hfs g (.tail _ hg)), entries_setChild (hfs f (.head _)),
      raxBefore, raxAfter, raxPath]
    simp only [map_append, map_raxUnder_map, append_assoc]

theorem count_plug (n : RaxNode V) : (raxPlug fs n).count = raxOutside fs + n.count := by
  induction fs generalizing n with
  | nil => simp [raxPlug, raxOutside]
  | cons f fs ih =>
    rw [raxPlug, ih (fun g hg => hfs g (.tail _ hg)), count_setChild (hfs f (.head _)),
      raxOutside]
    omega

theorem wf_plug (hn : n.WF) (hl : fs ≠ [] → n.Live) : (raxPlug fs n).WF := by
  induction fs generalizing n with
  | nil => exact hn
  | cons f fs ih =>
    have hf := hfs f (.head _)
    exact ih (fun g hg => hfs g (.tail _ hg)) (wf_setChild hf hn (hl (cons_ne_nil _ _)))
      fun _ => live_setChild hf n

theorem live_plug (hl : n.Live) : (raxPlug fs n).Live := by
  induction fs generalizing n with
  | nil => exact hl
  | cons f fs ih =>
    exact ih (fun g hg => hfs g (.tail _ hg)) (live_setChild (hfs f (.head _)) n)

end

theorem raxPlug_append (n : RaxNode V) : raxPlug (fs ++ gs) n = raxPlug gs (raxPlug fs n) := by
  induction fs generalizing n with
  | nil => rfl
  | cons f fs ih => rw [cons_append, raxPlug, raxPlug, ih]

theorem raxPath_append : raxPath (fs ++ gs) = raxPath gs ++ raxPath fs := by
  induction fs with
  | nil => simp [raxPath]
  | cons f fs ih => rw [cons_append, raxPath, raxPath, ih, append_assoc]

theorem raxBefore_append : raxBefore (fs ++ gs) = raxBefore gs ++ (raxBefore fs).map (raxUnder (raxPath gs)) := by
  induction fs with
  | nil => simp [raxBefore]
  | cons f fs ih =>
    rw [cons_append, raxBefore, raxBefore, ih, raxPath_append, map_append, map_raxUnder_map,
      append_assoc]

theorem raxAfter_append : raxAfter (fs ++ gs) = (raxAfter fs).map (raxUnder (raxPath gs)) ++ raxAfter gs := by
  induction fs with
  | nil => simp [raxAfter]
  | cons f fs ih =>
    rw [cons_append, raxAfter, raxAfter, ih, raxPath_append, map_append, map_raxUnder_map,
      append_assoc]

theorem raxOutside_append : raxOutside (fs ++ gs) = raxOutside gs + raxOutside fs := by
  induction fs with
  | nil => simp [raxOutside]
  | cons f fs ih => rw [cons_append, raxOutside, raxOutside, ih, add_assoc]

theorem not_path_of_mem (hf : f.WF) (h : (k, v) ∈ f.before ∨ (k, v) ∈ f.after) : ¬ f.path <+: k := by
  rintro ⟨t, rfl⟩
  cases hnode : f.node with
  | normal hdr es =>
    obtain ⟨hj, hsort, -⟩ := hf.normal hdr es hnode
    have hpath : f.path = [es[f.idx].1] := by
      rw [RaxFrame.path, hnode]
      simp [getElem?_eq_getElem hj]
    -- the edges beside the child have other characters
    have hne : ∀ e ∈ es.take f.idx ++ es.drop (f.idx + 1), e.1 ≠ es[f.idx].1 := by
      have hs := hsort
      rw [← take_append_drop f.idx es, drop_eq_getElem_cons hj, pairwise_append,
        pairwise_cons] at hs
      intro e he heq
      rcases mem_append.1 he with he | he
      · have := hs.2.2 e he _ (.head _)
        rw [heq] at this
        exact UInt8.lt_irrefl _ this
      · have := hs.2.1.1 e he
        rw [heq] at this
        exact UInt8.lt_irrefl _ this
    rw [RaxFrame.before, RaxFrame.after, hnode, hpath] at h
    simp only [mem_append, mem_entry, mem_raxEdgeEntries] at h
    rcases h with (⟨-, h0, -⟩ | ⟨e, he, t', hk, -⟩) | ⟨e, he, t', hk, -⟩
    · simp at h0
    · simp only [singleton_append, cons.injEq] at hk
      exact hne e (mem_append_left _ he) hk.1.symm
    · simp only [singleton_append, cons.injEq] at hk
      exact hne e (mem_append_right _ he) hk.1.symm
  | compr hdr cs m =>
    have hlen := hf.compr hdr cs m hnode
    rw [RaxFrame.before, RaxFrame.after, RaxFrame.path, hnode] at h
    simp only [mem_entry, not_mem_nil, or_false] at h
    have := congrArg length h.2.1
    simp only [length_append, length_nil] at this
    omega

theorem not_path_of_mem_outside (hfs : ∀ f ∈ fs, f.WF) (h : (k, v) ∈ raxBefore fs ∨ (k, v) ∈ raxAfter fs) :
    ¬ raxPath fs <+: k := by
  induction fs with
  | nil => simp [raxBefore, raxAfter] at h
  | cons f fs ih =>
    have hrec : ((k, v) ∈ raxBefore fs ∨ (k, v) ∈ raxAfter fs) → ¬ raxPath (f :: fs) <+: k := fun h hp =>
      ih (fun g hg => hfs g (.tail _ hg)) h ((prefix_append _ _).trans hp)
    have hlocal : ∀ e, (e ∈ f.before ∨ e ∈ f.after) → raxUnder (raxPath fs) e = (k, v) →
        ¬ raxPath (f :: fs) <+: k := by
      rintro ⟨k', v'⟩ he heq hp
      obtain ⟨rfl, rfl⟩ := heq
      exact not_path_of_mem (hfs f (.head _)) he ((prefix_append_right_inj _).1 hp)
    rw [raxBefore, raxAfter, mem_append, mem_append] at h
    rcases h with (h | h) | (h | h)
    · exact hrec (.inl h)
    · obtain ⟨e, he, heq⟩ := mem_map.1 h
      exact hlocal e (.inl he) heq
    · obtain ⟨e, he, heq⟩ := mem_map.1 h
      exact hlocal e (.inr he) heq
    · exact hrec (.inr h)

theorem mem_entries_plug (hfs : ∀ f ∈ fs, f.WF) :
    (raxPath fs ++ k, v) ∈ (raxPlug fs n).entries ↔ (k, v) ∈ n.entries := by
  rw [entries_plug hfs, mem_append, mem_append, mem_map_raxUnder]
  constructor
  · rintro ((h | h) | h)
    · exact absurd (prefix_append _ _) (not_path_of_mem_outside hfs (.inl h))
    · exact h
    · exact absurd (prefix_append _ _) (not_path_of_mem_outside hfs (.inr h))
  · exact fun h => .inl (.inr h)

theorem mem_entries_plug_ne (hfs : ∀ f ∈ fs, f.WF) (n' : RaxNode V) (hk : ¬ raxPath fs <+: k) :
    (k, v) ∈ (raxPlug fs n).entries ↔ (k, v) ∈ (raxPlug fs n').entries := by
  have hmid : ∀ m : RaxNode V, (k, v) ∉ m.entries.map (raxUnder (raxPath fs)) := by
    intro m h
    obtain ⟨e, -, heq⟩ := mem_map.1 h
    simp only [raxUnder, Prod.mk.injEq] at heq
    exact hk ⟨e.1, heq.1⟩
  simp [entries_plug hfs, hmid]

end

/-- The nodes below `root`, with the links that lead to them. -/
inductive RaxPlace (root : RaxNode V) : RaxNode V → List (RaxFrame V) → Prop
  | head : RaxPlace root root []
  | edge {hdr : RaxHdr V} {es : List (UInt8 × RaxNode V)} {ts : List (RaxFrame V)} {j : Nat} {e : UInt8 × RaxNode V} :
      RaxPlace root (.normal hdr es) ts → es[j]? = some e → RaxPlace root e.2 (⟨.normal hdr es, j⟩ :: ts)
  | chain {hdr : RaxHdr V} {cs : List UInt8} {n : RaxNode V} {ts : List (RaxFrame V)} :
      RaxPlace root (.compr hdr cs n) ts → RaxPlace root n (⟨.compr hdr cs n, 0⟩ :: ts)

theorem setChild_self {j : Nat} {e : UInt8 × RaxNode V} (h : es[j]? = some e) :
    (normal hdr es).setChild j e.2 = .normal hdr es := by
  obtain ⟨hj, rfl⟩ := List.getElem?_eq_some_iff.1 h
  rw [setChild, modify_eq_take_cons_drop hj, ← drop_eq_getElem_cons hj,
    take_append_drop]

theorem RaxFrame.WF.of_normal {j : Nat} (h : (RaxNode.normal hdr es).WF) (hj : j < es.length) :
    (⟨.normal hdr es, j⟩ : RaxFrame V).WF := by
  cases h with
  | normal hsort hwf hlive =>
    constructor
    · rintro hdr' es' heq
      cases heq
      refine ⟨hj, hsort, fun e he => ?_⟩
      have hmem : e ∈ es := by
        rcases mem_append.1 he with he | he
        · exact mem_of_mem_take he
        · exact mem_of_mem_drop he
      exact ⟨hwf e hmem, hlive e hmem⟩
    · rintro hdr' cs' n' heq
      cases heq

theorem RaxFrame.WF.of_compr {cs : List UInt8} (j : Nat) (h : 2 ≤ cs.length) :
    (⟨.compr hdr cs n, j⟩ : RaxFrame V).WF := by
  constructor
  · rintro hdr' es' heq
    cases heq
  · rintro hdr' cs' n' heq
    cases heq
    exact h

theorem RaxPlace.spec {root : RaxNode V} {ts : List (RaxFrame V)} (h : RaxPlace root n ts) (hroot : root.WF) :
    raxPlug ts n = root ∧ (∀ f ∈ ts, f.WF) ∧ n.WF ∧ (ts ≠ [] → n.Live) := by
  induction h with
  | head => exact ⟨rfl, fun _ hf => absurd hf not_mem_nil, hroot, fun h => absurd rfl h⟩
  | @edge hdr es ts j e _ hget ih =>
    obtain ⟨hplug, hfs, hwf, -⟩ := ih
    have hf := RaxFrame.WF.of_normal hwf (List.getElem?_eq_some_iff.1 hget).1
    have hmem := mem_of_getElem? hget
    cases hwf with
    | normal _ hwf hlive =>
      refine ⟨?_, forall_mem_cons.2 ⟨hf, hfs⟩, hwf e hmem, fun _ => hlive e hmem⟩
      rw [raxPlug]
      rw [setChild_self hget, hplug]
  | chain _ ih =>
    obtain ⟨hplug, hfs, hwf, -⟩ := ih
    cases hwf with
    | compr hlen hwf hlive => exact ⟨hplug, forall_mem_cons.2 ⟨.of_compr 0 hlen, hfs⟩, hwf, fun _ => hlive⟩

end Redis
