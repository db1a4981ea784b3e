import Redis.Lib.Lists
import Redis.Sentinel

/-! # One leader per master and failover epoch

`Inv` ties the votes of a run to what the Sentinels know: a vote that a Sentinel holds, has heard of or
reports was cast for the epoch it carries, and the votes of a Sentinel for a master do not go above its
`leader_epoch`, which is always in its file. `sentinel_election` follows for runs in which a Sentinel
counts votes only while its current epoch is that of the failover. -/

namespace Redis.Sentinel
open List Function

variable {leaders : List Nat} {counters : List (Nat × Nat)}

/-! ### Counting -/

theorem sentinelLeaderIncr_le (l : Nat) : ∀ {counters : List (Nat × Nat)}, (∀ p ∈ counters, p.2 ≤ leaders.count p.1) →
      (∀ p ∈ (sentinelLeaderIncr l counters).1, p.2 ≤ (leaders ++ [l]).count p.1) ∧
        (sentinelLeaderIncr l counters).2 ≤ leaders.count l + 1
  | [], _ => by
    rw [sentinelLeaderIncr]
    refine ⟨fun p hp => ?_, Nat.le_add_left _ _⟩
    rw [mem_singleton.1 hp, count_append, count_singleton_self]
    exact Nat.le_add_left _ _
  | q :: counters, h => by
    obtain ⟨hq, hrest⟩ := forall_mem_cons.1 h
    have hmono : ∀ p : Nat × Nat, p.2 ≤ leaders.count p.1 → p.2 ≤ (leaders ++ [l]).count p.1 := by
      intro p hp
      rw [count_append]
      exact Nat.le_add_right_of_le hp
    rw [sentinelLeaderIncr]
    split
    next heq =>
      rw [heq] at hq
      refine ⟨forall_mem_cons.2 ⟨?_, fun p hp => hmono p (hrest p hp)⟩, Nat.succ_le_succ hq⟩
      rw [count_append, count_singleton_self]
      exact Nat.succ_le_succ hq
    · obtain ⟨h₁, h₂⟩ := sentinelLeaderIncr_le l hrest
      exact ⟨forall_mem_cons.2 ⟨hmono q hq, h₁⟩, h₂⟩

theorem countVotes_le (leaders : List Nat) : ∀ p ∈ countVotes leaders, p.2 ≤ leaders.count p.1 := by
  induction leaders using reverseRecOn with
  | nil => exact fun _ hp => absurd hp not_mem_nil
  | append_singleton leaders l ih =>
    rw [countVotes, foldl_append]
    exact (sentinelLeaderIncr_le l ih).1

theorem mostVotes_le (h : ∀ p ∈ counters, p.2 ≤ leaders.count p.1) (l : Nat) (hl : (mostVotes counters).2 = some l) :
    (mostVotes counters).1 ≤ leaders.count l := by
  induction counters using reverseRecOn with
  | nil => exact nomatch hl
  | append_singleton counters p ih =>
    rw [forall_mem_append] at h
    rw [mostVotes, foldl_append, ← mostVotes, foldl_cons] at hl ⊢
    by_cases hlt : (mostVotes counters).1 < p.2
    · rw [if_pos hlt] at hl ⊢
      rw [← Option.some.inj hl]
      exact h.2 p mem_cons_self
    · rw [if_neg hlt] at hl ⊢
      exact ih h.1 hl

theorem countOwn_le {best : Nat × Option Nat} {epoch l : Nat} {myvote : Vote}
    (h : ∀ p ∈ counters, p.2 ≤ leaders.count p.1) (hbest : ∀ l, best.2 = some l → best.1 ≤ leaders.count l)
    (hl : (countOwn counters best epoch myvote).2 = some l) : (countOwn counters best epoch myvote).1 ≤
      leaders.count l + if myvote.leader = some l ∧ myvote.leaderEpoch = epoch then 1 else 0 := by
  have hsame : best.2 = some l → best.1 ≤
      leaders.count l + if myvote.leader = some l ∧ myvote.leaderEpoch = epoch then 1 else 0 :=
    fun hl => Nat.le_add_right_of_le (hbest l hl)
  unfold countOwn at hl ⊢
  split at hl
  next hnone =>
    simpa only [hnone] using hsame hl
  next runid hrunid =>
    simp only [hrunid] at hsame ⊢
    split at hl
    next hepoch =>
      rw [if_pos hepoch]
      dsimp only at hl ⊢
      split at hl
      next hlt =>
        rw [if_pos hlt, if_pos ⟨hl, hepoch⟩, ← Option.some.inj hl]
        exact (sentinelLeaderIncr_le runid h).2
      next hlt =>
        rw [if_neg hlt]
        exact hsame hl
    next hepoch =>
      rw [if_neg hepoch]
      exact hsame hl

theorem count_reported (cfg : Config) (me m l : Nat) (nd : Node) :
    (nd.reported cfg me m).count l = ((cfg.others me m).filter fun v =>
      decide (((nd.masters m).sentinels v).leaderEpoch = nd.currentEpoch ∧
        ((nd.masters m).sentinels v).leader = some l)).length := by
  rw [Node.reported]
  induction cfg.others me m with
  | nil => rfl
  | cons v vs ih =>
    rw [filterMap_cons, filter_cons]
    by_cases he : ((nd.masters m).sentinels v).leaderEpoch = nd.currentEpoch
    · cases hl : ((nd.masters m).sentinels v).leader with
      | none => simpa [he] using ih
      | some l' =>
        by_cases hll : l' = l <;> simpa [he, hll] using ih
    · simpa [he] using ih

theorem sentinelGetLeader_votes {cfg : Config} {me m epoch l : Nat} {rank : Nat → Nat} {nd : Node}
    (h : (sentinelGetLeader cfg me m rank nd epoch).1 = some l) : ((cfg.others me m).length + 1) / 2 + 1 ≤
      (votesFor cfg me m nd epoch (sentinelGetLeader cfg me m rank nd epoch).2.2.1 l).length := by
  unfold sentinelGetLeader at h ⊢
  dsimp only at h ⊢
  have hcount := countVotes_le (nd.reported cfg me m)
  generalize hbest : mostVotes ((countVotes (nd.reported cfg me m)).insertionSort
    fun p q => rank p.1 ≤ rank q.1) = best at h ⊢
  have hmost : ∀ l, best.2 = some l → best.1 ≤ (nd.reported cfg me m).count l := by
    rw [← hbest]
    exact mostVotes_le fun p hp => hcount p ((perm_insertionSort _ _).subset hp)
  split at h
  · exact nomatch h
  rename_i hq
  rw [not_or, not_lt] at hq
  refine hq.1.trans ((countOwn_le hcount hmost h).trans (Nat.le_of_eq ?_))
  rw [votesFor, length_append, length_map, count_reported]
  split <;> rfl

/-! ### The invariant -/

/-- A vote that is held or reported was cast for the epoch it carries. -/
def Cast (evs : List Event) (v m : Nat) (vote : Vote) : Prop :=
  ∀ l, vote.leader = some l → .voted v m vote.leaderEpoch l ∈ evs

def Event.vote? : Event → Option (Nat × Nat × Nat)
  | .voted v m e _ => some (v, m, e)
  | .elected .. => none

/-- Who has voted, for which master and in which epoch. -/
def votes (evs : List Event) : List (Nat × Nat × Nat) := evs.filterMap Event.vote?

/-- The leader was elected by a majority, in this epoch. -/
structure Elected (cfg : Config) (evs : List Event) (l m e : Nat) (vs : List (Nat × Nat)) : Prop where
  nodup : (vs.map Prod.fst).Nodup
  monitors : ∀ p ∈ vs, p.1 ∈ cfg.sentinels m
  majority : (cfg.sentinels m).length / 2 + 1 ≤ vs.length
  cast : ∀ p ∈ vs, p.2 = e ∧ .voted p.1 m e l ∈ evs

/-- What Sentinel `n` knows of votes. -/
structure Node.Ok (evs : List Event) (n : Nat) (nd : Node) : Prop where
  saved : ∀ m, nd.saved.leaderEpoch m = (nd.masters m).vote.leaderEpoch
  own : ∀ m, Cast evs n m (nd.masters m).vote
  views : ∀ m v, Cast evs v m ((nd.masters m).sentinels v)

structure Inv (cfg : Config) (s : State) (evs : List Event) : Prop where
  nodes : ∀ n, (s.nodes n).Ok evs n
  bound : ∀ v m e l, .voted v m e l ∈ evs → e ≤ ((s.nodes v).masters m).vote.leaderEpoch
  once : (votes evs).Nodup
  replies : ∀ v w m vote, .reply v w m vote ∈ s.net → Cast evs v m vote
  elected : ∀ l m e vs, .elected l m e vs ∈ evs → Elected cfg evs l m e vs

/-- What a step of Sentinel `n` can do. -/
structure Effect (cfg : Config) (evs : List Event) (n : Nat) (nd : Node) (r : Node × List Msg × List Event) :
    Prop where
  ok : r.1.Ok (evs ++ r.2.2) n
  mono : ∀ m, (nd.masters m).vote.leaderEpoch ≤ (r.1.masters m).vote.leaderEpoch
  fresh : ∀ v m e l, .voted v m e l ∈ r.2.2 →
    v = n ∧ (nd.masters m).vote.leaderEpoch < e ∧ e ≤ (r.1.masters m).vote.leaderEpoch
  once : (votes r.2.2).Nodup
  replies : ∀ v w m vote, .reply v w m vote ∈ r.2.1 → Cast (evs ++ r.2.2) v m vote
  elected : ∀ l m e vs, .elected l m e vs ∈ r.2.2 → Elected cfg (evs ++ r.2.2) l m e vs

section
variable {cfg : Config} {evs evs' : List Event} {n m : Nat} {nd : Node} {s : State}
variable {v : Nat} {master : Master}

theorem Cast.mono {vote : Vote} (h : Cast evs v m vote) (hsub : evs ⊆ evs') : Cast evs' v m vote :=
  fun l hl => hsub (h l hl)

theorem Cast.none {e : Nat} : Cast evs v m ⟨none, e⟩ := nofun

theorem Elected.mono {l e : Nat} {vs : List (Nat × Nat)} (h : Elected cfg evs l m e vs) (hsub : evs ⊆ evs') :
    Elected cfg evs' l m e vs :=
  ⟨h.nodup, h.monitors, h.majority, fun p hp => ⟨(h.cast p hp).1, hsub (h.cast p hp).2⟩⟩

theorem Node.Ok.mono (h : nd.Ok evs n) (hsub : evs ⊆ evs') : nd.Ok evs' n :=
  ⟨h.saved, fun m => (h.own m).mono hsub, fun m v => (h.views m v).mono hsub⟩

theorem Node.Ok.flush (h : nd.Ok evs n) : nd.flush.Ok evs n := ⟨fun _ => rfl, h.own, h.views⟩

theorem Node.Ok.setMaster (h : nd.Ok evs n) (hepoch : master.vote.leaderEpoch = (nd.masters m).vote.leaderEpoch)
    (hown : Cast evs n m master.vote) (hviews : ∀ v, Cast evs v m (master.sentinels v)) :
    (nd.setMaster m master).Ok evs n := by
  refine ⟨(forall_update_iff _ fun m' (x : Master) => nd.saved.leaderEpoch m' = x.vote.leaderEpoch).2
    ⟨?_, fun m' _ => h.saved m'⟩,
    (forall_update_iff _ fun m' (x : Master) => Cast evs n m' x.vote).2 ⟨hown, fun m' _ => h.own m'⟩,
    (forall_update_iff _ fun m' (x : Master) => ∀ v, Cast evs v m' (x.sentinels v)).2 ⟨hviews, fun m' _ => h.views m'⟩⟩
  rw [hepoch]
  exact h.saved m

theorem mem_votes {p : Nat × Nat × Nat} : p ∈ votes evs ↔ ∃ l, .voted p.1 p.2.1 p.2.2 l ∈ evs := by
  rw [votes, mem_filterMap]
  constructor
  · rintro ⟨ev, hev, hvote⟩
    cases ev with
    | voted v m e l =>
      rw [← Option.some.inj hvote]
      exact ⟨l, hev⟩
    | elected => exact nomatch hvote
  · rintro ⟨l, hl⟩
    exact ⟨_, hl, rfl⟩

theorem voted_unique {e l l' : Nat} (h : (votes evs).Nodup) (hl : .voted v m e l ∈ evs) (hl' : .voted v m e l' ∈ evs) :
    l = l' := by
  induction evs with
  | nil => exact absurd hl not_mem_nil
  | cons ev evs ih =>
    rw [votes, filterMap_cons] at h
    rcases mem_cons.1 hl with rfl | hm <;> rcases mem_cons.1 hl' with heq | hm'
    · exact (Event.voted.inj heq).2.2.2.symm
    · exact absurd (mem_votes.2 ⟨l', hm'⟩) (nodup_cons.1 h).1
    · rw [← heq] at h
      exact absurd (mem_votes.2 ⟨l, hm⟩) (nodup_cons.1 h).1
    refine ih ?_ hm hm'
    split at h
    · exact h
    · exact (nodup_cons.1 h).2

theorem Inv.handle (h : Inv cfg s evs) {r : Node × List Msg × List Event}
    (hr : Effect cfg evs n (s.nodes n) r) : Inv cfg (s.handle n r).1 (evs ++ (s.handle n r).2) := by
  have hsub : evs ⊆ evs ++ r.2.2 := subset_append_left _ _
  have hle : ∀ v m, ((s.nodes v).masters m).vote.leaderEpoch ≤ ((update s.nodes n r.1 v).masters m).vote.leaderEpoch :=
    (forall_update_iff _ fun v (x : Node) => ∀ m, ((s.nodes v).masters m).vote.leaderEpoch ≤ (x.masters m).vote.leaderEpoch).2
      ⟨hr.mono, fun _ _ _ => le_rfl⟩
  refine ⟨(forall_update_iff _ fun v (x : Node) => x.Ok (evs ++ r.2.2) v).2 ⟨hr.ok, fun v _ => (h.nodes v).mono hsub⟩,
    fun v m e l hm => ?_, ?_, fun v w m vote hm => ?_, fun l m e vs hm => ?_⟩
  · rcases mem_append.1 hm with hm | hm
    · exact (h.bound v m e l hm).trans (hle v m)
    · obtain ⟨rfl, -, hnew⟩ := hr.fresh v m e l hm
      show e ≤ ((update s.nodes v r.1 v).masters m).vote.leaderEpoch
      rwa [update_self]
  · rw [votes, filterMap_append]
    refine nodup_append.2 ⟨h.once, hr.once, fun p hp q hq hpq => ?_⟩
    obtain ⟨l, hl⟩ := mem_votes.1 hp
    obtain ⟨l', hl'⟩ := mem_votes.1 hq
    rw [← hpq] at hl'
    obtain ⟨hv, hlt, -⟩ := hr.fresh _ _ _ _ hl'
    have hbound := h.bound _ _ _ _ hl
    rw [hv] at hbound
    omega
  · rcases mem_append.1 hm with hm | hm
    · exact (h.replies v w m vote hm).mono hsub
    · exact hr.replies v w m vote hm
  · rcases mem_append.1 hm with hm | hm
    · exact (h.elected l m e vs hm).mono hsub
    · exact hr.elected l m e vs hm

theorem Effect.quiet {nd' : Node} {msgs : List Msg} (hok : nd'.Ok evs n)
    (hle : ∀ m, (nd.masters m).vote.leaderEpoch ≤ (nd'.masters m).vote.leaderEpoch)
    (hmsgs : ∀ v w m vote, .reply v w m vote ∈ msgs → Cast evs v m vote) : Effect cfg evs n nd (nd', msgs, []) := by
  refine ⟨?_, hle, nofun, nodup_nil, fun v w m vote hm => ?_, nofun⟩
  · rwa [append_nil]
  · rw [append_nil]
    exact hmsgs v w m vote hm

theorem Effect.same (h : nd.Ok evs n) : Effect cfg evs n nd (nd, [], []) :=
  .quiet h (fun _ => le_rfl) nofun

theorem Effect.setMaster (h : nd.Ok evs n) (hepoch : master.vote.leaderEpoch = (nd.masters m).vote.leaderEpoch)
    (hown : Cast evs n m master.vote) (hviews : ∀ v, Cast evs v m (master.sentinels v)) :
    Effect cfg evs n nd (nd.setMaster m master, [], []) := by
  refine .quiet (h.setMaster hepoch hown hviews) ?_ nofun
  exact (forall_update_iff _ fun m' (x : Master) => (nd.masters m').vote.leaderEpoch ≤ x.vote.leaderEpoch).2
    ⟨hepoch.ge, fun _ _ => le_rfl⟩

theorem Effect.setView {vote : Vote} (h : nd.Ok evs n) (hvote : Cast evs v m vote) :
    Effect cfg evs n nd (nd.setView m v vote, [], []) := by
  refine .setMaster h rfl (h.own m) ?_
  exact (forall_update_iff _ fun v' x => Cast evs v' m x).2 ⟨hvote, fun v' _ => h.views m v'⟩

/-! ### Steps of one Sentinel -/

theorem Node.Ok.raiseEpoch (h : nd.Ok evs n) (e : Nat) : (nd.raiseEpoch e).Ok evs n := by
  unfold Node.raiseEpoch
  split
  · exact ⟨fun _ => rfl, h.own, h.views⟩
  · exact h

theorem raiseEpoch_masters (nd : Node) (e : Nat) : (nd.raiseEpoch e).masters = nd.masters := by
  unfold Node.raiseEpoch
  split <;> rfl

theorem le_raiseEpoch (nd : Node) (e : Nat) : e ≤ (nd.raiseEpoch e).currentEpoch := by
  unfold Node.raiseEpoch
  split
  · exact le_rfl
  · exact Nat.le_of_not_lt ‹_›

theorem sentinelVoteLeader_effect (cfg : Config) (h : nd.Ok evs n) (m epoch l w : Nat) :
    Effect cfg evs n nd ((sentinelVoteLeader n m nd epoch l).1,
      [.reply n w m (sentinelVoteLeader n m nd epoch l).2.1], (sentinelVoteLeader n m nd epoch l).2.2) := by
  have hok := h.raiseEpoch epoch
  have hmasters := raiseEpoch_masters nd epoch
  have hle := le_raiseEpoch nd epoch
  unfold sentinelVoteLeader
  generalize nd.raiseEpoch epoch = nd' at hok hmasters hle ⊢
  dsimp only
  by_cases hvote : (nd'.masters m).vote.leaderEpoch < epoch ∧ nd'.currentEpoch ≤ epoch
  · rw [if_pos hvote]
    have hcur : nd'.currentEpoch = epoch := le_antisymm hvote.2 hle
    have hsub : evs ⊆ evs ++ [.voted n m epoch l] := subset_append_left _ _
    have hnew : Cast (evs ++ [.voted n m epoch l]) n m ⟨some l, nd'.currentEpoch⟩ := by
      rintro l' hl'
      rw [← Option.some.inj hl', hcur]
      exact mem_append_right _ mem_cons_self
    refine ⟨⟨fun _ => rfl, ?_, ?_⟩, ?_, fun v m' e l' hm => ?_, ?_, fun v w m' vote hm => ?_, fun _ _ _ _ hm => ?_⟩
    · exact (forall_update_iff _ fun m' (x : Master) => Cast _ n m' x.vote).2 ⟨hnew, fun m' _ => (hok.own m').mono hsub⟩
    · exact (forall_update_iff _ fun m' (x : Master) => ∀ v, Cast _ v m' (x.sentinels v)).2
        ⟨fun v => (hok.views m v).mono hsub, fun m' _ v => (hok.views m' v).mono hsub⟩
    · rw [← hmasters]
      exact (forall_update_iff _ fun m' (x : Master) => (nd'.masters m').vote.leaderEpoch ≤ x.vote.leaderEpoch).2
        ⟨hvote.1.le.trans hle, fun _ _ => le_rfl⟩
    · obtain ⟨rfl, rfl, rfl, rfl⟩ := Event.voted.inj (mem_singleton.1 hm)
      rw [← hmasters]
      refine ⟨rfl, hvote.1, ?_⟩
      rw [Node.flush, setMaster_self]
      exact Nat.le_of_eq hcur.symm
    · exact nodup_singleton _
    · obtain ⟨rfl, -, rfl, rfl⟩ := Msg.reply.inj (mem_singleton.1 hm)
      exact hnew
    · exact absurd (mem_singleton.1 hm) Event.noConfusion
  · rw [if_neg hvote]
    refine .quiet hok (fun m => ?_) fun v w m' vote hm => ?_
    · rw [hmasters]
    · obtain ⟨rfl, -, rfl, rfl⟩ := Msg.reply.inj (mem_singleton.1 hm)
      exact hok.own m'

theorem receive_effect (cfg : Config) (msg : Msg) (h : nd.Ok evs msg.receiver)
    (hreply : ∀ v w m vote, msg = .reply v w m vote → Cast evs v m vote) :
    Effect cfg evs msg.receiver nd (receive nd msg) := by
  cases msg with
  | request sender receiver m epoch runid =>
    unfold receive
    dsimp only
    by_cases hbig : 2 ^ 63 ≤ epoch
    · rw [if_pos hbig]
      exact .same h
    rw [if_neg hbig]
    cases runid with
    | none =>
      refine .quiet h (fun _ => le_rfl) fun v w m' vote hm => ?_
      obtain ⟨-, -, -, rfl⟩ := Msg.reply.inj (mem_singleton.1 hm)
      exact .none
    | some id => exact sentinelVoteLeader_effect cfg h m epoch id sender
  | reply sender receiver m vote =>
    rw [receive]
    split
    · exact .same h
    · exact .setView h (hreply sender receiver m vote rfl)
  | hello receiver epoch =>
    refine .quiet (h.raiseEpoch epoch) (fun m => ?_) nofun
    rw [raiseEpoch_masters]

theorem others_eq_erase (cfg : Config) (me m : Nat) : cfg.others me m = (cfg.sentinels m).erase me := by
  rw [Config.others, (cfg.nodup m).erase_eq_filter]
  congr 1
  funext v
  by_cases h : v = me <;> simp [h]

theorem votesFor_elected {epoch l : Nat} {myvote : Vote} (hmon : n ∈ cfg.sentinels m) (h : nd.Ok evs n)
    (hsub : evs ⊆ evs') (hown : Cast evs' n m myvote) (hcur : nd.currentEpoch = epoch)
    (hlen : ((cfg.others n m).length + 1) / 2 + 1 ≤ (votesFor cfg n m nd epoch myvote l).length) :
    Elected cfg evs' l m epoch (votesFor cfg n m nd epoch myvote l) := by
  have hothers : (cfg.others n m).Nodup := (cfg.nodup m).filter _
  have hnot : n ∉ cfg.others n m := by
    intro hn
    exact of_decide_eq_true (mem_filter.1 hn).2 rfl
  refine ⟨?_, fun p hp => ?_, ?_, fun p hp => ?_⟩
  · rw [votesFor, map_append, map_map]
    refine nodup_append.2 ⟨?_, ?_, fun v hv w hw hvw => ?_⟩
    · have : (Prod.fst ∘ fun v => (v, ((nd.masters m).sentinels v).leaderEpoch)) = id := rfl
      rw [this, map_id]
      exact hothers.filter _
    · split
      · exact nodup_singleton _
      · exact nodup_nil
    obtain ⟨v', hv', rfl⟩ := mem_map.1 hv
    split at hw
    · have hw' : w = n := mem_singleton.1 hw
      rw [hw'] at hvw
      exact hnot (hvw ▸ (mem_filter.1 hv').1)
    · exact absurd hw not_mem_nil
  · rcases mem_append.1 hp with hp | hp
    · obtain ⟨v, hv, rfl⟩ := mem_map.1 hp
      exact (mem_filter.1 (mem_filter.1 hv).1).1
    split at hp
    · rw [mem_singleton.1 hp]
      exact hmon
    · exact absurd hp not_mem_nil
  · have hpos := length_pos_of_mem hmon
    rw [others_eq_erase, length_erase_of_mem hmon, Nat.sub_add_cancel hpos] at hlen
    exact hlen
  · rcases mem_append.1 hp with hp | hp
    · obtain ⟨v, hv, rfl⟩ := mem_map.1 hp
      obtain ⟨he, hl⟩ := of_decide_eq_true (mem_filter.1 hv).2
      have hv' := hsub (h.views m v l hl)
      rw [he, hcur] at hv'
      exact ⟨he.trans hcur, hv'⟩
    · split at hp
      next hmine =>
        rw [mem_singleton.1 hp]
        exact ⟨hmine.2, hmine.2 ▸ hown l hmine.1⟩
      · exact absurd hp not_mem_nil

theorem Effect.setState {nd' : Node} {new : List Event} {st : FailoverState} {evs₁ : List Event}
    (h : Effect cfg evs n nd (nd', [], new)) (hnone : ∀ v m e l, .voted v m e l ∉ evs₁)
    (hel : ∀ l m e vs, .elected l m e vs ∈ evs₁ → Elected cfg (evs ++ new) l m e vs) :
    Effect cfg evs n nd (nd'.setState m st, [], new ++ evs₁) := by
  have hepoch : ∀ m', ((nd'.setState m st).masters m').vote = (nd'.masters m').vote :=
    (forall_update_iff _ fun m' (x : Master) => x.vote = (nd'.masters m').vote).2 ⟨rfl, fun _ _ => rfl⟩
  have hsub : evs ++ new ⊆ evs ++ (new ++ evs₁) := by
    rw [← append_assoc]
    exact subset_append_left _ _
  have hvotes : votes evs₁ = [] := by
    refine eq_nil_iff_forall_not_mem.2 fun p hp => ?_
    obtain ⟨l, hl⟩ := mem_votes.1 hp
    exact hnone _ _ _ _ hl
  refine ⟨?_, fun m' => ?_, fun v m' e l hm => ?_, ?_, nofun, fun l m' e vs hm => ?_⟩
  · exact (h.ok.mono hsub).setMaster rfl ((h.ok.own m).mono hsub) fun v => (h.ok.views m v).mono hsub
  · exact (hepoch m').symm ▸ h.mono m'
  · rcases mem_append.1 hm with hm | hm
    · exact (hepoch m').symm ▸ h.fresh v m' e l hm
    · exact absurd hm (hnone v m' e l)
  · have hnew : votes (new ++ evs₁) = votes new := by
      rw [votes, filterMap_append, ← votes, ← votes, hvotes, append_nil]
    rw [hnew]
    exact h.once
  · rcases mem_append.1 hm with hm | hm
    · exact (h.elected l m' e vs hm).mono hsub
    · exact (hel l m' e vs hm).mono hsub

theorem sentinelFailoverWaitStart_effect {rank : Nat → Nat} {timeout : Bool} (hmon : n ∈ cfg.sentinels m)
    (h : nd.Ok evs n) (hcur : nd.currentEpoch = (nd.masters m).failoverEpoch) :
    Effect cfg evs n nd ((sentinelFailoverWaitStart cfg n m rank timeout nd).1, [],
      (sentinelFailoverWaitStart cfg n m rank timeout nd).2) := by
  generalize hepoch : (nd.masters m).failoverEpoch = epoch at hcur
  have hvotes : ∀ {l}, (sentinelGetLeader cfg n m rank nd epoch).1 = some l → _ := sentinelGetLeader_votes
  rw [sentinelFailoverWaitStart, hepoch]
  obtain ⟨l, hl⟩ : ∃ l, (sentinelGetLeader cfg n m rank nd epoch).2 = sentinelVoteLeader n m nd epoch l :=
    ⟨_, rfl⟩
  have heff := sentinelVoteLeader_effect cfg h m epoch l 0
  rw [← hl] at heff
  generalize sentinelGetLeader cfg n m rank nd epoch = r at heff hvotes ⊢
  have hown : Cast (evs ++ r.2.2.2) n m r.2.2.1 := heff.replies n 0 m _ mem_cons_self
  have hquiet : Effect cfg evs n nd (r.2.1, [], r.2.2.2) :=
    ⟨heff.ok, heff.mono, heff.fresh, heff.once, nofun, heff.elected⟩
  split
  next hlead =>
    refine hquiet.setState (fun v m' e l hm => ?_) fun l m' e vs hm => ?_
    · exact absurd (mem_singleton.1 hm) Event.noConfusion
    · obtain ⟨rfl, rfl, rfl, rfl⟩ := Event.elected.inj (mem_singleton.1 hm)
      exact votesFor_elected hmon h (subset_append_left _ _) hown hcur (hvotes hlead)
  · split
    · have hend : Effect cfg evs n nd (r.2.1.setState m .none, [], r.2.2.2 ++ []) := hquiet.setState nofun nofun
      rwa [append_nil] at hend
    · exact hquiet

/-! ### Runs -/

/-- A Sentinel counts votes only while its current epoch is still that of the failover. -/
def Op.InEpoch : Op → State → Prop
  | .failoverWaitStart n m _ _, s => ((s.nodes n).masters m).failoverState = .waitStart →
    (s.nodes n).currentEpoch = ((s.nodes n).masters m).failoverEpoch
  | _, _ => True

theorem masterStep_effect {op : Op} (h : nd.Ok evs n) (hmon : n ∈ cfg.sentinels m)
    (hcur : ∀ rank timeout, op = .failoverWaitStart n m rank timeout →
      (nd.masters m).failoverState = .waitStart → nd.currentEpoch = (nd.masters m).failoverEpoch)
    (hop : ∀ n' m' rank timeout, op = .failoverWaitStart n' m' rank timeout → n' = n ∧ m' = m) :
    Effect cfg evs n nd (masterStep cfg nd n m op) := by
  cases op with
  | startFailover _ _ =>
    rw [masterStep]
    split
    · -- only the current epoch changes besides the master
      have hnd : Node.Ok evs n { nd with currentEpoch := nextEpoch nd.currentEpoch } := ⟨h.saved, h.own, h.views⟩
      have heff : Effect cfg evs n _ (sentinelStartFailover m nd, [], []) :=
        .setMaster hnd rfl (hnd.own m) (hnd.views m)
      exact ⟨heff.ok, heff.mono, heff.fresh, heff.once, heff.replies, heff.elected⟩
    · exact .same h
  | ask _ _ receiver =>
    refine .quiet h (fun _ => le_rfl) fun v w m' vote hm => ?_
    split at hm
    · exact absurd (mem_singleton.1 hm) Msg.noConfusion
    · exact absurd hm not_mem_nil
  | forget _ _ v => exact .setView h .none
  | failoverWaitStart n' m' rank timeout =>
    obtain ⟨rfl, rfl⟩ := hop n' m' rank timeout rfl
    rw [masterStep]
    split
    · exact sentinelFailoverWaitStart_effect hmon h (hcur rank timeout rfl ‹_›)
    · exact .same h
  | endFailover _ _ =>
    rw [masterStep]
    split
    · exact Effect.setMaster h rfl (h.own m) (h.views m)
    · exact .same h
  | resetMaster _ _ => exact Effect.setMaster h rfl .none (h.views m)
  | _ => exact .same h

theorem step_inv (h : Inv cfg s evs) (op : Op) (hg : op.InEpoch s) :
    Inv cfg (step cfg op s).1 (evs ++ (step cfg op s).2) := by
  have hnet : ∀ net, net ⊆ s.net → Inv cfg { s with net := net } evs := fun net hsub =>
    ⟨h.nodes, h.bound, h.once, fun v w m vote hm => h.replies v w m vote (hsub hm), h.elected⟩
  have honMaster : ∀ n m, (∀ n' m' rank timeout, op = .failoverWaitStart n' m' rank timeout → n' = n ∧ m' = m) →
      Inv cfg (if cfg.monitors n m then s.handle n (masterStep cfg (s.nodes n) n m op) else (s, [])).1
        (evs ++ (if cfg.monitors n m then s.handle n (masterStep cfg (s.nodes n) n m op) else (s, [])).2) := by
    intro n m hop
    split
    next hmon =>
      refine h.handle (masterStep_effect (h.nodes n) (contains_iff_mem.1 hmon) ?_ hop)
      rintro rank timeout rfl
      exact hg
    · rwa [append_nil]
  cases op with
  | startFailover n m | ask n m _ | forget n m _ => exact honMaster n m nofun
  | failoverWaitStart n m _ _ =>
    refine honMaster n m fun n' m' rank timeout heq => ?_
    obtain ⟨rfl, rfl, -⟩ := Op.failoverWaitStart.inj heq
    exact ⟨rfl, rfl⟩
  | endFailover n m | resetMaster n m => exact honMaster n m nofun
  | hello n receiver =>
    refine h.handle (.quiet (h.nodes n) (fun _ => le_rfl) fun v w m vote hm => ?_)
    exact absurd (mem_singleton.1 hm) Msg.noConfusion
  | flush n => exact h.handle (.quiet (h.nodes n).flush (fun _ => le_rfl) nofun)
  | restart n configEpoch =>
    refine h.handle (.quiet ⟨fun _ => rfl, fun _ => .none, fun _ _ => .none⟩ (fun m => ?_) nofun)
    exact Nat.le_of_eq ((h.nodes n).saved m).symm
  | deliver i =>
    rw [step]
    split
    · rwa [append_nil]
    next msg hmsg =>
      have hmem : msg ∈ s.net := mem_of_getElem? hmsg
      refine (hnet _ (eraseIdx_subset)).handle (receive_effect cfg msg (h.nodes _) ?_)
      rintro v w m vote rfl
      exact h.replies v w m vote hmem
  | lose i =>
    rw [step, append_nil]
    exact hnet _ eraseIdx_subset

end

theorem inv_init (cfg : Config) : Inv cfg .init [] :=
  ⟨fun _ => ⟨fun _ => rfl, fun _ => .none, fun _ _ => .none⟩, nofun, nodup_nil, nofun, nofun⟩

/-- A Sentinel votes at most once for a master in an epoch, a master has at most one leader in a failover
epoch, and a leader has the votes of a majority, all of them cast for it in that epoch. -/
theorem sentinel_election (cfg : Config) (ops : List Op)
    (h : (machine cfg).Guarded Op.InEpoch ops State.init) :
    ∃ s rs, (machine cfg).run ops State.init = some (s, rs) ∧
      (votes rs.flatten).Nodup ∧
      (∀ l l' m e vs vs', .elected l m e vs ∈ rs.flatten → .elected l' m e vs' ∈ rs.flatten → l = l') ∧
      ∀ l m e vs, .elected l m e vs ∈ rs.flatten →
        (cfg.sentinels m).length / 2 + 1 ≤ vs.length ∧ (vs.map Prod.fst).Nodup ∧
        ∀ v e', (v, e') ∈ vs → v ∈ cfg.sentinels m ∧ e' = e ∧ .voted v m e l ∈ rs.flatten := by
  obtain ⟨s, rs, hrun, hinv⟩ := h.total_log (J := fun s rs => Inv cfg s rs.flatten) (l := []) (inv_init cfg)
    fun hI hop => ⟨_, _, rfl, by rw [flatten_concat]; exact step_inv hI _ hop⟩
  refine ⟨s, rs, hrun, hinv.once, fun l l' m e vs vs' hl hl' => ?_, fun l m e vs hl => ?_⟩
  · have he := hinv.elected l m e vs hl
    have he' := hinv.elected l' m e vs' hl'
    obtain ⟨v, hv, hv'⟩ := exists_common_of_majorities he.nodup he'.nodup
      (forall_mem_map.2 he.monitors) (forall_mem_map.2 he'.monitors)
      (by rw [length_map]; exact he.majority) (by rw [length_map]; exact he'.majority)
    obtain ⟨p, hp, rfl⟩ := mem_map.1 hv
    obtain ⟨q, hq, hpq⟩ := mem_map.1 hv'
    have hvote := (he.cast p hp).2
    have hvote' := (he'.cast q hq).2
    rw [hpq] at hvote'
    exact voted_unique hinv.once hvote hvote'
  · have he := hinv.elected l m e vs hl
    exact ⟨he.majority, he.nodup, fun v e' hv => ⟨he.monitors _ hv, he.cast _ hv⟩⟩

instance : ∀ (op : Op) (s : State), Decidable (op.InEpoch s)
  | .startFailover _ _, _ => isTrue trivial
  | .ask _ _ _, _ => isTrue trivial
  | .forget _ _ _, _ => isTrue trivial
  | .failoverWaitStart _ _ _ _, _ => inferInstanceAs (Decidable (_ → _))
  | .endFailover _ _, _ => isTrue trivial
  | .resetMaster _ _, _ => isTrue trivial
  | .hello _ _, _ => isTrue trivial
  | .flush _, _ => isTrue trivial
  | .restart _ _, _ => isTrue trivial
  | .deliver _, _ => isTrue trivial
  | .lose _, _ => isTrue trivial

/-- Three Sentinels, which monitor the same masters with a quorum of two. -/
def threeSentinels : Config := ⟨fun _ => [0, 1, 2], fun _ => by decide, fun _ _ => 2⟩

theorem sentinel_election_won :
    ∃ s rs, (machine threeSentinels).run [.startFailover 0 0, .failoverWaitStart 0 0 id false, .ask 0 0 1,
        .ask 0 0 2, .deliver 0, .lose 0, .deliver 0, .failoverWaitStart 0 0 id false] State.init = some (s, rs) ∧
      (votes rs.flatten).Nodup ∧
      (∀ l l' m e vs vs', .elected l m e vs ∈ rs.flatten → .elected l' m e vs' ∈ rs.flatten → l = l') ∧
      ∀ l m e vs, .elected l m e vs ∈ rs.flatten →
        (threeSentinels.sentinels m).length / 2 + 1 ≤ vs.length ∧ (vs.map Prod.fst).Nodup ∧
        ∀ v e', (v, e') ∈ vs → v ∈ threeSentinels.sentinels m ∧ e' = e ∧ .voted v m e l ∈ rs.flatten :=
  sentinel_election threeSentinels _ (Machine.guarded_of_check (by decide))

/-- Sentinels 0 and 1 start a failover of master 0 in epoch 1, and 1 is elected with the vote of 2. Then 2
starts a failover of master 1 in epoch 2, and 0 hears of this epoch. It now asks for votes for epoch 2, and
counts the vote of 2 for epoch 2 together with its own for epoch 1: master 0 has two leaders in epoch 1. -/
theorem sentinel_two_leaders :
    ((machine threeSentinels).run [.startFailover 0 0, .failoverWaitStart 0 0 id false,
        .startFailover 1 0, .failoverWaitStart 1 0 id false, .ask 1 0 2, .deliver 0, .deliver 0,
        .failoverWaitStart 1 0 id false,
        .startFailover 2 1, .hello 2 0, .deliver 0, .ask 0 0 2, .deliver 0, .deliver 0,
        .failoverWaitStart 0 0 id false] State.init).map (fun p => p.2.flatten) =
      some [.voted 0 0 1 0, .voted 1 0 1 1, .voted 2 0 1 1, .elected 1 0 1 [(2, 1), (1, 1)],
        .voted 2 0 2 0, .elected 0 0 1 [(2, 2), (0, 1)]] := by
  decide

end Redis.Sentinel
