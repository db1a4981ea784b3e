import Redis.ClusterFailover
import Redis.Lib.Lists

/-! # One winner per epoch

`Inv` ties the events of a run to the nodes and to the messages on their way: a master has voted up to its
`lastVoteEpoch`, a replica has asked for votes up to its saved epoch or that of its election, and the votes
that it has counted since its last request are those of different masters for that request.
`election_safety` follows, for runs in which no vote was counted when a replica asks for votes and no node
restarts before its last vote and request are saved. -/

namespace Redis.Cluster
open List Function

variable {evs : List Event}

/-! ### The invariant -/

def Msg.IsRequest (m : Msg) : Prop := ∃ slots force, m.data = .failoverAuthRequest slots force

def Msg.IsAck (m : Msg) : Prop := m.data = .failoverAuthAck

structure Node.Ok (nd : Node) : Prop where
  savedVote : nd.saved.lastVoteEpoch ≤ nd.saved.currentEpoch
  vote : nd.lastVoteEpoch ≤ nd.currentEpoch
  saved : nd.saved.currentEpoch ≤ nd.currentEpoch
  auth : nd.failoverAuthEpoch ≤ nd.currentEpoch

/-- No epoch beyond this one was asked for. -/
def Node.asked (nd : Node) : Nat := max nd.saved.currentEpoch nd.failoverAuthEpoch

/-- The masters `Q` have voted for the replica in the epoch, and it has got their messages. -/
def Voters (cfg : Config) (evs : List Event) (Q : List Nat) (r e : Nat) : Prop :=
  Q.Nodup ∧ ∀ v ∈ Q, v ∈ cfg.masters ∧ .voted v r e ∈ evs ∧ .acked r v e ∈ evs

structure Inv (cfg : Config) (s : State) (evs : List Event) : Prop where
  ok : ∀ n, (s.nodes n).Ok
  voted : ∀ v r e, .voted v r e ∈ evs → .requested r e ∈ evs ∧ e ≤ (s.nodes v).lastVoteEpoch
  once : ∀ v r r' e, .voted v r e ∈ evs → .voted v r' e ∈ evs → r = r'
  requested : ∀ r e, .requested r e ∈ evs → e ≤ (s.nodes r).asked ∧
    ((s.nodes r).failoverAuthSent = true → e ≤ (s.nodes r).failoverAuthEpoch)
  requests : ∀ m ∈ s.net, m.IsRequest → .requested m.sender m.currentEpoch ∈ evs
  acks : ∀ m ∈ s.net, m.IsAck → .voted m.sender m.receiver m.currentEpoch ∈ evs
  distinct : s.net.Pairwise fun m m' => m.IsAck → m'.IsAck →
    ¬ (m.sender = m'.sender ∧ m.receiver = m'.receiver ∧ m.currentEpoch = m'.currentEpoch)
  counted : ∀ r, (s.nodes r).failoverAuthSent = true → ∃ Q,
    Voters cfg evs Q r (s.nodes r).failoverAuthEpoch ∧ Q.length = (s.nodes r).failoverAuthCount ∧
    ∀ m ∈ s.net, m.IsAck → m.receiver = r → m.currentEpoch = (s.nodes r).failoverAuthEpoch → m.sender ∉ Q
  won : ∀ r e, .won r e ∈ evs → ∃ Q, Voters cfg evs Q r e ∧ cfg.neededQuorum ≤ Q.length

theorem Voters.mono {cfg : Config} {evs' : List Event} {Q : List Nat} {r e : Nat} (h : Voters cfg evs Q r e)
    (hevs : evs ⊆ evs') : Voters cfg evs' Q r e :=
  ⟨h.1, fun v hv => ⟨(h.2 v hv).1, hevs (h.2 v hv).2.1, hevs (h.2 v hv).2.2⟩⟩

/-- Some messages are gone, and some that are not about elections have come. -/
def Fewer (net net' : List Msg) : Prop :=
  ∃ sub extra, net' = sub ++ extra ∧ sub.Sublist net ∧ ∀ m ∈ extra, m.data = .other

/-- A node goes on without a vote, a request or a vote counted in its election. -/
structure Node.Quiet (nd nd' : Node) : Prop where
  ok : nd'.Ok
  lastVote : nd'.lastVoteEpoch = nd.lastVoteEpoch
  asked : nd.asked ≤ nd'.asked
  election : nd'.failoverAuthSent = true → nd.failoverAuthSent = true ∧
    nd'.failoverAuthEpoch = nd.failoverAuthEpoch ∧ nd'.failoverAuthCount = nd.failoverAuthCount

section
variable {nd nd' nd'' : Node}

theorem Node.Quiet.trans (h : nd.Quiet nd') (h' : nd'.Quiet nd'') : nd.Quiet nd'' := by
  refine ⟨h'.ok, h'.lastVote.trans h.lastVote, h.asked.trans h'.asked, fun hs => ?_⟩
  obtain ⟨hs₁, he₁, hc₁⟩ := h'.election hs
  obtain ⟨hs₂, he₂, hc₂⟩ := h.election hs₁
  exact ⟨hs₂, he₁.trans he₂, hc₁.trans hc₂⟩

theorem Node.Quiet.refl (h : nd.Ok) : nd.Quiet nd := ⟨h, rfl, le_rfl, fun hs => ⟨hs, rfl, rfl⟩⟩

end

variable {m : Msg}

theorem Fewer.mem {net net' : List Msg} (h : Fewer net net') (hm : m ∈ net') (hd : m.data ≠ .other) :
    m ∈ net := by
  obtain ⟨sub, extra, rfl, hsub, hextra⟩ := h
  rcases mem_append.1 hm with hm | hm
  · exact hsub.subset hm
  · exact absurd (hextra m hm) hd

theorem Msg.IsAck.ne_other (h : m.IsAck) : m.data ≠ .other := by
  rw [h]
  exact MsgData.noConfusion

theorem Msg.IsRequest.ne_other (h : m.IsRequest) : m.data ≠ .other := by
  obtain ⟨slots, force, h⟩ := h
  rw [h]
  exact MsgData.noConfusion

section inv
variable {cfg : Config} {s : State} {evs : List Event}
variable {net' : List Msg} {n : Nat}

theorem Fewer.distinct {R : Msg → Msg → Prop} {net : List Msg} (h : Fewer net net')
    (hp : net.Pairwise fun m m' => m.IsAck → m'.IsAck → R m m') :
    net'.Pairwise fun m m' => m.IsAck → m'.IsAck → R m m' := by
  obtain ⟨sub, extra, rfl, hsub, hextra⟩ := h
  refine pairwise_append.2 ⟨hp.sublist hsub, ?_, fun m _ m' hm' _ ha => ?_⟩
  · refine List.Pairwise.imp_of_mem (fun hm _ _ ha => ?_) (pairwise_of_forall fun _ _ => trivial)
    exact absurd (hextra _ hm) ha.ne_other
  · exact absurd (hextra m' hm') ha.ne_other

section
variable (h : Inv cfg s evs)
include h

theorem Inv.fewer (hnet : Fewer s.net net') : Inv cfg { s with net := net' } evs := by
  refine ⟨h.ok, h.voted, h.once, h.requested, fun m hm hr => h.requests m (hnet.mem hm hr.ne_other) hr,
    fun m hm ha => h.acks m (hnet.mem hm ha.ne_other) ha, hnet.distinct h.distinct, fun r hs => ?_, h.won⟩
  obtain ⟨Q, hQ, hlen, hno⟩ := h.counted r hs
  exact ⟨Q, hQ, hlen, fun m hm ha => hno m (hnet.mem hm ha.ne_other) ha⟩

theorem Inv.event {ev : Event}
    (hvote : ∀ v r e, ev = .voted v r e → .requested r e ∈ evs ∧ e ≤ (s.nodes v).lastVoteEpoch ∧ ∀ r', .voted v r' e ∉ evs)
    (hreq : ∀ r e, ev = .requested r e → e ≤ (s.nodes r).asked ∧
      ((s.nodes r).failoverAuthSent = true → e ≤ (s.nodes r).failoverAuthEpoch))
    (hwon : ∀ r e, ev = .won r e → ∃ Q, Voters cfg evs Q r e ∧ cfg.neededQuorum ≤ Q.length) :
    Inv cfg s (evs ++ [ev]) := by
  have hsub : evs ⊆ evs ++ [ev] := subset_append_left _ _
  have hcases : ∀ {e'}, e' ∈ evs ++ [ev] → e' ∈ evs ∨ ev = e' := by
    intro e' hm
    rcases mem_append.1 hm with hm | hm
    · exact .inl hm
    · exact .inr (mem_singleton.1 hm).symm
  refine ⟨h.ok, fun v r e hm => ?_, fun v r r' e hm hm' => ?_, fun r e hm => ?_, fun m hm hr => hsub (h.requests m hm hr),
    fun m hm ha => hsub (h.acks m hm ha), h.distinct, fun r hs => ?_, fun r e hm => ?_⟩
  · rcases hcases hm with hm | rfl
    · obtain ⟨hr, hle⟩ := h.voted v r e hm
      exact ⟨hsub hr, hle⟩
    · obtain ⟨hr, hle, -⟩ := hvote v r e rfl
      exact ⟨hsub hr, hle⟩
  · rcases hcases hm with h₁ | he₁
    · rcases hcases hm' with h₂ | he₂
      · exact h.once v r r' e h₁ h₂
      · exact absurd h₁ ((hvote v r' e he₂).2.2 r)
    · rcases hcases hm' with h₂ | he₂
      · exact absurd h₂ ((hvote v r e he₁).2.2 r')
      · cases he₁.symm.trans he₂
        rfl
  · rcases hcases hm with hm | rfl
    · exact h.requested r e hm
    · exact hreq r e rfl
  · obtain ⟨Q, hQ, hrest⟩ := h.counted r hs
    exact ⟨Q, hQ.mono hsub, hrest⟩
  · rcases hcases hm with hm | rfl
    · obtain ⟨Q, hQ, hlen⟩ := h.won r e hm
      exact ⟨Q, hQ.mono hsub, hlen⟩
    · obtain ⟨Q, hQ, hlen⟩ := hwon r e rfl
      exact ⟨Q, hQ.mono hsub, hlen⟩

theorem Inv.acked {ev : Event} (hev : ev = .none ∨ ∃ r v e, ev = .acked r v e) : Inv cfg s (evs ++ [ev]) := by
  refine h.event (fun v r e he => ?_) (fun r e he => ?_) fun r e he => ?_
  all_goals
    subst he
    rcases hev with hev | ⟨_, _, _, hev⟩ <;> cases hev

/-- The votes that a node has counted in its election, in the net and the events that there are. -/
def Counted (cfg : Config) (net : List Msg) (evs : List Event) (n : Nat) (nd : Node) : Prop :=
  ∃ Q, Voters cfg evs Q n nd.failoverAuthEpoch ∧ Q.length = nd.failoverAuthCount ∧
    ∀ m ∈ net, m.IsAck → m.receiver = n → m.currentEpoch = nd.failoverAuthEpoch → m.sender ∉ Q

theorem Inv.update {nd' : Node} (hok : nd'.Ok) (hvote : (s.nodes n).lastVoteEpoch ≤ nd'.lastVoteEpoch)
    (hasked : (s.nodes n).asked ≤ nd'.asked)
    (hreq : nd'.failoverAuthSent = true → ∀ e, .requested n e ∈ evs → e ≤ nd'.failoverAuthEpoch)
    (hcount : nd'.failoverAuthSent = true → Counted cfg s.net evs n nd') :
    Inv cfg { s with nodes := update s.nodes n nd' } evs := by
  refine ⟨(forall_update_iff _ fun _ (x : Node) => x.Ok).2 ⟨hok, fun k _ => h.ok k⟩,
    (forall_update_iff _ fun v (x : Node) => ∀ r e, .voted v r e ∈ evs → .requested r e ∈ evs ∧ e ≤ x.lastVoteEpoch).2
      ⟨fun r e hm => (h.voted n r e hm).imp_right (le_trans · hvote), fun v _ => h.voted v⟩, h.once,
    (forall_update_iff _ fun r (x : Node) => ∀ e, .requested r e ∈ evs → e ≤ x.asked ∧
        (x.failoverAuthSent = true → e ≤ x.failoverAuthEpoch)).2
      ⟨fun e hm => ⟨(h.requested n e hm).1.trans hasked, fun hs => hreq hs e hm⟩, fun r _ => h.requested r⟩,
    h.requests, h.acks, h.distinct,
    (forall_update_iff _ fun r (x : Node) => x.failoverAuthSent = true → Counted cfg s.net evs r x).2
      ⟨hcount, fun r _ => h.counted r⟩, h.won⟩

theorem Inv.quiet {nd' : Node} (hq : (s.nodes n).Quiet nd') :
    Inv cfg { s with nodes := Function.update s.nodes n nd' } evs := by
  refine h.update hq.ok hq.lastVote.symm.le hq.asked (fun hs e hm => ?_) fun hs => ?_
  · obtain ⟨hs', he, -⟩ := hq.election hs
    rw [he]
    exact (h.requested n e hm).2 hs'
  · obtain ⟨hs', he, hc⟩ := hq.election hs
    rw [Counted, he, hc]
    exact h.counted n hs'

theorem Inv.count {A B : List Msg} (hnet : s.net = A ++ m :: B) (ha : m.IsAck)
    (hm : m.sender ∈ cfg.masters) (hsent : (s.nodes m.receiver).failoverAuthSent = true)
    (hepoch : (s.nodes m.receiver).failoverAuthEpoch ≤ m.currentEpoch) : Inv cfg ⟨Function.update s.nodes m.receiver
        { s.nodes m.receiver with failoverAuthCount := (s.nodes m.receiver).failoverAuthCount + 1 }, A ++ B⟩
      (evs ++ [.acked m.receiver m.sender m.currentEpoch]) := by
  have hmem : m ∈ s.net := by rw [hnet]; simp
  have hfew : Fewer s.net (A ++ B) := ⟨A ++ B, [], by simp, by rw [hnet]; simp, by simp⟩
  have hvote := h.acks m hmem ha
  have hlast := (h.requested _ _ (h.voted _ _ _ hvote).1).2 hsent
  have heq : m.currentEpoch = (s.nodes m.receiver).failoverAuthEpoch := le_antisymm hlast hepoch
  have h' := (h.fewer hfew).acked (Or.inr ⟨m.receiver, m.sender, m.currentEpoch, rfl⟩)
  have hok := h.ok m.receiver
  obtain ⟨Q, hQ, hlen, hno⟩ := h.counted _ hsent
  refine h'.update ⟨hok.savedVote, hok.vote, hok.saved, hok.auth⟩ le_rfl le_rfl
    (fun hs e he => (h'.requested _ e he).2 hs) fun _ => ?_
  refine ⟨m.sender :: Q, ⟨nodup_cons.2 ⟨hno m hmem ha rfl heq, hQ.1⟩, fun v hv => ?_⟩, ?_,
    fun m' hm' ha' hr he hin => ?_⟩
  · rcases mem_cons.1 hv with rfl | hv
    · exact ⟨hm, mem_append_left _ (heq ▸ hvote), heq ▸ (by simp)⟩
    · exact (hQ.mono (subset_append_left _ _)).2 v hv
  · rw [length_cons, hlen]
  rcases mem_cons.1 hin with hin | hin
  -- another message with the same vote
  · have hd := h.distinct
    rw [hnet, pairwise_append, pairwise_cons] at hd
    have he' : m'.currentEpoch = m.currentEpoch := he.trans heq.symm
    rcases mem_append.1 hm' with hm' | hm'
    · exact hd.2.2 m' hm' m (.head _) ha' ha ⟨hin, hr, he'⟩
    · exact hd.2.1.1 m' hm' ha ha' ⟨hin.symm, hr.symm, he'.symm⟩
  · exact hno m' (hfew.mem hm' ha'.ne_other) ha' hr he hin

theorem Inv.vote {v r e c : Nat} (hreq : .requested r e ∈ evs) (hle : e ≤ (s.nodes v).lastVoteEpoch)
    (hfirst : ∀ r', .voted v r' e ∉ evs) :
    Inv cfg { s with net := s.net ++ [⟨v, r, e, c, .failoverAuthAck⟩] } (evs ++ [.voted v r e]) := by
  have h' : Inv cfg s (evs ++ [.voted v r e]) := by
    refine h.event (fun v' r' e' he => ?_) nofun nofun
    cases he
    exact ⟨hreq, hle, hfirst⟩
  refine ⟨h'.ok, h'.voted, h'.once, h'.requested, fun m hm hr => ?_, fun m hm ha => ?_, ?_, fun n hs => ?_, h'.won⟩
  · rcases mem_append.1 hm with hm | hm
    · exact h'.requests m hm hr
    · obtain ⟨slots, force, hdata⟩ := hr
      rw [mem_singleton.1 hm] at hdata
      cases hdata
  · rcases mem_append.1 hm with hm | hm
    · exact h'.acks m hm ha
    · rw [mem_singleton.1 hm]
      simp
  · refine pairwise_append.2 ⟨h.distinct, pairwise_singleton _ _, fun m hm m' hm' ha _ heq => ?_⟩
    rw [mem_singleton.1 hm'] at heq
    obtain ⟨rfl, -, rfl⟩ := heq
    exact hfirst _ (h.acks m hm ha)
  · obtain ⟨Q, hQ, hlen, hno⟩ := h.counted n hs
    refine ⟨Q, hQ.mono (subset_append_left _ _), hlen, fun m hm ha hr he hin => ?_⟩
    rcases mem_append.1 hm with hm | hm
    · exact hno m hm ha hr he hin
    · rw [mem_singleton.1 hm] at he hin
      exact hfirst n (by rw [show e = _ from he]; exact (hQ.2 v hin).2.1)

theorem Inv.request {e : Nat} {msgs : List Msg} (hsent : e ≤ (s.nodes n).failoverAuthEpoch)
    (hmsgs : ∀ m ∈ msgs, m.IsRequest ∧ m.sender = n ∧ m.currentEpoch = e) :
    Inv cfg { s with net := s.net ++ msgs } (evs ++ [.requested n e]) := by
  have h' : Inv cfg s (evs ++ [.requested n e]) := by
    refine h.event nofun (fun r e' he => ?_) nofun
    cases he
    exact ⟨hsent.trans (le_max_right _ _), fun _ => hsent⟩
  have hnoack : ∀ m ∈ msgs, ¬ m.IsAck := by
    intro m hm ha
    obtain ⟨slots, force, hdata⟩ := (hmsgs m hm).1
    rw [ha] at hdata
    cases hdata
  have hack : ∀ {m}, m ∈ s.net ++ msgs → m.IsAck → m ∈ s.net := by
    intro m hm ha
    rcases mem_append.1 hm with hm | hm
    · exact hm
    · exact absurd ha (hnoack m hm)
  refine ⟨h'.ok, h'.voted, h'.once, h'.requested, fun m hm hr => ?_, fun m hm ha => h'.acks m (hack hm ha) ha, ?_,
    fun r hs => ?_, h'.won⟩
  · rcases mem_append.1 hm with hm | hm
    · exact h'.requests m hm hr
    · obtain ⟨-, hs, he⟩ := hmsgs m hm
      rw [hs, he]
      simp
  · refine pairwise_append.2 ⟨h.distinct, ?_, fun m _ m' hm' _ ha' => absurd ha' (hnoack m' hm')⟩
    exact List.Pairwise.imp_of_mem (fun hm _ _ ha => absurd ha (hnoack _ hm))
      (pairwise_of_forall fun _ _ => trivial)
  · obtain ⟨Q, hQ, hlen, hno⟩ := h'.counted r hs
    exact ⟨Q, hQ, hlen, fun m hm ha => hno m (hack hm ha) ha⟩

theorem Inv.win (hsent : (s.nodes n).failoverAuthSent = true) (hq : cfg.neededQuorum ≤ (s.nodes n).failoverAuthCount) :
    Inv cfg s (evs ++ [.won n (s.nodes n).failoverAuthEpoch]) := by
  refine h.event nofun nofun fun r e he => ?_
  cases he
  obtain ⟨Q, hQ, hlen, -⟩ := h.counted n hsent
  exact ⟨Q, hQ, hlen ▸ hq⟩

end

end inv

/-! ### Steps -/

/-- A message that is delivered is there; no epoch wraps around; a replica that is to ask for votes, in an
election that it has set up, has not counted a vote yet; and a node that restarts has saved its last vote and
the epoch of its last request. -/
def Op.Allowed (cfg : Config) : Op → State → Prop
  | .deliver i _, s => i < s.net.length
  | .failover n env, s => (s.nodes n).currentEpoch + 1 < 2 ^ 64 ∧
    ((s.nodes n).failoverAuthSent = false → (s.nodes n).authAge env.now ≤ cfg.authRetryTime →
      (s.nodes n).failoverAuthCount = 0)
  | .restart n _, s => (s.nodes n).saved.lastVoteEpoch = (s.nodes n).lastVoteEpoch ∧
    (s.nodes n).failoverAuthEpoch ≤ (s.nodes n).saved.currentEpoch
  | .collision n, s => (s.nodes n).currentEpoch + 1 < 2 ^ 64
  | _, _ => True

section step
variable {cfg : Config} {s : State} {evs : List Event} {nd : Node}

theorem nextEpoch_eq {e : Nat} (h : e + 1 < 2 ^ 64) : nextEpoch e = e + 1 := Nat.mod_eq_of_lt h

theorem Node.Ok.newConfigEpoch (h : nd.Ok) (hw : nd.currentEpoch + 1 < 2 ^ 64) : nd.Quiet nd.newConfigEpoch := by
  have hle : nd.currentEpoch ≤ nextEpoch nd.currentEpoch := nextEpoch_eq hw ▸ Nat.le_succ _
  exact ⟨⟨h.savedVote, h.vote.trans hle, h.saved.trans hle, h.auth.trans hle⟩, rfl, le_rfl,
    fun hs => ⟨hs, rfl, rfl⟩⟩

theorem Node.Ok.clusterBeforeSleep (h : nd.Ok) : nd.Quiet nd.clusterBeforeSleep := by
  unfold Node.clusterBeforeSleep
  split
  · exact ⟨⟨h.vote, h.vote, le_rfl, h.auth⟩, rfl, max_le_max_right _ h.saved, fun hs => ⟨hs, rfl, rfl⟩⟩
  · exact .refl h

theorem Node.Ok.restart (h : nd.Ok) (hvote : nd.saved.lastVoteEpoch = nd.lastVoteEpoch)
    (hauth : nd.failoverAuthEpoch ≤ nd.saved.currentEpoch) (maxEpoch : Nat) : nd.Quiet (nd.restart maxEpoch) :=
  ⟨⟨h.savedVote, h.savedVote.trans (le_max_left _ _), le_max_left _ _, Nat.zero_le _⟩, hvote,
    (max_le le_rfl hauth).trans (le_max_left _ _), nofun⟩

theorem Node.Ok.schedule (h : nd.Ok) (env : FailoverEnv) : nd.Quiet (nd.schedule env) :=
  ⟨⟨h.savedVote, h.vote, h.saved, h.auth⟩, rfl, le_rfl, nofun⟩

theorem Node.Ok.updateRank (h : nd.Ok) (env : FailoverEnv) : nd.Quiet (nd.updateRank env) := by
  unfold Node.updateRank
  split
  · exact ⟨⟨h.savedVote, h.vote, h.saved, h.auth⟩, rfl, le_rfl, fun hs => ⟨hs, rfl, rfl⟩⟩
  · exact .refl h

theorem Node.Ok.replaceMaster (h : nd.Ok) : nd.Quiet nd.replaceMaster :=
  ⟨⟨h.savedVote, h.vote, h.saved, h.auth⟩, rfl, le_rfl, fun hs => ⟨hs, rfl, rfl⟩⟩

theorem Node.Ok.updateEpochs (h : nd.Ok) (msg : Msg) : nd.Quiet (nd.updateEpochs msg) ∧
    msg.currentEpoch ≤ (nd.updateEpochs msg).currentEpoch := by
  obtain ⟨nd₁, hnd₁⟩ : ∃ nd₁, nd₁ = if msg.currentEpoch > nd.currentEpoch then
    { nd with currentEpoch := msg.currentEpoch } else nd := ⟨_, rfl⟩
  have h₁ : nd.Quiet nd₁ ∧ msg.currentEpoch ≤ nd₁.currentEpoch := by
    rw [hnd₁]
    split
    next hlt =>
      exact ⟨⟨⟨h.savedVote, h.vote.trans hlt.le, h.saved.trans hlt.le, h.auth.trans hlt.le⟩, rfl, le_rfl,
        fun hs => ⟨hs, rfl, rfl⟩⟩, le_rfl⟩
    next hle => exact ⟨.refl h, Nat.le_of_not_lt hle⟩
  rw [Node.updateEpochs, ← hnd₁]
  split
  · have hok := h₁.1.ok
    refine ⟨h₁.1.trans ⟨⟨hok.savedVote, hok.vote, hok.saved, hok.auth⟩, rfl, le_rfl, ?_⟩, h₁.2⟩
    exact fun hs => ⟨hs, rfl, rfl⟩
  · exact h₁

theorem clusterSendFailoverAuthIfNeeded_cases (cfg : Config) (nd : Node) (me : Nat) (now : Int) (request : Msg)
    (slots : List Nat) (force : Bool) :
    clusterSendFailoverAuthIfNeeded cfg me now nd request slots force = (nd, [], .none) ∨
      (nd.currentEpoch ≤ request.currentEpoch ∧ nd.lastVoteEpoch ≠ nd.currentEpoch ∧ me ∈ cfg.masters ∧ ∃ view,
        clusterSendFailoverAuthIfNeeded cfg me now nd request slots force =
          (Node.clusterDoBeforeSleep { nd with lastVoteEpoch := nd.currentEpoch, view := view },
            [⟨me, request.sender, nd.currentEpoch, nd.headerConfigEpoch, .failoverAuthAck⟩],
            .voted me request.sender request.currentEpoch)) := by
  obtain ⟨res, hres⟩ : ∃ res, res = clusterSendFailoverAuthIfNeeded cfg me now nd request slots force := ⟨_, rfl⟩
  rw [← hres]
  unfold clusterSendFailoverAuthIfNeeded at hres
  split at hres
  · exact .inl hres
  rename_i hme
  split at hres
  · exact .inl hres
  rename_i hepoch
  split at hres
  · exact .inl hres
  rename_i hvote
  iterate 5
    split at hres
    · exact .inl hres
  exact .inr ⟨Nat.le_of_not_lt hepoch, hvote, not_not.1 hme, _, hres⟩

theorem clusterHandleSlaveFailover_cases (cfg : Config) (hok : nd.Ok) (me : Nat) (env : FailoverEnv) :
    (∃ nd', nd.Quiet nd' ∧ clusterHandleSlaveFailover cfg me nd env = (nd', [], .none)) ∨
      (nd.failoverAuthSent = false ∧ nd.authAge env.now ≤ cfg.authRetryTime ∧ ∃ nd', nd.Quiet nd' ∧
        nd'.currentEpoch = nd.currentEpoch ∧ nd'.failoverAuthCount = nd.failoverAuthCount ∧ ∃ nd'',
        nd'' = Node.clusterDoBeforeSleep { nd' with
          currentEpoch := nextEpoch nd'.currentEpoch, failoverAuthEpoch := nextEpoch nd'.currentEpoch
          failoverAuthSent := true } ∧
        clusterHandleSlaveFailover cfg me nd env =
          (nd'', clusterRequestFailoverAuth cfg me nd'' env, .requested me (nextEpoch nd'.currentEpoch))) ∨
      (nd.failoverAuthSent = true ∧ cfg.neededQuorum ≤ nd.failoverAuthCount ∧
        clusterHandleSlaveFailover cfg me nd env = (nd.replaceMaster, [], .won me nd.failoverAuthEpoch)) := by
  have hrank := hok.updateRank env
  have hfields : (nd.updateRank env).currentEpoch = nd.currentEpoch ∧
      (nd.updateRank env).failoverAuthCount = nd.failoverAuthCount ∧
      (nd.updateRank env).failoverAuthSent = nd.failoverAuthSent := by
    unfold Node.updateRank
    split <;> exact ⟨rfl, rfl, rfl⟩
  obtain ⟨res, hres⟩ : ∃ res, res = clusterHandleSlaveFailover cfg me nd env := ⟨_, rfl⟩
  rw [← hres]
  unfold clusterHandleSlaveFailover at hres
  iterate 3
    split at hres
    · exact .inl ⟨nd, .refl hok, hres⟩
  split at hres
  · exact .inl ⟨_, hok.schedule env, hres⟩
  rename_i hretry
  dsimp only at hres
  split at hres
  · exact .inl ⟨_, hrank, hres⟩
  split at hres
  · exact .inl ⟨_, hrank, hres⟩
  split at hres
  next hsent =>
    exact .inr (.inl ⟨hfields.2.2 ▸ hsent, Int.le_of_not_gt hretry, _, hrank, hfields.1, hfields.2.1, _, rfl, hres⟩)
  next hsent =>
    have hsame : nd.updateRank env = nd := if_neg fun hc => hsent (hfields.2.2.trans hc.1)
    rw [hsame] at hsent hres
    split at hres
    next hq => exact .inr (.inr ⟨Bool.eq_true_of_not_eq_false hsent, hq, hres⟩)
    · exact .inl ⟨nd, .refl hok, hres⟩

theorem clusterProcessPacket_inv (h : Inv cfg s evs) {A B : List Msg} (hnet : s.net = A ++ m :: B)
    (now : Int) :
    Inv cfg (State.handle { s with net := A ++ B } m.receiver
        (clusterProcessPacket cfg m.receiver now (s.nodes m.receiver) m)).1
      (evs ++ [(clusterProcessPacket cfg m.receiver now (s.nodes m.receiver) m).2.2]) := by
  have hmem : m ∈ s.net := by rw [hnet]; simp
  have hfew : Fewer s.net (A ++ B ++ []) := ⟨A ++ B, [], rfl, by rw [hnet]; simp, by simp⟩
  obtain ⟨hq, hle⟩ := (h.ok m.receiver).updateEpochs m
  obtain ⟨nd, hnd⟩ : ∃ nd, nd = (s.nodes m.receiver).updateEpochs m := ⟨_, rfl⟩
  rw [← hnd] at hq hle
  -- the node has taken over the epochs of the message
  have h₁ := h.quiet hq
  have hself : update s.nodes m.receiver nd m.receiver = nd := update_self ..
  have hquiet : ∀ nd' ev, nd.Quiet nd' → (ev = .none ∨ ∃ r v e, ev = .acked r v e) →
      Inv cfg ⟨update s.nodes m.receiver nd', A ++ B ++ []⟩ (evs ++ [ev]) :=
    fun nd' ev hq' hev => ((h.quiet (hq.trans hq')).fewer hfew).acked hev
  unfold clusterProcessPacket
  simp only [← hnd]
  cases hdata : m.data with
  | other => exact hquiet nd .none (.refl hq.ok) (.inl rfl)
  | failoverAuthRequest slots force =>
    rcases clusterSendFailoverAuthIfNeeded_cases cfg nd m.receiver now m slots force with
      hres | ⟨hge, hne, hme, view, hres⟩
    · simp only [hres]
      exact hquiet nd .none (.refl hq.ok) (.inl rfl)
    simp only [hres]
    have hepoch : m.currentEpoch = nd.currentEpoch := le_antisymm hle hge
    have hlt : nd.lastVoteEpoch < nd.currentEpoch :=
      Nat.lt_of_le_of_ne hq.ok.vote hne
    have hreq : .requested m.sender nd.currentEpoch ∈ evs := hepoch ▸ h.requests m hmem ⟨slots, force, hdata⟩
    have hfirst : ∀ r, .voted m.receiver r nd.currentEpoch ∉ evs := by
      intro r hm
      have := (h₁.voted _ _ _ hm).2
      dsimp only at this
      rw [hself] at this
      omega
    obtain ⟨nd', hnd'⟩ : ∃ nd', nd' =
      Node.clusterDoBeforeSleep { nd with lastVoteEpoch := nd.currentEpoch, view := view } := ⟨_, rfl⟩
    have h₂ : Inv cfg ⟨update s.nodes m.receiver nd', A ++ B⟩ evs := by
      have hfew' : Fewer s.net (A ++ B) := by rwa [append_nil] at hfew
      refine (h.fewer hfew').update ?_ ?_ ?_ (fun hs e he => ?_) fun hs => ?_
      · rw [hnd']
        exact ⟨hq.ok.savedVote, le_rfl, hq.ok.saved, hq.ok.auth⟩
      · rw [hnd', ← hq.lastVote]
        exact hlt.le
      · rw [hnd']
        exact hq.asked
      · rw [hnd'] at hs ⊢
        obtain ⟨hs', hauth, -⟩ := hq.election hs
        exact ((h.requested _ e he).2 hs').trans hauth.symm.le
      · rw [hnd'] at hs ⊢
        obtain ⟨hs', hauth, hcount⟩ := hq.election hs
        obtain ⟨Q, hQ, hlen, hno⟩ := (h.fewer hfew').counted _ hs'
        exact ⟨Q, hauth ▸ hQ, hlen.trans hcount.symm, fun m' hm' ha' hr he =>
          hno m' hm' ha' hr (he.trans hauth)⟩
    rw [← hnd', hepoch]
    refine h₂.vote hreq ?_ hfirst
    dsimp only
    rw [update_self, hnd']
    exact le_rfl
  | failoverAuthAck =>
    dsimp only
    split
    next hcount =>
      by_cases hsent : nd.failoverAuthSent = true
      · have := h₁.count hnet hdata hcount.1 (by dsimp only; rw [hself]; exact hsent)
          (by dsimp only; rw [hself]; exact hcount.2)
        dsimp only at this
        rw [hself, update_idem] at this
        rwa [← append_nil (A ++ B)] at this
      · refine hquiet _ _ ⟨?_, rfl, le_rfl, fun hs => absurd hs hsent⟩ (.inr ⟨_, _, _, rfl⟩)
        exact ⟨hq.ok.savedVote, hq.ok.vote, hq.ok.saved, hq.ok.auth⟩
    · exact hquiet nd _ (.refl hq.ok) (.inr ⟨_, _, _, rfl⟩)

theorem step_inv (h : Inv cfg s evs) (op : Op) (ha : op.Allowed cfg s) :
    ∃ s' ev, step cfg op s = some (s', ev) ∧ Inv cfg s' (evs ++ [ev]) := by
  -- a node does something on its own
  have hquiet : ∀ n nd', (s.nodes n).Quiet nd' →
      Inv cfg (s.handle n (nd', [], .none)).1 (evs ++ [.none]) := by
    intro n nd' hq
    have hfew : Fewer s.net (s.net ++ []) := ⟨s.net, [], rfl, List.Sublist.refl _, nofun⟩
    exact ((h.quiet hq).fewer hfew).acked (.inl rfl)
  cases op with
  | ping n receiver =>
    refine ⟨_, _, rfl, ?_⟩
    have hfew : Fewer s.net (s.net ++ [(s.nodes n).ping n receiver]) :=
      ⟨s.net, _, rfl, List.Sublist.refl _, by simp [Node.ping]⟩
    exact ((h.quiet (.refl (h.ok n))).fewer hfew).acked (.inl rfl)
  | deliver i now =>
    obtain ⟨m, hm⟩ : ∃ m, s.net[i]? = some m := ⟨_, getElem?_eq_getElem ha⟩
    obtain ⟨A, B, hnet, hA, -⟩ := exists_split_of_getElem? hm
    have herase : s.net.eraseIdx i = A ++ B := by
      rw [hnet, eraseIdx_append_of_length_le hA.le, hA, Nat.sub_self, eraseIdx_cons_zero]
    refine ⟨_, _, by rw [step, hm], ?_⟩
    rw [herase]
    exact clusterProcessPacket_inv h hnet now
  | lose i =>
    refine ⟨_, _, rfl, (h.fewer ?_).acked (.inl rfl)⟩
    exact ⟨s.net.eraseIdx i, [], by simp, eraseIdx_sublist _ _, by simp⟩
  | failover n env =>
    refine ⟨_, _, rfl, ?_⟩
    rcases clusterHandleSlaveFailover_cases cfg (h.ok n) n env with
      ⟨nd', hq, hres⟩ | ⟨hsent, hage, nd', hq, hcur, hcount, nd'', hnd'', hres⟩ | ⟨hsent, hquorum, hres⟩
    · rw [hres]
      exact hquiet n nd' hq
    · rw [hres]
      have hnext : nextEpoch nd'.currentEpoch = (s.nodes n).currentEpoch + 1 := by rw [hcur, nextEpoch_eq ha.1]
      have hnext' : nd'.currentEpoch ≤ nextEpoch nd'.currentEpoch := by
        rw [hnext, hcur]
        exact Nat.le_succ _
      have hasked : (s.nodes n).asked ≤ (s.nodes n).currentEpoch := max_le (h.ok n).saved (h.ok n).auth
      have h₁ : Inv cfg { s with nodes := update s.nodes n nd'' } evs := by
        refine h.update ?_ ?_ ?_ (fun _ e he => ?_) fun _ => ?_
        · rw [hnd'']
          exact ⟨hq.ok.savedVote, hq.ok.vote.trans hnext', hq.ok.saved.trans hnext', le_rfl⟩
        · rw [hnd'', ← hq.lastVote]
          exact le_rfl
        · rw [hnd'']
          exact hq.asked.trans (max_le_max_left _ (hq.ok.auth.trans hnext'))
        · rw [hnd'', hnext]
          exact ((h.requested n e he).1.trans hasked).trans (Nat.le_succ _)
        · refine ⟨[], ⟨nodup_nil, nofun⟩, ?_, fun _ _ _ _ _ => not_mem_nil⟩
          rw [hnd'']
          exact (hcount.trans (ha.2 hsent hage)).symm
      have hself : update s.nodes n nd'' n = nd'' := update_self ..
      refine h₁.request ?_ fun m hm => ?_
      · dsimp only
        rw [hself, hnd'']
        exact le_rfl
      · obtain ⟨k, -, rfl⟩ := mem_map.1 hm
        rw [hnd'']
        exact ⟨⟨_, _, rfl⟩, rfl, rfl⟩
    · rw [hres]
      have := (h.win hsent hquorum).quiet (h.ok n).replaceMaster
      rwa [← append_nil s.net] at this
  | beforeSleep n => exact ⟨_, _, rfl, hquiet n _ (h.ok n).clusterBeforeSleep⟩
  | restart n maxEpoch => exact ⟨_, _, rfl, hquiet n _ ((h.ok n).restart ha.1 ha.2 maxEpoch)⟩
  | collision n => exact ⟨_, _, rfl, hquiet n _ ((h.ok n).newConfigEpoch ha)⟩
  | reconfigure n slaveof view save =>
    have hok := h.ok n
    refine ⟨_, _, rfl, hquiet n _ ?_⟩
    split
    all_goals exact ⟨⟨hok.savedVote, hok.vote, hok.saved, hok.auth⟩, rfl, le_rfl, fun hs => ⟨hs, rfl, rfl⟩⟩
  | manual n mfEnd mfCanStart =>
    have hok := h.ok n
    refine ⟨_, _, rfl, hquiet n _ ⟨?_, rfl, le_rfl, fun hs => ⟨hs, rfl, rfl⟩⟩⟩
    exact ⟨hok.savedVote, hok.vote, hok.saved, hok.auth⟩

end step

/-! ### Runs -/

theorem inv_init (cfg : Config) : Inv cfg .init [] :=
  ⟨fun _ => ⟨le_rfl, le_rfl, le_rfl, le_rfl⟩, nofun, nofun, nofun, nofun, nofun, List.Pairwise.nil, nofun, nofun⟩

/-- In each epoch at most one replica wins, and a winner has the votes of a majority of the masters, sent for
its request of this epoch. -/
theorem election_safety (cfg : Config) (ops : List Op)
    (h : (machine cfg).Guarded (Op.Allowed cfg) ops State.init) :
    ∃ s evs, (machine cfg).run ops State.init = some (s, evs) ∧
      (∀ r r' e, .won r e ∈ evs → .won r' e ∈ evs → r = r') ∧
      ∀ r e, .won r e ∈ evs → .requested r e ∈ evs ∧ ∃ Q : List Nat, Q.Nodup ∧ cfg.masters.length / 2 + 1 ≤ Q.length ∧
        ∀ v ∈ Q, v ∈ cfg.masters ∧ .voted v r e ∈ evs ∧ .acked r v e ∈ evs := by
  obtain ⟨s, evs, hrun, hinv⟩ := h.total_log (J := Inv cfg) (inv_init cfg) fun hI hop => step_inv hI _ hop
  refine ⟨s, evs, hrun, fun r r' e hw hw' => ?_, fun r e hw => ?_⟩
  · obtain ⟨P, hP, hPlen⟩ := hinv.won r e hw
    obtain ⟨Q, hQ, hQlen⟩ := hinv.won r' e hw'
    obtain ⟨v, hvP, hvQ⟩ := exists_common_of_majorities hP.1 hQ.1 (fun v hv => (hP.2 v hv).1)
      (fun v hv => (hQ.2 v hv).1) hPlen hQlen
    exact hinv.once v r r' e (hP.2 v hvP).2.1 (hQ.2 v hvQ).2.1
  · obtain ⟨Q, hQ, hlen⟩ := hinv.won r e hw
    obtain ⟨v, hv⟩ := exists_mem_of_length_pos ((Nat.succ_pos _).trans_le hlen)
    exact ⟨(hinv.voted v r e (hQ.2 v hv).2.1).1, Q, hQ.1, hlen, hQ.2⟩

instance (cfg : Config) : ∀ (op : Op) (s : State), Decidable (op.Allowed cfg s)
  | .ping _ _, _ => isTrue trivial
  | .deliver _ _, _ => inferInstanceAs (Decidable (_ < _))
  | .lose _, _ => isTrue trivial
  | .failover _ _, _ => inferInstanceAs (Decidable (_ ∧ (_ → _ → _)))
  | .beforeSleep _, _ => isTrue trivial
  | .restart _ _, _ => inferInstanceAs (Decidable (_ ∧ _))
  | .collision _, _ => inferInstanceAs (Decidable (_ < _))
  | .reconfigure _ _ _ _, _ => isTrue trivial
  | .manual _ _ _, _ => isTrue trivial

/-- Three masters, of which 2 has failed, and its replicas 3 and 4. -/
def smallCluster : Config := ⟨[0, 1, 2, 3, 4], [0, 1, 2], by decide, 1000, 0, 10, false⟩

def smallView : View :=
  ⟨fun n => n < 3, fun n => if n < 3 then none else some 2, fun n => n = 2, fun _ => 0, fun _ => 0, fun _ => some 2⟩

def smallEnv (now : Int) : FailoverEnv := ⟨now, 0, 0, 0, [0]⟩

theorem election_safety_won :
    ∃ s evs, (machine smallCluster).run [.reconfigure 0 none smallView true, .reconfigure 1 none smallView true,
        .reconfigure 3 (some 2) smallView true, .failover 3 (smallEnv 10000), .failover 3 (smallEnv 10600),
        .deliver 0 10600, .beforeSleep 0, .restart 0 0, .deliver 0 10600, .deliver 2 10700, .deliver 2 10700,
        .failover 3 (smallEnv 10700)] State.init = some (s, evs) ∧
      (∀ r r' e, .won r e ∈ evs → .won r' e ∈ evs → r = r') ∧
      ∀ r e, .won r e ∈ evs → .requested r e ∈ evs ∧ ∃ Q : List Nat, Q.Nodup ∧
        smallCluster.masters.length / 2 + 1 ≤ Q.length ∧
        ∀ v ∈ Q, v ∈ smallCluster.masters ∧ .voted v r e ∈ evs ∧ .acked r v e ∈ evs :=
  election_safety smallCluster _ (Machine.guarded_of_check (by decide))

/-- The votes for the election of replica 3 in epoch 1 arrive when it has set up its next election, and are
counted for epoch 2, in which nobody has voted for it. The masters vote for replica 4 in epoch 2.

In the second run the masters restart before their votes for replica 3 are saved, and vote for replica 4 in
the same epoch. -/
theorem election_two_winners :
    ((machine smallCluster).run [.reconfigure 0 none smallView true, .reconfigure 1 none smallView true,
        .reconfigure 3 (some 2) smallView true, .reconfigure 4 (some 2) smallView true,
        .failover 3 (smallEnv 10000), .failover 3 (smallEnv 10600),
        .deliver 0 10600, .deliver 0 10600, .deliver 1 10600,
        .failover 4 (smallEnv 14000), .failover 3 (smallEnv 15000), .deliver 1 15000, .deliver 1 15000,
        .failover 3 (smallEnv 15600), .failover 3 (smallEnv 15601),
        .failover 4 (smallEnv 15602), .deliver 5 15602, .deliver 5 15602, .deliver 7 15700, .deliver 7 15700,
        .failover 4 (smallEnv 15700)] State.init).map (fun p => p.2) =
      some [.none, .none, .none, .none, .none, .requested 3 1, .voted 0 3 1, .voted 1 3 1, .none, .none, .none,
        .acked 3 0 1, .acked 3 1 1, .requested 3 2, .won 3 2,
        .requested 4 2, .voted 0 4 2, .voted 1 4 2, .acked 4 0 2, .acked 4 1 2, .won 4 2] ∧
    ((machine smallCluster).run [.reconfigure 0 none smallView true, .reconfigure 1 none smallView true,
        .reconfigure 3 (some 2) smallView true, .reconfigure 4 (some 2) smallView true,
        .failover 3 (smallEnv 10000), .failover 4 (smallEnv 10000), .failover 3 (smallEnv 10600),
        .failover 4 (smallEnv 10600), .deliver 0 10600, .deliver 0 10600, .restart 0 0, .restart 1 0,
        .reconfigure 0 none smallView true, .reconfigure 1 none smallView true,
        .deliver 2 10700, .deliver 2 10700, .deliver 4 10700, .deliver 4 10700, .failover 3 (smallEnv 10700),
        .deliver 4 10700, .deliver 4 10700, .failover 4 (smallEnv 10700)] State.init).map (fun p => p.2) =
      some [.none, .none, .none, .none, .none, .none, .requested 3 1, .requested 4 1, .voted 0 3 1, .voted 1 3 1,
        .none, .none, .none, .none, .voted 0 4 1, .voted 1 4 1, .acked 3 0 1, .acked 3 1 1, .won 3 1,
        .acked 4 0 1, .acked 4 1 1, .won 4 1] := by
  decide

end Redis.Cluster
