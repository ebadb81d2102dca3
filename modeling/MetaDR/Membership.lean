import MetaDR.RecoveryWorker
/-!
# Membership — the replica map and what it is read with

`_replicas` is one map for the configurator, the replicator and both handlers, and its size is the size of the cluster.
Three places read it with `operator[]`, which inserts what it does not find: the candidate loop, `processPrepInfo` with
the primary's id, and `processRecoveryReqInt` with the id a message names.  The loop stays within the peers; so the map
keeps the configured peers, and with them the majority, exactly when the other two ask for peers (`fixed_membership`).
-/
namespace MetaDR

/-- The peers of replica `i` of `n`. -/
def peersOf (n i : Nat) : List Nat := (List.range n).filter (fun j => decide (j ≠ i))

namespace Replica

/-- The process of replica `i` of `n` as `bootStrap` starts it. -/
def Started (n i : Nat) (r : Replica) : Prop := r = init n i ∨ ∃ flag, r = recovering n i flag

/-- The id that a section behind its lock reads the map with: the primary's, or the one in a request. -/
def looksUp (r : Replica) : LocalEvent → Option Nat
  | .act .prepLocked _ =>
    match r.ppit with
    | some prepInfo => if prepInfo.opNum = r.opNum + 1 then some r.priId else none
    | none => none
  | .act .recReqLocked _ =>
    match r.prr with
    | .checked recoveryReq => some recoveryReq.replicaId
    | _ => none
  | _ => none

/-- The id is one of the `n` configured ones, and another's. -/
def asksPeer (n : Nat) (r : Replica) (e : LocalEvent) : Bool :=
  (r.looksUp e).all (fun j => decide (j < n) && decide (j ≠ r.id))

/-- The map is as configured, and the candidate loop is among the configured replicas. -/
structure Member (n i : Nat) (r : Replica) : Prop where
  id_eq : r.id = i
  replicas_eq : r.replicas = peersOf n i
  choosing_lt : ∀ info cnt c, r.hb = .choosing info cnt c → c < n

theorem mem_peersOf {n i j : Nat} : j ∈ peersOf n i ↔ j < n ∧ j ≠ i := mem_filter_ne

theorem length_peersOf {n i : Nat} (hi : i < n) : (peersOf n i).length = n - 1 :=
  (peers_init n i).length hi

theorem Started.member {n i : Nat} {r : Replica} (h : r.Started n i) : r.Member n i := by
  rcases h with rfl | ⟨flag, rfl⟩
  · exact ⟨rfl, rfl, fun info cnt c hb => by cases hb⟩
  · exact ⟨rfl, rfl, fun info cnt c hb => by cases hb⟩

variable {n i : Nat} {r : Replica} {e : LocalEvent} {s : Step}

/-- **A majority of the configured replicas.** -/
theorem Member.majority (h : r.Member n i) (hi : i < n) : r.getMajorityCnt = n / 2 + 1 := by
  unfold getMajorityCnt
  rw [h.replicas_eq, length_peersOf hi, Nat.sub_add_cancel (Nat.zero_lt_of_lt hi)]

theorem Member.next_lt (h : r.Member n i) (hi : i < n) (c : Nat) : r.getNextPrimaryCandidate c < n := by
  unfold getNextPrimaryCandidate
  rw [h.replicas_eq, length_peersOf hi]
  split <;> omega

theorem endPoint_replicas_eq {j : Nat} : (r.endPoint j).replicas = r.replicas ↔ j ∈ r.replicas := by
  unfold endPoint
  by_cases hj : j ∈ r.replicas
  · simp [hj]
  · simp [hj]

theorem Member.candidate (h : r.Member n i) {info : ViewChangeInfo} {cnt c : Nat} (hb : r.hb = .choosing info cnt c)
    (hc : c ≠ r.id) : (r.endPoint c).replicas = r.replicas := by
  rw [endPoint_replicas_eq, h.replicas_eq, mem_peersOf]
  exact ⟨h.choosing_lt info cnt c hb, h.id_eq ▸ hc⟩

/-- **What a section does to the map**: it is read with the id looked up, and nothing else touches it. -/
theorem Member.replicas_of_section (h : r.Member n i) (hs : r.localSection e = .ok s) :
    s.rep.replicas = ((r.looksUp e).elim r r.endPoint).replicas := by
  cases e with
  | recv msg now => cases handles_of_handle hs <;> rfl
  | act a now =>
    cases performs_of_act hs with
    | acked prepInfo hp hl hn => simp only [looksUp, hp, hn, if_true, Option.elim_some]
    | recAnswered req hp => simp only [looksUp, hp, Option.elim_some, processRecoveryReqLocked]
    | nextCandidate info cnt c call sent hb hc => exact h.candidate hb hc
    | chose info cnt c call sent hb hc => exact h.candidate hb hc
    | recovered _ nonce _ hb hend =>
      obtain ⟨resp, rfl⟩ := recoverEnd_eq_some hend
      rcases hb with ⟨rfl, -⟩ | ⟨rfl, -⟩ <;> rfl
    | _ => rfl

theorem Member.asksPeer_iff (h : r.Member n i) (hs : r.localSection e = .ok s) :
    r.asksPeer n e = true ↔ s.rep.replicas = peersOf n i := by
  rw [h.replicas_of_section hs, asksPeer]
  cases r.looksUp e with
  | none => exact iff_of_true rfl h.replicas_eq
  | some j =>
    rw [Option.elim_some, ← h.replicas_eq, endPoint_replicas_eq, h.replicas_eq, mem_peersOf, ← h.id_eq]
    simp

theorem Member.id_of_section (h : r.Member n i) (hs : r.localSection e = .ok s) : s.rep.id = i := by
  refine Eq.trans ?_ h.id_eq
  cases e with
  | recv msg now => cases handles_of_handle hs <;> rfl
  | act a now =>
    cases performs_of_act hs with
    | recovered _ nonce _ hb hend =>
      obtain ⟨resp, rfl⟩ := recoverEnd_eq_some hend
      rfl
    | _ => rfl

theorem Member.choosing_of_section (h : r.Member n i) (hi : i < n) (hs : r.localSection e = .ok s)
    {info : ViewChangeInfo} {cnt c : Nat} (hc : s.rep.hb = .choosing info cnt c) : c < n := by
  cases e with
  | recv msg now =>
    have hb : s.rep.hb = r.hb := by cases handles_of_handle hs <;> rfl
    exact h.choosing_lt info cnt c (hb ▸ hc)
  | act a now =>
    have hvote : ∀ {r' : Replica} {v o : Nat}, r'.replicas = r.replicas → (r'.vote v o).rep.hb = .choosing info cnt c →
        c < n := fun {r' v o} hreps hv => by
      cases hv
      have hm := h.next_lt hi r'.priId
      unfold getNextPrimaryCandidate at hm ⊢
      rwa [hreps]
    cases performs_of_act hs with
    | votedAtOnce | voted => exact hvote rfl hc
    | nextCandidate info' cnt' c' call sent hb hne =>
      cases hc
      have hm := h.next_lt hi c'
      unfold getNextPrimaryCandidate at hm ⊢
      rwa [h.candidate hb hne]
    | recovered _ nonce _ hb hend =>
      obtain ⟨resp, rfl⟩ := recoverEnd_eq_some hend
      cases hc
    | entered | enteredJoined | startWaits | choseSelf | chose | startedPrimary | startedBackup | gaveUp | recoverSent
      | recoverWaits => cases hc
    | _ => exact h.choosing_lt info cnt c hc

/-- **One section**: a map that is as configured stays so when the section asks for a peer. -/
theorem Member.section_ok (h : r.Member n i) (hi : i < n) (hs : r.localSection e = .ok s)
    (ha : r.asksPeer n e = true) : s.rep.Member n i where
  id_eq := h.id_of_section hs
  replicas_eq := (h.asksPeer_iff hs).1 ha
  choosing_lt := fun _ _ _ hc => h.choosing_of_section hi hs hc

/-- A section whose assertion fails has not read the map. -/
theorem asksPeer_of_abort (h : r.localSection e = .abort) : r.asksPeer n e = true := by
  cases e with
  | recv msg now => rfl
  | act a now =>
    cases a with
    | prepLocked =>
      simp only [localSection, act] at h
      split at h
      · rename_i prepInfo hp
        split at h
        · unfold processPrepInfoLocked at h
          split at h
          · rename_i hn
            simp only [asksPeer, looksUp, hp, if_neg hn, Option.all_none]
          · cases h
        · cases h
      · cases h
    | recReqLocked =>
      have := ofWorker_of_abort h
      cases this
    | _ => rfl

/-- A set of configured replicas that the replica counts as a quorum. -/
def CountsQuorum (n : Nat) (r : Replica) (Q : Finset Nat) : Prop := Q ⊆ Finset.range n ∧ r.quorumReached Q.card = true

theorem Member.isQuorum (h : r.Member n i) (hi : i < n) {Q : Finset Nat} (hQ : r.CountsQuorum n Q) :
    Majority.IsQuorum n Q := by
  refine ⟨hQ.1, ?_⟩
  rw [← h.majority hi]
  exact of_decide_eq_true hQ.2

end Replica

/-- The states of a run. -/
def states (xs : List Watched) (r : Replica) : List Replica := xs.map Prod.fst ++ [r]

theorem states_concat (xs : List Watched) (x : Watched) (r : Replica) :
    states (xs ++ [x]) r = states xs x.1 ++ [r] := by
  simp [states]

theorem mem_states_last (xs : List Watched) (r : Replica) : r ∈ states xs r :=
  List.mem_append_right _ (List.mem_singleton_self r)

namespace WatchedRuns

variable {n i : Nat} {r₀ r : Replica} {xs : List Watched}

theorem member (hi : i < n) (h₀ : r₀.Started n i) (h : WatchedRuns r₀ r xs)
    (hask : ∀ x ∈ xs, x.1.asksPeer n x.2.1 = true) : ∀ s ∈ states xs r, s.Member n i := by
  induction h with
  | init =>
    intro s hs
    rw [List.mem_singleton.1 hs]
    exact h₀.member
  | @step r r' xs os e h _ hstep ih =>
    obtain ⟨os, hloc, rfl⟩ := Run.System.step_watched hstep
    rw [states_concat]
    have hold := ih (fun x hx => hask x (List.mem_append_left _ hx))
    have hr := hold r (mem_states_last xs r)
    intro s hs
    rcases List.mem_append.1 hs with hs | hs
    · exact hold s hs
    · rw [List.mem_singleton.1 hs]
      obtain ⟨-, ⟨-, rfl, -⟩ | ⟨s', hsec, rfl, -⟩⟩ := Replica.localStep_cases hloc
      · exact { hr with }
      · exact hr.section_ok hi hsec (hask _ (List.mem_append_right _ List.mem_cons_self))

theorem asksPeer_of_kept (hi : i < n) (h₀ : r₀.Started n i) (h : WatchedRuns r₀ r xs)
    (hkept : ∀ s ∈ states xs r, s.replicas = peersOf n i) : ∀ x ∈ xs, x.1.asksPeer n x.2.1 = true := by
  induction h with
  | init => exact fun x hx => absurd hx List.not_mem_nil
  | @step r r' xs os e h _ hstep ih =>
    obtain ⟨os, hloc, rfl⟩ := Run.System.step_watched hstep
    rw [states_concat] at hkept
    have hold := ih (fun s hs => hkept s (List.mem_append_left _ hs))
    have hr := member hi h₀ h hold r (mem_states_last xs r)
    intro x hx
    rcases List.mem_append.1 hx with hx | hx
    · exact hold x hx
    · rw [List.mem_singleton.1 hx]
      obtain ⟨-, ⟨hab, -, -⟩ | ⟨s', hsec, rfl, -⟩⟩ := Replica.localStep_cases hloc
      · exact Replica.asksPeer_of_abort hab
      · exact (hr.asksPeer_iff hsec).2 (hkept _ (List.mem_append_right _ List.mem_cons_self))

end WatchedRuns

/-- **The membership is fixed**, in every run of one replica, whatever arrives and however its threads alternate: the
map has the configured peers, and the majority is that of the cluster, in every state if and only if each section that
reads the map with the primary's id or a request's asks for a peer.  Then any two quorums that two replicas count, at
whatever points of their runs, share a replica. -/
theorem fixed_membership {n i j : Nat} (hi : i < n) (hj : j < n) {r₀ r r₀' r' : Replica} {xs xs' : List Watched}
    (h₀ : r₀.Started n i) (h₀' : r₀'.Started n j) (h : WatchedRuns r₀ r xs) (h' : WatchedRuns r₀' r' xs') :
    ((∀ x ∈ xs, x.1.asksPeer n x.2.1 = true) ↔
      ∀ s ∈ states xs r, s.replicas = peersOf n i ∧ s.getMajorityCnt = n / 2 + 1) ∧
      ((∀ x ∈ xs, x.1.asksPeer n x.2.1 = true) → (∀ x ∈ xs', x.1.asksPeer n x.2.1 = true) →
        ∀ s ∈ states xs r, ∀ s' ∈ states xs' r', ∀ Q Q' : Finset Nat, s.CountsQuorum n Q → s'.CountsQuorum n Q' →
          ∃ q, q ∈ Q ∧ q ∈ Q') := by
  refine ⟨⟨fun hask s hs => ?_, fun hkept => ?_⟩, fun hask hask' s hs s' hs' Q Q' hQ hQ' => ?_⟩
  · have hm := h.member hi h₀ hask s hs
    exact ⟨hm.replicas_eq, hm.majority hi⟩
  · exact h.asksPeer_of_kept hi h₀ (fun s hs => (hkept s hs).1)
  · have hq := (h.member hi h₀ hask s hs).isQuorum hi hQ
    have hq' := (h'.member hj h₀' hask' s' hs').isQuorum hj hQ'
    exact hq.inter hq'

/-- A backup answers a request, and the primary replicates; each asks for peers only. -/
theorem fixed_membership_three : ∃ r xs r' xs', WatchedRuns (.init 3 1) r xs ∧ WatchedRuns (.init 3 0) r' xs' ∧
    xs.length = 3 ∧ xs'.length = 5 ∧ (∀ s ∈ states xs r, s.replicas = [0, 2] ∧ s.getMajorityCnt = 2) ∧
    ∀ s ∈ states xs r, ∀ s' ∈ states xs' r', ∀ Q Q' : Finset Nat, s.CountsQuorum 3 Q → s'.CountsQuorum 3 Q' →
      ∃ q, q ∈ Q ∧ q ∈ Q' := by
  obtain ⟨r, xs, h, hq⟩ : ∃ r xs, WatchedRuns (.init 3 1) r xs ∧
      (decide (xs.length = 3) && xs.all (fun x => x.1.asksPeer 3 x.2.1)) = true :=
    Run.exists_reach_of_exec [.recv (.recoveryRequest ⟨2, 7⟩) 0, .act .recReqCheck 0, .act .recReqLocked 0]
      (fun _ (xs : List Watched) => decide (xs.length = 3) && xs.all (fun x => x.1.asksPeer 3 x.2.1))
      (by decide +kernel)
  obtain ⟨r', xs', h', hq'⟩ : ∃ r xs, WatchedRuns (.init 3 0) r xs ∧
      (decide (xs.length = 5) && xs.all (fun x => x.1.asksPeer 3 x.2.1)) = true :=
    Run.exists_reach_of_exec [.act (.clientCall (.create ⟨[slash, 120], []⟩)) 0, .act .replicateBegin 0,
        .recv (.prepareOk ⟨0, 1, 1⟩) 0, .act .prepareOkCount 0, .act .replicateCount 0]
      (fun _ (xs : List Watched) => decide (xs.length = 5) && xs.all (fun x => x.1.asksPeer 3 x.2.1))
      (by decide +kernel)
  simp only [Bool.and_eq_true, decide_eq_true_eq, List.all_eq_true] at hq hq'
  obtain ⟨hkept, hmeet⟩ := fixed_membership (by decide) (by decide) (.inl rfl) (.inl rfl) h h'
  exact ⟨r, xs, r', xs', h, h', hq.1, hq'.1, hkept.1 hq.2, hmeet hq.2 hq'.2⟩

/-- A request names replica `77`. -/
def strangerEvents : List LocalEvent :=
  [.recv (.recoveryRequest ⟨77, 7⟩) 0, .act .recReqCheck 0, .act .recReqLocked 0]

/-- Replica `1` pops a `PrepInfo` of primary `0`, begins a view change, becomes its own candidate and gives up; then
`processPrepInfo` has the lock. -/
def ownPrimaryEvents : List LocalEvent :=
  [.recv (.prepare ⟨0, ⟨[slash, 120], []⟩, 1, .update, 0⟩) 0, .act .prepCheck 0, .act .changeViewBegin 9,
    .recv (.startViewChange ⟨1, 2⟩) 9, .act .changeViewCount 9, .act (.candidate .answered) 9, .act .hbTimeout 9,
    .act .prepLocked 9]

/-- A request that names replica `77` makes it a member; so does an answer to oneself, and the majority of three is
then three. -/
theorem fixed_membership_fails :
    (¬ ∀ n i r₀ r xs, i < n → Replica.Started n i r₀ → WatchedRuns r₀ r xs →
      ∀ s ∈ states xs r, s.replicas = peersOf n i ∧ s.getMajorityCnt = n / 2 + 1) ∧
      ∃ r xs, WatchedRuns (.init 3 1) r xs ∧ 1 ∈ r.replicas ∧ r.getMajorityCnt = 3 := by
  constructor
  · intro hall
    obtain ⟨r, xs, h, hq⟩ : ∃ r xs, WatchedRuns (.init 3 1) r xs ∧ decide (r.replicas = [0, 2, 77]) = true :=
      Run.exists_reach_of_exec strangerEvents (fun (r : Replica) _ => decide (r.replicas = [0, 2, 77]))
        (by decide +kernel)
    have hkept := (hall 3 1 _ r xs (by decide) (.inl rfl) h r (mem_states_last xs r)).1
    rw [of_decide_eq_true hq] at hkept
    exact absurd hkept (by decide)
  · obtain ⟨r, xs, h, hq⟩ : ∃ r xs, WatchedRuns (.init 3 1) r xs ∧
        (decide (1 ∈ r.replicas) && decide (r.getMajorityCnt = 3)) = true :=
      Run.exists_reach_of_exec ownPrimaryEvents
        (fun (r : Replica) _ => decide (1 ∈ r.replicas) && decide (r.getMajorityCnt = 3)) (by decide +kernel)
    rw [Bool.and_eq_true, decide_eq_true_eq, decide_eq_true_eq] at hq
    exact ⟨r, xs, h, hq⟩

end MetaDR
