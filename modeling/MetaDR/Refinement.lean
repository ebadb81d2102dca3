import MetaDR.Follows
/-!
# Refinement — every run is a run of the protocol

Move by move: what a replica does under its lock is one step of its node, and nothing else it does is seen by it
(`Moves.refines`).  That a quorum holds what passes its check, and that a view starts from the newest vote, is asked for
only where the protocol's demands are on.
-/
namespace MetaDR

open Majority Viewstamp

/-- **What a move of replica `i` amounts to** in the protocol. -/
structure Amounts (n : Nat) (good : Prop) (s s' : State Op) (tr os : List Obs) (i : Nat) (r' : Replica)
    (sent : List Packet) : Prop where
  step : s' = s ∨ Viewstamp.Step n good s s'
  node : ∀ j, j ≠ i → s'.node j = s.node j
  rep : r'.status ≠ .recovering → r'.Follows good s' (tr ++ os) i
  listener : ∀ commitInfo, r'.listener = some (.commit commitInfo) →
    Committable s' commitInfo.viewNum commitInfo.commitNum
  net : ∀ q ∈ sent, q.Follows s'
  seen : ∀ o ∈ os, o.Follows good s' (tr ++ os)
  started : ∀ w, s'.start w ≠ none → s.start w ≠ none ∨ ∃ q info, .newView q true info ∈ os ∧ info.viewNum = w

/-- The replicas that acknowledged the operation, or numbered it, are a quorum. -/
def Answered (n : Nat) (tr : List Obs) (p : PrepInfo) : Prop :=
  ∃ Q, IsQuorum n Q ∧ ∀ q ∈ Q, .prepared q p ∈ tr ∨
    ∃ p' resp, .acked q p' resp ∈ tr ∧ p'.viewNum = p.viewNum ∧ p'.opNum = p.opNum

section

variable {n : Nat} {R : Rules} {good : Prop} {s : State Op} {c : Cluster} {tr : List Obs} {i : Nat}

/-- What the protocol does not see. -/
theorem Cluster.Follows.stutter (h : c.Follows good s tr) {os : List Obs} {r' : Replica} {sent : List Packet}
    (hrep : r'.status ≠ .recovering → (c.reps i).Aside r')
    (hlis : ∀ commitInfo, r'.listener = some (.commit commitInfo) →
      Committable s commitInfo.viewNum commitInfo.commitNum)
    (hnet : ∀ q ∈ sent, q.Follows s) (hnew : ∀ q b info, .newView q b info ∉ os)
    (hos : ∀ o ∈ os, o.Follows good s (tr ++ os)) : ∃ s', Amounts n good s s' tr os i r' sent :=
  ⟨s, .inl rfl, fun _ _ => rfl, fun hr => (h.rep i ((hrep hr).live hr)).keep (hrep hr) hnew, hlis, hnet, hos,
    fun _ hw => .inl hw⟩

/-- A replica that is `NORMAL` names in its heart beats a number that may be committed. -/
theorem Cluster.Follows.beat (hs : Reach n good s) (h : c.Follows good s tr) (hst : (c.reps i).status = .normal) :
    Committable s (c.reps i).viewNum (c.reps i).commitNum := by
  have hf := h.rep i (by rw [hst]; simp)
  obtain ⟨hlast, -, S, hS, -⟩ := hf.normal hst
  rw [← hf.commit, ← hlast]
  rcases hs.core.commit_le i S (hlast ▸ hS) with hc | ⟨w, hw, hc⟩
  · exact .inl ⟨S, hlast ▸ hS, hc⟩
  · exact .inr ⟨w, hw, hc⟩

/-- `replicate` up to its wait is `propose`. -/
theorem Cluster.Follows.prepare (hs : Reach n good s) (h : c.Follows good s tr) (hid : (c.reps i).id = i) {req : Req}
    {m : Mutation} {p : PrepInfo} (hfree : (c.reps i).repMutexFree = true) (hpri : (c.reps i).isPrimary = true)
    (hst : (c.reps i).status = .normal) (hv : p.viewNum = (c.reps i).viewNum) (hn : p.opNum = (c.reps i).opNum + 1) :
    ∃ s', Amounts n good s s' tr [.prepared (c.reps i).id p] i
      { c.reps i with
        opNum := (c.reps i).opNum + 1, log := (c.reps i).log.push p.entry, client := .prepared req m p }
      ((c.reps i).invokeForAllReplicas (.prepare p)) := by
  have hlis := h.listener i
  have hr := h.rep i (by rw [hst]; simp)
  generalize c.reps i = r at *
  obtain ⟨hlast, htop, S, hS, hSp⟩ := hr.normal hst
  have hprim : IsPrimary s i (s.node i).last := by
    rw [hlast]
    simp only [Replica.isPrimary, decide_eq_true_eq] at hpri
    exact ⟨S, hS, by rw [hSp, ← hpri, hid]⟩
  have hview : (s.node i).last = (s.node i).view := by rw [hlast, hr.view]
  have hstep : Viewstamp.Step n good s _ := .propose i p.op hview hprim
  have hcore := hs.core
  have g := hcore.grows hstep
  have hle : r.commitNum ≤ r.opNum := by
    obtain ⟨S', hS', rfl⟩ := hprim
    rw [← hr.commit, ← htop]
    exact hcore.primary_commit _ S' hS' rfl
  refine ⟨_, .inr hstep, fun j hj => Function.update_of_ne hj _ _, fun _ => ?_, fun ci hci => (hlis ci hci).grows g,
    fun q hq => ?_, fun o ho => ?_, fun w hw => .inl hw⟩
  · refine hr.push g (by simp) hst hn (Function.update_self ..) rfl hn.symm rfl rfl rfl
      (Replica.hb_idle_of_free hfree) rfl ?_
    rintro p' ⟨req', m', hp | hp⟩ <;> cases hp
    exact ⟨rfl, hv, hlast ▸ hprim, by omega⟩
  · simp only [Packet.Follows, (Replica.mem_invokeForAllReplicas.1 hq).1]
  · rw [List.mem_singleton.1 ho, hid]
    have hp : p.viewNum = (s.node i).last ∧ p.opNum = (s.node i).top + 1 := ⟨by rw [hv, hlast], by rw [hn, htop]⟩
    refine ⟨?_, .inr ⟨rfl, hp⟩, S, ?_, ?_, ?_⟩
    · simp only [hp, Function.update_self]
    · rw [hv]; exact hS
    · obtain ⟨S', hS', he⟩ := hprim
      rw [hlast, hS] at hS'
      cases hS'
      exact he
    · have := hcore.start_top i S (hlast ▸ hS)
      omega

/-- Passing the quorum check is `win`. -/
theorem Cluster.Follows.passQuorum (hs : Reach n good s) (h : c.Follows good s tr) {req : Req} {m : Mutation}
    {p : PrepInfo} {log : InMemOpLogHandler} (hc : (c.reps i).client = .waiting req m p)
    (hlive : (c.reps i).status ≠ .recovering) (hl : (c.reps i).log.commit p.opNum = some log)
    (hq : good → Answered n tr p) {waitMap : WaitMap} :
    ∃ s', Amounts n good s s' tr [.quorum (c.reps i).id p, .forgot (c.reps i).id p.opNum] i
      { c.reps i with
        log := log, commitNum := p.opNum, waitMap := waitMap, client := .replicated req m p.opNum }
      ((c.reps i).invokeForAllReplicas (.commit ⟨p.viewNum, p.opNum⟩)) := by
  have hlis := h.listener i
  have hr := h.rep i hlive
  have hseen := h.seen
  generalize c.reps i = r at *
  obtain ⟨hlast, hv, hprim, hlt, hle, hop⟩ := hr.holds p ⟨req, m, .inr hc⟩
  have hview : (s.node i).last = (s.node i).view := by rw [hlast, hr.view]
  have hheld : good → ∃ Q, IsQuorum n Q ∧ ∀ q ∈ Q, s.held q (s.node i).last p.opNum := fun hg => by
    obtain ⟨Q, hQ, hq⟩ := hq hg
    refine ⟨Q, hQ, fun q hqQ => ?_⟩
    rw [hlast, ← hv]
    rcases hq q hqQ with hq | ⟨p', resp, hq, hv', hn'⟩
    · exact (hseen _ hq).2.1
    · rw [← hv', ← hn']; exact (hseen _ hq).1
  have hstep : Viewstamp.Step n good s _ := .win i p.opNum hview (hlast ▸ hprim) (hr.commit ▸ hlt) hle hheld
  have hcore := hs.core
  have g := hcore.grows hstep
  have hsop : s.op (s.node i).last p.opNum = some p.op := by rw [← hcore.log_eq i _ hle, hr.log, hop]
  refine ⟨_, .inr hstep, fun j hj => Function.update_of_ne hj _ _, fun _ => ?_, fun ci hci => (hlis ci hci).grows g,
    fun q hq => ?_, fun o ho => ?_, fun w hw => .inl hw⟩
  · obtain ⟨e, he, -⟩ := InMemOpLogHandler.commit_eq_some hl
    refine hr.flag g (by simp) (Function.update_self ..) hl he (fun _ => ?_) rfl rfl rfl rfl rfl ?_
    · rw [InMemOpLogHandler.opAt, he] at hop
      have hop' : e.op = p.op := Option.some.inj hop
      exact ⟨_, p.opNum, .inr ⟨rfl, rfl⟩, le_refl _, hsop.trans (congrArg some hop'.symm)⟩
    · rintro p' ⟨req', m', hp | hp⟩ <;> cases hp
  · obtain ⟨hmsg, -⟩ := Replica.mem_invokeForAllReplicas.1 hq
    simp only [Packet.Follows, hmsg]
    exact .inr ⟨p.opNum, .inr ⟨by rw [hv, hlast], rfl⟩, le_refl _⟩
  · rcases List.mem_cons.1 ho with rfl | ho
    · exact .inr ⟨by rw [hv, hlast], rfl⟩
    · rw [List.mem_singleton.1 ho]
      trivial

/-- `processPrepInfo` under the lock is `accept`. -/
theorem Cluster.Follows.ack (hs : Reach n good s) (h : c.Follows good s tr) (hid : (c.reps i).id = i) {p : PrepInfo}
    {q : Nat} (hp : .prepared q p ∈ tr) (hfree : (c.reps i).repMutexFree = true)
    (hn : p.opNum = (c.reps i).opNum + 1) (ht : (c.reps i).prepInfoTest p = true) {resp : PrepResponse}
    {replicas : List Nat} {ppit : Option PrepInfo} {d : Nat} :
    ∃ s', Amounts n good s s' tr [.acked (c.reps i).id p resp] i
      { c.reps i with replicas := replicas, ppit := ppit, opNum := p.opNum, log := (c.reps i).log.push p.entry }
      ((c.reps i).sendTo d (.prepareOk resp)) := by
  obtain ⟨hne, hst, hv⟩ := Replica.prepInfoTest_eq_true.1 ht
  have hlis := h.listener i
  have hr := h.rep i (by rw [hst]; simp)
  have hprep := h.seen _ hp
  generalize c.reps i = r at *
  obtain ⟨hlast, htop, S, hS, hSp⟩ := hr.normal hst
  have hnprim : ¬ IsPrimary s i (s.node i).last := by
    rintro ⟨S', hS', rfl⟩
    rw [hlast, hS] at hS'
    cases hS'
    exact hne (hid.trans hSp)
  have hview : (s.node i).last = (s.node i).view := by rw [hlast, hr.view]
  have hpv : p.viewNum = (s.node i).last ∧ p.opNum = (s.node i).top + 1 := ⟨by rw [hv, hlast], by rw [hn, htop]⟩
  have hstep : Viewstamp.Step n good s _ := .accept i p.op hview hnprim (by rw [← hpv.1, ← hpv.2]; exact hprep.1)
  have hcore := hs.core
  have g := hcore.grows hstep
  refine ⟨_, .inr hstep, fun j hj => Function.update_of_ne hj _ _, fun _ => ?_, fun ci hci => (hlis ci hci).grows g,
    fun q hq => ?_, fun o ho => ?_, fun w hw => .inl hw⟩
  · exact hr.push g (by simp) hst hn (Function.update_self ..) rfl rfl rfl rfl rfl (Replica.hb_idle_of_free hfree)
      rfl (fun p' hp' => absurd hp' (Replica.not_holds_of_free hfree p'))
  · rw [(Replica.mem_sendTo hq).1]
    trivial
  · rw [List.mem_singleton.1 ho, hid]
    exact ⟨.inr ⟨rfl, hpv⟩, S, by rw [hv]; exact hS, fun he => hne (hid.trans (he.symm.trans hSp))⟩

/-- `processCommit` under the lock is `commit`. -/
theorem Cluster.Follows.commitNext (hgood : good → Good n s) (hs : Reach n good s) (h : c.Follows good s tr)
    {ci : CommitInfo}
    {log : InMemOpLogHandler} {entry : LogEntry} (hi : (c.reps i).listener = some (.commit ci))
    (hfree : (c.reps i).repMutexFree = true) (hst : (c.reps i).status = .normal) (hv : ci.viewNum = (c.reps i).viewNum)
    (hn : (c.reps i).commitNum < ci.commitNum) (hl : (c.reps i).log.commit ((c.reps i).commitNum + 1) = some log)
    (he : (c.reps i).log.getLogEntry ((c.reps i).commitNum + 1) = some entry) {kvMap : KvMap} :
    ∃ s', Amounts n good s s' tr [.applied (c.reps i).id ((c.reps i).commitNum + 1) entry.op] i
      { c.reps i with listener := none, commitNum := (c.reps i).commitNum + 1, log := log, kvMap := kvMap } [] := by
  have hlis := h.listener i ci hi
  have hr := h.rep i (by rw [hst]; simp)
  generalize c.reps i = r at *
  obtain ⟨hlast, htop, S, hS, hSp⟩ := hr.normal hst
  have hview : (s.node i).last = (s.node i).view := by rw [hlast, hr.view]
  have hcore := hs.core
  obtain ⟨w, hw, hle⟩ : ∃ w, s.won (s.node i).last w ∧ ci.commitNum ≤ w := by
    rcases hlis with ⟨S', hS', hc⟩ | hw
    · have := hcore.start_commit i S' (by rw [hlast, ← hv, hS'])
      rw [hr.commit] at this
      omega
    · rwa [hlast, ← hv]
  have hlog : (s.node i).log ((s.node i).commit + 1) = some entry.op := by
    rw [hr.log, hr.commit, InMemOpLogHandler.opAt, he]
    rfl
  have hstep : Viewstamp.Step n good s _ :=
    .commit i w hview hw (by rw [hr.commit]; omega) (by rw [hlog]; simp)
  have g := hcore.grows hstep
  have hchosen : good → Chosen s (r.commitNum + 1) entry.op := fun hg => by
    have htop : r.commitNum + 1 ≤ (s.node i).top := by
      by_contra hlt
      have := ((hgood hg).node i).log_top (r.commitNum + 1) (by omega)
      rw [hr.commit, this] at hlog
      cases hlog
    exact ⟨_, w, hw, by omega, by rw [← hcore.log_eq i _ htop, ← hlog, hr.commit]⟩
  refine ⟨_, .inr hstep, fun j hj => Function.update_of_ne hj _ _, fun _ => ?_, fun ci hci => (by cases hci),
    fun q hq => absurd hq (List.not_mem_nil), fun o ho => ?_, fun w hw => .inl hw⟩
  · refine hr.flag g (by simp) ?_ hl he (fun hg => (hchosen hg).grows g) rfl rfl rfl rfl rfl
      (fun p' hp' => absurd hp' (Replica.not_holds_of_free hfree p'))
    rw [← hr.commit]
    exact Function.update_self ..
  · rw [List.mem_singleton.1 ho]
    exact fun hg => ⟨Nat.succ_pos _, (hchosen hg).grows g⟩

/-- The first step of `changeView` is `enter`. -/
theorem Cluster.Follows.enter (hs : Reach n good s) (h : c.Follows good s tr) (hlive : (c.reps i).status ≠ .recovering)
    (hfree : (c.reps i).repMutexFree = true) {pc : HbPc} {sent : List Packet} {v : Nat}
    (hnet : ∀ q ∈ sent, q.Follows s) :
    ∃ s', Amounts n good s s' tr [.entered (c.reps i).id v] i
      { c.reps i with status := .viewChange, viewNum := (c.reps i).viewNum + 1, hb := pc } sent := by
  have hlis := h.listener i
  have hr := h.rep i hlive
  generalize c.reps i = r at *
  have hstep : Viewstamp.Step n good s _ := .enter i
  have hcore := hs.core
  have g := hcore.grows hstep
  refine ⟨_, .inr hstep, fun j hj => Function.update_of_ne hj _ _, fun _ => ?_, fun ci hci => (hlis ci hci).grows g,
    fun q hq => (hnet q hq).grows g, fun o ho => ?_, fun w hw => .inl hw⟩
  · have hnode : (s.setNode i { s.node i with view := (s.node i).view + 1 }).node i =
        { s.node i with view := (s.node i).view + 1 } := Function.update_self ..
    constructor
    case view => exact (congrArg Node.view hnode).trans (congrArg (· + 1) hr.view)
    case log => exact (congrArg Node.log hnode).trans hr.log
    case commit => exact (congrArg Node.commit hnode).trans hr.commit
    case normal => exact fun hst => by cases hst
    case changing =>
      intro _
      rw [congrArg Node.last hnode]
      have := hcore.last_le i
      rw [hr.view] at this
      exact Nat.lt_succ_of_le this
    case holds => exact fun p' hp' => absurd hp' (Replica.not_holds_of_free hfree p')
    case lastNormal =>
      intro v hlt
      rw [congrArg Node.last hnode] at hlt ⊢
      rw [lastNormal_append (by simp)]
      exact hr.lastNormal v hlt
    case chosen => exact fun hg => (hr.chosen hg).grows g
  · rw [List.mem_singleton.1 ho]
    trivial

/-- Building the `ViewChangeInfo` is `cast`. -/
theorem Cluster.Follows.vote (hs : Reach n good s) (h : c.Follows good s tr) (hid : (c.reps i).id = i)
    (hlive : (c.reps i).status ≠ .recovering) {info : ViewChangeInfo} {o cnt d : Nat}
    {infos : Finmap (fun _ : Nat => List ViewChangeInfo)} {votes : WaitMap} (hb : (c.reps i).hb ≠ .idle)
    (hst : (c.reps i).status ≠ .normal)
    (hi : info = ⟨(c.reps i).viewNum, (c.reps i).log.getLog, o, (c.reps i).commitNum, (c.reps i).commitNum,
      (c.reps i).id⟩) :
    ∃ s', Amounts n good s s' tr [.voted (c.reps i).id info] i
      { c.reps i with viewChangeInfoMap := infos, doViewChangeMap := votes, hb := .choosing info cnt d } [] := by
  have hlis := h.listener i
  have hr := h.rep i hlive
  generalize c.reps i = r at *
  have hlt := hr.changing hb
  have hstep : Viewstamp.Step n good s _ := .cast i (by rw [hr.view]; exact hlt)
  have g := hs.core.grows hstep
  have hlast : ∀ v, (s.node i).last < v → MetaDR.lastNormal (tr ++ [.voted r.id info]) v i = (s.node i).last :=
    fun v hv => by rw [lastNormal_append (by simp)]; exact hr.lastNormal v hv
  refine ⟨_, .inr hstep, fun j hj => rfl, fun _ => ?_, fun ci hci => (hlis ci hci).grows g,
    fun q hq => absurd hq (List.not_mem_nil), fun o ho => ?_, fun w hw => .inl hw⟩
  · exact ⟨hr.view, hr.log, hr.commit, fun hn => absurd hn hst, fun _ => hlt, hr.holds, hlast,
      fun hg => (hr.chosen hg).grows g⟩
  · rw [List.mem_singleton.1 ho, hi]
    simp only [Obs.Follows, hid]
    refine ⟨.inr ⟨trivial, hr.view.symm, ?_⟩, fun hg k e he hc => ?_⟩
    · rw [hi] at hlast
      simp only [hid] at hlast
      rw [hlast _ hlt, InMemOpLogHandler.opAt_setLog_getLog, hr.log, hr.commit]
    · rw [InMemOpLogHandler.getLogEntry_setLog_getLog] at he
      exact (hr.chosen hg k e he hc).grows g

theorem mem_replay {log : InMemOpLogHandler} {is : List Nat} {kvMap kvMap' : KvMap} {ops : List (Nat × Op)}
    (h : replay log is kvMap = some (kvMap', ops)) {k : Nat} {op : Op} (hk : (k, op) ∈ ops) :
    k ∈ is ∧ ∃ e, log.getLogEntry k = some e ∧ e.committed = true ∧ e.op = op := by
  induction is generalizing kvMap ops with
  | nil =>
    cases h
    cases hk
  | cons j is ih =>
    unfold replay at h
    cases he : log.getLogEntry j with
    | none => rw [he] at h; cases h
    | some e =>
      rw [he] at h
      simp only at h
      split at h
      · rename_i hc
        obtain ⟨⟨m, ops'⟩, hr, hp⟩ := Option.map_eq_some_iff.1 h
        cases hp
        rcases List.mem_cons.1 hk with hk | hk
        · cases hk
          exact ⟨List.mem_cons_self, e, he, hc, rfl⟩
        · exact (ih hr hk).imp (List.mem_cons_of_mem _) (fun h => h)
      · exact (ih h hk).imp (List.mem_cons_of_mem _) (fun h => h)

/-- What `updateNewView` applies is in the log it adopts, past the old commit number. -/
theorem Replica.Adopts.mem {r : Replica} {info : ViewStartInfo} {kvMap : KvMap} {ops : List (Nat × Op)}
    (h : r.Adopts info kvMap ops) {k : Nat} {op : Op} (hk : (k, op) ∈ ops) :
    r.commitNum < k ∧
      ∃ e, (InMemOpLogHandler.setLog info.opLog).getLogEntry k = some e ∧ e.committed = true ∧ e.op = op := by
  obtain ⟨hm, he⟩ := mem_replay h.replay hk
  obtain ⟨hm, -⟩ := List.mem_range'_1.1 hm
  exact ⟨hm, he⟩

/-- A replica that takes up a view follows a node that does. -/
theorem Replica.Follows.adopt {s' : State Op} {os : List Obs} {r : Replica} (hr : r.Follows good s tr i)
    {w : Nat} {S : Start Op} {info info' : ViewStartInfo} {kvMap : KvMap} {ops : List (Nat × Op)} {b : Bool}
    (hb : r.hb ≠ .idle) (hw : r.viewNum = w) (hn : s'.node i = ⟨w, w, S.log, S.top, S.top⟩) (hS : s'.start w = some S)
    (he : S = ⟨info.replicaId, (InMemOpLogHandler.setLog info.opLog).opAt, info.opNum⟩) (hv : info.viewNum = w)
    (hc : info.opNum = info.commitNum) (hl : good → LogChosen s' (.setLog info.opLog))
    (hos : os = ops.map (fun p => .applied i p.1 p.2) ++ [.newView i b info']) (hv' : info'.viewNum = w) :
    (r.adopted info kvMap).Follows good s' (tr ++ os) i := by
  have hlt := hr.changing hb
  subst hos he
  constructor <;> simp only [hn, Replica.adopted]
  case view => exact hv.symm
  case commit => exact hc
  case normal => exact fun _ => ⟨hv.symm, trivial, _, by rw [hv]; exact hS, rfl⟩
  case changing => exact fun h => absurd rfl h
  case holds =>
    intro p hp
    have := (hr.holds p hp).1
    omega
  case lastNormal =>
    intro v hlt'
    rw [← List.append_assoc, lastNormal_newView (by omega), lastNormal_append (fun b x hx => ?_),
      hr.lastNormal v (by omega), hv']
    · omega
    · obtain ⟨p, -, hp⟩ := List.mem_map.1 hx
      cases hp
  case chosen => exact hl

/-- The new backup's `updateNewView` is `join`. -/
theorem Cluster.Follows.startBackup (hs : Reach n good s) (h : c.Follows good s tr) (hid : (c.reps i).id = i)
    (hlive : (c.reps i).status ≠ .recovering) {info : ViewStartInfo} {kvMap : KvMap} {ops : List (Nat × Op)}
    (hb : (c.reps i).hb ≠ .idle) (hv : info.viewNum = (c.reps i).viewNum)
    (hnew : .newView info.replicaId true info ∈ tr) (ha : (c.reps i).Adopts info kvMap ops) :
    ∃ s', Amounts n good s s' tr
      (ops.map (fun p => .applied (c.reps i).id p.1 p.2) ++ [.newView (c.reps i).id false info]) i
      ((c.reps i).adopted info kvMap) [] := by
  have hlis := h.listener i
  have hr := h.rep i hlive
  obtain ⟨hS, hc, hl⟩ := h.seen _ hnew
  generalize c.reps i = r at *
  have hlt := hr.changing hb
  have hstep : Viewstamp.Step n good s _ := .join i r.viewNum _ hr.view hlt (hv ▸ hS)
  have g := hs.core.grows hstep
  refine ⟨_, .inr hstep, fun j hj => Function.update_of_ne hj _ _, fun _ => ?_, fun ci hci => (hlis ci hci).grows g,
    fun q hq => absurd hq (List.not_mem_nil), fun o ho => ?_, fun w hw => .inl hw⟩
  · exact hr.adopt hb rfl (Function.update_self ..) (hv ▸ hS) rfl hv hc (fun hg => (hl hg).grows g) (by rw [hid]) hv
  · rcases List.mem_append.1 ho with ho | ho
    · obtain ⟨⟨k, op⟩, hk, rfl⟩ := List.mem_map.1 ho
      obtain ⟨hlt, e, he, hcm, rfl⟩ := ha.mem hk
      exact fun hg => ⟨by omega, (hl hg k e he hcm).grows g⟩
    · rw [List.mem_singleton.1 ho]
      trivial

theorem selectCandidate_mem {votes : List ViewChangeInfo} {cand : ViewChangeInfo}
    (h : selectCandidate votes = some cand) :
    cand ∈ votes := by
  cases votes with
  | nil => cases h
  | cons info rest => exact List.mem_of_getElem? h

/-- The vote of the protocol that the info of a sender is. -/
def voteOf (tr : List Obs) (w : Nat) (votes : List ViewChangeInfo) (q : Nat) : Vote Op :=
  match votes.find? (fun info => decide (info.replicaId = q)) with
  | some info => ⟨lastNormal tr w q, (InMemOpLogHandler.setLog info.opLog).opAt, info.commitNum⟩
  | none => ⟨0, fun _ => none, 0⟩

theorem voteOf_mem {votes : List ViewChangeInfo} (hnd : (votes.map ViewChangeInfo.replicaId).Nodup)
    {info : ViewChangeInfo}
    (hi : info ∈ votes) (w : Nat) : voteOf tr w votes info.replicaId =
      ⟨lastNormal tr w info.replicaId, (InMemOpLogHandler.setLog info.opLog).opAt, info.commitNum⟩ := by
  unfold voteOf
  cases hf : votes.find? (fun x => decide (x.replicaId = info.replicaId)) with
  | none => exact absurd (List.find?_eq_none.1 hf info hi) (by simp)
  | some x =>
    have hx : x.replicaId = info.replicaId := by simpa using List.find?_some hf
    rw [List.inj_on_of_nodup_map hnd (List.mem_of_find?_eq_some hf) hi hx]

/-- The infos whose loop picks the newest, and which end at their op numbers, are votes to start from. -/
theorem newest_of_picks {w : Nat} {votes : List ViewChangeInfo} {cand : ViewChangeInfo}
    (hnd : (votes.map ViewChangeInfo.replicaId).Nodup) (hop : ∀ info ∈ votes, info.opNum = info.commitNum)
    (hc : selectCandidate votes = some cand) (hleft : noneLeft votes = true)
    (hpick : picksNewest (lastNormal tr w) votes = true) :
    Newest (votes.map ViewChangeInfo.replicaId).toFinset (voteOf tr w votes) cand.replicaId := by
  have hcand := selectCandidate_mem hc
  simp only [picksNewest, hc, Option.any_some, List.all_eq_true, decide_eq_true_eq] at hpick
  simp only [noneLeft, List.all_eq_true, decide_eq_true_eq] at hleft
  refine ⟨fun q hq k hk => ?_, fun q hq => ?_⟩
  · obtain ⟨info, hi, rfl⟩ := List.mem_map.1 (List.mem_toFinset.1 hq)
    rw [voteOf_mem hnd hi] at hk ⊢
    by_contra hne
    obtain ⟨op, ho⟩ := Option.ne_none_iff_exists'.1 hne
    obtain ⟨e, he, -⟩ := InMemOpLogHandler.opAt_eq_some ho
    obtain ⟨hm, rfl⟩ := InMemOpLogHandler.mem_of_getLogEntry_setLog he
    have := hleft info hi e hm
    rw [hop info hi] at this
    exact absurd hk (by simpa using this)
  · obtain ⟨info, hi, rfl⟩ := List.mem_map.1 (List.mem_toFinset.1 hq)
    rw [voteOf_mem hnd hi, voteOf_mem hnd hcand]
    simp only
    rw [← hop info hi, ← hop cand hcand]
    exact hpick info hi

/-- Nobody has started the view a candidate is about to start. -/
theorem Cluster.Follows.not_started (h : c.Follows good s tr) (hM : Moves n R c tr)
    (hR : R.atomic = true ∨ R.peersKept = true) (hC : R.called = true) (hi : i < n) {w : Nat}
    (hb : (c.reps i).hb = .doWait w) (hq : (c.reps i).getMajorityCnt ≤ ((c.reps i).votesFor w).length) (hpos : 0 < w) :
    s.start w = none := by
  by_contra hne
  rcases h.started w hne with rfl | ⟨q, info, hnew, rfl⟩
  · omega
  · rw [((hM.peers hR).1 i).majority hi] at hq
    have hqi := hM.backed_unique (hM.backed_of_newView hR hC hnew) (hM.backed hC hb hq)
    have hhb := hM.hbOk i
    rw [Replica.hbOk, hb] at hhb
    have hlt := (hM.views i).newView_lt hhb (by rw [hb]; simp) true info (hqi ▸ hnew)
    obtain ⟨hv, -⟩ := (hM.views i).hb_view info.viewNum (by rw [hb]; rfl)
    omega

theorem step_take {d w p : Nat} {Q : Finset Nat} {V : Nat → Vote Op} {x : Vote Op} (hw : (s.node d).view = w)
    (hl : (s.node d).last < w) (hs : s.start w = none) (hQ : IsQuorum n Q) (hV : ∀ q ∈ Q, s.vote q w (V q)) (hp : p ∈ Q)
    (hg : good → Newest Q V p) (hx : V p = x) :
    Viewstamp.Step n good s { s.setNode d ⟨w, w, x.log, x.commit, x.commit⟩ with
      start := Function.update s.start w (some ⟨d, x.log, x.commit⟩)
      op := Function.update s.op w (fun m => if m ≤ x.commit then x.log m else none) } := by
  subst hx
  exact .take d w Q V p hw hl hs hQ hV hp hg

/-- What a stored vote is in the protocol. -/
theorem Cluster.Follows.votesFor (h : c.Follows good s tr) (hM : Moves n R c tr) {w : Nat} {info : ViewChangeInfo}
    (hi : info ∈ (c.reps i).votesFor w) : info.viewNum = w ∧ info.opNum = info.commitNum ∧
      s.vote info.replicaId w ⟨lastNormal tr w info.replicaId, (InMemOpLogHandler.setLog info.opLog).opAt,
        info.commitNum⟩ ∧
        (good → LogChosen s (.setLog info.opLog)) := by
  obtain ⟨hk, -, hko⟩ := hM.known
  obtain ⟨hv, hm⟩ := (hk i).votes w info hi
  obtain ⟨h1, h2⟩ := h.seen _ hm
  rw [hv] at h1
  exact ⟨hv, (hko _ hm).2, h1, h2⟩

/-- A candidate with its quorum can start its view from the vote it picks. -/
theorem Cluster.Follows.takes (h : c.Follows good s tr) (hM : Moves n R c tr)
    (hR : R.atomic = true ∨ R.peersKept = true) (hC : R.called = true)
    (hi : i < n) {w : Nat} {cand : ViewChangeInfo} (hb : (c.reps i).hb = .doWait w)
    (hq : (c.reps i).getMajorityCnt ≤ ((c.reps i).votesFor w).length)
    (hc : selectCandidate ((c.reps i).votesFor w) = some cand)
    (hg : good → noneLeft ((c.reps i).votesFor w) = true ∧
      picksNewest (lastNormal tr w) ((c.reps i).votesFor w) = true) :
    Viewstamp.Step n good s
      { s.setNode i ⟨w, w, (InMemOpLogHandler.setLog cand.opLog).opAt, cand.commitNum, cand.commitNum⟩ with
        start := Function.update s.start w (some ⟨i, (InMemOpLogHandler.setLog cand.opLog).opAt, cand.commitNum⟩)
        op := Function.update s.op w
          (fun m => if m ≤ cand.commitNum then (InMemOpLogHandler.setLog cand.opLog).opAt m else none) } := by
  have hlive := hM.hbOk i
  rw [Replica.hbOk, hb] at hlive
  have hr := h.rep i hlive
  obtain ⟨hw, -⟩ := (hM.views i).hb_view w (by rw [hb]; rfl)
  have hlt := hr.changing (by rw [hb]; simp)
  rw [← hw] at hlt
  have hnd := hM.votes_nodup hC i w
  have hquorum := hM.votes_quorum hC (((hM.peers hR).1 i).majority hi ▸ hq)
  have hcand := selectCandidate_mem hc
  refine step_take (hr.view.trans hw.symm) hlt (h.not_started hM hR hC hi hb hq (by omega)) hquorum (fun q hq => ?_)
    (List.mem_toFinset.2 (List.mem_map_of_mem hcand))
    (fun hgood => newest_of_picks hnd (fun info hin => (h.votesFor hM hin).2.1) hc (hg hgood).1 (hg hgood).2)
    (voteOf_mem hnd hcand w)
  obtain ⟨info, hin, rfl⟩ := List.mem_map.1 (List.mem_toFinset.1 hq)
  rw [voteOf_mem hnd hin]
  exact (h.votesFor hM hin).2.2.1

/-- The candidate's `updateNewView` is `take`. -/
theorem Cluster.Follows.startPrimary (hs : Reach n good s) (h : c.Follows good s tr) (hM : Moves n R c tr)
    (hR : R.atomic = true ∨ R.peersKept = true) (hC : R.called = true) (hi : i < n) {w : Nat} {cand : ViewChangeInfo}
    {kvMap : KvMap} {ops : List (Nat × Op)} (hb : (c.reps i).hb = .doWait w)
    (hq : (c.reps i).getMajorityCnt ≤ ((c.reps i).votesFor w).length)
    (hc : selectCandidate ((c.reps i).votesFor w) = some cand)
    (hg : good → noneLeft ((c.reps i).votesFor w) = true ∧
      picksNewest (lastNormal tr w) ((c.reps i).votesFor w) = true)
    (ha : (c.reps i).Adopts ((c.reps i).startInfo cand) kvMap ops) :
    ∃ s', Amounts n good s s' tr (ops.map (fun p => .applied (c.reps i).id p.1 p.2) ++
        [.newView (c.reps i).id true ((c.reps i).viewStartInfo cand)]) i
      ((c.reps i).adopted ((c.reps i).startInfo cand) kvMap)
      ((c.reps i).invokeForAllReplicas (.startView ((c.reps i).viewStartInfo cand))) := by
  have hstep := h.takes hM hR hC hi hb hq hc hg
  obtain ⟨hv, hop, -, hchosen⟩ := h.votesFor hM (selectCandidate_mem hc)
  have hlive := hM.hbOk i
  rw [Replica.hbOk, hb] at hlive
  have hr := h.rep i hlive
  have hne : (c.reps i).hb ≠ .idle := by rw [hb]; simp
  obtain ⟨hw, -⟩ := (hM.views i).hb_view w (by rw [hb]; rfl)
  have hlis := h.listener i
  have hid := hM.id_eq i
  generalize c.reps i = r at *
  have g := hs.core.grows hstep
  refine ⟨_, .inr hstep, fun j hj => Function.update_of_ne hj _ _, fun _ => ?_, fun ci hci => (hlis ci hci).grows g,
    fun q hq => ?_, fun o ho => ?_, fun u hu => ?_⟩
  · refine hr.adopt (S := ⟨i, (InMemOpLogHandler.setLog cand.opLog).opAt, cand.commitNum⟩) hne hw.symm
      (Function.update_self ..) (Function.update_self ..) ?_ hv hop (fun hgood => (hchosen hgood).grows g)
      (by rw [hid]) hv
    simp only [Replica.startInfo, Replica.viewStartInfo, hop, hid]
  · simp only [Packet.Follows, (Replica.mem_invokeForAllReplicas.1 hq).1]
  · rcases List.mem_append.1 ho with ho | ho
    · obtain ⟨⟨k, op⟩, hk, rfl⟩ := List.mem_map.1 ho
      obtain ⟨hlt, e, he, hcm, rfl⟩ := ha.mem hk
      exact fun hgood => ⟨by omega, (hchosen hgood k e he hcm).grows g⟩
    · rw [List.mem_singleton.1 ho]
      simp only [Obs.Follows, Replica.viewStartInfo, InMemOpLogHandler.opAt_setLog_getLog, hv, hid]
      refine ⟨by rw [Function.update_self, hop], hop, fun hgood k e he hcm => ?_⟩
      rw [InMemOpLogHandler.getLogEntry_setLog_getLog] at he
      exact (hchosen hgood k e he hcm).grows g
  · by_cases he : u = w
    · exact .inr ⟨r.id, r.viewStartInfo cand, by simp, by rw [he]; exact hv⟩
    · exact .inl (by simpa only [Function.update_of_ne he] using hu)

/-- A view is taken up only by a replica that is changing to it. -/
theorem Move.newView_view {r r' : Replica} {msg : Option Msg} {sent : List Packet} {os : List Obs}
    (m : Move R tr r msg r' sent os) {q : Nat} {b : Bool} {x : ViewStartInfo} (hx : .newView q b x ∈ os) :
    r.hb.view = some x.viewNum := by
  cases m with
  | startPrimary v votes cand kvMap ops hb hv hq hc hn hst hA ha hs =>
    obtain ⟨-, -, rfl⟩ := by simpa using hx
    rw [hb, ← hn]
    rfl
  | startBackup v info kvMap ops hb hi hn hA ha hs =>
    obtain ⟨-, -, rfl⟩ := by simpa using hx
    rcases hb with hb | ⟨o, hb⟩ <;> rw [hb, hn] <;> rfl
  | _ => simp at hx

/-- A recovering replica is not in `replicate`. -/
theorem Moves.holds_live (hM : Moves n R c tr) {p : PrepInfo} (hp : (c.reps i).holds p) :
    (c.reps i).status ≠ .recovering := by
  refine hM.forall_rep (P := fun r => ∀ p, r.holds p → r.status ≠ .recovering)
    (fun i p hp => absurd hp (Replica.holds_of_idle rfl p)) (fun _ h => h)
    (fun _ _ _ p hp => absurd hp (Replica.holds_of_idle rfl p)) ?_ i p hp
  intro c tr i msg r' sent os _ hr m
  cases m with
  | prepare req m q hc hl hpri hs => exact fun _ _ => by rw [hs]; simp
  | countOwn req m q hc => exact fun _ _ => hr q ⟨req, m, .inl hc⟩
  | enter => exact fun _ _ => by simp
  | startPrimary => exact fun _ _ => by simp [Replica.adopted]
  | startBackup => exact fun _ _ => by simp [Replica.adopted]
  | storeStart => exact fun _ _ => by simp
  | lock | refuse | passQuorum | giveUp | finish => rintro q ⟨_, _, hq | hq⟩ <;> cases hq
  | _ => exact hr

/-- The heart-beat thread does not change views while the client's thread is in `replicate`. -/
theorem Moves.holds_idle (hM : Moves n R c tr) {p : PrepInfo} (hp : (c.reps i).holds p) : (c.reps i).hb = .idle := by
  refine (hM.forall_rep (P := fun r => ∀ p, r.holds p → r.status ≠ .recovering ∧ r.hb = .idle)
    (fun i p hp => absurd hp (Replica.holds_of_idle rfl p)) (fun _ h => h)
    (fun _ _ _ p hp => absurd hp (Replica.holds_of_idle rfl p)) ?_ i p hp).2
  intro c tr i msg r' sent os _ hr m
  -- a thread in the view change has the lock, so none is in `replicate`
  have hbusy : ∀ {p : PrepInfo}, (c.reps i).hb ≠ .idle → ¬ (c.reps i).holds p := fun hb hp => hb (hr _ hp).2
  cases m with
  | prepare req m q hc hl hpri hs => exact fun _ _ => ⟨by rw [hs]; simp, Replica.hb_idle_of_free (r := c.reps i) hl⟩
  | countOwn req m q hc => exact fun _ _ => hr q ⟨req, m, .inl hc⟩
  | enter sent hl => exact fun p hp => absurd hp (Replica.not_holds_of_free hl p)
  | startWait v o hb => exact fun p hp => absurd hp (hbusy (by rw [hb]; simp))
  | vote v o info hb => exact fun p hp => absurd hp (hbusy (by rcases hb with hb | hb <;> rw [hb] <;> simp))
  | candidate info cnt d sent hb => exact fun p hp => absurd hp (hbusy (by rw [hb]; simp))
  | select info cnt d sent hb => exact fun p hp => absurd hp (hbusy (by rw [hb]; simp))
  | giveUpView => exact fun p hp => ⟨(hr p hp).1, rfl⟩
  | startPrimary | startBackup => exact fun p hp => ⟨by simp [Replica.adopted], rfl⟩
  | storeStart => exact fun p hp => ⟨by simp, (hr p hp).2⟩
  | recover pc sent hs => exact fun p hp => absurd hs (hr p hp).1
  | lock | refuse | passQuorum | giveUp | finish => rintro q ⟨_, _, hq | hq⟩ <;> cases hq
  | _ => exact hr

/-- **Every move is a step of the protocol, or none.** -/
theorem Cluster.Follows.move (hs : Reach n good s) (h : c.Follows good s tr) (hM : Moves n R c tr)
    (hat : R.atomic = true) (hC : R.called = true)
    (hstart : good → ∀ last votes, R.start last votes = true → noneLeft votes = true ∧ picksNewest last votes = true)
    (hans : good → ∀ req m p, (c.reps i).client = .waiting req m p →
      (R.notified = true → (c.reps i).getMajorityCnt ≤ (c.reps i).waitMap.cnt p.opNum) → Answered n tr p)
    (hi : i < n) {p : Option Packet} (hp : ∀ q, p = some q → q ∈ c.net ∧ q.dst = i) {r' : Replica} {sent : List Packet}
    {os : List Obs} (m : MetaDR.Move R tr (c.reps i) (p.map Packet.msg) r' sent os) :
    ∃ s', Amounts n good s s' tr os i r' sent := by
  obtain ⟨hk, -, hko⟩ := hM.known
  have hmsg := Cluster.of_taken h.net hp
  have hid := hM.id_eq i
  have hlis := h.listener i
  have same := Replica.Aside.refl (c.reps i)
  have hnone : ∀ o ∈ ([] : List Obs), o.Follows good s (tr ++ []) := fun o ho => absurd ho (List.not_mem_nil)
  have hsent : (∀ q p, .quorum q p ∉ os) → ∀ q ∈ sent, q.Follows s := fun hno q hq => by
    cases m.sends q hq with
    | passed d p ho => exact absurd ho (hno _ p)
    | beat d hst => exact h.beat hs hst
    | _ => trivial
  generalize p.map Packet.msg = msg at m hmsg
  cases m with
  | reply req res hc hf =>
    exact h.stutter (fun _ => same) hlis (hsent (by simp)) (by simp) (by simp [Obs.Follows])
  | lock req m hc hf =>
    exact h.stutter (fun _ => { same with holds := by rintro q ⟨_, _, hq | hq⟩ <;> cases hq }) hlis
      (hsent (by simp)) (by simp) hnone
  | refuse req m hc hl hst =>
    exact h.stutter (fun _ => { same with
      normal := fun hs => absurd hs hst
      holds := by rintro q ⟨_, _, hq | hq⟩ <;> cases hq }) hlis (hsent (by simp)) (by simp) (by simp [Obs.Follows])
  | prepare req m q hc hl hpri hst hv hn ho hR => exact h.prepare hs hid hl hpri hst hv hn
  | countOwn req m q hc =>
    refine h.stutter (fun _ => { same with holds := ?_ }) hlis (hsent (by simp)) (by simp) hnone
    rintro q' ⟨_, _, hq | hq⟩ <;> cases hq
    exact ⟨req, m, .inl hc⟩
  | passQuorum req m q log hc hq hR hl =>
    exact h.passQuorum hs hc (hM.holds_live ⟨req, m, .inr hc⟩) hl (fun hg => hans hg req m q hc hq)
  | giveUp req m q hc =>
    exact h.stutter (fun _ => { same with holds := by rintro q ⟨_, _, hq | hq⟩ <;> cases hq }) hlis
      (hsent (by simp)) (by simp) (by simp [Obs.Follows])
  | finish req m k hc =>
    obtain ⟨q, hq, rfl, hqo⟩ := (hk i).replicated req m k hc
    refine h.stutter (fun _ => { same with holds := by rintro q ⟨_, _, hq | hq⟩ <;> cases hq }) hlis
      (hsent (by simp)) (by simp) (fun o ho => ?_)
    rcases List.mem_cons.1 ho with rfl | ho
    · obtain ⟨hop, -, S, -, -, hlt⟩ := h.seen _ (hko _ hq)
      exact fun _ => ⟨by omega, q.viewNum, q.opNum, h.seen _ hq, le_refl _, hqo ▸ hop⟩
    · rw [List.mem_singleton.1 ho]
      trivial
  | ack q hq hl hn ht hk' =>
    obtain ⟨j, hj⟩ := (hk i).ppit q hq
    exact h.ack hs hid hj hl hn (ht hat)
  | countOk resp hi =>
    exact h.stutter (fun _ => { same with }) (fun _ hci => by cases hci) (hsent (by simp)) (by simp)
      (by simp [Obs.Follows])
  | listen ci =>
    refine h.stutter (fun _ => { same with }) (fun ci' hci => ?_) (hsent (by simp)) (by simp) hnone
    cases hci
    exact hmsg _ rfl
  | unlisten ci hc =>
    exact h.stutter (fun _ => { same with }) (fun ci' hci => by cases hci) (hsent (by simp)) (by simp) hnone
  | commitNext ci log entry hli hl ht hv hn hlog he hc =>
    exact h.commitNext (fun hg => hs.good hg) hs hli hl (ht hat) hv hn hlog he
  | enter sent hl hst hpri hm => exact h.enter hs hst hl (hsent (by simp))
  | startWait v o hb =>
    exact h.stutter (fun _ => { same with changing := fun _ => by rw [hb]; simp }) hlis (hsent (by simp)) (by simp)
      hnone
  | vote v o info hb hinfo =>
    have hne : (c.reps i).hb ≠ .idle := by rcases hb with hb | hb <;> rw [hb] <;> simp
    have hview : (c.reps i).hb.view = some v := by rcases hb with hb | hb <;> rw [hb] <;> rfl
    obtain ⟨rfl, -⟩ := (hM.views i).hb_view v hview
    exact h.vote hs hid ((hM.hbOk i).live hview) hne (fun hn => hne ((hM.views i).normal_idle hn)) hinfo
  | candidate info cnt d sent hb hd =>
    exact h.stutter (fun _ => { same with changing := fun _ => by rw [hb]; simp }) hlis (hsent (by simp)) (by simp)
      hnone
  | select info cnt d sent hb hd =>
    have hne : (c.reps i).hb ≠ .idle := by rw [hb]; simp
    exact h.stutter (fun _ => { same with
      normal := fun hs => absurd ((hM.views i).normal_idle hs) hne
      changing := fun _ => hne }) hlis (hsent (by simp)) (by simp) (by simp [Obs.Follows])
  | giveUpView hb =>
    exact h.stutter (fun _ => { same with changing := fun hb => absurd rfl hb }) hlis (hsent (by simp)) (by simp) hnone
  | startPrimary w votes cand kvMap ops hb hv hq hc hn hR hA ha hst =>
    subst hv
    exact h.startPrimary hs hM (.inl hat) hC hi hb hq hc (fun hg => hstart hg _ _ hR) ha
  | startBackup w info kvMap ops hb hinfo hn hA ha hst =>
    obtain ⟨-, hnew, -⟩ := (hk i).starts w info hinfo
    have hview : (c.reps i).hb.view = some w := by rcases hb with hb | ⟨o, hb⟩ <;> rw [hb] <;> rfl
    exact h.startBackup hs hid ((hM.hbOk i).live hview) (by rcases hb with hb | ⟨o, hb⟩ <;> rw [hb] <;> simp)
      (hn.trans ((hM.views i).hb_view w hview).1) hnew ha
  | takeOk | storeVote | countVote =>
    exact h.stutter (fun _ => { same with }) (fun _ hci => by cases hci) (hsent (by simp)) (by simp) hnone
  | storeStart info hv hst =>
    exact h.stutter (fun _ => { same with normal := fun hs => (by cases hs), live := fun _ => hst })
      (fun _ hci => by cases hci) (hsent (by simp)) (by simp) hnone
  | recover pc sent hst hh hm =>
    exact h.stutter (fun hr => absurd hst hr) hlis (hsent (by simp)) (by simp) hnone
  | _ => exact h.stutter (fun _ => { same with }) hlis (hsent (by simp)) (by simp) hnone

/-- Another replica in the place of one, in the same state of the protocol. -/
theorem Cluster.Follows.setRep (h : c.Follows good s tr) {r : Replica}
    (hrep : r.status ≠ .recovering → r.Follows good s tr i)
    (hlis : ∀ commitInfo, r.listener = some (.commit commitInfo) →
      Committable s commitInfo.viewNum commitInfo.commitNum) :
    (c.setRep i r).Follows good s tr := by
  refine { h with rep := fun j hj => ?_, listener := fun j => ?_ }
  · by_cases hji : j = i
    · subst hji
      rw [Cluster.setRep_reps_self] at hj ⊢
      exact hrep hj
    · rw [Cluster.setRep_reps_of_ne c _ hji] at hj ⊢
      exact h.rep j hj
  · by_cases hji : j = i
    · subst hji
      rw [Cluster.setRep_reps_self]
      exact hlis
    · rw [Cluster.setRep_reps_of_ne c _ hji]
      exact h.listener j

/-- What a move amounts to carries over to the cluster. -/
theorem Cluster.Follows.moved {s' : State Op} (g : Grows s s') (h : c.Follows good s tr) (hM : Moves n R c tr)
    {p : Option Packet} {r' : Replica} {sent : List Packet} {os : List Obs}
    (m : MetaDR.Move R tr (c.reps i) (p.map Packet.msg) r' sent os) (a : Amounts n good s s' tr os i r' sent) :
    Cluster.Follows good s' (tr ++ os) { c.setRep i r' with net := takeUp p c.net ++ sent } := by
  have hby := m.by_eq
  rw [hM.id_eq i] at hby
  refine ⟨fun j hj => ?_, fun j => ?_, fun q hq => ?_, fun o ho => ?_, fun w hw => ?_⟩
  · by_cases hji : j = i
    · subst hji
      simp only [Cluster.setRep, Function.update_self] at hj ⊢
      exact a.rep hj
    · simp only [Cluster.setRep, Function.update_of_ne hji] at hj ⊢
      exact (h.rep j hj).frame g (a.node j hji) (fun o ho he => hji (he.symm.trans (hby o ho)))
  · by_cases hji : j = i
    · subst hji
      simp only [Cluster.setRep, Function.update_self]
      exact a.listener
    · simp only [Cluster.setRep, Function.update_of_ne hji]
      exact fun ci hci => (h.listener j ci hci).grows g
  · rcases List.mem_append.1 hq with hq | hq
    · refine (h.net q ?_).grows g
      cases p with
      | none => exact hq
      | some p => exact List.mem_of_mem_erase hq
    · exact a.net q hq
  · rcases List.mem_append.1 ho with ho | ho
    · refine (h.seen o ho).frame g ?_
      rintro q info rfl b x hx
      -- a view is taken up after every vote the replica cast
      have hq : q = i := (hby _ hx)
      subst hq
      obtain ⟨hv, -⟩ := (hM.views q).hb_view _ (m.newView_view hx)
      rw [hv]
      exact (hM.views q).entered_le ((hM.hbOk q).live (m.newView_view hx)) _ ((hM.views q).voted_entered info ho)
    · exact a.seen o ho
  · rcases a.started w hw with hw | ⟨q, info, hin, hv⟩
    · rcases h.started w hw with hw | ⟨q, info, hin, hv⟩
      · exact .inl hw
      · exact .inr ⟨q, info, List.mem_append_left _ hin, hv⟩
    · exact .inr ⟨q, info, List.mem_append_right _ hin, hv⟩

/-- **Every run is a run of the protocol.** -/
theorem Moves.refines (hat : R.atomic = true) (hC : R.called = true)
    (hstart : good → ∀ last votes, R.start last votes = true → noneLeft votes = true ∧ picksNewest last votes = true)
    (hans : good → ∀ c tr i req m p, Moves n R c tr → i < n → (c.reps i).client = .waiting req m p →
      (R.notified = true → (c.reps i).getMajorityCnt ≤ (c.reps i).waitMap.cnt p.opNum) → Answered n tr p)
    (hM : Moves n R c tr) : ∃ s, Reach n good s ∧ c.Follows good s tr := by
  induction hM with
  | init => exact ⟨_, .init, follows_init good n⟩
  | @step c c' tr os hM m ih =>
    obtain ⟨s, hs, h⟩ := ih
    cases m with
    | lose p =>
      rw [List.append_nil]
      exact ⟨s, hs, { h with net := fun q hq => h.net q (List.mem_of_mem_erase hq) }⟩
    | down i =>
      rw [List.append_nil]
      exact ⟨s, hs, h.setRep (fun hl => { h.rep i hl with }) (h.listener i)⟩
    | restart i flag hi hR =>
      rw [List.append_nil]
      exact ⟨s, hs, h.setRep (fun hl => absurd rfl hl) (fun ci hci => by cases hci)⟩
    | move i p r' sent os hi hp m =>
      obtain ⟨s', a⟩ := h.move hs hM hat hC hstart (fun hg req m q hc hq => hans hg c tr i req m q hM hi hc hq) hi hp m
      rcases a.step with rfl | hstep
      · exact ⟨s', hs, h.moved (.refl s') hM m a⟩
      · exact ⟨s', hs.step hstep, h.moved (hs.core.grows hstep) hM m a⟩

end

end MetaDR
