import MetaDR.Move
/-!
# Performs — all that a section can do

Once for every section of a thread (`performs_of_act`) and every handler (`handles_of_handle`): the position it starts
from, the tests that let it through, and what it leaves.  Every result about what a replica does goes through these
two, so a change to one function of the source changes one lemma here.
-/
namespace MetaDR

theorem Outcome.withStore_eq_ok {r : Replica} {o : Option Step} {s : Step} (h : Outcome.withStore r o = .ok s) :
    o = some s ∧ (s.obs.any Obs.isApplied = true → r.client = .idle) := by
  unfold withStore at h
  split at h
  · cases h
  · rename_i s'
    split at h
    · cases h
    · rename_i hn
      cases h
      exact ⟨rfl, fun ha => by by_contra hc; exact hn ⟨ha, hc⟩⟩

theorem Outcome.ofOption_eq_ok {o : Option Step} {s : Step} (h : Outcome.ofOption o = .ok s) : o = some s := by
  cases o with
  | none => cases h
  | some x => cases h; rfl

namespace Replica

/-- The bookkeeping `cleanUp` and the clock do not count. -/
def tidied (r : Replica) (now : Nat) : Replica :=
  { r with lastCommitTime := now, viewStartReqMap := ∅, startViewMap := ∅ }

/-- The replica at the first two lines of `changeView`. -/
def entering (r : Replica) : Replica := { r with status := .viewChange, viewNum := r.viewNum + 1 }

theorem adopt_eq_some {r r' : Replica} {info : ViewStartInfo} {now : Nat} {ops : List (Nat × Op)}
    (h : r.adopt info now = some (r', ops)) :
    ∃ kvMap, r.Adopts info kvMap ops ∧ r'.cleanUp = (r.adopted info kvMap).tidied now := by
  unfold adopt at h
  dsimp only at h
  split at h
  · cases h
  · rename_i e he
    split at h
    · cases h
    · rename_i hc
      split at h
      · cases h
      · rename_i kvMap ops' hr
        cases h
        exact ⟨kvMap, ⟨⟨e, he, by simpa using hc⟩, hr⟩, rfl⟩

theorem updateNewView_true {r : Replica} {s : Step} {viewNum now : Nat}
    (h : r.updateNewView viewNum true now = some s) :
    ∃ candidate kvMap ops, r.getMajorityCnt ≤ ((r.viewChangeInfoMap.lookup viewNum).getD []).length ∧
      selectCandidate ((r.viewChangeInfoMap.lookup viewNum).getD []) = some candidate ∧ candidate.viewNum = viewNum ∧
      r.Adopts (r.startInfo candidate) kvMap ops ∧
      s = ⟨(r.adopted (r.startInfo candidate) kvMap).tidied now,
        r.invokeForAllReplicas (.startView (r.viewStartInfo candidate)),
        ops.map (fun p => .applied r.id p.1 p.2) ++ [.newView r.id true (r.viewStartInfo candidate)]⟩ := by
  unfold updateNewView at h
  simp only [if_true] at h
  split at h
  · cases h
  · rename_i hlen
    split at h
    · cases h
    · rename_i candidate hsel
      split at h
      · cases h
      · rename_i hv
        split at h
        · cases h
        · rename_i r' ops ha
          cases h
          obtain ⟨kvMap, had, hr'⟩ := adopt_eq_some ha
          refine ⟨candidate, kvMap, ops, by omega, hsel, by_contra hv, had, ?_⟩
          rw [hr']; rfl

theorem updateNewView_false {r : Replica} {s : Step} {viewNum now : Nat}
    (h : r.updateNewView viewNum false now = some s) :
    ∃ info kvMap ops, r.viewStartInfoMap.lookup viewNum = some info ∧ info.viewNum = viewNum ∧
      r.Adopts info kvMap ops ∧
      s = ⟨(r.adopted info kvMap).tidied now, [],
        ops.map (fun p => .applied r.id p.1 p.2) ++ [.newView r.id false info]⟩ := by
  unfold updateNewView at h
  simp only [Bool.false_eq_true, if_false] at h
  split at h
  · cases h
  · rename_i info hi
    split at h
    · cases h
    · rename_i hv
      split at h
      · cases h
      · rename_i r' ops ha
        cases h
        obtain ⟨kvMap, had, hr'⟩ := adopt_eq_some ha
        exact ⟨info, kvMap, ops, hi, by_contra hv, had, by rw [hr']⟩

/-- The end of `replicate` behind its quorum test: the state of `r`, with `log`. -/
def passed (r : Replica) (req : Req) (m : Mutation) (prepInfo : PrepInfo) (log : InMemOpLogHandler) : Step :=
  ⟨{ r with
      log := log
      commitNum := prepInfo.opNum
      waitMap := r.waitMap.erase prepInfo.opNum
      client := .replicated req m prepInfo.opNum },
    r.invokeForAllReplicas (.commit ⟨prepInfo.viewNum, prepInfo.opNum⟩),
    [.quorum r.id prepInfo, .forgot r.id prepInfo.opNum]⟩

/-- `updateNewView(viewNum, false)` took up `info`. -/
def joined (r : Replica) (info : ViewStartInfo) (kvMap : KvMap) (ops : List (Nat × Op)) (now : Nat) : Step :=
  ⟨(r.adopted info kvMap).tidied now, [], ops.map (fun p => .applied r.id p.1 p.2) ++ [.newView r.id false info]⟩

/-- `updateNewView(viewNum, true)` took up `candidate`. -/
def started (r : Replica) (candidate : ViewChangeInfo) (kvMap : KvMap) (ops : List (Nat × Op)) (now : Nat) : Step :=
  ⟨(r.adopted (r.startInfo candidate) kvMap).tidied now,
    r.invokeForAllReplicas (.startView (r.viewStartInfo candidate)),
    ops.map (fun p => .applied r.id p.1 p.2) ++ [.newView r.id true (r.viewStartInfo candidate)]⟩

/-- `recover` took the state of `resp`. -/
def recoveredFrom (r : Replica) (resp : RecoveryResponse) (now : Nat) : Step :=
  ⟨{ r with
      kvMap := recoverStateFromLog r.kvMap resp.opLog
      priId := resp.replicaId
      viewNum := resp.viewNum
      opNum := resp.opNum
      commitNum := resp.commitNum
      log := .setLog resp.opLog
      lastCommitTime := now
      status := .normal
      recoveryWaitMap := ∅
      recoveryRespMap := ∅
      respViewCnt := []
      receivedRespFromPri := false
      hb := .idle }, [],
    (resp.opLog.filter LogEntry.committed).map (fun entry => .applied r.id entry.opNum entry.op)⟩

theorem recoverEnd_eq_some {r : Replica} {nonce now : Nat} {s : Step} (h : r.recoverEnd nonce now = some s) :
    ∃ resp, s = r.recoveredFrom resp now := by
  unfold recoverEnd at h
  dsimp only at h
  split at h
  · cases h
  · cases h
  · rename_i resp _
    cases h
    exact ⟨resp, rfl⟩

/-- **The sections of the threads**: where each starts, what lets it through and what it leaves. -/
inductive Performs (r : Replica) (now : Nat) : Act → Step → Prop where
  | replied (req : Req) (res : Result) (hc : r.client = .idle) (hf : req.front r.isPrimary r.kvMap = .ok (.reply res)) :
      Performs r now (.clientCall req) ⟨r, [], [.replied r.id req res]⟩
  | locked (req : Req) (m : Mutation) (u : Unit) (hc : r.client = .idle)
      (hf : req.front r.isPrimary r.kvMap = .ok (.mutate m)) (hu : m.enter r.isPrimary r.kvMap = .ok u) :
      Performs r now (.clientCall req) (quiet { r with client := .locked req m })
  | refused (req : Req) (m : Mutation) (hc : r.client = .locked req m) (hl : r.repMutexFree = true)
      (hs : r.status ≠ .normal) :
      Performs r now .replicateBegin ⟨{ r with opNum := r.opNum + 1, client := .idle }, [],
        [.replied r.id req (m.finish r.kvMap .replicaStateNotNormal).2]⟩
  | prepared (req : Req) (m : Mutation) (prepInfo : PrepInfo) (hc : r.client = .locked req m)
      (hl : r.repMutexFree = true)
      (hp : r.isPrimary = true) (hs : r.status = .normal) (hi : prepInfo = r.mkPrepInfo m.op.kvPair m.op.opType) :
      Performs r now .replicateBegin
        ⟨{ r with
            opNum := r.opNum + 1
            log := prepInfo.append r.log
            waitMap := r.waitMap.touch prepInfo.opNum
            client := .prepared req m prepInfo },
          r.invokeForAllReplicas (.prepare prepInfo), [.prepared r.id prepInfo]⟩
  | waits (req : Req) (m : Mutation) (prepInfo : PrepInfo) (hc : r.client = .prepared req m prepInfo) :
      Performs r now .replicateCount
        (quiet { r with waitMap := r.waitMap.bump prepInfo.opNum, client := .waiting req m prepInfo })
  | counted (req : Req) (m : Mutation) (prepInfo : PrepInfo) (log : InMemOpLogHandler)
      (hc : r.client = .prepared req m prepInfo)
      (hq : r.getMajorityCnt ≤ (r.waitMap.bump prepInfo.opNum).cnt prepInfo.opNum)
      (hl : r.log.commit prepInfo.opNum = some log) :
      Performs r now .replicateCount ({ r with waitMap := r.waitMap.bump prepInfo.opNum }.passed req m prepInfo log)
  | woken (req : Req) (m : Mutation) (prepInfo : PrepInfo) (log : InMemOpLogHandler)
      (hc : r.client = .waiting req m prepInfo) (hl : r.log.commit prepInfo.opNum = some log) :
      Performs r now .replicateWake (r.passed req m prepInfo log)
  | timedOut (req : Req) (m : Mutation) (prepInfo : PrepInfo) (hc : r.client = .waiting req m prepInfo) :
      Performs r now .replicateTimeout (r.replicateTimeout req m)
  | finished (req : Req) (m : Mutation) (opNum : Nat) (hc : r.client = .replicated req m opNum) :
      Performs r now .clientFinish (r.clientFinish req m opNum)
  | popped (prepInfo : PrepInfo) (rest : List PrepInfo) (ppit : Option PrepInfo) (hp : r.ppit = none)
      (hq : r.prepReqQ = prepInfo :: rest)
      (ht : ppit = none ∨ (ppit = some prepInfo ∧ r.prepInfoTest prepInfo = true)) :
      Performs r now .prepCheck (quiet { r with prepReqQ := rest, ppit := ppit })
  | acked (prepInfo : PrepInfo) (hp : r.ppit = some prepInfo) (hl : r.repMutexFree = true)
      (hn : prepInfo.opNum = r.opNum + 1) :
      Performs r now .prepLocked
        ⟨{ r with
            replicas := (r.endPoint r.priId).replicas
            ppit := none
            opNum := prepInfo.opNum
            log := prepInfo.append r.log },
          r.sendTo r.priId (.prepareOk ⟨r.viewNum, prepInfo.opNum, r.id⟩),
          [.acked r.id prepInfo ⟨r.viewNum, prepInfo.opNum, r.id⟩]⟩
  | enough (resp : PrepResponse) (hi : r.listener = some (.prepareOk resp)) :
      Performs r now .prepareOkCount (quiet { r with waitMap := r.waitMap.touch resp.opNum, listener := none })
  | okCounted (resp : PrepResponse) (hi : r.listener = some (.prepareOk resp)) :
      Performs r now .prepareOkCount
        ⟨{ r with waitMap := (r.waitMap.touch resp.opNum).bump resp.opNum, listener := none }, [], [.counted r.id resp]⟩
  | unlistened (commitInfo : CommitInfo) (hi : r.listener = some (.commit commitInfo)) (hl : r.repMutexFree = true) :
      Performs r now .commitLocked (quiet { r with listener := none })
  | committed (commitInfo : CommitInfo) (log : InMemOpLogHandler) (entry : LogEntry)
      (hi : r.listener = some (.commit commitInfo)) (hl : r.repMutexFree = true)
      (hv : commitInfo.viewNum = r.viewNum) (hn : r.commitNum < commitInfo.commitNum)
      (hlog : r.log.commit (r.commitNum + 1) = some log) (he : r.log.getLogEntry (r.commitNum + 1) = some entry)
      (hc : r.client = .idle) :
      Performs r now .commitLocked
        ⟨{ r with listener := none, commitNum := r.commitNum + 1, log := log, kvMap := entry.op.apply r.kvMap }, [],
          [.applied r.id (r.commitNum + 1) entry.op]⟩
  | voteCounted (info : ViewChangeInfo) (hi : r.listener = some (.doViewChange info)) :
      Performs r now .doViewChangeCount
        (quiet { r with doViewChangeMap := r.doViewChangeMap.bump info.viewNum, listener := none })
  | startCounted (newViewNum : Nat) (hi : r.listener = some (.startView newViewNum))
      (hc : (r.startViewMap.bump newViewNum).cnt newViewNum = 1) :
      Performs r now .startViewCount
        (quiet { r with startViewMap := r.startViewMap.bump newViewNum, listener := none })
  | beat (hb : r.hb = .idle) (hp : r.isPrimary = true) (hs : r.status = .normal) :
      Performs r now .heartBeat r.heartBeat
  | entered (hl : r.repMutexFree = true) (hw : r.wantsViewChange now = true) :
      Performs r now .changeViewBegin
        ⟨{ r with status := .viewChange, viewNum := r.viewNum + 1, hb := .startSent (r.viewNum + 1) r.viewNum },
          r.invokeForAllReplicas (.startViewChange ⟨r.viewNum + 1, r.id⟩), [.entered r.id (r.viewNum + 1)]⟩
  | enteredJoined (info : ViewStartInfo) (kvMap : KvMap) (ops : List (Nat × Op)) (hl : r.repMutexFree = true)
      (hw : r.wantsViewChange now = true) (hi : r.viewStartInfoMap.lookup (r.viewNum + 1) = some info)
      (hn : info.viewNum = r.viewNum + 1) (ha : r.entering.Adopts info kvMap ops) (hs : ops ≠ [] → r.client = .idle) :
      Performs r now .changeViewBegin
        ⟨(r.entering.joined info kvMap ops now).rep, [],
          .entered r.id (r.viewNum + 1) :: (r.entering.joined info kvMap ops now).obs⟩
  | startWaits (newViewNum oldViewNum : Nat) (hb : r.hb = .startSent newViewNum oldViewNum) :
      Performs r now .changeViewCount
        (quiet { r with viewStartReqMap := r.viewStartReqMap.bump newViewNum, hb := .startWait newViewNum oldViewNum })
  | votedAtOnce (newViewNum oldViewNum : Nat) (hb : r.hb = .startSent newViewNum oldViewNum) :
      Performs r now .changeViewCount
        ({ r with viewStartReqMap := r.viewStartReqMap.bump newViewNum }.vote newViewNum oldViewNum)
  | voted (newViewNum oldViewNum : Nat) (hb : r.hb = .startWait newViewNum oldViewNum) :
      Performs r now .hbWake (r.vote newViewNum oldViewNum)
  | nextCandidate (info : ViewChangeInfo) (cnt newPriId : Nat) (call : CallEnd) (sent : List Packet)
      (hb : r.hb = .choosing info cnt newPriId) (hc : newPriId ≠ r.id)
      (hs : sent = [] ∨ (call = .unanswered ∧ sent = [⟨newPriId, .doViewChange info⟩])) :
      Performs r now (.candidate call)
        ⟨{ r with
            replicas := (r.endPoint newPriId).replicas
            hb := .choosing info (cnt + 1) ((r.endPoint newPriId).getNextPrimaryCandidate newPriId) }, sent, []⟩
  | choseSelf (info : ViewChangeInfo) (cnt : Nat) (call : CallEnd) (hb : r.hb = .choosing info cnt r.id) :
      Performs r now (.candidate call) ⟨{ r with priId := r.id, hb := .doWait info.viewNum }, [],
        [.selected r.id info.viewNum r.id]⟩
  | chose (info : ViewChangeInfo) (cnt newPriId : Nat) (call : CallEnd) (sent : List Packet)
      (hb : r.hb = .choosing info cnt newPriId) (hc : newPriId ≠ r.id)
      (hs : sent = [] ∨ sent = [⟨newPriId, .doViewChange info⟩]) :
      Performs r now (.candidate call)
        ⟨{ r with
            replicas := (r.endPoint newPriId).replicas
            priId := newPriId
            startViewMap := r.startViewMap.touch info.viewNum
            hb := .viewWait info.viewNum }, sent, [.selected r.id info.viewNum newPriId]⟩
  | startedPrimary (viewNum : Nat) (candidate : ViewChangeInfo) (kvMap : KvMap) (ops : List (Nat × Op))
      (hb : r.hb = .doWait viewNum) (hd : r.quorumReached (r.doViewChangeMap.cnt viewNum) = true)
      (hq : r.getMajorityCnt ≤ ((r.viewChangeInfoMap.lookup viewNum).getD []).length)
      (hc : selectCandidate ((r.viewChangeInfoMap.lookup viewNum).getD []) = some candidate)
      (hn : candidate.viewNum = viewNum) (ha : r.Adopts (r.startInfo candidate) kvMap ops)
      (hs : ops ≠ [] → r.client = .idle) :
      Performs r now .hbWake (r.started candidate kvMap ops now)
  | startedBackup (viewNum : Nat) (info : ViewStartInfo) (kvMap : KvMap) (ops : List (Nat × Op))
      (hb : r.hb = .viewWait viewNum) (hd : r.startViewMap.cnt viewNum = 1)
      (hi : r.viewStartInfoMap.lookup viewNum = some info) (hn : info.viewNum = viewNum) (ha : r.Adopts info kvMap ops)
      (hs : ops ≠ [] → r.client = .idle) :
      Performs r now .hbWake (r.joined info kvMap ops now)
  | gaveUp (hb : (∃ v o, r.hb = .startWait v o) ∨ (∃ v, r.hb = .doWait v) ∨ ∃ v, r.hb = .viewWait v) :
      Performs r now .hbTimeout (quiet { r with hb := .idle })
  | recoverSent (hl : r.repMutexFree = true) (hs : r.status = .recovering) :
      Performs r now .recoverBegin (r.recoverBegin now)
  | recoverWaits (nonce : Nat) (hb : r.hb = .recoverSent nonce) (hd : r.responseDone nonce = false) :
      Performs r now .recoverTest (quiet { r with hb := .recoverWait nonce })
  | recovered (a : Act) (nonce : Nat) (s : Step)
      (hb : (a = .recoverTest ∧ r.hb = .recoverSent nonce ∧ r.responseDone nonce = true) ∨
        (a = .hbWake ∧ r.hb = .recoverWait nonce))
      (h : r.recoverEnd nonce now = some s) (hs : s.obs.any Obs.isApplied = true → r.client = .idle) :
      Performs r now a s
  | recPopped (req : RecoveryRequest) (rest : List RecoveryRequest) (prr : PrrPc) (hp : r.prr = .popping)
      (hq : r.recoveryReqQ = req :: rest) (ht : prr = .ended ∨ prr = .checked req) :
      Performs r now .recReqCheck (quiet { r with recoveryReqQ := rest, prr := prr })
  | recAnswered (req : RecoveryRequest) (hp : r.prr = .checked req) (hl : r.repMutexFree = true) :
      Performs r now .recReqLocked (r.processRecoveryReqLocked req)

section

variable {r : Replica} {s : Step} {now : Nat}

theorem any_isApplied {ops : List (Nat × Op)} {os : List Obs} (h : ops ≠ []) :
    (ops.map (fun p => Obs.applied r.id p.1 p.2) ++ os).any Obs.isApplied = true := by
  cases ops with
  | nil => exact absurd rfl h
  | cons p ps => rfl

theorem performs_clientCall {req : Req} (hc : r.client = .idle) (h : r.clientCall req = some s) :
    r.Performs now (.clientCall req) s := by
  unfold clientCall at h
  split at h
  · cases h
  · rename_i res hf
    cases h
    exact .replied req res hc hf
  · rename_i m hf
    split at h
    · cases h
    · rename_i u hu
      cases h
      exact .locked req m u hc hf hu

theorem performs_replicate {req : Req} {m : Mutation} (hc : r.client = .locked req m) (hl : r.repMutexFree = true)
    (hp : r.isPrimary = true) :
    r.Performs now .replicateBegin (r.replicate req m (r.mkPrepInfo m.op.kvPair m.op.opType)) := by
  unfold replicate
  split
  · exact .refused req m hc hl ‹_›
  · rename_i hs
    exact .prepared req m _ hc hl hp (by_contra hs) rfl

theorem performs_replicateBegin {req : Req} {m : Mutation} (hc : r.client = .locked req m) (hl : r.repMutexFree = true)
    (h : r.replicateBegin req m = some s) : r.Performs now .replicateBegin s := by
  cases m with
  | set key val =>
    simp only [replicateBegin, replicateUpdate, Option.ite_none_right_eq_some, Option.some.injEq] at h
    exact h.2 ▸ performs_replicate hc hl h.1
  | remove key =>
    simp only [replicateBegin, replicateDelete, Option.ite_none_right_eq_some, Option.some.injEq] at h
    exact h.2 ▸ performs_replicate hc hl h.1

theorem replicateEnd_eq_some {req : Req} {m : Mutation} {prepInfo : PrepInfo}
    (h : r.replicateEnd req m prepInfo = some s) :
    ∃ log, r.log.commit prepInfo.opNum = some log ∧ s = r.passed req m prepInfo log := by
  unfold replicateEnd at h
  split at h
  · cases h
  · rename_i log hl
    cases h
    exact ⟨log, hl, rfl⟩

theorem performs_replicateCount {req : Req} {m : Mutation} {prepInfo : PrepInfo}
    (hc : r.client = .prepared req m prepInfo)
    (h : r.replicateCount req m prepInfo = some s) : r.Performs now .replicateCount s := by
  unfold replicateCount at h
  dsimp only at h
  split at h
  · rename_i hq
    obtain ⟨log, hl, rfl⟩ := replicateEnd_eq_some h
    exact .counted req m prepInfo log hc (of_decide_eq_true hq) hl
  · cases h
    exact .waits req m prepInfo hc

theorem performs_processPrepInfo {prepInfo : PrepInfo} {rest : List PrepInfo} (hp : r.ppit = none)
    (hq : r.prepReqQ = prepInfo :: rest) : r.Performs now .prepCheck (r.processPrepInfo prepInfo rest) := by
  unfold processPrepInfo
  dsimp only
  split
  · rename_i ht
    exact .popped prepInfo rest (some prepInfo) hp hq (.inr ⟨rfl, ht⟩)
  · have hr : { r with prepReqQ := rest } = { r with prepReqQ := rest, ppit := none } := by rw [← hp]
    rw [hr]
    exact .popped prepInfo rest none hp hq (.inl rfl)

theorem performs_processPrepInfoLocked {prepInfo : PrepInfo} (hp : r.ppit = some prepInfo) (hl : r.repMutexFree = true)
    (h : r.processPrepInfoLocked prepInfo = some s) : r.Performs now .prepLocked s := by
  unfold processPrepInfoLocked at h
  split at h
  · cases h
  · rename_i hn
    cases h
    exact .acked prepInfo hp hl (by_contra hn)

theorem performs_prepareOkCount {resp : PrepResponse} (hi : r.listener = some (.prepareOk resp)) :
    Performs r now .prepareOkCount (r.prepareOkCount resp) := by
  unfold prepareOkCount
  dsimp only
  split
  · exact .enough resp hi
  · exact .okCounted resp hi

theorem performs_processCommitLocked {commitInfo : CommitInfo} (hi : r.listener = some (.commit commitInfo))
    (hl : r.repMutexFree = true) (h : r.processCommitLocked commitInfo = some s)
    (hs : s.obs.any Obs.isApplied = true → r.client = .idle) : r.Performs now .commitLocked s := by
  have hquiet : r.Performs now .commitLocked (quiet { r with listener := none }) := .unlistened commitInfo hi hl
  unfold processCommitLocked at h
  dsimp only at h
  split at h
  · cases h
    exact hquiet
  · rename_i hv
    split at h
    · split at h
      · cases h
      · split at h
        · cases h
          exact hquiet
        · cases h
    · split at h
      · rename_i hn
        split at h
        · cases h
          exact hquiet
        · split at h
          · cases h
          · rename_i log hlog
            obtain ⟨e, he, -, hget⟩ := InMemOpLogHandler.commit_eq_some hlog
            split at h
            · cases h
            · rename_i entry hentry
              rw [hget, if_pos rfl] at hentry
              cases hentry
              cases h
              exact .committed commitInfo log e hi hl (by_contra hv) hn hlog he (hs rfl)
      · cases h
        exact hquiet

theorem performs_startViewCount {newViewNum : Nat} (hi : r.listener = some (.startView newViewNum))
    (h : r.startViewCount newViewNum = some s) : r.Performs now .startViewCount s := by
  unfold startViewCount at h
  dsimp only at h
  split at h
  · cases h
    exact .startCounted newViewNum hi ‹_›
  · cases h

theorem performs_changeViewBegin (hl : r.repMutexFree = true) (hw : r.wantsViewChange now = true)
    (h : r.changeViewBegin now = some s) (hs : s.obs.any Obs.isApplied = true → r.client = .idle) :
    r.Performs now .changeViewBegin s := by
  unfold changeViewBegin at h
  dsimp only at h
  split at h
  · -- the view has started: nothing is sent
    obtain ⟨s', hs', rfl⟩ := Option.map_eq_some_iff.1 h
    obtain ⟨info, kvMap, ops, hi, hn, ha, rfl⟩ := updateNewView_false hs'
    exact .enteredJoined info kvMap ops hl hw hi hn ha (fun hops => hs (any_isApplied hops))
  · cases h
    exact .entered hl hw

theorem performs_changeViewCount {newViewNum oldViewNum : Nat} (hb : r.hb = .startSent newViewNum oldViewNum) :
    r.Performs now .changeViewCount (r.changeViewCount newViewNum oldViewNum) := by
  unfold changeViewCount
  dsimp only
  split
  · exact .votedAtOnce newViewNum oldViewNum hb
  · exact .startWaits newViewNum oldViewNum hb

theorem performs_candidate {info : ViewChangeInfo} {cnt newPriId : Nat} (call : CallEnd)
    (hb : r.hb = .choosing info cnt newPriId) :
    r.Performs now (.candidate call) (r.candidate info cnt newPriId call) := by
  unfold candidate
  split
  · rename_i hc
    subst hc
    rw [chosen, if_pos rfl]
    exact .choseSelf info cnt call hb
  · rename_i hc
    have hchosen : (r.endPoint newPriId).chosen info.viewNum newPriId = ⟨{ r with
        replicas := (r.endPoint newPriId).replicas
        priId := newPriId
        startViewMap := r.startViewMap.touch info.viewNum
        hb := .viewWait info.viewNum }, [], [.selected r.id info.viewNum newPriId]⟩ := if_neg hc
    dsimp only
    rw [hchosen]
    generalize hsent : (if call = .failed then [] else r.sendTo newPriId (.doViewChange info)) = sent
    have hcase : sent = [] ∨ (call ≠ .failed ∧ sent = [⟨newPriId, .doViewChange info⟩]) := by
      subst hsent
      unfold sendTo
      split
      · exact .inl rfl
      · split
        · exact .inr ⟨‹_›, rfl⟩
        · exact .inl rfl
    split
    · exact .chose info cnt newPriId call sent hb hc (hcase.imp_right And.right)
    · rename_i hn
      split
      · exact .chose info cnt newPriId call sent hb hc (hcase.imp_right And.right)
      · refine .nextCandidate info cnt newPriId call sent hb hc (hcase.imp_right (fun h => ⟨?_, h.2⟩))
        -- an answered call ends the loop
        have hna : call ≠ .answered := fun ha => hn ⟨ha, by simp [h.2]⟩
        cases call with
        | answered => exact absurd rfl hna
        | unanswered => rfl
        | failed => exact absurd rfl h.1

theorem performs_doWake {newViewNum : Nat} (hb : r.hb = .doWait newViewNum) (h : r.doWake newViewNum now = some s)
    (hs : s.obs.any Obs.isApplied = true → r.client = .idle) : r.Performs now .hbWake s := by
  simp only [doWake, Option.ite_none_right_eq_some] at h
  obtain ⟨candidate, kvMap, ops, hq, hc, hn, ha, rfl⟩ := updateNewView_true h.2
  exact .startedPrimary newViewNum candidate kvMap ops hb h.1 hq hc hn ha (fun hops => hs (any_isApplied hops))

theorem performs_viewWake {newViewNum : Nat} (hb : r.hb = .viewWait newViewNum) (h : r.viewWake newViewNum now = some s)
    (hs : s.obs.any Obs.isApplied = true → r.client = .idle) : r.Performs now .hbWake s := by
  simp only [viewWake, Option.ite_none_right_eq_some] at h
  obtain ⟨info, kvMap, ops, hi, hn, ha, rfl⟩ := updateNewView_false h.2
  exact .startedBackup newViewNum info kvMap ops hb h.1 hi hn ha (fun hops => hs (any_isApplied hops))

theorem performs_recoverTest {nonce : Nat} (hb : r.hb = .recoverSent nonce) (h : r.recoverTest nonce now = some s)
    (hs : s.obs.any Obs.isApplied = true → r.client = .idle) : r.Performs now .recoverTest s := by
  unfold recoverTest at h
  split at h
  · exact .recovered .recoverTest nonce s (.inl ⟨rfl, hb, ‹_›⟩) h hs
  · rename_i hd
    cases h
    exact .recoverWaits nonce hb (Bool.eq_false_of_not_eq_true hd)

theorem performs_processRecoveryReqInt {req : RecoveryRequest} {rest : List RecoveryRequest} (hp : r.prr = .popping)
    (hq : r.recoveryReqQ = req :: rest) : r.Performs now .recReqCheck (r.processRecoveryReqInt req rest) := by
  unfold processRecoveryReqInt
  split
  · exact .recPopped req rest .ended hp hq (.inl rfl)
  · exact .recPopped req rest (.checked req) hp hq (.inr rfl)

/-- **A section that is over has performed.** -/
theorem performs_of_act {a : Act} (h : r.act now a = .ok s) : r.Performs now a s := by
  cases a with
  | clientCall req =>
    simp only [act] at h
    split at h
    · exact performs_clientCall ‹_› (Outcome.ofOption_eq_ok h)
    · cases h
  | replicateBegin =>
    simp only [act] at h
    split at h
    · split at h
      · exact performs_replicateBegin ‹_› ‹_› (Outcome.ofOption_eq_ok h)
      · cases h
    · cases h
  | replicateCount =>
    simp only [act] at h
    split at h
    · exact performs_replicateCount ‹_› (Outcome.ofOption_eq_ok h)
    · cases h
  | replicateWake =>
    simp only [act] at h
    split at h
    · obtain ⟨log, hl, rfl⟩ := replicateEnd_eq_some (Outcome.ofOption_eq_ok h)
      exact .woken _ _ _ log ‹_› hl
    · cases h
  | replicateTimeout =>
    simp only [act] at h
    split at h
    · cases h
      exact .timedOut _ _ _ ‹_›
    · cases h
  | clientFinish =>
    simp only [act] at h
    split at h
    · cases h
      exact .finished _ _ _ ‹_›
    · cases h
  | prepCheck =>
    simp only [act] at h
    split at h
    · cases h
      exact performs_processPrepInfo ‹_› ‹_›
    · cases h
  | prepLocked =>
    simp only [act] at h
    split at h
    · split at h
      · exact performs_processPrepInfoLocked ‹_› ‹_› (Outcome.ofOption_eq_ok h)
      · cases h
    · cases h
  | prepareOkCount =>
    simp only [act] at h
    split at h
    · cases h
      exact performs_prepareOkCount ‹_›
    · cases h
  | commitLocked =>
    simp only [act] at h
    split at h
    · split at h
      · obtain ⟨h, hs⟩ := Outcome.withStore_eq_ok h
        exact performs_processCommitLocked ‹_› ‹_› h hs
      · cases h
    · cases h
  | doViewChangeCount =>
    simp only [act] at h
    split at h
    · cases h
      exact .voteCounted _ ‹_›
    · cases h
  | startViewCount =>
    simp only [act] at h
    split at h
    · exact performs_startViewCount ‹_› (Outcome.ofOption_eq_ok h)
    · cases h
  | heartBeat =>
    simp only [act] at h
    split at h
    · split at h
      · rename_i hp
        cases h
        exact .beat ‹_› hp.1 hp.2
      · cases h
    · cases h
  | changeViewBegin =>
    simp only [act] at h
    split at h
    · rename_i hl
      obtain ⟨h, hs⟩ := Outcome.withStore_eq_ok h
      exact performs_changeViewBegin hl.1 hl.2 h hs
    · cases h
  | changeViewCount =>
    simp only [act] at h
    split at h
    · cases h
      exact performs_changeViewCount ‹_›
    · cases h
  | candidate call =>
    simp only [act] at h
    split at h
    · cases h
      exact performs_candidate call ‹_›
    · cases h
  | hbWake =>
    simp only [act] at h
    split at h
    · cases h
      exact .voted _ _ ‹_›
    · obtain ⟨h, hs⟩ := Outcome.withStore_eq_ok h
      exact performs_doWake ‹_› h hs
    · obtain ⟨h, hs⟩ := Outcome.withStore_eq_ok h
      exact performs_viewWake ‹_› h hs
    · obtain ⟨h, hs⟩ := Outcome.withStore_eq_ok h
      exact .recovered .hbWake _ s (.inr ⟨rfl, ‹_›⟩) h hs
    · cases h
  | hbTimeout =>
    simp only [act] at h
    split at h
    · cases h
      exact .gaveUp (.inl ⟨_, _, ‹_›⟩)
    · cases h
      exact .gaveUp (.inr (.inl ⟨_, ‹_›⟩))
    · cases h
      exact .gaveUp (.inr (.inr ⟨_, ‹_›⟩))
    · cases h
    · cases h
  | recoverBegin =>
    simp only [act] at h
    split at h
    · rename_i hl
      cases h
      exact .recoverSent hl.1 hl.2
    · cases h
  | recoverTest =>
    simp only [act] at h
    split at h
    · obtain ⟨h, hs⟩ := Outcome.withStore_eq_ok h
      exact performs_recoverTest ‹_› h hs
    · cases h
  | recReqCheck =>
    simp only [act] at h
    split at h
    · cases h
      exact performs_processRecoveryReqInt ‹_› ‹_›
    · cases h
  | recReqLocked =>
    simp only [act] at h
    split at h
    · split at h
      · cases h
        exact .recAnswered _ ‹_› ‹_›
      · cases h
    · cases h

end

/-- **The handlers**: what each message that is taken up leaves. -/
inductive Handles (r : Replica) (now : Nat) : Msg → Step → Prop where
  | ignored (msg : Msg) : Handles r now msg (quiet r)
  | queued (prepInfo : PrepInfo) (hs : r.status = .normal) (hv : prepInfo.viewNum = r.viewNum) :
      Handles r now (.prepare prepInfo) (quiet { r with prepReqQ := r.prepReqQ ++ [prepInfo] })
  | okTested (resp : PrepResponse) (hs : r.status = .normal) (hv : resp.viewNum = r.viewNum) :
      Handles r now (.prepareOk resp) (quiet { r with listener := some (.prepareOk resp) })
  | heard (commitInfo : CommitInfo) : Handles r now (.commit commitInfo) (quiet { r with lastCommitTime := now })
  | listens (commitInfo : CommitInfo) (hs : r.status = .normal) :
      Handles r now (.commit commitInfo) (quiet { r with lastCommitTime := now, listener := some (.commit commitInfo) })
  | viewStartReq (req : ViewChangeRequest) (viewStartReqMap : WaitMap) :
      Handles r now (.startViewChange req) (quiet { r with viewStartReqMap := viewStartReqMap })
  | voteStored (info : ViewChangeInfo) (hv : r.viewNum ≤ info.viewNum) (hs : r.status ≠ .recovering) :
      Handles r now (.doViewChange info) (quiet { r with
        viewChangeInfoMap := r.viewChangeInfoMap.insert info.viewNum
          ((r.viewChangeInfoMap.lookup info.viewNum).getD [] ++ [info])
        listener := some (.doViewChange info) })
  | startStored (info : ViewStartInfo) (hv : r.viewNum ≤ info.viewNum) (hs : r.status ≠ .recovering)
      (hn : info.viewNum ∉ r.viewStartInfoMap) :
      Handles r now (.startView info) (quiet { r with
        status := .viewChange
        viewStartInfoMap := r.viewStartInfoMap.insert info.viewNum info
        listener := some (.startView info.viewNum) })
  | recQueued (req : RecoveryRequest) :
      Handles r now (.recoveryRequest req) (quiet { r with recoveryReqQ := r.recoveryReqQ ++ [req] })
  | recStored (resp : RecoveryResponse) (hs : r.status = .recovering) :
      Handles r now (.recoveryResponse resp) (quiet { r with
        receivedRespFromPri := r.receivedRespFromPri || resp.isPrimary
        respViewCnt := bumpView resp.viewNum r.respViewCnt
        recoveryRespMap := r.recoveryRespMap.insert resp.nonce ((r.recoveryRespMap.lookup resp.nonce).getD [] ++ [resp])
        recoveryWaitMap := r.recoveryWaitMap.bump resp.nonce })

section

variable {r : Replica} {s : Step} {now : Nat}

theorem handles_processPrepareOk (r : Replica) (resp : PrepResponse) :
    r.Handles now (.prepareOk resp) (r.processPrepareOk resp) := by
  unfold processPrepareOk
  split
  · exact .ignored _
  · rename_i hs
    split
    · exact .ignored _
    · rename_i hv
      exact .okTested resp (by_contra hs) (by_contra hv)

theorem handles_processStartViewChange (r : Replica) (req : ViewChangeRequest) :
    r.Handles now (.startViewChange req) (r.processStartViewChange req) := by
  unfold processStartViewChange
  split
  · exact .ignored _
  · split
    · exact .ignored _
    · dsimp only
      split <;> exact .viewStartReq req _

theorem handles_processStartView {info : ViewStartInfo} (h : r.processStartView info = some s) :
    r.Handles now (.startView info) s := by
  unfold processStartView at h
  split at h
  · cases h
    exact .ignored _
  · rename_i hv
    split at h
    · cases h
      exact .ignored _
    · rename_i hs
      split at h
      · cases h
      · rename_i hn
        cases h
        exact .startStored info (Nat.le_of_not_lt hv) hs hn

/-- **A message that is taken up is handled.** -/
theorem handles_of_handle {msg : Msg} (h : r.handle now msg = .ok s) : r.Handles now msg s := by
  unfold handle at h
  split at h
  · cases h
  · cases msg with
    | prepare prepInfo =>
      cases h
      unfold processPrepare
      split
      · exact .ignored _
      · rename_i hs
        split
        · exact .ignored _
        · rename_i hv
          exact .queued prepInfo (by_contra hs) (by_contra hv)
    | prepareOk resp =>
      cases h
      exact handles_processPrepareOk r resp
    | commit commitInfo =>
      cases h
      unfold processCommit
      dsimp only
      split
      · exact .heard commitInfo
      · rename_i hs
        exact .listens commitInfo (by_contra hs)
    | startViewChange req =>
      cases h
      exact handles_processStartViewChange r req
    | doViewChange info =>
      cases h
      unfold processDoViewChange
      split
      · exact .ignored _
      · rename_i hv
        split
        · exact .ignored _
        · exact .voteStored info (Nat.le_of_not_lt hv) ‹_›
    | startView info => exact handles_processStartView (Outcome.ofOption_eq_ok h)
    | recoveryRequest req =>
      cases h
      unfold processRecoveryRequest
      split
      · exact .ignored _
      · exact .recQueued req
    | recoveryResponse resp =>
      cases h
      unfold processRecoveryResponse
      split
      · exact .ignored _
      · rename_i hs
        exact .recStored resp (by_contra hs)

end

end Replica
end MetaDR
