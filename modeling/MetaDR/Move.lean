import MetaDR.Cluster
/-!
# Move — what a section does, in small pieces

Every section of a thread and every handler is a chain of a few `Move`s, each of which changes a handful of fields and
carries the tests that guard it.  The clock, the counters of the view change and the answers to a recovery never decide
what a move may do to a log, so one move stands for whatever happens to them.
-/
namespace MetaDR

/-- The state `updateNewView` leaves. -/
def Replica.adopted (r : Replica) (info : ViewStartInfo) (kvMap : KvMap) : Replica :=
  { r with
    priId := info.replicaId
    status := .normal
    viewNum := info.viewNum
    opNum := info.opNum
    commitNum := info.commitNum
    log := .setLog info.opLog
    kvMap := kvMap
    doViewChangeMap := ∅
    viewChangeInfoMap := ∅
    viewStartInfoMap := ∅
    hb := .idle }

/-- The tests of `updateNewView` that its two branches share, and what they apply. -/
structure Replica.Adopts (r : Replica) (info : ViewStartInfo) (kvMap : KvMap) (ops : List (Nat × Op)) : Prop where
  entry : ∃ e, (InMemOpLogHandler.setLog info.opLog).getLogEntry r.commitNum = some e ∧ e.committed = true
  replay : replay (.setLog info.opLog)
    (List.range' (r.commitNum + 1) ((InMemOpLogHandler.setLog info.opLog).logSize - (r.commitNum + 1))) r.kvMap =
      some (kvMap, ops)

/-- What `updateNewView` starts a view with when it picks `candidate`. -/
def Replica.startInfo (r : Replica) (candidate : ViewChangeInfo) : ViewStartInfo :=
  { r.viewStartInfo candidate with opLog := candidate.opLog }

/-- **One move of a replica**: the message it takes up, the state after it, what it sends and lets be seen. -/
inductive Move (R : Rules) (tr : List Obs) (r : Replica) : Option Msg → Replica → List Packet → List Obs → Prop where
  | minor (msg : Option Msg) (now : Nat) (viewStartReqMap startViewMap recoveryWaitMap waitMap : WaitMap)
      (recoveryRespMap : Finmap (fun _ : Nat => List RecoveryResponse)) (respViewCnt : List (Nat × Nat)) (flag : Bool)
      (hw : ∀ t, waitMap.cnt t = r.waitMap.cnt t) :
      Move R tr r msg { r with
        lastCommitTime := now, viewStartReqMap := viewStartReqMap, startViewMap := startViewMap,
        recoveryWaitMap := recoveryWaitMap, waitMap := waitMap,
        recoveryRespMap := recoveryRespMap, respViewCnt := respViewCnt, receivedRespFromPri := flag } [] []
  | reply (req : Req) (res : Result) (hc : r.client = .idle) (hf : req.front r.isPrimary r.kvMap = .ok (.reply res)) :
      Move R tr r none r [] [.replied r.id req res]
  | lock (req : Req) (m : Mutation) (hc : r.client = .idle) (hf : req.front r.isPrimary r.kvMap = .ok (.mutate m)) :
      Move R tr r none { r with client := .locked req m } [] []
  | refuse (req : Req) (m : Mutation) (hc : r.client = .locked req m) (hl : r.repMutexFree = true)
      (hs : r.status ≠ .normal) :
      Move R tr r none { r with opNum := r.opNum + 1, client := .idle } [] [.replied r.id req (.err .statusNotNormal)]
  | prepare (req : Req) (m : Mutation) (prepInfo : PrepInfo) (hc : r.client = .locked req m)
      (hl : r.repMutexFree = true)
      (hp : r.isPrimary = true) (hs : r.status = .normal) (hv : prepInfo.viewNum = r.viewNum)
      (hn : prepInfo.opNum = r.opNum + 1) (ho : prepInfo.op = m.op) (hR : R.assign tr r = true) :
      Move R tr r none
        { r with opNum := r.opNum + 1, log := r.log.push prepInfo.entry, client := .prepared req m prepInfo }
        (r.invokeForAllReplicas (.prepare prepInfo)) [.prepared r.id prepInfo]
  | countOwn (req : Req) (m : Mutation) (prepInfo : PrepInfo) (hc : r.client = .prepared req m prepInfo) :
      Move R tr r none
        { r with waitMap := r.waitMap.bump prepInfo.opNum, client := .waiting req m prepInfo } [] []
  | passQuorum (req : Req) (m : Mutation) (prepInfo : PrepInfo) (log : InMemOpLogHandler)
      (hc : r.client = .waiting req m prepInfo)
      (hq : R.notified = true → r.getMajorityCnt ≤ r.waitMap.cnt prepInfo.opNum)
      (hR : R.pass r.commitNum prepInfo.opNum = true) (hl : r.log.commit prepInfo.opNum = some log) :
      Move R tr r none
        { r with
          log := log, commitNum := prepInfo.opNum, waitMap := r.waitMap.erase prepInfo.opNum,
          client := .replicated req m prepInfo.opNum }
        (r.invokeForAllReplicas (.commit ⟨prepInfo.viewNum, prepInfo.opNum⟩))
        [.quorum r.id prepInfo, .forgot r.id prepInfo.opNum]
  | giveUp (req : Req) (m : Mutation) (prepInfo : PrepInfo) (hc : r.client = .waiting req m prepInfo) :
      Move R tr r none { r with client := .idle } [] [.replied r.id req (.err .quorumNotReached)]
  | finish (req : Req) (m : Mutation) (opNum : Nat) (hc : r.client = .replicated req m opNum) :
      Move R tr r none { r with kvMap := m.leave r.kvMap, client := .idle } []
        [.applied r.id opNum m.op, .replied r.id req (.err .none)]
  | queue (prepInfo : PrepInfo) (hs : r.status = .normal) (hv : prepInfo.viewNum = r.viewNum) :
      Move R tr r (some (.prepare prepInfo)) { r with prepReqQ := r.prepReqQ ++ [prepInfo] } [] []
  | pop (prepInfo : PrepInfo) (rest : List PrepInfo) (ppit : Option PrepInfo) (hq : r.prepReqQ = prepInfo :: rest)
      (hp : ppit = none ∨ ppit = some prepInfo) :
      Move R tr r none { r with prepReqQ := rest, ppit := ppit } [] []
  | ack (prepInfo : PrepInfo) (hp : r.ppit = some prepInfo) (hl : r.repMutexFree = true)
      (hn : prepInfo.opNum = r.opNum + 1) (ht : R.atomic = true → r.prepInfoTest prepInfo = true)
      (hk : R.peersKept = true → r.priId ∈ r.replicas) :
      Move R tr r none
        { r with
          replicas := (r.endPoint r.priId).replicas, ppit := none, opNum := prepInfo.opNum,
          log := r.log.push prepInfo.entry }
        (r.sendTo r.priId (.prepareOk ⟨r.viewNum, prepInfo.opNum, r.id⟩))
        [.acked r.id prepInfo ⟨r.viewNum, prepInfo.opNum, r.id⟩]
  | takeOk (resp : PrepResponse) (hs : r.status = .normal) (hv : resp.viewNum = r.viewNum) :
      Move R tr r (some (.prepareOk resp)) { r with listener := some (.prepareOk resp) } [] []
  | countOk (resp : PrepResponse) (hi : r.listener = some (.prepareOk resp))
      (hR : R.current = true → r.status = .normal ∧ resp.viewNum = r.viewNum) :
      Move R tr r none { r with waitMap := r.waitMap.bump resp.opNum, listener := none } [] [.counted r.id resp]
  | listen (commitInfo : CommitInfo) :
      Move R tr r (some (.commit commitInfo)) { r with listener := some (.commit commitInfo) } [] []
  | unlisten (pc : ListenerPc) (hp : r.listener = some pc) :
      Move R tr r none { r with listener := none } [] []
  | commitNext (commitInfo : CommitInfo) (log : InMemOpLogHandler) (entry : LogEntry)
      (hi : r.listener = some (.commit commitInfo))
      (hl : r.repMutexFree = true) (ht : R.atomic = true → r.status = .normal) (hv : commitInfo.viewNum = r.viewNum)
      (hn : r.commitNum < commitInfo.commitNum) (hlog : r.log.commit (r.commitNum + 1) = some log)
      (he : r.log.getLogEntry (r.commitNum + 1) = some entry) (hc : r.client = .idle) :
      Move R tr r none
        { r with listener := none, commitNum := r.commitNum + 1, log := log, kvMap := entry.op.apply r.kvMap } []
        [.applied r.id (r.commitNum + 1) entry.op]
  | beat (hp : r.isPrimary = true) (hs : r.status = .normal) :
      Move R tr r none r (r.invokeForAllReplicas (.commit ⟨r.viewNum, r.commitNum⟩)) []
  | enter (sent : List Packet) (hl : r.repMutexFree = true) (hs : r.status ≠ .recovering)
      (hp : ¬ (r.isPrimary = true ∧ r.status = .normal))
      (hm : sent = [] ∨ sent = r.invokeForAllReplicas (.startViewChange ⟨r.viewNum + 1, r.id⟩)) :
      Move R tr r none
        { r with status := .viewChange, viewNum := r.viewNum + 1, hb := .startSent (r.viewNum + 1) r.viewNum }
        sent [.entered r.id (r.viewNum + 1)]
  | startWait (newViewNum oldViewNum : Nat) (hb : r.hb = .startSent newViewNum oldViewNum) :
      Move R tr r none { r with hb := .startWait newViewNum oldViewNum } [] []
  | vote (newViewNum oldViewNum : Nat) (info : ViewChangeInfo)
      (hb : r.hb = .startSent newViewNum oldViewNum ∨ r.hb = .startWait newViewNum oldViewNum)
      (hi : info = ⟨newViewNum, r.log.getLog, oldViewNum, r.commitNum, r.commitNum, r.id⟩) :
      Move R tr r none
        { r with
          viewChangeInfoMap := r.viewChangeInfoMap.insert newViewNum
            ((r.viewChangeInfoMap.lookup newViewNum).getD [] ++ [info])
          doViewChangeMap := r.doViewChangeMap.bump newViewNum
          hb := .choosing info 0 (r.getNextPrimaryCandidate r.priId) } [] [.voted r.id info]
  | candidate (info : ViewChangeInfo) (cnt newPriId : Nat) (sent : List Packet)
      (hb : r.hb = .choosing info cnt newPriId) (hc : newPriId ≠ r.id)
      (hs : sent = [] ∨ (R.called = false ∧ sent = [⟨newPriId, .doViewChange info⟩])) :
      Move R tr r none
        { r with
          replicas := (r.endPoint newPriId).replicas
          hb := .choosing info (cnt + 1) ((r.endPoint newPriId).getNextPrimaryCandidate newPriId) } sent []
  | select (info : ViewChangeInfo) (cnt newPriId : Nat) (sent : List Packet) (hb : r.hb = .choosing info cnt newPriId)
      (hs : sent = [] ∨ (newPriId ≠ r.id ∧ sent = [⟨newPriId, .doViewChange info⟩])) :
      Move R tr r none
        { r with
          replicas := if newPriId = r.id then r.replicas else (r.endPoint newPriId).replicas
          priId := newPriId
          hb := if newPriId = r.id then .doWait info.viewNum else .viewWait info.viewNum }
        sent [.selected r.id info.viewNum newPriId]
  | giveUpView (hb : (∃ v o, r.hb = .startWait v o) ∨ (∃ v, r.hb = .doWait v) ∨ ∃ v, r.hb = .viewWait v) :
      Move R tr r none { r with hb := .idle } [] []
  | startPrimary (viewNum : Nat) (votes : List ViewChangeInfo) (candidate : ViewChangeInfo) (kvMap : KvMap)
      (ops : List (Nat × Op)) (hb : r.hb = .doWait viewNum)
      (hv : (r.viewChangeInfoMap.lookup viewNum).getD [] = votes) (hq : r.getMajorityCnt ≤ votes.length)
      (hc : selectCandidate votes = some candidate) (hn : candidate.viewNum = viewNum)
      (hR : R.start (lastNormal tr viewNum) votes = true) (hA : R.adopt r.commitNum (r.viewStartInfo candidate) = true)
      (ha : r.Adopts (r.startInfo candidate) kvMap ops) (hs : ops ≠ [] → r.client = .idle) :
      Move R tr r none (r.adopted (r.startInfo candidate) kvMap)
        (r.invokeForAllReplicas (.startView (r.viewStartInfo candidate)))
        (ops.map (fun p => .applied r.id p.1 p.2) ++ [.newView r.id true (r.viewStartInfo candidate)])
  | startBackup (viewNum : Nat) (info : ViewStartInfo) (kvMap : KvMap) (ops : List (Nat × Op))
      (hb : r.hb = .viewWait viewNum ∨ ∃ o, r.hb = .startSent viewNum o)
      (hi : r.viewStartInfoMap.lookup viewNum = some info) (hn : info.viewNum = viewNum)
      (hA : R.adopt r.commitNum info = true) (ha : r.Adopts info kvMap ops) (hs : ops ≠ [] → r.client = .idle) :
      Move R tr r none (r.adopted info kvMap) []
        (ops.map (fun p => .applied r.id p.1 p.2) ++ [.newView r.id false info])
  | storeVote (info : ViewChangeInfo) (hv : r.viewNum ≤ info.viewNum) (hs : r.status ≠ .recovering) :
      Move R tr r (some (.doViewChange info))
        { r with
          viewChangeInfoMap := r.viewChangeInfoMap.insert info.viewNum
            ((r.viewChangeInfoMap.lookup info.viewNum).getD [] ++ [info])
          listener := some (.doViewChange info) } [] []
  | countVote (info : ViewChangeInfo) (hi : r.listener = some (.doViewChange info))
      (hR : R.counted = true → info ∈ (r.viewChangeInfoMap.lookup info.viewNum).getD []) :
      Move R tr r none
        { r with doViewChangeMap := r.doViewChangeMap.bump info.viewNum, listener := none } [] []
  | storeStart (info : ViewStartInfo) (hv : r.viewNum ≤ info.viewNum) (hs : r.status ≠ .recovering) :
      Move R tr r (some (.startView info))
        { r with
          status := .viewChange
          viewStartInfoMap := r.viewStartInfoMap.insert info.viewNum info
          listener := some (.startView info.viewNum) } [] []
  | recover (hb : HbPc) (sent : List Packet) (hs : r.status = .recovering)
      (hh : (∃ t, hb = .recoverSent t) ∨ ∃ t, hb = .recoverWait t)
      (hm : sent = [] ∨ ∃ t, sent = r.invokeForAllReplicas (.recoveryRequest ⟨r.id, t⟩)) :
      Move R tr r none { r with hb := hb } sent []
  | recQueue (req : RecoveryRequest) :
      Move R tr r (some (.recoveryRequest req)) { r with recoveryReqQ := r.recoveryReqQ ++ [req] } [] []
  | recPop (req : RecoveryRequest) (rest : List RecoveryRequest) (prr : PrrPc) (hq : r.recoveryReqQ = req :: rest)
      (hp : prr = .ended ∨ prr = .checked req) :
      Move R tr r none { r with recoveryReqQ := rest, prr := prr } [] []
  | recAnswer (req : RecoveryRequest) (resp : RecoveryResponse) (hp : r.prr = .checked req) :
      Move R tr r none { r with replicas := (r.endPoint req.replicaId).replicas, prr := .popping }
        (r.sendTo req.replicaId (.recoveryResponse resp)) []

/-- Moves of one replica one after the other. -/
inductive Chain (R : Rules) (tr : List Obs) (r : Replica) : Option Msg → Replica → List Packet → List Obs → Prop where
  | one {msg : Option Msg} {r' : Replica} {sent : List Packet} {os : List Obs} (h : Move R tr r msg r' sent os) :
      Chain R tr r msg r' sent os
  | more {msg : Option Msg} {r' r'' : Replica} {sent sent' : List Packet} {os os' : List Obs}
      (h : Chain R tr r msg r' sent os) (h' : Move R (tr ++ os) r' none r'' sent' os') :
      Chain R tr r msg r'' (sent ++ sent') (os ++ os')

end MetaDR
