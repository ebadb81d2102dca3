import MetaDR.VsReplicator
/-!
# ViewChangeHandler — changing views (server/viewChangeHandler.cc)

`changeView` runs under `_repMutex` from its first line to its return, but stops for other threads and replicas at every
message it sends and every wait; each part between two such points is one function here, named in `HbPc` by where it
leaves the thread.  `updateNewView` is one section.
-/
namespace MetaDR
namespace Replica

/-- `getNextPrimaryCandidate`. -/
def getNextPrimaryCandidate (r : Replica) (currCandidate : Nat) : Nat :=
  if r.replicas.length < currCandidate + 1 then 0 else currCandidate + 1

def cleanUp (r : Replica) : Replica :=
  if r.status = .normal then
    { r with
      viewStartReqMap := ∅
      doViewChangeMap := ∅
      viewChangeInfoMap := ∅
      startViewMap := ∅
      viewStartInfoMap := ∅ }
  else r

end Replica

/-- How a call of `invokeDoViewChange` ends: each of its two tries may be taken up by the peer or not, and what was
taken up may be answered or not. -/
inductive CallEnd where
  /-- it returns `true` -/
  | answered
  /-- it returns `false`, though a try was taken up: the answer was lost -/
  | unanswered
  /-- it returns `false`, and no try was taken up -/
  | failed
  deriving DecidableEq, Repr

/-- The loop of `updateNewView` over the infos from index `i` on: the index it ends with. -/
def selectLoop : List ViewChangeInfo → Nat → Nat → Nat → Nat → Nat
  | [], _, candidateIdx, _, _ => candidateIdx
  | info :: rest, i, candidateIdx, highestOldViewNum, highestOpNum =>
    if info.oldViewNum = highestOldViewNum then
      if highestOpNum < info.opNum then selectLoop rest (i + 1) i highestOldViewNum info.opNum
      else selectLoop rest (i + 1) candidateIdx highestOldViewNum highestOpNum
    else if highestOldViewNum < info.oldViewNum then
      -- the highest op number stays that of the older view
      selectLoop rest (i + 1) i info.oldViewNum highestOpNum
    else selectLoop rest (i + 1) candidateIdx highestOldViewNum highestOpNum

/-- The `ViewChangeInfo` that `updateNewView` adopts. -/
def selectCandidate : List ViewChangeInfo → Option ViewChangeInfo
  | [] => none
  | info :: rest => (info :: rest)[selectLoop rest 1 0 info.oldViewNum info.opNum]?

/-- The replay loop of `updateNewView` over the numbers given: the map and the applied operations with their numbers. -/
def replay (log : InMemOpLogHandler) : List Nat → KvMap → Option (KvMap × List (Nat × Op))
  | [], kvMap => some (kvMap, [])
  | i :: is, kvMap =>
    match log.getLogEntry i with
    | none => none
    | some entry =>
      if entry.committed = true then
        (replay log is (entry.op.apply kvMap)).map (fun p => (p.1, (i, entry.op) :: p.2))
      else replay log is kvMap

namespace Replica

/-- The part of `updateNewView` its two branches share: the state and the log are taken from `info`, the entries past
the old commit number replayed. -/
def adopt (r : Replica) (info : ViewStartInfo) (now : Nat) : Option (Replica × List (Nat × Op)) :=
  let log := InMemOpLogHandler.setLog info.opLog
  match log.getLogEntry r.commitNum with
  | none => none
  | some e =>
    if e.committed = false then none
    else
      -- `for (i = oldCommitNum + 1; i < logSize(); ++i)`
      match replay log (List.range' (r.commitNum + 1) (log.logSize - (r.commitNum + 1))) r.kvMap with
      | none => none
      | some (kvMap, ops) => some
          ({ r with
              priId := info.replicaId
              viewNum := info.viewNum
              opNum := info.opNum
              commitNum := info.commitNum
              log := log
              kvMap := kvMap
              lastCommitTime := now
              status := .normal
              hb := .idle }, ops)

/-- The `ViewStartInfo` of a primary that adopts `candidate`. -/
def viewStartInfo (r : Replica) (candidate : ViewChangeInfo) : ViewStartInfo where
  viewNum := candidate.viewNum
  opLog := (InMemOpLogHandler.setLog candidate.opLog).getLog
  opNum := candidate.opNum
  commitNum := candidate.commitNum
  replicaId := r.id

def updateNewView (r : Replica) (viewNum : Nat) (isPrimary : Bool) (now : Nat) : Option Step :=
  if isPrimary = true then
    let vcInfos := (r.viewChangeInfoMap.lookup viewNum).getD []
    if vcInfos.length < r.getMajorityCnt then none
    else
      match selectCandidate vcInfos with
      | none => none
      | some candidate =>
        if candidate.viewNum ≠ viewNum then none
        else
          match r.adopt { r.viewStartInfo candidate with opLog := candidate.opLog } now with
          | none => none
          | some (r', ops) => some
              ⟨r'.cleanUp, r.invokeForAllReplicas (.startView (r.viewStartInfo candidate)),
                ops.map (fun p => .applied r.id p.1 p.2) ++ [.newView r.id true (r.viewStartInfo candidate)]⟩
  else
    match r.viewStartInfoMap.lookup viewNum with
    | none => none
    | some info =>
      if info.viewNum ≠ viewNum then none
      else
        match r.adopt info now with
        | none => none
        | some (r', ops) => some
            ⟨r'.cleanUp, [], ops.map (fun p => .applied r.id p.1 p.2) ++ [.newView r.id false info]⟩

/-- `changeView` up to its `StartViewChange`s, or all of it when the new view has already started. -/
def changeViewBegin (r : Replica) (now : Nat) : Option Step :=
  let newViewNum := r.viewNum + 1
  let r' := { r with status := .viewChange, viewNum := newViewNum }
  if newViewNum ∈ r.viewStartInfoMap then
    (r'.updateNewView newViewNum false now).map (fun s => { s with obs := .entered r.id newViewNum :: s.obs })
  else some
    ⟨{ r' with hb := .startSent newViewNum r.viewNum },
      r.invokeForAllReplicas (.startViewChange ⟨newViewNum, r.id⟩), [.entered r.id newViewNum]⟩

/-- `changeView` behind its first wait: the `ViewChangeInfo` is built and stored, and the candidate loop begins. -/
def vote (r : Replica) (newViewNum oldViewNum : Nat) : Step :=
  let info : ViewChangeInfo := {
    viewNum := newViewNum
    opLog := r.log.getLog
    oldViewNum := oldViewNum
    -- the commit number, not `r.opNum`
    opNum := r.commitNum
    commitNum := r.commitNum
    replicaId := r.id }
  ⟨{ r with
      viewChangeInfoMap := r.viewChangeInfoMap.insert newViewNum
        ((r.viewChangeInfoMap.lookup newViewNum).getD [] ++ [info])
      doViewChangeMap := r.doViewChangeMap.bump newViewNum
      hb := .choosing info 0 (r.getNextPrimaryCandidate r.priId) }, [], [.voted r.id info]⟩

/-- `++resp->cnt` of the first wait and its test. -/
def changeViewCount (r : Replica) (newViewNum oldViewNum : Nat) : Step :=
  let r' := { r with viewStartReqMap := r.viewStartReqMap.bump newViewNum }
  if r'.quorumReached (r'.viewStartReqMap.cnt newViewNum) = true then r'.vote newViewNum oldViewNum
  else quiet { r' with hb := .startWait newViewNum oldViewNum }

/-- `changeView` behind the candidate loop, which ended with `newPriId`, up to the test before its last wait. -/
def chosen (r : Replica) (newViewNum newPriId : Nat) : Step :=
  let r' := { r with priId := newPriId }
  if newPriId = r.id then ⟨{ r' with hb := .doWait newViewNum }, [], [.selected r.id newViewNum newPriId]⟩
  else
    ⟨{ r' with startViewMap := r'.startViewMap.touch newViewNum, hb := .viewWait newViewNum }, [],
      [.selected r.id newViewNum newPriId]⟩

/-- One turn of the candidate loop. -/
def candidate (r : Replica) (info : ViewChangeInfo) (cnt newPriId : Nat) (call : CallEnd) : Step :=
  if newPriId = r.id then r.chosen info.viewNum newPriId
  else
    let sent := if call = .failed then [] else r.sendTo newPriId (.doViewChange info)
    let r' := r.endPoint newPriId
    if call = .answered ∧ sent ≠ [] then { r'.chosen info.viewNum newPriId with sent := sent }
    else if cnt + 1 = r'.replicas.length - 1 then { r'.chosen info.viewNum newPriId with sent := sent }
    else ⟨{ r' with hb := .choosing info (cnt + 1) (r'.getNextPrimaryCandidate newPriId) }, sent, []⟩

/-- The last part of the candidate's `changeView`, from a test that finds the quorum or a wait that ended without a
timeout. -/
def doWake (r : Replica) (newViewNum : Nat) (now : Nat) : Option Step :=
  if r.quorumReached (r.doViewChangeMap.cnt newViewNum) = true then r.updateNewView newViewNum true now else none

/-- The last part of the others' `changeView`, likewise. -/
def viewWake (r : Replica) (newViewNum : Nat) (now : Nat) : Option Step :=
  if r.startViewMap.cnt newViewNum = 1 then r.updateNewView newViewNum false now else none

def processStartViewChange (r : Replica) (viewChangeReq : ViewChangeRequest) : Step :=
  if viewChangeReq.viewNum < r.viewNum then quiet r
  else if r.status = .recovering then quiet r
  else
    let r' := { r with viewStartReqMap := r.viewStartReqMap.touch viewChangeReq.viewNum }
    if r'.quorumReached (r'.viewStartReqMap.cnt viewChangeReq.viewNum) = true then quiet r'
    else quiet { r' with viewStartReqMap := r'.viewStartReqMap.bump viewChangeReq.viewNum }

/-- `processDoViewChange` up to its `push_back`, under `_viewChangeMutex`. -/
def processDoViewChange (r : Replica) (viewChangeInfo : ViewChangeInfo) : Step :=
  if viewChangeInfo.viewNum < r.viewNum then quiet r
  else if r.status = .recovering then quiet r
  else quiet { r with
    viewChangeInfoMap := r.viewChangeInfoMap.insert viewChangeInfo.viewNum
      ((r.viewChangeInfoMap.lookup viewChangeInfo.viewNum).getD [] ++ [viewChangeInfo])
    listener := some (.doViewChange viewChangeInfo) }

/-- The rest of `processDoViewChange`, on the counter's own mutex.  A count into a counter that `cleanUp` has cleared
away in between is as good as one before that. -/
def doViewChangeCount (r : Replica) (viewChangeInfo : ViewChangeInfo) : Step :=
  quiet { r with doViewChangeMap := r.doViewChangeMap.bump viewChangeInfo.viewNum, listener := none }

/-- `processStartView` up to where it has stored the info, under `_viewChangeMutex`. -/
def processStartView (r : Replica) (viewStartInfo : ViewStartInfo) : Option Step :=
  if viewStartInfo.viewNum < r.viewNum then some (quiet r)
  else if r.status = .recovering then some (quiet r)
  else if viewStartInfo.viewNum ∈ r.viewStartInfoMap then none
  else some (quiet { r with
    status := .viewChange
    viewStartInfoMap := r.viewStartInfoMap.insert viewStartInfo.viewNum viewStartInfo
    listener := some (.startView viewStartInfo.viewNum) })

/-- The rest of `processStartView`, likewise. -/
def startViewCount (r : Replica) (newViewNum : Nat) : Option Step :=
  let r' := { r with startViewMap := r.startViewMap.bump newViewNum, listener := none }
  if r'.startViewMap.cnt newViewNum = 1 then some (quiet r') else none

end Replica
end MetaDR
