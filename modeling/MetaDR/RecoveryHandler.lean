import MetaDR.ViewChangeHandler
/-!
# RecoveryHandler — recovering a restarted replica (server/recoveryHandler.cc)

`recover` runs under `_repMutex` on the heart-beat thread: it sends its requests, waits once, and takes the state of the
primary that answered.  Requests are answered by a thread of their own, which tests the status before it takes the lock
and ends for good when the test fails.
-/
namespace MetaDR
namespace Replica

/-- `++_respViewCnt[v]`.  The order of the views decides nothing where each replica answers once: two of them cannot
both have a majority. -/
def bumpView (v : Nat) : List (Nat × Nat) → List (Nat × Nat)
  | [] => [(v, 1)]
  | (w, c) :: rest => if w = v then (w, c + 1) :: rest else (w, c) :: bumpView v rest

/-- `responseDone`. -/
def responseDone (r : Replica) (nonce : Nat) : Bool :=
  r.receivedRespFromPri && r.quorumReached (r.recoveryWaitMap.cnt nonce) &&
    r.respViewCnt.any (fun p => r.quorumReached p.2)

/-- `recover` up to its requests; the clock's seconds are the nonce. -/
def recoverBegin (r : Replica) (now : Nat) : Step :=
  ⟨{ r with hb := .recoverSent now }, r.invokeForAllReplicas (.recoveryRequest ⟨r.id, now⟩), []⟩

/-- `recoverStateFromLog`. -/
def recoverStateFromLog (kvMap : KvMap) (opLog : OpLog) : KvMap :=
  opLog.foldl (fun kvMap entry => if entry.committed = true then entry.op.apply kvMap else kvMap) kvMap

/-- The loop of `recover` over the responses: the one it takes, `none` for a failed assertion. -/
def pickResponse (highestViewNum : Nat) : List RecoveryResponse → Option (Option RecoveryResponse)
  | [] => some none
  | resp :: rest =>
    if resp.viewNum = highestViewNum ∧ resp.isPrimary = true then some (some resp)
    else if resp.viewNum ≤ highestViewNum then pickResponse highestViewNum rest
    else none

/-- `recover` behind its wait. -/
def recoverEnd (r : Replica) (nonce now : Nat) : Option Step :=
  let highestViewNum := ((r.respViewCnt.find? (fun p => r.quorumReached p.2)).map Prod.fst).getD 0
  match pickResponse highestViewNum ((r.recoveryRespMap.lookup nonce).getD []) with
  | none => none
  | some none => none
  | some (some resp) => some
      ⟨{ r with
          kvMap := recoverStateFromLog r.kvMap resp.opLog
          priId := resp.replicaId
          viewNum := resp.viewNum
          opNum := resp.opNum
          commitNum := resp.commitNum
          log := .setLog resp.opLog
          lastCommitTime := now
          status := .normal
          recoveryWaitMap := ∅
          recoveryRespMap := ∅
          respViewCnt := []
          receivedRespFromPri := false
          hb := .idle }, [],
        (resp.opLog.filter LogEntry.committed).map (fun entry => .applied r.id entry.opNum entry.op)⟩

/-- The test of `recover` before its wait. -/
def recoverTest (r : Replica) (nonce now : Nat) : Option Step :=
  if r.responseDone nonce = true then r.recoverEnd nonce now else some (quiet { r with hb := .recoverWait nonce })

def processRecoveryRequest (r : Replica) (recoveryReq : RecoveryRequest) : Step :=
  if r.status ≠ .normal then quiet r else quiet { r with recoveryReqQ := r.recoveryReqQ ++ [recoveryReq] }

def processRecoveryResponse (r : Replica) (recoveryResp : RecoveryResponse) : Step :=
  if r.status ≠ .recovering then quiet r
  else quiet { r with
    receivedRespFromPri := r.receivedRespFromPri || recoveryResp.isPrimary
    respViewCnt := bumpView recoveryResp.viewNum r.respViewCnt
    recoveryRespMap := r.recoveryRespMap.insert recoveryResp.nonce
      ((r.recoveryRespMap.lookup recoveryResp.nonce).getD [] ++ [recoveryResp])
    recoveryWaitMap := r.recoveryWaitMap.bump recoveryResp.nonce }

/-- `processRecoveryReqInt` pops a request; on a failed status test the thread's function returns. -/
def processRecoveryReqInt (r : Replica) (recoveryReq : RecoveryRequest) (rest : List RecoveryRequest) : Step :=
  if r.status ≠ .normal then quiet { r with recoveryReqQ := rest, prr := .ended }
  else quiet { r with recoveryReqQ := rest, prr := .checked recoveryReq }

/-- `processRecoveryReqInt` under the lock, and its answer. -/
def processRecoveryReqLocked (r : Replica) (recoveryReq : RecoveryRequest) : Step :=
  let pri := decide (r.priId = r.id)
  let resp : RecoveryResponse := {
    viewNum := r.viewNum
    nonce := recoveryReq.nonce
    replicaId := r.id
    isPrimary := pri
    opLog := if pri = true then r.log.getLog else []
    opNum := if pri = true then r.opNum else 0
    commitNum := if pri = true then r.commitNum else 0 }
  ⟨{ r.endPoint recoveryReq.replicaId with prr := .popping }, r.sendTo recoveryReq.replicaId (.recoveryResponse resp),
    []⟩

end Replica
end MetaDR
