import Mathlib
import MetaDR.Replica
/-!
# VsReplicator — normal operation (server/vsReplicator.cc)

Each handler is cut where it takes or releases `_repMutex` or waits: `replicate` into its part up to the `Prepare`s, its
count and first test, and its two ends after the wait; `processPrepareOk`, `processCommit` and `processPrepInfo` into
their tests before the lock and their section under it.  `none` is a failed assertion.
-/
namespace MetaDR

/-- `appendUpdate` or `appendDelete`, as both `replicate` and `processPrepInfo` choose between them. -/
def PrepInfo.append (p : PrepInfo) (log : InMemOpLogHandler) : InMemOpLogHandler :=
  match p.opType with
  | .update => log.appendUpdate p.kvPair p.opNum
  | .delete => log.appendDelete p.kvPair.key p.opNum

/-- The operation a `PrepInfo` puts into a log. -/
def PrepInfo.op (p : PrepInfo) : Op :=
  match p.opType with
  | .update => ⟨.update, p.kvPair⟩
  | .delete => ⟨.delete, ⟨p.kvPair.key, []⟩⟩

/-- The operation a call of the store stands for. -/
def Mutation.op : Mutation → Op
  | .set key val => ⟨.update, ⟨key, val⟩⟩
  | .remove key => ⟨.delete, ⟨key, []⟩⟩

/-- The entry a `PrepInfo` puts into a log. -/
def PrepInfo.entry (p : PrepInfo) : LogEntry := ⟨p.op.kvPair, p.op.opType, p.opNum, false⟩

theorem PrepInfo.append_eq (p : PrepInfo) (log : InMemOpLogHandler) : p.append log = log.push p.entry := by
  unfold append entry op
  cases p.opType <;> rfl

@[simp] theorem PrepInfo.entry_opNum (p : PrepInfo) : p.entry.opNum = p.opNum := rfl

@[simp] theorem PrepInfo.entry_committed (p : PrepInfo) : p.entry.committed = false := rfl

namespace Replica

/-- The `PrepInfo` that `replicateUpdate` and `replicateDelete` build; the op number is the incremented one. -/
def mkPrepInfo (r : Replica) (kvPair : KvPair) (opType : OpType) : PrepInfo where
  viewNum := r.viewNum
  kvPair := kvPair
  opNum := r.opNum + 1
  opType := opType
  commitNum := r.commitNum

/-- `replicate` up to its wait; `opNum` was incremented before the status test. -/
def replicate (r : Replica) (req : Req) (m : Mutation) (prepInfo : PrepInfo) : Step :=
  if r.status ≠ .normal then
    ⟨{ r with opNum := r.opNum + 1, client := .idle }, [],
      [.replied r.id req (m.finish r.kvMap .replicaStateNotNormal).2]⟩
  else
    ⟨{ r with
        opNum := r.opNum + 1
        log := prepInfo.append r.log
        waitMap := r.waitMap.touch prepInfo.opNum
        client := .prepared req m prepInfo },
      r.invokeForAllReplicas (.prepare prepInfo), [.prepared r.id prepInfo]⟩

def replicateUpdate (r : Replica) (req : Req) (key val : Str) : Option Step :=
  if r.isPrimary = true then some (r.replicate req (.set key val) (r.mkPrepInfo ⟨key, val⟩ .update)) else none

def replicateDelete (r : Replica) (req : Req) (key : Str) : Option Step :=
  if r.isPrimary = true then some (r.replicate req (.remove key) (r.mkPrepInfo ⟨key, []⟩ .delete)) else none

/-- The client thread gets `_repMutex`. -/
def replicateBegin (r : Replica) (req : Req) : Mutation → Option Step
  | .set key val => r.replicateUpdate req key val
  | .remove key => r.replicateDelete req key

/-- The end of `replicate`, behind the quorum test. -/
def replicateEnd (r : Replica) (req : Req) (m : Mutation) (prepInfo : PrepInfo) : Option Step :=
  match r.log.commit prepInfo.opNum with
  | none => none
  | some log => some
      ⟨{ r with
          log := log
          commitNum := prepInfo.opNum
          waitMap := r.waitMap.erase prepInfo.opNum
          client := .replicated req m prepInfo.opNum },
        r.invokeForAllReplicas (.commit ⟨prepInfo.viewNum, prepInfo.opNum⟩),
        [.quorum r.id prepInfo, .forgot r.id prepInfo.opNum]⟩

/-- `++resp->cnt` and the first quorum test. -/
def replicateCount (r : Replica) (req : Req) (m : Mutation) (prepInfo : PrepInfo) : Option Step :=
  let r' := { r with waitMap := r.waitMap.bump prepInfo.opNum }
  if r'.quorumReached (r'.waitMap.cnt prepInfo.opNum) = true then r'.replicateEnd req m prepInfo
  else some (quiet { r' with client := .waiting req m prepInfo })

/-- The wait timed out: `QuorumNotReached`; the log and the counter stay. -/
def replicateTimeout (r : Replica) (req : Req) (m : Mutation) : Step :=
  ⟨{ r with client := .idle }, [], [.replied r.id req (m.finish r.kvMap .quorumNotReached).2]⟩

/-- `setInt` or `erase` after `replicate` has returned, and the reply. -/
def clientFinish (r : Replica) (req : Req) (m : Mutation) (opNum : Nat) : Step :=
  ⟨{ r with kvMap := (m.finish r.kvMap .done).1, client := .idle }, [],
    [.applied r.id opNum m.op, .replied r.id req (m.finish r.kvMap .done).2]⟩

/-- An API call up to the store's mutex: it replies, or holds `kvMemMutex` and waits for `_repMutex`. -/
def clientCall (r : Replica) (req : Req) : Option Step :=
  match req.front r.isPrimary r.kvMap with
  | .error _ => none
  | .ok (.reply res) => some ⟨r, [], [.replied r.id req res]⟩
  | .ok (.mutate m) =>
    match m.enter r.isPrimary r.kvMap with
    | .error _ => none
    | .ok _ => some (quiet { r with client := .locked req m })

def processPrepare (r : Replica) (prepInfo : PrepInfo) : Step :=
  if r.status ≠ .normal then quiet r
  else if prepInfo.viewNum ≠ r.viewNum then quiet r
  else quiet { r with prepReqQ := r.prepReqQ ++ [prepInfo] }

/-- `processPrepareOk` up to its tests. -/
def processPrepareOk (r : Replica) (prepResponse : PrepResponse) : Step :=
  if r.status ≠ .normal then quiet r
  else if prepResponse.viewNum ≠ r.viewNum then quiet r
  else quiet { r with listener := some (.prepareOk prepResponse) }

/-- The rest of `processPrepareOk`, on the counter's own mutex.  A count into a counter that `replicate` has erased in
between is as good as one before that. -/
def prepareOkCount (r : Replica) (prepResponse : PrepResponse) : Step :=
  let r' := { r with waitMap := r.waitMap.touch prepResponse.opNum, listener := none }
  if r'.quorumReached (r'.waitMap.cnt prepResponse.opNum) = true then quiet r'
  else ⟨{ r' with waitMap := r'.waitMap.bump prepResponse.opNum }, [], [.counted r.id prepResponse]⟩

/-- `processCommit` before the lock. -/
def processCommit (r : Replica) (commitInfo : CommitInfo) (now : Nat) : Step :=
  let r' := { r with lastCommitTime := now }
  if r'.status ≠ .normal then quiet r' else quiet { r' with listener := some (.commit commitInfo) }

/-- `processCommit` under the lock.  The assertion on the commit number assigns: the entry committed is always the one
after the replica's own commit number. -/
def processCommitLocked (r : Replica) (commitInfo : CommitInfo) : Option Step :=
  let r := { r with listener := none }
  if commitInfo.viewNum ≠ r.viewNum then some (quiet r)
  else if 0 < commitInfo.commitNum ∧ commitInfo.commitNum ≤ r.commitNum then
    match r.log.getLogEntry commitInfo.commitNum with
    | none => none
    | some e => if e.committed = true then some (quiet r) else none
  else if r.commitNum < commitInfo.commitNum then
    let commitNum := r.commitNum + 1
    if r.log.hasEntry commitNum = false then some (quiet r)
    else
      match r.log.commit commitNum with
      | none => none
      | some log =>
        match log.getLogEntry commitNum with
        | none => none
        | some entry => some
            ⟨{ r with commitNum := commitNum, log := log, kvMap := entry.op.apply r.kvMap }, [],
              [.applied r.id commitNum entry.op]⟩
  else some (quiet r)

/-- The tests of `processPrepInfo` on the `PrepInfo` it popped. -/
def prepInfoTest (r : Replica) (prepInfo : PrepInfo) : Bool :=
  !r.isPrimary && decide (r.status = .normal) && decide (prepInfo.viewNum = r.viewNum)

theorem prepInfoTest_eq_true {r : Replica} {prepInfo : PrepInfo} :
    r.prepInfoTest prepInfo = true ↔ r.id ≠ r.priId ∧ r.status = .normal ∧ prepInfo.viewNum = r.viewNum := by
  simp only [prepInfoTest, isPrimary, Bool.and_eq_true, Bool.not_eq_true', decide_eq_false_iff_not, decide_eq_true_eq,
    and_assoc, ne_eq]

/-- `processPrepInfo` before the lock. -/
def processPrepInfo (r : Replica) (prepInfo : PrepInfo) (rest : List PrepInfo) : Step :=
  let r' := { r with prepReqQ := rest }
  if r'.prepInfoTest prepInfo = true then quiet { r' with ppit := some prepInfo } else quiet r'

/-- `processPrepInfo` under the lock. -/
def processPrepInfoLocked (r : Replica) (prepInfo : PrepInfo) : Option Step :=
  if prepInfo.opNum ≠ r.opNum + 1 then none
  else
    let resp : PrepResponse := ⟨r.viewNum, prepInfo.opNum, r.id⟩
    some
      ⟨{ r.endPoint r.priId with
          ppit := none
          opNum := prepInfo.opNum
          log := prepInfo.append r.log },
        r.sendTo r.priId (.prepareOk resp), [.acked r.id prepInfo resp]⟩

/-- The commit messages of `heartBeat`. -/
def heartBeat (r : Replica) : Step :=
  ⟨r, r.invokeForAllReplicas (.commit ⟨r.viewNum, r.commitNum⟩), []⟩

end Replica
end MetaDR
