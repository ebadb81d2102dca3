import MetaDR.RecoveryHandler
import MetaDR.Lib.Run
import Mathlib.Logic.Function.Basic
/-!
# Cluster — the replicas, the messages between them and the runs of both

`Replica.act` is one atomic section of one thread, `Replica.handle` the section that takes up a message.  An `Event`
picks a section, a message that arrives or is lost, or a process that stops or is started again with
`Recovering = true`.  A message is in flight once for each time it was sent and leaves when it is delivered: each call
is delivered at most once, in any order.

What a run may be held to beyond the code is a `Rules`, so that every result names what it needs.
-/
namespace MetaDR

/-- The sections a thread of a process runs next. -/
inductive Act where
  | clientCall (req : Req)
  | replicateBegin
  | replicateCount
  /-- `wait_for` of `replicate` returns `no_timeout` -/
  | replicateWake
  | replicateTimeout
  | clientFinish
  | prepCheck
  | prepLocked
  | prepareOkCount
  | commitLocked
  | doViewChangeCount
  | startViewCount
  | heartBeat
  | changeViewBegin
  | changeViewCount
  /-- a turn of the candidate loop, by how its call ends -/
  | candidate (call : CallEnd)
  /-- the wait the heart-beat thread stands at ends with `no_timeout`, or is not entered -/
  | hbWake
  | hbTimeout
  | recoverBegin
  | recoverTest
  | recReqCheck
  | recReqLocked
  deriving DecidableEq, Repr

/-- What happens next; `now` is the clock the step reads. -/
inductive Event where
  | act (i : Nat) (a : Act) (now : Nat)
  | deliver (p : Packet) (now : Nat)
  | lose (p : Packet)
  | crash (i : Nat)
  /-- `flag` is what the uninitialised `_receivedRespFromPri` holds -/
  | restart (i : Nat) (flag : Bool)
  deriving DecidableEq, Repr

/-- The replica an event is about. -/
def Event.target : Event → Nat
  | .act i _ _ => i
  | .deliver p _ => p.dst
  | .lose p => p.dst
  | .crash i => i
  | .restart i _ => i

namespace Replica

/-- A process started again with `Recovering = true`. -/
def recovering (n id : Nat) (flag : Bool) : Replica :=
  { init n id with status := .recovering, receivedRespFromPri := flag }

/-- `HEART_BEAT_TIMEOUT`. -/
def heartBeatTimeout : Nat := 3

/-- When the loop of `heartBeat` calls `changeView`. -/
def wantsViewChange (r : Replica) (now : Nat) : Bool :=
  decide (r.status ≠ .recovering) && !(r.isPrimary && decide (r.status = .normal)) &&
    (decide (r.status = .viewChange) || decide (heartBeatTimeout < now - r.lastCommitTime))

def act (r : Replica) (now : Nat) : Act → Outcome
  | .clientCall req =>
    match r.client with
    | .idle => .ofOption (r.clientCall req)
    | _ => .blocked
  | .replicateBegin =>
    match r.client with
    | .locked req m => if r.repMutexFree = true then .ofOption (r.replicateBegin req m) else .blocked
    | _ => .blocked
  | .replicateCount =>
    match r.client with
    | .prepared req m prepInfo => .ofOption (r.replicateCount req m prepInfo)
    | _ => .blocked
  | .replicateWake =>
    match r.client with
    | .waiting req m prepInfo => .ofOption (r.replicateEnd req m prepInfo)
    | _ => .blocked
  | .replicateTimeout =>
    match r.client with
    | .waiting req m _ => .ok (r.replicateTimeout req m)
    | _ => .blocked
  | .clientFinish =>
    match r.client with
    | .replicated req m opNum => .ok (r.clientFinish req m opNum)
    | _ => .blocked
  | .prepCheck =>
    match r.ppit, r.prepReqQ with
    | none, prepInfo :: rest => .ok (r.processPrepInfo prepInfo rest)
    | _, _ => .blocked
  | .prepLocked =>
    match r.ppit with
    | some prepInfo => if r.repMutexFree = true then .ofOption (r.processPrepInfoLocked prepInfo) else .blocked
    | none => .blocked
  | .prepareOkCount =>
    match r.listener with
    | some (.prepareOk prepResponse) => .ok (r.prepareOkCount prepResponse)
    | _ => .blocked
  | .commitLocked =>
    match r.listener with
    | some (.commit commitInfo) =>
      if r.repMutexFree = true then .withStore r (r.processCommitLocked commitInfo) else .blocked
    | _ => .blocked
  | .doViewChangeCount =>
    match r.listener with
    | some (.doViewChange viewChangeInfo) => .ok (r.doViewChangeCount viewChangeInfo)
    | _ => .blocked
  | .startViewCount =>
    match r.listener with
    | some (.startView newViewNum) => .ofOption (r.startViewCount newViewNum)
    | _ => .blocked
  | .heartBeat =>
    match r.hb with
    | .idle => if r.isPrimary = true ∧ r.status = .normal then .ok r.heartBeat else .blocked
    | _ => .blocked
  | .changeViewBegin =>
    if r.repMutexFree = true ∧ r.wantsViewChange now = true then .withStore r (r.changeViewBegin now) else .blocked
  | .changeViewCount =>
    match r.hb with
    | .startSent newViewNum oldViewNum => .ok (r.changeViewCount newViewNum oldViewNum)
    | _ => .blocked
  | .candidate call =>
    match r.hb with
    | .choosing viewChangeInfo cnt newPriId => .ok (r.candidate viewChangeInfo cnt newPriId call)
    | _ => .blocked
  | .hbWake =>
    match r.hb with
    | .startWait newViewNum oldViewNum => .ok (r.vote newViewNum oldViewNum)
    | .doWait newViewNum => .withStore r (r.doWake newViewNum now)
    | .viewWait newViewNum => .withStore r (r.viewWake newViewNum now)
    | .recoverWait nonce => .withStore r (r.recoverEnd nonce now)
    | _ => .blocked
  | .hbTimeout =>
    match r.hb with
    | .startWait _ _ => .ok (quiet { r with hb := .idle })
    | .doWait _ => .ok (quiet { r with hb := .idle })
    | .viewWait _ => .ok (quiet { r with hb := .idle })
    -- the exception of `recover` leaves the heart-beat thread: the process ends
    | .recoverWait _ => .abort
    | _ => .blocked
  | .recoverBegin =>
    if r.repMutexFree = true ∧ r.status = .recovering then .ok (r.recoverBegin now) else .blocked
  | .recoverTest =>
    match r.hb with
    | .recoverSent nonce => .withStore r (r.recoverTest nonce now)
    | _ => .blocked
  | .recReqCheck =>
    match r.prr, r.recoveryReqQ with
    | .popping, recoveryReq :: rest => .ok (r.processRecoveryReqInt recoveryReq rest)
    | _, _ => .blocked
  | .recReqLocked =>
    match r.prr with
    | .checked recoveryReq => if r.repMutexFree = true then .ok (r.processRecoveryReqLocked recoveryReq) else .blocked
    | _ => .blocked

/-- The one thread that serves the three server-to-server programs takes up a message. -/
def handle (r : Replica) (now : Nat) (msg : Msg) : Outcome :=
  match r.listener with
  | some _ => .blocked
  | none =>
    match msg with
    | .prepare prepInfo => .ok (r.processPrepare prepInfo)
    | .prepareOk prepResponse => .ok (r.processPrepareOk prepResponse)
    | .commit commitInfo => .ok (r.processCommit commitInfo now)
    | .startViewChange viewChangeReq => .ok (r.processStartViewChange viewChangeReq)
    | .doViewChange viewChangeInfo => .ok (r.processDoViewChange viewChangeInfo)
    | .startView viewStartInfo => .ofOption (r.processStartView viewStartInfo)
    | .recoveryRequest recoveryReq => .ok (r.processRecoveryRequest recoveryReq)
    | .recoveryResponse recoveryResp => .ok (r.processRecoveryResponse recoveryResp)

end Replica

structure Cluster where
  reps : Nat → Replica
  net : List Packet

namespace Cluster

def init (n : Nat) : Cluster := ⟨Replica.init n, []⟩

def setRep (c : Cluster) (i : Nat) (r : Replica) : Cluster := { c with reps := Function.update c.reps i r }

/-- The process `i` ends. -/
def down (c : Cluster) (i : Nat) : Cluster := c.setRep i { c.reps i with up := false }

/-- A section of the process `i` is over, or one of its assertions failed. -/
def settle (c : Cluster) (i : Nat) : Outcome → Option (Cluster × List Obs)
  | .blocked => none
  | .abort => some (c.down i, [])
  | .ok s => some ({ c.setRep i s.rep with net := c.net ++ s.sent }, s.obs)

def step (n : Nat) (c : Cluster) : Event → Option (Cluster × List Obs)
  | .act i a now => if i < n ∧ (c.reps i).up = true then c.settle i ((c.reps i).act now a) else none
  | .deliver p now =>
    if p ∈ c.net ∧ p.dst < n ∧ (c.reps p.dst).up = true then
      { c with net := c.net.erase p }.settle p.dst ((c.reps p.dst).handle now p.msg)
    else none
  | .lose p => if p ∈ c.net then some ({ c with net := c.net.erase p }, []) else none
  | .crash i => if i < n ∧ (c.reps i).up = true then some (c.down i, []) else none
  | .restart i flag =>
    if i < n ∧ (c.reps i).up = false then some (c.setRep i (Replica.recovering n i flag), []) else none

/-- The cluster of the replicas `0 .. n - 1`. -/
def system (n : Nat) : Run.System Cluster Event Obs := ⟨init n, step n⟩

end Cluster

def lastNormalStep (v q u : Nat) : Obs → Nat
  | .newView r _ info => if r = q ∧ info.viewNum < v then max u info.viewNum else u
  | _ => u

/-- The greatest view below `v` that the replica was `NORMAL` in, by the views it is seen to take up. -/
def lastNormal (tr : List Obs) (v q : Nat) : Nat := tr.foldl (lastNormalStep v q) 0

/-- No info lists an entry past the op number it reports. -/
def noneLeft (vcInfos : List ViewChangeInfo) : Bool :=
  vcInfos.all (fun info => info.opLog.all (fun entry => decide (entry.opNum ≤ info.opNum)))

/-- The loop of `updateNewView` picks an info from the latest view that one of the senders was `NORMAL` in, with the
greatest op number of that view. -/
def picksNewest (last : Nat → Nat) (vcInfos : List ViewChangeInfo) : Bool :=
  (selectCandidate vcInfos).any (fun candidate => vcInfos.all (fun info =>
    decide (last info.replicaId < last candidate.replicaId ∨
      (last info.replicaId = last candidate.replicaId ∧ info.opNum ≤ candidate.opNum))))

/-- What a run may be held to, beside the code. -/
structure Rules where
  /-- the tests `processPrepInfo` and `processCommit` make before they lock still hold when they have the lock -/
  atomic : Bool
  /-- the tests `processPrepareOk` makes still hold when it counts -/
  current : Bool
  /-- the `_replicas[priId]` of `processPrepInfo` finds its key -/
  peersKept : Bool
  /-- the wait of `replicate` ends without a timeout only when the quorum is there -/
  notified : Bool
  /-- no peer takes up a `DoViewChange` of a call that returns `false` -/
  called : Bool
  /-- what `processDoViewChange` or `processStartView` has stored is still stored when it counts it -/
  counted : Bool
  /-- no process is started again -/
  noRestart : Bool
  /-- `replicate` numbers an operation on this `NORMAL` primary, after what was seen -/
  assign : List Obs → Replica → Bool
  /-- `replicate` passes its quorum check for this number with this commit number -/
  pass : Nat → Nat → Bool
  /-- `updateNewView(v, true)` chooses from these infos; the function gives each replica's last view below `v` -/
  start : (Nat → Nat) → List ViewChangeInfo → Bool
  /-- `updateNewView` takes this up on a replica with this commit number -/
  adopt : Nat → ViewStartInfo → Bool

namespace Rules

/-- No demands. -/
def free : Rules where
  atomic := false
  current := false
  peersKept := false
  notified := false
  called := false
  counted := false
  noRestart := false
  assign := fun _ _ => true
  pass := fun _ _ => true
  start := fun _ _ => true
  adopt := fun _ _ => true

/-- What the locks, the transport and the runtime are taken to give. -/
def env : Rules :=
  { free with
    atomic := true
    current := true
    peersKept := true
    notified := true
    called := true
    counted := true
    noRestart := true }

/-- The rules on an observation, by the acting replica before the step. -/
def obsOk (R : Rules) (tr : List Obs) (r : Replica) : Obs → Bool
  | .prepared _ _ => R.assign tr r
  | .quorum _ prepInfo => R.pass r.commitNum prepInfo.opNum
  | .newView _ isPrimary info =>
    R.adopt r.commitNum info && (!isPrimary ||
      R.start (lastNormal tr info.viewNum) ((r.viewChangeInfoMap.lookup info.viewNum).getD []))
  | _ => true

/-- The rules on an event at a replica.  In every run here no replica completes `recover`. -/
def eventOk (R : Rules) (r : Replica) : Event → Bool
  | .act _ .prepLocked _ =>
    match r.ppit with
    | some prepInfo => (!R.atomic || r.prepInfoTest prepInfo) && (!R.peersKept || decide (r.priId ∈ r.replicas))
    | none => true
  | .act _ .prepareOkCount _ =>
    match r.listener with
    | some (.prepareOk prepResponse) => !R.current || decide (r.status = .normal ∧ prepResponse.viewNum = r.viewNum)
    | _ => true
  | .act _ .commitLocked _ => !R.atomic || decide (r.status = .normal)
  | .act _ .replicateWake _ =>
    match r.client with
    | .waiting _ _ prepInfo => !R.notified || r.quorumReached (r.waitMap.cnt prepInfo.opNum)
    | _ => true
  | .act _ (.candidate call) _ => !R.called || decide (call ≠ .unanswered)
  | .act _ .doViewChangeCount _ =>
    match r.listener with
    | some (.doViewChange info) => !R.counted || decide (info ∈ (r.viewChangeInfoMap.lookup info.viewNum).getD [])
    | _ => true
  | .act _ .startViewCount _ =>
    match r.listener with
    | some (.startView newViewNum) => !R.counted || decide (newViewNum ∈ r.viewStartInfoMap)
    | _ => true
  | .act _ .recoverTest _ =>
    match r.hb with
    | .recoverSent nonce => !r.responseDone nonce
    | _ => true
  | .act _ .hbWake _ =>
    match r.hb with
    | .recoverWait _ => false
    | _ => true
  | .restart _ _ => !R.noRestart
  | _ => true

/-- **A step that keeps the rules.** -/
def allowed (R : Rules) (n : Nat) (c : Cluster) (tr : List Obs) (e : Event) : Bool :=
  R.eventOk (c.reps e.target) e &&
    (match c.step n e with
      | none => true
      | some (_, os) => os.all (R.obsOk tr (c.reps e.target)))

end Rules

/-- **The runs of `n` replicas under the rules.** -/
abbrev Runs (n : Nat) (R : Rules) : Cluster → List Obs → Prop := Run.Reach (Cluster.system n) (R.allowed n)

/-- **Where such a run gets from a state of it**, with what was seen until then, by events that meet `A`. -/
abbrev GoesOn (n : Nat) (R : Rules) (A : Event → Prop) : Cluster × List Obs → Cluster → List Obs → Prop :=
  Run.Onward (Cluster.system n) (R.allowed n) A

theorem GoesOn.runs {n : Nat} {R : Rules} {A : Event → Prop} {b : Cluster × List Obs} {c : Cluster} {tr : List Obs}
    (h : GoesOn n R A b c tr) : Runs n R c tr := h.reach

/-- The event is at one of `Q`. -/
abbrev Event.Among (Q : Finset Nat) (e : Event) : Prop := e.target ∈ Q

/-- An executed sequence of events is a run. -/
theorem exists_runs {n : Nat} {R : Rules} (es : List Event) (q : Cluster → List Obs → Bool)
    (h : (Run.exec (Cluster.system n) (R.allowed n) es (Cluster.init n) []).any (fun p => q p.1 p.2) = true) :
    ∃ c tr, Runs n R c tr ∧ q c tr = true :=
  Run.exists_reach_of_exec es q h

/-- A client call at replica `i` up to the wait of `replicate`. -/
def Event.call (i : Nat) (req : Req) : List Event := [.act i (.clientCall req) 0, .act i .replicateBegin 0]

/-- Replica `i` takes up a `Prepare`. -/
def Event.takeUp (i : Nat) (prepInfo : PrepInfo) : List Event :=
  [.deliver ⟨i, .prepare prepInfo⟩ 0, .act i .prepCheck 0, .act i .prepLocked 0]

/-- Replica `i` takes up a `Commit`. -/
def Event.learn (i : Nat) (commitInfo : CommitInfo) : List Event :=
  [.deliver ⟨i, .commit commitInfo⟩ 0, .act i .commitLocked 0]

/-- The `PrepInfo` of a `create` with an empty value. -/
def PrepInfo.ofKey (viewNum opNum commitNum : Nat) (key : Str) : PrepInfo :=
  ⟨viewNum, ⟨key, []⟩, opNum, .update, commitNum⟩

end MetaDR
