import MetaDR.OpLog
/-!
# Replica — messages, wait maps and the state of one server process

The types of server/*.x, `WaitMap` and `quorumReached` of server/vrCommon, and everything one process keeps: its
`ReplicaState`, its log, the maps of the replicator, the view-change handler and the recovery handler, its store, and
where each of its threads stands.  Left out: the endpoints' addresses and the client wrappers (a message names its
receiver), console output, and `knownCommitNum`, which no handler reads.
-/
namespace MetaDR

/-- `vr::Status`. -/
inductive Status where
  | normal
  | viewChange
  | recovering
  deriving DecidableEq, Repr

structure PrepInfo where
  viewNum : Nat
  kvPair : KvPair
  opNum : Nat
  opType : OpType
  commitNum : Nat
  deriving DecidableEq, Repr

structure PrepResponse where
  viewNum : Nat
  opNum : Nat
  replicaId : Nat
  deriving DecidableEq, Repr

structure CommitInfo where
  viewNum : Nat
  commitNum : Nat
  deriving DecidableEq, Repr

structure ViewChangeRequest where
  viewNum : Nat
  replicaId : Nat
  deriving DecidableEq, Repr

structure ViewChangeInfo where
  viewNum : Nat
  opLog : OpLog
  oldViewNum : Nat
  opNum : Nat
  commitNum : Nat
  replicaId : Nat
  deriving DecidableEq, Repr

structure ViewStartInfo where
  viewNum : Nat
  opLog : OpLog
  opNum : Nat
  commitNum : Nat
  replicaId : Nat
  deriving DecidableEq, Repr

structure RecoveryRequest where
  replicaId : Nat
  nonce : Nat
  deriving DecidableEq, Repr

structure RecoveryResponse where
  viewNum : Nat
  nonce : Nat
  replicaId : Nat
  isPrimary : Bool
  opLog : OpLog
  opNum : Nat
  commitNum : Nat
  deriving DecidableEq, Repr

/-- The calls of the three server-to-server programs. -/
inductive Msg where
  | prepare (prepInfo : PrepInfo)
  | prepareOk (prepResponse : PrepResponse)
  | commit (commitInfo : CommitInfo)
  | startViewChange (viewChangeReq : ViewChangeRequest)
  | doViewChange (viewChangeInfo : ViewChangeInfo)
  | startView (viewStartInfo : ViewStartInfo)
  | recoveryRequest (recoveryReq : RecoveryRequest)
  | recoveryResponse (recoveryResp : RecoveryResponse)
  deriving DecidableEq, Repr

/-- A message on its way. -/
structure Packet where
  dst : Nat
  msg : Msg
  deriving DecidableEq, Repr

theorem lookup_insert_ite {β : Type} (m : Finmap (fun _ : Nat => β)) (k w : Nat) (b : β) :
    (m.insert k b).lookup w = if w = k then some b else m.lookup w := by
  by_cases h : w = k
  · subst h; rw [if_pos rfl, Finmap.lookup_insert]
  · rw [if_neg h, Finmap.lookup_insert_of_ne _ h]

/-- `WaitMap`: the counters `Response::cnt` by key. -/
abbrev WaitMap := Finmap (fun _ : Nat => Nat)

namespace WaitMap

/-- The counter `get` returns; a key not present gets a fresh one. -/
def cnt (m : WaitMap) (t : Nat) : Nat := (m.lookup t).getD 0

/-- The effect of `get` on the map. -/
def touch (m : WaitMap) (t : Nat) : WaitMap := m.insert t (m.cnt t)

/-- `++resp->cnt`. -/
def bump (m : WaitMap) (t : Nat) : WaitMap := m.insert t (m.cnt t + 1)

@[simp] theorem cnt_empty (t : Nat) : cnt ∅ t = 0 := by rw [cnt, Finmap.lookup_empty]; rfl

@[simp] theorem cnt_touch (m : WaitMap) (t u : Nat) : (m.touch t).cnt u = m.cnt u := by
  rw [touch, cnt, lookup_insert_ite]
  split
  · subst_vars; rfl
  · rfl

@[simp] theorem cnt_bump (m : WaitMap) (t u : Nat) : (m.bump t).cnt u = if u = t then m.cnt u + 1 else m.cnt u := by
  rw [bump, cnt, lookup_insert_ite]
  split
  · subst_vars; rfl
  · rfl

@[simp] theorem cnt_erase (m : WaitMap) (t u : Nat) : cnt (m.erase t) u = if u = t then 0 else m.cnt u := by
  by_cases h : u = t
  · subst h; rw [cnt, Finmap.lookup_erase, if_pos rfl]; rfl
  · rw [cnt, Finmap.lookup_erase_ne h, if_neg h, cnt]

end WaitMap

/-- Where the client listener thread stands. -/
inductive ClientPc where
  | idle
  /-- in `KvMemStore::set` or `remove`: holds `kvMemMutex`, waits for `_repMutex` -/
  | locked (req : Req) (m : Mutation)
  /-- in `replicate` with `_repMutex`: the `Prepare`s are sent, its own count is not yet added -/
  | prepared (req : Req) (m : Mutation) (prepInfo : PrepInfo)
  /-- in `wait_for` -/
  | waiting (req : Req) (m : Mutation) (prepInfo : PrepInfo)
  /-- `replicate` has returned and `_repMutex` is free; the map and the reply are next -/
  | replicated (req : Req) (m : Mutation) (opNum : Nat)
  deriving DecidableEq, Repr

/-- Where the heart-beat thread stands; outside `idle` it holds `_repMutex`. -/
inductive HbPc where
  | idle
  /-- in `changeView`: the `StartViewChange`s are sent, its own count is not yet added -/
  | startSent (newViewNum oldViewNum : Nat)
  | startWait (newViewNum oldViewNum : Nat)
  /-- at the test of the candidate loop -/
  | choosing (viewChangeInfo : ViewChangeInfo) (cnt newPriId : Nat)
  /-- behind the loop as its own candidate: at the last quorum test, or in the wait behind it -/
  | doWait (newViewNum : Nat)
  /-- likewise for a `StartView` -/
  | viewWait (newViewNum : Nat)
  /-- in `recover`: the requests are sent, `responseDone` is not yet tested -/
  | recoverSent (nonce : Nat)
  | recoverWait (nonce : Nat)
  deriving DecidableEq, Repr

/-- Where the thread that serves the three server-to-server programs stands in a call it has not returned from. -/
inductive ListenerPc where
  /-- in `processPrepareOk`: the tests have passed, the answer is not yet counted -/
  | prepareOk (prepResponse : PrepResponse)
  /-- in `processCommit`: the status test has passed, waits for `_repMutex` -/
  | commit (commitInfo : CommitInfo)
  /-- in `processDoViewChange`: the vote is stored, not yet counted -/
  | doViewChange (viewChangeInfo : ViewChangeInfo)
  /-- in `processStartView`, likewise -/
  | startView (viewNum : Nat)
  deriving DecidableEq, Repr

/-- Where the thread of `processRecoveryReqInt` stands. -/
inductive PrrPc where
  | popping
  | checked (recoveryReq : RecoveryRequest)
  | ended
  deriving DecidableEq, Repr

structure Replica where
  id : Nat
  /-- the keys of `_replicas`, which `Configurator`, `VsReplicator` and both handlers share -/
  replicas : List Nat
  up : Bool
  priId : Nat
  status : Status
  viewNum : Nat
  opNum : Nat
  commitNum : Nat
  lastCommitTime : Nat
  log : InMemOpLogHandler
  kvMap : KvMap
  waitMap : WaitMap
  prepReqQ : List PrepInfo
  viewStartReqMap : WaitMap
  doViewChangeMap : WaitMap
  viewChangeInfoMap : Finmap (fun _ : Nat => List ViewChangeInfo)
  startViewMap : WaitMap
  viewStartInfoMap : Finmap (fun _ : Nat => ViewStartInfo)
  recoveryReqQ : List RecoveryRequest
  recoveryWaitMap : WaitMap
  recoveryRespMap : Finmap (fun _ : Nat => List RecoveryResponse)
  /-- a view's first answer adds it at the end; `unordered_map` iterates in an order of its own -/
  respViewCnt : List (Nat × Nat)
  receivedRespFromPri : Bool
  client : ClientPc
  hb : HbPc
  /-- the `PrepInfo` that passed the tests of `processPrepInfo` and waits for `_repMutex` -/
  ppit : Option PrepInfo
  listener : Option ListenerPc
  prr : PrrPc

/-- What an outside observer can note of a step. -/
inductive Obs where
  /-- `changeView` moved `r` to view `v` -/
  | entered (r v : Nat)
  /-- `changeView` built its `ViewChangeInfo` -/
  | voted (r : Nat) (info : ViewChangeInfo)
  /-- the candidate loop of `r` for view `v` ended with `newPriId = c` -/
  | selected (r v c : Nat)
  /-- `updateNewView` installed `info` and made `r` `NORMAL` -/
  | newView (r : Nat) (isPrimary : Bool) (info : ViewStartInfo)
  /-- `replicate` appended and sent the operation -/
  | prepared (r : Nat) (prepInfo : PrepInfo)
  /-- `processPrepInfo` appended the operation and answered -/
  | acked (r : Nat) (prepInfo : PrepInfo) (resp : PrepResponse)
  /-- `processPrepareOk` counted the answer -/
  | counted (r : Nat) (resp : PrepResponse)
  /-- `replicate` passed its quorum check -/
  | quorum (r : Nat) (prepInfo : PrepInfo)
  /-- `_waitMap.erase` -/
  | forgot (r n : Nat)
  /-- the operation numbered `n` was applied to the key-value map -/
  | applied (r n : Nat) (op : Op)
  /-- the API answered -/
  | replied (r : Nat) (req : Req) (res : Result)
  deriving DecidableEq, Repr

def Obs.isApplied : Obs → Bool
  | .applied _ _ _ => true
  | _ => false

/-- The replica that lets it be seen. -/
def Obs.by : Obs → Nat
  | .entered r _ => r
  | .voted r _ => r
  | .selected r _ _ => r
  | .newView r _ _ => r
  | .prepared r _ => r
  | .acked r _ _ => r
  | .counted r _ => r
  | .quorum r _ => r
  | .forgot r _ => r
  | .applied r _ _ => r
  | .replied r _ _ => r

/-- One atomic section: the state after it, the messages it sent and what it let be seen. -/
structure Step where
  rep : Replica
  sent : List Packet
  obs : List Obs

/-- How an atomic section goes: it cannot start, an assertion in it fails, or it is done. -/
inductive Outcome where
  | blocked
  | abort
  | ok (s : Step)

def Outcome.ofOption : Option Step → Outcome
  | none => .abort
  | some s => .ok s

/-- A section that may call back into the store needs `kvMemMutex` when it does. -/
def Outcome.withStore (r : Replica) (o : Option Step) : Outcome :=
  match o with
  | none => .abort
  | some s => if s.obs.any Obs.isApplied = true ∧ r.client ≠ .idle then .blocked else .ok s

namespace Replica

def init (n id : Nat) : Replica where
  id := id
  replicas := (List.range n).filter (fun i => decide (i ≠ id))
  up := true
  priId := 0
  status := .normal
  viewNum := 0
  opNum := 0
  commitNum := 0
  lastCommitTime := 0
  log := .empty
  kvMap := ∅
  waitMap := ∅
  prepReqQ := []
  viewStartReqMap := ∅
  doViewChangeMap := ∅
  viewChangeInfoMap := ∅
  startViewMap := ∅
  viewStartInfoMap := ∅
  recoveryReqQ := []
  recoveryWaitMap := ∅
  recoveryRespMap := ∅
  respViewCnt := []
  receivedRespFromPri := false
  client := .idle
  hb := .idle
  ppit := none
  listener := none
  prr := .popping

def isPrimary (r : Replica) : Bool := decide (r.id = r.priId)

/-- The `CommitInfo` that passed the status test of `processCommit` and waits for `_repMutex`. -/
def committing (r : Replica) : Option CommitInfo :=
  match r.listener with
  | some (.commit commitInfo) => some commitInfo
  | _ => none

theorem committing_eq_some {r : Replica} {commitInfo : CommitInfo} :
    r.committing = some commitInfo ↔ r.listener = some (.commit commitInfo) := by
  unfold committing
  split
  · rename_i he
    rw [he]
    simp
  · rename_i hne
    exact iff_of_false (fun h => by cases h) (fun h => hne _ h)

/-- `getMajorityCnt`. -/
def getMajorityCnt (r : Replica) : Nat := (r.replicas.length + 1) / 2 + 1

/-- `quorumReached`, on the counter. -/
def quorumReached (r : Replica) (cnt : Nat) : Bool := decide (r.getMajorityCnt ≤ cnt)

/-- `invokeForAllReplicas`. -/
def invokeForAllReplicas (r : Replica) (msg : Msg) : List Packet :=
  (r.replicas.filter (fun i => decide (i ≠ r.id))).map (fun i => ⟨i, msg⟩)

/-- `_replicas[i]`: a missing key is inserted, with an empty endpoint. -/
def endPoint (r : Replica) (i : Nat) : Replica :=
  { r with replicas := if i ∈ r.replicas then r.replicas else r.replicas ++ [i] }

/-- A call to `_replicas[i]`; an empty endpoint reaches nobody. -/
def sendTo (r : Replica) (i : Nat) (msg : Msg) : List Packet :=
  if i ∈ r.replicas ∧ i ≠ r.id then [⟨i, msg⟩] else []

/-- No thread holds `_repMutex`. -/
def repMutexFree (r : Replica) : Bool :=
  (match r.client with
    | .prepared _ _ _ => false
    | .waiting _ _ _ => false
    | _ => true) &&
  (match r.hb with
    | .idle => true
    | _ => false)

/-- Nothing but the thread positions and the clock moved. -/
def quiet (r : Replica) : Step := ⟨r, [], []⟩

end Replica

end MetaDR
