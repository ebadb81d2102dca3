import MetaDR.Recovery
import MetaDR.Refinement
/-!
# Carried — what the replicas keep and send of what clients asked

Whatever the clients' calls are held to, every operation that a replica logs, queues, stores or sends is held to, and
no number is greater than the numbers at the start by more than there was to see.  The runs here are all runs: replicas
stop, are started again and recover, messages are lost, and sections come in any order.
-/
namespace MetaDR

/-- What everything carried is held to: the operations, the length of a log and the numbers. -/
structure Limits where
  op : Op → Prop
  len : Nat
  num : Nat

/-- `k` more things were seen. -/
def Limits.after (L : Limits) (k : Nat) : Limits := { L with len := L.len + k, num := L.num + k }

section

variable (L : Limits)

def LogEntry.Within (e : LogEntry) : Prop := L.op e.op ∧ e.opNum ≤ L.num

def OpLog.Within (log : OpLog) : Prop := log.length ≤ L.len ∧ ∀ e ∈ log, e.Within L

structure PrepInfo.Within (p : PrepInfo) : Prop where
  pair : p.op = ⟨p.opType, p.kvPair⟩
  op : L.op p.op
  viewNum : p.viewNum ≤ L.num
  opNum : p.opNum ≤ L.num
  commitNum : p.commitNum ≤ L.num

def ViewChangeInfo.Within (info : ViewChangeInfo) : Prop :=
  info.opLog.Within L ∧ info.viewNum ≤ L.num ∧ info.oldViewNum ≤ L.num ∧ info.opNum ≤ L.num ∧
    info.commitNum ≤ L.num ∧ info.replicaId ≤ L.num

def ViewStartInfo.Within (info : ViewStartInfo) : Prop :=
  info.opLog.Within L ∧ info.viewNum ≤ L.num ∧ info.opNum ≤ L.num ∧ info.commitNum ≤ L.num ∧ info.replicaId ≤ L.num

def RecoveryRequest.Within (req : RecoveryRequest) : Prop := req.replicaId ≤ L.num ∧ req.nonce ≤ L.num

def RecoveryResponse.Within (resp : RecoveryResponse) : Prop :=
  resp.opLog.Within L ∧ resp.viewNum ≤ L.num ∧ resp.nonce ≤ L.num ∧ resp.replicaId ≤ L.num ∧ resp.opNum ≤ L.num ∧
    resp.commitNum ≤ L.num

def Msg.Within : Msg → Prop
  | .prepare prepInfo => prepInfo.Within L
  | .prepareOk resp => resp.viewNum ≤ L.num ∧ resp.opNum ≤ L.num ∧ resp.replicaId ≤ L.num
  | .commit commitInfo => commitInfo.viewNum ≤ L.num ∧ commitInfo.commitNum ≤ L.num
  | .startViewChange req => req.viewNum ≤ L.num ∧ req.replicaId ≤ L.num
  | .doViewChange info => info.Within L
  | .startView info => info.Within L
  | .recoveryRequest req => req.Within L
  | .recoveryResponse resp => resp.Within L

def InMemOpLogHandler.Within (h : InMemOpLogHandler) : Prop :=
  h.opNums.length ≤ L.len ∧ ∀ n e, h.getLogEntry n = some e → e.Within L

def KvMap.Within (kvMap : KvMap) : Prop := ∀ key val, kvMap.lookup key = some val → L.op ⟨.update, ⟨key, val⟩⟩

def ClientPc.Within : ClientPc → Prop
  | .idle => True
  | .locked _ m => L.op m.op
  | .prepared _ m prepInfo => L.op m.op ∧ prepInfo.Within L
  | .waiting _ m prepInfo => L.op m.op ∧ prepInfo.Within L
  | .replicated _ m opNum => L.op m.op ∧ opNum ≤ L.num

def HbPc.Within : HbPc → Prop
  | .startSent newViewNum oldViewNum => newViewNum ≤ L.num ∧ oldViewNum ≤ L.num
  | .startWait newViewNum oldViewNum => newViewNum ≤ L.num ∧ oldViewNum ≤ L.num
  | .choosing info _ _ => info.Within L
  | _ => True

structure Replica.Within (r : Replica) : Prop where
  id : r.id ≤ L.num
  viewNum : r.viewNum ≤ L.num
  opNum : r.opNum ≤ L.num
  commitNum : r.commitNum ≤ L.num
  log : r.log.Within L
  kvMap : KvMap.Within L r.kvMap
  queue : ∀ p ∈ r.prepReqQ, p.Within L
  ppit : ∀ p, r.ppit = some p → p.Within L
  client : r.client.Within L
  hb : r.hb.Within L
  votes : ∀ v, ∀ info ∈ (r.viewChangeInfoMap.lookup v).getD [], info.Within L
  starts : ∀ v info, r.viewStartInfoMap.lookup v = some info → info.Within L
  recReqs : ∀ req ∈ r.recoveryReqQ, req.Within L
  prr : ∀ req, r.prr = .checked req → req.Within L
  resps : ∀ t, ∀ resp ∈ (r.recoveryRespMap.lookup t).getD [], resp.Within L

end

section

variable {L : Limits} {k : Nat}

theorem OpLog.Within.after {log : OpLog} (h : log.Within L) : log.Within (L.after k) :=
  ⟨Nat.le_add_right_of_le h.1, fun e he => ⟨(h.2 e he).1, Nat.le_add_right_of_le (h.2 e he).2⟩⟩

theorem PrepInfo.Within.after {p : PrepInfo} (h : p.Within L) : p.Within (L.after k) where
  pair := h.pair
  op := h.op
  viewNum := Nat.le_add_right_of_le h.viewNum
  opNum := Nat.le_add_right_of_le h.opNum
  commitNum := Nat.le_add_right_of_le h.commitNum

theorem ViewChangeInfo.Within.after {info : ViewChangeInfo} (h : info.Within L) : info.Within (L.after k) := by
  obtain ⟨hl, h⟩ := h
  exact ⟨hl.after, by simp only [Limits.after]; omega⟩

theorem ViewStartInfo.Within.after {info : ViewStartInfo} (h : info.Within L) : info.Within (L.after k) := by
  obtain ⟨hl, h⟩ := h
  exact ⟨hl.after, by simp only [Limits.after]; omega⟩

theorem RecoveryRequest.Within.after {req : RecoveryRequest} (h : req.Within L) : req.Within (L.after k) :=
  ⟨Nat.le_add_right_of_le h.1, Nat.le_add_right_of_le h.2⟩

theorem RecoveryResponse.Within.after {resp : RecoveryResponse} (h : resp.Within L) : resp.Within (L.after k) := by
  obtain ⟨hl, h⟩ := h
  exact ⟨hl.after, by simp only [Limits.after]; omega⟩

theorem Msg.Within.after {msg : Msg} (h : msg.Within L) : msg.Within (L.after k) := by
  cases msg with
  | prepare => exact PrepInfo.Within.after h
  | doViewChange => exact ViewChangeInfo.Within.after h
  | startView => exact ViewStartInfo.Within.after h
  | recoveryRequest => exact RecoveryRequest.Within.after h
  | recoveryResponse => exact RecoveryResponse.Within.after h
  | prepareOk | commit | startViewChange =>
    simp only [Msg.Within, Limits.after] at h ⊢
    omega

theorem InMemOpLogHandler.Within.after {h : InMemOpLogHandler} (hw : h.Within L) : h.Within (L.after k) :=
  ⟨Nat.le_add_right_of_le hw.1, fun n e he => ⟨(hw.2 n e he).1, Nat.le_add_right_of_le (hw.2 n e he).2⟩⟩

theorem ClientPc.Within.after {pc : ClientPc} (h : pc.Within L) : pc.Within (L.after k) := by
  cases pc with
  | idle => trivial
  | locked => exact h
  | prepared | waiting => exact ⟨h.1, h.2.after⟩
  | replicated => exact ⟨h.1, Nat.le_add_right_of_le h.2⟩

theorem HbPc.Within.after {pc : HbPc} (h : pc.Within L) : pc.Within (L.after k) := by
  cases pc with
  | startSent | startWait => exact ⟨Nat.le_add_right_of_le h.1, Nat.le_add_right_of_le h.2⟩
  | choosing => exact ViewChangeInfo.Within.after h
  | _ => trivial

theorem Replica.Within.after {r : Replica} (h : r.Within L) : r.Within (L.after k) where
  id := Nat.le_add_right_of_le h.id
  viewNum := Nat.le_add_right_of_le h.viewNum
  opNum := Nat.le_add_right_of_le h.opNum
  commitNum := Nat.le_add_right_of_le h.commitNum
  log := h.log.after
  kvMap := h.kvMap
  queue := fun p hp => (h.queue p hp).after
  ppit := fun p hp => (h.ppit p hp).after
  client := h.client.after
  hb := h.hb.after
  votes := fun v info hi => (h.votes v info hi).after
  starts := fun v info hi => (h.starts v info hi).after
  recReqs := fun req hr => (h.recReqs req hr).after
  prr := fun req hr => (h.prr req hr).after
  resps := fun t resp hr => (h.resps t resp hr).after

theorem within_init {n i : Nat} (hi : i ≤ L.num) : (Replica.init n i).Within L := by
  constructor <;> simp [Replica.init, ClientPc.Within, HbPc.Within, InMemOpLogHandler.Within, KvMap.Within,
    InMemOpLogHandler.empty, InMemOpLogHandler.getLogEntry, hi]

theorem within_recovering {n i : Nat} {flag : Bool} (hi : i ≤ L.num) : (Replica.recovering n i flag).Within L :=
  { within_init (n := n) hi with }

/-! ## The log and the store -/

theorem InMemOpLogHandler.Within.push {h : InMemOpLogHandler} (hw : h.Within L) (hk : 1 ≤ k) {e : LogEntry}
    (he : e.Within (L.after k)) : (h.push e).Within (L.after k) := by
  refine ⟨?_, fun n e' he' => ?_⟩
  · have := hw.1
    simp only [InMemOpLogHandler.opNums_push, List.length_append, List.length_singleton, Limits.after]
    omega
  · rw [InMemOpLogHandler.getLogEntry_push] at he'
    split at he'
    · cases he'
      exact he
    · exact hw.after.2 n e' he'

theorem InMemOpLogHandler.Within.commit {h h' : InMemOpLogHandler} (hw : h.Within L) {n : Nat}
    (hc : h.commit n = some h') : h'.Within L := by
  obtain ⟨e, he, hn, hall⟩ := InMemOpLogHandler.commit_eq_some hc
  refine ⟨hn ▸ hw.1, fun m e' he' => ?_⟩
  rw [hall m] at he'
  split at he'
  · cases he'
    exact hw.2 n e he
  · exact hw.2 m e' he'

theorem OpLog.Within.setLog {log : OpLog} (h : log.Within L) : (InMemOpLogHandler.setLog log).Within L := by
  refine ⟨?_, fun n e he => h.2 e (InMemOpLogHandler.mem_of_getLogEntry_setLog he).1⟩
  rw [InMemOpLogHandler.opNums_setLog, List.length_map]
  exact h.1

theorem InMemOpLogHandler.Within.getLog {h : InMemOpLogHandler} (hw : h.Within L) : OpLog.Within L h.getLog := by
  refine ⟨?_, fun e he => hw.2 _ e (InMemOpLogHandler.mem_getLog.1 he)⟩
  rw [← List.length_map (f := LogEntry.opNum), InMemOpLogHandler.map_opNum_getLog]
  exact hw.1

theorem KvMap.Within.apply {kvMap : KvMap} (h : KvMap.Within L kvMap) {op : Op} (ho : L.op op) :
    KvMap.Within L (op.apply kvMap) := by
  intro key val hl
  obtain ⟨opType, kvPair⟩ := op
  cases opType with
  | update =>
    by_cases hk : key = kvPair.key
    · subst hk
      rw [Op.apply, KvMemStore.setInt, Finmap.lookup_insert] at hl
      cases hl
      exact ho
    · rw [Op.apply, KvMemStore.setInt, Finmap.lookup_insert_of_ne _ hk] at hl
      exact h key val hl
  | delete =>
    by_cases hk : key = kvPair.key
    · subst hk
      rw [Op.apply, KvMemStore.removeInt, Finmap.lookup_erase] at hl
      cases hl
    · rw [Op.apply, KvMemStore.removeInt, Finmap.lookup_erase_ne hk] at hl
      exact h key val hl

theorem KvMap.Within.replay {log : InMemOpLogHandler} (hw : log.Within L) : ∀ {is : List Nat} {kvMap kvMap' : KvMap}
    {ops : List (Nat × Op)}, KvMap.Within L kvMap → MetaDR.replay log is kvMap = some (kvMap', ops) →
      KvMap.Within L kvMap'
  | [], _, _, _, h, hr => by cases hr; exact h
  | i :: is, kvMap, kvMap', ops, h, hr => by
    unfold MetaDR.replay at hr
    split at hr
    · cases hr
    · rename_i e he
      split at hr
      · obtain ⟨⟨m, ops'⟩, hm, hp⟩ := Option.map_eq_some_iff.1 hr
        cases hp
        exact KvMap.Within.replay hw (h.apply (hw.2 i e he).1) hm
      · exact KvMap.Within.replay hw h hr

theorem KvMap.Within.recover {log : OpLog} (hw : log.Within L) {kvMap : KvMap} (h : KvMap.Within L kvMap) :
    KvMap.Within L (Replica.recoverStateFromLog kvMap log) := by
  replace hw := hw.2
  unfold Replica.recoverStateFromLog
  induction log generalizing kvMap with
  | nil => exact h
  | cons e es ih =>
    rw [List.foldl_cons]
    refine ih ?_ (fun e' he' => hw e' (List.mem_cons_of_mem _ he'))
    split
    · exact h.apply (hw e List.mem_cons_self).1
    · exact h

theorem Mutation.leave_within {kvMap : KvMap} (h : KvMap.Within L kvMap) {m : Mutation} (hm : L.op m.op) :
    KvMap.Within L (m.leave kvMap) := by
  have heq : m.leave kvMap = m.op.apply kvMap := by cases m <;> rfl
  rw [heq]
  exact h.apply hm

theorem PrepInfo.Within.entry {p : PrepInfo} (h : p.Within L) : p.entry.Within L := ⟨h.op, h.opNum⟩

/-! ## The sections and the handlers -/

/-- The state `updateNewView` leaves, before it tidies up. -/
theorem Replica.Within.adopted {r : Replica} (h : r.Within L) {info : ViewStartInfo} (hi : info.Within L)
    {kvMap : KvMap} {ops : List (Nat × Op)} (ha : r.Adopts info kvMap ops) : (r.adopted info kvMap).Within L :=
  { h with
    viewNum := hi.2.1
    opNum := hi.2.2.1
    commitNum := hi.2.2.2.1
    log := hi.1.setLog
    kvMap := h.kvMap.replay hi.1.setLog ha.replay
    hb := trivial
    votes := fun v x hx => (by simp [Replica.adopted] at hx)
    starts := fun v x hx => (by simp [Replica.adopted] at hx) }

theorem Replica.Within.tidied {r : Replica} (h : r.Within L) (now : Nat) : (r.tidied now).Within L := { h with }

theorem Replica.Within.sendTo {r : Replica} {i : Nat} {msg : Msg} (hm : msg.Within L) :
    ∀ q ∈ r.sendTo i msg, q.msg.Within L := by
  intro q hq
  rw [(Replica.mem_sendTo hq).1]
  exact hm

theorem Replica.Within.sendAll {r : Replica} {msg : Msg} (hm : msg.Within L) :
    ∀ q ∈ r.invokeForAllReplicas msg, q.msg.Within L := by
  intro q hq
  obtain ⟨i, -, rfl⟩ := List.mem_map.1 hq
  exact hm

theorem mem_insert_append {β : Type} {P : β → Prop} {m : Finmap (fun _ : Nat => List β)} {v : Nat} {b : β}
    (hm : ∀ w, ∀ x ∈ (m.lookup w).getD [], P x) (hb : P b) :
    ∀ w, ∀ x ∈ ((m.insert v ((m.lookup v).getD [] ++ [b])).lookup w).getD [], P x := by
  intro w x hx
  rw [lookup_insert_ite] at hx
  split at hx
  · rcases List.mem_append.1 hx with hx | hx
    · exact hm v x hx
    · rw [List.mem_singleton.1 hx]
      exact hb
  · exact hm w x hx

theorem noneSent {P : Packet → Prop} : ∀ q ∈ ([] : List Packet), P q := fun _ hq => absurd hq List.not_mem_nil

/-- The calls that meet `q` lead to operations the limits allow. -/
def Limits.Admits (L : Limits) (q : Req → Bool) : Prop :=
  ∀ pri kvMap req m u, q req = true → KvMap.Within L kvMap → req.front pri kvMap = .ok (.mutate m) →
    m.enter pri kvMap = .ok u → L.op m.op

/-- The info a replica votes with. -/
theorem Replica.Within.vote {r : Replica} (h : r.Within L) {newViewNum oldViewNum : Nat} (hv : newViewNum ≤ L.num)
    (ho : oldViewNum ≤ L.num) : (r.vote newViewNum oldViewNum).rep.Within L :=
  have hi : ViewChangeInfo.Within L ⟨newViewNum, r.log.getLog, oldViewNum, r.commitNum, r.commitNum, r.id⟩ :=
    ⟨h.log.getLog, hv, ho, h.commitNum, h.commitNum, h.id⟩
  { h with votes := mem_insert_append h.votes hi, hb := hi }

theorem Replica.Within.startInfo {r : Replica} (h : r.Within L) {candidate : ViewChangeInfo}
    (hc : candidate.Within L) : (r.startInfo candidate).Within L ∧ (r.viewStartInfo candidate).Within L :=
  ⟨⟨hc.1, hc.2.1, hc.2.2.2.1, hc.2.2.2.2.1, h.id⟩, ⟨hc.1.setLog.getLog, hc.2.1, hc.2.2.2.1, hc.2.2.2.2.1, h.id⟩⟩

theorem Replica.Within.recoverEnd {r : Replica} (h : r.Within L) {nonce now : Nat} {s : Step}
    (hs : r.recoverEnd nonce now = some s) : s.rep.Within L ∧ s.sent = [] := by
  unfold Replica.recoverEnd at hs
  dsimp only at hs
  split at hs
  · cases hs
  · cases hs
  · rename_i resp hp
    cases hs
    obtain ⟨pre, post, hl, -⟩ := Replica.pickResponse_eq_some hp
    have hr := h.resps nonce resp (by simp [hl])
    exact ⟨{ h with
      viewNum := hr.2.1
      opNum := hr.2.2.2.2.1
      commitNum := hr.2.2.2.2.2
      log := hr.1.setLog
      kvMap := h.kvMap.recover hr.1
      hb := trivial
      resps := fun t x hx => (by simp at hx) }, rfl⟩

/-- **A section keeps to the limits**, as far as it lets something be seen. -/
theorem Replica.Performs.within {r : Replica} {a : Act} {s : Step} {now : Nat} {q : Req → Bool} (h : r.Within L)
    (hq : L.Admits q) (ha : ∀ req, a = .clientCall req → q req = true) (hnow : now ≤ L.num)
    (p : r.Performs now a s) :
    s.rep.Within (L.after s.obs.length) ∧ ∀ x ∈ s.sent, x.msg.Within (L.after s.obs.length) := by
  cases p with
  | replied => exact ⟨h.after, noneSent⟩
  | locked req m u hc hf hu =>
    exact ⟨{ h.after with client := hq _ _ req m u (ha req rfl) h.kvMap hf hu }, noneSent⟩
  | refused req m =>
    exact ⟨{ h.after with opNum := Nat.add_le_add_right h.opNum 1, client := trivial }, noneSent⟩
  | prepared req m prepInfo hc hl hp hs hi =>
    have hm : L.op m.op := by have := h.client; rwa [hc] at this
    have hop : prepInfo.op = m.op := by subst hi; cases m <;> rfl
    have hw : prepInfo.Within (L.after 1) := {
      pair := by subst hi; cases m <;> rfl
      op := hop ▸ hm
      viewNum := by subst hi; exact h.after.viewNum
      opNum := by subst hi; exact Nat.add_le_add_right h.opNum 1
      commitNum := by subst hi; exact h.after.commitNum }
    refine ⟨{ h.after with
      opNum := Nat.add_le_add_right h.opNum 1
      log := ?_
      client := ⟨hm, hw⟩ }, Replica.Within.sendAll hw⟩
    rw [PrepInfo.append_eq]
    exact h.log.push (Nat.le_refl 1) hw.entry
  | waits req m prepInfo hc =>
    have hw := h.client
    rw [hc] at hw
    exact ⟨{ h.after with client := (show (ClientPc.waiting req m prepInfo).Within L from hw).after }, noneSent⟩
  | counted req m prepInfo log hc hn hl =>
    have hw := h.client
    rw [hc] at hw
    exact ⟨{ h.after with
      commitNum := hw.2.after.opNum
      log := (h.log.commit hl).after
      client := ⟨hw.1, hw.2.after.opNum⟩ }, Replica.Within.sendAll ⟨hw.2.after.viewNum, hw.2.after.opNum⟩⟩
  | woken req m prepInfo log hc hl =>
    have hw := h.client
    rw [hc] at hw
    exact ⟨{ h.after with
      commitNum := hw.2.after.opNum
      log := (h.log.commit hl).after
      client := ⟨hw.1, hw.2.after.opNum⟩ }, Replica.Within.sendAll ⟨hw.2.after.viewNum, hw.2.after.opNum⟩⟩
  | timedOut => exact ⟨{ h.after with client := trivial }, noneSent⟩
  | finished req m opNum hc =>
    have hw := h.client
    rw [hc] at hw
    exact ⟨{ h.after with kvMap := Mutation.leave_within h.kvMap hw.1, client := trivial }, noneSent⟩
  | popped prepInfo rest ppit hp hq ht =>
    have hall : ∀ x ∈ rest, x.Within L := fun x hx => h.queue x (hq ▸ List.mem_cons_of_mem _ hx)
    refine ⟨{ h.after with queue := fun x hx => (hall x hx).after, ppit := fun x hx => ?_ }, noneSent⟩
    obtain rfl | ⟨rfl, -⟩ := ht <;> cases hx
    exact (h.queue prepInfo (hq ▸ List.mem_cons_self)).after
  | acked prepInfo hp hl hn =>
    have hw := h.ppit prepInfo hp
    refine ⟨{ h.after with opNum := hw.after.opNum, log := ?_, ppit := fun x hx => (by cases hx) },
      Replica.Within.sendTo ⟨h.after.viewNum, hw.after.opNum, h.after.id⟩⟩
    rw [PrepInfo.append_eq]
    exact h.log.push (Nat.le_refl 1) hw.after.entry
  | enough | okCounted | unlistened => exact ⟨{ h.after with }, noneSent⟩
  | committed commitInfo log entry hi hl hv hn hlog he hc =>
    exact ⟨{ h.after with
      commitNum := Nat.add_le_add_right h.commitNum 1
      log := (h.log.commit hlog).after
      kvMap := h.kvMap.apply (h.log.2 _ entry he).1 }, noneSent⟩
  | beat => exact ⟨h.after, Replica.Within.sendAll ⟨h.after.viewNum, h.after.commitNum⟩⟩
  | entered =>
    have hv := Nat.add_le_add_right h.viewNum 1
    exact ⟨{ h.after with viewNum := hv, hb := ⟨hv, h.after.viewNum⟩ }, Replica.Within.sendAll ⟨hv, h.after.id⟩⟩
  | enteredJoined info kvMap ops hl hw hi hn hadopts =>
    have hv : r.viewNum + 1 ≤ L.num + ((r.entering.joined info kvMap ops now).obs.length + 1) := by
      have := h.viewNum
      omega
    have he : r.entering.Within (L.after ((r.entering.joined info kvMap ops now).obs.length + 1)) :=
      { h.after with viewNum := hv }
    exact ⟨(he.adopted (h.starts _ info hi).after hadopts).tidied now, noneSent⟩
  | startWaits newViewNum oldViewNum hb =>
    have hw := h.hb
    rw [hb] at hw
    exact ⟨{ h.after with hb := (show (HbPc.startWait newViewNum oldViewNum).Within L from hw).after }, noneSent⟩
  | votedAtOnce newViewNum oldViewNum hb =>
    have hw := h.hb
    rw [hb] at hw
    exact ⟨(Replica.Within.vote (r := { r with viewStartReqMap := r.viewStartReqMap.bump newViewNum }) { h with }
      hw.1 hw.2).after, noneSent⟩
  | voted newViewNum oldViewNum hb =>
    have hw := h.hb
    rw [hb] at hw
    exact ⟨(h.vote hw.1 hw.2).after, noneSent⟩
  | voteCounted | startCounted => exact ⟨{ h.after with }, noneSent⟩
  | nextCandidate info cnt newPriId call sent hb hc hs =>
    have hw := h.hb
    rw [hb] at hw
    refine ⟨{ h.after with hb := ViewChangeInfo.Within.after hw }, fun x hx => ?_⟩
    obtain rfl | ⟨-, rfl⟩ := hs
    · cases hx
    · obtain rfl := List.mem_singleton.1 hx
      exact (show ViewChangeInfo.Within L info from hw).after
  | choseSelf => exact ⟨{ h.after with hb := trivial }, noneSent⟩
  | chose info cnt newPriId call sent hb hc hs =>
    have hw := h.hb
    rw [hb] at hw
    refine ⟨{ h.after with hb := trivial }, fun x hx => ?_⟩
    obtain rfl | rfl := hs
    · cases hx
    · rw [List.mem_singleton.1 hx]
      exact ViewChangeInfo.Within.after hw
  | startedPrimary viewNum candidate kvMap ops hb hd hl hc hn hadopts =>
    have hcand := h.votes viewNum candidate (selectCandidate_mem hc)
    obtain ⟨hi, hsi⟩ := h.startInfo hcand
    exact ⟨((h.adopted hi hadopts).tidied now).after, Replica.Within.sendAll (ViewStartInfo.Within.after hsi)⟩
  | startedBackup viewNum info kvMap ops hb hd hi hn hadopts =>
    exact ⟨((h.adopted (h.starts viewNum info hi) hadopts).tidied now).after, noneSent⟩
  | gaveUp => exact ⟨{ h.after with hb := trivial }, noneSent⟩
  | recoverSent => exact ⟨{ h.after with hb := trivial }, Replica.Within.sendAll ⟨h.after.id, hnow⟩⟩
  | recoverWaits => exact ⟨{ h.after with hb := trivial }, noneSent⟩
  | recovered a nonce s hb hend =>
    obtain ⟨hw, hs⟩ := h.recoverEnd hend
    exact ⟨hw.after, hs ▸ noneSent⟩
  | recPopped req rest prr hp hq ht =>
    have hall : ∀ x ∈ rest, x.Within L := fun x hx => h.recReqs x (hq ▸ List.mem_cons_of_mem _ hx)
    refine ⟨{ h.after with recReqs := fun x hx => (hall x hx).after, prr := fun x hx => ?_ }, noneSent⟩
    obtain rfl | rfl := ht <;> cases hx
    exact (h.recReqs req (hq ▸ List.mem_cons_self)).after
  | recAnswered req hp =>
    have hreq := h.prr req hp
    refine ⟨{ h.after with prr := fun x hx => (by cases hx) }, Replica.Within.sendTo ?_⟩
    refine ⟨?_, h.viewNum, hreq.2, h.id, ?_, ?_⟩
    · dsimp only
      split
      · exact h.log.getLog
      · exact ⟨Nat.zero_le _, fun e he => (by cases he)⟩
    · dsimp only
      split
      · exact h.opNum
      · exact Nat.zero_le _
    · dsimp only
      split
      · exact h.commitNum
      · exact Nat.zero_le _

/-- **A handler keeps to the limits** its message keeps to. -/
theorem Replica.Handles.within {r : Replica} {msg : Msg} {s : Step} {now : Nat} (h : r.Within L) (hm : msg.Within L)
    (p : r.Handles now msg s) : s.rep.Within L ∧ s.sent = [] := by
  cases p with
  | ignored => exact ⟨h, rfl⟩
  | queued prepInfo =>
    refine ⟨{ h with queue := fun x hx => ?_ }, rfl⟩
    rcases List.mem_append.1 hx with hx | hx
    · exact h.queue x hx
    · rw [List.mem_singleton.1 hx]
      exact hm
  | okTested | heard | listens | viewStartReq => exact ⟨{ h with }, rfl⟩
  | voteStored info => exact ⟨{ h with votes := mem_insert_append h.votes hm }, rfl⟩
  | startStored info =>
    refine ⟨{ h with starts := fun w x hx => ?_ }, rfl⟩
    replace hx : (r.viewStartInfoMap.insert info.viewNum info).lookup w = some x := hx
    rw [lookup_insert_ite] at hx
    split at hx
    · cases hx
      exact hm
    · exact h.starts w x hx
  | recQueued req =>
    refine ⟨{ h with recReqs := fun x hx => ?_ }, rfl⟩
    rcases List.mem_append.1 hx with hx | hx
    · exact h.recReqs x hx
    · rw [List.mem_singleton.1 hx]
      exact hm
  | recStored resp => exact ⟨{ h with resps := mem_insert_append h.resps hm }, rfl⟩

end

/-! ## The runs -/

/-- The clock is not past `t`, and a client asks only what meets `q`. -/
def Event.asks (q : Req → Bool) (t : Nat) : Event → Bool
  | .act _ (.clientCall req) now => q req && decide (now ≤ t)
  | .act _ _ now => decide (now ≤ t)
  | _ => true

/-- **All runs whose client calls meet `q`**, as long as the clock is not past `t`. -/
abbrev Asking (n : Nat) (q : Req → Bool) (t : Nat) : Cluster → List Obs → Prop :=
  Run.Reach (Cluster.system n) (fun _ _ e => e.asks q t)

/-- An executed sequence of events is a run. -/
theorem exists_asking {n : Nat} {q : Req → Bool} {t : Nat} (es : List Event) (p : Cluster → List Obs → Bool)
    (h : (Run.exec (Cluster.system n) (fun _ _ e => e.asks q t) es (Cluster.init n) []).any
      (fun x => p x.1 x.2) = true) : ∃ c tr, Asking n q t c tr ∧ p c tr = true :=
  Run.exists_reach_of_exec es p h

structure Cluster.Within (n : Nat) (L : Limits) (c : Cluster) : Prop where
  reps : ∀ i, i < n → (c.reps i).Within L
  net : ∀ p ∈ c.net, p.msg.Within L

section

variable {n : Nat} {L : Limits} {c : Cluster}

theorem Cluster.Within.after {k : Nat} (h : c.Within n L) : c.Within n (L.after k) where
  reps := fun i hi => (h.reps i hi).after
  net := fun p hp => (h.net p hp).after

theorem Cluster.Within.setRep (h : c.Within n L) {i : Nat} {r : Replica} (hr : r.Within L) :
    (c.setRep i r).Within n L where
  reps := fun j hj => by
    rcases eq_or_ne j i with rfl | hij
    · rw [Cluster.setRep_reps_self]
      exact hr
    · rw [Cluster.setRep_reps_of_ne c r hij]
      exact h.reps j hj
  net := h.net

theorem Cluster.Within.down (h : c.Within n L) {i : Nat} (hi : i < n) : (c.down i).Within n L :=
  h.setRep { h.reps i hi with }

theorem Cluster.Within.settle (h : c.Within n L) {i : Nat} (hi : i < n) {o : Outcome} {c' : Cluster} {os : List Obs}
    (ho : ∀ s, o = .ok s →
      s.rep.Within (L.after s.obs.length) ∧ ∀ x ∈ s.sent, x.msg.Within (L.after s.obs.length))
    (hs : c.settle i o = some (c', os)) : c'.Within n (L.after os.length) := by
  cases o with
  | blocked => cases hs
  | abort =>
    cases hs
    exact (h.down hi).after
  | ok s =>
    cases hs
    obtain ⟨hr, hsent⟩ := ho s rfl
    refine { h.after.setRep hr with net := fun p hp => ?_ }
    rcases List.mem_append.1 hp with hp | hp
    · exact (h.net p hp).after
    · exact hsent p hp

/-- **A step keeps to the limits**, as far as it lets something be seen. -/
theorem Cluster.Within.step {q : Req → Bool} {t : Nat} {e : Event} {c' : Cluster} {os : List Obs} (h : c.Within n L)
    (hq : L.Admits q) (hn : n ≤ L.num) (ht : t ≤ L.num) (he : e.asks q t = true) (hs : c.step n e = some (c', os)) :
    c'.Within n (L.after os.length) := by
  cases e with
  | act i a now =>
    simp only [Cluster.step] at hs
    split at hs
    · rename_i hi
      obtain ⟨hreq, hnow⟩ : (∀ req, a = .clientCall req → q req = true) ∧ now ≤ t := by
        cases a with
        | clientCall req =>
          simp only [Event.asks, Bool.and_eq_true, decide_eq_true_eq] at he
          exact ⟨fun req' hr => (Act.clientCall.inj hr) ▸ he.1, he.2⟩
        | _ => exact ⟨fun req' hr => (by cases hr), of_decide_eq_true he⟩
      exact h.settle hi.1 (fun s hact => Replica.Performs.within (h.reps i hi.1) hq hreq (hnow.trans ht)
        (Replica.performs_of_act hact)) hs
    · cases hs
  | deliver p now =>
    simp only [Cluster.step] at hs
    split at hs
    · rename_i hp
      have hnet : Cluster.Within n L { c with net := c.net.erase p } :=
        { h with net := fun x hx => h.net x (List.mem_of_mem_erase hx) }
      refine hnet.settle hp.2.1 (fun s hact => ?_) hs
      obtain ⟨hw, hsent⟩ := Replica.Handles.within (h.reps _ hp.2.1) (h.net p hp.1) (Replica.handles_of_handle hact)
      exact ⟨hw.after, hsent ▸ noneSent⟩
    · cases hs
  | lose p =>
    simp only [Cluster.step] at hs
    split at hs
    · cases hs
      exact { h.after with net := fun x hx => (h.net x (List.mem_of_mem_erase hx)).after }
    · cases hs
  | crash i =>
    simp only [Cluster.step] at hs
    split at hs
    · rename_i hi
      cases hs
      exact (h.down hi.1).after
    · cases hs
  | restart i flag =>
    simp only [Cluster.step] at hs
    split at hs
    · rename_i hi
      cases hs
      exact (h.setRep (within_recovering (Nat.le_of_lt (hi.1.trans_le hn)))).after
    · cases hs

/-- **What everything carried is held to.** -/
theorem Asking.within {P : Op → Prop} {q : Req → Bool} {t : Nat} {tr : List Obs} (h : Asking n q t c tr)
    (hq : Limits.Admits ⟨P, 0, n + t⟩ q) : c.Within n ⟨P, tr.length, n + t + tr.length⟩ := by
  induction h with
  | init => exact ⟨fun i hi => within_init (Nat.le_add_right_of_le (Nat.le_add_right_of_le hi.le)), noneSent⟩
  | @step s s' tr os e _ hok hs ih =>
    have := ih.step (q := q) (t := t) hq (by dsimp only; omega) (by dsimp only; omega) hok hs
    rw [List.length_append]
    simpa only [Limits.after, Nat.add_assoc] using this

end

end MetaDR
