import MetaDR.Linear
/-!
# Serving — a majority that is in step serves

When the replicas of some majority are `NORMAL` in one view, at rest and at the same number, and the messages between
them go through, the primary answers any sequence of requests as one `KvMemStore` would, and all of them end with its
map (`majority_serves`), whatever the other replicas do or have done.
-/
namespace MetaDR

open Majority

/-- The replica is `NORMAL` in view `v` of primary `p`, has committed `k` operations, and has nothing under way but,
perhaps, its client's call. -/
structure Replica.AtRest (p v k : Nat) (kvMap : KvMap) (client : ClientPc) (r : Replica) : Prop where
  up : r.up = true
  status : r.status = .normal
  priId : r.priId = p
  viewNum : r.viewNum = v
  commitNum : r.commitNum = k
  kvMap : r.kvMap = kvMap
  client : r.client = client
  hb : r.hb = .idle
  ppit : r.ppit = none
  listener : r.listener = none
  prepReqQ : r.prepReqQ = []

/-- The replica has taken up the operation after its commit number. -/
structure Replica.Holding (p v k : Nat) (kvMap : KvMap) (client : ClientPc) (x : PrepInfo) (r : Replica) : Prop where
  rest : r.AtRest p v k kvMap client
  opNum : r.opNum = k + 1
  entry : r.log.getLogEntry (k + 1) = some x.entry

/-- Whether it counts as an answer, and of whom to what. -/
def Obs.answer : Obs → Option (Nat × Req × Result)
  | .replied r req res => some (r, req, res)
  | _ => none

def replies (tr : List Obs) : List (Nat × Req × Result) := tr.filterMap Obs.answer

@[simp] theorem replies_append (tr os : List Obs) : replies (tr ++ os) = replies tr ++ replies os :=
  List.filterMap_append

namespace Replica

variable {r : Replica} {p v k : Nat} {kvMap : KvMap} {x : PrepInfo}

theorem AtRest.repMutexFree (h : r.AtRest p v k kvMap .idle) : r.repMutexFree = true := by
  rw [Replica.repMutexFree, h.client, h.hb]
  rfl

theorem AtRest.handle_prepare (h : r.AtRest p v k kvMap .idle) (hv : x.viewNum = v) :
    r.handle 0 (.prepare x) = .ok (quiet { r with prepReqQ := [x] }) := by
  simp only [handle, h.listener, processPrepare, h.status, hv, h.viewNum, h.prepReqQ, ne_eq, not_true_eq_false,
    if_false, List.nil_append]

theorem act_prepCheck {rest : List PrepInfo} (hp : r.ppit = none) (hq : r.prepReqQ = x :: rest)
    (ht : ({ r with prepReqQ := rest } : Replica).prepInfoTest x = true) :
    r.act 0 .prepCheck = .ok (quiet { r with prepReqQ := rest, ppit := some x }) := by
  simp only [act, hp, hq, processPrepInfo]
  exact congrArg Outcome.ok (if_pos ht)

theorem act_prepLocked (hp : r.ppit = some x) (hfree : r.repMutexFree = true) (hn : x.opNum = r.opNum + 1) :
    r.act 0 .prepLocked = .ok
      ⟨{ r.endPoint r.priId with ppit := none, opNum := x.opNum, log := x.append r.log },
        r.sendTo r.priId (.prepareOk ⟨r.viewNum, x.opNum, r.id⟩), [.acked r.id x ⟨r.viewNum, x.opNum, r.id⟩]⟩ := by
  simp only [act, hp, hfree, if_true, processPrepInfoLocked, hn, ne_eq, not_true_eq_false, if_false, Outcome.ofOption]

theorem AtRest.handle_prepareOk {client : ClientPc} (h : r.AtRest p v k kvMap client) {resp : PrepResponse}
    (hv : resp.viewNum = v) :
    r.handle 0 (.prepareOk resp) = .ok (quiet { r with listener := some (.prepareOk resp) }) := by
  simp only [handle, h.listener, processPrepareOk, h.status, hv, h.viewNum, ne_eq, not_true_eq_false, if_false]

/-- The primary counts the answer it has taken up, or has enough. -/
theorem act_prepareOkCount (r : Replica) (resp : PrepResponse) : ∃ w os,
    ({ r with listener := some (.prepareOk resp) } : Replica).act 0 .prepareOkCount =
        .ok ⟨{ r with waitMap := w, listener := none }, [], os⟩ ∧
      replies os = [] ∧ (∀ R : Rules, ∀ tr r', os.all (R.obsOk tr r') = true) ∧
      (∀ t, t ≠ resp.opNum → w.cnt t = r.waitMap.cnt t) ∧
      (r.getMajorityCnt ≤ w.cnt resp.opNum ∨ w.cnt resp.opNum = r.waitMap.cnt resp.opNum + 1) := by
  simp only [act, prepareOkCount]
  split
  · rename_i hq
    refine ⟨_, [], rfl, rfl, fun _ _ _ => rfl, fun t _ => WaitMap.cnt_touch _ _ t, .inl (of_decide_eq_true hq)⟩
  · refine ⟨_, _, rfl, rfl, fun _ _ _ => rfl, fun t ht => ?_, .inr ?_⟩
    · rw [WaitMap.cnt_bump, if_neg ht, WaitMap.cnt_touch]
    · rw [WaitMap.cnt_bump, if_pos rfl, WaitMap.cnt_touch]

/-- Behind the own count, with enough answers. -/
theorem AtRest.act_replicateCount {req : Req} {m : Mutation} (h : r.AtRest p v k kvMap (.prepared req m x))
    {e : LogEntry} (he : r.log.getLogEntry x.opNum = some e) (hq : r.getMajorityCnt ≤ r.waitMap.cnt x.opNum + 1) :
    ∃ (log : InMemOpLogHandler) (w : WaitMap), r.act 0 .replicateCount = .ok
      ⟨{ r with log := log, commitNum := x.opNum, waitMap := w, client := .replicated req m x.opNum },
        r.invokeForAllReplicas (.commit ⟨x.viewNum, x.opNum⟩), [.quorum r.id x, .forgot r.id x.opNum]⟩ ∧
      ∀ t, t ≠ x.opNum → w.cnt t = r.waitMap.cnt t := by
  obtain ⟨log, hlog⟩ := InMemOpLogHandler.commit_isSome he
  refine ⟨log, (r.waitMap.bump x.opNum).erase x.opNum, ?_, fun t ht => ?_⟩
  · have hreached : ({ r with waitMap := r.waitMap.bump x.opNum } : Replica).quorumReached
        ((r.waitMap.bump x.opNum).cnt x.opNum) = true := by
      rw [quorumReached, decide_eq_true_eq, WaitMap.cnt_bump, if_pos rfl]
      exact hq
    have hact : r.act 0 .replicateCount = .ofOption (r.replicateCount req m x) := by simp only [act, h.client]
    rw [hact]
    unfold replicateCount
    dsimp only
    rw [if_pos hreached]
    simp only [replicateEnd, hlog]
    rfl
  · rw [WaitMap.cnt_erase, if_neg ht, WaitMap.cnt_bump, if_neg ht]

/-- A call that asks the store for a change sends the operation out under the next number. -/
theorem AtRest.begins (h : r.AtRest p v k kvMap .idle) (hop : r.opNum = k) (hid : r.id = p) {req : Req} {m : Mutation}
    (hf : req.front true kvMap = .ok (.mutate m)) (he : m.enter true kvMap = .ok ()) :
    r.act 0 (.clientCall req) = .ok (quiet { r with client := .locked req m }) ∧
    ∃ x : PrepInfo, x.viewNum = v ∧ x.opNum = k + 1 ∧ x.op = m.op ∧
      ({ r with client := .locked req m } : Replica).act 0 .replicateBegin = .ok
        ⟨{ r with
            opNum := r.opNum + 1, log := x.append r.log, waitMap := r.waitMap.touch x.opNum
            client := .prepared req m x }, r.invokeForAllReplicas (.prepare x), [.prepared r.id x]⟩ := by
  have hpri : r.isPrimary = true := by rw [isPrimary, decide_eq_true_eq, h.priId, hid]
  have hfree : ({ r with client := .locked req m } : Replica).repMutexFree = true := by
    simp only [Replica.repMutexFree, h.hb, Bool.and_self]
  refine ⟨by simp only [act, h.client, clientCall, hpri, h.kvMap, hf, he, Outcome.ofOption], ?_⟩
  have hact : ({ r with client := .locked req m } : Replica).act 0 .replicateBegin =
      .ofOption (({ r with client := .locked req m } : Replica).replicateBegin req m) := if_pos hfree
  have hrep : ∀ x : PrepInfo, ({ r with client := .locked req m } : Replica).replicate req m x =
      ⟨{ r with
          opNum := r.opNum + 1, log := x.append r.log, waitMap := r.waitMap.touch x.opNum
          client := .prepared req m x }, r.invokeForAllReplicas (.prepare x), [.prepared r.id x]⟩ := fun x =>
    if_neg (by simp [h.status])
  rw [hact]
  cases m with
  | set key val =>
    refine ⟨r.mkPrepInfo ⟨key, val⟩ .update, h.viewNum, congrArg Nat.succ hop, rfl, ?_⟩
    rw [← hrep]
    exact congrArg Outcome.ofOption (if_pos hpri)
  | remove key =>
    refine ⟨r.mkPrepInfo ⟨key, []⟩ .delete, h.viewNum, congrArg Nat.succ hop, rfl, ?_⟩
    rw [← hrep]
    exact congrArg Outcome.ofOption (if_pos hpri)

/-- Told of a later number, a backup commits the one after its own. -/
theorem act_commitLocked {m : Nat} (hli : r.listener = some (.commit ⟨r.viewNum, m⟩)) (hm : r.commitNum < m)
    (hfree : r.repMutexFree = true) (hc : r.client = .idle) {e : LogEntry}
    (he : r.log.getLogEntry (r.commitNum + 1) = some e) :
    ∃ log, r.act 0 .commitLocked = .ok
      ⟨{ r with listener := none, commitNum := r.commitNum + 1, log := log, kvMap := e.op.apply r.kvMap }, [],
        [.applied r.id (r.commitNum + 1) e.op]⟩ := by
  obtain ⟨log, hlog⟩ := InMemOpLogHandler.commit_isSome he
  obtain ⟨e', he', -, hget⟩ := InMemOpLogHandler.commit_eq_some hlog
  obtain rfl := Option.some.inj (he.symm.trans he')
  have hentry : log.getLogEntry (r.commitNum + 1) = some { e with committed := true } := by rw [hget, if_pos rfl]
  have hhas : r.log.hasEntry (r.commitNum + 1) = true := InMemOpLogHandler.hasEntry_iff.2 ⟨e, he⟩
  refine ⟨log, ?_⟩
  simp only [act, hli, hfree, if_true, processCommitLocked]
  rw [if_neg (by simp), if_neg (by simpa using fun _ => hm), if_pos hm]
  simp only [hhas, Bool.true_eq_false, if_false, hlog, hentry, Outcome.withStore, hc]
  rfl

end Replica

section

variable {n : Nat} {R : Rules} {A : Event → Prop} {b : Cluster × List Obs} {c : Cluster} {tr : List Obs}
  {Q : Finset Nat}

theorem Cluster.step_act {i t : Nat} {a : Act} {s : Step} (hi : i < n) (hup : (c.reps i).up = true)
    (ha : (c.reps i).act t a = .ok s) :
    c.step n (.act i a t) = some ({ c.setRep i s.rep with net := c.net ++ s.sent }, s.obs) := by
  simp only [step, hi, hup, and_self, if_true, ha, settle]

/-- A section of a thread, as a step of the run. -/
theorem GoesOn.act (h : GoesOn n R A b c tr) {i t : Nat} {a : Act} {s : Step} (hA : A (.act i a t)) (hi : i < n)
    (hup : (c.reps i).up = true) (ha : (c.reps i).act t a = .ok s) (he : R.eventOk (c.reps i) (.act i a t) = true)
    (ho : s.obs.all (R.obsOk tr (c.reps i)) = true) :
    ∃ c', GoesOn n R A b c' (tr ++ s.obs) ∧ c'.reps i = s.rep ∧ (∀ j, j ≠ i → c'.reps j = c.reps j) ∧
      c'.net = c.net ++ s.sent := by
  have hs := Cluster.step_act hi hup ha
  refine ⟨_, h.step (e := .act i a t) hA ?_ hs, c.setRep_reps_self i _, fun j hj => c.setRep_reps_of_ne _ hj, rfl⟩
  simp only [Rules.allowed, Event.target, he, hs, ho, Bool.and_self]

/-- A message that is taken up, as a step of the run. -/
theorem GoesOn.deliver (h : GoesOn n R A b c tr) {q : Packet} {t : Nat} {s : Step} (hA : A (.deliver q t))
    (hq : q ∈ c.net) (hi : q.dst < n) (hup : (c.reps q.dst).up = true) (ha : (c.reps q.dst).handle t q.msg = .ok s)
    (ho : s.obs.all (R.obsOk tr (c.reps q.dst)) = true) :
    ∃ c', GoesOn n R A b c' (tr ++ s.obs) ∧ c'.reps q.dst = s.rep ∧ (∀ j, j ≠ q.dst → c'.reps j = c.reps j) ∧
      c'.net = c.net.erase q ++ s.sent := by
  have hs : c.step n (.deliver q t) =
      some ({ c.setRep q.dst s.rep with net := c.net.erase q ++ s.sent }, s.obs) := by
    simp only [Cluster.step, hq, hi, hup, and_self, if_true, ha, Cluster.settle]
    rfl
  refine ⟨_, h.step (e := .deliver q t) hA ?_ hs, c.setRep_reps_self _ _, fun j hj => c.setRep_reps_of_ne _ hj, rfl⟩
  simp only [Rules.allowed, Event.target, Rules.eventOk, hs, ho, Bool.and_self]

/-- The operation is sent out; the backups `taken` have taken it up and answered, those `todo` have it before them. -/
structure Cluster.Sending (c : Cluster) (p v k : Nat) (kvMap : KvMap) (req : Req) (m : Mutation) (x : PrepInfo)
    (todo taken : List Nat) : Prop where
  primary : (c.reps p).Holding p v k kvMap (.prepared req m x) x
  counted : (c.reps p).getMajorityCnt ≤ (c.reps p).waitMap.cnt (k + 1) ∨ taken.length ≤ (c.reps p).waitMap.cnt (k + 1)
  uncounted : ∀ t, k + 1 < t → (c.reps p).waitMap.cnt t = 0
  todo : ∀ q ∈ todo, (c.reps q).AtRest p v k kvMap .idle ∧ (c.reps q).opNum = k ∧ ⟨q, .prepare x⟩ ∈ c.net
  taken : ∀ q ∈ taken, (c.reps q).Holding p v k kvMap .idle x

/-- A backup in step takes an operation up, with the message it has before it, and answers. -/
theorem Replica.AtRest.takes (hR : R.atomic = true ∨ R.peersKept = true) (h : GoesOn n R (Event.Among Q) b c tr)
    (hQ : ∀ q ∈ Q, q < n) {p v k q : Nat}
    {kvMap : KvMap} {x : PrepInfo} (hrest : (c.reps q).AtRest p v k kvMap .idle) (hop : (c.reps q).opNum = k)
    (hx : ⟨q, .prepare x⟩ ∈ c.net) (hv : x.viewNum = v) (hn : x.opNum = k + 1) (hp : p ∈ Q) (hq : q ∈ Q) (hne : q ≠ p) :
    ∃ c' os, GoesOn n R (Event.Among Q) b c' (tr ++ os) ∧ (c'.reps q).Holding p v k kvMap .idle x ∧
      (∀ j, j ≠ q → c'.reps j = c.reps j) ∧
      c'.net = c.net.erase ⟨q, .prepare x⟩ ++ [⟨p, .prepareOk ⟨v, k + 1, q⟩⟩] ∧ replies os = [] := by
  have hid := h.runs.moves.id_eq q
  have hqn := hQ q hq
  have hmem : p ∈ (c.reps q).replicas := ((h.runs.moves.peers hR).1 q).mem.2 ⟨hQ p hp, hne.symm⟩
  have hfree := hrest.repMutexFree
  obtain ⟨c₁, h₁, hq₁, ho₁, hn₁⟩ := h.deliver (q := ⟨q, .prepare x⟩) hq hx hqn hrest.up (hrest.handle_prepare hv) rfl
  have hother₁ : ∀ j, j ≠ q → c₁.reps j = c.reps j := ho₁
  have hq₁ : c₁.reps q = { c.reps q with prepReqQ := [x] } := hq₁
  generalize c.reps q = r at *
  have htest : ∀ l pp, ({ r with prepReqQ := l, ppit := pp } : Replica).prepInfoTest x = true := fun l pp =>
    Replica.prepInfoTest_eq_true.2 ⟨by rw [hid, hrest.priId]; exact hne, hrest.status, hv.trans hrest.viewNum.symm⟩
  obtain ⟨c₂, h₂, hq₂, ho₂, hn₂⟩ := h₁.act (i := q) (a := .prepCheck) hq hqn (by rw [hq₁]; exact hrest.up)
    (by rw [hq₁]; exact Replica.act_prepCheck hrest.ppit rfl (htest [] r.ppit)) rfl rfl
  have hq₂ : c₂.reps q = { r with prepReqQ := [], ppit := some x } := hq₂
  have hok : R.eventOk { r with prepReqQ := [], ppit := some x } (.act q .prepLocked 0) = true := by
    show ((!R.atomic || ({ r with prepReqQ := [], ppit := some x } : Replica).prepInfoTest x) &&
      (!R.peersKept || decide (r.priId ∈ r.replicas))) = true
    rw [htest, hrest.priId, decide_eq_true hmem, Bool.or_true, Bool.or_true, Bool.and_self]
  obtain ⟨c₃, h₃, hq₃, ho₃, hn₃⟩ := h₂.act (i := q) (a := .prepLocked) hq hqn (by rw [hq₂]; exact hrest.up)
    (by rw [hq₂]; exact Replica.act_prepLocked rfl hfree (hn.trans (congrArg Nat.succ hop.symm)))
    (by rw [hq₂]; exact hok) rfl
  refine ⟨c₃, _, by rw [← List.append_assoc, ← List.append_assoc]; exact h₃, ?_, fun j hj => ?_, ?_, rfl⟩
  · rw [hq₃]
    refine ⟨⟨hrest.up, hrest.status, hrest.priId, hrest.viewNum, hrest.commitNum, hrest.kvMap, hrest.client, hrest.hb,
      rfl, hrest.listener, rfl⟩, hn, ?_⟩
    simp [PrepInfo.append_eq, hn]
  · rw [ho₃ j hj, ho₂ j hj, hother₁ j hj]
  · rw [hn₃, hn₂, hn₁]
    simp [Replica.quiet, Replica.sendTo, hrest.priId, hmem, hid, hne.symm, hrest.viewNum, hn]

/-- The next backup takes the operation up, and the primary its answer. -/
theorem Cluster.Sending.next (hR : R.atomic = true ∨ R.peersKept = true) (h : GoesOn n R (Event.Among Q) b c tr)
    (hQ : ∀ q ∈ Q, q < n) {p v k q : Nat}
    {kvMap : KvMap} {req : Req} {m : Mutation} {x : PrepInfo} {todo taken : List Nat}
    (hS : c.Sending p v k kvMap req m x (q :: todo) taken) (hv : x.viewNum = v) (hn : x.opNum = k + 1) (hp : p ∈ Q)
    (hq : q ∈ Q) (hnd : (q :: todo).Nodup) (hpd : p ∉ q :: todo) (hpt : p ∉ taken) (hdis : ∀ j ∈ taken, j ≠ q) :
    ∃ c' os, GoesOn n R (Event.Among Q) b c' (tr ++ os) ∧ c'.Sending p v k kvMap req m x todo (q :: taken) ∧
      replies os = [] := by
  obtain ⟨hrest, hop, hx⟩ := hS.todo q List.mem_cons_self
  obtain ⟨hqt, -⟩ := List.nodup_cons.1 hnd
  have hne : q ≠ p := fun he => hpd (he ▸ List.mem_cons_self)
  obtain ⟨c₁, os₁, h₁, hhold, ho₁, hn₁, hr₁⟩ := hrest.takes hR h hQ hop hx hv hn hp hq hne
  have hp₁ : c₁.reps p = c.reps p := ho₁ p hne.symm
  have hpk : (⟨p, .prepareOk ⟨v, k + 1, q⟩⟩ : Packet) ∈ c₁.net := by
    rw [hn₁]
    exact List.mem_append_right _ List.mem_cons_self
  have hheld := hS.primary.rest
  obtain ⟨c', h', hp', ho', hn'⟩ := h₁.deliver (q := ⟨p, .prepareOk ⟨v, k + 1, q⟩⟩) hp hpk (hQ p hp)
    (by rw [hp₁]; exact hheld.up) (by rw [hp₁]; exact hheld.handle_prepareOk rfl) rfl
  have hp' : c'.reps p = { c.reps p with listener := some (.prepareOk ⟨v, k + 1, q⟩) } := hp'
  have ho' : ∀ j, j ≠ p → c'.reps j = c₁.reps j := ho'
  obtain ⟨w, os₂, hact, hr₂, hok, hw, hcnt⟩ := (c.reps p).act_prepareOkCount ⟨v, k + 1, q⟩
  obtain ⟨c₂, h₂, hp₂, ho₂, hn₂⟩ := h'.act (i := p) (a := .prepareOkCount) hp (hQ p hp) (by rw [hp']; exact hheld.up)
    (by rw [hp']; exact hact) (by simp [Rules.eventOk, hp', hheld.status, hheld.viewNum]) (hok R _ _)
  have ho₂ : ∀ j, j ≠ p → c₂.reps j = c₁.reps j := fun j hj => (ho₂ j hj).trans (ho' j hj)
  have hnet : ∀ j ∈ todo, (⟨j, .prepare x⟩ : Packet) ∈ c.net → (⟨j, .prepare x⟩ : Packet) ∈ c₂.net := fun j hj hin => by
    have hjq : j ≠ q := fun he => hqt (he ▸ hj)
    rw [hn₂, hn', hn₁]
    refine List.mem_append_left _ (List.mem_append_left _ ((List.mem_erase_of_ne (by simp)).2
      (List.mem_append_left _ ?_)))
    exact (List.mem_erase_of_ne (fun he => hjq (congrArg Packet.dst he))).2 hin
  obtain ⟨hr, ho, he⟩ := hS.primary
  refine ⟨c₂, os₁ ++ ([] ++ os₂), by rw [← List.append_assoc, ← List.append_assoc]; exact h₂,
    ⟨⟨?_, by rw [hp₂]; exact ho, by rw [hp₂]; exact he⟩, ?_, fun t ht => ?_, fun j hj => ?_, fun j hj => ?_⟩,
    by rw [replies_append, replies_append, hr₁, hr₂]; rfl⟩
  · rw [hp₂]
    exact ⟨hr.up, hr.status, hr.priId, hr.viewNum, hr.commitNum, hr.kvMap, hr.client, hr.hb, hr.ppit, rfl,
      hr.prepReqQ⟩
  · rw [hp₂]
    rcases hcnt with hcnt | hcnt
    · exact .inl hcnt
    · rcases hS.counted with hge | hge
      · exact .inl (hge.trans (by rw [hcnt]; exact Nat.le_succ _))
      · exact .inr (by rw [hcnt, List.length_cons]; exact Nat.succ_le_succ hge)
  · rw [hp₂]
    exact (hw t (by show t ≠ k + 1; omega)).trans (hS.uncounted t ht)
  · obtain ⟨hr', ho', hx'⟩ := hS.todo j (List.mem_cons_of_mem _ hj)
    have hjp : j ≠ p := fun he => hpd (List.mem_cons_of_mem _ (he ▸ hj))
    have hjq : j ≠ q := fun he => hqt (he ▸ hj)
    rw [ho₂ j hjp, ho₁ j hjq]
    exact ⟨hr', ho', hnet j hj hx'⟩
  · rcases List.mem_cons.1 hj with rfl | hj
    · rw [ho₂ j hne]
      exact hhold
    · rw [ho₂ j (fun he => hpt (he ▸ hj)), ho₁ j (hdis j hj)]
      exact hS.taken j hj

/-- All the backups take the operation up. -/
theorem Cluster.Sending.all (hR : R.atomic = true ∨ R.peersKept = true) {p v k : Nat} {kvMap : KvMap} {req : Req}
    {m : Mutation} {x : PrepInfo} (hv : x.viewNum = v) (hn : x.opNum = k + 1) (hQ : ∀ q ∈ Q, q < n) (hp : p ∈ Q) :
    ∀ {todo taken : List Nat} {c : Cluster} {tr : List Obs}, GoesOn n R (Event.Among Q) b c tr →
      c.Sending p v k kvMap req m x todo taken → (∀ q ∈ todo, q ∈ Q) → (todo ++ taken).Nodup → p ∉ todo ++ taken →
      ∃ c' os taken', GoesOn n R (Event.Among Q) b c' (tr ++ os) ∧ c'.Sending p v k kvMap req m x [] taken' ∧
        (todo ++ taken).Perm taken' ∧ replies os = [] := by
  intro todo taken c tr h hS hlt hnd hpn
  obtain ⟨c', os, h', taken', hS', -, hperm, hr⟩ := Run.Onward.sweep
    (I := fun l c' tr' => ∃ taken', c'.Sending p v k kvMap req m x l taken' ∧ (∀ q ∈ l, q ∈ Q) ∧
      (todo ++ taken).Perm (l ++ taken') ∧ replies tr' = replies tr)
    (fun q l c₁ tr₁ h₁ hI => by
      obtain ⟨taken₁, hS₁, hlt₁, hperm, hr⟩ := hI
      have hpn₁ : p ∉ q :: (l ++ taken₁) := fun hm => hpn (hperm.mem_iff.2 hm)
      have hpt : p ∉ l ++ taken₁ := fun hm => hpn₁ (List.mem_cons_of_mem _ hm)
      obtain ⟨hqn, hnd'⟩ : q ∉ l ++ taken₁ ∧ (l ++ taken₁).Nodup := List.nodup_cons.1 (hperm.nodup_iff.1 hnd)
      obtain ⟨c₂, os₂, h₂, hS₂, hr₂⟩ := hS₁.next hR h₁ hQ hv hn hp (hlt₁ q List.mem_cons_self)
        (List.nodup_cons.2 ⟨fun hm => hqn (List.mem_append_left _ hm), (List.nodup_append.1 hnd').1⟩)
        (fun hm => (List.mem_cons.1 hm).elim (fun he => hpn₁ (he ▸ List.mem_cons_self))
          (fun hm => hpt (List.mem_append_left _ hm)))
        (fun hm => hpt (List.mem_append_right _ hm)) (fun j hj he => hqn (List.mem_append_right _ (he ▸ hj)))
      exact ⟨c₂, os₂, h₂, q :: taken₁, hS₂, fun j hj => hlt₁ j (List.mem_cons_of_mem _ hj),
        hperm.trans List.perm_middle.symm, by rw [replies_append, hr₂, List.append_nil, hr]⟩)
    todo h ⟨taken, hS, hlt, .refl _, rfl⟩
  rw [replies_append, List.append_right_eq_self] at hr
  exact ⟨c', os, taken', h', hS', hperm, hr⟩

/-- The operation has passed; the replicas `told` have applied it, those `todo` have the `Commit` before them. -/
structure Cluster.Telling (c : Cluster) (p v k : Nat) (kvMap : KvMap) (x : PrepInfo) (todo told : List Nat) : Prop where
  uncounted : ∀ t, k + 1 < t → (c.reps p).waitMap.cnt t = 0
  todo : ∀ q ∈ todo, (c.reps q).Holding p v k kvMap .idle x ∧ ⟨q, .commit ⟨v, k + 1⟩⟩ ∈ c.net
  told : ∀ q ∈ told, (c.reps q).AtRest p v (k + 1) (x.op.apply kvMap) .idle ∧ (c.reps q).opNum = k + 1

/-- The next backup applies the operation. -/
theorem Cluster.Telling.next (h : GoesOn n R (Event.Among Q) b c tr) (hQ : ∀ q ∈ Q, q < n) {p v k q : Nat}
    {kvMap : KvMap} {x : PrepInfo} {todo told : List Nat} (hT : c.Telling p v k kvMap x (q :: todo) told) (hq : q ∈ Q)
    (hne : q ≠ p) (hqt : q ∉ todo) (hdis : ∀ j ∈ told, j ≠ q) :
    ∃ c' os, GoesOn n R (Event.Among Q) b c' (tr ++ os) ∧ c'.Telling p v k kvMap x todo (q :: told) ∧
      replies os = [] := by
  obtain ⟨⟨hrest, hop, hent⟩, hx⟩ := hT.todo q List.mem_cons_self
  have hfree := hrest.repMutexFree
  obtain ⟨c₁, h₁, hq₁, ho₁, hn₁⟩ := h.deliver (q := ⟨q, .commit ⟨v, k + 1⟩⟩) (t := 0)
    (s := Replica.quiet { c.reps q with lastCommitTime := 0, listener := some (.commit ⟨v, k + 1⟩) }) hq hx (hQ q hq)
    hrest.up
    (by simp [Replica.handle, hrest.listener, Replica.processCommit, hrest.status]) rfl
  have ho₁ : ∀ j, j ≠ q → c₁.reps j = c.reps j := ho₁
  have hq₁ : c₁.reps q = { c.reps q with lastCommitTime := 0, listener := some (.commit ⟨v, k + 1⟩) } := hq₁
  obtain ⟨log, hact⟩ := Replica.act_commitLocked
    (r := { c.reps q with lastCommitTime := 0, listener := some (.commit ⟨v, k + 1⟩) }) (m := k + 1)
    (by simp [hrest.viewNum]) (Nat.lt_succ_of_le hrest.commitNum.le) hfree hrest.client
    (by simpa [hrest.commitNum] using hent)
  obtain ⟨c₂, h₂, hq₂, ho₂, hn₂⟩ := h₁.act (i := q) (a := .commitLocked) hq (hQ q hq) (by rw [hq₁]; exact hrest.up)
    (by rw [hq₁]; exact hact) (by rw [hq₁]; simp [Rules.eventOk, hrest.status]) rfl
  refine ⟨c₂, _, by rw [← List.append_assoc]; exact h₂, ⟨fun t ht => ?_, fun j hj => ?_, fun j hj => ?_⟩, rfl⟩
  · rw [ho₂ p hne.symm, ho₁ p hne.symm]
    exact hT.uncounted t ht
  · obtain ⟨hh, hx'⟩ := hT.todo j (List.mem_cons_of_mem _ hj)
    have hjq : j ≠ q := fun he => hqt (he ▸ hj)
    rw [ho₂ j hjq, ho₁ j hjq, hn₂, hn₁]
    refine ⟨hh, List.mem_append_left _ (List.mem_append_left _ ?_)⟩
    exact (List.mem_erase_of_ne (fun he => hjq (congrArg Packet.dst he))).2 hx'
  · rcases List.mem_cons.1 hj with rfl | hj
    · rw [hq₂]
      exact ⟨⟨hrest.up, hrest.status, hrest.priId, hrest.viewNum, congrArg Nat.succ hrest.commitNum,
        congrArg x.op.apply hrest.kvMap, hrest.client, hrest.hb, hrest.ppit, rfl, hrest.prepReqQ⟩, hop⟩
    · rw [ho₂ j (hdis j hj), ho₁ j (hdis j hj)]
      exact hT.told j hj

/-- All the backups apply the operation. -/
theorem Cluster.Telling.all (hQ : ∀ q ∈ Q, q < n) {p v k : Nat} {kvMap : KvMap} {x : PrepInfo} :
    ∀ {todo told : List Nat} {c : Cluster} {tr : List Obs}, GoesOn n R (Event.Among Q) b c tr →
      c.Telling p v k kvMap x todo told → (∀ q ∈ todo, q ∈ Q) → p ∉ todo → (todo ++ told).Nodup →
      ∃ c' os told', GoesOn n R (Event.Among Q) b c' (tr ++ os) ∧ c'.Telling p v k kvMap x [] told' ∧
        (todo ++ told).Perm told' ∧ replies os = [] := by
  intro todo told c tr h hT hlt hpn hnd
  obtain ⟨c', os, h', told', hT', -, hperm, hr⟩ := Run.Onward.sweep
    (I := fun l c' tr' => ∃ told', c'.Telling p v k kvMap x l told' ∧ (∀ q ∈ l, q ∈ Q ∧ q ≠ p) ∧
      (todo ++ told).Perm (l ++ told') ∧ replies tr' = replies tr)
    (fun q l c₁ tr₁ h₁ hI => by
      obtain ⟨told₁, hT₁, hlt₁, hperm, hr⟩ := hI
      obtain ⟨hqn, -⟩ : q ∉ l ++ told₁ ∧ _ := List.nodup_cons.1 (hperm.nodup_iff.1 hnd)
      obtain ⟨hq, hne⟩ := hlt₁ q List.mem_cons_self
      obtain ⟨c₂, os₂, h₂, hT₂, hr₂⟩ := hT₁.next h₁ hQ hq hne (fun hm => hqn (List.mem_append_left _ hm))
        (fun j hj he => hqn (List.mem_append_right _ (he ▸ hj)))
      exact ⟨c₂, os₂, h₂, q :: told₁, hT₂, fun j hj => hlt₁ j (List.mem_cons_of_mem _ hj),
        hperm.trans List.perm_middle.symm, by rw [replies_append, hr₂, List.append_nil, hr]⟩)
    todo h ⟨told, hT, fun q hq => ⟨hlt q hq, fun he => hpn (he ▸ hq)⟩, .refl _, rfl⟩
  rw [replies_append, List.append_right_eq_self] at hr
  exact ⟨c', os, told', h', hT', hperm, hr⟩

/-- **The replicas of `Q` are in step**: at rest at number `k` of the view of one of them, who has counted no answer for
a later number. -/
structure Cluster.Level (c : Cluster) (p v k : Nat) (kvMap : KvMap) (Q : Finset Nat) : Prop where
  primary : p ∈ Q
  rest : ∀ q ∈ Q, (c.reps q).AtRest p v k kvMap .idle
  opNum : ∀ q ∈ Q, (c.reps q).opNum = k
  uncounted : ∀ t, k < t → (c.reps p).waitMap.cnt t = 0

/-- What the rules let the primary do in step. -/
structure Rules.LetsServe (R : Rules) : Prop where
  kept : R.atomic = true ∨ R.peersKept = true
  assign : ∀ tr r, r.waitMap.cnt (r.opNum + 1) = 0 → R.assign tr r = true
  pass : ∀ k, R.pass k (k + 1) = true

/-- The call is under way, and the `Prepare`s are on theirs. -/
theorem Cluster.Level.begins (hR : R.LetsServe) (h : GoesOn n R (Event.Among Q) b c tr) {p v k : Nat} {kvMap : KvMap}
    (hL : c.Level p v k kvMap Q) (hQ : IsQuorum n Q) {req : Req} {m : Mutation}
    (hf : req.front true kvMap = .ok (.mutate m)) (he : m.enter true kvMap = .ok ()) :
    ∃ c' os x, GoesOn n R (Event.Among Q) b c' (tr ++ os) ∧
      c'.Sending p v k kvMap req m x (Q.erase p).toList [] ∧ x.viewNum = v ∧ x.opNum = k + 1 ∧ x.op = m.op ∧
      replies os = [] := by
  have hp := hQ.mem_lt hL.primary
  have hid := h.runs.moves.id_eq p
  have hpeers := (h.runs.moves.peers hR.kept).1 p
  have hrest := hL.rest p hL.primary
  have hop := hL.opNum p hL.primary
  have hcnt := hL.uncounted
  obtain ⟨hact, x, hv, hn, hx, hact'⟩ := hrest.begins hop hid hf he
  obtain ⟨c₁, h₁, hp₁, ho₁, hn₁⟩ := h.act (a := .clientCall req) hL.primary hp hrest.up hact rfl rfl
  have hp₁ : c₁.reps p = { c.reps p with client := .locked req m } := hp₁
  obtain ⟨c₂, h₂, hp₂, ho₂, hn₂⟩ := h₁.act (i := p) (a := .replicateBegin) hL.primary hp (by rw [hp₁]; exact hrest.up)
    (by rw [hp₁]; exact hact') rfl (by
      rw [hp₁]
      simp only [List.all_cons, List.all_nil, Bool.and_true]
      exact hR.assign _ _ (hcnt _ (by show k < (c.reps p).opNum + 1; omega)))
  have hp₂ : c₂.reps p = { c.reps p with
      opNum := (c.reps p).opNum + 1, log := x.append (c.reps p).log, waitMap := (c.reps p).waitMap.touch x.opNum
      client := .prepared req m x } := hp₂
  refine ⟨c₂, _, x, by rw [← List.append_assoc]; exact h₂, ⟨⟨?_, ?_, ?_⟩, .inr (Nat.zero_le _), fun t ht => ?_,
    fun q hq => ?_, fun q hq => by cases hq⟩, hv, hn, hx, rfl⟩
  · rw [hp₂]
    exact ⟨hrest.up, hrest.status, hrest.priId, hrest.viewNum, hrest.commitNum, hrest.kvMap, rfl, hrest.hb, hrest.ppit,
      hrest.listener, hrest.prepReqQ⟩
  · rw [hp₂]
    exact congrArg Nat.succ hop
  · rw [hp₂]
    simp [PrepInfo.append_eq, hn]
  · rw [hp₂]
    exact (WaitMap.cnt_touch _ _ t).trans (hcnt t (by omega))
  · obtain ⟨hqp, hqQ⟩ := Finset.mem_erase.1 (Finset.mem_toList.1 hq)
    rw [ho₂ q hqp, ho₁ q hqp, hn₂]
    refine ⟨hL.rest q hqQ, hL.opNum q hqQ, List.mem_append_right _ (Replica.mem_invokeForAllReplicas.2 ⟨rfl, ?_, ?_⟩)⟩
    · exact hpeers.mem.2 ⟨hQ.mem_lt hqQ, hqp⟩
    · rw [hid]
      exact hqp

/-- With the answers of a majority the call is answered, and the `Commit`s are on their way. -/
theorem Cluster.Sending.passes (hR : R.LetsServe) (h : GoesOn n R (Event.Among Q) b c tr) {p v k : Nat}
    {kvMap : KvMap} {req : Req} {m : Mutation} {x : PrepInfo} {taken : List Nat}
    (hS : c.Sending p v k kvMap req m x [] taken) (hv : x.viewNum = v) (hn : x.opNum = k + 1) (hx : x.op = m.op)
    (hQ : ∀ q ∈ Q, q < n) (hpQ : p ∈ Q) (hlt : ∀ q ∈ taken, q ∈ Q ∧ q ≠ p) (hlen : n / 2 ≤ taken.length) :
    ∃ c' os, GoesOn n R (Event.Among Q) b c' (tr ++ os) ∧ c'.Telling p v k kvMap x taken [p] ∧
      replies os = [(p, req, .err .none)] := by
  obtain ⟨⟨hrest, hop, hent⟩, hcounted, huncounted, -, htaken⟩ := hS
  have hp := hQ p hpQ
  have hid := h.runs.moves.id_eq p
  have hpeers := (h.runs.moves.peers hR.kept).1 p
  have hmaj := hpeers.majority hp
  obtain ⟨log, w, hact, hw⟩ := hrest.act_replicateCount (hn ▸ hent) (by rw [hn]; omega)
  obtain ⟨c₁, h₁, hp₁, ho₁, hn₁⟩ := h.act (i := p) (a := .replicateCount) hpQ hp hrest.up hact rfl (by
    simp only [List.all_cons, List.all_nil, Bool.and_true, Rules.obsOk, hrest.commitNum, hn, hR.pass])
  obtain ⟨c₂, h₂, hp₂, ho₂, hn₂⟩ := h₁.act (i := p) (t := 0) (a := .clientFinish) hpQ hp (by rw [hp₁]; exact hrest.up)
    (by rw [hp₁]; rfl) rfl rfl
  have hp₂ : c₂.reps p = { c.reps p with
      log := log, commitNum := x.opNum, waitMap := w, kvMap := m.leave (c.reps p).kvMap, client := .idle } := by
    rw [hp₂]
    rfl
  refine ⟨c₂, _, by rw [← List.append_assoc]; exact h₂, ⟨fun t ht => ?_, fun q hq => ?_, fun q hq => ?_⟩, ?_⟩
  · rw [hp₂]
    exact (hw t (by omega)).trans (huncounted t ht)
  · obtain ⟨hqn, hqp⟩ := hlt q hq
    rw [ho₂ q hqp, ho₁ q hqp, hn₂, hn₁, hv, hn]
    refine ⟨htaken q hq, List.mem_append_left _ (List.mem_append_right _ (Replica.mem_invokeForAllReplicas.2
      ⟨rfl, hpeers.mem.2 ⟨hQ q hqn, hqp⟩, ?_⟩))⟩
    rw [hid]
    exact hqp
  · rw [List.mem_singleton.1 hq, hp₂]
    exact ⟨⟨hrest.up, hrest.status, hrest.priId, hrest.viewNum, hn,
      by rw [hx, ← m.leave_eq]; exact congrArg m.leave hrest.kvMap, rfl, hrest.hb, hrest.ppit, hrest.listener,
      hrest.prepReqQ⟩, hop⟩
  · show [((c.reps p).id, req, Result.err .none)] = _
    rw [hid]

/-- **One call, answered as one store would**, and the replicas are in step again. -/
theorem Cluster.Level.serves (hR : R.LetsServe) (h : GoesOn n R (Event.Among Q) b c tr) {p v k : Nat} {kvMap : KvMap}
    (hL : c.Level p v k kvMap Q) (hQ : IsQuorum n Q) (hpath : PathStore kvMap) (req : Req) :
    ∃ c' os k' kvMap' res, GoesOn n R (Event.Among Q) b c' (tr ++ os) ∧ c'.Level p v k' kvMap' Q ∧
      serve true kvMap req .done = .ok (kvMap', res) ∧ replies os = [(p, req, res)] := by
  have hp := hQ.mem_lt hL.primary
  have hid := h.runs.moves.id_eq p
  have hrest := hL.rest p hL.primary
  obtain ⟨f, hf, hs⟩ := hpath.front req
  cases f with
  | reply res =>
    have hact : (c.reps p).act 0 (.clientCall req) = .ok ⟨c.reps p, [], [.replied p req res]⟩ := by
      have hpri : (c.reps p).isPrimary = true := by rw [Replica.isPrimary, decide_eq_true_eq, hrest.priId, hid]
      simp only [Replica.act, hrest.client, Replica.clientCall, hpri, hrest.kvMap, hf, Outcome.ofOption, hid]
    obtain ⟨c₁, h₁, hp₁, ho₁, -⟩ := h.act hL.primary hp hrest.up hact rfl rfl
    have hsame : ∀ q, c₁.reps q = c.reps q := fun q => by
      by_cases hq : q = p
      · rw [hq, hp₁]
      · exact ho₁ q hq
    refine ⟨c₁, _, k, kvMap, res, h₁, ⟨hL.primary, fun q hq => ?_, fun q hq => ?_, fun t ht => ?_⟩, ?_, rfl⟩
    · rw [hsame]
      exact hL.rest q hq
    · rw [hsame]
      exact hL.opNum q hq
    · rw [hsame]
      exact hL.uncounted t ht
    · rw [serve, hf]
      rfl
  | mutate m =>
    obtain ⟨he, -⟩ := hs
    have hcard : n / 2 ≤ (Q.erase p).toList.length := by
      rw [Finset.length_toList, Finset.card_erase_of_mem hL.primary]
      have := hQ.2
      omega
    have hlt : ∀ q ∈ Q, q < n := fun q hq => hQ.mem_lt hq
    have hmem : ∀ q ∈ (Q.erase p).toList, q ∈ Q ∧ q ≠ p := fun q hq => by
      obtain ⟨hne, hqQ⟩ := Finset.mem_erase.1 (Finset.mem_toList.1 hq)
      exact ⟨hqQ, hne⟩
    obtain ⟨c₁, os₁, x, h₁, hS₁, hv, hn, hx, hr₁⟩ := hL.begins hR h hQ hf he
    obtain ⟨c₂, os₂, taken, h₂, hS₂, hperm, hr₂⟩ := hS₁.all hR.kept hv hn hlt hL.primary h₁ (fun q hq => (hmem q hq).1)
      (by rw [List.append_nil]; exact Finset.nodup_toList _) (fun hm => (hmem p (by rwa [List.append_nil] at hm)).2 rfl)
    rw [List.append_nil] at hperm
    obtain ⟨c₃, os₃, h₃, hT₃, hr₃⟩ := hS₂.passes hR h₂ hv hn hx hlt hL.primary (fun q hq => hmem q (hperm.mem_iff.2 hq))
      (by rw [← hperm.length_eq]; exact hcard)
    have hpn : p ∉ taken := fun hm => (hmem p (hperm.mem_iff.2 hm)).2 rfl
    obtain ⟨c₄, os₄, told, h₄, hT₄, hperm₄, hr₄⟩ := hT₃.all hlt h₃ (fun q hq => (hmem q (hperm.mem_iff.2 hq)).1) hpn
      (List.nodup_append.2 ⟨hperm.nodup_iff.1 (Finset.nodup_toList _), List.nodup_singleton p,
        fun a ha b hb he => hpn (by rw [← List.mem_singleton.1 hb, ← he]; exact ha)⟩)
    have htold : ∀ q ∈ Q, q ∈ told := fun q hq => by
      refine hperm₄.mem_iff.1 ?_
      by_cases hqp : q = p
      · exact List.mem_append_right _ (hqp ▸ List.mem_singleton_self q)
      · exact List.mem_append_left _ (hperm.mem_iff.1 (Finset.mem_toList.2 (Finset.mem_erase.2 ⟨hqp, hq⟩)))
    refine ⟨c₄, os₁ ++ (os₂ ++ (os₃ ++ os₄)), k + 1, x.op.apply kvMap, .err .none, by simpa using h₄,
      ⟨hL.primary, fun q hq => (hT₄.told q (htold q hq)).1, fun q hq => (hT₄.told q (htold q hq)).2, hT₄.uncounted⟩,
      ?_, by simp [hr₁, hr₂, hr₃, hr₄]⟩
    rw [hpath.serve_of_front hf, hx]

/-- Any number of calls, one after the other. -/
theorem Cluster.Level.servesAll (hR : R.LetsServe) {p v : Nat} (hQ : IsQuorum n Q) :
    ∀ (reqs : List Req) {c : Cluster} {tr : List Obs} {k : Nat} {kvMap : KvMap}, GoesOn n R (Event.Among Q) b c tr →
      c.Level p v k kvMap Q → PathStore kvMap → ∃ c' os k' kvMap' ress,
        GoesOn n R (Event.Among Q) b c' (tr ++ os) ∧ c'.Level p v k' kvMap' Q ∧
        serveAll true kvMap (reqs.map (·, .done)) = .ok (kvMap', ress) ∧
        replies os = (reqs.zip ress).map (fun a => (p, a))
  | [], c, tr, k, kvMap, h, hL, _ => ⟨c, [], k, kvMap, [], by rwa [List.append_nil], hL, rfl, rfl⟩
  | req :: reqs, c, tr, k, kvMap, h, hL, hpath => by
    obtain ⟨c₁, os₁, k₁, kvMap₁, res, h₁, hL₁, hs₁, hr₁⟩ := hL.serves hR h hQ hpath req
    obtain ⟨kvMap₁', res', hs₁', hpath₁⟩ := hpath.serve req .done
    rw [hs₁] at hs₁'
    cases hs₁'
    obtain ⟨c₂, os₂, k₂, kvMap₂, ress, h₂, hL₂, hs₂, hr₂⟩ := Cluster.Level.servesAll hR hQ reqs h₁ hL₁ hpath₁
    refine ⟨c₂, os₁ ++ os₂, k₂, kvMap₂, res :: ress, by rw [← List.append_assoc]; exact h₂, hL₂, ?_, ?_⟩
    · simp only [List.map_cons, serveAll, hs₁, hs₂, bind, Except.bind]
    · rw [replies_append, hr₁, hr₂]
      rfl

end

theorem Rules.fresh_letsServe : Rules.fresh.LetsServe where
  kept := .inl rfl
  assign := fun _ _ h => decide_eq_true h
  pass := fun _ => decide_eq_true rfl

theorem Cluster.Level.pathStore {n p v k : Nat} {kvMap : KvMap} {Q : Finset Nat} {c : Cluster} {tr : List Obs}
    (hL : c.Level p v k kvMap Q) (h : Runs n Rules.fresh c tr) : PathStore kvMap := by
  obtain ⟨-, -, -, hpath⟩ := h.moves.storeAt_rep Rules.fresh_strict (Rules.fresh_gapless n) p
  rwa [(hL.rest p hL.primary).kvMap] at hpath

/-- **A majority in step serves any requests.**  From any state of a run in which the replicas of a majority are in
step, the run can go on, by steps of that majority only, so that the primary among them answers any requests, one after
the other, as one `KvMemStore` would, and all of them are in step with its map in the end. -/
theorem majority_serves {n p v k : Nat} {kvMap : KvMap} {Q : Finset Nat} {c : Cluster} {tr : List Obs}
    (h : Runs n Rules.fresh c tr) (hQ : IsQuorum n Q) (hL : c.Level p v k kvMap Q) (reqs : List Req) :
    ∃ es c' os k' kvMap' ress, (∀ e ∈ es, e.target ∈ Q) ∧
      Run.exec (Cluster.system n) (Rules.fresh.allowed n) es c tr = some (c', tr ++ os) ∧ c'.Level p v k' kvMap' Q ∧
      serveAll true kvMap (reqs.map (·, .done)) = .ok (kvMap', ress) ∧
      replies os = (reqs.zip ress).map (fun a => (p, a)) ∧ ∀ q ∈ Q, (c'.reps q).kvMap = kvMap' := by
  obtain ⟨c', os, k', kvMap', ress, h', hL', hs, hr⟩ :=
    Cluster.Level.servesAll Rules.fresh_letsServe hQ reqs h.onward hL (hL.pathStore h)
  obtain ⟨es, hes, he⟩ := h'.path
  exact ⟨es, c', os, k', kvMap', ress, hes, he, hL', hs, hr, fun q hq => (hL'.rest q hq).kvMap⟩

/-- At the start everybody is in step. -/
theorem level_init (n : Nat) {Q : Finset Nat} (h0 : 0 ∈ Q) : (Cluster.init n).Level 0 0 0 ∅ Q where
  primary := h0
  rest := fun _ _ => ⟨rfl, rfl, rfl, rfl, rfl, rfl, rfl, rfl, rfl, rfl, rfl⟩
  opNum := fun _ _ => rfl
  uncounted := fun t _ => WaitMap.cnt_empty t

theorem majority_serves_three : ∃ es c tr,
    Run.exec (Cluster.system 3) (Rules.fresh.allowed 3) es (Cluster.init 3) [] = some (c, tr) ∧
    replies tr = [(0, .create ⟨[slash, 120], [1]⟩, .err .none), (0, .get [slash, 120], .val [1])] ∧
    (c.reps 2).kvMap = Finmap.singleton [slash, 120] [1] := by
  obtain ⟨es, c, tr, -, kvMap, ress, -, h, -, hs, hr, hmap⟩ :=
    majority_serves (Q := {0, 2}) .init ⟨by decide, by decide⟩ (level_init 3 (by decide))
      [.create ⟨[slash, 120], [1]⟩, .get [slash, 120]]
  have hs' : serveAll true ∅ (([.create ⟨[slash, 120], [1]⟩, .get [slash, 120]] : List Req).map (·, .done)) =
      .ok (Finmap.singleton [slash, 120] [1], [.err .none, .val [1]]) := rfl
  obtain ⟨rfl, rfl⟩ := Prod.mk.inj (Except.ok.inj (hs.symm.trans hs'))
  exact ⟨es, c, tr, h, hr, hmap 2 (by decide)⟩

end MetaDR
