import MetaDR.Failover
/-!
# Rejoin — a replica that was down comes back into step

A process started again with `Recovering = true` asks everybody for their state, waits for the answers of a majority in
one view, the primary's among them, and takes the primary's log and numbers.  With a majority in step it ends in step
with them: same view, same log, same map (`rejoins`).
-/
namespace MetaDR

open Majority

/-- The answer of `processRecoveryReqInt`. -/
def Replica.answerTo (r : Replica) (nonce : Nat) : RecoveryResponse where
  viewNum := r.viewNum
  nonce := nonce
  replicaId := r.id
  isPrimary := decide (r.priId = r.id)
  opLog := if decide (r.priId = r.id) = true then r.log.getLog else []
  opNum := if decide (r.priId = r.id) = true then r.opNum else 0
  commitNum := if decide (r.priId = r.id) = true then r.commitNum else 0

/-- Its worker has no request before it. -/
structure Replica.Unasked (r : Replica) : Prop where
  recoveryReqQ : r.recoveryReqQ = []
  prr : r.prr = .popping

/-- Replica `i` has sent its requests under `nonce` and taken up the answers `resps`, all of view `v`. -/
structure Replica.Hearing (n i nonce v : Nat) (resps : List RecoveryResponse) (r : Replica) : Prop where
  up : r.up = true
  id_eq : r.id = i
  replicas_eq : r.replicas = peersOf n i
  status : r.status = .recovering
  kvMap : r.kvMap = ∅
  client : r.client = .idle
  hb : r.hb = .recoverSent nonce
  ppit : r.ppit = none
  listener : r.listener = none
  prepReqQ : r.prepReqQ = []
  viewNum : ∀ resp ∈ resps, resp.viewNum = v
  heard : (r.recoveryRespMap.lookup nonce).getD [] = resps
  counted : r.recoveryWaitMap.cnt nonce = resps.length
  views : r.respViewCnt = if resps = [] then [] else [(v, resps.length)]
  fromPri : (∃ resp ∈ resps, resp.isPrimary = true) → r.receivedRespFromPri = true

namespace Replica

variable {r : Replica} {n i nonce p v k : Nat} {kvMap : KvMap} {resps : List RecoveryResponse} {resp : RecoveryResponse}

theorem AtRest.handle_recoveryRequest (h : r.AtRest p v k kvMap .idle) (req : RecoveryRequest) :
    r.handle 0 (.recoveryRequest req) = .ok (quiet { r with recoveryReqQ := r.recoveryReqQ ++ [req] }) := by
  simp only [handle, h.listener, processRecoveryRequest, h.status, ne_eq, not_true_eq_false, if_false]

theorem AtRest.act_recReqCheck (h : r.AtRest p v k kvMap .idle) (hp : r.prr = .popping) {req : RecoveryRequest}
    {rest : List RecoveryRequest} (hq : r.recoveryReqQ = req :: rest) :
    r.act 0 .recReqCheck = .ok (quiet { r with recoveryReqQ := rest, prr := .checked req }) := by
  simp only [act, hp, hq, processRecoveryReqInt, h.status, ne_eq, not_true_eq_false, if_false]

theorem act_recReqLocked {req : RecoveryRequest} (hp : r.prr = .checked req) (hfree : r.repMutexFree = true)
    (hm : req.replicaId ∈ r.replicas) (hne : req.replicaId ≠ r.id) : r.act 0 .recReqLocked =
      .ok ⟨{ r with prr := .popping }, [⟨req.replicaId, .recoveryResponse (r.answerTo req.nonce)⟩], []⟩ := by
  simp only [act, hp, hfree, if_true, processRecoveryReqLocked]
  rw [endPoint_of_mem hm, sendTo_of_mem hm hne]
  rfl

theorem Hearing.handle_recoveryResponse (h : r.Hearing n i nonce v resps) (hn : resp.nonce = nonce)
    (hv : resp.viewNum = v) : ∃ r', r.handle 0 (.recoveryResponse resp) = .ok (quiet r') ∧
      r'.Hearing n i nonce v (resps ++ [resp]) := by
  have hact : r.handle 0 (.recoveryResponse resp) = .ok (r.processRecoveryResponse resp) := by
    simp only [handle, h.listener]
  refine ⟨_, hact.trans (congrArg Outcome.ok (if_neg (by simp [h.status]))), { h with
    viewNum := fun x hx => ?_, heard := ?_, counted := ?_, views := ?_, fromPri := ?_ }⟩
  · rcases List.mem_append.1 hx with hx | hx
    · exact h.viewNum x hx
    · rw [List.mem_singleton.1 hx]
      exact hv
  · show ((r.recoveryRespMap.insert resp.nonce _).lookup nonce).getD [] = _
    rw [hn, Finmap.lookup_insert, h.heard]
    rfl
  · show (r.recoveryWaitMap.bump resp.nonce).cnt nonce = _
    rw [hn, WaitMap.cnt_bump, if_pos rfl, h.counted, List.length_append, List.length_singleton]
  · show bumpView resp.viewNum r.respViewCnt = _
    have hne : resps ++ [resp] ≠ [] := List.append_ne_nil_of_right_ne_nil _ (List.cons_ne_nil _ _)
    rw [h.views, hv, if_neg hne]
    by_cases hr : resps = []
    · rw [if_pos hr, hr]
      rfl
    · rw [if_neg hr, bumpView, if_pos rfl, List.length_append, List.length_singleton]
  · rintro ⟨x, hx, hpri⟩
    show (r.receivedRespFromPri || resp.isPrimary) = true
    rcases List.mem_append.1 hx with hx | hx
    · rw [h.fromPri ⟨x, hx, hpri⟩, Bool.true_or]
    · rw [← List.mem_singleton.1 hx, hpri, Bool.or_true]

end Replica

/-- Among answers of one view, the first of a primary is taken. -/
theorem pickResponse_of_view {v : Nat} : ∀ {resps : List RecoveryResponse}, (∀ resp ∈ resps, resp.viewNum = v) →
    (∃ resp ∈ resps, resp.isPrimary = true) →
    ∃ resp ∈ resps, resp.isPrimary = true ∧ Replica.pickResponse v resps = some (some resp)
  | [], _, h => by
    obtain ⟨resp, hm, -⟩ := h
    cases hm
  | x :: resps, hv, h => by
    have hx := hv x List.mem_cons_self
    cases hpri : x.isPrimary with
    | true => exact ⟨x, List.mem_cons_self, hpri, by rw [Replica.pickResponse, if_pos ⟨hx, hpri⟩]⟩
    | false =>
      obtain ⟨y, hy, hyp⟩ := h
      obtain ⟨resp, hm, hrp, hpick⟩ := pickResponse_of_view (fun y hy => hv y (List.mem_cons_of_mem _ hy))
        ⟨y, (List.mem_cons.1 hy).resolve_left (fun he => by rw [← he, hyp] at hpri; cases hpri), hyp⟩
      refine ⟨resp, List.mem_cons_of_mem _ hm, hrp, ?_⟩
      rw [Replica.pickResponse, if_neg (by simp [hpri]), if_pos hx.le, hpick]

/-- With the answers of a majority, one of them the primary's, `recover` ends with it. -/
theorem Replica.Hearing.act_recoverTest {r : Replica} {n i nonce v : Nat} {resps : List RecoveryResponse}
    (h : r.Hearing n i nonce v resps) (hq : r.getMajorityCnt ≤ resps.length)
    (hpri : ∃ resp ∈ resps, resp.isPrimary = true) (now : Nat) :
    ∃ resp ∈ resps, resp.isPrimary = true ∧ r.act now .recoverTest = .ok (r.recoveredFrom resp now) := by
  obtain ⟨resp, hm, hrp, hpick⟩ := pickResponse_of_view h.viewNum hpri
  have hviews : r.respViewCnt = [(v, resps.length)] := by rw [h.views, if_neg (List.ne_nil_of_mem hm)]
  have hreached : r.quorumReached resps.length = true := decide_eq_true hq
  have hdone : r.responseDone nonce = true := by
    rw [responseDone, h.fromPri hpri, h.counted, hreached, hviews]
    simp [hreached]
  have hend : r.recoverEnd nonce now = some (r.recoveredFrom resp now) := by
    unfold recoverEnd
    simp only [hviews, List.find?_cons, hreached, Option.map_some, Option.getD_some, h.heard, hpick]
    rfl
  refine ⟨resp, hm, hrp, ?_⟩
  simp only [act, h.hb, recoverTest, hdone, if_true, hend, Outcome.withStore, h.client]
  rw [if_neg (by simp)]

/-- The answer of a primary at rest brings the replica in step with it. -/
theorem Replica.Hearing.recoveredFrom {r r' : Replica} {n i nonce p v k : Nat} {kvMap : KvMap}
    {resps : List RecoveryResponse} (h : r.Hearing n i nonce v resps) (hs : r'.AtRest p v k kvMap .idle)
    (hid : r'.id = p) (hop : r'.opNum = k) (hmap : recoverStateFromLog ∅ r'.log.getLog = kvMap) (now : Nat) :
    (r.recoveredFrom (r'.answerTo nonce) now).rep.AtRest p v k kvMap .idle ∧
      (r.recoveredFrom (r'.answerTo nonce) now).rep.opNum = k ∧
      (r.recoveredFrom (r'.answerTo nonce) now).rep.log = r'.log := by
  have hpri : decide (r'.priId = r'.id) = true := decide_eq_true (hs.priId.trans hid.symm)
  have hlog : (r'.answerTo nonce).opLog = r'.log.getLog := if_pos hpri
  have hkvMap : recoverStateFromLog r.kvMap (r'.answerTo nonce).opLog = kvMap := by
    rw [h.kvMap, hlog, hmap]
  refine ⟨⟨h.up, rfl, hid, hs.viewNum, (if_pos hpri).trans hs.commitNum, hkvMap, h.client, rfl, h.ppit, h.listener,
    h.prepReqQ⟩, (if_pos hpri).trans hop, ?_⟩
  show InMemOpLogHandler.setLog (r'.answerTo nonce).opLog = _
  rw [hlog, InMemOpLogHandler.setLog_getLog]

section

variable {n : Nat} {R : Rules} {b : Cluster × List Obs} {c : Cluster} {tr : List Obs} {p v k i nonce q : Nat}
  {kvMap : KvMap} {Q : Finset Nat}

/-- **At rest, the map is what `recover` would make of the log.** -/
theorem Moves.recoverStateFromLog_getLog (h : Moves n Rules.fresh c tr) (hrest : (c.reps q).AtRest p v k kvMap .idle)
    (hop : (c.reps q).opNum = k) : Replica.recoverStateFromLog ∅ (c.reps q).log.getLog = kvMap := by
  have hR := Rules.fresh_strict
  have hG := Rules.fresh_gapless n
  obtain ⟨m, hm⟩ := (h.lists rfl (fun _ _ h => hR.endsAtOpNum h)).1 q
  obtain rfl := (hm.normal hrest.status).symm.trans hop
  obtain ⟨ops, hops⟩ := (h.replayed hG).1 q
  have hlen : ops.length = m :=
    (hops.length (fun req m j he => by rw [hrest.client] at he; cases he)).trans hrest.commitNum
  have hnums := InMemOpLogHandler.map_opNum_getLog (c.reps q).log
  rw [hm.opNums] at hnums
  have hcommitted : ∀ e ∈ (c.reps q).log.getLog, e.committed = true := fun e he => by
    have hin : e.opNum ∈ (c.reps q).log.getLog.map LogEntry.opNum := List.mem_map_of_mem he
    rw [hnums, List.mem_range'_1] at hin
    refine (h.flagged_all hR Rules.fresh_pass).1 q _ e (InMemOpLogHandler.mem_getLog.1 he) ?_
    rw [hrest.commitNum]
    omega
  have hlog : (c.reps q).log.getLog.map LogEntry.op = ops := by
    have hloglen : (c.reps q).log.getLog.length = m := by
      rw [← List.length_map (f := LogEntry.opNum), hnums, List.length_range']
    refine List.ext_getElem? (fun a => ?_)
    by_cases ha : a < m
    · have hget := congrArg (fun l => l[a]?) hnums
      simp only [List.getElem?_map, List.getElem?_range' ha, Nat.one_mul] at hget
      obtain ⟨e, he, hen⟩ := Option.map_eq_some_iff.1 hget
      have hentry := InMemOpLogHandler.mem_getLog.1 (List.mem_of_getElem? he)
      have hopAt := h.opAt_eq hR hG (i := q) (k := a) (by simp [hrest.status]) (by rw [hrest.commitNum]; exact ha)
      rw [InMemOpLogHandler.opAt, Nat.add_comm, ← hen, hentry] at hopAt
      rw [List.getElem?_map, he, hops.eq_take (h.numbered hR hG), List.getElem?_take_of_lt (by omega), ← hopAt]
    · rw [List.getElem?_eq_none (by rw [List.length_map]; omega), List.getElem?_eq_none (by omega)]
  rw [Replica.recoverStateFromLog_eq, committedOps, List.filter_eq_self.2 hcommitted, hlog, ← hops.kvMap, hrest.kvMap]

/-- A member at rest answers a recovery request and is as before. -/
theorem GoesOn.answers (hR : R.atomic = true ∨ R.peersKept = true) (h : GoesOn n R (Event.Among (insert i Q)) b c tr)
    (hqQ : q ∈ Q) (hq : q < n) (hi : i < n) (hne : i ≠ q) (hs : (c.reps q).AtRest p v k kvMap .idle)
    (hu : (c.reps q).Unasked) (hm : ⟨q, .recoveryRequest ⟨i, nonce⟩⟩ ∈ c.net) :
    ∃ c', GoesOn n R (Event.Among (insert i Q)) b c' tr ∧ (∀ j, c'.reps j = c.reps j) ∧
      (∀ pk ∈ c.net, pk ≠ ⟨q, .recoveryRequest ⟨i, nonce⟩⟩ → pk ∈ c'.net) ∧
      ⟨i, .recoveryResponse ((c.reps q).answerTo nonce)⟩ ∈ c'.net := by
  have hid := h.runs.moves.id_eq q
  have hmem : i ∈ (c.reps q).replicas := ((h.runs.moves.peers hR).1 q).mem.2 ⟨hi, hne⟩
  have hfree := hs.repMutexFree
  have hin := Finset.mem_insert_of_mem (b := i) hqQ
  obtain ⟨c₁, h₁, hq₁, ha₁, hn₁⟩ := h.hear hin hm hq hs.up (hs.handle_recoveryRequest _)
  rw [hu.recoveryReqQ, List.nil_append] at hq₁
  have hs₁ : (c₁.reps q).AtRest p v k kvMap .idle := by
    rw [hq₁]
    exact { hs with }
  obtain ⟨c₂, h₂, hq₂, ha₂, hn₂⟩ := h₁.calm hin hq hs₁.up
    (hs₁.act_recReqCheck (by rw [hq₁]; exact hu.prr) (by rw [hq₁])) rfl
  rw [hq₁] at hq₂
  have hprr : (c₂.reps q).prr = .checked ⟨i, nonce⟩ := by rw [hq₂]
  have hact := Replica.act_recReqLocked hprr (by rw [hq₂]; exact hfree) (by rw [hq₂]; exact hmem)
    (by rw [h₂.runs.moves.id_eq q]; exact hne)
  obtain ⟨c₃, h₃, hq₃, ha₃, hn₃⟩ := h₂.turn hin hq (by rw [hq₂]; exact hs.up) hact rfl rfl
  have hsame : c₃.reps q = c.reps q := by
    rw [hq₃, hq₂]
    show ({ c.reps q with recoveryReqQ := [], prr := .popping } : Replica) = c.reps q
    rw [← hu.prr, ← hu.recoveryReqQ]
  have hanswer : (c₂.reps q).answerTo nonce = (c.reps q).answerTo nonce := by
    rw [hq₂]
    rfl
  have h₃ : GoesOn n R (Event.Among (insert i Q)) b c₃ (tr ++ []) := h₃
  rw [List.append_nil] at h₃
  have ha := (ha₁.trans ha₂).trans ha₃
  refine ⟨c₃, h₃, fun j => ?_, fun pk hpk hd => ?_, ?_⟩
  · by_cases hj : j = q
    · rw [hj, hsame]
    · exact ha.reps j hj
  · rw [hn₃, hn₂]
    exact List.mem_append_left _ (hn₁ pk hpk hd)
  · rw [hn₃, ← hanswer]
    exact List.mem_append_right _ (List.mem_singleton_self _)

/-- Replica `i` has asked the others under `nonce`: the members `l` of `Q` have its request before them, it has taken
up the answers of the rest, and all of `Q` are as in `c₀`. -/
structure Cluster.Collecting (c₀ : Cluster) (n i nonce p v : Nat) (Q : Finset Nat) (l : List Nat) (c : Cluster) :
    Prop where
  nodup : l.Nodup
  sub : ∀ q ∈ l, q ∈ Q
  same : ∀ q ∈ Q, c.reps q = c₀.reps q
  asked : ∀ q ∈ l, ⟨q, .recoveryRequest ⟨i, nonce⟩⟩ ∈ c.net
  heard : ∃ resps, (c.reps i).Hearing n i nonce v resps ∧ resps.length + l.length = Q.card ∧
    (∀ resp ∈ resps, resp.isPrimary = true → resp = (c₀.reps p).answerTo nonce) ∧
    (p ∉ l → ∃ resp ∈ resps, resp.isPrimary = true)

/-- The next member answers, and the replica takes its answer up. -/
theorem Cluster.Collecting.next (hR : R.atomic = true ∨ R.peersKept = true) {c₀ : Cluster} (hQ : IsQuorum n Q)
    (hi : i < n) (hiQ : i ∉ Q) (hrest : ∀ q ∈ Q, (c₀.reps q).AtRest p v k kvMap .idle)
    (hworkers : ∀ q ∈ Q, (c₀.reps q).Unasked) {l : List Nat} (h : GoesOn n R (Event.Among (insert i Q)) b c tr)
    (hC : c₀.Collecting n i nonce p v Q (q :: l) c) :
    ∃ c', GoesOn n R (Event.Among (insert i Q)) b c' tr ∧ c₀.Collecting n i nonce p v Q l c' := by
  obtain ⟨hql, hnd⟩ := List.nodup_cons.1 hC.nodup
  have hqQ := hC.sub q List.mem_cons_self
  have hne : i ≠ q := fun he => hiQ (he ▸ hqQ)
  have hid := h.runs.moves.id_eq q
  have hs : (c.reps q).AtRest p v k kvMap .idle := by
    rw [hC.same q hqQ]
    exact hrest q hqQ
  obtain ⟨c₁, h₁, hsame₁, hn₁, hm₁⟩ := h.answers hR hqQ (hQ.mem_lt hqQ) hi hne hs
    (by rw [hC.same q hqQ]; exact hworkers q hqQ) (hC.asked q List.mem_cons_self)
  obtain ⟨resps, hH, hlen, hpri, hhas⟩ := hC.heard
  rw [← hsame₁ i] at hH
  obtain ⟨r', hact, hH'⟩ := hH.handle_recoveryResponse
    (show ((c.reps q).answerTo nonce).nonce = nonce from rfl) hs.viewNum
  obtain ⟨c₂, h₂, hi₂, ha₂, hn₂⟩ := h₁.hear (Finset.mem_insert_self i Q) hm₁ hi hH.up hact
  have hspri : ((c.reps q).answerTo nonce).isPrimary = true ↔ p = q := by
    show decide ((c.reps q).priId = (c.reps q).id) = true ↔ _
    rw [decide_eq_true_eq, hs.priId, hid]
  refine ⟨c₂, h₂, hnd, fun j hj => hC.sub j (List.mem_cons_of_mem _ hj), fun j hj => ?_, fun j hj => ?_,
    resps ++ [(c.reps q).answerTo nonce], hi₂ ▸ hH', ?_, fun resp hm hp => ?_, fun hpl => ?_⟩
  · rw [ha₂.reps j (fun he => hiQ (he ▸ hj)), hsame₁ j, hC.same j hj]
  · refine hn₂ _ (hn₁ _ (hC.asked j (List.mem_cons_of_mem _ hj)) (fun he => hql ?_)) (by simp)
    simp only [Packet.mk.injEq, and_true] at he
    exact he ▸ hj
  · rw [List.length_append, List.length_singleton, ← hlen, List.length_cons]
    omega
  · rcases List.mem_append.1 hm with hm | hm
    · exact hpri resp hm hp
    · rw [List.mem_singleton.1 hm] at hp ⊢
      rw [hspri.1 hp, hC.same q hqQ]
  · by_cases hpq : p = q
    · exact ⟨_, List.mem_append_right _ (List.mem_singleton_self _), hspri.2 hpq⟩
    · obtain ⟨resp, hm, hp⟩ := hhas (fun hm => (List.mem_cons.1 hm).elim hpq hpl)
      exact ⟨resp, List.mem_append_left _ hm, hp⟩

/-- A replica that is down starts again and asks. -/
theorem Runs.asks (hR : R.atomic = true ∨ R.peersKept = true) (hre : R.noRestart = false) (h : Runs n R c tr)
    (hQ : IsQuorum n Q) (hi : i < n) (hdown : (c.reps i).up = false) (hup : ∀ q ∈ Q, (c.reps q).up = true)
    (hp : p ∈ Q) (flag : Bool) (nonce : Nat) :
    ∃ c', Runs n R c' tr ∧ c.Collecting n i nonce p v Q Q.toList c' ∧
      ∀ es, Run.exec (Cluster.system n) (R.allowed n) (.restart i flag :: .act i .recoverBegin nonce :: es) c tr =
        Run.exec (Cluster.system n) (R.allowed n) es c' tr := by
  have hiQ : i ∉ Q := fun hm => by
    have := hup i hm
    rw [hdown] at this
    cases this
  generalize hc₁ : c.setRep i (Replica.recovering n i flag) = c₁
  have hi₁ : c₁.reps i = Replica.recovering n i flag := by rw [← hc₁, c.setRep_reps_self]
  have hs₁ : c.step n (.restart i flag) = some (c₁, []) := by
    rw [← hc₁]
    exact if_pos ⟨hi, hdown⟩
  have hok₁ : R.allowed n c tr (.restart i flag) = true := by
    simp [Rules.allowed, Event.target, Rules.eventOk, hre, hs₁]
  have h₁ : Runs n R c₁ (tr ++ []) := h.step hok₁ hs₁
  rw [List.append_nil] at h₁
  have hs₂ := Cluster.step_act (t := nonce) (a := .recoverBegin)
    (s := (Replica.recovering n i flag).recoverBegin nonce) hi (by rw [hi₁]; rfl) (by rw [hi₁]; rfl)
  have hok₂ : R.allowed n c₁ tr (.act i .recoverBegin nonce) = true := by
    rw [Rules.allowed, hs₂]
    rfl
  have h₂ := h₁.step hok₂ hs₂
  generalize hc₂ : ({ c₁.setRep i ((Replica.recovering n i flag).recoverBegin nonce).rep with
    net := c₁.net ++ ((Replica.recovering n i flag).recoverBegin nonce).sent } : Cluster) = c₂ at h₂ hs₂
  have h₂ : Runs n R c₂ (tr ++ []) := h₂
  rw [List.append_nil] at h₂
  have hsame : ∀ q, q ≠ i → c₂.reps q = c.reps q := fun q hq => by
    rw [← hc₂, ← hc₁]
    exact (Cluster.setRep_reps_of_ne _ _ hq).trans (c.setRep_reps_of_ne _ hq)
  refine ⟨c₂, h₂, ⟨Finset.nodup_toList _, fun q hq => Finset.mem_toList.1 hq, fun q hq => ?_, fun q hq => ?_, [], ?_,
    ?_, fun resp hm => (by cases hm), fun hpl => absurd (Finset.mem_toList.2 hp) hpl⟩, fun es => ?_⟩
  · exact hsame q (fun he => hiQ (he ▸ hq))
  · have hqQ := Finset.mem_toList.1 hq
    have hqi : q ≠ i := fun he => hiQ (he ▸ hqQ)
    rw [← hc₂]
    refine List.mem_append_right _ (Replica.mem_invokeForAllReplicas.2 ⟨rfl, ?_, hqi⟩)
    have hpeers := (h₁.moves.peers hR).1 i
    rw [hi₁] at hpeers
    exact hpeers.mem.2 ⟨hQ.mem_lt hqQ, hqi⟩
  · rw [← hc₂, show ({ c₁.setRep i _ with net := _ } : Cluster).reps i = _ from c₁.setRep_reps_self i _]
    exact ⟨rfl, rfl, rfl, rfl, rfl, rfl, rfl, rfl, rfl, rfl, fun _ hm => (by cases hm), rfl,
      WaitMap.cnt_empty _, rfl, fun hpri => by
        obtain ⟨_, hm, -⟩ := hpri
        cases hm⟩
  · rw [List.length_nil, Nat.zero_add, Finset.length_toList]
  · rw [Run.exec_cons (S := Cluster.system n) hok₁ hs₁, List.append_nil, Run.exec_cons (S := Cluster.system n) hok₂ hs₂]
    exact congrArg _ (List.append_nil tr)

end

/-- **A replica that comes back is in step.**  From any state of a run in which the replicas of a majority are in step
and their workers have no recovery request before them, the run can go on so that a replica that is down starts again,
with any content of the uninitialised flag, asks under any nonce, and hears from that majority, until `recover` ends it
in step with them: with the view, the numbers, the log and the map of the primary.  All steps are its own and those of
the majority, who are as before in the end. -/
theorem rejoins {n i p v k : Nat} {kvMap : KvMap} {Q : Finset Nat} {c : Cluster} {tr : List Obs}
    (h : Runs n Rules.fresh c tr) (hQ : IsQuorum n Q) (hL : c.Level p v k kvMap Q) (hi : i < n)
    (hdown : (c.reps i).up = false) (hworkers : ∀ q ∈ Q, (c.reps q).Unasked) (flag : Bool) (nonce now : Nat) :
    ∃ es c₁ os c', (∀ e ∈ es, e.target ∈ insert i Q) ∧
      Run.exec (Cluster.system n) (Rules.fresh.allowed n) (.restart i flag :: .act i .recoverBegin nonce :: es) c tr =
        some (c₁, tr) ∧
      c₁.step n (.act i .recoverTest now) = some (c', os) ∧ replies os = [] ∧
      c'.Level p v k kvMap (insert i Q) ∧ (c'.reps i).log = (c.reps p).log ∧ ∀ q ∈ Q, c'.reps q = c.reps q := by
  have hiQ : i ∉ Q := fun hm => by
    have := (hL.rest i hm).up
    rw [hdown] at this
    cases this
  obtain ⟨c₀, h₀, hC₀, hexec⟩ := h.asks (v := v) (.inl rfl) rfl hQ hi hdown (fun q hq => (hL.rest q hq).up)
    hL.primary flag nonce
  obtain ⟨c₁, os, h₁, hC₁, hos⟩ := Run.Onward.sweep
    (I := fun l c' tr' => c.Collecting n i nonce p v Q l c' ∧ tr' = tr) (fun q l c' tr' h' hC' => by
      obtain ⟨c'', h'', hC''⟩ := hC'.1.next (.inl rfl) hQ hi hiQ hL.rest hworkers h'
      exact ⟨c'', [], by rwa [List.append_nil], hC'', by rw [List.append_nil]; exact hC'.2⟩)
    Q.toList h₀.onward ⟨hC₀, rfl⟩
  have h₁ : GoesOn n Rules.fresh (Event.Among (insert i Q)) (c₀, tr) c₁ tr := by
    rw [hos] at h₁
    exact h₁
  obtain ⟨es, hes, he⟩ := h₁.path
  obtain ⟨resps, hH, hlen, hpri, hhas⟩ := hC₁.heard
  have hmaj : (c₁.reps i).getMajorityCnt ≤ resps.length := by
    rw [((h₁.runs.moves.peers (.inl rfl)).1 i).majority hi]
    exact hQ.2.trans hlen.ge
  obtain ⟨resp, hm, hp, hact⟩ := hH.act_recoverTest hmaj (hhas List.not_mem_nil) now
  obtain rfl := hpri resp hm hp
  have hrest := hL.rest p hL.primary
  have hop := hL.opNum p hL.primary
  obtain ⟨hrest', hop', hlog'⟩ := hH.recoveredFrom hrest (h.moves.id_eq p) hop
    (h.moves.recoverStateFromLog_getLog hrest hop) now
  generalize hr : (c₁.reps i).recoveredFrom ((c.reps p).answerTo nonce) now = s at *
  have hstep := Cluster.step_act hi hH.up hact
  have hself := c₁.setRep_reps_self i s.rep
  have hsame : ∀ q ∈ Q, (c₁.setRep i s.rep).reps q = c.reps q := fun q hq => by
    have hne : q ≠ i := fun he => hiQ (he ▸ hq)
    rw [c₁.setRep_reps_of_ne _ hne]
    exact hC₁.same q hq
  have hin : ∀ q ∈ insert i Q, ((c₁.setRep i s.rep).reps q).AtRest p v k kvMap .idle ∧
      ((c₁.setRep i s.rep).reps q).opNum = k := fun q hq => by
    rcases Finset.mem_insert.1 hq with rfl | hq
    · rw [hself]
      exact ⟨hrest', hop'⟩
    · rw [hsame q hq]
      exact ⟨hL.rest q hq, hL.opNum q hq⟩
  refine ⟨es, c₁, s.obs, _, hes, (hexec es).trans he, hstep, ?_, ⟨Finset.mem_insert_of_mem hL.primary,
    fun q hq => (hin q hq).1, fun q hq => (hin q hq).2, fun t ht => ?_⟩, ?_, hsame⟩
  · refine List.filterMap_eq_nil_iff.2 (fun o ho => ?_)
    rw [← hr] at ho
    obtain ⟨e, -, rfl⟩ := List.mem_map.1 ho
    rfl
  · show ((c₁.setRep i s.rep).reps p).waitMap.cnt t = 0
    rw [hsame p hL.primary]
    exact hL.uncounted t ht
  · show ((c₁.setRep i s.rep).reps i).log = _
    rw [hself, hlog']

/-- Replica `2` is gone, asks under `7` and is back. -/
theorem rejoins_three : ∃ c tr es c₁ os c', Runs 3 Rules.fresh c tr ∧ (c.reps 2).up = false ∧
    Run.exec (Cluster.system 3) (Rules.fresh.allowed 3) (.restart 2 true :: .act 2 .recoverBegin 7 :: es) c tr =
      some (c₁, tr) ∧ c₁.step 3 (.act 2 .recoverTest 9) = some (c', os) ∧
    (c'.reps 2).kvMap = Finmap.singleton [slash, 120] [] ∧ (c'.reps 2).log = (c.reps 0).log := by
  obtain ⟨c, tr, h, hc⟩ := exists_runs (n := 3) (R := Rules.fresh) (settledEvents ++ [.crash 2])
    (fun c _ => [c.reps 0, c.reps 1].all (fun r => r.settled && decide (r.recoveryReqQ = [] ∧ r.prr = .popping)) &&
      !(c.reps 2).up)
    (by decide +kernel)
  simp only [List.all_cons, List.all_nil, Bool.and_eq_true, Bool.not_eq_true', and_true, decide_eq_true_eq] at hc
  obtain ⟨⟨⟨h0, hq0, hp0⟩, h1, hq1, hp1⟩, hdown⟩ := hc
  have hboth : ∀ q ∈ ({0, 1} : Finset Nat), (c.reps q).settled = true ∧ (c.reps q).Unasked := fun q hq => by
    rcases Finset.mem_insert.1 hq with rfl | hq
    · exact ⟨h0, hq0, hp0⟩
    · rw [Finset.mem_singleton.1 hq]
      exact ⟨h1, hq1, hp1⟩
  have hrest : ∀ q ∈ ({0, 1} : Finset Nat), _ := fun q hq => Replica.settled_rest (hboth q hq).1
  obtain ⟨es, c₁, os, c', -, h₁, hs, -, hL, hlog, -⟩ := rejoins (Q := {0, 1}) h ⟨by decide, by decide⟩
    ⟨by decide, fun q hq => (hrest q hq).1, fun q hq => (hrest q hq).2.1, (hrest 0 (by decide)).2.2⟩ (by decide) hdown
    (fun q hq => (hboth q hq).2) true 7 9
  exact ⟨c, tr, es, c₁, os, c', h, hdown, h₁, hs, (hL.rest 2 (by decide)).kvMap, hlog⟩

end MetaDR
