import MetaDR.CandidateSearch
import MetaDR.Healthy
import MetaDR.Selection
import MetaDR.Serving
/-!
# Failover — a majority in step outlives its primary

When the primary of a majority in step is gone, the others time out, enter the next view, vote for the first of them
in cyclic order after the old primary, and take up the view it starts: they are in step again, with the same map and
another primary (`fails_over`).  What the code asks for on the way is that they have committed an operation, and that
the new primary has counted no answer past what it has committed.
-/
namespace MetaDR

open Majority

/-- The replica has its `k` operations committed, nothing under way but what its heart-beat thread does at `hb`, and
nothing counted for later numbers. -/
structure Replica.Stands (k : Nat) (kvMap : KvMap) (status : Status) (p v : Nat) (hb : HbPc) (r : Replica) : Prop where
  up : r.up = true
  status : r.status = status
  priId : r.priId = p
  viewNum : r.viewNum = v
  opNum : r.opNum = k
  commitNum : r.commitNum = k
  kvMap : r.kvMap = kvMap
  opNums : r.log.opNums = List.range' 1 k
  client : r.client = .idle
  hb : r.hb = hb
  ppit : r.ppit = none
  listener : r.listener = none
  prepReqQ : r.prepReqQ = []
  uncounted : ∀ t, k < t → r.waitMap.cnt t = 0

/-- The vote of a replica in step: all it lists is committed. -/
structure ViewChangeInfo.Tells (k : Nat) (Q : Finset Nat) (info : ViewChangeInfo) : Prop where
  opNums : info.opLog.map LogEntry.opNum = List.range' 1 k
  opNum : info.opNum = k
  commitNum : info.commitNum = k
  replicaId : info.replicaId ∈ Q

/-- The first of `Q` in cyclic order after `p` is the one behind `d` others. -/
structure FirstAfter (n p d : Nat) (Q : Finset Nat) : Prop where
  mem : inOrder n p d ∈ Q
  before : ∀ j, j < d → inOrder n p j ∉ Q
  two : d + 3 ≤ n

theorem inOrder_surjective {n p q : Nat} (hp : p < n) (hq : q < n) (hne : q ≠ p) :
    ∃ d, d + 1 < n ∧ inOrder n p d = q := by
  unfold inOrder
  rcases Nat.lt_or_ge p q with h | h
  · exact ⟨q - p - 1, by omega, by rw [show p + 1 + (q - p - 1) = q by omega, Nat.mod_eq_of_lt hq]⟩
  · refine ⟨q + n - p - 1, by omega, ?_⟩
    rw [show p + 1 + (q + n - p - 1) = q + n by omega, Nat.add_mod_right, Nat.mod_eq_of_lt hq]

/-- A majority without `p` has a first one, and the loop gets as far. -/
theorem exists_firstAfter {n p : Nat} {Q : Finset Nat} (hQ : IsQuorum n Q) (hp : p < n) (hpQ : p ∉ Q) :
    ∃ d, FirstAfter n p d Q := by
  have hlt : ∀ q ∈ Q, ∃ d, d + 1 < n ∧ inOrder n p d = q := fun q hq =>
    inOrder_surjective hp (hQ.mem_lt hq) (fun he => hpQ (he ▸ hq))
  have hn : 2 ≤ n := by
    by_contra hn
    obtain ⟨q, hq⟩ := Finset.card_pos.1 (Nat.lt_of_lt_of_le (Nat.succ_pos _) hQ.2)
    obtain ⟨d, hd, -⟩ := hlt q hq
    omega
  have htwo : 1 < Q.card := by
    have := hQ.2
    omega
  obtain ⟨a, ha, b, hb, hab⟩ := Finset.one_lt_card.1 htwo
  obtain ⟨da, hda, rfl⟩ := hlt a ha
  obtain ⟨db, hdb, rfl⟩ := hlt b hb
  have hex : ∃ d, inOrder n p d ∈ Q := ⟨da, ha⟩
  refine ⟨Nat.find hex, Nat.find_spec hex, fun j hj => Nat.find_min hex hj, ?_⟩
  have h1 := Nat.find_le (h := hex) ha
  have h2 := Nat.find_le (h := hex) hb
  have hne : da ≠ db := fun he => hab (by rw [he])
  omega

namespace Replica

variable {r : Replica} {p v w k f j : Nat} {kvMap : KvMap} {hb : HbPc} {info : ViewChangeInfo} {x : ViewStartInfo}

theorem endPoint_of_mem (h : j ∈ r.replicas) : r.endPoint j = r := by
  unfold endPoint
  rw [if_pos h]

theorem sendTo_of_mem {msg : Msg} (h : j ∈ r.replicas) (hne : j ≠ r.id) : r.sendTo j msg = [⟨j, msg⟩] := if_pos ⟨h, hne⟩

theorem Stands.atRest (h : r.Stands k kvMap .normal p v .idle) : r.AtRest p v k kvMap .idle :=
  ⟨h.up, h.status, h.priId, h.viewNum, h.commitNum, h.kvMap, h.client, h.hb, h.ppit, h.listener, h.prepReqQ⟩

/-- Long enough without a word of the primary: the replica enters the next view. -/
theorem Stands.act_changeViewBegin (h : r.Stands k kvMap .normal p v .idle) (hid : r.id ≠ p)
    (hnew : v + 1 ∉ r.viewStartInfoMap) : r.act (r.lastCommitTime + 4) .changeViewBegin =
      .ok ⟨{ r with status := .viewChange, viewNum := v + 1, hb := .startSent (v + 1) v },
        r.invokeForAllReplicas (.startViewChange ⟨v + 1, r.id⟩), [.entered r.id (v + 1)]⟩ := by
  have hfree := h.atRest.repMutexFree
  have hwants : r.wantsViewChange (r.lastCommitTime + 4) = true := by
    have hpri : r.isPrimary = false := by
      rw [isPrimary, decide_eq_false_iff_not, h.priId]
      exact hid
    simp [wantsViewChange, h.status, hpri, heartBeatTimeout]
  simp only [act, hfree, hwants, and_self, if_true, changeViewBegin, h.viewNum, hnew, if_false, Outcome.withStore]
  simp [Obs.isApplied]

theorem Stands.handle_startViewChange (h : r.Stands k kvMap .viewChange p (v + 1) hb) (j : Nat) :
    ∃ m, r.handle 0 (.startViewChange ⟨v + 1, j⟩) = .ok (quiet { r with viewStartReqMap := m }) ∧
      (r.getMajorityCnt ≤ m.cnt (v + 1) ∨ m.cnt (v + 1) = r.viewStartReqMap.cnt (v + 1) + 1) := by
  simp only [handle, h.listener, processStartViewChange, h.viewNum, lt_irrefl, if_false, h.status, reduceCtorEq]
  split
  · rename_i hq
    exact ⟨_, rfl, .inl (of_decide_eq_true hq)⟩
  · refine ⟨_, rfl, .inr ?_⟩
    rw [WaitMap.cnt_bump, if_pos rfl, WaitMap.cnt_touch]

/-- With the answers of a majority the replica votes. -/
theorem act_changeViewCount {o : Nat} (hh : r.hb = .startSent w o)
    (hq : r.getMajorityCnt ≤ r.viewStartReqMap.cnt w + 1) :
    r.act 0 .changeViewCount = .ok (({ r with viewStartReqMap := r.viewStartReqMap.bump w } : Replica).vote w o) := by
  have hreached : ({ r with viewStartReqMap := r.viewStartReqMap.bump w } : Replica).quorumReached
      ((r.viewStartReqMap.bump w).cnt w) = true := by
    rw [quorumReached, decide_eq_true_eq, WaitMap.cnt_bump, if_pos rfl]
    exact hq
  have hact : r.act 0 .changeViewCount = .ok (r.changeViewCount w o) := by simp only [act, hh]
  rw [hact]
  exact congrArg Outcome.ok (if_pos hreached)

/-- A candidate that the call does not reach, and more to come. -/
theorem candidate_skip {cnt c : Nat} (hc : c ∈ r.replicas) (hne : c ≠ r.id) (hcnt : cnt + 1 ≠ r.replicas.length - 1) :
    r.candidate info cnt c .failed =
      quiet { r with hb := .choosing info (cnt + 1) (r.getNextPrimaryCandidate c) } := by
  unfold candidate
  rw [if_neg hne, endPoint_of_mem hc]
  dsimp only
  rw [if_neg (fun h => CallEnd.noConfusion h.1), if_neg hcnt]
  rfl

/-- The candidate is the replica itself, or the call reaches it. -/
theorem candidate_answered (cnt : Nat) {c : Nat} (hc : c = r.id ∨ c ∈ r.replicas) : ∃ m sent,
    r.candidate info cnt c .answered = ⟨{ r with
        priId := c
        startViewMap := m
        hb := if c = r.id then .doWait info.viewNum else .viewWait info.viewNum }, sent,
      [.selected r.id info.viewNum c]⟩ ∧ (c ≠ r.id → ⟨c, .doViewChange info⟩ ∈ sent) ∧
      ∀ w, m.cnt w = r.startViewMap.cnt w := by
  unfold candidate chosen
  by_cases hown : c = r.id
  · rw [if_pos hown, if_pos hown]
    dsimp only
    rw [if_pos hown]
    exact ⟨_, _, rfl, fun hne => absurd hown hne, fun _ => rfl⟩
  · have hmem := hc.resolve_left hown
    have hcall : CallEnd.answered ≠ .failed := CallEnd.noConfusion
    rw [if_neg hown, if_neg hown, endPoint_of_mem hmem, sendTo_of_mem hmem hown, if_neg hcall]
    dsimp only
    rw [if_pos ⟨rfl, List.cons_ne_nil _ _⟩, if_neg hown]
    exact ⟨_, _, rfl, fun _ => List.mem_cons_self, WaitMap.cnt_touch _ _⟩

theorem Stands.handle_doViewChange (h : r.Stands k kvMap .viewChange p w hb) (hv : info.viewNum = w) :
    r.handle 0 (.doViewChange info) = .ok (quiet { r with
      viewChangeInfoMap := r.viewChangeInfoMap.insert w (r.votesFor w ++ [info])
      listener := some (.doViewChange info) }) := by
  have hact : r.handle 0 (.doViewChange info) = .ok (r.processDoViewChange info) := by simp only [handle, h.listener]
  subst hv
  rw [hact, processDoViewChange, if_neg (Nat.not_lt.2 h.viewNum.le), if_neg (by simp [h.status])]
  rfl

/-- The first `StartView` of a view. -/
theorem Stands.handle_startView (h : r.Stands k kvMap .viewChange p w hb) (hx : x.viewNum = w)
    (hnew : w ∉ r.viewStartInfoMap) : r.handle 0 (.startView x) = .ok (quiet { r with
      status := .viewChange
      viewStartInfoMap := r.viewStartInfoMap.insert w x
      listener := some (.startView w) }) := by
  simp only [handle, h.listener, processStartView, hx, h.viewNum, lt_irrefl, if_false, h.status, reduceCtorEq, hnew]
  rfl

theorem act_startViewCount (hl : r.listener = some (.startView w)) (hcnt : r.startViewMap.cnt w = 0) :
    r.act 0 .startViewCount = .ok (quiet { r with startViewMap := r.startViewMap.bump w, listener := none }) := by
  have hone : (r.startViewMap.bump w).cnt w = 1 := by rw [WaitMap.cnt_bump, if_pos rfl, hcnt]
  simp only [act, hl, startViewCount]
  rw [if_pos hone]
  rfl

/-- The replica has stored and counted no `StartView` of the view. -/
def Unjoined (w : Nat) (r : Replica) : Prop := w ∉ r.viewStartInfoMap ∧ r.startViewMap.cnt w = 0

theorem Adopts.unique {kvMap' : KvMap} {ops ops' : List (Nat × Op)} (h : r.Adopts x kvMap ops)
    (h' : r.Adopts x kvMap' ops') : kvMap' = kvMap ∧ ops' = ops := by
  simpa using h'.replay.symm.trans h.replay

/-- A log that covers the replica and goes no further leaves its map. -/
theorem Covered.adopts_same (h : r.Covered x) (h1 : 1 ≤ r.commitNum) (hle : x.opNum ≤ r.commitNum) :
    r.Adopts x r.kvMap [] := by
  refine ⟨h.getLogEntry h1 h.le, ?_⟩
  have hlen : x.opLog.length = x.opNum := by
    rw [← List.length_map (f := LogEntry.opNum), h.opNums, List.length_range']
  rw [InMemOpLogHandler.logSize_setLog h.nodup, hlen, show x.opNum - (r.commitNum + 1) = 0 by omega]
  rfl

/-- `updateNewView(w, true)` with such a log. -/
theorem Covered.updateNewView_true (h : r.Covered (r.startInfo info)) (h1 : 1 ≤ r.commitNum)
    (hle : info.opNum ≤ r.commitNum) (hq : r.getMajorityCnt ≤ (r.votesFor w).length)
    (hc : selectCandidate (r.votesFor w) = some info) (hv : info.viewNum = w) (now : Nat) :
    r.updateNewView w true now = some (r.started info r.kvMap [] now) := by
  have ha := h.adopts_same h1 hle
  obtain ⟨s, hs, -⟩ := TakesUp.updateNewView (.primary info hq hc hv) ha now
  obtain ⟨info', kvMap, ops, -, hc', -, ha', rfl⟩ := Replica.updateNewView_true hs
  obtain rfl := Option.some.inj (hc.symm.trans hc')
  obtain ⟨rfl, rfl⟩ := ha.unique ha'
  exact hs

/-- Likewise `updateNewView(w, false)`. -/
theorem Covered.updateNewView_false (h : r.Covered x) (h1 : 1 ≤ r.commitNum) (hle : x.opNum ≤ r.commitNum)
    (hx : r.viewStartInfoMap.lookup w = some x) (hv : x.viewNum = w) (now : Nat) :
    r.updateNewView w false now = some (r.joined x r.kvMap [] now) := by
  have ha := h.adopts_same h1 hle
  obtain ⟨s, hs, -⟩ := TakesUp.updateNewView (.backup x hx hv) ha now
  obtain ⟨x', kvMap, ops, hx', -, ha', rfl⟩ := Replica.updateNewView_false hs
  obtain rfl := Option.some.inj (hx.symm.trans hx')
  obtain ⟨rfl, rfl⟩ := ha.unique ha'
  exact hs

/-- In step again, in the new view. -/
theorem Stands.adopted {status : Status} (h : r.Stands k kvMap status p w hb) (hcov : r.Covered x)
    (ho : x.opNum = k) (hc : x.commitNum = k) (now : Nat) :
    ((r.adopted x r.kvMap).tidied now).Stands k kvMap .normal x.replicaId x.viewNum .idle where
  up := h.up
  status := rfl
  priId := rfl
  viewNum := rfl
  opNum := ho
  commitNum := hc
  kvMap := h.kvMap
  opNums := by
    show (InMemOpLogHandler.setLog x.opLog).opNums = _
    rw [InMemOpLogHandler.opNums_setLog, hcov.opNums, ho]
  client := h.client
  hb := rfl
  ppit := h.ppit
  listener := h.listener
  prepReqQ := h.prepReqQ
  uncounted := h.uncounted

end Replica

/-- Nobody but replica `i` moved, and no message to another is gone. -/
structure Cluster.Apart (i : Nat) (c c' : Cluster) : Prop where
  reps : ∀ j, j ≠ i → c'.reps j = c.reps j
  net : ∀ pk ∈ c.net, pk.dst ≠ i → pk ∈ c'.net

theorem Cluster.Apart.trans {i : Nat} {c c' c'' : Cluster} (h : c.Apart i c') (h' : c'.Apart i c'') : c.Apart i c'' :=
  ⟨fun j hj => (h'.reps j hj).trans (h.reps j hj), fun pk hm hd => h'.net pk (h.net pk hm hd) hd⟩

section

variable {n : Nat} {R : Rules} {A : Event → Prop} {b : Cluster × List Obs} {c : Cluster} {tr : List Obs}
  {p v k d q : Nat} {kvMap : KvMap} {Q : Finset Nat}

theorem GoesOn.turn (h : GoesOn n R A b c tr) {i t : Nat} {a : Act} {s : Step} (hA : A (.act i a t)) (hi : i < n)
    (hup : (c.reps i).up = true) (ha : (c.reps i).act t a = .ok s) (he : R.eventOk (c.reps i) (.act i a t) = true)
    (ho : s.obs.all (R.obsOk tr (c.reps i)) = true) :
    ∃ c', GoesOn n R A b c' (tr ++ s.obs) ∧ c'.reps i = s.rep ∧ c.Apart i c' ∧ c'.net = c.net ++ s.sent := by
  obtain ⟨c', h', hi', hother, hnet⟩ := h.act hA hi hup ha he ho
  exact ⟨c', h', hi', ⟨hother, fun pk hm _ => by rw [hnet]; exact List.mem_append_left _ hm⟩, hnet⟩

/-- A section that sends nothing and lets nothing be seen. -/
theorem GoesOn.calm (h : GoesOn n R A b c tr) {i t : Nat} {a : Act} {r' : Replica} (hA : A (.act i a t)) (hi : i < n)
    (hup : (c.reps i).up = true) (ha : (c.reps i).act t a = .ok (Replica.quiet r'))
    (he : R.eventOk (c.reps i) (.act i a t) = true) :
    ∃ c', GoesOn n R A b c' tr ∧ c'.reps i = r' ∧ c.Apart i c' ∧ c'.net = c.net := by
  obtain ⟨c', h', hi', hother, hnet⟩ := h.turn hA hi hup ha he rfl
  exact ⟨c', by rwa [Replica.quiet, List.append_nil] at h', hi', hother,
    by rwa [Replica.quiet, List.append_nil] at hnet⟩

/-- A message that changes the replica it comes to and is answered by nothing. -/
theorem GoesOn.hear (h : GoesOn n R A b c tr) {i : Nat} {msg : Msg} {r' : Replica} (hA : A (.deliver ⟨i, msg⟩ 0))
    (hm : ⟨i, msg⟩ ∈ c.net) (hi : i < n) (hup : (c.reps i).up = true)
    (ha : (c.reps i).handle 0 msg = .ok (Replica.quiet r')) :
    ∃ c', GoesOn n R A b c' tr ∧ c'.reps i = r' ∧ c.Apart i c' ∧ ∀ pk ∈ c.net, pk ≠ ⟨i, msg⟩ → pk ∈ c'.net := by
  obtain ⟨c', h', hi', hother, hnet⟩ := h.deliver (q := ⟨i, msg⟩) hA hm hi hup ha rfl
  have hkeep : ∀ pk ∈ c.net, pk ≠ ⟨i, msg⟩ → pk ∈ c'.net := fun pk hpk hne => by
    rw [hnet]
    exact List.mem_append_left _ ((List.mem_erase_of_ne hne).2 hpk)
  refine ⟨c', by rwa [Replica.quiet, List.append_nil] at h', hi', ⟨hother, fun pk hpk hd => hkeep pk hpk ?_⟩, hkeep⟩
  rintro rfl
  exact hd rfl

/-- The replica takes up the `StartViewChange`s of the others and has counted a majority, or all of them. -/
theorem GoesOn.hears (hqQ : q ∈ Q) (hq : q < n) {hb : HbPc} : ∀ (l : List Nat) {c : Cluster},
    GoesOn n R (Event.Among Q) b c tr →
    (c.reps q).Stands k kvMap .viewChange p (v + 1) hb → l.Nodup →
    (∀ j ∈ l, ⟨q, .startViewChange ⟨v + 1, j⟩⟩ ∈ c.net) →
    ∃ c' m, GoesOn n R (Event.Among Q) b c' tr ∧ c'.reps q = { c.reps q with viewStartReqMap := m } ∧ c.Apart q c' ∧
      ((c.reps q).getMajorityCnt ≤ m.cnt (v + 1) ∨
        (c.reps q).viewStartReqMap.cnt (v + 1) + l.length ≤ m.cnt (v + 1))
  | [], c, h, _, _, _ => ⟨c, _, h, rfl, ⟨fun _ _ => rfl, fun _ hm _ => hm⟩, .inr le_rfl⟩
  | j :: l, c, h, hs, hnd, hl => by
    obtain ⟨hj, hnd⟩ := List.nodup_cons.1 hnd
    obtain ⟨m₁, hact, hcnt₁⟩ := hs.handle_startViewChange j
    obtain ⟨c₁, h₁, hq₁, ha₁, hn₁⟩ := h.hear hqQ (hl j List.mem_cons_self) hq hs.up hact
    have hl₁ : ∀ i ∈ l, ⟨q, .startViewChange ⟨v + 1, i⟩⟩ ∈ c₁.net := fun i hi => by
      refine hn₁ _ (hl i (List.mem_cons_of_mem _ hi)) (fun he => hj ?_)
      simp only [Packet.mk.injEq, Msg.startViewChange.injEq, ViewChangeRequest.mk.injEq, true_and] at he
      exact he ▸ hi
    obtain ⟨c₂, m₂, h₂, hq₂, ha₂, hcnt₂⟩ := GoesOn.hears hqQ hq l h₁ (by rw [hq₁]; exact { hs with }) hnd hl₁
    rw [hq₁] at hq₂ hcnt₂
    refine ⟨c₂, m₂, h₂, hq₂, ha₁.trans ha₂, ?_⟩
    rw [List.length_cons]
    rcases hcnt₂ with hcnt₂ | hcnt₂
    · exact .inl hcnt₂
    · have hcnt₂ : m₁.cnt (v + 1) + l.length ≤ m₂.cnt (v + 1) := hcnt₂
      omega

/-- The candidate loop passes over the candidates that its calls do not reach. -/
theorem GoesOn.skips (hqQ : q ∈ Q) (hq : q < n) {info : ViewChangeInfo} : ∀ (m j : Nat) {c : Cluster},
    GoesOn n R (Event.Among Q) b c tr → (c.reps q).up = true → (c.reps q).replicas = peersOf n q →
    (c.reps q).hb = .choosing info j (inOrder n p j) → j + m + 3 ≤ n →
    (∀ l, l < j + m → inOrder n p l ≠ q) →
    ∃ c', GoesOn n R (Event.Among Q) b c' tr ∧
      c'.reps q = { c.reps q with hb := .choosing info (j + m) (inOrder n p (j + m)) } ∧ c.Apart q c'
  | 0, j, c, h, _, _, hb, _, _ => by
    refine ⟨c, h, ?_, ⟨fun _ _ => rfl, fun _ hm _ => hm⟩⟩
    rw [Nat.add_zero, ← hb]
  | m + 1, j, c, h, hup, hreps, hb, hn, hne => by
    have hid := h.runs.moves.id_eq q
    have hlt : inOrder n p j < n := inOrder_lt (Nat.zero_lt_of_lt hq)
    have hjq : inOrder n p j ≠ q := hne j (by omega)
    have hmem : inOrder n p j ∈ (c.reps q).replicas := by
      rw [hreps]
      exact Replica.mem_peersOf.2 ⟨hlt, hjq⟩
    have hact : (c.reps q).act 0 (.candidate .failed) = .ok (Replica.quiet { c.reps q with
        hb := .choosing info (j + 1) (inOrder n p (j + 1)) }) := by
      have hlen : j + 1 ≠ (c.reps q).replicas.length - 1 := by
        rw [hreps, Replica.length_peersOf hq]
        omega
      simp only [Replica.act, hb]
      rw [Replica.candidate_skip hmem (by rw [hid]; exact hjq) hlen, Replica.getNextPrimaryCandidate_eq hq hreps hlt,
        succ_inOrder]
    obtain ⟨c₁, h₁, hq₁, ha₁, -⟩ := h.calm hqQ hq hup hact (by simp [Rules.eventOk])
    obtain ⟨c₂, h₂, hq₂, ha₂⟩ := GoesOn.skips hqQ hq m (j + 1) h₁ (by rw [hq₁]; exact hup) (by rw [hq₁]; exact hreps)
      (by rw [hq₁]) (by omega) (fun l hl => hne l (by omega))
    rw [hq₁] at hq₂
    exact ⟨c₂, h₂, by rw [hq₂, show j + 1 + m = j + (m + 1) by omega], ha₁.trans ha₂⟩

/-- The vote that replica `q` in step casts for view `v + 1`. -/
def Replica.voteFor (r : Replica) (v : Nat) : ViewChangeInfo :=
  ⟨v + 1, r.log.getLog, v, r.commitNum, r.commitNum, r.id⟩

/-- **A replica votes**, once it has heard of the others, and comes to its candidate loop. -/
theorem GoesOn.reachesLoop (hR : R.atomic = true ∨ R.peersKept = true) (h : GoesOn n R (Event.Among Q) b c tr)
    (hQ : IsQuorum n Q) (hp : p < n) (hqQ : q ∈ Q)
    (hs : (c.reps q).Stands k kvMap .viewChange p (v + 1) (.startSent (v + 1) v))
    (hheard : ∀ j ∈ Q, j ≠ q → ⟨q, .startViewChange ⟨v + 1, j⟩⟩ ∈ c.net) :
    ∃ c' m, GoesOn n R (Event.Among Q) b c' (tr ++ [.voted q ((c.reps q).voteFor v)]) ∧ c.Apart q c' ∧
      c'.reps q = { c.reps q with
        viewStartReqMap := m
        viewChangeInfoMap := (c.reps q).viewChangeInfoMap.insert (v + 1)
          ((c.reps q).votesFor (v + 1) ++ [(c.reps q).voteFor v])
        doViewChangeMap := (c.reps q).doViewChangeMap.bump (v + 1)
        hb := .choosing ((c.reps q).voteFor v) 0 (inOrder n p 0) } := by
  have hq := hQ.mem_lt hqQ
  have hid := h.runs.moves.id_eq q
  have hpeers := (h.runs.moves.peers hR).1 q
  have hmaj := hpeers.majority hq
  have hlen : (Q.erase q).toList.length + 1 = Q.card := by
    rw [Finset.length_toList, Finset.card_erase_add_one hqQ]
  obtain ⟨c₁, m, h₁, hq₁, ha₁, hcnt⟩ := h.hears hqQ hq (Q.erase q).toList hs (Finset.nodup_toList _) (fun j hj => by
    obtain ⟨hne, hj⟩ := Finset.mem_erase.1 (Finset.mem_toList.1 hj)
    exact hheard j hj hne)
  have hq2 := hQ.2
  have henough : (c.reps q).getMajorityCnt ≤ m.cnt (v + 1) + 1 := by omega
  obtain ⟨c₂, h₂, hq₂, ha₂, -⟩ := h₁.turn hqQ hq (by rw [hq₁]; exact hs.up)
    (by rw [hq₁]; exact Replica.act_changeViewCount hs.hb henough) rfl rfl
  have hnext : (c.reps q).getNextPrimaryCandidate (c.reps q).priId = inOrder n p 0 := by
    rw [hs.priId]
    exact Replica.getNextPrimaryCandidate_eq hq hpeers.replicas_eq hp
  refine ⟨c₂, m.bump (v + 1), ?_, ha₁.trans ha₂, ?_⟩
  · have hobs : [Obs.voted (c.reps q).id ((c.reps q).voteFor v)] = [.voted q ((c.reps q).voteFor v)] := by rw [hid]
    rw [← hobs]
    exact h₂
  · rw [hq₂]
    exact congrArg (fun c' => ({ c.reps q with
      viewStartReqMap := m.bump (v + 1)
      viewChangeInfoMap := (c.reps q).viewChangeInfoMap.insert (v + 1)
        ((c.reps q).votesFor (v + 1) ++ [(c.reps q).voteFor v])
      doViewChangeMap := (c.reps q).doViewChangeMap.bump (v + 1)
      hb := .choosing ((c.reps q).voteFor v) 0 c' } : Replica)) hnext

/-- Its vote leaves for the first candidate of the majority, and it waits for it, if it is not the one. -/
theorem GoesOn.casts (hR : R.atomic = true ∨ R.peersKept = true) (h : GoesOn n R (Event.Among Q) b c tr)
    (hQ : IsQuorum n Q) (hp : p < n) (hd : FirstAfter n p d Q) (hqQ : q ∈ Q)
    (hs : (c.reps q).Stands k kvMap .viewChange p (v + 1) (.startSent (v + 1) v))
    (hheard : ∀ j ∈ Q, j ≠ q → ⟨q, .startViewChange ⟨v + 1, j⟩⟩ ∈ c.net) :
    ∃ c', GoesOn n R (Event.Among Q) b c'
        (tr ++ [.voted q ((c.reps q).voteFor v), .selected q (v + 1) (inOrder n p d)]) ∧ c.Apart q c' ∧
      (c'.reps q).Stands k kvMap .viewChange (inOrder n p d) (v + 1)
        (if q = inOrder n p d then .doWait (v + 1) else .viewWait (v + 1)) ∧
      ((c.reps q).Unjoined (v + 1) → (c'.reps q).Unjoined (v + 1)) ∧
      (c'.reps q).votesFor (v + 1) = (c.reps q).votesFor (v + 1) ++ [(c.reps q).voteFor v] ∧
      (c'.reps q).doViewChangeMap.cnt (v + 1) = (c.reps q).doViewChangeMap.cnt (v + 1) + 1 ∧
      (q ≠ inOrder n p d → ⟨inOrder n p d, .doViewChange ((c.reps q).voteFor v)⟩ ∈ c'.net) := by
  have hq := hQ.mem_lt hqQ
  have hreps : (c.reps q).replicas = peersOf n q := ((h.runs.moves.peers hR).1 q).replicas_eq
  obtain ⟨c₂, m, h₂, ha₂, hq₂⟩ := h.reachesLoop hR hQ hp hqQ hs hheard
  generalize hinfo : (c.reps q).voteFor v = info at h₂ hq₂ ⊢
  have hv : info.viewNum = v + 1 := hinfo ▸ rfl
  obtain ⟨c₃, h₃, hq₃, ha₃⟩ := GoesOn.skips hqQ hq d 0 h₂ (by rw [hq₂]; exact hs.up) (by rw [hq₂]; exact hreps)
    (by rw [hq₂]) (by have := hd.two; omega) (fun l hl he => hd.before l (by omega) (he ▸ hqQ))
  rw [hq₂, Nat.zero_add] at hq₃
  have hact : (c₃.reps q).act 0 (.candidate .answered) =
      .ok ((c₃.reps q).candidate info d (inOrder n p d) .answered) := by
    simp only [hq₃, Replica.act]
  have hup₃ : (c₃.reps q).up = true := by rw [hq₃]; exact hs.up
  have hid₃ := h₃.runs.moves.id_eq q
  obtain ⟨S, sent, hlast, hsent, hS⟩ := Replica.candidate_answered (r := c₃.reps q) d (by
    rw [hid₃, hq₃]
    by_cases hf : inOrder n p d = q
    · exact .inl hf
    · right
      show _ ∈ (c.reps q).replicas
      rw [hreps]
      exact Replica.mem_peersOf.2 ⟨hQ.mem_lt hd.mem, hf⟩)
  rw [hlast, hid₃, hv] at hact
  obtain ⟨c₄, h₄, hq₄, ha₄, hn₄⟩ := h₃.turn hqQ hq hup₃ hact (by simp [Rules.eventOk]) rfl
  rw [hq₃] at hq₄ hS
  refine ⟨c₄, ?_, (ha₂.trans ha₃).trans ha₄, ?_, fun hj => ?_, by simp [hq₄, Replica.votesFor], ?_, fun hne => ?_⟩
  · rw [List.append_assoc] at h₄
    exact h₄
  · rw [hq₄]
    exact { hs with priId := rfl, hb := by simp only [eq_comm] }
  · rw [hq₄]
    exact ⟨hj.1, (hS _).trans hj.2⟩
  · rw [hq₄]
    exact (WaitMap.cnt_bump _ _ _).trans (if_pos rfl)
  · rw [hn₄]
    exact List.mem_append_right _ (hsent (by rw [hid₃]; exact Ne.symm hne))

/-- Until replica `f` starts view `v + 1`: nobody of `Q` has heard of its start, the votes `f` has are those of replicas
in step, and those were `NORMAL` in view `v` last. -/
structure Cluster.Unstarted (c : Cluster) (v k f : Nat) (Q : Finset Nat) (tr : List Obs) : Prop where
  starts : ∀ q ∈ Q, (c.reps q).Unjoined (v + 1)
  votes : ∀ info ∈ (c.reps f).votesFor (v + 1), info.Tells k Q
  last : ∀ q ∈ Q, lastNormal tr (v + 1) q = v

/-- The replicas `l` of `Q` have not yet entered view `v + 1`; the others have told everybody that they have. -/
structure Cluster.Entering (c : Cluster) (p v k f : Nat) (kvMap : KvMap) (Q : Finset Nat)
    (rs : List (Nat × Req × Result)) (l : List Nat) (tr : List Obs) : Prop where
  nodup : l.Nodup
  sub : ∀ q ∈ l, q ∈ Q
  ready : ∀ q ∈ l, (c.reps q).Stands k kvMap .normal p v .idle
  entered : ∀ q ∈ Q, q ∉ l → (c.reps q).Stands k kvMap .viewChange p (v + 1) (.startSent (v + 1) v)
  told : ∀ q ∈ Q, q ∉ l → ∀ j ∈ Q, j ≠ q → ⟨j, .startViewChange ⟨v + 1, q⟩⟩ ∈ c.net
  unstarted : c.Unstarted v k f Q tr
  replied : replies tr = rs

theorem Cluster.Entering.next (hR : R.atomic = true ∨ R.peersKept = true) (hQ : IsQuorum n Q) (hpQ : p ∉ Q) {f : Nat}
    {rs : List (Nat × Req × Result)} {l : List Nat} (h : GoesOn n R (Event.Among Q) b c tr)
    (hE : c.Entering p v k f kvMap Q rs (q :: l) tr) :
    ∃ c' os, GoesOn n R (Event.Among Q) b c' (tr ++ os) ∧ c'.Entering p v k f kvMap Q rs l (tr ++ os) := by
  obtain ⟨hql, hnd⟩ := List.nodup_cons.1 hE.nodup
  have hqQ := hE.sub q List.mem_cons_self
  have hq := hQ.mem_lt hqQ
  have hs := hE.ready q List.mem_cons_self
  have hid := h.runs.moves.id_eq q
  have hpeers := (h.runs.moves.peers hR).1 q
  obtain ⟨c₁, h₁, hq₁, ha₁, hn₁⟩ := h.turn hqQ hq hs.up
    (hs.act_changeViewBegin (by rw [hid]; exact fun he => hpQ (he ▸ hqQ)) (hE.unstarted.starts q hqQ).1) rfl rfl
  have hq₁ : c₁.reps q =
      { c.reps q with status := .viewChange, viewNum := v + 1, hb := .startSent (v + 1) v } := hq₁
  have hne : ∀ j ∈ l, j ≠ q := fun j hj he => hql (he ▸ hj)
  refine ⟨c₁, _, h₁, hnd, fun j hj => hE.sub j (List.mem_cons_of_mem _ hj), fun j hj => ?_, fun j hj hjl => ?_,
    fun j hj hjl i hi hij => ?_, ⟨fun j hj => ?_, fun info hinfo => ?_, fun j hj => ?_⟩, ?_⟩
  · rw [ha₁.reps j (hne j hj)]
    exact hE.ready j (List.mem_cons_of_mem _ hj)
  · by_cases hjq : j = q
    · rw [hjq, hq₁]
      exact { hs with status := rfl, viewNum := rfl, hb := rfl }
    · rw [ha₁.reps j hjq]
      exact hE.entered j hj (fun hm => (List.mem_cons.1 hm).elim hjq hjl)
  · rw [hn₁]
    by_cases hjq : j = q
    · subst hjq
      refine List.mem_append_right _ (Replica.mem_invokeForAllReplicas.2 ⟨by rw [hid], ?_, by rw [hid]; exact hij⟩)
      exact hpeers.mem.2 ⟨hQ.mem_lt hi, hij⟩
    · exact List.mem_append_left _ (hE.told j hj (fun hm => (List.mem_cons.1 hm).elim hjq hjl) i hi hij)
  · by_cases hjq : j = q
    · rw [hjq, hq₁]
      exact hE.unstarted.starts q hqQ
    · rw [ha₁.reps j hjq]
      exact hE.unstarted.starts j hj
  · refine hE.unstarted.votes info ?_
    by_cases hfq : f = q
    · rw [hfq, hq₁] at hinfo
      rwa [hfq]
    · rwa [ha₁.reps f hfq] at hinfo
  · rw [lastNormal_append (by simp)]
    exact hE.unstarted.last j hj
  · rw [replies_append, hE.replied]
    simp [replies, Obs.answer]

/-- The replicas `l` of `Q` have not yet voted, but may hear of all the others; the votes of the rest are with the first
candidate. -/
structure Cluster.Electing (c : Cluster) (p v k f : Nat) (kvMap : KvMap) (Q : Finset Nat)
    (rs : List (Nat × Req × Result)) (l : List Nat) (tr : List Obs) : Prop where
  nodup : l.Nodup
  sub : ∀ q ∈ l, q ∈ Q
  waiting : ∀ q ∈ l, (c.reps q).Stands k kvMap .viewChange p (v + 1) (.startSent (v + 1) v)
  heard : ∀ q ∈ l, ∀ j ∈ Q, j ≠ q → ⟨q, .startViewChange ⟨v + 1, j⟩⟩ ∈ c.net
  voted : ∀ q ∈ Q, q ∉ l →
    (c.reps q).Stands k kvMap .viewChange f (v + 1) (if q = f then .doWait (v + 1) else .viewWait (v + 1))
  enough : Q.card ≤ ((c.reps f).votesFor (v + 1)).length + l.length
  counted : Q.card ≤ (c.reps f).doViewChangeMap.cnt (v + 1) + l.length
  unstarted : c.Unstarted v k f Q tr
  replied : replies tr = rs

theorem Replica.Stands.voteFor_tells {r : Replica} {status : Status} {pri w : Nat} {hb : HbPc}
    (h : r.Stands k kvMap status pri w hb) (hid : r.id ∈ Q) : (r.voteFor v).Tells k Q :=
  ⟨(InMemOpLogHandler.map_opNum_getLog _).trans h.opNums, h.commitNum, h.commitNum, hid⟩

/-- A vote reaches the first candidate, is stored and counted. -/
theorem GoesOn.storesVote (h : GoesOn n R (Event.Among Q) b c tr) {f : Nat} (hfQ : f ∈ Q) (hf : f < n)
    {info : ViewChangeInfo} {pri w : Nat} {hb : HbPc}
    (hs : (c.reps f).Stands k kvMap .viewChange pri w hb) (hv : info.viewNum = w)
    (hm : ⟨f, .doViewChange info⟩ ∈ c.net) :
    ∃ c', GoesOn n R (Event.Among Q) b c' tr ∧ c.Apart f c' ∧
      (∀ pk ∈ c.net, pk ≠ ⟨f, .doViewChange info⟩ → pk ∈ c'.net) ∧ c'.reps f = { c.reps f with
        viewChangeInfoMap := (c.reps f).viewChangeInfoMap.insert w ((c.reps f).votesFor w ++ [info])
        doViewChangeMap := (c.reps f).doViewChangeMap.bump w
        listener := none } := by
  subst hv
  obtain ⟨c₁, h₁, hf₁, ha₁, hn₁⟩ := h.hear hfQ hm hf hs.up (hs.handle_doViewChange rfl)
  have hact : (c₁.reps f).act 0 .doViewChangeCount = .ok ((c₁.reps f).doViewChangeCount info) := by
    simp only [Replica.act, hf₁]
  obtain ⟨c₂, h₂, hf₂, ha₂, hn₂⟩ := h₁.calm hfQ hf (by rw [hf₁]; exact hs.up) hact (by simp [Rules.eventOk, hf₁])
  exact ⟨c₂, h₂, ha₁.trans ha₂, fun pk hpk hne => by rw [hn₂]; exact hn₁ pk hpk hne, by rw [hf₂, hf₁]⟩

/-- **A vote, from its sender to the first candidate.** -/
theorem GoesOn.votes (hR : R.atomic = true ∨ R.peersKept = true) (h : GoesOn n R (Event.Among Q) b c tr)
    (hQ : IsQuorum n Q) (hp : p < n) (hd : FirstAfter n p d Q) {f : Nat} (hf : inOrder n p d = f) (hqQ : q ∈ Q)
    (hs : (c.reps q).Stands k kvMap .viewChange p (v + 1) (.startSent (v + 1) v))
    (hheard : ∀ j ∈ Q, j ≠ q → ⟨q, .startViewChange ⟨v + 1, j⟩⟩ ∈ c.net)
    (hfs : f ≠ q → ∃ pri hb, (c.reps f).Stands k kvMap .viewChange pri (v + 1) hb) :
    ∃ c' info, GoesOn n R (Event.Among Q) b c' (tr ++ [.voted q info, .selected q (v + 1) f]) ∧ info.Tells k Q ∧
      (c'.reps f).votesFor (v + 1) = (c.reps f).votesFor (v + 1) ++ [info] ∧
      (c'.reps f).doViewChangeMap.cnt (v + 1) = (c.reps f).doViewChangeMap.cnt (v + 1) + 1 ∧
      (∀ j, (c.reps j).Unjoined (v + 1) → (c'.reps j).Unjoined (v + 1)) ∧
      (c'.reps q).Stands k kvMap .viewChange f (v + 1) (if q = f then .doWait (v + 1) else .viewWait (v + 1)) ∧
      (∀ j pri hb, j ≠ q → (c.reps j).Stands k kvMap .viewChange pri (v + 1) hb →
        (c'.reps j).Stands k kvMap .viewChange pri (v + 1) hb) ∧
      ∀ i req, i ≠ q → ⟨i, .startViewChange req⟩ ∈ c.net → ⟨i, .startViewChange req⟩ ∈ c'.net := by
  have hid := h.runs.moves.id_eq q
  obtain ⟨c₁, h₁, ha₁, hs₁, hstarts₁, hvotes₁, hcnt₁, hsent₁⟩ := h.casts hR hQ hp hd hqQ hs hheard
  rw [hf] at h₁ hs₁ hsent₁
  have htells : ((c.reps q).voteFor v).Tells k Q := hs.voteFor_tells (hid.symm ▸ hqQ)
  by_cases hfq : f = q
  · refine ⟨c₁, _, h₁, htells, by rw [hfq]; exact hvotes₁, by rw [hfq]; exact hcnt₁, fun j hu => ?_, hs₁,
      fun j pri hb hj hsj => ?_, fun i req hi hm => ha₁.net _ hm hi⟩
    · by_cases hj : j = q
      · rw [hj] at hu ⊢
        exact hstarts₁ hu
      · rw [ha₁.reps j hj]
        exact hu
    · rw [ha₁.reps j hj]
      exact hsj
  · obtain ⟨pri, hb, hsf⟩ := hfs hfq
    have hf₁ := ha₁.reps f hfq
    have hfQ : f ∈ Q := hf ▸ hd.mem
    obtain ⟨c₂, h₂, ha₂, hn₂, hf₂⟩ := h₁.storesVote (w := v + 1) hfQ (hQ.mem_lt hfQ)
      (by rw [hf₁]; exact hsf) rfl (hsent₁ (Ne.symm hfq))
    rw [hf₁] at hf₂
    refine ⟨c₂, _, h₂, htells, by simp [hf₂, Replica.votesFor], by simp [hf₂], fun j hu => ?_, ?_,
      fun j pri hb hj hsj => ?_, fun i req hi hm => hn₂ _ (ha₁.net _ hm hi) (by simp)⟩
    · by_cases hj : j = f
      · rw [hj] at hu ⊢
        rw [hf₂]
        exact hu
      · rw [ha₂.reps j hj]
        by_cases hjq : j = q
        · rw [hjq] at hu ⊢
          exact hstarts₁ hu
        · rw [ha₁.reps j hjq]
          exact hu
    · rw [ha₂.reps q (Ne.symm hfq)]
      exact hs₁
    · by_cases hjf : j = f
      · rw [hjf, hf₂]
        rw [hjf] at hsj
        exact { hsj with listener := rfl }
      · rw [ha₂.reps j hjf, ha₁.reps j hj]
        exact hsj

theorem Cluster.Electing.next (hR : R.atomic = true ∨ R.peersKept = true) (hQ : IsQuorum n Q) (hp : p < n)
    (hd : FirstAfter n p d Q) {f : Nat} (hf : inOrder n p d = f) {rs : List (Nat × Req × Result)} {l : List Nat}
    (h : GoesOn n R (Event.Among Q) b c tr) (hE : c.Electing p v k f kvMap Q rs (q :: l) tr) :
    ∃ c' os, GoesOn n R (Event.Among Q) b c' (tr ++ os) ∧ c'.Electing p v k f kvMap Q rs l (tr ++ os) := by
  obtain ⟨hql, hnd⟩ := List.nodup_cons.1 hE.nodup
  have hqQ := hE.sub q List.mem_cons_self
  have hne : ∀ j ∈ l, j ≠ q := fun j hj he => hql (he ▸ hj)
  have hcons : ∀ j, j ≠ q → j ∉ l → j ∉ q :: l := fun j hjq hjl hm => (List.mem_cons.1 hm).elim hjq hjl
  have hfs : f ≠ q → ∃ pri hb, (c.reps f).Stands k kvMap .viewChange pri (v + 1) hb := fun hfq => by
    by_cases hfl : f ∈ l
    · exact ⟨_, _, hE.waiting f (List.mem_cons_of_mem _ hfl)⟩
    · exact ⟨_, _, hE.voted f (hf ▸ hd.mem) (hcons f hfq hfl)⟩
  obtain ⟨c₁, info, h₁, htells, hvotes, hcnt, hstarts, hs₁, hstands, hnet⟩ := h.votes hR hQ hp hd hf hqQ
    (hE.waiting q List.mem_cons_self) (hE.heard q List.mem_cons_self) hfs
  refine ⟨c₁, _, h₁, hnd, fun j hj => hE.sub j (List.mem_cons_of_mem _ hj),
    fun j hj => hstands j _ _ (hne j hj) (hE.waiting j (List.mem_cons_of_mem _ hj)),
    fun j hj i hi hij => hnet j _ (hne j hj) (hE.heard j (List.mem_cons_of_mem _ hj) i hi hij), fun j hj hjl => ?_,
    ?_, ?_, ⟨fun j hj => hstarts j (hE.unstarted.starts j hj), fun x hx => ?_, fun j hj => ?_⟩, ?_⟩
  · by_cases hjq : j = q
    · rw [hjq]
      exact hs₁
    · exact hstands j _ _ hjq (hE.voted j hj (hcons j hjq hjl))
  · have := hE.enough
    rw [List.length_cons] at this
    rw [hvotes, List.length_append, List.length_singleton]
    omega
  · have := hE.counted
    rw [List.length_cons] at this
    rw [hcnt]
    omega
  · rw [hvotes] at hx
    rcases List.mem_append.1 hx with hx | hx
    · exact hE.unstarted.votes x hx
    · rw [List.mem_singleton.1 hx]
      exact htells
  · rw [lastNormal_append (by simp)]
    exact hE.unstarted.last j hj
  · rw [replies_append, hE.replied]
    simp [replies, Obs.answer]

end

section

variable {n : Nat} {b : Cluster × List Obs} {c : Cluster} {tr : List Obs} {p v k f q : Nat} {kvMap : KvMap}
  {Q : Finset Nat} {rs : List (Nat × Req × Result)}

theorem Rules.fresh_pass : ∀ a b, Rules.fresh.pass a b = true → b = a + 1 := fun _ _ h => of_decide_eq_true h

/-- Votes of replicas in step meet what viewstamped replication asks of them. -/
theorem Cluster.Unstarted.newest (h : c.Unstarted v k f Q tr) (hne : (c.reps f).votesFor (v + 1) ≠ []) :
    noneLeft ((c.reps f).votesFor (v + 1)) = true ∧
      picksNewest (lastNormal tr (v + 1)) ((c.reps f).votesFor (v + 1)) = true := by
  have hvotes := h.votes
  constructor
  · refine List.all_eq_true.2 (fun info hinfo => List.all_eq_true.2 (fun e he => decide_eq_true ?_))
    have hm : e.opNum ∈ info.opLog.map LogEntry.opNum := List.mem_map_of_mem he
    rw [(hvotes info hinfo).opNums, List.mem_range'_1] at hm
    rw [(hvotes info hinfo).opNum]
    omega
  · obtain ⟨cand, hc⟩ : ∃ cand, selectCandidate ((c.reps f).votesFor (v + 1)) = some cand := by
      cases hv : (c.reps f).votesFor (v + 1) with
      | nil => exact absurd hv hne
      | cons info rest => exact ⟨_, selectCandidate_cons info rest⟩
    have hcand := hvotes cand (selectCandidate_mem hc)
    rw [picksNewest, hc, Option.any_some]
    refine List.all_eq_true.2 (fun info hinfo => decide_eq_true (.inr ⟨?_, ?_⟩))
    · rw [h.last _ (hvotes info hinfo).replicaId, h.last _ hcand.replicaId]
    · rw [(hvotes info hinfo).opNum, hcand.opNum]

/-- **The first candidate starts the view.** -/
theorem Cluster.Electing.starts (h : GoesOn n Rules.fresh (Event.Among Q) b c tr) (hQ : IsQuorum n Q) (hk : 1 ≤ k)
    (hf : f ∈ Q) (hE : c.Electing p v k f kvMap Q rs [] tr) :
    ∃ c' x, GoesOn n Rules.fresh (Event.Among Q) b c' (tr ++ [.newView f true x]) ∧ x.viewNum = v + 1 ∧ x.opNum = k ∧
      x.commitNum = k ∧ x.replicaId = f ∧ c.Apart f c' ∧ (c'.reps f).Stands k kvMap .normal f (v + 1) .idle ∧
      ∀ q ∈ Q, q ≠ f → ⟨q, .startView x⟩ ∈ c'.net := by
  have hM := h.runs.moves
  have hfn := hQ.mem_lt hf
  have hid := hM.id_eq f
  have hpeers := (hM.peers (.inl rfl)).1 f
  have hs := hE.voted f hf List.not_mem_nil
  rw [if_pos rfl] at hs
  have hq : (c.reps f).getMajorityCnt ≤ ((c.reps f).votesFor (v + 1)).length := by
    have := hE.enough
    have := hQ.2
    rw [hpeers.majority hfn]
    simpa using (hQ.2.trans hE.enough)
  have hcnt : (c.reps f).getMajorityCnt ≤ (c.reps f).doViewChangeMap.cnt (v + 1) := by
    rw [hpeers.majority hfn]
    simpa using (hQ.2.trans hE.counted)
  have hnew := hE.unstarted.newest (fun he => by
    rw [he, hpeers.majority hfn] at hq
    exact absurd hq (by simp))
  obtain ⟨cand, hc, hcv, hcov⟩ := hM.covered_primary Rules.fresh_strict Rules.fresh_pass hfn hs.hb hq hnew
  have htells := hE.unstarted.votes cand (selectCandidate_mem hc)
  have hnum : cand.opNum = (c.reps f).commitNum := htells.opNum.trans hs.commitNum.symm
  have hact : (c.reps f).act 0 .hbWake = .ok ((c.reps f).started cand (c.reps f).kvMap [] 0) := by
    have hwake : (c.reps f).doWake (v + 1) 0 = some ((c.reps f).started cand (c.reps f).kvMap [] 0) := by
      unfold Replica.doWake
      rw [if_pos (by rw [Replica.quorumReached, decide_eq_true_eq]; exact hcnt)]
      exact hcov.updateNewView_true (by rw [hs.commitNum]; exact hk) hnum.le hq hc hcv 0
    simp only [Replica.act, hs.hb, hwake]
    rfl
  have hobs : ((c.reps f).started cand (c.reps f).kvMap [] 0).obs =
      [.newView f true ((c.reps f).viewStartInfo cand)] := by
    show [Obs.newView (c.reps f).id true _] = _
    rw [hid]
  obtain ⟨c₁, h₁, hf₁, ha₁, hn₁⟩ := h.turn hf hfn hs.up hact (by simp [Rules.eventOk, hs.hb]) (by
    rw [hobs, List.all_cons, List.all_nil, Bool.and_true]
    show (decide (cand.commitNum ≤ (c.reps f).commitNum) && (noneLeft ((c.reps f).votesFor cand.viewNum) &&
      picksNewest (lastNormal tr cand.viewNum) ((c.reps f).votesFor cand.viewNum))) = true
    rw [hcv, hnew.1, hnew.2, htells.commitNum, hs.commitNum, decide_eq_true le_rfl]
    rfl)
  rw [hobs] at h₁
  refine ⟨c₁, _, h₁, hcv, htells.opNum, htells.commitNum, hid, ha₁, ?_, fun q hqQ hqf => ?_⟩
  · have := hs.adopted hcov htells.opNum htells.commitNum 0
    rw [hf₁]
    rwa [show ((c.reps f).startInfo cand).replicaId = f from hid,
      show ((c.reps f).startInfo cand).viewNum = v + 1 from hcv] at this
  · rw [hn₁]
    refine List.mem_append_right _ (Replica.mem_invokeForAllReplicas.2 ⟨rfl, ?_, by rw [hid]; exact hqf⟩)
    exact hpeers.mem.2 ⟨hQ.mem_lt hqQ, hqf⟩

/-- The view has started with `x`: the replicas `l` of `Q` have it before them, the others are in step in it. -/
structure Cluster.Joining (c : Cluster) (v k f : Nat) (kvMap : KvMap) (Q : Finset Nat) (x : ViewStartInfo)
    (rs : List (Nat × Req × Result)) (l : List Nat) (tr : List Obs) : Prop where
  nodup : l.Nodup
  sub : ∀ q ∈ l, q ∈ Q
  waiting : ∀ q ∈ l, (c.reps q).Stands k kvMap .viewChange f (v + 1) (.viewWait (v + 1)) ∧
    (c.reps q).Unjoined (v + 1) ∧ ⟨q, .startView x⟩ ∈ c.net
  joined : ∀ q ∈ Q, q ∉ l → (c.reps q).Stands k kvMap .normal f (v + 1) .idle
  replied : replies tr = rs

theorem Cluster.Joining.next (hQ : IsQuorum n Q) (hk : 1 ≤ k) {x : ViewStartInfo} (hv : x.viewNum = v + 1)
    (hx : x.opNum = k) (hxc : x.commitNum = k) (hxf : x.replicaId = f) {l : List Nat}
    (h : GoesOn n Rules.fresh (Event.Among Q) b c tr) (hJ : c.Joining v k f kvMap Q x rs (q :: l) tr) :
    ∃ c' os, GoesOn n Rules.fresh (Event.Among Q) b c' (tr ++ os) ∧ c'.Joining v k f kvMap Q x rs l (tr ++ os) := by
  obtain ⟨hql, hnd⟩ := List.nodup_cons.1 hJ.nodup
  have hqQ := hJ.sub q List.mem_cons_self
  have hq := hQ.mem_lt hqQ
  obtain ⟨hs, hnew, hm⟩ := hJ.waiting q List.mem_cons_self
  obtain ⟨c₀, h₀, hq₀, ha₀, -⟩ := h.hear hqQ hm hq hs.up (hs.handle_startView hv hnew.1)
  obtain ⟨c₁, h₁, hq₁, ha₁, -⟩ := h₀.calm hqQ hq (by rw [hq₀]; exact hs.up)
    (Replica.act_startViewCount (by rw [hq₀]) (by rw [hq₀]; exact hnew.2))
    (by simp [Rules.eventOk, hq₀])
  rw [hq₀] at hq₁
  have hs₁ : (c₁.reps q).Stands k kvMap .viewChange f (v + 1) (.viewWait (v + 1)) := by
    rw [hq₁]
    exact { hs with status := rfl, listener := rfl }
  have hx₁ : (c₁.reps q).viewStartInfoMap.lookup (v + 1) = some x := by
    rw [hq₁]
    exact Finmap.lookup_insert _
  obtain ⟨-, hcov⟩ := h₁.runs.moves.covered_backup Rules.fresh_strict Rules.fresh_pass hx₁ (by simp [hs₁.status])
    (.inr ⟨by simp [hs₁.hb], hs₁.viewNum⟩)
  have hid := h₁.runs.moves.id_eq q
  have hact : (c₁.reps q).act 0 .hbWake = .ok ((c₁.reps q).joined x (c₁.reps q).kvMap [] 0) := by
    have hwake : (c₁.reps q).viewWake (v + 1) 0 = some ((c₁.reps q).joined x (c₁.reps q).kvMap [] 0) := by
      unfold Replica.viewWake
      rw [if_pos (by rw [hq₁]; simp [hnew.2])]
      exact hcov.updateNewView_false (by rw [hs₁.commitNum]; exact hk) (by rw [hx, hs₁.commitNum]) hx₁ hv 0
    simp only [Replica.act, hs₁.hb, hwake]
    rfl
  have hobs : ((c₁.reps q).joined x (c₁.reps q).kvMap [] 0).obs = [.newView q false x] := by
    show [Obs.newView (c₁.reps q).id false _] = _
    rw [hid]
  obtain ⟨c₂, h₂, hq₂, ha₂, -⟩ := h₁.turn hqQ hq hs₁.up hact (by simp [Rules.eventOk, hs₁.hb]) (by
    rw [hobs, List.all_cons, List.all_nil, Bool.and_true]
    show (decide (x.commitNum ≤ (c₁.reps q).commitNum) && true) = true
    rw [hxc, hs₁.commitNum, decide_eq_true le_rfl]
    rfl)
  have ha := (ha₀.trans ha₁).trans ha₂
  have hne : ∀ j ∈ l, j ≠ q := fun j hj he => hql (he ▸ hj)
  rw [hobs] at h₂
  refine ⟨c₂, _, h₂, hnd, fun j hj => hJ.sub j (List.mem_cons_of_mem _ hj), fun j hj => ?_, fun j hj hjl => ?_, ?_⟩
  · obtain ⟨hsj, hnj, hmj⟩ := hJ.waiting j (List.mem_cons_of_mem _ hj)
    rw [ha.reps j (hne j hj)]
    exact ⟨hsj, hnj, ha.net _ hmj (hne j hj)⟩
  · by_cases hjq : j = q
    · have := hs₁.adopted hcov hx hxc 0
      rw [hjq, hq₂]
      rwa [hxf, hv] at this
    · rw [ha.reps j hjq]
      exact hJ.joined j hj (fun hm => (List.mem_cons.1 hm).elim hjq hjl)
  · rw [replies_append, hJ.replied]
    simp [replies, Obs.answer]

/-- What a majority at rest in view `v` has, as long as nobody has entered a later one. -/
theorem Runs.stands (h : Runs n Rules.fresh c tr) (hlast : ∀ q w, .entered q w ∈ tr → w ≤ v)
    (hrest : (c.reps q).AtRest p v k kvMap .idle) (hop : (c.reps q).opNum = k)
    (hcnt : ∀ t, k < t → (c.reps q).waitMap.cnt t = 0) :
    (c.reps q).Stands k kvMap .normal p v .idle ∧ (c.reps q).Unjoined (v + 1) ∧
      (c.reps q).votesFor (v + 1) = [] ∧ lastNormal tr (v + 1) q = v := by
  have hM := h.moves
  have hnone : ∀ q, .entered q (v + 1) ∉ tr := fun q hq => absurd (hlast q _ hq) (by omega)
  have hidle : ¬ ViewStarted tr (v + 1) := fun ⟨q, info, hnew, hv⟩ => by
    obtain ⟨S, -, hd, hS⟩ := hM.backed_of_newView (.inl rfl) rfl hnew
    exact hnone _ (hv ▸ (hS _ hd).1)
  obtain ⟨m, hm⟩ := (hM.lists rfl (fun _ _ h => Rules.fresh_strict.endsAtOpNum h)).1 q
  obtain rfl := (hm.normal hrest.status).symm.trans hop
  refine ⟨⟨hrest.up, hrest.status, hrest.priId, hrest.viewNum, hop, hrest.commitNum, hrest.kvMap, hm.opNums,
    hrest.client, hrest.hb, hrest.ppit, hrest.listener, hrest.prepReqQ, hcnt⟩, ⟨fun hin => hidle ?_, ?_⟩, ?_, ?_⟩
  · obtain ⟨info, hinfo⟩ := Finmap.mem_iff.1 hin
    obtain ⟨hv, hnew, -⟩ := (hM.known.1 q).starts _ info hinfo
    exact ⟨_, info, hnew, hv⟩
  · by_contra hc
    exact hidle (h.started hc)
  · refine List.eq_nil_iff_forall_not_mem.2 (fun info hinfo => ?_)
    obtain ⟨hv, hvoted⟩ := (hM.known.1 q).votes _ info hinfo
    exact hnone _ (hv ▸ (hM.views _).voted_entered info hvoted)
  · obtain ⟨s, -, hf⟩ := hM.refines_strict Rules.fresh_strict
    have hr := hf.rep q (by simp [hrest.status])
    have hnode := (hr.normal hrest.status).1.trans hrest.viewNum
    rw [hr.lastNormal _ (by omega), hnode]

/-- **The majority elects its first and is in step again.** -/
theorem GoesOn.fails_over (h : GoesOn n Rules.fresh (Event.Among Q) b c tr) (hQ : IsQuorum n Q) (hpQ : p ∉ Q)
    (hk : 1 ≤ k) (hrest : ∀ q ∈ Q, (c.reps q).AtRest p v k kvMap .idle ∧ (c.reps q).opNum = k ∧
      ∀ t, k < t → (c.reps q).waitMap.cnt t = 0)
    (hlast : ∀ q w, .entered q w ∈ tr → w ≤ v) :
    ∃ d c' os, FirstAfter n p d Q ∧ GoesOn n Rules.fresh (Event.Among Q) b c' (tr ++ os) ∧
      c'.Level (inOrder n p d) (v + 1) k kvMap Q ∧ replies os = [] := by
  have hstands : ∀ q ∈ Q, _ := fun q hq => h.runs.stands hlast (hrest q hq).1 (hrest q hq).2.1 (hrest q hq).2.2
  have hp : p < n := by
    obtain ⟨q, hq⟩ := Finset.card_pos.1 (Nat.lt_of_lt_of_le (Nat.succ_pos _) hQ.2)
    rw [← (hrest q hq).1.priId]
    exact ((h.runs.moves.peers (.inl rfl)).1 q).priId_lt (hQ.mem_lt hq)
  obtain ⟨d, hd⟩ := exists_firstAfter hQ hp hpQ
  generalize hf : inOrder n p d = f
  have hfQ : f ∈ Q := hf ▸ hd.mem
  have hE : c.Entering p v k f kvMap Q (replies tr) Q.toList tr :=
    ⟨Finset.nodup_toList _, fun q hq => Finset.mem_toList.1 hq, fun q hq => (hstands q (Finset.mem_toList.1 hq)).1,
      fun q hq hn => absurd (Finset.mem_toList.2 hq) hn, fun q hq hn => absurd (Finset.mem_toList.2 hq) hn,
      ⟨fun q hq => (hstands q hq).2.1, fun info hinfo => (by rw [(hstands f hfQ).2.2.1] at hinfo; cases hinfo),
        fun q hq => (hstands q hq).2.2.2⟩, rfl⟩
  obtain ⟨c₁, os₁, h₁, hE₁⟩ := Run.Onward.sweep (I := fun l c' tr' => c'.Entering p v k f kvMap Q (replies tr) l tr')
    (fun _ _ _ _ h' hE' => Cluster.Entering.next (.inl rfl) hQ hpQ h' hE') Q.toList h hE
  have hV : c₁.Electing p v k f kvMap Q (replies tr) Q.toList (tr ++ os₁) :=
    ⟨Finset.nodup_toList _, fun q hq => Finset.mem_toList.1 hq,
      fun q hq => hE₁.entered q (Finset.mem_toList.1 hq) List.not_mem_nil,
      fun q hq j hj hne => hE₁.told j hj List.not_mem_nil q (Finset.mem_toList.1 hq) (Ne.symm hne),
      fun q hq hn => absurd (Finset.mem_toList.2 hq) hn, by rw [Finset.length_toList]; exact Nat.le_add_left _ _,
      by rw [Finset.length_toList]; exact Nat.le_add_left _ _, hE₁.unstarted, hE₁.replied⟩
  obtain ⟨c₂, os₂, h₂, hV₂⟩ := Run.Onward.sweep (I := fun l c' tr' => c'.Electing p v k f kvMap Q (replies tr) l tr')
    (fun _ _ _ _ h' hV' => Cluster.Electing.next (.inl rfl) hQ hp hd hf h' hV') Q.toList h₁ hV
  obtain ⟨c₃, x, h₃, hv, hx, hxc, hxf, ha₃, hs₃, hsent₃⟩ := hV₂.starts h₂ hQ hk hfQ
  have hJ : c₃.Joining v k f kvMap Q x (replies tr) (Q.erase f).toList (tr ++ os₁ ++ os₂ ++ [.newView f true x]) := by
    refine ⟨Finset.nodup_toList _, fun q hq => (Finset.mem_erase.1 (Finset.mem_toList.1 hq)).2, fun q hq => ?_,
      fun q hq hn => ?_, ?_⟩
    · obtain ⟨hqf, hqQ⟩ := Finset.mem_erase.1 (Finset.mem_toList.1 hq)
      have hs := hV₂.voted q hqQ List.not_mem_nil
      rw [if_neg hqf] at hs
      rw [ha₃.reps q hqf]
      exact ⟨hs, hV₂.unstarted.starts q hqQ, hsent₃ q hqQ hqf⟩
    · by_cases hqf : q = f
      · rw [hqf]
        exact hs₃
      · exact absurd (Finset.mem_toList.2 (Finset.mem_erase.2 ⟨hqf, hq⟩)) hn
    · rw [replies_append, hV₂.replied]
      simp [replies, Obs.answer]
  obtain ⟨c₄, os₄, h₄, hJ₄⟩ := Run.Onward.sweep (I := fun l c' tr' => c'.Joining v k f kvMap Q x (replies tr) l tr')
    (fun _ _ _ _ h' hJ' => Cluster.Joining.next hQ hk hv hx hxc hxf h' hJ') (Q.erase f).toList h₃ hJ
  have hs₄ : ∀ q ∈ Q, (c₄.reps q).Stands k kvMap .normal f (v + 1) .idle := fun q hq =>
    hJ₄.joined q hq List.not_mem_nil
  refine ⟨d, c₄, os₁ ++ (os₂ ++ ([.newView f true x] ++ os₄)), hd, by simpa only [List.append_assoc] using h₄,
    hf ▸ ⟨hfQ, fun q hq => (hs₄ q hq).atRest, fun q hq => (hs₄ q hq).opNum, (hs₄ f hfQ).uncounted⟩, ?_⟩
  have hr := hJ₄.replied
  rw [List.append_assoc, List.append_assoc, List.append_assoc, replies_append] at hr
  exact List.append_right_eq_self.1 hr

end

/-- **A majority in step outlives its primary.**  From any state of a run in which the replicas of a majority without
the primary are at rest at the same number, not `0`, of the latest view anybody has entered, and none of them has
counted an answer for a later number, the run can go on by steps of that majority only, none of them at the primary:
the first of the majority in cyclic order after it becomes primary of the next view and answers any requests, one after
the other, as one `KvMemStore` with the map of before would, and all of them are in step with it and have its map in the
end. -/
theorem outlives_primary {n p v k : Nat} {kvMap : KvMap} {Q : Finset Nat} {c : Cluster} {tr : List Obs}
    (h : Runs n Rules.fresh c tr) (hQ : IsQuorum n Q) (hpQ : p ∉ Q) (hk : 1 ≤ k)
    (hrest : ∀ q ∈ Q, (c.reps q).AtRest p v k kvMap .idle ∧ (c.reps q).opNum = k ∧
      ∀ t, k < t → (c.reps q).waitMap.cnt t = 0)
    (hlast : ∀ q w, .entered q w ∈ tr → w ≤ v) (reqs : List Req) :
    ∃ d es c' os k' kvMap' ress, FirstAfter n p d Q ∧ (∀ e ∈ es, e.target ∈ Q ∧ e.target ≠ p) ∧
      Run.exec (Cluster.system n) (Rules.fresh.allowed n) es c tr = some (c', tr ++ os) ∧
      c'.Level (inOrder n p d) (v + 1) k' kvMap' Q ∧
      serveAll true kvMap (reqs.map (·, .done)) = .ok (kvMap', ress) ∧
      replies os = (reqs.zip ress).map (fun a => (inOrder n p d, a)) ∧ ∀ q ∈ Q, (c'.reps q).kvMap = kvMap' := by
  obtain ⟨d, c₁, os₁, hd, h₁, hL, hr₁⟩ := GoesOn.fails_over h.onward hQ hpQ hk hrest hlast
  obtain ⟨c₂, os₂, k', kvMap', ress, h₂, hL₂, hs, hr₂⟩ :=
    Cluster.Level.servesAll Rules.fresh_letsServe hQ reqs h₁ hL (hL.pathStore h₁.runs)
  obtain ⟨es, hes, he⟩ := h₂.path
  rw [List.append_assoc] at he
  exact ⟨d, es, c₂, os₁ ++ os₂, k', kvMap', ress, hd, fun e hm => ⟨hes e hm, fun heq => hpQ (heq ▸ hes e hm)⟩, he, hL₂,
    hs, by rw [replies_append, hr₁, hr₂]; rfl, fun q hq => (hL₂.rest q hq).kvMap⟩

/-- The replica has committed the `create` of `settledEvents` as a backup of replica `0`, and rests. -/
def Replica.settled (r : Replica) : Bool :=
  decide (r.up = true ∧ r.status = .normal ∧ r.priId = 0 ∧ r.viewNum = 0 ∧ r.commitNum = 1 ∧
    r.kvMap = Finmap.singleton [slash, 120] [] ∧ r.client = .idle ∧ r.hb = .idle ∧ r.ppit = none ∧ r.listener = none ∧
    r.prepReqQ = [] ∧ r.opNum = 1 ∧ r.waitMap = ∅)

theorem Replica.settled_rest {r : Replica} (h : r.settled = true) :
    r.AtRest 0 0 1 (Finmap.singleton [slash, 120] []) .idle ∧ r.opNum = 1 ∧ ∀ t, 1 < t → r.waitMap.cnt t = 0 := by
  obtain ⟨hup, hst, hpri, hv, hk, hmap, hcl, hhb, hpp, hli, hq, hop, hw⟩ := of_decide_eq_true h
  exact ⟨⟨hup, hst, hpri, hv, hk, hmap, hcl, hhb, hpp, hli, hq⟩, hop, fun t _ => by rw [hw, WaitMap.cnt_empty]⟩

/-- Replica `0` is gone, and `1` answers. -/
theorem outlives_primary_three : ∃ c tr es c' os, Runs 3 Rules.fresh c tr ∧ (c.reps 0).up = false ∧
    Run.exec (Cluster.system 3) (Rules.fresh.allowed 3) es c tr = some (c', tr ++ os) ∧ (c'.reps 1).viewNum = 1 ∧
    replies os = [(1, .get [slash, 120], .val [])] ∧ (c'.reps 2).kvMap = Finmap.singleton [slash, 120] [] := by
  obtain ⟨c, tr, h, hc⟩ := exists_runs (n := 3) (R := Rules.fresh) (settledEvents ++ [.crash 0])
    (fun c tr => (c.reps 1).settled && (c.reps 2).settled && !(c.reps 0).up && tr.all (fun o => !o.isView))
    (by decide +kernel)
  simp only [Bool.and_eq_true, Bool.not_eq_true', List.all_eq_true] at hc
  obtain ⟨⟨⟨h1, h2⟩, hdown⟩, hview⟩ := hc
  have hrest : ∀ q ∈ ({1, 2} : Finset Nat), (c.reps q).AtRest 0 0 1 (Finmap.singleton [slash, 120] []) .idle ∧
      (c.reps q).opNum = 1 ∧ ∀ t, 1 < t → (c.reps q).waitMap.cnt t = 0 := fun q hq => by
    rcases Finset.mem_insert.1 hq with rfl | hq
    · exact Replica.settled_rest h1
    · rw [Finset.mem_singleton.1 hq]
      exact Replica.settled_rest h2
  obtain ⟨d, es, c', os, k', kvMap, ress, hd, -, h', hL, hs, hr, hmap⟩ :=
    outlives_primary (Q := {1, 2}) h ⟨by decide, by decide⟩ (by decide) le_rfl hrest
      (fun q w hw => absurd (hview _ hw) (by simp [Obs.isView])) [.get [slash, 120]]
  have hd0 : d = 0 := by
    have := hd.two
    omega
  subst hd0
  have hs' : serveAll true (Finmap.singleton [slash, 120] [])
      (([.get [slash, 120]] : List Req).map (·, .done)) = .ok (Finmap.singleton [slash, 120] [], [.val []]) := rfl
  obtain ⟨rfl, rfl⟩ := Prod.mk.inj (Except.ok.inj (hs.symm.trans hs'))
  exact ⟨c, tr, es, c', os, h, hdown, h', (hL.rest 1 (by decide)).viewNum, hr, hmap 2 (by decide)⟩

end MetaDR
