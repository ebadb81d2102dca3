import MetaDR.Alone
import MetaDR.Replay
import MetaDR.Recovery
/-!
# History — the primary's log tells how its map came about

The primary of view `0`, as long as nobody starts another view: its client's operations go into the log one by one,
each is flagged and applied or neither.  So between operations its map is what `recoverStateFromLog` makes of its log,
numbers that timed out or not, and a replica that recovers from its answer ends with its state (`history_replays`).
-/
namespace MetaDR

namespace InMemOpLogHandler

theorem getLog_push {h : InMemOpLogHandler} {e : LogEntry} (hn : e.opNum ∉ h.opNums) :
    (h.push e).getLog = h.getLog ++ [e] := by
  have hold : ∀ n ∈ h.opNums, (h.push e).opLog.lookup n = h.opLog.lookup n := fun n hm => by
    have hne : n ≠ e.opNum := fun he => hn (he ▸ hm)
    exact (getLogEntry_push h e n).trans (if_neg hne)
  have hnew : (h.push e).opLog.lookup e.opNum = some e := (getLogEntry_push h e e.opNum).trans (if_pos rfl)
  rw [getLog, opNums_push, List.filterMap_append, List.filterMap_congr hold, getLog]
  simp only [List.filterMap_cons, hnew, List.filterMap_nil]

/-- A commit flags the entry of its number and leaves the others. -/
theorem getLog_commit {h h' : InMemOpLogHandler} {n : Nat} (hc : h.commit n = some h') :
    h'.getLog = h.getLog.map (fun e => if e.opNum = n then { e with committed := true } else e) := by
  obtain ⟨e, he, hnums, hget⟩ := commit_eq_some hc
  rw [getLog, getLog, hnums, List.map_filterMap]
  refine List.filterMap_congr (fun k hk => ?_)
  obtain ⟨x, hx⟩ := mem_opNums.1 hk
  have hx' : h.opLog.lookup k = some x := hx
  have hk := opNum_of_getLogEntry hx
  rw [hx', Option.map_some]
  refine (hget k).trans ?_
  by_cases hkn : k = n
  · rw [if_pos hkn, if_pos (hk.trans hkn)]
    rw [hkn, he] at hx
    cases hx
    rfl
  · rw [if_neg hkn, if_neg (fun hc => hkn (hk.symm.trans hc))]
    exact hx

end InMemOpLogHandler

/-- The messages a replica sends that is not the primary of a view. -/
def Msg.fromBackup : Msg → Bool
  | .prepare _ => false
  | .commit _ => false
  | .startView _ => false
  | _ => true

namespace Replica

/-- What the log holds once the operation under way is in the map. -/
def ahead (r : Replica) : KvMap :=
  match r.client with
  | .replicated _ m _ => m.op.apply r.kvMap
  | _ => r.kvMap

/-- The `NORMAL` primary of view `0`: its map comes of its log, and the operation that waits for its quorum is its
last. -/
structure History (r : Replica) : Prop where
  status : r.status = .normal
  priId : r.priId = r.id
  viewNum : r.viewNum = 0
  hb : r.hb = .idle
  listener : ∀ ci, r.listener ≠ some (.commit ci)
  queue : r.prepReqQ = []
  ppit : r.ppit = none
  nodup : r.log.opNums.Nodup
  bound : ∀ k ∈ r.log.opNums, k ≤ r.opNum
  ahead : r.ahead = applyAll (committedOps r.log.getLog)
  pending : ∀ req m p, (r.client = .prepared req m p ∨ r.client = .waiting req m p) →
    p.op = m.op ∧ ∃ pre, r.log.getLog = pre ++ [p.entry]

theorem History.isPrimary {r : Replica} (h : r.History) : r.isPrimary = true := by
  rw [Replica.isPrimary, h.priId]
  exact decide_eq_true rfl

theorem History.push {r : Replica} (h : r.History) {req : Req} {m : Mutation} {p : PrepInfo}
    (hc : r.client = .locked req m) (hn : p.opNum = r.opNum + 1) (ho : p.op = m.op) :
    History { r with opNum := r.opNum + 1, log := r.log.push p.entry, client := .prepared req m p } := by
  have hfresh : p.opNum ∉ r.log.opNums := fun hm => by
    have := h.bound _ hm
    omega
  have hlog : (r.log.push p.entry).getLog = r.log.getLog ++ [p.entry] := InMemOpLogHandler.getLog_push hfresh
  have hahead := h.ahead
  rw [Replica.ahead, hc] at hahead
  refine { h with nodup := ?_, bound := fun k hk => ?_, ahead := ?_, pending := fun req' m' p' hp' => ?_ }
  · rw [InMemOpLogHandler.opNums_push, List.nodup_append]
    exact ⟨h.nodup, List.nodup_singleton _, fun a ha b hb hab => hfresh (by
      rw [hab, List.mem_singleton.1 hb] at ha
      exact ha)⟩
  · show k ≤ r.opNum + 1
    rw [InMemOpLogHandler.opNums_push, List.mem_append, List.mem_singleton, PrepInfo.entry_opNum] at hk
    rcases hk with hk | hk
    · exact (h.bound k hk).trans (Nat.le_succ _)
    · omega
  · rw [hlog, applyAll_committedOps_concat, PrepInfo.entry_committed, if_neg Bool.false_ne_true]
    exact hahead
  · rcases hp' with hp' | hp' <;> cases hp'
    exact ⟨ho, _, hlog⟩

/-- The flag goes up on the last entry, whose operation is then ahead of the map. -/
theorem History.flag {r : Replica} (h : r.History) {req : Req} {m : Mutation} {p : PrepInfo} {log : InMemOpLogHandler}
    (hc : r.client = .waiting req m p) (hl : r.log.commit p.opNum = some log) (waitMap : WaitMap) :
    History { r with
      log := log, commitNum := p.opNum, waitMap := waitMap, client := .replicated req m p.opNum } := by
  obtain ⟨ho, pre, hpre⟩ := h.pending req m p (.inr hc)
  obtain ⟨-, -, hnums, -⟩ := InMemOpLogHandler.commit_eq_some hl
  have hothers : ∀ e ∈ pre, e.opNum ≠ p.opNum := fun e he hn => by
    have hd := h.nodup
    rw [← InMemOpLogHandler.map_opNum_getLog, hpre, List.map_append, List.nodup_append] at hd
    exact hd.2.2 _ (List.mem_map_of_mem he) _ List.mem_cons_self hn
  have hlog : log.getLog = pre ++ [{ p.entry with committed := true }] := by
    rw [InMemOpLogHandler.getLog_commit hl, hpre, List.map_append, List.map_cons, List.map_nil, PrepInfo.entry_opNum,
      if_pos rfl, List.map_congr_left (fun e he => if_neg (hothers e he)), List.map_id']
    rfl
  have hahead := h.ahead
  rw [Replica.ahead, hc, hpre, applyAll_committedOps_concat, PrepInfo.entry_committed,
    if_neg Bool.false_ne_true] at hahead
  refine { h with nodup := ?_, bound := ?_, ahead := ?_, pending := fun req' m' p' hp' => ?_ }
  · rw [hnums]
    exact h.nodup
  · rw [hnums]
    exact h.bound
  · rw [hlog, applyAll_committedOps_concat, if_pos rfl, ← hahead]
    show m.op.apply r.kvMap = p.op.apply r.kvMap
    rw [ho]
  · rcases hp' with hp' | hp' <;> cases hp'

end Replica

theorem Move.history {R : Rules} {tr : List Obs} {r r' : Replica} {msg : Option Msg} {sent : List Packet}
    {os : List Obs} (h : r.History) (hmsg : ∀ m, msg = some m → m.fromBackup = true)
    (m : Move R tr r msg r' sent os) : r'.History := by
  have hhb := h.hb
  have hahead := h.ahead
  unfold Replica.ahead at hahead
  cases m with
  | lock _ _ hc | giveUp _ _ _ hc =>
    rw [hc] at hahead
    exact { h with ahead := hahead, pending := fun req m p hp => by rcases hp with hp | hp <;> cases hp }
  | refuse req m hc hl hs => exact absurd h.status hs
  | prepare req m p hc hl hp hs hv hn ho hR => exact h.push hc hn ho
  | countOwn req m p hc =>
    rw [hc] at hahead
    refine { h with ahead := hahead, pending := fun req' m' p' hp' => ?_ }
    rcases hp' with hp' | hp' <;> cases hp'
    exact h.pending req m p (.inl hc)
  | passQuorum req m p log hc hq hR hl => exact h.flag hc hl _
  | finish req m k hc =>
    rw [hc] at hahead
    refine { h with ahead := ?_, pending := fun req m p hp => by rcases hp with hp | hp <;> cases hp }
    rw [← hahead]
    exact m.leave_eq r.kvMap
  | queue | listen | storeStart => cases hmsg _ rfl
  | pop p rest ppit hq => rw [h.queue] at hq; cases hq
  | ack p hp => rw [h.ppit] at hp; cases hp
  | takeOk | countOk | unlisten | storeVote | countVote => exact { h with listener := fun ci hci => by cases hci }
  | commitNext ci log e hi => exact absurd hi (h.listener ci)
  | enter sent hl hs hp => exact absurd ⟨h.isPrimary, h.status⟩ hp
  | startWait _ _ hb | candidate _ _ _ _ hb | select _ _ _ _ hb | startPrimary _ _ _ _ _ hb => rw [hhb] at hb; cases hb
  | vote v o info hb => rw [hhb] at hb; rcases hb with hb | hb <;> cases hb
  | giveUpView hb => rw [hhb] at hb; rcases hb with ⟨_, _, hb⟩ | ⟨_, hb⟩ | ⟨_, hb⟩ <;> cases hb
  | startBackup v info kvMap ops hb => rw [hhb] at hb; rcases hb with hb | ⟨_, hb⟩ <;> cases hb
  | recover hb sent hs => rw [h.status] at hs; cases hs
  | _ => exact { h with }

theorem Chain.history {R : Rules} {tr : List Obs} {r r' : Replica} {msg : Option Msg} {sent : List Packet}
    {os : List Obs} (h : r.History) (hmsg : ∀ m, msg = some m → m.fromBackup = true)
    (hch : Chain R tr r msg r' sent os) : r'.History := by
  induction hch with
  | one m => exact m.history h hmsg
  | more _ m ih => exact m.history ih (fun m hm => by cases hm)

namespace Replica

/-- No message arrives but those of backups. -/
def primaryEvent : LocalEvent → Bool
  | .recv msg _ => msg.fromBackup
  | .act _ _ => true

/-- The runs of the primary of view `0` before any view change. -/
abbrev PrimaryRuns (n : Nat) : Replica → List (LocalEvent × Step) → Prop :=
  Run.Reach (alone (init n 0)) (fun _ _ e => primaryEvent e)

theorem history_init (n : Nat) : (init n 0).History where
  status := rfl
  priId := rfl
  viewNum := rfl
  hb := rfl
  listener := fun ci hci => by cases hci
  queue := rfl
  ppit := rfl
  nodup := List.nodup_nil
  bound := fun k hk => absurd hk List.not_mem_nil
  ahead := rfl
  pending := fun req m p hp => by rcases hp with hp | hp <;> cases hp

theorem History.section_ok {r : Replica} (h : r.History) {e : LocalEvent} {s : Step} (he : primaryEvent e = true)
    (hs : r.localSection e = .ok s) : s.rep.History := by
  have hphase : r.Phase := by
    rw [Phase, h.hb]
    trivial
  rcases section_cases hs hphase [] with hch | ⟨nonce, now, hb, -⟩
  · refine hch.history h (fun m hm => ?_)
    cases e with
    | act a now => cases hm
    | recv msg now =>
      cases hm
      exact he
  · rw [h.hb] at hb
    rcases hb with hb | hb <;> cases hb

theorem PrimaryRuns.history {n : Nat} {r : Replica} {tr : List (LocalEvent × Step)} (h : PrimaryRuns n r tr) :
    r.History :=
  alone_invariant (P := fun r _ => r.History) (history_init n)
    (fun _ _ _ hin => { hin with }) (fun _ _ _ _ _ hin he hs => hin.section_ok he hs) h

end Replica

/-- **The primary's log is its history**: between operations its map is what the committed entries leave of the empty
one, in the order of the log; and a replica with an empty map that takes the primary's answer ends with the primary's
map, log and numbers. -/
theorem history_replays {n : Nat} {r : Replica} {tr : List (LocalEvent × Step)} (h : Replica.PrimaryRuns n r tr)
    (hidle : r.client = .idle) :
    r.kvMap = applyAll (committedOps r.log.getLog) ∧
      ∀ (x : Replica) (req : RecoveryRequest) (q : Packet) (resp : RecoveryResponse) (nonce now v : Nat),
        q ∈ (r.processRecoveryReqLocked req).sent → q.msg = .recoveryResponse resp → x.kvMap = ∅ →
        (x.respViewCnt.find? (fun p => x.quorumReached p.2)).map Prod.fst = some v →
        Replica.pickResponse v ((x.recoveryRespMap.lookup nonce).getD []) = some (some resp) →
        ∃ s, x.recoverEnd nonce now = some s ∧ s.rep.kvMap = r.kvMap ∧ s.rep.log = r.log ∧ s.rep.opNum = r.opNum ∧
          s.rep.commitNum = r.commitNum ∧ s.rep.viewNum = r.viewNum := by
  have hh := h.history
  have hkv : r.kvMap = applyAll (committedOps r.log.getLog) := by
    rw [← hh.ahead, Replica.ahead, hidle]
  refine ⟨hkv, fun x req q resp nonce now v hq hmsg hx hv hp => ?_⟩
  obtain ⟨s, hs, hfrom, hmap⟩ := Replica.recoverEnd_of_pick now hv hp
  obtain ⟨rfl, -⟩ := Replica.mem_sendTo hq
  cases hmsg
  have hpri : decide (r.priId = r.id) = true := decide_eq_true hh.priId
  refine ⟨s, hs, ?_, ?_, hfrom.opNum.trans (if_pos hpri), hfrom.commitNum.trans (if_pos hpri), hfrom.viewNum⟩
  · rw [hmap, hx, hpri, if_pos rfl, Replica.recoverStateFromLog_eq, ← hkv]
  · rw [hfrom.log, hpri, if_pos rfl, InMemOpLogHandler.setLog_getLog]

/-- A `create` that times out, and one that succeeds. -/
def holedEvents : List LocalEvent :=
  [.act (.clientCall (.create ⟨[slash, 120], []⟩)) 0, .act .replicateBegin 0, .act .replicateCount 0,
    .act .replicateTimeout 0,
    .act (.clientCall (.create ⟨[slash, 121], [97]⟩)) 0, .act .replicateBegin 0, .recv (.prepareOk ⟨0, 2, 1⟩) 0,
    .act .prepareOkCount 0, .act .replicateCount 0, .act .clientFinish 0]

/-- The answers of a primary to replica `1`. -/
def Replica.answers (r : Replica) (nonce : Nat) : List RecoveryResponse :=
  (r.processRecoveryReqLocked ⟨1, nonce⟩).sent.filterMap (fun q => match q.msg with
    | .recoveryResponse resp => some resp
    | _ => none)

/-- Replica `1` with the answers of the primary and of the other backup. -/
def Replica.restarted (r : Replica) : Replica :=
  (recovering 3 1 false).receiveAll (r.answers 7 ++ [.ofView 0 7 2 false])

theorem history_replays_three : ∃ r tr, Replica.PrimaryRuns 3 r tr ∧ r.commitNum = 2 ∧
    r.kvMap = applyAll (committedOps r.log.getLog) ∧ r.kvMap.lookup [slash, 120] = none ∧
    r.kvMap.lookup [slash, 121] = some [97] ∧
    ∃ s, r.restarted.recoverEnd 7 9 = some s ∧ s.rep.kvMap = r.kvMap ∧ s.rep.log = r.log := by
  obtain ⟨r, tr, h, hq⟩ : ∃ r tr, Replica.PrimaryRuns 3 r tr ∧
      (decide (r.client = .idle) && decide (r.commitNum = 2) && decide (r.kvMap.lookup [slash, 120] = none) &&
        decide (r.kvMap.lookup [slash, 121] = some [97]) &&
        decide (r.restarted.kvMap = ∅) &&
        decide ((r.restarted.respViewCnt.find? (fun p => r.restarted.quorumReached p.2)).map Prod.fst = some 0) &&
        (r.answers 7).any (fun resp =>
          decide (Replica.pickResponse 0 ((r.restarted.recoveryRespMap.lookup 7).getD []) =
            some (some resp)))) = true :=
    Run.exists_reach_of_exec holedEvents _ (by decide +kernel)
  simp only [Bool.and_eq_true, decide_eq_true_eq, List.any_eq_true] at hq
  obtain ⟨⟨⟨⟨⟨⟨hidle, hc⟩, hn⟩, hy⟩, hx⟩, hv⟩, resp, hresp, hp⟩ := hq
  obtain ⟨q, hq, hmsg⟩ := List.mem_filterMap.1 hresp
  have hmsg' : q.msg = .recoveryResponse resp := by
    split at hmsg
    · rename_i resp' he
      cases hmsg
      exact he
    · cases hmsg
  obtain ⟨hkv, hrec⟩ := history_replays h hidle
  obtain ⟨s, hs, hsk, hsl, -⟩ := hrec r.restarted ⟨1, 7⟩ q resp 7 9 0 hq hmsg' hx hv hp
  exact ⟨r, tr, h, hc, hkv, hn, hy, s, hs, hsk, hsl⟩

end MetaDR
