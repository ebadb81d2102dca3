import MetaDR.Store
/-!
# Replay — the store after a view change

`updateNewView` replays the adopted log from the old commit number on, but its loop ends one entry early:
`i < logSize()` on a log whose numbers begin at `1`.  So the map is that of every committed entry exactly when the last
entry, if it is one of those to replay, would not have changed it (`caught_up`).
-/
namespace MetaDR

namespace InMemOpLogHandler

/-- A log installed from a list that has each number once gives each of its entries back. -/
theorem getLogEntry_setLog_of_mem {opLog : OpLog} (hn : (opLog.map LogEntry.opNum).Nodup) {e : LogEntry}
    (he : e ∈ opLog) : (setLog opLog).getLogEntry e.opNum = some e :=
  getLogEntry_setLog_of_unique (fun _ he _ he' => List.inj_on_of_nodup_map hn he he') he

theorem logSize_setLog {opLog : OpLog} (hn : (opLog.map LogEntry.opNum).Nodup) :
    (setLog opLog).logSize = opLog.length := by
  have hk : (setLog opLog).opLog.keys = (opLog.map LogEntry.opNum).toFinset := by
    ext n
    rw [Finmap.mem_keys, List.mem_toFinset, ← opNums_setLog, mem_iff]
  rw [logSize, hk, List.toFinset_card_of_nodup hn, List.length_map]

/-- Reading a log at the numbers of some of its entries gives these entries. -/
theorem filterMap_getLogEntry {log : InMemOpLogHandler} : ∀ {opLog : OpLog},
    (∀ e ∈ opLog, log.getLogEntry e.opNum = some e) → (opLog.map LogEntry.opNum).filterMap log.getLogEntry = opLog
  | [], _ => rfl
  | e :: opLog, h => by
    rw [List.map_cons, List.filterMap_cons_some (h e List.mem_cons_self),
      filterMap_getLogEntry (fun e he => h e (List.mem_cons_of_mem _ he))]

end InMemOpLogHandler

/-- The operations of the committed entries, in order. -/
def committedOps (opLog : OpLog) : List Op := (opLog.filter LogEntry.committed).map LogEntry.op

theorem committedOps_append (opLog opLog' : OpLog) :
    committedOps (opLog ++ opLog') = committedOps opLog ++ committedOps opLog' := by
  rw [committedOps, List.filter_append, List.map_append, committedOps, committedOps]

theorem applyAll_committedOps_concat (opLog : OpLog) (e : LogEntry) : applyAll (committedOps (opLog ++ [e])) =
    if e.committed = true then e.op.apply (applyAll (committedOps opLog)) else applyAll (committedOps opLog) := by
  rw [committedOps_append]
  cases hc : e.committed <;> simp [committedOps, hc, applyAll_concat]

namespace Replica

theorem recoverStateFromLog_append (kvMap : KvMap) (opLog opLog' : OpLog) :
    recoverStateFromLog kvMap (opLog ++ opLog') = recoverStateFromLog (recoverStateFromLog kvMap opLog) opLog' :=
  List.foldl_append

/-- `recoverStateFromLog` applies the committed entries in order. -/
theorem recoverStateFromLog_eq (opLog : OpLog) : recoverStateFromLog ∅ opLog = applyAll (committedOps opLog) := by
  induction opLog using List.reverseRecOn with
  | nil => rfl
  | append_singleton opLog e ih =>
    rw [recoverStateFromLog_append, ih, applyAll_committedOps_concat]
    rfl

end Replica

open Replica (recoverStateFromLog)

/-- **The replay loop of `updateNewView` and that of `recover` do the same** with the entries they read. -/
theorem replay_eq {log : InMemOpLogHandler} :
    ∀ (is : List Nat) (kvMap : KvMap), (∀ i ∈ is, ∃ e, log.getLogEntry i = some e) →
    ∃ ops, replay log is kvMap = some (recoverStateFromLog kvMap (is.filterMap log.getLogEntry), ops)
  | [], kvMap, _ => ⟨[], rfl⟩
  | i :: is, kvMap, h => by
    obtain ⟨e, he⟩ := h i List.mem_cons_self
    have hrest := fun j hj => h j (List.mem_cons_of_mem _ hj)
    rw [replay, he, List.filterMap_cons_some he]
    cases hc : e.committed with
    | true =>
      obtain ⟨ops, hops⟩ := replay_eq is (e.op.apply kvMap) hrest
      exact ⟨(i, e.op) :: ops, by simp [hops, recoverStateFromLog, hc]⟩
    | false =>
      obtain ⟨ops, hops⟩ := replay_eq is kvMap hrest
      exact ⟨ops, by simp [hops, recoverStateFromLog, hc]⟩

/-- `updateNewView(viewNum, isPrimary)` passes its tests on what it takes up, `info`. -/
inductive Replica.TakesUp (r : Replica) (viewNum : Nat) : Bool → ViewStartInfo → Prop where
  | primary (candidate : ViewChangeInfo) (hq : r.getMajorityCnt ≤ ((r.viewChangeInfoMap.lookup viewNum).getD []).length)
      (hc : selectCandidate ((r.viewChangeInfoMap.lookup viewNum).getD []) = some candidate)
      (hn : candidate.viewNum = viewNum) : r.TakesUp viewNum true (r.startInfo candidate)
  | backup (info : ViewStartInfo) (hi : r.viewStartInfoMap.lookup viewNum = some info) (hn : info.viewNum = viewNum) :
      r.TakesUp viewNum false info

theorem Replica.Adopts.adopt_eq {r : Replica} {info : ViewStartInfo} {kvMap : KvMap} {ops : List (Nat × Op)}
    (h : r.Adopts info kvMap ops) (now : Nat) :
    ∃ r', r.adopt info now = some (r', ops) ∧ r'.cleanUp = (r.adopted info kvMap).tidied now := by
  obtain ⟨⟨e, he, hc⟩, hr⟩ := h
  unfold adopt
  dsimp only
  rw [he, hr]
  dsimp only
  rw [hc]
  exact ⟨_, rfl, rfl⟩

/-- **`updateNewView` returns** when the entry at the commit number is committed in the adopted log and the loop
finds the entries it asks for. -/
theorem Replica.TakesUp.updateNewView {r : Replica} {viewNum : Nat} {isPrimary : Bool} {info : ViewStartInfo}
    {kvMap : KvMap}
    {ops : List (Nat × Op)} (h : r.TakesUp viewNum isPrimary info) (ha : r.Adopts info kvMap ops) (now : Nat) :
    ∃ s, r.updateNewView viewNum isPrimary now = some s ∧ s.rep = (r.adopted info kvMap).tidied now := by
  obtain ⟨r', hr', hclean⟩ := ha.adopt_eq now
  unfold Replica.updateNewView
  cases h with
  | primary candidate hq hc hn =>
    rw [if_pos rfl]
    dsimp only
    rw [if_neg (Nat.not_lt.2 hq), hc]
    dsimp only
    rw [if_neg (fun h => h hn)]
    unfold startInfo at hr'
    rw [hr']
    exact ⟨_, rfl, hclean⟩
  | backup info hi hn =>
    rw [if_neg Bool.false_ne_true, hi]
    dsimp only
    rw [if_neg (fun h => h hn), hr']
    exact ⟨_, rfl, hclean⟩

/-- The log lists `1 .. m`, and begins with what the replica has applied. -/
structure Replica.Extended (r : Replica) (opLog : OpLog) (m : Nat) : Prop where
  opNums : opLog.map LogEntry.opNum = List.range' 1 m
  pos : 1 ≤ r.commitNum
  le : r.commitNum ≤ m
  agree : ∀ k, 1 ≤ k → k ≤ r.commitNum → ∃ e ∈ opLog, e.opNum = k ∧ e.committed = true ∧ r.log.opAt k = some e.op
  kvMap : r.kvMap = applyAll ((List.range' 1 r.commitNum).filterMap r.log.opAt)

/-- The last entry of the log is not past the commit number, or not committed, or leaves what the others leave. -/
def Replica.LastIdle (r : Replica) (opLog : OpLog) : Prop :=
  ∀ e, opLog.getLast? = some e → r.commitNum < e.opNum → e.committed = true →
    e.op.apply (applyAll (committedOps opLog.dropLast)) = applyAll (committedOps opLog.dropLast)

namespace Replica.Extended

variable {r : Replica} {opLog : OpLog} {m : Nat}

theorem nodup (h : r.Extended opLog m) : (opLog.map LogEntry.opNum).Nodup := by
  rw [h.opNums]
  exact List.nodup_range'

theorem length (h : r.Extended opLog m) : opLog.length = m := by
  rw [← List.length_map (f := LogEntry.opNum), h.opNums, List.length_range']

/-- The first entries are those the replica has applied. -/
theorem agree_mem (h : r.Extended opLog m) {e : LogEntry} (he : e ∈ opLog) (hc : e.opNum ≤ r.commitNum) :
    e.committed = true ∧ r.log.opAt e.opNum = some e.op := by
  have hk : e.opNum ∈ opLog.map LogEntry.opNum := List.mem_map_of_mem he
  rw [h.opNums, List.mem_range'_1] at hk
  obtain ⟨e', hm, hn, hcom, ho⟩ := h.agree e.opNum hk.1 hc
  obtain rfl := List.inj_on_of_nodup_map h.nodup hm he hn
  exact ⟨hcom, ho⟩

theorem map_take (h : r.Extended opLog m) {j : Nat} (hj : j ≤ m) :
    (opLog.take j).map LogEntry.opNum = List.range' 1 j := by
  rw [List.map_take, h.opNums, List.take_range'_of_length_ge hj]

/-- What the replica has applied are the first entries of the log. -/
theorem kvMap_eq (h : r.Extended opLog m) : r.kvMap = recoverStateFromLog ∅ (opLog.take r.commitNum) := by
  have hfirst : ∀ e ∈ opLog.take r.commitNum, e.committed = true ∧ r.log.opAt e.opNum = some e.op := fun e he => by
    have hk : e.opNum ∈ (opLog.take r.commitNum).map LogEntry.opNum := List.mem_map_of_mem he
    rw [h.map_take h.le, List.mem_range'_1] at hk
    exact h.agree_mem (List.mem_of_mem_take he) (by omega)
  have hops : ∀ l : OpLog, (∀ e ∈ l, r.log.opAt e.opNum = some e.op) →
      (l.map LogEntry.opNum).filterMap r.log.opAt = l.map LogEntry.op := fun l hl => by
    rw [List.filterMap_map, ← List.filterMap_eq_map]
    exact List.filterMap_congr hl
  rw [h.kvMap, Replica.recoverStateFromLog_eq, committedOps, List.filter_eq_self.2 (fun e he => (hfirst e he).1),
    ← h.map_take h.le, hops _ (fun e he => (hfirst e he).2)]

/-- The numbers the loop runs over are those of the entries past the commit number, the last one apart. -/
theorem range'_eq (h : r.Extended opLog m) :
    List.range' (r.commitNum + 1) ((InMemOpLogHandler.setLog opLog).logSize - (r.commitNum + 1)) =
      ((opLog.drop r.commitNum).take (m - (r.commitNum + 1))).map LogEntry.opNum := by
  rw [InMemOpLogHandler.logSize_setLog h.nodup, h.length, List.map_take, List.map_drop, h.opNums, List.drop_range',
    List.take_range'_of_length_ge (by omega), Nat.mul_one, Nat.add_comm]

/-- **What `updateNewView` finds and leaves.** -/
theorem adopts {info : ViewStartInfo} (h : r.Extended info.opLog m) : ∃ ops, r.Adopts info
    (recoverStateFromLog ∅ (info.opLog.take r.commitNum ++ (info.opLog.drop r.commitNum).take (m - (r.commitNum + 1))))
    ops := by
  have hget : ∀ e ∈ info.opLog, (InMemOpLogHandler.setLog info.opLog).getLogEntry e.opNum = some e :=
    fun e he => InMemOpLogHandler.getLogEntry_setLog_of_mem h.nodup he
  have hrest : ∀ e ∈ (info.opLog.drop r.commitNum).take (m - (r.commitNum + 1)),
      (InMemOpLogHandler.setLog info.opLog).getLogEntry e.opNum = some e :=
    fun e he => hget e (List.mem_of_mem_drop (List.mem_of_mem_take he))
  obtain ⟨e, he, hn, hc, -⟩ := h.agree r.commitNum h.pos (le_refl _)
  obtain ⟨ops, hops⟩ :=
    replay_eq (((info.opLog.drop r.commitNum).take (m - (r.commitNum + 1))).map LogEntry.opNum) r.kvMap
    (fun i hi => by
      obtain ⟨e, he, rfl⟩ := List.mem_map.1 hi
      exact ⟨e, hrest e he⟩)
  refine ⟨ops, ⟨e, by rw [← hn]; exact hget e he, hc⟩, ?_⟩
  rw [h.range'_eq, hops, InMemOpLogHandler.filterMap_getLogEntry hrest, Replica.recoverStateFromLog_append,
    ← h.kvMap_eq]

/-- The entries the loop leaves the map of are all of them, or all but the last. -/
theorem read_eq (h : r.Extended opLog m) :
    opLog.take r.commitNum ++ (opLog.drop r.commitNum).take (m - (r.commitNum + 1)) =
    if r.commitNum = m then opLog else opLog.dropLast := by
  have hle := h.le
  split
  · rename_i hc
    rw [hc, ← h.length, List.take_length, List.drop_length, List.take_nil, List.append_nil]
  · rw [← List.take_add, List.dropLast_eq_take, h.length]
    congr 1
    omega

theorem getLast_opNum (h : r.Extended opLog m) {e : LogEntry} (he : opLog.getLast? = some e) : e.opNum = m := by
  have hlast : (opLog.map LogEntry.opNum).getLast? = some e.opNum := by rw [List.getLast?_map, he]; rfl
  have hm : 1 ≤ m := h.pos.trans h.le
  rw [h.opNums, List.getLast?_range', if_neg (by omega)] at hlast
  have := Option.some.inj hlast
  omega

end Replica.Extended

/-- **Catching up with the adopted log**: `updateNewView` returns, and the map is that of every committed entry of the
adopted log exactly when its last entry is already applied, not committed, or idle. -/
theorem caught_up {r : Replica} {viewNum now m : Nat} {isPrimary : Bool} {info : ViewStartInfo}
    (ht : r.TakesUp viewNum isPrimary info) (h : r.Extended info.opLog m) :
    ∃ s, r.updateNewView viewNum isPrimary now = some s ∧
      (s.rep.kvMap = applyAll (committedOps info.opLog) ↔ r.LastIdle info.opLog) := by
  obtain ⟨ops, ha⟩ := h.adopts
  obtain ⟨s, hs, hrep⟩ := ht.updateNewView ha now
  refine ⟨s, hs, ?_⟩
  have hkv : s.rep.kvMap =
      applyAll (committedOps (if r.commitNum = m then info.opLog else info.opLog.dropLast)) := by
    rw [hrep, ← Replica.recoverStateFromLog_eq, ← h.read_eq]
    rfl
  have hne : info.opLog ≠ [] := List.length_pos_iff.1 (by rw [h.length]; exact h.pos.trans h.le)
  obtain ⟨e, he⟩ := Option.isSome_iff_exists.1 (List.getLast?_isSome.2 hne)
  have hsplit : info.opLog = info.opLog.dropLast ++ [e] := (List.dropLast_append_getLast? e he).symm
  have hnum := h.getLast_opNum he
  rw [hkv]
  split
  · rename_i hc
    refine ⟨fun _ e' he' hlt => ?_, fun _ => rfl⟩
    have := h.getLast_opNum he'
    omega
  · rename_i hc
    have hle := h.le
    have hlast : applyAll (committedOps info.opLog) = if e.committed = true
        then e.op.apply (applyAll (committedOps info.opLog.dropLast))
        else applyAll (committedOps info.opLog.dropLast) := by
      rw [← applyAll_committedOps_concat, ← hsplit]
    -- the loop leaves the last entry out
    constructor
    · intro heq e' he' _ hcom
      obtain rfl := Option.some.inj (he.symm.trans he')
      rw [hlast, if_pos hcom] at heq
      exact heq.symm
    · intro hidle
      rw [hlast]
      split
      · rename_i hcom
        exact (hidle e he (by omega) hcom).symm
      · rfl

/-- Replica `1` of three on its way to view `1`, with one entry applied, and the log it is told to take up. -/
def behind (opLog : OpLog) : Replica :=
  { Replica.init 3 1 with
    status := .viewChange, viewNum := 1, opNum := 1, commitNum := 1, hb := .viewWait 1
    log := .setLog [⟨⟨[slash, 120], []⟩, .update, 1, true⟩]
    kvMap := applyAll [⟨.update, ⟨[slash, 120], []⟩⟩]
    viewStartInfoMap := Finmap.singleton 1 ⟨1, opLog, 3, 3, 2⟩ }

/-- A log of three committed entries, the last one with the given operation. -/
def threeEntries (op : Op) : OpLog :=
  [⟨⟨[slash, 120], []⟩, .update, 1, true⟩, ⟨⟨[slash, 121], []⟩, .update, 2, true⟩, ⟨op.kvPair, op.opType, 3, true⟩]

theorem behind_extended (op : Op) : (behind (threeEntries op)).Extended (threeEntries op) 3 where
  opNums := rfl
  pos := le_refl _
  le := show 1 ≤ 3 by decide
  agree := fun k h1 hk => by
    obtain rfl : k = 1 := le_antisymm hk h1
    exact ⟨_, List.mem_cons_self, rfl, rfl, rfl⟩
  kvMap := rfl

theorem behind_takesUp (op : Op) : (behind (threeEntries op)).TakesUp 1 false ⟨1, threeEntries op, 3, 3, 2⟩ :=
  .backup _ (Finmap.lookup_singleton_eq) rfl

/-- The second entry is replayed, and the last one sets the value that is there. -/
theorem caught_up_three : ∃ s, (behind (threeEntries ⟨.update, ⟨[slash, 120], []⟩⟩)).updateNewView 1 false 0 = some s ∧
    s.rep.kvMap = applyAll (committedOps (threeEntries ⟨.update, ⟨[slash, 120], []⟩⟩)) ∧
    s.rep.kvMap.lookup [slash, 121] = some [] := by
  obtain ⟨s, hs, hiff⟩ : ∃ s, _ = some s ∧ _ :=
    caught_up (behind_takesUp ⟨.update, ⟨[slash, 120], []⟩⟩) (behind_extended _)
  have hkv := hiff.2 (fun e he _ _ => by
    obtain rfl := Option.some.inj he
    decide)
  exact ⟨s, hs, hkv, by rw [hkv]; decide⟩

/-- The last entry is committed, the replica's commit number is `3`, and its store does not have the key. -/
theorem caught_up_fails : (behind (threeEntries ⟨.update, ⟨[slash, 122], []⟩⟩)).Extended
      (threeEntries ⟨.update, ⟨[slash, 122], []⟩⟩) 3 ∧
    ∃ s, (behind (threeEntries ⟨.update, ⟨[slash, 122], []⟩⟩)).updateNewView 1 false 0 = some s ∧
      s.rep.commitNum = 3 ∧ s.rep.kvMap.lookup [slash, 122] = none ∧
      s.rep.kvMap ≠ applyAll (committedOps (threeEntries ⟨.update, ⟨[slash, 122], []⟩⟩)) := by
  have h : ((behind (threeEntries ⟨.update, ⟨[slash, 122], []⟩⟩)).updateNewView 1 false 0).any (fun s =>
      decide (s.rep.commitNum = 3) && decide (s.rep.kvMap.lookup [slash, 122] = none) &&
        decide (s.rep.kvMap ≠ applyAll (committedOps (threeEntries ⟨.update, ⟨[slash, 122], []⟩⟩)))) = true := by
    decide +kernel
  obtain ⟨s, hs, hq⟩ := (Option.any_eq_true _ _).1 h
  simp only [Bool.and_eq_true, decide_eq_true_eq] at hq
  exact ⟨behind_extended _, s, hs, hq.1.1, hq.1.2, hq.2⟩

end MetaDR
