import MetaDR.Failover
/-!
# CatchUp — heart-beats bring the backups in step

A `Commit` names the primary's commit number, and a backup that takes one up commits the entry after its own number,
however far behind it is.  So a backup that has the whole log but has missed any number of `Commit`s needs as many
heart-beats to be in step again (`catches_up`), and no other message.
-/
namespace MetaDR

section

variable {n : Nat} {R : Rules} {b : Cluster × List Obs} {c : Cluster} {tr : List Obs} {p v k j q : Nat}
  {kvMap kvMap' : KvMap} {Q : Finset Nat}

/-- **At the same number the maps are the same**, when neither has a call behind its quorum check. -/
theorem Moves.kvMap_eq (h : Moves n Rules.fresh c tr) {i : Nat} (hi : (c.reps i).client = .idle)
    (hq : (c.reps q).client = .idle) (hcommit : (c.reps i).commitNum = (c.reps q).commitNum) :
    (c.reps i).kvMap = (c.reps q).kvMap := by
  have hG := Rules.fresh_gapless n
  have hnum := h.numbered Rules.fresh_strict hG
  obtain ⟨ops, hops⟩ := (h.replayed hG).1 i
  obtain ⟨ops', hops'⟩ := (h.replayed hG).1 q
  have hlen : ops.length = ops'.length := by
    rw [hops.length (fun req m k he => by rw [hi] at he; cases he),
      hops'.length (fun req m k he => by rw [hq] at he; cases he), hcommit]
  rw [hops.kvMap, hops'.kvMap, hops.eq_take hnum, hops'.eq_take hnum, hlen]

/-- **What heart-beats do**: primary `p` sends its commit number `k`, a replica of `Q` takes that `Commit` up, or goes
on with it. -/
inductive Event.Beats (p v k : Nat) (Q : Finset Nat) : Event → Prop where
  | heartBeat : Beats p v k Q (.act p .heartBeat 0)
  | commit (q : Nat) (hq : q ∈ Q) : Beats p v k Q (.deliver ⟨q, .commit ⟨v, k⟩⟩ 0)
  | commitLocked (q : Nat) (hq : q ∈ Q) : Beats p v k Q (.act q .commitLocked 0)

/-- One heart-beat, taken up by one backup that is behind. -/
theorem GoesOn.beat (hR : R.atomic = true ∨ R.peersKept = true) (h : GoesOn n R (Event.Beats p v k Q) b c tr)
    (hp : p < n) (hqQ : q ∈ Q) (hq : q < n) (hne : q ≠ p) (hpri : (c.reps p).AtRest p v k kvMap .idle)
    (hs : (c.reps q).AtRest p v j kvMap' .idle) (hjk : j < k) {e : LogEntry}
    (he : (c.reps q).log.getLogEntry (j + 1) = some e) :
    ∃ c' os, GoesOn n R (Event.Beats p v k Q) b c' (tr ++ os) ∧
      (c'.reps q).AtRest p v (j + 1) (e.op.apply kvMap') .idle ∧
      (c'.reps q).opNum = (c.reps q).opNum ∧ (∀ i, i ≠ q → c'.reps i = c.reps i) ∧
      os.all Obs.isApplied = true := by
  have hid := h.runs.moves.id_eq p
  have hbeat : (c.reps p).act 0 .heartBeat = .ok (c.reps p).heartBeat := by
    have hisPri : (c.reps p).isPrimary = true := by
      rw [Replica.isPrimary, decide_eq_true_eq, hpri.priId, hid]
    simp only [Replica.act, hpri.hb, hisPri, hpri.status, and_self, if_true]
  obtain ⟨c₁, h₁, hp₁, ha₁, hn₁⟩ := h.turn .heartBeat hp hpri.up hbeat rfl rfl
  have hsame₁ : ∀ i, c₁.reps i = c.reps i := fun i => by
    by_cases hi : i = p
    · rw [hi, hp₁]
      rfl
    · exact ha₁.reps i hi
  have hm : ⟨q, .commit ⟨v, k⟩⟩ ∈ c₁.net := by
    rw [hn₁, ← hpri.viewNum, ← hpri.commitNum]
    exact List.mem_append_right _ (Replica.mem_invokeForAllReplicas.2
      ⟨rfl, ((h.runs.moves.peers hR).1 p).mem.2 ⟨hq, hne⟩, by rw [hid]; exact hne⟩)
  have hs₁ : (c₁.reps q).AtRest p v j kvMap' .idle := by
    rw [hsame₁]
    exact hs
  have hhear : (c₁.reps q).handle 0 (.commit ⟨v, k⟩) =
      .ok (Replica.quiet { c₁.reps q with lastCommitTime := 0, listener := some (.commit ⟨v, k⟩) }) := by
    simp [Replica.handle, hs₁.listener, Replica.processCommit, hs₁.status]
  obtain ⟨c₂, h₂, hq₂, ha₂, -⟩ := h₁.hear (.commit q hqQ) hm hq hs₁.up hhear
  obtain ⟨log, hact⟩ := Replica.act_commitLocked
    (r := { c₁.reps q with lastCommitTime := 0, listener := some (.commit ⟨v, k⟩) }) (m := k)
    (by simp [hs₁.viewNum]) (by simpa [hs₁.commitNum] using hjk) hs₁.repMutexFree hs₁.client
    (show (c₁.reps q).log.getLogEntry ((c₁.reps q).commitNum + 1) = some e by rw [hs₁.commitNum, hsame₁, he])
  obtain ⟨c₃, h₃, hq₃, ha₃, -⟩ := h₂.turn (.commitLocked q hqQ) hq (by rw [hq₂]; exact hs₁.up) (by rw [hq₂]; exact hact)
    (by rw [hq₂]; simp [Rules.eventOk, hs₁.status]) rfl
  refine ⟨c₃, _, by rw [← List.append_assoc]; exact h₃, ?_, ?_, fun i hi => ?_, rfl⟩
  · rw [hq₃]
    exact ⟨hs₁.up, hs₁.status, hs₁.priId, hs₁.viewNum, congrArg Nat.succ hs₁.commitNum,
      congrArg e.op.apply hs₁.kvMap, hs₁.client, hs₁.hb, hs₁.ppit, rfl, hs₁.prepReqQ⟩
  · rw [hq₃, ← hsame₁ q]
  · rw [ha₃.reps i hi, ha₂.reps i hi, hsame₁]

/-- As many heart-beats as it is behind. -/
theorem GoesOn.beats (h : GoesOn n Rules.fresh (Event.Beats p v k Q) b c tr) (hp : p < n) (hqQ : q ∈ Q) (hq : q < n)
    (hne : q ≠ p) (hpri : (c.reps p).AtRest p v k kvMap .idle) (hs : (c.reps q).AtRest p v j kvMap' .idle)
    (hop : (c.reps q).opNum = k) (d : Nat) (hd : j + d = k) :
    ∃ c' os kvMap'', GoesOn n Rules.fresh (Event.Beats p v k Q) b c' (tr ++ os) ∧
      (c'.reps q).AtRest p v k kvMap'' .idle ∧
      (c'.reps q).opNum = k ∧ (∀ i, i ≠ q → c'.reps i = c.reps i) ∧ os.all Obs.isApplied = true := by
  induction d generalizing c tr j kvMap' with
  | zero =>
    obtain rfl : j = k := hd
    exact ⟨c, [], kvMap', by rwa [List.append_nil], hs, hop, fun _ _ => rfl, rfl⟩
  | succ d ih =>
    have hentry : ∃ e, (c.reps q).log.getLogEntry (j + 1) = some e := by
      obtain ⟨m, hm⟩ := (h.runs.moves.lists rfl (fun _ _ h => Rules.fresh_strict.endsAtOpNum h)).1 q
      obtain rfl := (hm.normal hs.status).symm.trans hop
      refine InMemOpLogHandler.mem_opNums.1 ?_
      rw [hm.opNums, List.mem_range'_1]
      omega
    obtain ⟨e, he⟩ := hentry
    obtain ⟨c₁, os₁, h₁, hs₁, hop₁, hsame₁, hr₁⟩ := h.beat (.inl rfl) hp hqQ hq hne hpri hs (by omega) he
    obtain ⟨c₂, os₂, kvMap'', h₂, hs₂, hop₂, hsame₂, hr₂⟩ := ih h₁ (by rw [hsame₁ p hne.symm]; exact hpri) hs₁
      (hop₁.trans hop) (by omega)
    exact ⟨c₂, os₁ ++ os₂, kvMap'', by rwa [← List.append_assoc], hs₂, hop₂,
      fun i hi => (hsame₂ i hi).trans (hsame₁ i hi), by rw [List.all_append, hr₁, hr₂, Bool.and_self]⟩

/-- The primary is at rest at `k`; the replicas `l` of `Q` have its log and have committed some of it, the others of
`Q` all. -/
structure Cluster.Lagging (c₀ : Cluster) (p v k : Nat) (kvMap : KvMap) (Q : Finset Nat) (l : List Nat) (c : Cluster) :
    Prop where
  nodup : l.Nodup
  sub : ∀ q ∈ l, q ∈ Q
  same : ∀ i, i = p ∨ i ∉ Q → c.reps i = c₀.reps i
  behind : ∀ q ∈ l, (∃ j kvMap', j ≤ k ∧ (c.reps q).AtRest p v j kvMap' .idle) ∧ (c.reps q).opNum = k
  level : ∀ q ∈ Q, q ∉ l → (c.reps q).AtRest p v k kvMap .idle ∧ (c.reps q).opNum = k

theorem Cluster.Lagging.next {c₀ : Cluster} (hQ : ∀ q ∈ Q, q < n) (hp : p ∈ Q)
    (hpri : (c₀.reps p).AtRest p v k kvMap .idle) (hop : (c₀.reps p).opNum = k) {l : List Nat}
    (h : GoesOn n Rules.fresh (Event.Beats p v k Q) b c tr) (hL : c₀.Lagging p v k kvMap Q (q :: l) c) :
    ∃ c' os, GoesOn n Rules.fresh (Event.Beats p v k Q) b c' (tr ++ os) ∧ c₀.Lagging p v k kvMap Q l c' ∧
      os.all Obs.isApplied = true := by
  obtain ⟨hql, hnd⟩ := List.nodup_cons.1 hL.nodup
  have hqQ := hL.sub q List.mem_cons_self
  obtain ⟨⟨j, kvMap', hj, hs⟩, hqop⟩ := hL.behind q List.mem_cons_self
  have hpri' : (c.reps p).AtRest p v k kvMap .idle := by
    rw [hL.same p (.inl rfl)]
    exact hpri
  have hsub : ∀ i ∈ l, i ∈ Q := fun i hi => hL.sub i (List.mem_cons_of_mem _ hi)
  by_cases hqp : q = p
  · refine ⟨c, [], by rwa [List.append_nil], ⟨hnd, hsub, hL.same,
      fun i hi => hL.behind i (List.mem_cons_of_mem _ hi), fun i hi hil => ?_⟩, rfl⟩
    by_cases hiq : i = q
    · rw [hiq, hqp, hL.same p (.inl rfl)]
      exact ⟨hpri, hop⟩
    · exact hL.level i hi (fun hm => (List.mem_cons.1 hm).elim hiq hil)
  · obtain ⟨c', os, kvMap'', h', hs', hop', hsame, hr⟩ := h.beats (hQ p hp) hqQ (hQ q hqQ) hqp hpri' hs hqop
      (k - j) (by omega)
    have hp' : c'.reps p = c.reps p := hsame p (Ne.symm hqp)
    have hmap : kvMap'' = kvMap := by
      rw [← hs'.kvMap, ← hpri'.kvMap, ← hp']
      exact h'.runs.moves.kvMap_eq hs'.client (by rw [hp']; exact hpri'.client)
        (by rw [hs'.commitNum, hp', hpri'.commitNum])
    subst hmap
    refine ⟨c', os, h', ⟨hnd, hsub, fun i hi => ?_, fun i hi => ?_, fun i hi hil => ?_⟩, hr⟩
    · have hiq : i ≠ q := fun he => hi.elim (fun hip => hqp (he.symm.trans hip)) (fun hn => hn (he ▸ hqQ))
      rw [hsame i hiq, hL.same i hi]
    · rw [hsame i (fun he => hql (he ▸ hi))]
      exact hL.behind i (List.mem_cons_of_mem _ hi)
    · by_cases hiq : i = q
      · rw [hiq]
        exact ⟨hs', hop'⟩
      · rw [hsame i hiq]
        exact hL.level i hi (fun hm => (List.mem_cons.1 hm).elim hiq hil)

end

/-- **Heart-beats are enough.**  From any state of a run in which the replicas of `Q` are at rest in one view and have
the primary's whole log, the primary among them with all of it committed, the run can go on by heart-beats of the
primary and their `Commit`s only, so that all of `Q` are in step with it, however far behind each of them was; nothing
is seen on the way but that they apply operations, and the others have not moved. -/
theorem catches_up {n p v k : Nat} {kvMap : KvMap} {Q : Finset Nat} {c : Cluster} {tr : List Obs}
    (h : Runs n Rules.fresh c tr) (hQ : ∀ q ∈ Q, q < n) (hp : p ∈ Q) (hpri : (c.reps p).AtRest p v k kvMap .idle)
    (hcnt : ∀ t, k < t → (c.reps p).waitMap.cnt t = 0)
    (hback : ∀ q ∈ Q, (∃ j kvMap', (c.reps q).AtRest p v j kvMap' .idle) ∧ (c.reps q).opNum = k) :
    ∃ es c' os, (∀ e ∈ es, e.Beats p v k Q) ∧
      Run.exec (Cluster.system n) (Rules.fresh.allowed n) es c tr = some (c', tr ++ os) ∧ c'.Level p v k kvMap Q ∧
      (∀ o ∈ os, o.isApplied = true) ∧ ∀ i, i ∉ Q → c'.reps i = c.reps i := by
  have hlag : c.Lagging p v k kvMap Q Q.toList c := by
    refine ⟨Finset.nodup_toList _, fun q hq => Finset.mem_toList.1 hq, fun _ _ => rfl, fun q hq => ?_,
      fun q hq hn => absurd (Finset.mem_toList.2 hq) hn⟩
    obtain ⟨⟨j, kvMap', hs⟩, hop⟩ := hback q (Finset.mem_toList.1 hq)
    obtain ⟨m, hm⟩ := (h.moves.lists rfl (fun _ _ h => Rules.fresh_strict.endsAtOpNum h)).1 q
    obtain rfl := (hm.normal hs.status).symm.trans hop
    exact ⟨⟨j, kvMap', hs.commitNum ▸ hm.commit, hs⟩, hop⟩
  obtain ⟨c', os, h', hL, os', hos, happ⟩ := Run.Onward.sweep
    (I := fun l c' tr' => c.Lagging p v k kvMap Q l c' ∧ ∃ os, tr' = tr ++ os ∧ os.all Obs.isApplied = true)
    (fun q l c₁ tr₁ h₁ hL => by
      obtain ⟨hL, os₁, rfl, happ₁⟩ := hL
      obtain ⟨c₂, os₂, h₂, hL₂, happ₂⟩ := hL.next hQ hp hpri (hback p hp).2 h₁
      exact ⟨c₂, os₂, h₂, hL₂, os₁ ++ os₂, List.append_assoc _ _ _,
        by rw [List.all_append, happ₁, happ₂, Bool.and_self]⟩)
    Q.toList h.onward ⟨hlag, [], (List.append_nil _).symm, rfl⟩
  obtain rfl := List.append_cancel_left hos
  obtain ⟨es, hes, he⟩ := h'.path
  refine ⟨es, c', os, hes, he, ⟨hp, fun q hq => (hL.level q hq List.not_mem_nil).1,
    fun q hq => (hL.level q hq List.not_mem_nil).2, fun t ht => ?_⟩, List.all_eq_true.1 happ,
    fun i hi => hL.same i (.inr hi)⟩
  rw [hL.same p (.inl rfl)]
  exact hcnt t ht

/-- The operation of `settledEvents`, of whose commit the backup `1` has not heard. -/
def unheardEvents : List Event :=
  Event.call 0 (.create ⟨[slash, 120], []⟩) ++ Event.takeUp 1 (.ofKey 0 1 0 [slash, 120]) ++
    [.act 0 .replicateCount 0, .deliver ⟨0, .prepareOk ⟨0, 1, 1⟩⟩ 0, .act 0 .prepareOkCount 0,
      .act 0 .replicateWake 0, .act 0 .clientFinish 0, .lose ⟨1, .commit ⟨0, 1⟩⟩]

theorem catches_up_three : ∃ c tr es c' os, Runs 3 Rules.fresh c tr ∧ (c.reps 1).commitNum = 0 ∧
    Run.exec (Cluster.system 3) (Rules.fresh.allowed 3) es c tr = some (c', tr ++ os) ∧ (c'.reps 1).commitNum = 1 ∧
    (c'.reps 1).kvMap = Finmap.singleton [slash, 120] [] := by
  obtain ⟨c, tr, h, hc⟩ := exists_runs (n := 3) (R := Rules.fresh) unheardEvents
    (fun c _ => (c.reps 0).settled && decide ((c.reps 1).up = true ∧ (c.reps 1).status = .normal ∧
      (c.reps 1).priId = 0 ∧ (c.reps 1).viewNum = 0 ∧ (c.reps 1).commitNum = 0 ∧ (c.reps 1).client = .idle ∧
      (c.reps 1).hb = .idle ∧ (c.reps 1).ppit = none ∧ (c.reps 1).listener = none ∧ (c.reps 1).prepReqQ = [] ∧
      (c.reps 1).opNum = 1)) (by decide +kernel)
  simp only [Bool.and_eq_true, decide_eq_true_eq] at hc
  obtain ⟨h0, hup, hst, hpri, hv, hk, hcl, hhb, hpp, hli, hq, hop⟩ := hc
  obtain ⟨hrest, hop0, hcnt⟩ := Replica.settled_rest h0
  obtain ⟨es, c', os, -, h', hL, -⟩ := catches_up (Q := {0, 1}) h (by decide) (by decide) hrest hcnt (fun q hq' => by
    rcases Finset.mem_insert.1 hq' with rfl | hq'
    · exact ⟨⟨_, _, hrest⟩, hop0⟩
    · rw [Finset.mem_singleton.1 hq']
      exact ⟨⟨0, _, hup, hst, hpri, hv, hk, rfl, hcl, hhb, hpp, hli, hq⟩, hop⟩)
  have hrest' := hL.rest 1 (by decide)
  exact ⟨c, tr, es, c', os, h, hk, h', hrest'.commitNum, hrest'.kvMap⟩

end MetaDR
