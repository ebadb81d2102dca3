import MetaDR.Peers
/-!
# Recovery — what a recovering replica takes up

The wait of `recover` ends on three facts kept apart: that some primary answered, that enough answers carry the nonce,
and that some view was reported often enough, under whatever nonce.  The loop behind it wants one answer that is all
of this.  So recovery is sound exactly when the answers with the nonce hold a primary of that view before any answer
of a later one (`recovery_sound`).
-/
namespace MetaDR
namespace Replica

/-- The answers taken up one after the other. -/
def receiveAll (r : Replica) (resps : List RecoveryResponse) : Replica :=
  resps.foldl (fun r resp => (r.processRecoveryResponse resp).rep) r

end Replica

/-- The answers that carry the nonce. -/
def withNonce (nonce : Nat) (resps : List RecoveryResponse) : List RecoveryResponse :=
  resps.filter (fun resp => decide (resp.nonce = nonce))

/-- How many of the answers report the view. -/
def reporting (v : Nat) (resps : List RecoveryResponse) : Nat := resps.countP (fun resp => decide (resp.viewNum = v))

theorem reporting_concat (v : Nat) (resps : List RecoveryResponse) (resp : RecoveryResponse) :
    reporting v (resps ++ [resp]) = reporting v resps + if resp.viewNum = v then 1 else 0 := by
  rw [reporting, List.countP_append, List.countP_singleton, reporting]
  by_cases h : resp.viewNum = v <;> simp [h]

namespace Replica

theorem map_fst_bumpView (v : Nat) : ∀ l : List (Nat × Nat),
    (bumpView v l).map Prod.fst = if v ∈ l.map Prod.fst then l.map Prod.fst else l.map Prod.fst ++ [v]
  | [] => rfl
  | (u, d) :: l => by
    unfold bumpView
    by_cases h : u = v
    · rw [if_pos h, if_pos (by rw [List.map_cons, h]; exact List.mem_cons_self)]
      rfl
    · rw [if_neg h, List.map_cons, map_fst_bumpView v l, List.map_cons]
      have hm : v ∈ u :: l.map Prod.fst ↔ v ∈ l.map Prod.fst := by
        rw [List.mem_cons, or_iff_right (Ne.symm h)]
      by_cases hv : v ∈ l.map Prod.fst
      · rw [if_pos hv, if_pos (hm.2 hv)]
      · rw [if_neg hv, if_neg (fun hc => hv (hm.1 hc))]
        rfl

theorem nodup_bumpView (v : Nat) {l : List (Nat × Nat)} (h : (l.map Prod.fst).Nodup) :
    ((bumpView v l).map Prod.fst).Nodup := by
  rw [map_fst_bumpView]
  split
  · exact h
  · rename_i hv
    rw [List.nodup_append]
    exact ⟨h, List.nodup_singleton v, fun a ha b hb hab => hv (by rw [← List.mem_singleton.1 hb, ← hab]; exact ha)⟩

theorem mem_bumpView {v : Nat} : ∀ {l : List (Nat × Nat)}, (l.map Prod.fst).Nodup → ∀ w c, (w, c) ∈ bumpView v l ↔
    if w = v then (∃ c', (v, c') ∈ l ∧ c = c' + 1) ∨ ((∀ c', (v, c') ∉ l) ∧ c = 1) else (w, c) ∈ l
  | [], _, w, c => by
    by_cases h : w = v <;> simp [bumpView, h]
  | (u, d) :: l, hn, w, c => by
    obtain ⟨hu, hn⟩ := List.nodup_cons.1 hn
    have hfresh : ∀ c', (u, c') ∉ l := fun c' hc => hu (List.mem_map.2 ⟨_, hc, rfl⟩)
    unfold bumpView
    by_cases huv : u = v
    · subst huv
      rw [if_pos rfl]
      split
      · rename_i hw
        subst hw
        constructor
        · intro hm
          rcases List.mem_cons.1 hm with he | hm
          · cases he
            exact .inl ⟨d, List.mem_cons_self, rfl⟩
          · exact absurd hm (hfresh c)
        · rintro (⟨c', hc', rfl⟩ | ⟨hno, -⟩)
          · rcases List.mem_cons.1 hc' with he | hc'
            · cases he
              exact List.mem_cons_self
            · exact absurd hc' (hfresh c')
          · exact absurd List.mem_cons_self (hno d)
      · rename_i hw
        simp [hw]
    · rw [if_neg huv, List.mem_cons, mem_bumpView hn]
      have hsame : ∀ c', (v, c') ∈ (u, d) :: l ↔ (v, c') ∈ l := fun c' => by simp [Ne.symm huv]
      split
      · rename_i hw
        simp only [hsame]
        rw [or_iff_right (fun he => huv (by cases he; exact hw))]
      · exact List.mem_cons.symm

/-- **What the handler keeps of the answers.** -/
structure Counted (r₀ r : Replica) (resps : List RecoveryResponse) : Prop where
  status : r.status = .recovering
  replicas : r.replicas = r₀.replicas
  id : r.id = r₀.id
  flag : r.receivedRespFromPri = (r₀.receivedRespFromPri || resps.any RecoveryResponse.isPrimary)
  respMap : ∀ nonce, (r.recoveryRespMap.lookup nonce).getD [] = withNonce nonce resps
  cnt : ∀ nonce, r.recoveryWaitMap.cnt nonce = (withNonce nonce resps).length
  nodup : (r.respViewCnt.map Prod.fst).Nodup
  views : ∀ v c, (v, c) ∈ r.respViewCnt ↔ c = reporting v resps ∧ 0 < c

theorem withNonce_concat (nonce : Nat) (resps : List RecoveryResponse) (resp : RecoveryResponse) :
    withNonce nonce (resps ++ [resp]) =
      if nonce = resp.nonce then withNonce nonce resps ++ [resp] else withNonce nonce resps := by
  rw [withNonce, List.filter_append, List.filter_singleton, withNonce]
  by_cases h : resp.nonce = nonce
  · simp [h]
  · simp [h, Ne.symm h]

theorem Counted.processRecoveryResponse {r₀ r : Replica} {resps : List RecoveryResponse} (h : Counted r₀ r resps)
    (resp : RecoveryResponse) : Counted r₀ (r.processRecoveryResponse resp).rep (resps ++ [resp]) := by
  rw [Replica.processRecoveryResponse, if_neg (not_not.2 h.status)]
  refine ⟨h.status, h.replicas, h.id, ?_, fun nonce => ?_, fun nonce => ?_, nodup_bumpView _ h.nodup, fun v c => ?_⟩
  · show (r.receivedRespFromPri || resp.isPrimary) = _
    rw [h.flag, List.any_append, Bool.or_assoc]
    simp
  · show ((r.recoveryRespMap.insert resp.nonce _).lookup nonce).getD [] = _
    rw [lookup_insert_ite, withNonce_concat]
    split
    · rename_i hn
      rw [← h.respMap nonce, hn]
      rfl
    · exact h.respMap nonce
  · show (r.recoveryWaitMap.bump resp.nonce).cnt nonce = _
    rw [WaitMap.cnt_bump, withNonce_concat, h.cnt nonce]
    split
    · rw [List.length_append]
      rfl
    · rfl
  · show (v, c) ∈ bumpView resp.viewNum r.respViewCnt ↔ _
    rw [mem_bumpView h.nodup, reporting_concat]
    by_cases hv : v = resp.viewNum
    · subst hv
      rw [if_pos rfl, if_pos rfl]
      constructor
      · rintro (⟨c', hc', rfl⟩ | ⟨hno, rfl⟩)
        · rw [((h.views _ _).1 hc').1]
          exact ⟨rfl, Nat.succ_pos _⟩
        · have h0 : reporting resp.viewNum resps = 0 := by
            by_contra h0
            exact hno _ ((h.views _ _).2 ⟨rfl, Nat.pos_of_ne_zero h0⟩)
          rw [h0]
          exact ⟨rfl, Nat.one_pos⟩
      · rintro ⟨rfl, -⟩
        by_cases h0 : reporting resp.viewNum resps = 0
        · refine .inr ⟨fun c' hc' => ?_, by rw [h0]⟩
          have := (h.views _ _).1 hc'
          omega
        · exact .inl ⟨_, (h.views _ _).2 ⟨rfl, Nat.pos_of_ne_zero h0⟩, rfl⟩
    · rw [if_neg hv, if_neg (Ne.symm hv), Nat.add_zero]
      exact h.views v c

theorem counted_receiveAll {r₀ r : Replica} : ∀ {resps' resps : List RecoveryResponse}, Counted r₀ r resps →
    Counted r₀ (r.receiveAll resps') (resps ++ resps')
  | [], resps, h => by rwa [List.append_nil]
  | resp :: resps', resps, h => by
    have : Counted r₀ (((r.processRecoveryResponse resp).rep).receiveAll resps') (resps ++ [resp] ++ resps') :=
      counted_receiveAll (h.processRecoveryResponse resp)
    rwa [List.append_assoc] at this

theorem counted_recovering (n id : Nat) (flag : Bool) : Counted (recovering n id flag) (recovering n id flag) [] where
  status := rfl
  replicas := rfl
  id := rfl
  flag := by rw [List.any_nil, Bool.or_false]
  respMap := fun nonce => rfl
  cnt := fun nonce => rfl
  nodup := List.nodup_nil
  views := fun v c => iff_of_false List.not_mem_nil (fun h => by have := h.1; simp [reporting] at this; omega)

theorem pickResponse_eq_some {v : Nat} : ∀ {l : List RecoveryResponse} {resp : RecoveryResponse},
    pickResponse v l = some (some resp) → ∃ pre post, l = pre ++ resp :: post ∧ resp.viewNum = v ∧
      resp.isPrimary = true ∧ ∀ x ∈ pre, x.viewNum ≤ v
  | [], resp, h => by cases h
  | x :: l, resp, h => by
    unfold pickResponse at h
    split at h
    · rename_i hx
      cases h
      exact ⟨[], l, rfl, hx.1, hx.2, fun y hy => absurd hy List.not_mem_nil⟩
    · split at h
      · rename_i hle
        obtain ⟨pre, post, rfl, hv, hp, hpre⟩ := pickResponse_eq_some h
        refine ⟨x :: pre, post, rfl, hv, hp, fun y hy => ?_⟩
        rcases List.mem_cons.1 hy with rfl | hy
        · exact hle
        · exact hpre y hy
      · cases h

/-- The loop takes something when a primary of the view comes before any answer of a later view. -/
theorem exists_pickResponse {v : Nat} {resp : RecoveryResponse} (post : List RecoveryResponse) (hv : resp.viewNum = v)
    (hp : resp.isPrimary = true) : ∀ {pre : List RecoveryResponse}, (∀ x ∈ pre, x.viewNum ≤ v) →
      ∃ resp', pickResponse v (pre ++ resp :: post) = some (some resp')
  | [], _ => ⟨resp, by rw [List.nil_append, pickResponse, if_pos ⟨hv, hp⟩]⟩
  | x :: pre, hpre => by
    rw [List.cons_append, pickResponse]
    split
    · exact ⟨x, rfl⟩
    · rw [if_pos (hpre x List.mem_cons_self)]
      exact exists_pickResponse post hv hp (fun y hy => hpre y (List.mem_cons_of_mem _ hy))

theorem Counted.responseDone {r₀ r : Replica} {resps : List RecoveryResponse} {nonce : Nat} (h : Counted r₀ r resps)
    (hd : r.responseDone nonce = true) :
    ∃ v, (r.respViewCnt.find? (fun p => r.quorumReached p.2)).map Prod.fst = some v ∧
      r₀.getMajorityCnt ≤ reporting v resps := by
  simp only [Replica.responseDone, Bool.and_eq_true] at hd
  obtain ⟨p, hp⟩ := Option.isSome_iff_exists.1 ((List.find?_isSome).2 (List.any_eq_true.1 hd.2))
  refine ⟨p.1, by rw [hp]; rfl, ?_⟩
  have hq : r.getMajorityCnt ≤ p.2 := by simpa [quorumReached] using List.find?_some hp
  have hm := (h.views p.1 p.2).1 (List.mem_of_find?_eq_some hp)
  rw [← hm.1]
  have hmaj : r.getMajorityCnt = r₀.getMajorityCnt := by rw [getMajorityCnt, h.replicas, getMajorityCnt]
  rwa [hmaj] at hq

end Replica

/-- Among distinct replicas, two views cannot both be reported by a majority. -/
theorem reporting_unique {n v w : Nat} {resps : List RecoveryResponse}
    (hd : (resps.map RecoveryResponse.replicaId).Nodup) (hlt : ∀ resp ∈ resps, resp.replicaId < n)
    (hv : n / 2 + 1 ≤ reporting v resps) (hw : n / 2 + 1 ≤ reporting w resps) : v = w := by
  by_contra hne
  have hlen : resps.length ≤ n := by
    rw [← List.length_map (f := RecoveryResponse.replicaId), ← List.toFinset_card_of_nodup hd, ← Finset.card_range n]
    refine Finset.card_le_card (fun q hq => ?_)
    obtain ⟨resp, hm, rfl⟩ := List.mem_map.1 (List.mem_toFinset.1 hq)
    exact Finset.mem_range.2 (hlt resp hm)
  have hsum : ∀ l : List RecoveryResponse, reporting v l + reporting w l ≤ l.length := fun l => by
    induction l using List.reverseRecOn with
    | nil => exact le_refl _
    | append_singleton l resp ih =>
      rw [reporting_concat, reporting_concat, List.length_append, List.length_singleton]
      have : ¬ (resp.viewNum = v ∧ resp.viewNum = w) := fun h => hne (h.1.symm.trans h.2)
      split <;> split <;> omega
  have := hsum resps
  omega

/-- The replica is `NORMAL` with what the answer carries. -/
structure Replica.RecoveredFrom (r : Replica) (resp : RecoveryResponse) : Prop where
  status : r.status = .normal
  log : r.log = .setLog resp.opLog
  opNum : r.opNum = resp.opNum
  commitNum : r.commitNum = resp.commitNum
  viewNum : r.viewNum = resp.viewNum
  priId : r.priId = resp.replicaId

/-- **What `recover` does with the answer its loop takes.** -/
theorem Replica.recoverEnd_of_pick {r : Replica} {nonce v : Nat} {resp : RecoveryResponse} (now : Nat)
    (hv : (r.respViewCnt.find? (fun p => r.quorumReached p.2)).map Prod.fst = some v)
    (hp : pickResponse v ((r.recoveryRespMap.lookup nonce).getD []) = some (some resp)) :
    ∃ s, r.recoverEnd nonce now = some s ∧ s.rep.RecoveredFrom resp ∧
      s.rep.kvMap = recoverStateFromLog r.kvMap resp.opLog := by
  unfold recoverEnd
  dsimp only
  rw [hv, Option.getD_some, hp]
  exact ⟨_, rfl, ⟨rfl, rfl, rfl, rfl, rfl, rfl⟩, rfl⟩

theorem Replica.pick_of_recoverEnd {r : Replica} {nonce now v : Nat} {s : Step}
    (hv : (r.respViewCnt.find? (fun p => r.quorumReached p.2)).map Prod.fst = some v)
    (h : r.recoverEnd nonce now = some s) :
    ∃ resp, pickResponse v ((r.recoveryRespMap.lookup nonce).getD []) = some (some resp) ∧
      s.rep.viewNum = resp.viewNum := by
  unfold recoverEnd at h
  dsimp only at h
  rw [hv, Option.getD_some] at h
  split at h
  · cases h
  · cases h
  · rename_i resp hp
    cases h
    exact ⟨resp, hp, rfl⟩

/-- **A recovery that is sound**: `recover` ends without a failed assertion, with what an answer carries that has
this nonce and was sent by the primary of a view that more than half of the answers with this nonce report. -/
def SoundRecovery (r : Replica) (nonce now : Nat) (pri : Nat → Nat) (resps : List RecoveryResponse) : Prop :=
  ∃ s resp, r.recoverEnd nonce now = some s ∧ s.rep.RecoveredFrom resp ∧ resp ∈ resps ∧ resp.nonce = nonce ∧
    resp.replicaId = pri resp.viewNum ∧
    (withNonce nonce resps).length < 2 * reporting resp.viewNum (withNonce nonce resps)

/-- One answer with the nonce is of a primary, comes before any of a later view, and is of the view that both the
majority of all answers and more than half of those with the nonce report. -/
def AnswersAgree (n nonce : Nat) (resps : List RecoveryResponse) : Prop :=
  ∃ pre resp post, withNonce nonce resps = pre ++ resp :: post ∧ resp.isPrimary = true ∧
    (∀ x ∈ pre, x.viewNum ≤ resp.viewNum) ∧ n / 2 + 1 ≤ reporting resp.viewNum resps ∧
    (withNonce nonce resps).length < 2 * reporting resp.viewNum (withNonce nonce resps)

theorem mem_withNonce {nonce : Nat} {resps : List RecoveryResponse} {resp : RecoveryResponse} :
    resp ∈ withNonce nonce resps ↔ resp ∈ resps ∧ resp.nonce = nonce := by
  rw [withNonce, List.mem_filter, decide_eq_true_eq]

/-- **The decision of `recover`**: when its wait is over, the recovery is sound exactly when the answers agree. -/
theorem recovery_sound {n id nonce now : Nat} {flag : Bool} {pri : Nat → Nat} {resps : List RecoveryResponse}
    (hid : id < n)
    (hd : (resps.map RecoveryResponse.replicaId).Nodup) (hlt : ∀ resp ∈ resps, resp.replicaId < n)
    (hpri : ∀ resp ∈ resps, resp.isPrimary = decide (resp.replicaId = pri resp.viewNum))
    (hdone : ((Replica.recovering n id flag).receiveAll resps).responseDone nonce = true) :
    SoundRecovery ((Replica.recovering n id flag).receiveAll resps) nonce now pri resps ↔
      AnswersAgree n nonce resps := by
  have hc : Replica.Counted (.recovering n id flag) ((Replica.recovering n id flag).receiveAll resps) resps :=
    Replica.counted_receiveAll (Replica.counted_recovering n id flag)
  generalize (Replica.recovering n id flag).receiveAll resps = r at hc hdone ⊢
  have hmaj : (Replica.recovering n id flag).getMajorityCnt = n / 2 + 1 := (peers_init n id).majority hid
  obtain ⟨v, hv, hrep⟩ := hc.responseDone hdone
  rw [hmaj] at hrep
  constructor
  · rintro ⟨s, resp, hs, hfrom, hm, hn, hp, hhalf⟩
    obtain ⟨resp', hpick, hview⟩ := Replica.pick_of_recoverEnd hv hs
    rw [hc.respMap] at hpick
    obtain ⟨pre, post, he, hv', hp', hpre⟩ := Replica.pickResponse_eq_some hpick
    have hsame : resp.viewNum = resp'.viewNum := hfrom.viewNum.symm.trans hview
    rw [hsame] at hhalf
    exact ⟨pre, resp', post, he, hp', hv'.symm ▸ hpre, hv'.symm ▸ hrep, hhalf⟩
  · rintro ⟨pre, resp, post, he, hp, hpre, hmv, hhalf⟩
    obtain rfl : v = resp.viewNum := reporting_unique hd hlt hrep hmv
    obtain ⟨resp', hpick⟩ := Replica.exists_pickResponse post rfl hp hpre
    rw [← he, ← hc.respMap] at hpick
    obtain ⟨s, hs, hfrom, -⟩ := Replica.recoverEnd_of_pick now hv hpick
    rw [hc.respMap] at hpick
    obtain ⟨pre', post', he', hv', hp', -⟩ := Replica.pickResponse_eq_some hpick
    obtain ⟨hm, hn⟩ := mem_withNonce.1 (he' ▸ List.mem_append_right pre' (List.mem_cons_self (a := resp') (l := post')))
    refine ⟨s, resp', hs, hfrom, hm, hn, ?_, by rw [hv']; exact hhalf⟩
    rw [hpri resp' hm, decide_eq_true_eq] at hp'
    exact hp'

/-- An answer without a log. -/
def RecoveryResponse.ofView (viewNum nonce replicaId : Nat) (isPrimary : Bool) : RecoveryResponse :=
  ⟨viewNum, nonce, replicaId, isPrimary, [], 0, 0⟩

/-- A backup and the primary of view `0`. -/
def settled : List RecoveryResponse := [.ofView 0 7 2 false, .ofView 0 7 0 true]

theorem recovery_sound_three :
    SoundRecovery ((Replica.recovering 3 1 false).receiveAll settled) 7 9 (fun _ => 0) settled := by
  have hall : ∀ resp ∈ settled, resp.replicaId < 3 ∧ resp.isPrimary = decide (resp.replicaId = 0) := by decide
  have hid : 1 < 3 := by decide
  have hdone : ((Replica.recovering 3 1 false).receiveAll settled).responseDone 7 = true := by decide
  refine (recovery_sound hid (by decide) (fun x hx => (hall x hx).1) (fun x hx => (hall x hx).2) hdone).2 ?_
  exact ⟨[.ofView 0 7 2 false], .ofView 0 7 0 true, [], rfl, rfl, by decide, by decide, by decide⟩

/-- Replica `1` of five led view `1` and starts again; the three backups of that view answer, and the primary of view
`0`, which has missed the change. -/
def leaderless : List RecoveryResponse :=
  [.ofView 1 7 2 false, .ofView 1 7 3 false, .ofView 1 7 4 false, .ofView 0 7 0 true]

theorem recovery_sound_fails : (leaderless.map RecoveryResponse.replicaId).Nodup ∧
    (∀ resp ∈ leaderless, resp.replicaId < 5 ∧ resp.isPrimary = decide (resp.replicaId = resp.viewNum)) ∧
    ((Replica.recovering 5 1 false).receiveAll leaderless).responseDone 7 = true ∧
    ((Replica.recovering 5 1 false).receiveAll leaderless).recoverEnd 7 9 = none := by
  refine ⟨by decide, by decide, by decide, ?_⟩
  rfl

end MetaDR
