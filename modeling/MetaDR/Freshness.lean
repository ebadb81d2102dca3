import MetaDR.KvStoreSpec
import MetaDR.Store
/-!
# Freshness — what a read sees of what was acknowledged

The primary of the latest view, once `NORMAL` in it, has every acknowledged operation in its map, as long as taking up
a view never has to bring a map up to date (`read_fresh`).  `get` and `list` ask for less: any replica whose `priId`
is its own id answers, and a process started again has `priId` `0` before it has recovered anything
(`read_fresh_fails`).
-/
namespace MetaDR

open Majority Viewstamp

/-- The operation was applied under the number and its client got `NONE`. -/
def Acked (tr : List Obs) (k : Nat) (op : Op) : Prop := ∃ r req, [.applied r k op, .replied r req (.err .none)] <:+: tr

/-- The map has what any acknowledged operation left at its key, unless one acknowledged under a later number is on that
key. -/
def Reflects (tr : List Obs) (kvMap : KvMap) : Prop :=
  ∀ k op, Acked tr k op → kvMap.lookup op.kvPair.key = op.effect ∨
    ∃ k' op', Acked tr k' op' ∧ k < k' ∧ op'.kvPair.key = op.kvPair.key

theorem Acked.applied {tr : List Obs} {k : Nat} {op : Op} (h : Acked tr k op) : ∃ r, .applied r k op ∈ tr := by
  obtain ⟨r, req, h⟩ := h
  exact ⟨r, h.subset List.mem_cons_self⟩

/-- What a client call that is answered at once tells. -/
theorem Replica.act_clientCall {r : Replica} {now q : Nat} {req req' : Req} {res : Result} {s : Step}
    (h : r.act now (.clientCall req) = .ok s) (ho : s.obs = [.replied q req' res]) :
    r.client = .idle ∧ req.front r.isPrimary r.kvMap = .ok (.reply res) := by
  simp only [act] at h
  split at h
  · rename_i hc
    refine ⟨hc, ?_⟩
    unfold clientCall at h
    split at h
    · cases h
    · rename_i hf
      cases h
      cases ho
      exact hf
    · split at h
      · cases h
      · cases h
        cases ho
  · cases h

theorem InMemOpLogHandler.logSize_le (h : InMemOpLogHandler) : h.logSize ≤ h.opNums.length := by
  refine (Finset.card_le_card (fun n hn => ?_)).trans (List.toFinset_card_le h.opNums)
  rw [List.mem_toFinset, h.mem_iff, ← Finmap.mem_keys]
  exact hn

section

variable {n : Nat} {R : Rules} {c : Cluster} {tr : List Obs}

/-- What taking up a view does. -/
theorem Move.of_newView {r r' : Replica} {msg : Option Msg} {sent : List Packet} {os : List Obs} {q : Nat} {b : Bool}
    {info : ViewStartInfo} (m : Move R tr r msg r' sent os) (hx : .newView q b info ∈ os) :
    msg = none ∧ R.adopt r.commitNum info = true ∧ ∃ x kvMap ops, r.Adopts x kvMap ops ∧ r' = r.adopted x kvMap ∧
      x.opNum = info.opNum ∧ x.commitNum = info.commitNum ∧
      os = ops.map (fun p => .applied r.id p.1 p.2) ++ [.newView q b info] := by
  cases m with
  | startPrimary v votes cand kvMap ops hb hv hq hc hn hst hA ha hs =>
    obtain ⟨rfl, rfl, rfl⟩ := by simpa using hx
    exact ⟨rfl, hA, _, kvMap, ops, ha, rfl, rfl, rfl, rfl⟩
  | startBackup v info kvMap ops hb hi hn hA ha hs =>
    obtain ⟨rfl, rfl, rfl⟩ := by simpa using hx
    exact ⟨rfl, hA, info, kvMap, ops, ha, rfl, rfl, rfl, rfl⟩
  | _ => simp at hx

/-- A view starts with its op number as commit number. -/
theorem Moves.newView_opNum (hat : R.atomic = true) (hC : R.called = true) (h : Moves n R c tr) {q : Nat} {b : Bool}
    {info : ViewStartInfo} (hx : .newView q b info ∈ tr) : info.opNum = info.commitNum := by
  obtain ⟨s, -, hf⟩ := h.refines_free hat hC
  cases b with
  | true => exact (hf.seen _ hx).2.1
  | false => exact (hf.seen _ (h.known.2.2 _ hx).1).2.1

/-- Whoever takes up a view that is not past its own commit number keeps its map. -/
theorem Moves.adopt_keeps (hat : R.atomic = true) (hC : R.called = true)
    (hstart : ∀ last votes, R.start last votes = true → endsAtOpNum votes = true)
    (hadopt : ∀ commitNum info, R.adopt commitNum info = true → info.commitNum ≤ commitNum)
    (h : Moves n R c tr) {i : Nat}
    (hi : i < n) {msg : Option Msg} {r' : Replica} {sent : List Packet} {os : List Obs} {q : Nat} {b : Bool}
    {info : ViewStartInfo} (m : Move R tr (c.reps i) msg r' sent os) (hx : .newView q b info ∈ os) :
    r'.kvMap = (c.reps i).kvMap ∧ r'.commitNum = (c.reps i).commitNum ∧ os = [.newView q b info] := by
  obtain ⟨rfl, hA, x, kvMap, ops, ha, hr', hon, hcn, hos⟩ := m.of_newView hx
  have hnext := h.step (.move i none r' sent os hi (fun q hq => by cases hq) m)
  have hle := hadopt _ _ hA
  have hnum := hnext.newView_opNum hat hC (List.mem_append_right _ hx)
  obtain ⟨k, hk⟩ := (hnext.lists hat hstart).1 i
  simp only [Cluster.setRep, Function.update_self, hr'] at hk
  obtain rfl : x.opNum = k := hk.normal rfl
  obtain ⟨e, he, -⟩ := ha.entry
  have hold := (hk.getLogEntry he).2
  have hsize : (InMemOpLogHandler.setLog x.opLog).logSize ≤ x.opNum := by
    have := InMemOpLogHandler.logSize_le (InMemOpLogHandler.setLog x.opLog)
    rwa [show (InMemOpLogHandler.setLog x.opLog).opNums = _ from hk.opNums, List.length_range'] at this
  have hreplay := ha.replay
  rw [show (InMemOpLogHandler.setLog x.opLog).logSize - ((c.reps i).commitNum + 1) = 0 by omega] at hreplay
  obtain ⟨rfl, rfl⟩ : (c.reps i).kvMap = kvMap ∧ [] = ops := by simpa [replay] using hreplay
  refine ⟨by rw [hr']; rfl, ?_, hos⟩
  rw [hr']
  show x.commitNum = _
  omega

theorem Passed.chosen {s : State Op} (hM : Moves n R c tr) (hf : c.Follows True s tr) {k : Nat} {op : Op}
    (h : Passed tr k op) : 1 ≤ k ∧ Chosen s k op := by
  obtain ⟨q, p, hq, rfl, rfl⟩ := h
  obtain ⟨hwon, hop, hpos, -⟩ := hM.won_of_quorum hf hq
  exact ⟨hpos, p.viewNum, p.opNum, hwon, le_refl _, hop⟩

/-- The primary of the latest view has committed all that passed. -/
theorem Moves.passed_le (hR : R.Strict) (h : Moves n R c tr) {i : Nat} (hs : (c.reps i).status = .normal)
    (hpri : (c.reps i).isPrimary = true) (hl : latest tr (c.reps i).viewNum = true) {k : Nat} {op : Op}
    (hp : Passed tr k op) : k ≤ (c.reps i).commitNum := by
  obtain ⟨q, p, hq, rfl, rfl⟩ := hp
  obtain ⟨s, hr, hf⟩ := h.refines_strict hR
  have hi := hf.rep i (by rw [hs]; simp)
  obtain ⟨hlast, -⟩ := hi.normal hs
  obtain ⟨S, hS, rfl⟩ := hi.isPrimary (h.id_eq i) hs hpri
  obtain ⟨hwon, hop, hpos, -⟩ := h.won_of_quorum hf hq
  rw [← hi.commit]
  rcases Nat.lt_trichotomy p.viewNum (c.reps S.primary).viewNum with hlt | heq | hgt
  · exact ((hr.good trivial).start_of_won hlt hS hwon hpos (le_refl _) hop).1.trans
      (hr.core.start_commit _ S (hlast ▸ hS))
  · exact hr.core.won_le _ S p.opNum hS hlast (heq ▸ hwon)
  · obtain ⟨q, info, hnew, hv⟩ := hf.newView_of_start (hr.core.won_start _ _ hwon) (by omega)
    have := le_of_latest hl hnew
    omega

/-- Whatever is answered with `NONE` was applied just before. -/
theorem Moves.acked_of_replied (h : Moves n R c tr) {r : Nat} {req : Req} (hr : .replied r req (.err .none) ∈ tr) :
    ∃ k op, [.applied r k op, .replied r req (.err .none)] <:+: tr := by
  refine h.forall_obs (T := fun tr o => ∀ r req, o = .replied r req (.err .none) → ∃ k op, [.applied r k op, o] <:+: tr)
    (fun tr os o h r req ho => ?_) ?_ _ hr r req rfl
  · obtain ⟨k, op, h⟩ := h r req ho
    exact ⟨k, op, h.trans (List.prefix_append tr os).isInfix⟩
  · rintro c tr i msg r' sent os - - m o ho r req rfl
    cases m with
    | reply req' res hc hf =>
      obtain ⟨rfl, rfl, rfl⟩ := by simpa using ho
      exact absurd rfl (Req.front_ne_none hf)
    | finish req' m k hc =>
      obtain ⟨rfl, rfl⟩ := by simpa using ho
      exact ⟨k, m.op, (List.suffix_append tr _).isInfix⟩
    | _ => simp at ho

end

/-- `strict`, each quorum check is passed by the number after the commit number, and nobody takes up a view past its
own. -/
def Rules.fresh : Rules :=
  { strict with
    pass := fun commitNum opNum => decide (opNum = commitNum + 1)
    adopt := fun commitNum info => decide (info.commitNum ≤ commitNum) }

theorem Rules.fresh_strict : Rules.fresh.Strict :=
  ⟨rfl, rfl, rfl, rfl, Rules.strict_strict.assign, Rules.strict_strict.start⟩

theorem Rules.fresh_gapless (n : Nat) : Rules.fresh.Gapless n where
  pass := fun _ _ h => of_decide_eq_true h
  same := fun _ _ _ _ _ _ hM ha hp => by
    obtain ⟨s, hr, hf⟩ := hM.refines_strict Rules.fresh_strict
    obtain ⟨h1, hc⟩ := hp.chosen hM hf
    exact (hr.good trivial).chosen_unique hr.core h1 (hf.seen _ ha trivial).2 hc
  adopt := fun _ _ _ _ _ _ _ _ _ _ hM hi m hx =>
    hM.adopt_keeps rfl rfl (fun _ _ h => Rules.fresh_strict.endsAtOpNum h) (fun _ _ h => of_decide_eq_true h) hi m hx

/-- **Read freshness**: whatever the primary of the latest view, `NORMAL` in it, answers at once is what its map
says, and the map reflects all that was acknowledged; all that passed its quorum check being acknowledged. -/
theorem read_fresh {n i now : Nat} {req : Req} {res : Result} {c c' : Cluster} {tr : List Obs}
    (h : Runs n Rules.fresh c tr) (hs : c.step n (.act i (.clientCall req) now) = some (c', [.replied i req res]))
    (hres : res ≠ .err .replicaNotPrimary) (hn : (c.reps i).status = .normal) (hl : latest tr (c.reps i).viewNum = true)
    (hack : ∀ q p, .quorum q p ∈ tr → Acked tr p.opNum p.op) :
    req.front true (c.reps i).kvMap = .ok (.reply res) ∧ Reflects tr (c.reps i).kvMap ∧
      ∀ r req, .replied r req (.err .none) ∈ tr → ∃ k op, [.applied r k op, .replied r req (.err .none)] <:+: tr := by
  have hM := h.moves
  obtain ⟨hidle, hf⟩ : (c.reps i).client = .idle ∧
    req.front (c.reps i).isPrimary (c.reps i).kvMap = .ok (.reply res) := by
    simp only [Cluster.step] at hs
    split at hs
    · cases ho : (c.reps i).act now (.clientCall req) with
      | ok s =>
        rw [ho] at hs
        simp only [Cluster.settle, Option.some.injEq, Prod.mk.injEq] at hs
        exact Replica.act_clientCall ho hs.2
      | _ => rw [ho] at hs; cases hs
    · cases hs
  have hpri : (c.reps i).isPrimary = true := by
    by_contra hp
    rw [Bool.not_eq_true] at hp
    rw [hp, Req.front_false] at hf
    cases hf
    exact hres rfl
  refine ⟨hpri ▸ hf, fun k op hk => ?_, fun r req hr => hM.acked_of_replied hr⟩
  obtain ⟨hrep, hobs⟩ := hM.replayed (Rules.fresh_gapless n)
  obtain ⟨ops, hops⟩ := hrep i
  obtain ⟨r, ha⟩ := hk.applied
  have hp : Passed tr k op := hobs _ ha
  obtain ⟨s, hr, hfol⟩ := hM.refines_strict Rules.fresh_strict
  obtain ⟨h1, hchosen⟩ := hp.chosen hM hfol
  have hlen : ops.length = (c.reps i).commitNum := hops.length (fun req m k he => by rw [hidle] at he; cases he)
  have hle := hM.passed_le Rules.fresh_strict hn hpri hl hp
  -- the operation is where its number says
  have hget : ops[k - 1]? = some op := by
    have hx := hops.passed (k - 1) _ (List.getElem?_eq_getElem (by omega))
    rw [Nat.sub_add_cancel h1] at hx
    rw [List.getElem?_eq_getElem (by omega),
      (hr.good trivial).chosen_unique hr.core h1 (hx.chosen hM hfol).2 hchosen]
  rw [hops.kvMap]
  rcases lookup_applyAll hget with hlast | ⟨b, op', hb, hop', hkey⟩
  · exact .inl hlast
  · obtain ⟨q, p, hq, hnum, rfl⟩ := hops.passed b op' hop'
    exact .inr ⟨b + 1, p.op, hnum ▸ hack q p hq, by omega, hkey⟩

/-- A `get` of the settled key at replica `i`. -/
def readEvent (i : Nat) : Event := .act i (.clientCall (.get [slash, 120])) 0

/-- The `get` is answered so. -/
def readsAs (c : Cluster) (i : Nat) (res : Result) : Bool :=
  (c.step 3 (readEvent i)).any (fun p => decide (p.2 = [.replied i (.get [slash, 120]) res]))

theorem step_of_readsAs {c : Cluster} {i : Nat} {res : Result} (h : readsAs c i res = true) :
    ∃ c', c.step 3 (readEvent i) = some (c', [.replied i (.get [slash, 120]) res]) := by
  obtain ⟨⟨c', os⟩, hs, ho⟩ := (Option.any_eq_true _ _).1 h
  obtain rfl : os = [.replied i (.get [slash, 120]) res] := of_decide_eq_true ho
  exact ⟨c', hs⟩

/-- Whatever passed is the settled operation, and it was acknowledged. -/
def settledAcked (tr : List Obs) : Bool :=
  decide ([.applied 0 1 settledEntry.op, .replied 0 (.create ⟨[slash, 120], []⟩) (.err .none)] <:+: tr) &&
    tr.all (fun o =>
      match o with
      | .quorum _ p => decide (p.opNum = 1 ∧ p.op = settledEntry.op)
      | _ => true)

theorem settledAcked_iff {tr : List Obs} (h : settledAcked tr = true) :
    Acked tr 1 settledEntry.op ∧ ∀ q p, .quorum q p ∈ tr → p.opNum = 1 ∧ p.op = settledEntry.op := by
  obtain ⟨ha, hq⟩ := Bool.and_eq_true_iff.1 h
  exact ⟨⟨0, _, of_decide_eq_true ha⟩, fun q p hp => of_decide_eq_true (List.all_eq_true.1 hq _ hp)⟩

theorem read_fresh_three : ∃ c tr c', Runs 3 Rules.fresh c tr ∧ (c.reps 1).viewNum = 1 ∧
    c.step 3 (readEvent 1) = some (c', [.replied 1 (.get [slash, 120]) (.val [])]) ∧ Reflects tr (c.reps 1).kvMap := by
  obtain ⟨c, tr, h, hc⟩ := exists_runs (n := 3) (R := Rules.fresh) (settledEvents ++ changeEvents)
    (fun c tr => decide ((c.reps 1).viewNum = 1) && readsAs c 1 (.val []) && decide ((c.reps 1).status = .normal) &&
      latest tr (c.reps 1).viewNum && settledAcked tr) (by decide +kernel)
  simp only [Bool.and_eq_true, decide_eq_true_eq] at hc
  obtain ⟨⟨⟨⟨hv, hr⟩, hn⟩, hl⟩, hs⟩ := hc
  obtain ⟨c', hstep⟩ := step_of_readsAs hr
  obtain ⟨hack, hq⟩ := settledAcked_iff hs
  refine ⟨c, tr, c', h, hv, hstep, (read_fresh h hstep (by decide) hn hl (fun q p hp => ?_)).2.1⟩
  obtain ⟨hk, ho⟩ := hq q p hp
  rw [hk, ho]
  exact hack

/-- An operation with a number past `k` is applied. -/
def Obs.appliesPast (k : Nat) : Obs → Bool
  | .applied _ j _ => decide (k < j)
  | _ => false

/-- The primary stops after it has acknowledged an operation, and is started again. -/
def restartedEvents : List Event := settledEvents ++ [.crash 0, .restart 0 false]

theorem read_fresh_fails : ∃ c tr c', Runs 3 { Rules.env with noRestart := false } c tr ∧
    c.step 3 (readEvent 0) = some (c', [.replied 0 (.get [slash, 120]) (.err .keyNotPresent)]) ∧
    ¬ Reflects tr (c.reps 0).kvMap := by
  obtain ⟨c, tr, h, hc⟩ := exists_runs (n := 3) (R := { Rules.env with noRestart := false }) restartedEvents
    (fun c tr => readsAs c 0 (.err .keyNotPresent) && settledAcked tr &&
      decide ((c.reps 0).kvMap.lookup settledEntry.op.kvPair.key ≠ settledEntry.op.effect) &&
      tr.all (fun o => !o.appliesPast 1)) (by decide +kernel)
  simp only [Bool.and_eq_true, decide_eq_true_eq] at hc
  obtain ⟨⟨⟨hr, hs⟩, hne⟩, hk⟩ := hc
  obtain ⟨c', hstep⟩ := step_of_readsAs hr
  refine ⟨c, tr, c', h, hstep, fun hrefl => ?_⟩
  rcases hrefl 1 _ (settledAcked_iff hs).1 with heq | ⟨k', op', hack, hlt, -⟩
  · exact hne heq
  · obtain ⟨r, ha⟩ := hack.applied
    have hpast := List.all_eq_true.1 hk _ ha
    rw [Obs.appliesPast, decide_eq_true hlt] at hpast
    cases hpast

end MetaDR
