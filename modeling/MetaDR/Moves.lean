import MetaDR.Sections
/-!
# Moves — every run is a run of moves

The cluster by moves instead of sections, and `Runs.moves`: every run of the cluster is a run of moves.  An invariant of
the replicas and of the messages in flight is then proved by one pass over the moves (`Moves.invariant`).
-/
namespace MetaDR

/-- Taking up a message removes it from the net. -/
def takeUp (p : Option Packet) (net : List Packet) : List Packet :=
  match p with
  | none => net
  | some p => net.erase p

namespace Cluster

/-- **One move of the cluster.** -/
inductive Move (n : Nat) (R : Rules) (c : Cluster) (tr : List Obs) : Cluster → List Obs → Prop where
  | move (i : Nat) (p : Option Packet) (r' : Replica) (sent : List Packet) (os : List Obs) (hi : i < n)
      (hp : ∀ q, p = some q → q ∈ c.net ∧ q.dst = i)
      (h : MetaDR.Move R tr (c.reps i) (p.map Packet.msg) r' sent os) :
      Move n R c tr { c.setRep i r' with net := takeUp p c.net ++ sent } os
  | lose (p : Packet) : Move n R c tr { c with net := c.net.erase p } []
  | down (i : Nat) : Move n R c tr (c.down i) []
  | restart (i : Nat) (flag : Bool) (hi : i < n) (hR : R.noRestart = false) :
      Move n R c tr (c.setRep i (Replica.recovering n i flag)) []

end Cluster

/-- **The runs of moves.** -/
inductive Moves (n : Nat) (R : Rules) : Cluster → List Obs → Prop where
  | init : Moves n R (Cluster.init n) []
  | step {c c' : Cluster} {tr os : List Obs} (h : Moves n R c tr) (m : Cluster.Move n R c tr c' os) :
      Moves n R c' (tr ++ os)

namespace Cluster

@[simp] theorem setRep_reps_self (c : Cluster) (i : Nat) (r : Replica) : (c.setRep i r).reps i = r :=
  Function.update_self ..

theorem setRep_reps_of_ne (c : Cluster) {i j : Nat} (r : Replica) (h : j ≠ i) : (c.setRep i r).reps j = c.reps j :=
  Function.update_of_ne h ..

end Cluster

theorem Replica.mem_invokeForAllReplicas {r : Replica} {msg : Msg} {q : Packet} :
    q ∈ r.invokeForAllReplicas msg ↔ q.msg = msg ∧ q.dst ∈ r.replicas ∧ q.dst ≠ r.id := by
  simp only [invokeForAllReplicas, List.mem_map, List.mem_filter, decide_eq_true_eq]
  constructor
  · rintro ⟨j, hj, rfl⟩
    exact ⟨rfl, hj⟩
  · rintro ⟨rfl, hj⟩
    exact ⟨q.dst, hj, rfl⟩

theorem Replica.mem_sendTo {r : Replica} {i : Nat} {msg : Msg} {q : Packet} (h : q ∈ r.sendTo i msg) :
    q = ⟨i, msg⟩ ∧ i ∈ r.replicas ∧ i ≠ r.id := by
  unfold sendTo at h
  split at h
  · rename_i hi
    exact ⟨List.mem_singleton.1 h, hi⟩
  · cases h

section

variable {n : Nat} {R : Rules} {c : Cluster} {tr : List Obs}

theorem Cluster.of_taken {P : Packet → Prop} {i : Nat} {p : Option Packet} (hnet : ∀ q ∈ c.net, P q)
    (hp : ∀ q, p = some q → q ∈ c.net ∧ q.dst = i) : ∀ msg, p.map Packet.msg = some msg → P ⟨i, msg⟩ := by
  intro msg hm
  obtain ⟨q, hq, rfl⟩ := Option.map_eq_some_iff.1 hm
  obtain ⟨hin, rfl⟩ := hp q hq
  exact hnet q hin

/-- A chain of moves of one replica is a run of the cluster. -/
theorem Moves.chain {i : Nat} {p : Option Packet} {r' : Replica} {sent : List Packet} {os : List Obs}
    (hm : Moves n R c tr) (hi : i < n) (hp : ∀ q, p = some q → q ∈ c.net ∧ q.dst = i)
    (h : Chain R tr (c.reps i) (p.map Packet.msg) r' sent os) :
    Moves n R { c.setRep i r' with net := takeUp p c.net ++ sent } (tr ++ os) := by
  induction h with
  | one h => exact hm.step (.move i p _ _ _ hi hp h)
  | @more r' r'' sent sent' os os' h h' ih =>
    have := ih.step (.move i none r'' sent' os' hi (fun q hq => by cases hq) (by
      rwa [show ({ c.setRep i r' with net := takeUp p c.net ++ sent } : Cluster).reps i = r' from
        c.setRep_reps_self i r']))
    simpa [Cluster.setRep, takeUp, List.append_assoc] using this

/-- **What a replica sends**, to whom, and what it lets be seen with it. -/
inductive Replica.Sends (R : Rules) (r : Replica) (os : List Obs) : Packet → Prop where
  | prepare (d : Nat) (prepInfo : PrepInfo) (h : .prepared r.id prepInfo ∈ os) : r.Sends R os ⟨d, .prepare prepInfo⟩
  | prepareOk (prepInfo : PrepInfo) (h : .acked r.id prepInfo ⟨r.viewNum, prepInfo.opNum, r.id⟩ ∈ os) :
      r.Sends R os ⟨r.priId, .prepareOk ⟨r.viewNum, prepInfo.opNum, r.id⟩⟩
  | passed (d : Nat) (prepInfo : PrepInfo) (h : .quorum r.id prepInfo ∈ os) :
      r.Sends R os ⟨d, .commit ⟨prepInfo.viewNum, prepInfo.opNum⟩⟩
  | beat (d : Nat) (hs : r.status = .normal) : r.Sends R os ⟨d, .commit ⟨r.viewNum, r.commitNum⟩⟩
  | startViewChange (d : Nat) : r.Sends R os ⟨d, .startViewChange ⟨r.viewNum + 1, r.id⟩⟩
  | doViewChange (d : Nat) (info : ViewChangeInfo) (cnt : Nat) (hb : r.hb = .choosing info cnt d) (hd : d ≠ r.id)
      (h : R.called = true → .selected r.id info.viewNum d ∈ os) : r.Sends R os ⟨d, .doViewChange info⟩
  | startView (d : Nat) (candidate : ViewChangeInfo) (hd : d ≠ r.id)
      (h : .newView r.id true (r.viewStartInfo candidate) ∈ os) :
      r.Sends R os ⟨d, .startView (r.viewStartInfo candidate)⟩
  | recoveryRequest (d nonce : Nat) (hd : d ≠ r.id) : r.Sends R os ⟨d, .recoveryRequest ⟨r.id, nonce⟩⟩
  | recoveryResponse (d : Nat) (resp : RecoveryResponse) : r.Sends R os ⟨d, .recoveryResponse resp⟩

theorem Move.sends {r r' : Replica} {msg : Option Msg} {sent : List Packet} {os : List Obs}
    (m : Move R tr r msg r' sent os) : ∀ q ∈ sent, r.Sends R os q := by
  have hall : ∀ msg : Msg, (∀ d, d ≠ r.id → r.Sends R os ⟨d, msg⟩) → ∀ q ∈ r.invokeForAllReplicas msg, r.Sends R os q :=
    fun msg h q hq => by
      obtain ⟨rfl, -, hd⟩ := Replica.mem_invokeForAllReplicas.1 hq
      exact h q.dst hd
  have hnil : ∀ q ∈ ([] : List Packet), r.Sends R os q := fun _ hq => absurd hq List.not_mem_nil
  cases m with
  | prepare => exact hall _ (fun d _ => .prepare d _ List.mem_cons_self)
  | passQuorum => exact hall _ (fun d _ => .passed d _ List.mem_cons_self)
  | ack =>
    intro q hq
    rw [(Replica.mem_sendTo hq).1]
    exact .prepareOk _ List.mem_cons_self
  | beat _ hs => exact hall _ (fun d _ => .beat d hs)
  | enter sent _ _ _ hm =>
    rcases hm with rfl | rfl
    · exact hnil
    · exact hall _ (fun d _ => .startViewChange d)
  | candidate info cnt c sent hb hd hs =>
    rcases hs with rfl | ⟨hR, rfl⟩
    · exact hnil
    · intro q hq
      rw [List.mem_singleton.1 hq]
      exact .doViewChange c info cnt hb hd (fun h => absurd (h.symm.trans hR) Bool.noConfusion)
  | select info cnt c sent hb hs =>
    rcases hs with rfl | ⟨hd, rfl⟩
    · exact hnil
    · intro q hq
      rw [List.mem_singleton.1 hq]
      exact .doViewChange c info cnt hb hd (fun _ => List.mem_cons_self)
  | startPrimary => exact hall _ (fun d hd => .startView d _ hd (by simp))
  | recover _ sent _ _ hm =>
    rcases hm with rfl | ⟨t, rfl⟩
    · exact hnil
    · exact hall _ (fun d hd => .recoveryRequest d t hd)
  | recAnswer =>
    intro q hq
    rw [(Replica.mem_sendTo hq).1]
    exact .recoveryResponse _ _
  | _ => exact hnil

theorem Move.by_eq {r r' : Replica} {msg : Option Msg} {sent : List Packet} {os : List Obs}
    (m : Move R tr r msg r' sent os) : ∀ o ∈ os, o.by = r.id := by
  cases m with
  | startPrimary | startBackup =>
    intro o ho
    rcases List.mem_append.1 ho with ho | ho
    · obtain ⟨p, -, rfl⟩ := List.mem_map.1 ho; rfl
    · rw [List.mem_singleton.1 ho]; rfl
  | _ => simp [Obs.by]

theorem Move.id_eq {r r' : Replica} {msg : Option Msg} {sent : List Packet} {os : List Obs}
    (m : Move R tr r msg r' sent os) : r'.id = r.id := by
  cases m <;> rfl

theorem Cluster.Move.id_eq {c' : Cluster} {os : List Obs} (m : Cluster.Move n R c tr c' os)
    (h : ∀ i, (c.reps i).id = i) (i : Nat) : (c'.reps i).id = i := by
  have hset : ∀ (j : Nat) (r : Replica), r.id = j → ((c.setRep j r).reps i).id = i := fun j r hr => by
    by_cases hi : i = j
    · subst hi; rw [setRep_reps_self]; exact hr
    · rw [setRep_reps_of_ne c r hi]; exact h i
  cases m with
  | move j p r' sent os hj hp hm => exact hset j r' (hm.id_eq.trans (h j))
  | lose p => exact h i
  | down j => exact hset j _ (h j)
  | restart j flag hj hR => exact hset j _ rfl

theorem Moves.id_eq (h : Moves n R c tr) (i : Nat) : (c.reps i).id = i := by
  induction h generalizing i with
  | init => rfl
  | step _ m ih => exact m.id_eq ih i

/-- **What the moves keep**, replica by replica, message by message and observation by observation. -/
theorem Moves.invariant {P : List Obs → Nat → Replica → Prop} {Q : List Obs → Packet → Prop} {T : List Obs → Obs → Prop}
    (hP : ∀ tr os i r, (∀ o ∈ os, o.by ≠ i) → P tr i r → P (tr ++ os) i r) (hQ : ∀ tr os q, Q tr q → Q (tr ++ os) q)
    (hT : ∀ tr os o, T tr o → T (tr ++ os) o)
    (hinit : ∀ i, P [] i (Replica.init n i)) (hdown : ∀ tr i r, P tr i r → P tr i { r with up := false })
    (hrestart : R.noRestart = false → ∀ tr i r flag, P tr i r → P tr i (Replica.recovering n i flag))
    (hmove : ∀ c tr i p r' sent os, Moves n R c tr → (∀ j, P tr j (c.reps j)) → (∀ q ∈ c.net, Q tr q) →
      (∀ o ∈ tr, T tr o) → i < n → (∀ q, p = some q → q ∈ c.net ∧ q.dst = i) →
      Move R tr (c.reps i) (p.map Packet.msg) r' sent os →
      P (tr ++ os) i r' ∧ (∀ q ∈ sent, Q (tr ++ os) q) ∧ ∀ o ∈ os, T (tr ++ os) o)
    (h : Moves n R c tr) : (∀ i, P tr i (c.reps i)) ∧ (∀ q ∈ c.net, Q tr q) ∧ ∀ o ∈ tr, T tr o := by
  induction h with
  | init => exact ⟨hinit, fun q hq => absurd hq (List.not_mem_nil), fun o ho => absurd ho (List.not_mem_nil)⟩
  | @step c c' tr os h m ih =>
    obtain ⟨ihP, ihQ, ihT⟩ := ih
    -- the replicas that do not move, and the observations that stay
    have hrep : ∀ (i : Nat) (r : Replica), (∀ o ∈ os, o.by = i) → P (tr ++ os) i r →
        ∀ j, P (tr ++ os) j ((c.setRep i r).reps j) := by
      intro i r hby hr j
      by_cases hj : j = i
      · subst hj; rw [Cluster.setRep_reps_self]; exact hr
      · rw [Cluster.setRep_reps_of_ne c r hj]
        exact hP _ _ _ _ (fun o ho he => hj (he.symm.trans (hby o ho))) (ihP j)
    have hseen : (∀ o ∈ os, T (tr ++ os) o) → ∀ o ∈ tr ++ os, T (tr ++ os) o := fun hos o ho =>
      (List.mem_append.1 ho).elim (fun ho => hT _ _ _ (ihT o ho)) (hos o)
    have hnil : ∀ i r, P tr i r → P (tr ++ []) i r := fun i r => hP _ _ _ _ (fun o ho => absurd ho (List.not_mem_nil))
    have hnone : ∀ o ∈ ([] : List Obs), T (tr ++ []) o := fun o ho => absurd ho (List.not_mem_nil)
    have hby : ∀ i, ∀ o ∈ ([] : List Obs), o.by = i := fun i o ho => absurd ho (List.not_mem_nil)
    cases m with
    | move i p r' sent os hi hp hm =>
      obtain ⟨h1, h2, h3⟩ := hmove c tr i p r' sent os h ihP ihQ ihT hi hp hm
      refine ⟨hrep i r' (fun o ho => (hm.by_eq o ho).trans (h.id_eq i)) h1, fun q hq => ?_, hseen h3⟩
      rcases List.mem_append.1 hq with hq | hq
      · refine hQ _ _ _ (ihQ q ?_)
        cases p with
        | none => exact hq
        | some p => exact List.mem_of_mem_erase hq
      · exact h2 q hq
    | lose p =>
      exact ⟨fun i => hnil _ _ (ihP i), fun q hq => hQ _ _ _ (ihQ q (List.mem_of_mem_erase hq)), hseen hnone⟩
    | down i => exact ⟨hrep i _ (hby i) (hnil _ _ (hdown _ _ _ (ihP i))), fun q hq => hQ _ _ _ (ihQ q hq), hseen hnone⟩
    | restart i flag hi hR =>
      exact ⟨hrep i _ (hby i) (hnil _ _ (hrestart hR _ i _ flag (ihP i))), fun q hq => hQ _ _ _ (ihQ q hq), hseen hnone⟩

/-- What the moves keep of a replica by itself. -/
theorem Moves.forall_rep {P : Replica → Prop} (hinit : ∀ i, P (Replica.init n i))
    (hdown : ∀ r, P r → P { r with up := false })
    (hrestart : R.noRestart = false → ∀ i flag, P (Replica.recovering n i flag))
    (hmove : ∀ c tr i (msg : Option Msg) r' sent os, Moves n R c tr → P (c.reps i) →
      Move R tr (c.reps i) msg r' sent os → P r') (h : Moves n R c tr) (i : Nat) : P (c.reps i) :=
  (h.invariant (P := fun _ _ r => P r) (Q := fun _ _ => True) (T := fun _ _ => True) (fun _ _ _ _ _ h => h)
    (fun _ _ _ h => h) (fun _ _ _ h => h) hinit (fun _ _ r h => hdown r h) (fun hR _ i _ flag _ => hrestart hR i flag)
    (fun _ _ i _ r' _ _ hM hP _ _ _ _ m =>
      ⟨hmove _ _ i _ r' _ _ hM (hP i) m, fun _ _ => trivial, fun _ _ => trivial⟩)).1 i

/-- What every move lets be seen, and what is seen later leaves. -/
theorem Moves.forall_obs {T : List Obs → Obs → Prop} (hT : ∀ tr os o, T tr o → T (tr ++ os) o)
    (hmove : ∀ c tr i (msg : Option Msg) r' sent os, Moves n R c tr → i < n → Move R tr (c.reps i) msg r' sent os →
      ∀ o ∈ os, T (tr ++ os) o) (h : Moves n R c tr) : ∀ o ∈ tr, T tr o :=
  (h.invariant (P := fun _ _ _ => True) (Q := fun _ _ => True) (T := T) (fun _ _ _ _ _ h => h)
    (fun _ _ _ h => h) hT (fun _ => trivial) (fun _ _ _ h => h) (fun _ _ _ _ _ h => h)
    (fun _ _ i _ r' _ _ hM _ _ _ hi _ m => ⟨trivial, fun _ _ => trivial, hmove _ _ i _ r' _ _ hM hi m⟩)).2.2

/-- What every move makes sure of the observations before its own holds at each of them. -/
theorem Moves.each {T : List Obs → Obs → Prop}
    (hmove : ∀ c tr i (msg : Option Msg) r' sent os, Moves n R c tr → i < n → Move R tr (c.reps i) msg r' sent os →
      ∀ os₁ o os₂, os = os₁ ++ o :: os₂ → T (tr ++ os₁) o) (h : Moves n R c tr) : Run.Each T tr := by
  induction h with
  | init => exact Run.each_nil
  | step h m ih =>
    cases m with
    | move i p r' sent os hi hp hm => exact ih.append (hmove _ _ i _ r' sent _ h hi hm)
    | lose p => rwa [List.append_nil]
    | down i => rwa [List.append_nil]
    | restart i flag hi hR => rwa [List.append_nil]

/-- The heart-beat thread is in `recover` only in a recovering replica, and changes views only in others. -/
def Replica.hbOk (r : Replica) : Prop :=
  match r.hb with
  | .idle => True
  | .recoverSent _ => r.status = .recovering
  | .recoverWait _ => r.status = .recovering
  | _ => r.status ≠ .recovering

theorem Moves.hbOk (h : Moves n R c tr) (i : Nat) : (c.reps i).hbOk := by
  refine h.forall_rep (P := Replica.hbOk) (fun _ => trivial) (fun _ h => h) (fun _ _ _ => trivial) ?_ i
  intro c tr i msg r' sent os _ hr m
  generalize c.reps i = r at hr m
  unfold Replica.hbOk at hr ⊢
  cases m with
  | enter => exact (by simp : Status.viewChange ≠ .recovering)
  | startWait v o hb => simpa only [hb] using hr
  | vote v o info hb hi => rcases hb with hb | hb <;> simpa only [hb] using hr
  | candidate info cnt c sent hb hc hs => simpa only [hb] using hr
  | select info cnt c sent hb hs =>
    rw [hb] at hr
    by_cases hc : c = r.id <;> simpa only [hc, if_true, if_false] using hr
  | giveUpView | startPrimary | startBackup => trivial
  | recover hb sent hs hh hm => rcases hh with ⟨t, rfl⟩ | ⟨t, rfl⟩ <;> exact hs
  | storeStart info hv hs =>
    revert hr
    cases r.hb <;> simp [hs]
  | _ => exact hr

/-- A section that is over, or has failed, is a chain of moves. -/
theorem Moves.settle {c' : Cluster} {i : Nat} {p : Option Packet} {o : Outcome} {os : List Obs} (hm : Moves n R c tr)
    (hi : i < n) (hp : ∀ q, p = some q → q ∈ c.net ∧ q.dst = i)
    (ho : ∀ s, o = .ok s → s.obs.all (R.obsOk tr (c.reps i)) = true →
      Chain R tr (c.reps i) (p.map Packet.msg) s.rep s.sent s.obs)
    (h : ({ c with net := takeUp p c.net } : Cluster).settle i o = some (c', os))
    (hR : os.all (R.obsOk tr (c.reps i)) = true) : Moves n R c' (tr ++ os) := by
  cases o with
  | blocked => cases h
  | abort =>
    cases h
    cases p with
    | none => exact hm.step (.down i)
    | some p => simpa [takeUp] using (hm.step (.lose p)).step (.down i)
  | ok s =>
    cases h
    exact hm.chain hi hp (ho s rfl hR)

theorem Moves.event {c' : Cluster} {e : Event} {os : List Obs} (hm : Moves n R c tr) (ha : R.allowed n c tr e = true)
    (hs : c.step n e = some (c', os)) : Moves n R c' (tr ++ os) := by
  simp only [Rules.allowed, hs, Bool.and_eq_true] at ha
  obtain ⟨he, hR⟩ := ha
  cases e with
  | act i a now =>
    simp only [Cluster.step] at hs
    split at hs
    · rename_i hi
      refine hm.settle (p := none) hi.1 (fun q hq => by cases hq) (fun s ho hR => ?_) hs hR
      refine Replica.chain_act ho (fun ⟨t, ht⟩ => ?_) he hR
      have := hm.hbOk i
      rwa [Replica.hbOk, ht] at this
    · cases hs
  | deliver p now =>
    simp only [Cluster.step] at hs
    split at hs
    · rename_i hi
      exact hm.settle (p := some p) hi.2.1 (fun q hq => by cases hq; exact ⟨hi.1, rfl⟩)
        (fun s ho _ => Replica.chain_handle ho) hs hR
    · cases hs
  | lose p =>
    simp only [Cluster.step] at hs
    split at hs
    · cases hs; exact hm.step (.lose p)
    · cases hs
  | crash i =>
    simp only [Cluster.step] at hs
    split at hs
    · cases hs; exact hm.step (.down i)
    · cases hs
  | restart i flag =>
    simp only [Cluster.step] at hs
    split at hs
    · rename_i hi
      cases hs
      exact hm.step (.restart i flag hi.1 (by simpa [Rules.eventOk] using he))
    · cases hs

/-- **Every run is a run of moves.** -/
theorem Runs.moves (h : Runs n R c tr) : Moves n R c tr := by
  induction h with
  | init => exact .init
  | step _ hok hs ih => exact ih.event hok hs

end

end MetaDR
