import MetaDR.Store
/-!
# SingleView — a backup's map and the primary's

As long as nobody takes up another view, one replica numbers all operations, each once.  So where every quorum check
is passed by the number after the commit number, replicas with one commit number have one map (`single_view_agree`).
An operation whose wait timed out keeps its number: the next success skips it on the primary, while a backup, which
commits one number after the other, applies it (`single_view_agree_fails`).
-/
namespace MetaDR

/-- The operation was sent out under the number. -/
def Prepared (tr : List Obs) (k : Nat) (op : Op) : Prop := ∃ q p, .prepared q p ∈ tr ∧ p.opNum = k ∧ p.op = op

theorem Prepared.mono {tr os : List Obs} {k : Nat} {op : Op} (h : Prepared tr k op) : Prepared (tr ++ os) k op := by
  obtain ⟨q, p, hq, hk, ho⟩ := h
  exact ⟨q, p, List.mem_append_left _ hq, hk, ho⟩

/-- In view `0` replica `0` numbers the operations, and nothing else gets into a log. -/
structure Replica.FirstView (tr : List Obs) (i : Nat) (r : Replica) : Prop where
  normal : r.status = .normal → r.priId = 0
  prepared : r.status ≠ .recovering → ∀ p, .prepared i p ∈ tr → p.opNum ≤ r.opNum
  logged : ∀ k op, r.log.opAt k = some op → Prepared tr k op

def Obs.FirstView (tr : List Obs) : Obs → Prop
  | .prepared q _ => q = 0
  | .applied _ k op => Prepared tr k op
  | _ => True

section

variable {n : Nat} {R : Rules} {c : Cluster} {tr : List Obs}

theorem Replica.FirstView.append {os : List Obs} {i : Nat} {r : Replica} (h : r.FirstView tr i)
    (hos : ∀ p, .prepared i p ∉ os) : r.FirstView (tr ++ os) i where
  normal := h.normal
  prepared := fun hr p hp => h.prepared hr p ((List.mem_append.1 hp).resolve_right (hos p))
  logged := fun k op hk => (h.logged k op hk).mono

theorem Replica.FirstView.logged_push {os : List Obs} {i : Nat} {r : Replica} (h : r.FirstView tr i) {p : PrepInfo}
    (hp : ∃ q, .prepared q p ∈ tr ++ os) (k : Nat) (op : Op) (hk : (r.log.push p.entry).opAt k = some op) :
    Prepared (tr ++ os) k op := by
  rw [InMemOpLogHandler.opAt_push] at hk
  split at hk
  · obtain ⟨q, hq⟩ := hp
    cases hk
    exact ⟨q, p, hq, by symm; assumption, rfl⟩
  · exact (h.logged k op hk).mono

theorem Move.firstView_rep (hR : ∀ commitNum info, R.adopt commitNum info = false) (hM : Moves n R c tr) {i : Nat}
    {r' : Replica} {msg : Option Msg} {sent : List Packet} {os : List Obs} (h : (c.reps i).FirstView tr i)
    (m : Move R tr (c.reps i) msg r' sent os) : r'.FirstView (tr ++ os) i := by
  have hv := hM.views i
  have hki := hM.known.1 i
  have hsame : (∀ p, .prepared i p ∉ os) → (c.reps i).FirstView (tr ++ os) i := h.append
  generalize c.reps i = r at *
  cases m with
  | refuse req m hc hl hs =>
    exact { hsame (by simp) with
      normal := fun hn => absurd hn hs
      prepared := fun hr p hp => ((hsame (by simp)).prepared hr p hp).trans (Nat.le_succ _) }
  | prepare req m p hc hl hp hs hvn hn ho hassign =>
    refine ⟨h.normal, fun hr q hq => ?_, h.logged_push ⟨r.id, by simp⟩⟩
    show q.opNum ≤ r.opNum + 1
    rcases List.mem_append.1 hq with hq | hq
    · exact (h.prepared hr q hq).trans (Nat.le_succ _)
    · obtain ⟨-, rfl⟩ := by simpa using hq
      exact hn.le
  | passQuorum req m p log hc hq hpass hl =>
    exact { hsame (by simp) with
      logged := fun k op hk => (hsame (by simp)).logged k op (InMemOpLogHandler.opAt_commit hl k ▸ hk) }
  | ack p hp hl hn ht hkept =>
    obtain ⟨q, hq⟩ := hki.ppit p hp
    refine ⟨h.normal, fun hr q hq => ?_, h.logged_push ⟨q, List.mem_append_left _ hq⟩⟩
    have := (hsame (by simp)).prepared hr q hq
    show q.opNum ≤ p.opNum
    omega
  | commitNext ci log e hi hl hs hvn hn hlog he hc =>
    exact { hsame (by simp) with
      logged := fun k op hk => (hsame (by simp)).logged k op (InMemOpLogHandler.opAt_commit hlog k ▸ hk) }
  | enter sent hl hs =>
    exact { hsame (by simp) with
      normal := fun hn => (by cases hn)
      prepared := fun _ => (hsame (by simp)).prepared hs }
  | select info cnt d sent hb =>
    exact { hsame (by simp) with normal := fun hn => absurd (hv.normal_idle hn) (by rw [hb]; simp) }
  | startPrimary v votes cand kvMap ops hb hv hq hc hn hst hA => rw [hR] at hA; cases hA
  | startBackup v info kvMap ops hb hi hn hA => rw [hR] at hA; cases hA
  | storeStart info hvn hs =>
    exact { hsame (by simp) with
      normal := fun hn => (by cases hn)
      prepared := fun _ => (hsame (by simp)).prepared hs }
  | _ => exact { hsame (by simp) with }

theorem Move.firstView_obs (hM : Moves n R c tr) {i : Nat} {r' : Replica} {msg : Option Msg} {sent : List Packet}
    {os : List Obs} (hR : ∀ commitNum info, R.adopt commitNum info = false) (h : (c.reps i).FirstView tr i)
    (m : Move R tr (c.reps i) msg r' sent os) : ∀ o ∈ os, o.FirstView (tr ++ os) := by
  have hk := hM.known
  have hki := hk.1 i
  generalize c.reps i = r at *
  cases m with
  | prepare req m p hc hl hp hs hvn hn ho hassign =>
    intro o ho
    rw [List.mem_singleton.1 ho]
    simp only [Replica.isPrimary, decide_eq_true_eq] at hp
    exact hp.trans (h.normal hs)
  | finish req m k hc =>
    obtain ⟨p, hp, rfl, ho⟩ := hki.replicated req m k hc
    intro o hm
    rcases List.mem_cons.1 hm with rfl | hm
    · exact ⟨i, p, List.mem_append_left _ (hk.2.2 _ hp), rfl, ho⟩
    · rw [List.mem_singleton.1 hm]
      trivial
  | commitNext ci log e hi hl hs hvn hn hlog he hc =>
    intro o ho
    rw [List.mem_singleton.1 ho]
    exact (h.logged _ _ (by rw [InMemOpLogHandler.opAt, he]; rfl)).mono
  | startPrimary v votes cand kvMap ops hb hv hq hc hn hst hA => rw [hR] at hA; cases hA
  | startBackup v info kvMap ops hb hi hn hA => rw [hR] at hA; cases hA
  | _ => simp [Obs.FirstView]

theorem Moves.firstView (hR : ∀ commitNum info, R.adopt commitNum info = false) (h : Moves n R c tr) :
    (∀ i, (c.reps i).FirstView tr i) ∧ ∀ o ∈ tr, o.FirstView tr := by
  obtain ⟨h1, -, h3⟩ := h.invariant (P := fun tr i r => r.FirstView tr i) (Q := fun _ _ => True)
    (T := fun tr o => o.FirstView tr)
    (fun tr os i r hos h => h.append (fun p hp => hos _ hp rfl))
    (fun _ _ _ h => h)
    (fun tr os o h => by
      unfold Obs.FirstView at h ⊢
      split at h
      · exact h
      · exact h.mono
      · trivial)
    (fun i => ⟨fun _ => rfl, by simp, fun k op hk => by simp [Replica.init, InMemOpLogHandler.opAt] at hk⟩)
    (fun _ _ _ h => { h with })
    (fun _ _ _ _ _ _ => ⟨fun hs => (by cases hs), fun hs => absurd rfl hs,
      fun k op hk => by simp [Replica.recovering, Replica.init, InMemOpLogHandler.opAt] at hk⟩)
    (fun c tr i p r' sent os hM hP _ _ _ _ m =>
      ⟨m.firstView_rep hR hM (hP i), fun _ _ => trivial, m.firstView_obs hM hR (hP i)⟩)
  exact ⟨h1, h3⟩

/-- Each operation is sent out under a number of its own. -/
theorem Moves.prepared_lt (hR : ∀ commitNum info, R.adopt commitNum info = false) (h : Moves n R c tr) :
    Run.Each (fun tr o => ∀ q p, o = .prepared q p → ∀ q' p', .prepared q' p' ∈ tr → p'.opNum < p.opNum) tr := by
  refine h.each (fun c tr i msg r' sent os hM hi m os₁ o os₂ hos q p ho q' p' hp' => ?_)
  subst ho
  obtain ⟨hone, hpri, hs, hn, -⟩ := m.of_prepared (hos ▸ List.mem_append_right _ List.mem_cons_self)
  rw [Run.nil_of_first (hone.symm.trans hos) (List.not_mem_nil), List.append_nil] at hp'
  obtain ⟨hrep, hobs⟩ := hM.firstView hR
  have hq' : q' = 0 := hobs _ hp'
  have hi0 : i = 0 := by
    have := hM.id_eq i
    simp only [Replica.isPrimary, decide_eq_true_eq] at hpri
    rw [← this, hpri, (hrep i).normal hs]
  subst hi0 hq'
  have := (hrep 0).prepared (by rw [hs]; simp) p' hp'
  omega

theorem Moves.prepared_unique (hR : ∀ commitNum info, R.adopt commitNum info = false) (h : Moves n R c tr) {k : Nat}
    {op op' : Op} (ho : Prepared tr k op) (ho' : Prepared tr k op') : op = op' := by
  obtain ⟨q, p, hp, hn, rfl⟩ := ho
  obtain ⟨q', p', hp', hn', rfl⟩ := ho'
  obtain ⟨a, b, rfl⟩ := List.append_of_mem hp
  rcases List.mem_append.1 hp' with hp' | hp'
  · have := h.prepared_lt hR a _ b rfl q p rfl q' p' hp'
    omega
  · rcases List.mem_cons.1 hp' with he | hp'
    · cases he
      rfl
    · obtain ⟨b, d, rfl⟩ := List.append_of_mem hp'
      have := h.prepared_lt hR (a ++ .prepared q p :: b) _ d (by simp) q' p' rfl q p (by simp)
      omega

theorem Moves.prepared_of_passed (h : Moves n R c tr) {k : Nat} {op : Op} (ho : Passed tr k op) : Prepared tr k op := by
  obtain ⟨q, p, hq, hk, ho⟩ := ho
  exact ⟨q, p, h.known.2.2 _ hq, hk, ho⟩

end

/-- Each quorum check is passed by the number after the commit number, and nobody takes up another view. -/
def Rules.oneView : Rules :=
  { free with pass := fun commitNum opNum => decide (opNum = commitNum + 1), adopt := fun _ _ => false }

theorem Rules.oneView_gapless (n : Nat) : Rules.oneView.Gapless n where
  pass := fun _ _ h => of_decide_eq_true h
  same := fun _ _ _ _ _ _ hM ha hp =>
    hM.prepared_unique (fun _ _ => rfl) ((hM.firstView (fun _ _ => rfl)).2 _ ha) (hM.prepared_of_passed hp)
  adopt := fun c tr i msg r' sent os q b info _ _ m hx => by
    cases m with
    | startPrimary v votes cand kvMap ops hb hv hq hc hn hst hA => cases hA
    | startBackup v info kvMap ops hb hi hn hA => cases hA
    | _ => simp at hx

/-- **Agreement inside a view**: between client operations, a replica with the primary's commit number has its map. -/
theorem single_view_agree {n b : Nat} {c : Cluster} {tr : List Obs} (h : Runs n Rules.oneView c tr)
    (hidle : (c.reps 0).client = .idle) (hc : (c.reps b).commitNum = (c.reps 0).commitNum) :
    (c.reps b).kvMap = (c.reps 0).kvMap := by
  have hM := h.moves
  obtain ⟨hrep, -⟩ := hM.replayed (Rules.oneView_gapless n)
  obtain ⟨ops, hops⟩ := hrep 0
  obtain ⟨ops', hops'⟩ := hrep b
  have hlen := hops.length (fun req m k he => by rw [hidle] at he; cases he)
  have hlen' := hops'.length (fun req m k he => by
    -- only replica 0 has operations of its own
    obtain ⟨p, hp, -⟩ := (hM.known.1 b).replicated req m k he
    obtain rfl : b = 0 := (hM.firstView (fun _ _ => rfl)).2 _ (hM.known.2.2 _ hp)
    rw [hidle] at he
    cases he)
  have heq : ops' = ops := by
    refine List.ext_getElem (hlen'.trans (hc.trans hlen.symm)) (fun a h1 h2 => ?_)
    exact hM.prepared_unique (fun _ _ => rfl)
      (hM.prepared_of_passed (hops'.passed a _ (List.getElem?_eq_getElem h1)))
      (hM.prepared_of_passed (hops.passed a _ (List.getElem?_eq_getElem h2)))
  rw [hops.kvMap, hops'.kvMap, heq]

theorem single_view_agree_three : ∃ c tr, Runs 3 Rules.oneView c tr ∧
    (c.reps 0).kvMap.lookup [slash, 120] = some [] ∧ (c.reps 1).kvMap = (c.reps 0).kvMap := by
  obtain ⟨c, tr, h, hc⟩ := exists_runs (n := 3) (R := Rules.oneView) settledEvents
    (fun c _ => decide ((c.reps 0).client = .idle) && decide ((c.reps 1).commitNum = (c.reps 0).commitNum) &&
      decide ((c.reps 0).kvMap.lookup [slash, 120] = some [])) (by decide +kernel)
  simp only [Bool.and_eq_true, decide_eq_true_eq] at hc
  exact ⟨c, tr, h, hc.2, single_view_agree h hc.1.1 hc.1.2⟩

/-- A `create` times out on replica `0` after replica `1` has taken it up; the next one succeeds, and replica `1`
commits both. -/
def timedOutEvents : List Event :=
  matchingEvents ++ Event.call 0 (.create ⟨[slash, 121], []⟩) ++ [.act 0 .replicateCount 0] ++
    Event.takeUp 1 (.ofKey 0 2 0 [slash, 121]) ++
    [.deliver ⟨0, .prepareOk ⟨0, 2, 1⟩⟩ 0, .act 0 .prepareOkCount 0, .act 0 .replicateWake 0, .act 0 .clientFinish 0] ++
    Event.learn 1 ⟨0, 2⟩ ++ [.act 0 .heartBeat 0] ++ Event.learn 1 ⟨0, 2⟩

theorem single_view_agree_fails : ∃ c tr, Runs 3 Rules.env c tr ∧ (∀ o ∈ tr, o.isView = false) ∧
    (∀ i < 3, (c.reps i).up = true) ∧ (c.reps 0).client = .idle ∧ (c.reps 1).commitNum = (c.reps 0).commitNum ∧
      (c.reps 1).kvMap ≠ (c.reps 0).kvMap := by
  obtain ⟨c, tr, h, hc⟩ := exists_runs (n := 3) (R := Rules.env) timedOutEvents
    (fun c tr => tr.all (fun o => !o.isView) && (List.range 3).all (fun i => (c.reps i).up) &&
      decide ((c.reps 0).client = .idle) && decide ((c.reps 1).commitNum = (c.reps 0).commitNum) &&
      decide ((c.reps 1).kvMap ≠ (c.reps 0).kvMap)) (by decide +kernel)
  simp only [Bool.and_eq_true, List.all_eq_true, Bool.not_eq_true', List.mem_range, decide_eq_true_eq] at hc
  obtain ⟨⟨⟨⟨hv, hup⟩, hidle⟩, hcm⟩, hne⟩ := hc
  exact ⟨c, tr, h, hv, hup, hidle, hcm, hne⟩

end MetaDR
