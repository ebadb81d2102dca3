import MetaDR.LogMatching
/-!
# Answers — what a quorum check counts

A replica answers a `Prepare` of a view for a number at most once, and its answer is at most once anywhere: on its way,
taken up or counted (`Moves.answers_le`).  So, where only answers of the replica's view are counted, a counter that was
zero when `replicate` sent the operation out counts distinct replicas that have it, as long as the wait does not end
before the quorum is there (`Moves.answered`).
-/
namespace MetaDR

open Majority Viewstamp

def isAnswer (p : Nat) (resp : PrepResponse) (q : Packet) : Bool :=
  match q.msg with
  | .prepareOk x => decide (q.dst = p ∧ x = resp)
  | _ => false

def isCount (p : Nat) (resp : PrepResponse) : Obs → Bool
  | .counted r x => decide (r = p ∧ x = resp)
  | _ => false

/-- How often the answer has been taken up and waits to be counted. -/
def Replica.pending (r : Replica) (resp : PrepResponse) : Nat :=
  match r.listener with
  | some (.prepareOk x) => if x = resp then 1 else 0
  | _ => 0

/-- How often the answer is on its way to `p`, or waits to be counted there, or has been. -/
def Cluster.answers (c : Cluster) (tr : List Obs) (p : Nat) (resp : PrepResponse) : Nat :=
  c.net.countP (isAnswer p resp) + ((c.reps p).pending resp + tr.countP (isCount p resp))

/-- The answers for number `k` that replica `i` has counted and not yet forgotten. -/
def countedStep (i k : Nat) (l : List PrepResponse) : Obs → List PrepResponse
  | .counted r resp => if r = i ∧ resp.opNum = k then l ++ [resp] else l
  | .forgot r m => if r = i ∧ m = k then [] else l
  | _ => l

def countedSince (tr : List Obs) (i k : Nat) : List PrepResponse := tr.foldl (countedStep i k) []

theorem countedStep_of_ne {i k : Nat} {l : List PrepResponse} {o : Obs} (h : o.by ≠ i) : countedStep i k l o = l := by
  cases o with
  | counted r resp => exact if_neg (fun hc => h hc.1)
  | forgot r m => exact if_neg (fun hc => h hc.1)
  | _ => rfl

theorem countedSince_same {tr os : List Obs} {i k : Nat} (h : ∀ l, ∀ o ∈ os, countedStep i k l o = l) :
    countedSince (tr ++ os) i k = countedSince tr i k := by
  rw [countedSince, countedSince, List.foldl_append]
  generalize tr.foldl _ _ = l
  induction os with
  | nil => rfl
  | cons o os ih =>
    rw [List.foldl_cons, h l o List.mem_cons_self]
    exact ih (fun l o ho => h l o (List.mem_cons_of_mem _ ho))

/-- What other replicas let be seen is not counted. -/
theorem countedSince_append {tr os : List Obs} {i k : Nat} (h : ∀ o ∈ os, o.by ≠ i) :
    countedSince (tr ++ os) i k = countedSince tr i k :=
  countedSince_same (fun _ o ho => countedStep_of_ne (h o ho))

theorem countedSince_quiet {tr os : List Obs} (hc : ∀ q resp, .counted q resp ∉ os) (hf : ∀ q m, .forgot q m ∉ os)
    (i k : Nat) : countedSince (tr ++ os) i k = countedSince tr i k :=
  countedSince_same (fun _ o ho => by
    cases o with
    | counted q resp => exact absurd ho (hc q resp)
    | forgot q m => exact absurd ho (hf q m)
    | _ => rfl)

theorem countedSince_counted (tr : List Obs) (i k : Nat) (resp : PrepResponse) :
    countedSince (tr ++ [.counted i resp]) i k =
      if resp.opNum = k then countedSince tr i k ++ [resp] else countedSince tr i k := by
  rw [countedSince, List.foldl_append, List.foldl_cons, List.foldl_nil, countedStep, countedSince]
  simp only [true_and]

theorem mem_countedSince {tr : List Obs} {i k : Nat} {resp : PrepResponse} (h : resp ∈ countedSince tr i k) :
    .counted i resp ∈ tr ∧ resp.opNum = k := by
  induction tr using List.reverseRecOn with
  | nil => cases h
  | append_singleton tr o ih =>
    rw [countedSince, List.foldl_append, List.foldl_cons, List.foldl_nil, ← countedSince] at h
    have hold : resp ∈ countedSince tr i k → .counted i resp ∈ tr ++ [o] ∧ resp.opNum = k := fun h =>
      ⟨List.mem_append_left _ (ih h).1, (ih h).2⟩
    cases o with
    | counted r x =>
      simp only [countedStep] at h
      split at h
      · rename_i hr
        rcases List.mem_append.1 h with h | h
        · exact hold h
        · obtain rfl := List.mem_singleton.1 h
          obtain ⟨rfl, rfl⟩ := hr
          exact ⟨by simp, rfl⟩
      · exact hold h
    | forgot r m =>
      simp only [countedStep] at h
      split at h
      · cases h
      · exact hold h
    | _ => exact hold h

theorem count_countedSince_le (tr : List Obs) (i k : Nat) (resp : PrepResponse) :
    (countedSince tr i k).count resp ≤ tr.countP (isCount i resp) := by
  induction tr using List.reverseRecOn with
  | nil => simp [countedSince]
  | append_singleton tr o ih =>
    rw [countedSince, List.foldl_append, List.foldl_cons, List.foldl_nil, ← countedSince, List.countP_append]
    cases o with
    | counted r x =>
      simp only [countedStep, List.countP_singleton, isCount, decide_eq_true_eq]
      split
      · rename_i hr
        rw [List.count_append, List.count_singleton]
        simp only [beq_iff_eq, hr.1, true_and]
        omega
      · omega
    | forgot r m =>
      simp only [countedStep]
      split
      · exact Nat.zero_le _
      · exact Nat.le_add_right_of_le ih
    | _ => exact Nat.le_add_right_of_le ih

section

variable {n : Nat} {R : Rules}

theorem countP_isAnswer_eq_zero {sent : List Packet} {p : Nat} {resp : PrepResponse}
    (h : ∀ pk ∈ sent, ∀ x, pk.msg ≠ .prepareOk x) : sent.countP (isAnswer p resp) = 0 := by
  rw [List.countP_eq_zero]
  intro pk hpk
  unfold isAnswer
  split
  · rename_i x he
    exact absurd he (h pk hpk x)
  · simp

theorem countP_isCount_eq_zero {os : List Obs} {p : Nat} {resp : PrepResponse} (h : ∀ q x, .counted q x ∉ os) :
    os.countP (isCount p resp) = 0 := by
  rw [List.countP_eq_zero]
  intro o ho
  unfold isCount
  split
  · rename_i q x
    exact absurd ho (h q x)
  · simp

/-- **What a move does to answers.** -/
inductive Replica.AnswerMove (R : Rules) (r r' : Replica) (msg : Option Msg) (sent : List Packet) (os : List Obs) :
    Prop where
  /-- it has nothing to do with them, or gives one up -/
  | keep (hs : ∀ pk ∈ sent, ∀ resp, pk.msg ≠ .prepareOk resp) (ho : ∀ q resp, .counted q resp ∉ os)
      (hp : ∀ resp, r'.pending resp ≤ r.pending resp)
  /-- it sends its own -/
  | send (prepInfo : PrepInfo) (d : Nat) (hi : r.ppit = some prepInfo) (hn : prepInfo.opNum = r.opNum + 1)
      (ht : R.atomic = true → r.prepInfoTest prepInfo = true)
      (hs : sent = r.sendTo d (.prepareOk ⟨r.viewNum, prepInfo.opNum, r.id⟩)) (ho : ∀ q resp, .counted q resp ∉ os)
      (hp : ∀ resp, r'.pending resp = r.pending resp)
  /-- it takes one up -/
  | take (resp : PrepResponse) (hm : msg = some (.prepareOk resp)) (hs : sent = []) (ho : os = [])
      (hp : ∀ x, r'.pending x = if resp = x then 1 else 0)
  /-- it counts the one it has taken up -/
  | count (resp : PrepResponse) (hs : sent = []) (ho : os = [.counted r.id resp])
      (hp : ∀ x, r.pending x = if resp = x then 1 else 0) (hp' : ∀ x, r'.pending x = 0)

theorem Move.answers {tr : List Obs} {r r' : Replica} {msg : Option Msg} {sent : List Packet} {os : List Obs}
    (m : Move R tr r msg r' sent os) : r.AnswerMove R r' msg sent os := by
  have hnone : (∀ q p resp, .acked q p resp ∉ os) → ∀ pk ∈ sent, ∀ resp, pk.msg ≠ .prepareOk resp :=
    fun hack pk hpk resp he => by
      cases m.sends pk hpk with
      | prepareOk p ho => exact hack _ _ _ ho
      | _ => cases he
  cases m with
  | ack p hi hl hn ht hk => exact .send p r.priId hi hn ht rfl (by simp) (fun _ => rfl)
  | takeOk resp hs hv => exact .take resp rfl rfl rfl (fun _ => rfl)
  | countOk resp hi hR => exact .count resp rfl rfl (fun x => by rw [Replica.pending, hi]) (fun _ => rfl)
  | listen | unlisten | commitNext | storeVote | countVote | storeStart =>
    exact .keep (hnone (by simp)) (by simp) (fun _ => Nat.zero_le _)
  | _ => exact .keep (hnone (by simp)) (by simp) (fun _ => le_refl _)

/-- A `NORMAL` replica has not answered for the next number of its view. -/
theorem Moves.not_acked (hat : R.atomic = true) (hC : R.called = true) {c : Cluster} {tr : List Obs}
    (h : Moves n R c tr) {i : Nat} (hs : (c.reps i).status = .normal) {p : PrepInfo}
    {resp : PrepResponse} (ha : .acked i p resp ∈ tr) (hv : resp.viewNum = (c.reps i).viewNum) :
    resp.opNum ≠ (c.reps i).opNum + 1 := by
  intro hn
  obtain ⟨s, hr, hf⟩ := h.refines_free hat hC
  obtain ⟨hlast, htop, -⟩ := (hf.rep i (by rw [hs]; simp)).normal hs
  obtain ⟨hheld, -⟩ := hf.seen _ ha
  obtain ⟨-, -, ho, hvp⟩ := h.known.2.2 _ ha
  rw [← hvp hat, hv, ← hlast, ← ho] at hheld
  have := hr.core.held_top i _ hheld
  omega

/-- An answer on its way, taken up or counted was given. -/
theorem Moves.acked_of_answers {c : Cluster} {tr : List Obs} (h : Moves n R c tr) {p : Nat} {resp : PrepResponse}
    (ha : c.answers tr p resp ≠ 0) : ∃ prepInfo, .acked resp.replicaId prepInfo resp ∈ tr := by
  obtain ⟨hr, hk, ho⟩ := h.known
  by_contra hne
  refine ha ?_
  have hnet : c.net.countP (isAnswer p resp) = 0 := by
    rw [List.countP_eq_zero]
    intro q hq hx
    have hgiven := hk q hq
    unfold isAnswer at hx
    split at hx
    · rename_i x he
      simp only [Packet.Known, he] at hgiven
      rw [(of_decide_eq_true hx).2] at hgiven
      exact hne hgiven
    · cases hx
  have hpend : (c.reps p).pending resp = 0 := by
    unfold Replica.pending
    split
    · rename_i x he
      exact if_neg (fun hx : x = resp => hne (hx ▸ (hr p).counting x he))
    · rfl
  have hcount : tr.countP (isCount p resp) = 0 := by
    rw [List.countP_eq_zero]
    intro o hm hx
    unfold isCount at hx
    split at hx
    · rw [(of_decide_eq_true hx).2] at hm
      exact hne (ho _ hm)
    · cases hx
  rw [Cluster.answers, hnet, hpend, hcount]

theorem Cluster.answers_setRep (c : Cluster) (tr os : List Obs) (i p : Nat) (resp : PrepResponse) (r' : Replica)
    (net sent : List Packet) :
    ({ c.setRep i r' with net := net ++ sent } : Cluster).answers (tr ++ os) p resp =
      net.countP (isAnswer p resp) + sent.countP (isAnswer p resp) +
        ((if i = p then r'.pending resp else (c.reps p).pending resp) +
          (tr.countP (isCount p resp) + os.countP (isCount p resp))) := by
  rw [Cluster.answers, List.countP_append, List.countP_append]
  congr 2
  by_cases hi : i = p
  · rw [if_pos hi, ← hi]
    simp only [Cluster.setRep, Function.update_self]
  · rw [if_neg hi]
    simp only [Cluster.setRep, Function.update_of_ne (Ne.symm hi)]

theorem Moves.answers_move (hat : R.atomic = true) (hC : R.called = true) {c : Cluster} {tr : List Obs}
    (h : Moves n R c tr) {i p : Nat} {resp : PrepResponse} {pk : Option Packet} {r' : Replica} {sent : List Packet}
    {os : List Obs} (hp : ∀ x, pk = some x → x ∈ c.net ∧ x.dst = i)
    (m : Move R tr (c.reps i) (pk.map Packet.msg) r' sent os) (hle : c.answers tr p resp ≤ 1) :
    ({ c.setRep i r' with net := takeUp pk c.net ++ sent } : Cluster).answers (tr ++ os) p resp ≤ 1 := by
  have hid := h.id_eq i
  have htake := countP_takeUp_add (P := isAnswer p resp) (fun x hx => (hp x hx).1)
  have hold : c.answers tr p resp =
    c.net.countP (isAnswer p resp) + ((c.reps p).pending resp + tr.countP (isCount p resp)) := rfl
  rw [Cluster.answers_setRep]
  cases m.answers with
  | keep hs ho hpend =>
    have hpi : (if i = p then r'.pending resp else (c.reps p).pending resp) ≤ (c.reps p).pending resp := by
      split
      · rename_i hi
        exact hi ▸ hpend resp
      · exact le_refl _
    rw [countP_isAnswer_eq_zero hs, countP_isCount_eq_zero ho]
    omega
  | send prepInfo d hi hn ht hs ho hpend =>
    have hpi : (if i = p then r'.pending resp else (c.reps p).pending resp) = (c.reps p).pending resp := by
      split
      · rename_i hi
        exact hi ▸ hpend resp
      · rfl
    rw [countP_isCount_eq_zero ho, hpi, hs]
    by_cases hr : resp = ⟨(c.reps i).viewNum, prepInfo.opNum, (c.reps i).id⟩
    · -- the one it sends: none of it was anywhere before
      have hone : ((c.reps i).sendTo d (.prepareOk ⟨(c.reps i).viewNum, prepInfo.opNum, (c.reps i).id⟩)).countP
          (isAnswer p resp) ≤ 1 := by
        unfold Replica.sendTo
        split
        · exact List.countP_le_length
        · exact Nat.zero_le _
      obtain ⟨-, hst, -⟩ := Replica.prepInfoTest_eq_true.1 (ht hat)
      have hzero : c.answers tr p resp = 0 := by
        by_contra hne
        obtain ⟨p', hp'⟩ := h.acked_of_answers hne
        rw [hr] at hp'
        simp only [h.id_eq i] at hp'
        exact h.not_acked hat hC hst hp' rfl hn
      omega
    · have hsent : ((c.reps i).sendTo d (.prepareOk ⟨(c.reps i).viewNum, prepInfo.opNum, (c.reps i).id⟩)).countP
          (isAnswer p resp) = 0 := by
        rw [List.countP_eq_zero]
        intro y hy
        rw [(Replica.mem_sendTo hy).1]
        simpa [isAnswer] using fun _ he => hr he.symm
      omega
  | take x hm hs ho hpend =>
    subst hs ho
    obtain ⟨y, rfl, hy⟩ := Option.map_eq_some_iff.1 hm
    obtain ⟨-, rfl⟩ := hp y rfl
    simp only [Option.any_some, isAnswer, hy, decide_eq_true_eq] at htake
    simp only [List.countP_nil, hpend]
    split at htake
    · rename_i hx
      rw [if_pos hx.1, if_pos hx.2]
      omega
    · rename_i hx
      have hpi : (if y.dst = p then (if x = resp then 1 else 0) else (c.reps p).pending resp) ≤
          (c.reps p).pending resp := by
        split
        · rename_i hd
          rw [if_neg (fun he => hx ⟨hd, he⟩)]
          exact Nat.zero_le _
        · exact le_refl _
      omega
  | count x hs ho hpend hpend' =>
    subst hs ho
    simp only [List.countP_nil, List.countP_singleton, isCount, hid, hpend', decide_eq_true_eq]
    by_cases hi : i = p
    · have := hi ▸ hpend resp
      simp only [hi, true_and, if_true]
      omega
    · simp only [hi, false_and, if_false]
      omega

/-- **An answer is at most once anywhere.** -/
theorem Moves.answers_le (hat : R.atomic = true) (hC : R.called = true) {c : Cluster} {tr : List Obs}
    (h : Moves n R c tr) (p : Nat) (resp : PrepResponse) : c.answers tr p resp ≤ 1 := by
  induction h with
  | init => simp [Cluster.answers, Cluster.init, Replica.init, Replica.pending]
  | @step c c' tr os h m ih =>
    have hset : ∀ (i : Nat) (r : Replica), r.pending resp ≤ (c.reps i).pending resp →
        (c.setRep i r).answers (tr ++ []) p resp ≤ 1 := by
      intro i r hr
      rw [List.append_nil]
      refine le_trans (Nat.add_le_add_left (Nat.add_le_add_right ?_ _) _) ih
      by_cases hi : p = i
      · subst hi
        rw [Cluster.setRep_reps_self]
        exact hr
      · rw [Cluster.setRep_reps_of_ne c r hi]
    cases m with
    | lose pk =>
      rw [List.append_nil]
      exact (Nat.add_le_add_right (List.erase_sublist).countP_le _).trans ih
    | down i => exact hset i _ (le_refl _)
    | restart i flag hi hR => exact hset i _ (Nat.zero_le _)
    | move i pk r' sent os hi hp m => exact h.answers_move hat hC hp m ih

/-- **What the counters count**: at least the answers not yet forgotten; and for the operation being replicated just
those, all of its view, and the replica itself once it has counted itself. -/
structure Replica.Counts (tr : List Obs) (i : Nat) (r : Replica) : Prop where
  le : r.status ≠ .recovering → ∀ k, (countedSince tr i k).length ≤ r.waitMap.cnt k
  prepared : ∀ req m p, r.client = .prepared req m p →
    r.waitMap.cnt p.opNum = (countedSince tr i p.opNum).length ∧
      ∀ resp ∈ countedSince tr i p.opNum, resp.viewNum = p.viewNum
  waiting : ∀ req m p, r.client = .waiting req m p →
    r.waitMap.cnt p.opNum = (countedSince tr i p.opNum).length + 1 ∧
      ∀ resp ∈ countedSince tr i p.opNum, resp.viewNum = p.viewNum

theorem Replica.Counts.keep {tr os : List Obs} {i : Nat} {r r' : Replica} (h : r.Counts tr i)
    (hos : ∀ k, countedSince (tr ++ os) i k = countedSince tr i k)
    (hs : r'.status ≠ .recovering → r.status ≠ .recovering)
    (hw : ∀ k, r'.waitMap.cnt k = r.waitMap.cnt k)
    (hp : ∀ req m p, r'.client = .prepared req m p → r.client = .prepared req m p)
    (hwait : ∀ req m p, r'.client = .waiting req m p → r.client = .waiting req m p) : r'.Counts (tr ++ os) i where
  le := fun hl k => by rw [hos, hw]; exact h.le (hs hl) k
  prepared := fun req m p hc => by rw [hos, hw]; exact h.prepared req m p (hp req m p hc)
  waiting := fun req m p hc => by rw [hos, hw]; exact h.waiting req m p (hwait req m p hc)

/-- Counting an answer of the replica's view, which is that of the operation it waits for. -/
theorem Replica.Counts.countOk {tr : List Obs} {r : Replica} (h : r.Counts tr r.id) {resp : PrepResponse}
    (hv : ∀ p, r.holds p → resp.viewNum = p.viewNum) :
    Replica.Counts (tr ++ [.counted r.id resp]) r.id
      { r with waitMap := r.waitMap.bump resp.opNum, listener := none } := by
  have hall : ∀ p, r.holds p → (∀ x ∈ countedSince tr r.id p.opNum, x.viewNum = p.viewNum) →
      ∀ x ∈ countedSince (tr ++ [.counted r.id resp]) r.id p.opNum, x.viewNum = p.viewNum := fun p hp hold x hx => by
    rw [countedSince_counted] at hx
    split at hx
    · rcases List.mem_append.1 hx with hx | hx
      · exact hold x hx
      · rw [List.mem_singleton.1 hx, hv p hp]
    · exact hold x hx
  have hlen : ∀ k, (countedSince (tr ++ [.counted r.id resp]) r.id k).length + r.waitMap.cnt k =
      (countedSince tr r.id k).length + (r.waitMap.bump resp.opNum).cnt k := fun k => by
    rw [countedSince_counted, WaitMap.cnt_bump]
    by_cases hk : resp.opNum = k
    · rw [if_pos hk, if_pos hk.symm, List.length_append, List.length_singleton]
      omega
    · rw [if_neg hk, if_neg (Ne.symm hk)]
  refine ⟨fun hl k => ?_, fun req m p hp => ?_, fun req m p hp => ?_⟩
  · have h1 := h.le hl k
    have h2 := hlen k
    show _ ≤ (r.waitMap.bump resp.opNum).cnt k
    omega
  · obtain ⟨h1, h2⟩ := h.prepared req m p hp
    have h3 := hlen p.opNum
    refine ⟨?_, hall p ⟨req, m, .inl hp⟩ h2⟩
    show (r.waitMap.bump resp.opNum).cnt p.opNum = _
    omega
  · obtain ⟨h1, h2⟩ := h.waiting req m p hp
    have h3 := hlen p.opNum
    refine ⟨?_, hall p ⟨req, m, .inr hp⟩ h2⟩
    show (r.waitMap.bump resp.opNum).cnt p.opNum = _
    omega

theorem Move.counts (hat : R.atomic = true) (hC : R.called = true) (hcur : R.current = true)
    (hassign : ∀ tr r, R.assign tr r = true → r.waitMap.cnt (r.opNum + 1) = 0)
    {c : Cluster} {tr : List Obs} (hM : Moves n R c tr) {i : Nat} {r' : Replica} {msg : Option Msg} {sent : List Packet}
    {os : List Obs} (h : (c.reps i).Counts tr i) (m : Move R tr (c.reps i) msg r' sent os) :
    r'.Counts (tr ++ os) i := by
  have hid := hM.id_eq i
  have hview : ∀ p, (c.reps i).holds p → p.viewNum = (c.reps i).viewNum := fun p hp => by
    obtain ⟨s, -, hf⟩ := hM.refines_free hat hC
    exact ((hf.rep i (hM.holds_live hp)).holds p hp).2.1
  have hhb := hM.hbOk i
  generalize c.reps i = r at *
  subst hid
  have hsame : (∀ q resp, .counted q resp ∉ os) → (∀ q k, .forgot q k ∉ os) → r.Counts (tr ++ os) r.id :=
    fun hc hf => h.keep (countedSince_quiet hc hf r.id) (fun hs => hs) (fun _ => rfl) (fun _ _ _ hc => hc)
      (fun _ _ _ hc => hc)
  cases m with
  | minor msg now a b d w e f flag hw =>
    exact h.keep (fun k => by rw [List.append_nil]) (fun hs => hs) hw (fun _ _ _ hc => hc) (fun _ _ _ hc => hc)
  | lock | refuse | giveUp | finish =>
    exact { hsame (by simp) (by simp) with
      prepared := fun _ _ _ hc => (by cases hc)
      waiting := fun _ _ _ hc => (by cases hc) }
  | prepare req m p hc hl hp hs hv hn ho hR =>
    -- the counter was zero, so nothing is counted for the number
    have hold := hsame (by simp) (by simp)
    have hzero : r.waitMap.cnt p.opNum = 0 := by rw [hn]; exact hassign tr r hR
    have hempty : countedSince (tr ++ [.prepared r.id p]) r.id p.opNum = [] := by
      have := hold.le (by rw [hs]; simp) p.opNum
      rw [hzero] at this
      exact List.length_eq_zero_iff.1 (Nat.le_zero.1 this)
    refine { hold with prepared := fun _ _ _ hc => ?_, waiting := fun _ _ _ hc => (by cases hc) }
    cases hc
    rw [hempty]
    exact ⟨hzero, fun resp hr => absurd hr List.not_mem_nil⟩
  | countOwn req m p hc =>
    have hold := hsame (by simp) (by simp)
    refine ⟨fun hl k => ?_, fun _ _ _ hc' => (by cases hc'), fun req' m' p' hc' => ?_⟩
    · rw [WaitMap.cnt_bump]
      exact (hold.le hl k).trans (by split <;> omega)
    · cases hc'
      obtain ⟨h1, h2⟩ := hold.prepared req m p hc
      rw [WaitMap.cnt_bump, if_pos rfl, h1]
      exact ⟨rfl, h2⟩
  | passQuorum req m p log hc hq hR hl =>
    have hf : ∀ k, countedSince (tr ++ [.quorum r.id p, .forgot r.id p.opNum]) r.id k =
        if p.opNum = k then [] else countedSince tr r.id k := fun k => by
      rw [countedSince, List.foldl_append]
      simp only [List.foldl_cons, List.foldl_nil, countedStep, true_and]
      rfl
    refine ⟨fun hl k => ?_, fun _ _ _ hc' => (by cases hc'), fun _ _ _ hc' => by cases hc'⟩
    rw [hf, WaitMap.cnt_erase]
    split
    · exact Nat.zero_le _
    · rename_i hne
      rw [if_neg (Ne.symm hne)]
      exact h.le hl k
  | countOk resp hi hR => exact h.countOk (fun p hp => (hR hcur).2.trans (hview p hp).symm)
  | enter sent hl hs => exact { hsame (by simp) (by simp) with le := fun _ => (hsame (by simp) (by simp)).le hs }
  | startPrimary v votes cand kvMap ops hb =>
    refine { hsame (by simp) (by simp) with le := fun _ => (hsame (by simp) (by simp)).le ?_ }
    exact hhb.live (w := v) (by rw [hb]; rfl)
  | startBackup v info kvMap ops hb =>
    refine { hsame (by simp) (by simp) with le := fun _ => (hsame (by simp) (by simp)).le ?_ }
    exact hhb.live (w := v) (by rcases hb with hb | ⟨o, hb⟩ <;> rw [hb] <;> rfl)
  | storeStart info hv hs => exact { hsame (by simp) (by simp) with le := fun _ => (hsame (by simp) (by simp)).le hs }
  | _ => exact { hsame (by simp) (by simp) with }

theorem Moves.counts (hat : R.atomic = true) (hC : R.called = true) (hcur : R.current = true)
    (hassign : ∀ tr r, R.assign tr r = true → r.waitMap.cnt (r.opNum + 1) = 0)
    {c : Cluster} {tr : List Obs} (h : Moves n R c tr) (i : Nat) : (c.reps i).Counts tr i := by
  refine (h.invariant (P := fun tr i r => r.Counts tr i) (Q := fun _ _ => True) (T := fun _ _ => True)
    (fun tr os i r hos h => h.keep (fun k => countedSince_append hos) (fun hs => hs) (fun _ => rfl) (fun _ _ _ hc => hc)
      (fun _ _ _ hc => hc)) (fun _ _ _ h => h) (fun _ _ _ h => h)
    (fun i => ⟨fun _ _ => Nat.zero_le _, fun _ _ _ hc => (by cases hc), fun _ _ _ hc => by cases hc⟩)
    (fun _ _ _ h => { h with })
    (fun _ _ _ _ _ _ => ⟨fun hs => absurd rfl hs, fun _ _ _ hc => (by cases hc), fun _ _ _ hc => by cases hc⟩) ?_).1 i
  intro c tr i p r' sent os hM hP _ _ _ _ m
  exact ⟨m.counts hat hC hcur hassign hM (hP i), fun _ _ => trivial, fun _ _ => trivial⟩

/-- An answer counted for an operation was given in its view, for this operation, by another replica. -/
theorem Moves.counted_for (hat : R.atomic = true) (hC : R.called = true) (hcur : R.current = true)
    (hassign : ∀ tr r, R.assign tr r = true → r.waitMap.cnt (r.opNum + 1) = 0) {c : Cluster} {tr : List Obs}
    (h : Moves n R c tr) {i : Nat} {req : Req} {m : Mutation} {p : PrepInfo} (hc : (c.reps i).client = .waiting req m p)
    {resp : PrepResponse} (hr : resp ∈ countedSince tr i p.opNum) : resp.viewNum = p.viewNum ∧ resp.opNum = p.opNum ∧
      resp.replicaId ≠ i ∧ ∃ p', .acked resp.replicaId p' resp ∈ tr ∧ p'.viewNum = p.viewNum ∧ p'.opNum = p.opNum ∧
        p'.op = p.op := by
  obtain ⟨-, hviews⟩ := (h.counts hat hC hcur hassign i).waiting req m p hc
  obtain ⟨hk, -, ho⟩ := h.known
  obtain ⟨hprep, -⟩ := (hk i).waiting req m p (.inr hc)
  obtain ⟨s, -, hf⟩ := h.refines_free hat hC
  obtain ⟨hop, -, S, hS, hSi, -⟩ := hf.seen _ hprep
  obtain ⟨hm, hnum⟩ := mem_countedSince hr
  obtain ⟨p', hp'⟩ := ho _ hm
  obtain ⟨⟨q, hq⟩, -, h1, h2⟩ := ho _ hp'
  obtain ⟨hop', -⟩ := hf.seen _ hq
  obtain ⟨-, S', hS', hne⟩ := hf.seen _ hp'
  have hv : p'.viewNum = p.viewNum := by rw [← h2 hat, hviews resp hr]
  have hn : p'.opNum = p.opNum := by rw [← h1, hnum]
  rw [hv, hS] at hS'
  cases hS'
  rw [hv, hn, hop] at hop'
  exact ⟨hviews resp hr, hnum, fun he => hne (hSi.trans he.symm), p', hp', hv, hn, (Option.some.inj hop').symm⟩

/-- **Enough counted answers of the view are a quorum that has the operation.** -/
theorem Moves.answered (hat : R.atomic = true) (hC : R.called = true) (hcur : R.current = true)
    (hassign : ∀ tr r, R.assign tr r = true → r.waitMap.cnt (r.opNum + 1) = 0)
    {c : Cluster} {tr : List Obs} (h : Moves n R c tr) {i : Nat} (hi : i < n) {req : Req} {m : Mutation} {p : PrepInfo}
    (hc : (c.reps i).client = .waiting req m p) (hq : (c.reps i).getMajorityCnt ≤ (c.reps i).waitMap.cnt p.opNum) :
    Answered n tr p := by
  obtain ⟨hcnt, -⟩ := (h.counts hat hC hcur hassign i).waiting req m p hc
  rw [((h.peers (.inl hat)).1 i).majority hi, hcnt] at hq
  obtain ⟨hprep, -⟩ := (h.known.1 i).waiting req m p (.inr hc)
  have hgiven := fun resp (hr : resp ∈ countedSince tr i p.opNum) => h.counted_for hat hC hcur hassign hc hr
  have hnd : ((countedSince tr i p.opNum).map PrepResponse.replicaId).Nodup := by
    refine List.Nodup.map_on (fun x hx y hy he => ?_) ?_
    · obtain ⟨xv, xn, xr⟩ := x
      obtain ⟨yv, yn, yr⟩ := y
      have h1 := (hgiven _ hx).1.trans (hgiven _ hy).1.symm
      have h2 := (hgiven _ hx).2.1.trans (hgiven _ hy).2.1.symm
      simp only at h1 h2 he
      rw [h1, h2, he]
    · rw [List.nodup_iff_count_le_one]
      intro resp
      have h1 := count_countedSince_le tr i p.opNum resp
      have h2 : c.net.countP (isAnswer i resp) + ((c.reps i).pending resp + tr.countP (isCount i resp)) ≤ 1 :=
        h.answers_le hat hC i resp
      omega
  refine ⟨(i :: (countedSince tr i p.opNum).map PrepResponse.replicaId).toFinset, isQuorum_toFinset ?_ ?_ ?_, ?_⟩
  · refine List.nodup_cons.2 ⟨fun hm => ?_, hnd⟩
    obtain ⟨resp, hr, he⟩ := List.mem_map.1 hm
    exact (hgiven resp hr).2.2.1 he
  · intro q hq
    rcases List.mem_cons.1 hq with rfl | hq
    · exact hi
    · obtain ⟨resp, hr, rfl⟩ := List.mem_map.1 hq
      obtain ⟨-, -, -, p', hp', -⟩ := hgiven resp hr
      exact h.by_lt _ hp'
  · rw [List.length_cons, List.length_map]
    exact hq
  · intro q hq
    rcases List.mem_cons.1 (List.mem_toFinset.1 hq) with rfl | hq
    · exact .inl hprep
    · obtain ⟨resp, hr, rfl⟩ := List.mem_map.1 hq
      obtain ⟨-, -, -, p', hp', hv, hn, -⟩ := hgiven resp hr
      exact .inr ⟨p', resp, hp', hv, hn⟩

end

end MetaDR
