import MetaDR.Messages
import MetaDR.Views
import MetaDR.Peers
import MetaDR.Lib.Majority
/-!
# Election — one primary for a view

Where a call that returns `false` is never taken up, a vote of a replica for a view is at most once anywhere: in flight
to the candidate it selected, or stored there.  A vote may be counted when `cleanUp` has already dropped it, so what a
candidate counts is bounded by itself, and by those that selected it (`Moves.counts_le`): two candidates of one view
would share a voter (`election_safety`).
-/
namespace MetaDR

open Majority

namespace Replica

/-- The `ViewChangeInfo`s stored for a view. -/
def votesFor (r : Replica) (w : Nat) : List ViewChangeInfo := (r.viewChangeInfoMap.lookup w).getD []

theorem votesFor_push (r : Replica) (v w : Nat) (info : ViewChangeInfo) :
    ((r.viewChangeInfoMap.insert v ((r.viewChangeInfoMap.lookup v).getD [] ++ [info])).lookup w).getD [] =
      if w = v then r.votesFor w ++ [info] else r.votesFor w := by
  rw [lookup_insert_ite]
  split
  · subst_vars
    rfl
  · rfl

/-- The votes for a view that are stored and wait to be counted. -/
def due (r : Replica) (w : Nat) : Nat :=
  match r.listener with
  | some (.doViewChange info) => if info.viewNum = w then 1 else 0
  | _ => 0

/-- The votes for a view that are counted or will be. -/
def counts (r : Replica) (w : Nat) : Nat := r.doViewChangeMap.cnt w + r.due w

end Replica

/-- The message carries a vote of `q` for view `w` to `p`. -/
def isVote (p w q : Nat) (pk : Packet) : Bool :=
  match pk.msg with
  | .doViewChange info => decide (pk.dst = p ∧ info.viewNum = w ∧ info.replicaId = q)
  | _ => false

/-- The message carries a vote for view `w` to `p`. -/
def isVoteFor (p w : Nat) (pk : Packet) : Bool :=
  match pk.msg with
  | .doViewChange info => decide (pk.dst = p ∧ info.viewNum = w)
  | _ => false

/-- The votes of `q` for view `w` that are stored at `p` or on their way there. -/
def Cluster.votes (c : Cluster) (p w q : Nat) : Nat :=
  ((c.reps p).votesFor w).countP (fun info => decide (info.replicaId = q)) + c.net.countP (isVote p w q)

theorem countP_isVote_eq_zero {sent : List Packet} {p w q : Nat}
    (h : ∀ pk ∈ sent, ∀ info, pk.msg ≠ .doViewChange info) : sent.countP (isVote p w q) = 0 := by
  rw [List.countP_eq_zero]
  intro pk hpk
  unfold isVote
  split
  · rename_i info he
    exact absurd he (h pk hpk info)
  · simp

section

variable {n : Nat} {R : Rules}

/-- **What a move does to votes.** -/
inductive Replica.VoteMove (r r' : Replica) (msg : Option Msg) (sent : List Packet) (os : List Obs) : Prop where
  /-- it forgets some, counts one, or has nothing to do with them -/
  | keep (hs : ∀ pk ∈ sent, ∀ info, pk.msg ≠ .doViewChange info)
      (hv : ∀ w, r'.votesFor w = r.votesFor w ∨ r'.votesFor w = []) (hc : ∀ w, r'.counts w ≤ r.counts w)
  /-- it sends the one of its loop to the candidate it selects -/
  | send (info : ViewChangeInfo) (cnt c : Nat) (hb : r.hb = .choosing info cnt c) (hd : c ≠ r.id)
      (hs : sent = [⟨c, .doViewChange info⟩]) (ho : .selected r.id info.viewNum c ∈ os)
      (hv : ∀ w, r'.votesFor w = r.votesFor w) (hc : ∀ w, r'.counts w = r.counts w)
  /-- it stores one -/
  | store (info : ViewChangeInfo) (hm : msg = some (.doViewChange info)) (hs : sent = [])
      (hv : ∀ w, r'.votesFor w = if w = info.viewNum then r.votesFor w ++ [info] else r.votesFor w)
      (hc : ∀ w, r'.counts w ≤ r.counts w + if info.viewNum = w then 1 else 0)
  /-- it stores and counts its own -/
  | own (v o : Nat) (info : ViewChangeInfo) (hb : r.hb = .startSent v o ∨ r.hb = .startWait v o)
      (hi : info.replicaId = r.id) (hw : info.viewNum = v) (ho : .voted r.id info ∈ os) (hs : sent = [])
      (hv : ∀ w, r'.votesFor w = if w = v then r.votesFor w ++ [info] else r.votesFor w)
      (hc : ∀ w, r'.counts w = r.counts w + if v = w then 1 else 0)

theorem Move.votes (hR : R.called = true) {tr : List Obs} {r r' : Replica} {msg : Option Msg} {sent : List Packet}
    {os : List Obs} (m : Move R tr r msg r' sent os) : r.VoteMove r' msg sent os := by
  have hnone : (∀ q w d, .selected q w d ∉ os) → ∀ pk ∈ sent, ∀ info, pk.msg ≠ .doViewChange info :=
    fun hno pk hpk info he => by
      cases m.sends pk hpk with
      | doViewChange d info cnt hb hd ho => exact hno _ _ _ (ho hR)
      | _ => cases he
  -- without the one that waits, if there is one
  have hdue : ∀ {r' : Replica}, r'.doViewChangeMap = r.doViewChangeMap →
      (r'.listener = r.listener ∨ ∀ w, r'.due w = 0) → ∀ w, r'.counts w ≤ r.counts w := fun hm hl w => by
    unfold Replica.counts
    rw [hm]
    refine Nat.add_le_add_left (hl.elim (fun hl => ?_) (fun hl => ?_)) _
    · unfold Replica.due
      rw [hl]
    · rw [hl w]
      exact Nat.zero_le _
  cases m with
  | vote v o info hb hi =>
    refine .own v o info hb (by rw [hi]) (by rw [hi]) List.mem_cons_self rfl (fun w => r.votesFor_push v w info)
      (fun w => ?_)
    simp only [Replica.counts, Replica.due, WaitMap.cnt_bump, eq_comm (a := v)]
    split <;> omega
  | select info cnt c sent hb hs =>
    rcases hs with rfl | ⟨hne, rfl⟩
    · exact .keep (by simp) (fun _ => .inl rfl) (hdue rfl (.inl rfl))
    · exact .send info cnt c hb hne rfl List.mem_cons_self (fun _ => rfl) (fun _ => rfl)
  | startPrimary | startBackup =>
    refine .keep (hnone (by simp)) (fun _ => .inr (by simp [Replica.votesFor, Replica.adopted])) (fun w => ?_)
    simp only [Replica.counts, Replica.due, Replica.adopted, WaitMap.cnt_empty]
    omega
  | storeVote info hv hs =>
    refine .store info rfl rfl (fun w => r.votesFor_push _ w info) (fun w => ?_)
    simp only [Replica.counts, Replica.due]
    omega
  | countVote info hi hcnt =>
    refine .keep (hnone (by simp)) (fun _ => .inl rfl) (fun w => ?_)
    simp only [Replica.counts, Replica.due, hi, WaitMap.cnt_bump, eq_comm (a := w)]
    split <;> omega
  | takeOk | countOk | listen | unlisten | commitNext | storeStart =>
    exact .keep (hnone (by simp)) (fun _ => .inl rfl) (hdue rfl (.inr (fun _ => rfl)))
  | _ => exact .keep (hnone (by simp)) (fun _ => .inl rfl) (hdue rfl (.inl rfl))

theorem countP_takeUp_add {net : List Packet} {p : Option Packet} {P : Packet → Bool} (hp : ∀ q, p = some q → q ∈ net) :
    (takeUp p net).countP P + (if p.any P = true then 1 else 0) = net.countP P := by
  cases p with
  | none => simp [takeUp]
  | some q =>
    have hq := hp q rfl
    have hpos : P q = true → 0 < net.countP P := fun h => List.countP_pos_iff.2 ⟨q, hq, h⟩
    simp only [takeUp, List.countP_erase, hq, true_and, Option.any_some]
    split
    · rename_i h; have := hpos h; omega
    · omega

theorem Cluster.votes_eq_zero {c : Cluster} {p w q : Nat} (h1 : ∀ info ∈ (c.reps p).votesFor w, info.replicaId ≠ q)
    (h2 : ∀ info, ⟨p, .doViewChange info⟩ ∈ c.net → info.viewNum = w → info.replicaId ≠ q) : c.votes p w q = 0 := by
  have hs : ((c.reps p).votesFor w).countP (fun info => decide (info.replicaId = q)) = 0 := by
    rw [List.countP_eq_zero]
    exact fun info hi => by simpa using h1 info hi
  have hn : c.net.countP (isVote p w q) = 0 := by
    rw [List.countP_eq_zero]
    rintro ⟨dst, msg⟩ hpk hv
    unfold isVote at hv
    split at hv
    · rename_i info he
      simp only [decide_eq_true_eq] at he hv
      obtain ⟨rfl, rfl, rfl⟩ := hv
      subst he
      exact h2 info hpk rfl rfl
    · cases hv
  rw [votes, hs, hn]

/-- Who a vote is from, stored or on its way, has selected the replica it is for. -/
theorem Moves.selected (hR : R.called = true) {c : Cluster} {tr : List Obs} (h : Moves n R c tr) :
    (∀ i w info, info ∈ (c.reps i).votesFor w → info.replicaId ≠ i → .selected info.replicaId w i ∈ tr) ∧
      ∀ d info, ⟨d, .doViewChange info⟩ ∈ c.net → .selected info.replicaId info.viewNum d ∈ tr := by
  have hall := h.invariant
    (P := fun tr i r => ∀ w info, info ∈ r.votesFor w → info.replicaId ≠ i → .selected info.replicaId w i ∈ tr)
    (Q := fun tr pk => ∀ info, pk.msg = .doViewChange info → .selected info.replicaId info.viewNum pk.dst ∈ tr)
    (T := fun _ _ => True)
    (fun _ _ _ _ _ h w info hi hne => List.mem_append_left _ (h w info hi hne))
    (fun _ _ _ h info he => List.mem_append_left _ (h info he)) (fun _ _ _ h => h)
    (fun _ w info hi => by simp [Replica.votesFor, Replica.init] at hi) (fun _ _ _ h w info hi => h w info hi)
    (fun _ _ _ _ _ _ w info hi => by simp [Replica.votesFor, Replica.recovering, Replica.init] at hi) ?_
  · exact ⟨hall.1, fun d info hm => hall.2.1 _ hm info rfl⟩
  intro c tr i p r' sent os hM hP hQ _ _ hp m
  have hid := hM.id_eq i
  have hold : ∀ w info, info ∈ (c.reps i).votesFor w → info.replicaId ≠ i →
      .selected info.replicaId w i ∈ tr ++ os := fun w info hi hne => List.mem_append_left _ (hP i w info hi hne)
  have hnew : ∀ {v : Nat} {x : ViewChangeInfo}, (x.replicaId ≠ i → .selected x.replicaId v i ∈ tr ++ os) →
      ∀ w info, (info ∈ if w = v then (c.reps i).votesFor w ++ [x] else (c.reps i).votesFor w) → info.replicaId ≠ i →
        .selected info.replicaId w i ∈ tr ++ os := fun hx w info hi hne => by
    split at hi
    · rename_i hw
      rcases List.mem_append.1 hi with hi | hi
      · exact hold w info hi hne
      · rw [List.mem_singleton.1 hi] at hne ⊢
        rw [hw]
        exact hx hne
    · exact hold w info hi hne
  refine ⟨?_, fun q hq info he => ?_, fun _ _ => trivial⟩
  · cases m.votes hR with
    | keep hs hv hc =>
      intro w info hi
      rcases hv w with hv | hv <;> rw [hv] at hi
      · exact hold w info hi
      · exact absurd hi List.not_mem_nil
    | send info cnt d hb hd hs ho hv hc => exact fun w info hi => hold w info (by rwa [hv w] at hi)
    | store x hmsg hs hv hc =>
      have hx : Obs.selected x.replicaId x.viewNum i ∈ tr ++ os :=
        List.mem_append_left _ (Cluster.of_taken hQ hp _ hmsg x rfl)
      exact fun w info hi => hnew (fun _ => hx) w info (by rwa [hv w] at hi)
    | own v o x hb hx hw ho hs hv hc =>
      exact fun w info hi => hnew (fun hne => absurd (hx.trans hid) hne) w info (by rwa [hv w] at hi)
  · cases m.sends q hq with
    | doViewChange d x cnt hb hd ho =>
      cases he
      rw [((hM.known.1 i).choosing _ _ _ hb).2, ← hid]
      exact List.mem_append_right _ (ho hR)
    | _ => cases he

/-- No vote of a replica that is still in its candidate loop has left it. -/
theorem Moves.votes_undecided (hR : R.called = true) {c : Cluster} {tr : List Obs} (h : Moves n R c tr) {i p : Nat}
    (hb : (c.reps i).hb.undecided = true) (hne : i ≠ p) : c.votes p (c.reps i).viewNum i = 0 := by
  obtain ⟨hst, hnet⟩ := h.selected hR
  have huns := (h.views i).unselected hb p
  refine Cluster.votes_eq_zero (fun info hi he => ?_) (fun info hi hv he => ?_)
  · have := hst p _ info hi (by rw [he]; exact hne)
    rw [he] at this
    exact huns this
  · have := hnet p info hi
    rw [he, hv] at this
    exact huns this

theorem Moves.votes_unvoted {c : Cluster} {tr : List Obs} (h : Moves n R c tr) {i v o : Nat}
    (hb : (c.reps i).hb = .startSent v o ∨ (c.reps i).hb = .startWait v o) : c.votes i v i = 0 := by
  obtain ⟨hk, hkn, -⟩ := h.known
  have hunv := (h.views i).unvoted v o hb
  refine Cluster.votes_eq_zero (fun info hi he => ?_) (fun info hi hv he => (hkn _ hi).2 he)
  obtain ⟨h1, h2⟩ := (hk i).votes _ info hi
  rw [he] at h2
  exact hunv info h2 h1

/-- The votes after a move, by what is stored, what stays in flight and what is sent. -/
theorem Cluster.votes_le_of {c : Cluster} {i p w q k : Nat} {pk : Option Packet} {r' : Replica} {sent : List Packet}
    (h1 : i = p → (r'.votesFor w).countP (fun info => decide (info.replicaId = q)) ≤ k)
    (h2 : i ≠ p → ((c.reps p).votesFor w).countP (fun info => decide (info.replicaId = q)) ≤ k)
    (h3 : k + ((takeUp pk c.net).countP (isVote p w q) + sent.countP (isVote p w q)) ≤ 1) :
    ({ c.setRep i r' with net := takeUp pk c.net ++ sent } : Cluster).votes p w q ≤ 1 := by
  refine le_trans (Nat.add_le_add ?_ (le_of_eq List.countP_append)) h3
  by_cases hi : i = p
  · subst hi
    simp only [Cluster.setRep, Function.update_self]
    exact h1 rfl
  · simp only [Cluster.setRep, Function.update_of_ne (Ne.symm hi)]
    exact h2 hi

theorem Moves.votes_move (hR : R.called = true) {c : Cluster} {tr : List Obs} (h : Moves n R c tr) {i p w q : Nat}
    {pk : Option Packet} {r' : Replica} {sent : List Packet} {os : List Obs}
    (hp : ∀ x, pk = some x → x ∈ c.net ∧ x.dst = i)
    (m : Move R tr (c.reps i) (pk.map Packet.msg) r' sent os) (hle : c.votes p w q ≤ 1) :
    ({ c.setRep i r' with net := takeUp pk c.net ++ sent } : Cluster).votes p w q ≤ 1 := by
  obtain ⟨hk, -⟩ := h.known
  have hid := h.id_eq i
  have htake := countP_takeUp_add (P := isVote p w q) (fun x hx => (hp x hx).1)
  have hold : c.votes p w q = ((c.reps p).votesFor w).countP (fun info => decide (info.replicaId = q)) +
    c.net.countP (isVote p w q) := rfl
  cases m.votes hR with
  | keep hs hv hc =>
    refine Cluster.votes_le_of (fun hi => ?_) (fun _ => le_refl _) ?_
    · rcases hv w with hv | hv <;> rw [hv]
      · rw [hi]
      · simp
    · rw [countP_isVote_eq_zero hs]
      omega
  | send info cnt d hb hd hs ho hv hc =>
    subst hs
    refine Cluster.votes_le_of (fun hi => by rw [hv w, hi]) (fun _ => le_refl _) ?_
    rw [List.countP_singleton]
    split
    · -- the one vote sent: none of it was anywhere before
      rename_i hx
      simp only [isVote, decide_eq_true_eq] at hx
      obtain ⟨rfl, rfl, rfl⟩ := hx
      obtain ⟨hview, -⟩ := (h.views i).hb_view info.viewNum (by rw [hb]; rfl)
      have hrid := ((hk i).choosing info cnt d hb).2
      have := h.votes_undecided hR (i := i) (p := d) (by rw [hb]; rfl) (by rw [← hid]; exact hd.symm)
      rw [← hview, ← hrid] at this
      omega
    · omega
  | store info hmsg hs hv hc =>
    subst hs
    obtain ⟨x, rfl, hx⟩ := Option.map_eq_some_iff.1 hmsg
    obtain ⟨hxn, rfl⟩ := hp x rfl
    refine Cluster.votes_le_of (k := ((c.reps p).votesFor w).countP (fun info => decide (info.replicaId = q)) +
      if isVote p w q x = true then 1 else 0) (fun hi => ?_) (fun _ => Nat.le_add_right _ _) ?_
    · subst hi
      rw [hv w]
      split
      · rename_i hw
        simp [isVote, hx, hw]
      · exact Nat.le_add_right _ _
    · simp only [Option.any_some] at htake
      simp only [List.countP_nil]
      omega
  | own v o info hb hr hw ho hs hv hc =>
    subst hs
    by_cases hx : i = p ∧ w = v ∧ info.replicaId = q
    · obtain ⟨rfl, rfl, rfl⟩ := hx
      have := h.votes_unvoted hb
      rw [hr, hid] at *
      refine Cluster.votes_le_of (k := 1) (fun _ => ?_) (fun hne => absurd rfl hne) ?_
      · rw [hv w, if_pos rfl, List.countP_append]
        simp only [List.countP_singleton]
        split <;> omega
      · simp only [List.countP_nil]
        omega
    · refine Cluster.votes_le_of (fun hi => ?_) (fun _ => le_refl _) ?_
      · subst hi
        rw [hv w]
        split
        · rename_i hw
          rw [List.countP_append]
          have : ¬ info.replicaId = q := fun he => hx ⟨rfl, hw, he⟩
          simp [this]
        · exact le_refl _
      · simp only [List.countP_nil]
        omega

/-- **A vote is at most once anywhere.** -/
theorem Moves.votes_le (hR : R.called = true) {c : Cluster} {tr : List Obs} (h : Moves n R c tr) (p w q : Nat) :
    c.votes p w q ≤ 1 := by
  induction h with
  | init => simp [Cluster.votes, Cluster.init, Replica.init, Replica.votesFor]
  | @step c c' tr os h m ih =>
    have hset : ∀ (i : Nat) (r : Replica), (i = p → (r.votesFor w).countP (fun info => decide (info.replicaId = q)) ≤
        ((c.reps p).votesFor w).countP (fun info => decide (info.replicaId = q))) → (c.setRep i r).votes p w q ≤ 1 := by
      intro i r hr
      refine le_trans (Nat.add_le_add_right ?_ _) ih
      by_cases hi : p = i
      · subst hi; rw [Cluster.setRep_reps_self]; exact hr rfl
      · rw [Cluster.setRep_reps_of_ne c r hi]
    cases m with
    | lose pk =>
      refine le_trans (Nat.add_le_add_left ?_ _) ih
      exact (List.erase_sublist).countP_le
    | down i => exact hset i _ (fun hi => by rw [← hi]; exact le_refl _)
    | restart i flag hi hR =>
      refine hset i _ (fun _ => ?_)
      simp [Replica.recovering, Replica.init, Replica.votesFor]
    | move i pk r' sent os hi hp hm => exact h.votes_move hR hp hm ih

/-- The votes for view `w` that replica `p` has counted, is to count or may yet take up. -/
def Cluster.counts (c : Cluster) (p w : Nat) : Nat := (c.reps p).counts w + c.net.countP (isVoteFor p w)

/-- The replica is `p` itself and has voted in view `w`, or has selected `p` for it. -/
def Voter (tr : List Obs) (p w q : Nat) : Prop :=
  (q = p ∧ ∃ info, .voted p info ∈ tr ∧ info.viewNum = w) ∨ (q ≠ p ∧ .selected q w p ∈ tr)

theorem Voter.mono {tr os : List Obs} {p w q : Nat} (h : Voter tr p w q) : Voter (tr ++ os) p w q :=
  h.imp (fun h => ⟨h.1, h.2.imp (fun _ h => ⟨List.mem_append_left _ h.1, h.2⟩)⟩)
    (fun h => ⟨h.1, List.mem_append_left _ h.2⟩)

/-- There are that many voters. -/
def HasVoters (tr : List Obs) (p w k : Nat) : Prop := ∃ S : Finset Nat, k ≤ S.card ∧ ∀ q ∈ S, Voter tr p w q

theorem HasVoters.mono {tr : List Obs} {p w k k' : Nat} (h : HasVoters tr p w k) (hk : k' ≤ k) (os : List Obs) :
    HasVoters (tr ++ os) p w k' := by
  obtain ⟨S, hS, hv⟩ := h
  exact ⟨S, hk.trans hS, fun q hq => (hv q hq).mono⟩

/-- One voter more. -/
theorem HasVoters.succ {tr os : List Obs} {p w k k' q : Nat} (h : HasVoters tr p w k) (hq : ¬ Voter tr p w q)
    (hq' : Voter (tr ++ os) p w q) (hk : k' ≤ k + 1) : HasVoters (tr ++ os) p w k' := by
  obtain ⟨S, hS, hv⟩ := h
  refine ⟨insert q S, ?_, fun x hx => ?_⟩
  · rw [Finset.card_insert_of_notMem (fun hm => hq (hv q hm))]
    exact hk.trans (Nat.succ_le_succ hS)
  · rcases Finset.mem_insert.1 hx with rfl | hx
    · exact hq'
    · exact (hv x hx).mono

/-- Who has not selected yet is no voter for another. -/
theorem Moves.not_voter_undecided {c : Cluster} {tr : List Obs} (h : Moves n R c tr) {i p : Nat}
    (hu : (c.reps i).hb.undecided = true) (hne : i ≠ p) : ¬ Voter tr p (c.reps i).viewNum i := by
  rintro (⟨he, -⟩ | ⟨-, hsel⟩)
  · exact hne he
  · exact (h.views i).unselected hu p hsel

/-- Who has not voted yet is no voter for itself. -/
theorem Moves.not_voter_unvoted {c : Cluster} {tr : List Obs} (h : Moves n R c tr) {i v o : Nat}
    (hb : (c.reps i).hb = .startSent v o ∨ (c.reps i).hb = .startWait v o) : ¬ Voter tr i v i := by
  rintro (⟨-, info, hvoted, hv⟩ | ⟨hne, -⟩)
  · exact (h.views i).unvoted v o hb info hvoted hv
  · exact hne rfl

/-- What is counted, or may be, after a move. -/
theorem Cluster.counts_setRep (c : Cluster) (i p w : Nat) (r' : Replica) (net sent : List Packet) :
    ({ c.setRep i r' with net := net ++ sent } : Cluster).counts p w =
      (if i = p then r'.counts w else (c.reps p).counts w) +
        (net.countP (isVoteFor p w) + sent.countP (isVoteFor p w)) := by
  rw [Cluster.counts, List.countP_append]
  congr 1
  by_cases hi : i = p
  · rw [if_pos hi, ← hi]
    simp only [Cluster.setRep, Function.update_self]
  · rw [if_neg hi]
    simp only [Cluster.setRep, Function.update_of_ne (Ne.symm hi)]

theorem countP_isVoteFor_eq_zero {sent : List Packet} {p w : Nat}
    (h : ∀ pk ∈ sent, ∀ info, pk.msg ≠ .doViewChange info) : sent.countP (isVoteFor p w) = 0 := by
  rw [List.countP_eq_zero]
  intro x hx
  unfold isVoteFor
  split
  · rename_i info he
    exact absurd he (h x hx info)
  · simp

theorem Moves.counts_move (hR : R.called = true) {c : Cluster} {tr : List Obs} (h : Moves n R c tr) {i p w : Nat}
    {pk : Option Packet} {r' : Replica} {sent : List Packet} {os : List Obs}
    (hp : ∀ x, pk = some x → x ∈ c.net ∧ x.dst = i) (m : Move R tr (c.reps i) (pk.map Packet.msg) r' sent os)
    (hv : HasVoters tr p w (c.counts p w)) :
    HasVoters (tr ++ os) p w (({ c.setRep i r' with net := takeUp pk c.net ++ sent } : Cluster).counts p w) := by
  have hid := h.id_eq i
  have htake := countP_takeUp_add (P := isVoteFor p w) (fun x hx => (hp x hx).1)
  have hold : c.counts p w = (c.reps p).counts w + c.net.countP (isVoteFor p w) := rfl
  rw [Cluster.counts_setRep]
  cases m.votes hR with
  | keep hs _ hc =>
    have hzero := countP_isVoteFor_eq_zero (p := p) (w := w) hs
    have hci := hc w
    refine hv.mono ?_ os
    by_cases hi : i = p
    · subst hi
      rw [if_pos rfl]
      omega
    · rw [if_neg hi]
      omega
  | send info cnt d hb hd hs ho _ hc =>
    subst hs
    have hrep : (if i = p then r'.counts w else (c.reps p).counts w) = (c.reps p).counts w := by
      by_cases hi : i = p
      · rw [if_pos hi, hc w, hi]
      · rw [if_neg hi]
    have hfor : isVoteFor p w ⟨d, .doViewChange info⟩ = true ↔ d = p ∧ info.viewNum = w := decide_eq_true_iff
    rw [hrep, List.countP_singleton]
    by_cases hx : d = p ∧ info.viewNum = w
    · rw [if_pos (hfor.2 hx)]
      obtain ⟨rfl, rfl⟩ := hx
      rw [hid] at hd ho
      have hund : (c.reps i).hb.undecided = true := by rw [hb]; rfl
      obtain ⟨hview, -⟩ := (h.views i).hb_view info.viewNum (by rw [hb]; rfl)
      have hnot := h.not_voter_undecided hund (Ne.symm hd)
      rw [← hview] at hnot
      exact hv.succ hnot (.inr ⟨Ne.symm hd, List.mem_append_right _ ho⟩) (by omega)
    · rw [if_neg (fun hm => hx (hfor.1 hm))]
      exact hv.mono (by omega) os
  | store info hmsg hs _ hc =>
    subst hs
    obtain ⟨x, rfl, hx⟩ := Option.map_eq_some_iff.1 hmsg
    obtain ⟨hxn, rfl⟩ := hp x rfl
    have hci := hc w
    refine hv.mono ?_ os
    simp only [Option.any_some, isVoteFor, hx, decide_eq_true_eq] at htake
    rw [List.countP_nil]
    by_cases hi : x.dst = p
    · subst hi
      simp only [true_and] at htake
      rw [if_pos rfl]
      omega
    · rw [if_neg (fun h => hi h.1)] at htake
      rw [if_neg hi]
      omega
  | own v o info hb hi hw ho hs _ hc =>
    subst hs
    have hci := hc w
    rw [List.countP_nil]
    by_cases hx : i = p ∧ v = w
    · obtain ⟨rfl, rfl⟩ := hx
      rw [if_pos rfl] at hci ⊢
      rw [hid] at ho
      exact hv.succ (h.not_voter_unvoted hb) (.inl ⟨rfl, info, List.mem_append_right _ ho, hw⟩) (by omega)
    · refine hv.mono ?_ os
      by_cases hip : i = p
      · subst hip
        rw [if_neg (fun hvw => hx ⟨rfl, hvw⟩)] at hci
        rw [if_pos rfl]
        omega
      · rw [if_neg hip]
        omega

/-- **What is counted is from distinct voters**, whatever `cleanUp` has dropped in between. -/
theorem Moves.counts_le (hR : R.called = true) {c : Cluster} {tr : List Obs} (h : Moves n R c tr) (p w : Nat) :
    HasVoters tr p w (c.counts p w) := by
  induction h with
  | init => exact ⟨∅, by simp [Cluster.counts, Cluster.init, Replica.init, Replica.counts, Replica.due], by simp⟩
  | @step c c' tr os h m ih =>
    have hset : ∀ (i : Nat) (r : Replica), (i = p → r.counts w ≤ (c.reps p).counts w) →
        (c.setRep i r).counts p w ≤ c.counts p w := fun i r hr => by
      refine Nat.add_le_add_right ?_ _
      by_cases hi : p = i
      · subst hi
        rw [Cluster.setRep_reps_self]
        exact hr rfl
      · rw [Cluster.setRep_reps_of_ne c r hi]
    cases m with
    | lose pk => exact ih.mono (Nat.add_le_add_left (List.erase_sublist).countP_le _) _
    | down i => exact ih.mono (hset i _ (fun hi => by rw [← hi]; exact le_refl _)) _
    | restart i flag hi hn =>
      refine ih.mono (hset i _ (fun _ => ?_)) _
      simp [Replica.recovering, Replica.init, Replica.counts, Replica.due]
    | move i pk r' sent os hi hp hm => exact h.counts_move hR hp hm ih

theorem Moves.by_lt {c : Cluster} {tr : List Obs} (h : Moves n R c tr) : ∀ o ∈ tr, o.by < n := by
  refine h.forall_obs (T := fun _ o => o.by < n) (fun _ _ _ h => h) ?_
  intro c tr i msg r' sent os hm hi m o ho
  rw [m.by_eq o ho, hm.id_eq i]
  exact hi

theorem Moves.votes_nodup (hR : R.called = true) {c : Cluster} {tr : List Obs} (h : Moves n R c tr) (d v : Nat) :
    (((c.reps d).votesFor v).map ViewChangeInfo.replicaId).Nodup := by
  rw [List.nodup_iff_count_le_one]
  intro q
  have := h.votes_le hR d v q
  rw [List.count_eq_countP, List.countP_map]
  refine le_trans ?_ (le_trans (Nat.le_add_right _ _) this)
  exact List.countP_mono_left (fun info _ he => by simpa using he)

theorem Moves.votes_quorum (hR : R.called = true) {c : Cluster} {tr : List Obs} (h : Moves n R c tr) {d v : Nat}
    (hlen : n / 2 + 1 ≤ ((c.reps d).votesFor v).length) :
    IsQuorum n (((c.reps d).votesFor v).map ViewChangeInfo.replicaId).toFinset := by
  obtain ⟨hk, -, -⟩ := h.known
  refine isQuorum_toFinset (h.votes_nodup hR d v) (fun q hq => ?_) (by rw [List.length_map]; exact hlen)
  obtain ⟨info, hi, rfl⟩ := List.mem_map.1 hq
  exact h.by_lt _ ((hk d).votes v info hi).2

/-- A majority has entered view `v` and selected `d` for it, `d` itself included. -/
def Backed (n : Nat) (tr : List Obs) (v d : Nat) : Prop :=
  ∃ Q, IsQuorum n Q ∧ d ∈ Q ∧ ∀ q ∈ Q, .entered q v ∈ tr ∧ .selected q v d ∈ tr

theorem Backed.mono {tr os : List Obs} {v d : Nat} (h : Backed n tr v d) : Backed n (tr ++ os) v d := by
  obtain ⟨Q, hQ, hd, hq⟩ := h
  exact ⟨Q, hQ, hd, fun q hm => ⟨List.mem_append_left _ (hq q hm).1, List.mem_append_left _ (hq q hm).2⟩⟩

/-- Enough others that have selected a candidate back it, if it has selected itself. -/
theorem Moves.backed_of {c : Cluster} {tr : List Obs} (h : Moves n R c tr) {d v : Nat} (hb : (c.reps d).hb = .doWait v)
    {S : Finset Nat} (hS : n / 2 + 1 ≤ S.card) (hs : ∀ q ∈ S, q ≠ d → .selected q v d ∈ tr) : Backed n tr v d := by
  have hself := (h.views d).doWait v hb
  have hsel : ∀ q ∈ insert d S, .selected q v d ∈ tr := fun q hq => by
    by_cases he : q = d
    · rw [he]; exact hself
    · exact hs q ((Finset.mem_insert.1 hq).resolve_left he) he
  refine ⟨insert d S, ⟨fun q hq => Finset.mem_range.2 (h.by_lt _ (hsel q hq)),
    hS.trans (Finset.card_le_card (Finset.subset_insert _ _))⟩, Finset.mem_insert_self _ _, fun q hq => ?_⟩
  exact ⟨(h.views q).selected_entered v d (hsel q hq), hsel q hq⟩

/-- **Enough stored votes are a majority that selected the candidate.** -/
theorem Moves.backed (hR : R.called = true) {c : Cluster} {tr : List Obs} (h : Moves n R c tr) {d v : Nat}
    (hb : (c.reps d).hb = .doWait v) (hlen : n / 2 + 1 ≤ ((c.reps d).votesFor v).length) : Backed n tr v d := by
  refine h.backed_of hb (h.votes_quorum hR hlen).2 (fun q hq hne => ?_)
  obtain ⟨info, hi, rfl⟩ := List.mem_map.1 (List.mem_toFinset.1 hq)
  exact (h.selected hR).1 d v info hi hne

/-- **So are enough counted ones.** -/
theorem Moves.backed_of_cnt (hR : R.called = true) {c : Cluster} {tr : List Obs} (h : Moves n R c tr) {d v : Nat}
    (hb : (c.reps d).hb = .doWait v) (hcnt : n / 2 + 1 ≤ (c.reps d).doViewChangeMap.cnt v) : Backed n tr v d := by
  obtain ⟨S, hS, hv⟩ := h.counts_le hR d v
  have hle : (c.reps d).doViewChangeMap.cnt v ≤ c.counts d v :=
    (Nat.le_add_right _ _).trans (Nat.le_add_right _ _)
  exact h.backed_of hb (hcnt.trans (hle.trans hS)) (fun q hq hne => ((hv q hq).resolve_left (fun hx => hne hx.1)).2)

/-- **Two majorities cannot select different candidates.** -/
theorem Moves.backed_unique {c : Cluster} {tr : List Obs} (h : Moves n R c tr) {d d' v : Nat} (hd : Backed n tr v d)
    (hd' : Backed n tr v d') : d = d' := by
  obtain ⟨Q, hQ, -, hq⟩ := hd
  obtain ⟨Q', hQ', -, hq'⟩ := hd'
  obtain ⟨q, h1, h2⟩ := hQ.inter hQ'
  exact (h.views q).selected_unique v d d' (hq q h1).2 (hq' q h2).2

/-- Who started a view was backed for it. -/
theorem Moves.backed_of_newView (hR : R.atomic = true ∨ R.peersKept = true) (hC : R.called = true) {c : Cluster}
    {tr : List Obs} (h : Moves n R c tr) {d : Nat} {info : ViewStartInfo} (hn : .newView d true info ∈ tr) :
    Backed n tr info.viewNum d := by
  refine h.forall_obs (T := fun tr o => ∀ d info, o = .newView d true info → Backed n tr info.viewNum d)
    (fun _ _ _ h d info ho => (h d info ho).mono) ?_ _ hn d info rfl
  rintro c tr i msg r' sent os hm hi m o ho d info rfl
  have hid := hm.id_eq i
  cases m with
  | startPrimary v votes cand kvMap ops hb hv hq hc hn hst hA ha hs =>
    obtain ⟨rfl, -, rfl⟩ := by simpa using ho
    rw [((hm.peers hR).1 i).majority hi, ← hv] at hq
    have := hm.backed hC hb hq
    rw [hid]
    simpa [Replica.viewStartInfo, hn] using this.mono
  | _ => simp at ho

end

/-- The replica is about to call `updateNewView(v, true)`: its heart-beat thread is behind the candidate loop for `v`
and finds the quorum of `DoViewChange`s. -/
def Cluster.CallsUpdateNewView (c : Cluster) (d v : Nat) : Prop :=
  (c.reps d).hb = .doWait v ∧ (c.reps d).quorumReached ((c.reps d).doViewChangeMap.cnt v) = true

instance (c : Cluster) (d v : Nat) : Decidable (c.CallsUpdateNewView d v) :=
  inferInstanceAs (Decidable (_ ∧ _))

/-- **Election safety**: at any two moments of a run, the replicas that execute `updateNewView(v, true)` there are the
same, and a majority has entered `changeView` for `v` and selected that replica before the first of them. -/
theorem election_safety {n d d' v : Nat} {c c' : Cluster} {tr os : List Obs}
    (h : Runs n { Rules.free with peersKept := true, called := true } c tr) (hc : c.CallsUpdateNewView d v)
    (h' : Runs n { Rules.free with peersKept := true, called := true } c' (tr ++ os))
    (hc' : c'.CallsUpdateNewView d' v) :
    d = d' ∧ ∃ Q, IsQuorum n Q ∧ d ∈ Q ∧ ∀ q ∈ Q, .entered q v ∈ tr ∧ .selected q v d ∈ tr := by
  have hback : ∀ {c tr d}, Runs n { Rules.free with peersKept := true, called := true } c tr →
      c.CallsUpdateNewView d v → Backed n tr v d := by
    intro c tr d h hc
    have hm := h.moves
    refine hm.backed_of_cnt rfl hc.1 ?_
    have hd : d < n := hm.by_lt _ ((hm.views d).doWait v hc.1)
    have hq := hc.2
    rw [Replica.quorumReached, decide_eq_true_eq, ((hm.peers (.inr rfl)).1 d).majority hd] at hq
    exact hq
  exact ⟨h'.moves.backed_unique (hback h hc).mono (hback h' hc'), hback h hc⟩

/-- Replicas `1` and `2` of three leave view `0`, and `2` votes for `1`. -/
def electionEvents : List Event := [
  .act 1 .changeViewBegin 10, .act 2 .changeViewBegin 10,
  .deliver ⟨1, .startViewChange ⟨1, 2⟩⟩ 10, .deliver ⟨2, .startViewChange ⟨1, 1⟩⟩ 10,
  .act 1 .changeViewCount 10, .act 1 (.candidate .answered) 10,
  .act 2 .changeViewCount 10, .act 2 (.candidate .answered) 10,
  .deliver ⟨1, .doViewChange ⟨1, [], 0, 0, 0, 2⟩⟩ 10, .act 1 .doViewChangeCount 10]

theorem election_safety_three : ∃ c tr,
    Runs 3 { Rules.free with peersKept := true, called := true } c tr ∧ c.CallsUpdateNewView 1 1 ∧
    ∃ Q, IsQuorum 3 Q ∧ 1 ∈ Q ∧ ∀ q ∈ Q, .entered q 1 ∈ tr ∧ .selected q 1 1 ∈ tr := by
  obtain ⟨c, tr, h, hc⟩ := exists_runs (n := 3) (R := { Rules.free with peersKept := true, called := true })
    electionEvents (fun c _ => decide (c.CallsUpdateNewView 1 1)) (by decide +kernel)
  have hc := of_decide_eq_true hc
  have h' : Runs 3 { Rules.free with peersKept := true, called := true } c (tr ++ []) := by rwa [List.append_nil]
  exact ⟨c, tr, h, hc, (election_safety h hc h' hc).2⟩

end MetaDR
