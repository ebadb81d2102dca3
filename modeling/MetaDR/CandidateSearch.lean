import MetaDR.Membership
/-!
# CandidateSearch — the loop of `changeView` that looks for the next primary

From the replica after the old primary on, each candidate in cyclic order is sent a `DoViewChange` until one answers or
the replica comes to itself.  The loop counts its failures and leaves at `_replicas.size() - 1`, one short of all
the peers, with the candidate that just failed.  So it always ends, and it ends with the first candidate that will do
exactly when that is among the first `n - 2` of the order (`candidate_search`).
-/
namespace MetaDR

/-- The candidates in cyclic order after `p`. -/
def inOrder (n p k : Nat) : Nat := (p + 1 + k) % n

/-- The replica itself, or one whose call returns `true`. -/
def willDo (i : Nat) (call : Nat → CallEnd) (c : Nat) : Bool := decide (c = i) || decide (call c = .answered)

namespace Replica

/-- The candidate loop when the call to `c` ends as `call c` says, for at most `fuel` turns: the replica behind it and
the candidates called. -/
def candidateLoop (call : Nat → CallEnd) : Nat → Replica → Option (Replica × List Nat)
  | 0, _ => none
  | fuel + 1, r =>
    match r.hb with
    | .choosing info cnt c =>
      (candidateLoop call fuel (r.candidate info cnt c (call c)).rep).map
        (fun x => (x.1, if c = r.id then x.2 else c :: x.2))
    | _ => some (r, [])

/-- **The loop ended as it should**: with the first candidate that will do, and all before it were called in vain. -/
def EndsAtFirst (n p : Nat) (call : Nat → CallEnd) (r : Replica) (called : List Nat) : Prop :=
  ∃ k, willDo r.id call (inOrder n p k) = true ∧ r.priId = inOrder n p k ∧
    ∀ j < k, inOrder n p j ≠ r.id ∧ inOrder n p j ∈ called ∧ call (inOrder n p j) ≠ .answered

end Replica

theorem inOrder_lt {n p k : Nat} (hn : 0 < n) : inOrder n p k < n := Nat.mod_lt _ hn

theorem succ_inOrder (n p k : Nat) : (inOrder n p k + 1) % n = inOrder n p (k + 1) := by
  unfold inOrder
  rw [Nat.mod_add_mod, Nat.add_assoc]

theorem willDo_eq_false {i c : Nat} {call : Nat → CallEnd} : willDo i call c = false ↔
    c ≠ i ∧ call c ≠ .answered := by
  rw [willDo, Bool.or_eq_false_iff, decide_eq_false_iff_not, decide_eq_false_iff_not]

namespace Replica

theorem getNextPrimaryCandidate_eq {n i c : Nat} {r : Replica} (hi : i < n) (hr : r.replicas = peersOf n i)
    (hc : c < n) : r.getNextPrimaryCandidate c = (c + 1) % n := by
  unfold getNextPrimaryCandidate
  rw [hr, length_peersOf hi]
  split
  · rw [show c + 1 = n by omega, Nat.mod_self]
  · rw [Nat.mod_eq_of_lt (by omega)]

/-- The loop of replica `i` of `n` is at candidate `k` of the order after `p`. -/
structure Searching (n i p k : Nat) (info : ViewChangeInfo) (r : Replica) : Prop where
  id_eq : r.id = i
  replicas_eq : r.replicas = peersOf n i
  hb_eq : r.hb = .choosing info k (inOrder n p k)

variable {n i p k : Nat} {info : ViewChangeInfo} {call : Nat → CallEnd} {r : Replica}

/-- The candidate loop is left with `c`. -/
def Leaves (r : Replica) (i c : Nat) : Prop :=
  r.id = i ∧ r.priId = c ∧ ∀ info cnt c', r.hb ≠ .choosing info cnt c'

theorem leaves_chosen (r : Replica) (v c : Nat) : (r.chosen v c).rep.Leaves r.id c := by
  unfold chosen
  split
  · exact ⟨rfl, rfl, fun _ _ _ h => by cases h⟩
  · exact ⟨rfl, rfl, fun _ _ _ h => by cases h⟩

/-- **One turn**: the loop is left with its candidate, or goes on to the next. -/
theorem Searching.turn (call : Nat → CallEnd) (h : r.Searching n i p k info) (hi : i < n) :
    if willDo i call (inOrder n p k) = true ∨ k + 1 = n - 2
    then (r.candidate info k (inOrder n p k) (call (inOrder n p k))).rep.Leaves i (inOrder n p k)
    else (r.candidate info k (inOrder n p k) (call (inOrder n p k))).rep.Searching n i p (k + 1) info := by
  have hlt : inOrder n p k < n := inOrder_lt (Nat.zero_lt_of_lt hi)
  have hid := h.id_eq
  have hreps := h.replicas_eq
  subst hid
  generalize hc : inOrder n p k = c at hlt
  unfold candidate
  by_cases hown : c = r.id
  · rw [if_pos (.inl (by simp [willDo, hown])), if_pos hown]
    exact leaves_chosen r _ c
  · have hmem : c ∈ r.replicas := by
      rw [hreps, mem_peersOf]
      exact ⟨hlt, hown⟩
    have hpoint : r.endPoint c = r := by
      unfold endPoint
      rw [if_pos hmem]
    have hsent : r.sendTo c (.doViewChange info) ≠ [] := by
      unfold sendTo
      rw [if_pos ⟨hmem, hown⟩]
      exact List.cons_ne_nil _ _
    have hlen : r.replicas.length - 1 = n - 2 := by
      rw [hreps, length_peersOf hi]
      rfl
    have hdo : willDo r.id call c = decide (call c = .answered) := by simp [willDo, hown]
    rw [if_neg hown, hdo]
    dsimp only
    rw [hpoint, hlen]
    simp only [decide_eq_true_eq]
    by_cases hok : call c = .answered
    · have hcall : CallEnd.answered ≠ .failed := CallEnd.noConfusion
      rw [if_pos (.inl hok), hok, if_neg hcall, if_pos ⟨rfl, hsent⟩]
      exact leaves_chosen r _ c
    · have hcall : ∀ {q : Prop}, ¬(call c = .answered ∧ q) := fun hand => hok hand.1
      by_cases hk : k + 1 = n - 2
      · rw [if_pos (.inr hk), if_neg hcall, if_pos hk]
        exact leaves_chosen r _ c
      · rw [if_neg (fun hor => hor.elim hok hk), if_neg hcall, if_neg hk]
        refine ⟨rfl, hreps, ?_⟩
        show HbPc.choosing info (k + 1) (r.getNextPrimaryCandidate c) = _
        rw [getNextPrimaryCandidate_eq hi hreps hlt, ← hc, succ_inOrder]

theorem candidateLoop_of_leaves {c fuel : Nat} (h : r.Leaves i c) : candidateLoop call (fuel + 1) r = some (r, []) := by
  unfold candidateLoop
  split
  · rename_i hb
    exact absurd hb (h.2.2 _ _ _)
  · rfl

/-- A turn that leaves the loop ends it. -/
theorem Searching.candidateLoop_eq (h : r.Searching n i p k info)
    (hl : (r.candidate info k (inOrder n p k) (call (inOrder n p k))).rep.Leaves i (inOrder n p k)) (fuel : Nat) :
    candidateLoop call (fuel + 2) r =
      some ((r.candidate info k (inOrder n p k) (call (inOrder n p k))).rep,
        if inOrder n p k = r.id then [] else [inOrder n p k]) := by
  unfold candidateLoop
  simp only [h.hb_eq]
  rw [candidateLoop_of_leaves hl]
  rfl

/-- **The loop from candidate `k` on**: it is left within the `n - 2` first of the order, with one that will do or the
last of them, and the candidates before were called in vain. -/
theorem Searching.run (call : Nat → CallEnd) (hi : i < n) : ∀ (d k : Nat) (r : Replica),
    r.Searching n i p k info → k + 1 + d = n - 2 →
    ∃ j r' called, candidateLoop call (d + 2) r = some (r', called) ∧ r'.Leaves i (inOrder n p j) ∧ k ≤ j ∧ j < n - 2 ∧
      (willDo i call (inOrder n p j) = true ∨ j + 1 = n - 2) ∧
      ∀ l, k ≤ l → l < j → willDo i call (inOrder n p l) = false ∧ inOrder n p l ∈ called := by
  intro d
  induction d with
  | zero =>
    intro k r h hd
    have hturn := h.turn call hi
    rw [if_pos (.inr hd)] at hturn
    refine ⟨k, _, _, h.candidateLoop_eq hturn 0, hturn, le_rfl, by omega, .inr hd, fun l hkl hlk => ?_⟩
    omega
  | succ d ih =>
    intro k r h hd
    have hturn := h.turn call hi
    have hk : k + 1 ≠ n - 2 := by omega
    by_cases hdo : willDo i call (inOrder n p k) = true
    · rw [if_pos (.inl hdo)] at hturn
      refine ⟨k, _, _, h.candidateLoop_eq hturn (d + 1), hturn, le_rfl, by omega, .inl hdo, fun l hkl hlk => ?_⟩
      omega
    · rw [if_neg (fun hor => hor.elim hdo hk)] at hturn
      obtain ⟨j, r', called, hloop, hleaves, hkj, hj, hend, hbefore⟩ := ih (k + 1) _ hturn (by omega)
      have hne : inOrder n p k ≠ r.id := by
        rw [h.id_eq]
        exact (willDo_eq_false.1 (Bool.eq_false_of_not_eq_true hdo)).1
      refine ⟨j, r', inOrder n p k :: called, ?_, hleaves, by omega, hj, hend, fun l hkl hlj => ?_⟩
      · unfold candidateLoop
        simp only [h.hb_eq]
        rw [hloop, Option.map_some, if_neg hne]
      · rcases Nat.eq_or_lt_of_le hkl with rfl | hkl
        · exact ⟨Bool.eq_false_of_not_eq_true hdo, List.mem_cons_self⟩
        · obtain ⟨hfalse, hmem⟩ := hbefore l hkl hlj
          exact ⟨hfalse, List.mem_cons_of_mem _ hmem⟩

end Replica

/-- **The search for the next primary**: for every cluster of at least three, every replica, every old primary and
whatever calls go through, the candidate loop ends, after at most `n - 1` tests, and it ends with the first candidate
that is the replica itself or reached, all before it called in vain, if and only if there is such a candidate among the
first `n - 2` in cyclic order after the old primary. -/
theorem candidate_search {n i : Nat} (hn : 3 ≤ n) (hi : i < n) {r : Replica} (hid : r.id = i)
    (hreps : r.replicas = peersOf n i) (hp : r.priId < n) (newViewNum oldViewNum : Nat) (call : Nat → CallEnd) :
    ∃ r' called, Replica.candidateLoop call (n - 1) (r.vote newViewNum oldViewNum).rep = some (r', called) ∧
      (r'.EndsAtFirst n r.priId call called ↔ ∃ k, k < n - 2 ∧ willDo i call (inOrder n r.priId k) = true) := by
  subst hid
  obtain ⟨info, hb⟩ : ∃ info, (r.vote newViewNum oldViewNum).rep.hb =
      .choosing info 0 (r.getNextPrimaryCandidate r.priId) := ⟨_, rfl⟩
  rw [Replica.getNextPrimaryCandidate_eq hi hreps hp] at hb
  have hstart : (r.vote newViewNum oldViewNum).rep.Searching n r.id r.priId 0 info := ⟨rfl, hreps, hb⟩
  obtain ⟨j, r', called, hloop, hleaves, -, hj, hend, hbefore⟩ := hstart.run call hi (n - 3) 0 _ (by omega)
  rw [show n - 3 + 2 = n - 1 by omega] at hloop
  obtain ⟨hid', hpri, -⟩ := hleaves
  refine ⟨r', called, hloop, ?_⟩
  unfold Replica.EndsAtFirst
  rw [hid']
  constructor
  · rintro ⟨k, hdo, hk, -⟩
    refine ⟨j, hj, ?_⟩
    rwa [← hpri, hk]
  · rintro ⟨k, hk, hdo⟩
    have hjdo : willDo r.id call (inOrder n r.priId j) = true := by
      refine hend.elim id (fun hlast => ?_)
      -- the last of them is the one that will do, as none before it does
      rcases Nat.lt_or_ge k j with hkj | hkj
      · rw [(hbefore k (Nat.zero_le k) hkj).1] at hdo
        cases hdo
      · rwa [show j = k by omega]
    refine ⟨j, hjdo, hpri, fun l hl => ?_⟩
    obtain ⟨hfalse, hmem⟩ := hbefore l (Nat.zero_le l) hl
    obtain ⟨hne, hno⟩ := willDo_eq_false.1 hfalse
    exact ⟨hne, hmem, hno⟩

/-- Replica `3` of four, after primary `0`: the call to `1` fails, that to `2` does not. -/
theorem candidate_search_four : ∃ r' called,
    Replica.candidateLoop (fun c => if c = 2 then .answered else .unanswered) 3 ((Replica.init 4 3).vote 1 0).rep =
        some (r', called) ∧
      r'.EndsAtFirst 4 0 (fun c => if c = 2 then .answered else .unanswered) called := by
  obtain ⟨r', called, hloop, hiff⟩ := candidate_search (n := 4) (i := 3) (r := .init 4 3) (by decide) (by decide) rfl
    rfl (by decide) 1 0 (fun c => if c = 2 then .answered else .unanswered)
  exact ⟨r', called, hloop, hiff.2 ⟨1, by decide, by decide⟩⟩

/-- Replica `0` of three, after itself: the call to `1` fails, and `2`, which would be reached, is not called. -/
theorem candidate_search_fails : ¬ ∀ (n i : Nat) (r : Replica), 3 ≤ n → i < n → r.id = i → r.replicas = peersOf n i →
    r.priId < n → ∀ (v o : Nat) (call : Nat → CallEnd), ∃ fuel r' called,
      Replica.candidateLoop call fuel (r.vote v o).rep = some (r', called) ∧ r'.EndsAtFirst n r.priId call called := by
  intro hall
  obtain ⟨fuel, r', called, hloop, k, hdo, hpri, -⟩ := hall 3 0 (.init 3 0) (by decide) (by decide) rfl rfl (by decide)
    1 0 (fun c => if c = 2 then .answered else .unanswered)
  have hend : r'.id = 0 ∧ r'.priId = 1 := by
    match fuel, hloop with
    | fuel + 2, hloop =>
      cases hloop
      exact ⟨rfl, rfl⟩
  rw [hend.1, ← hpri, hend.2] at hdo
  exact absurd hdo (by decide)

end MetaDR
