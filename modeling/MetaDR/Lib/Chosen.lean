import MetaDR.Lib.Viewstamp
/-!
# Chosen — what was won is never lost

The runs of `Viewstamp` whose starts pick the newest vote and whose wins a quorum holds.  Every operation a view
numbers is in the log of each later view, or a quorum has left the view without it and it will never be won
(`Good.agree`).  So a number is chosen for one operation only, a later view starts with it, and every node that took
it up keeps it.
-/
namespace Viewstamp

open Majority

variable {α : Type}

/-- The operation was won under its number, alone or below a later one. -/
def Chosen (s : State α) (m : Nat) (a : α) : Prop := ∃ v k, s.won v k ∧ m ≤ k ∧ s.op v m = some a

/-- All the numbers of the view up to `c` are chosen. -/
def Committed (s : State α) (v c : Nat) : Prop := ∀ m, 1 ≤ m → m ≤ c → ∃ a, s.op v m = some a ∧ Chosen s m a

/-- A quorum has left the view without taking up the number: nothing will be won there from it on. -/
def Dead (n : Nat) (s : State α) (v m : Nat) : Prop :=
  ∃ Q, IsQuorum n Q ∧ ∀ q ∈ Q, v < (s.node q).view ∧ ∀ k, m ≤ k → ¬ s.held q v k

/-- What a vote says about its voter. -/
structure VoteOk (s : State α) (q w : Nat) (V : Vote α) : Prop where
  last_lt : V.last < w
  le_view : w ≤ (s.node q).view
  start : ∃ S, s.start V.last = some S ∧ S.top ≤ V.commit
  committed : Committed s V.last V.commit
  log_eq : ∀ m, 1 ≤ m → m ≤ V.commit → V.log m = s.op V.last m
  held_last : ∀ v m, v < w → s.held q v m → v ≤ V.last
  held_log : ∀ m k, s.held q V.last m → 1 ≤ k → k ≤ m → V.log k ≠ none ∧ V.log k = s.op V.last k

/-- A node whose log holds the numbers up to `top` and no other, and which has committed chosen ones only. -/
structure NodeGood (s : State α) (x : Node α) : Prop where
  log_top : ∀ m, x.top < m → x.log m = none
  full : ∀ m, 1 ≤ m → m ≤ x.top → x.log m ≠ none
  commit_top : x.commit ≤ x.top
  committed : Committed s x.last x.commit

structure StartGood (n : Nat) (s : State α) (v : Nat) (S : Start α) : Prop where
  log_top : ∀ m, S.top < m → S.log m = none
  committed : Committed s v S.top
  quorum : 0 < v → ∃ Q, IsQuorum n Q ∧ ∀ q ∈ Q, v ≤ (s.node q).view

/-- **What holds when starts pick the newest vote and what is won is held by a quorum.**  An operation of a view is in
the log of every later view, or will never be won. -/
structure Good (n : Nat) (s : State α) : Prop where
  node : ∀ q, NodeGood s (s.node q)
  start : ∀ v S, s.start v = some S → StartGood n s v S
  won : ∀ v m, s.won v m → ∃ Q, IsQuorum n Q ∧ ∀ q ∈ Q, s.held q v m
  vote : ∀ q w V, s.vote q w V → VoteOk s q w V
  agree : ∀ v w S m a, v < w → s.start w = some S → s.op v m = some a → 1 ≤ m →
    (m ≤ S.top ∧ S.log m = some a) ∨ Dead n s v m

/-- **What every step does to the history**: nothing is taken back, and only the node's own view is taken up in. -/
structure Grows (s s' : State α) : Prop where
  view : ∀ q, (s.node q).view ≤ (s'.node q).view
  start : ∀ v S, s.start v = some S → s'.start v = some S
  op : ∀ v m a, s.op v m = some a → s'.op v m = some a
  won : ∀ v m, s.won v m → s'.won v m
  held : ∀ q v m, s.held q v m → s'.held q v m
  held_old : ∀ q v m, s'.held q v m → s.held q v m ∨ v = (s.node q).view
  vote : ∀ q w V, s.vote q w V → s'.vote q w V

theorem Grows.refl (s : State α) : Grows s s :=
  ⟨fun _ => le_refl _, fun _ _ h => h, fun _ _ _ h => h, fun _ _ h => h, fun _ _ _ h => h, fun _ _ _ h => .inl h,
    fun _ _ _ h => h⟩

section

variable {n : Nat} {good : Prop} {s s' : State α}

theorem Core.grows (h : Core s) (hs : Step n good s s') : Grows s s' := by
  obtain ⟨-, -, -, -, -, h6, -, h8, h9, -, -, -, -, -, -, -, -⟩ := h
  cases hs <;> constructor <;> simp only [State.push, State.setNode, Function.update_apply] <;> grind [IsPrimary]

variable (g : Grows s s')
include g

theorem Chosen.grows {m : Nat} {a : α} (h : Chosen s m a) : Chosen s' m a := by
  obtain ⟨v, k, hw, hle, ho⟩ := h
  exact ⟨v, k, g.won v k hw, hle, g.op v m a ho⟩

theorem Committed.grows {v c : Nat} (h : Committed s v c) : Committed s' v c := by
  intro m h1 hm
  obtain ⟨a, ho, hc⟩ := h m h1 hm
  exact ⟨a, g.op v m a ho, hc.grows g⟩

theorem Dead.grows {v m : Nat} (h : Dead n s v m) : Dead n s' v m := by
  obtain ⟨Q, hQ, hq⟩ := h
  refine ⟨Q, hQ, fun q hm => ⟨(hq q hm).1.trans_le (g.view q), fun k hk hh => ?_⟩⟩
  rcases g.held_old q v k hh with hh | rfl
  · exact (hq q hm).2 k hk hh
  · exact absurd (hq q hm).1 (lt_irrefl _)

theorem VoteOk.grows {q w : Nat} {V : Vote α} (h : VoteOk s q w V) : VoteOk s' q w V where
  last_lt := h.last_lt
  le_view := h.le_view.trans (g.view q)
  start := h.start.imp (fun S hS => ⟨g.start _ S hS.1, hS.2⟩)
  committed := h.committed.grows g
  log_eq := fun m h1 hm => by
    obtain ⟨a, ho, -⟩ := h.committed m h1 hm
    rw [h.log_eq m h1 hm, ho, g.op _ m a ho]
  held_last := fun v m hv hh => by
    rcases g.held_old q v m hh with hh | rfl
    · exact h.held_last v m hv hh
    · exact absurd (hv.trans_le h.le_view) (lt_irrefl _)
  held_log := fun m k hh h1 hk => by
    rcases g.held_old q _ m hh with hh | he
    · obtain ⟨hne, he⟩ := h.held_log m k hh h1 hk
      obtain ⟨a, ha⟩ := Option.ne_none_iff_exists'.1 hne
      exact ⟨hne, by rw [ha, g.op _ k a (by rw [← he, ha])]⟩
    · have := h.last_lt
      have := h.le_view
      omega

end

theorem good_init (n : Nat) : Good n (State.init : State α) := by
  have h0 : ∀ v c, c = 0 → Committed (State.init : State α) v c := fun v c h m h1 h2 => absurd h1 (by omega)
  refine ⟨fun q => ⟨fun m _ => rfl, fun m h1 h2 => absurd h1 (by simp only [State.init] at h2; omega), le_refl _,
    h0 _ _ rfl⟩, fun v S hS => ?_, fun v m h => h.elim, fun q w V h => h.elim, fun v w S m a _ _ h => by cases h⟩
  simp only [State.init] at hS
  split at hS
  · cases hS
    exact ⟨fun m _ => rfl, h0 _ _ rfl, fun h => absurd h (by omega)⟩
  · cases hS

section

variable {n : Nat} {s : State α} (hc : Core s) (h : Good n s)
include h

/-- What is won in a view is in the log every later view starts with. -/
theorem Good.start_of_won {v w m k : Nat} {S : Start α} {a : α} (hv : v < w) (hS : s.start w = some S)
    (hw : s.won v k) (h1 : 1 ≤ m) (hm : m ≤ k) (ho : s.op v m = some a) : m ≤ S.top ∧ S.log m = some a := by
  rcases h.agree v w S m a hv hS ho h1 with hA | ⟨Q, hQ, hd⟩
  · exact hA
  · obtain ⟨R, hR, hh⟩ := h.won v k hw
    obtain ⟨q, hqQ, hqR⟩ := hQ.inter hR
    exact absurd (hh q hqR) ((hd q hqQ).2 k hm)

include hc

theorem Good.op_of_won {v w m k : Nat} {S : Start α} {a : α} (hv : v < w) (hS : s.start w = some S)
    (hw : s.won v k) (h1 : 1 ≤ m) (hm : m ≤ k) (ho : s.op v m = some a) : s.op w m = some a := by
  obtain ⟨hle, hl⟩ := h.start_of_won hv hS hw h1 hm ho
  rw [hc.start_op w S hS m hle, hl]

/-- **A number is chosen for one operation only.** -/
theorem Good.chosen_unique {m : Nat} {a b : α} (h1 : 1 ≤ m) (ha : Chosen s m a) (hb : Chosen s m b) : a = b := by
  obtain ⟨v, k, hw, hm, ho⟩ := ha
  obtain ⟨v', k', hw', hm', ho'⟩ := hb
  obtain ⟨S, hS⟩ := Option.ne_none_iff_exists'.1 (hc.won_start v k hw)
  obtain ⟨S', hS'⟩ := Option.ne_none_iff_exists'.1 (hc.won_start v' k' hw')
  rcases Nat.lt_trichotomy v v' with hlt | rfl | hlt
  · have := h.op_of_won hc hlt hS' hw h1 hm ho
    rw [ho'] at this
    exact (Option.some.inj this).symm
  · rw [ho] at ho'
    exact Option.some.inj ho'
  · have := h.op_of_won hc hlt hS hw' h1 hm' ho'
    rw [ho] at this
    exact Option.some.inj this

/-- **The log of every node that took a won number up still has it there**, whatever views it has joined since. -/
theorem Good.log_of_held {q v m : Nat} {a : α} (hw : s.won v m) (h1 : 1 ≤ m) (ho : s.op v m = some a)
    (hh : s.held q v m) : (s.node q).log m = some a := by
  rcases Nat.lt_or_eq_of_le (hc.held_last q v m hh) with hlt | rfl
  · obtain ⟨S, hS⟩ := Option.ne_none_iff_exists'.1 (hc.last_start q)
    have ho' := h.op_of_won hc hlt hS hw h1 (le_refl m) ho
    have hle := (h.start_of_won hlt hS hw h1 (le_refl m) ho).1
    rw [hc.log_eq q m (hle.trans (hc.start_top q S hS)), ho']
  · rw [hc.log_eq q m (hc.held_top q m hh), ho]

/-- What a start's vote says of a number that a voter took up, or that its view took over. -/
theorem Good.agree_take {w p v m : Nat} {Q : Finset Nat} {V : Nat → Vote α} {a : α} (hQ : IsQuorum n Q)
    (hV : ∀ q ∈ Q, s.vote q w (V q)) (hp : p ∈ Q) (hg : Newest Q V p) (hv : v < w) (ho : s.op v m = some a)
    (h1 : 1 ≤ m) :
    (m ≤ (V p).commit ∧ (V p).log m = some a) ∨ Dead n s v m := by
  have hpo := h.vote p w (V p) (hV p hp)
  by_cases hd : ∃ q ∈ Q, ∃ k, m ≤ k ∧ s.held q v k
  case neg =>
    refine .inr ⟨Q, hQ, fun q hq => ⟨hv.trans_le (h.vote q w (V q) (hV q hq)).le_view, fun k hk hh => ?_⟩⟩
    exact hd ⟨q, hq, k, hk, hh⟩
  obtain ⟨q, hq, k, hk, hh⟩ := hd
  have hqo := h.vote q w (V q) (hV q hq)
  obtain ⟨Su, hSu, hSc⟩ := hqo.start
  -- the view whose log the voter has numbers `m` the same, or `m` is dead
  have hu : (s.op (V q).last m = some a ∧ m ≤ (V q).commit) ∨ Dead n s v m := by
    rcases Nat.lt_or_eq_of_le (hqo.held_last v k hv hh) with hlt | rfl
    · rcases h.agree v _ Su m a hlt hSu ho h1 with ⟨hle, hl⟩ | hd
      · exact .inl ⟨by rw [hc.start_op _ Su hSu m hle, hl], hle.trans hSc⟩
      · exact .inr hd
    · refine .inl ⟨ho, ?_⟩
      by_contra hlt
      exact (hqo.held_log k m hh h1 hk).1 (hg.1 q hq m (by omega))
  rcases hu with ⟨hou, hmc⟩ | hd
  case inr => exact .inr hd
  rcases hg.2 q hq with hlt | ⟨he, hle⟩
  · -- the vote picked is from a later view
    obtain ⟨Sp, hSp, hSpc⟩ := hpo.start
    have hvp : v < (V p).last := (hqo.held_last v k hv hh).trans_lt hlt
    rcases h.agree v _ Sp m a hvp hSp ho h1 with ⟨hm, hl⟩ | hd
    · have hm' := hm.trans hSpc
      exact .inl ⟨hm', by rw [hpo.log_eq m h1 hm', hc.start_op _ Sp hSp m hm, hl]⟩
    · exact .inr hd
  · have hm' := hmc.trans hle
    exact .inl ⟨hm', by rw [hpo.log_eq m h1 hm', ← he, hou]⟩

end

section

variable {n : Nat} {s s' : State α}

theorem NodeGood.grows (g : Grows s s') {x y : Node α} (h : NodeGood s x) (hl : y.last = x.last) (hlog : y.log = x.log)
    (ht : y.top = x.top) (hc : y.commit = x.commit) : NodeGood s' y where
  log_top := by rw [hlog, ht]; exact h.log_top
  full := by rw [hlog, ht]; exact h.full
  commit_top := by rw [ht, hc]; exact h.commit_top
  committed := by rw [hl, hc]; exact h.committed.grows g

theorem StartGood.grows (g : Grows s s') {v : Nat} {S : Start α} (h : StartGood n s v S) : StartGood n s' v S where
  log_top := h.log_top
  committed := h.committed.grows g
  quorum := fun hv => (h.quorum hv).imp (fun _ hQ => ⟨hQ.1, fun q hq => (hQ.2 q hq).trans (g.view q)⟩)

/-- The steps that number and start nothing. -/
theorem Good.of_grows (h : Good n s) (g : Grows s s') (hstart : s'.start = s.start) (hop : s'.op = s.op)
    (hnode : ∀ q, NodeGood s' (s'.node q)) (hvote : ∀ q w V, s'.vote q w V → s.vote q w V ∨ VoteOk s' q w V)
    (hwon : ∀ v m, s'.won v m → s.won v m ∨ ∃ Q, IsQuorum n Q ∧ ∀ q ∈ Q, s'.held q v m) : Good n s' where
  node := hnode
  start := fun v S hS => (h.start v S (hstart ▸ hS)).grows g
  won := fun v m hw => by
    rcases hwon v m hw with hw | hw
    · exact (h.won v m hw).imp (fun _ hQ => ⟨hQ.1, fun q hq => g.held q v m (hQ.2 q hq)⟩)
    · exact hw
  vote := fun q w V hV => (hvote q w V hV).elim (fun hV => (h.vote q w V hV).grows g) id
  agree := fun v w S m a hv hS ho h1 =>
    (h.agree v w S m a hv (hstart ▸ hS) (hop ▸ ho) h1).imp id (Dead.grows g)

theorem Good.nodes (h : Good n s) (g : Grows s s') {q : Nat} {x : Node α} (hn : s'.node = Function.update s.node q x)
    (hx : NodeGood s' x) (r : Nat) : NodeGood s' (s'.node r) := by
  rw [hn]
  by_cases hr : r = q
  · subst hr; rw [Function.update_self]; exact hx
  · rw [Function.update_of_ne hr]; exact (h.node r).grows g rfl rfl rfl rfl

theorem NodeGood.push (g : Grows s s') {x : Node α} (h : NodeGood s x) (a : α) :
    NodeGood s' { x with log := Function.update x.log (x.top + 1) (some a), top := x.top + 1 } where
  log_top := fun m hm => by
    simp only at hm ⊢
    rw [Function.update_of_ne (by omega)]
    exact h.log_top m (by omega)
  full := fun m h1 hm => by
    simp only at hm ⊢
    by_cases he : m = x.top + 1
    · subst he; rw [Function.update_self]; simp
    · rw [Function.update_of_ne he]; exact h.full m h1 (by omega)
  commit_top := h.commit_top.trans (Nat.le_succ _)
  committed := h.committed.grows g

end

section

variable {n : Nat} {s s' : State α} (hc : Core s) (h : Good n s)
include hc h

theorem Good.cast_vote {q : Nat} (hl : (s.node q).last < (s.node q).view) :
    VoteOk s q (s.node q).view ⟨(s.node q).last, (s.node q).log, (s.node q).commit⟩ where
  last_lt := hl
  le_view := le_refl _
  start := by
    obtain ⟨S, hS⟩ := Option.ne_none_iff_exists'.1 (hc.last_start q)
    exact ⟨S, hS, hc.start_commit q S hS⟩
  committed := (h.node q).committed
  log_eq := fun m _ hm => hc.log_eq q m (hm.trans (h.node q).commit_top)
  held_last := fun v m _ hh => hc.held_last q v m hh
  held_log := fun m k hh h1 hk =>
    have hk' := hk.trans (hc.held_top q m hh)
    ⟨(h.node q).full k h1 hk', hc.log_eq q k hk'⟩

theorem Good.join_node (g : Grows s s') {w : Nat} {S : Start α} (hs : s.start w = some S) :
    NodeGood s' ⟨w, w, S.log, S.top, S.top⟩ where
  log_top := (h.start w S hs).log_top
  full := fun m h1 hm => by
    obtain ⟨a, ho, -⟩ := (h.start w S hs).committed m h1 hm
    have hl : S.log m = some a := by rw [← hc.start_op w S hs m hm, ho]
    simp only [hl, ne_eq, reduceCtorEq, not_false_eq_true]
  commit_top := le_refl _
  committed := (h.start w S hs).committed.grows g

/-- A node may commit up to a number of its log below which its view has won. -/
theorem Good.commit_node (g : Grows s s') {q k m : Nat} (hw : s'.won (s.node q).last m) (hk : k ≤ m)
    (hkt : k ≤ (s.node q).top) : NodeGood s' { s.node q with commit := k } where
  log_top := (h.node q).log_top
  full := (h.node q).full
  commit_top := hkt
  committed := fun i h1 hi => by
    have hit : i ≤ (s.node q).top := le_trans hi hkt
    obtain ⟨a, ha⟩ := Option.ne_none_iff_exists'.1 ((h.node q).full i h1 hit)
    have ho := g.op _ i a (by rw [← hc.log_eq q i hit, ha])
    exact ⟨a, ho, _, m, hw, le_trans hi hk, ho⟩

theorem Good.propose {p : Nat} {a : α} (hl : (s.node p).last = (s.node p).view) (hp : IsPrimary s p (s.node p).last)
    (g : Grows s { s.push p a with
      op := Function.update s.op (s.node p).last
        (Function.update (s.op (s.node p).last) ((s.node p).top + 1) (some a)) }) :
    Good n { s.push p a with
      op := Function.update s.op (s.node p).last
        (Function.update (s.op (s.node p).last) ((s.node p).top + 1) (some a)) } where
  node := h.nodes g rfl ((h.node p).push g a)
  start := fun v S hS => (h.start v S hS).grows g
  won := fun v m hw => (h.won v m hw).imp (fun _ hQ => ⟨hQ.1, fun q hq => g.held q v m (hQ.2 q hq)⟩)
  vote := fun q w V hV => (h.vote q w V hV).grows g
  agree := fun v w S m b hv hS ho h1 => by
    by_cases hnew : v = (s.node p).last ∧ m = (s.node p).top + 1
    · -- a deposed primary: the voters for the later view have not taken the new number up and never will
      obtain ⟨rfl, rfl⟩ := hnew
      obtain ⟨Q, hQ, hq⟩ := (h.start w S hS).quorum (by omega)
      refine .inr ⟨Q, hQ, fun q hqQ => ⟨hv.trans_le ((hq q hqQ).trans (g.view q)), fun k hk hh => ?_⟩⟩
      obtain ⟨S', hS', rfl⟩ := hp
      rcases hh with hh | ⟨rfl, -, -⟩
      · have := hc.op_le _ S' k hS' rfl (hc.held_op q _ k hh)
        omega
      · have := hq _ hqQ
        omega
    · have ho' : s.op v m = some b := by
        simp only [Function.update_apply] at ho
        grind
      exact (h.agree v w S m b hv hS ho' h1).imp id (Dead.grows g)

theorem Good.take {d w p : Nat} {Q : Finset Nat} {V : Nat → Vote α} (hw : (s.node d).view = w)
    (hs : s.start w = none) (hQ : IsQuorum n Q) (hV : ∀ q ∈ Q, s.vote q w (V q)) (hp : p ∈ Q) (hg : Newest Q V p)
    (g : Grows s { s.setNode d ⟨w, w, (V p).log, (V p).commit, (V p).commit⟩ with
      start := Function.update s.start w (some ⟨d, (V p).log, (V p).commit⟩)
      op := Function.update s.op w (fun m => if m ≤ (V p).commit then (V p).log m else none) }) :
    Good n { s.setNode d ⟨w, w, (V p).log, (V p).commit, (V p).commit⟩ with
      start := Function.update s.start w (some ⟨d, (V p).log, (V p).commit⟩)
      op := Function.update s.op w (fun m => if m ≤ (V p).commit then (V p).log m else none) } := by
  have hpo := h.vote p w (V p) (hV p hp)
  have hlog : ∀ m, 1 ≤ m → m ≤ (V p).commit → ∃ a, (V p).log m = some a ∧ Chosen s m a := fun m h1 hm => by
    obtain ⟨a, ho, hch⟩ := hpo.committed m h1 hm
    exact ⟨a, by rw [hpo.log_eq m h1 hm, ho], hch⟩
  have hcom : Committed { s.setNode d ⟨w, w, (V p).log, (V p).commit, (V p).commit⟩ with
      start := Function.update s.start w (some ⟨d, (V p).log, (V p).commit⟩)
      op := Function.update s.op w (fun m => if m ≤ (V p).commit then (V p).log m else none) } w (V p).commit :=
    fun m h1 hm => by
      obtain ⟨a, hl, hch⟩ := hlog m h1 hm
      exact ⟨a, by simp only [Function.update_self, if_pos hm, hl], hch.grows g⟩
  constructor
  case node =>
    refine h.nodes g rfl ⟨hg.1 p hp, fun m h1 hm => ?_, le_refl _, hcom⟩
    obtain ⟨a, hl, -⟩ := hlog m h1 hm
    simp only [hl, ne_eq, reduceCtorEq, not_false_eq_true]
  case start =>
    intro v S hS
    by_cases hv : v = w
    · subst hv
      simp only [Function.update_self, Option.some.injEq] at hS
      subst hS
      exact ⟨hg.1 p hp, hcom, fun _ => ⟨Q, hQ, fun q hq => (h.vote q v (V q) (hV q hq)).le_view.trans (g.view q)⟩⟩
    · simp only [Function.update_of_ne hv] at hS
      exact (h.start v S hS).grows g
  case won => exact h.won
  case vote => exact fun q u W hW => (h.vote q u W hW).grows g
  case agree =>
    intro v u S m a hv hS ho h1
    by_cases hu : u = w
    · -- the view that starts, against the earlier ones
      subst hu
      simp only [Function.update_self, Option.some.injEq] at hS
      subst hS
      simp only [Function.update_of_ne (Nat.ne_of_lt hv)] at ho
      exact (h.agree_take hc hQ hV hp hg hv ho h1).imp id (Dead.grows g)
    · simp only [Function.update_of_ne hu] at hS
      by_cases hvw : v = w
      · -- it starts late: a later view has started already, and nobody took up anything in this one
        subst hvw
        obtain ⟨R, hR, hr⟩ := (h.start u S hS).quorum (by omega)
        refine .inr (Dead.grows g ⟨R, hR, fun q hq => ⟨hv.trans_le (hr q hq), fun k _ hh => ?_⟩⟩)
        exact hc.op_start v k (hc.held_op q v k hh) hs
      · simp only [Function.update_of_ne hvw] at ho
        exact (h.agree v u S m a hv hS ho h1).imp id (Dead.grows g)

end

theorem Good.step {n : Nat} {good : Prop} {s s' : State α} (hgood : good) (hc : Core s) (h : Good n s)
    (hs : Step n good s s') : Good n s' := by
  have g := hc.grows hs
  cases hs with
  | enter q =>
    exact h.of_grows g rfl rfl (h.nodes g rfl ((h.node q).grows g rfl rfl rfl rfl)) (fun _ _ _ hV => .inl hV)
      (fun _ _ hw => .inl hw)
  | cast q hl =>
    refine h.of_grows g rfl rfl (fun r => (h.node r).grows g rfl rfl rfl rfl) (fun r w V hV => ?_)
      (fun _ _ hw => .inl hw)
    rcases hV with hV | ⟨rfl, rfl, rfl⟩
    · exact .inl hV
    · exact .inr ((h.cast_vote hc hl).grows g)
  | take d w Q V p hw hl hs hQ hV hp hg => exact h.take hc hw hs hQ hV hp (hg hgood) g
  | join q w S hw hl hs =>
    exact h.of_grows g rfl rfl (h.nodes g rfl (h.join_node hc g hs)) (fun _ _ _ hV => .inl hV) (fun _ _ hw => .inl hw)
  | propose p a hl hp => exact h.propose hc hl hp g
  | accept q a hl hp ha =>
    exact h.of_grows g rfl rfl (h.nodes g rfl ((h.node q).push g a)) (fun _ _ _ hV => .inl hV) (fun _ _ hw => .inl hw)
  | win p m hl hp hcm hm hg =>
    refine h.of_grows g rfl rfl (h.nodes g rfl (h.commit_node hc g (.inr ⟨rfl, rfl⟩) (le_refl m) hm))
      (fun _ _ _ hV => .inl hV) (fun v k hw => ?_)
    rcases hw with hw | ⟨rfl, rfl⟩
    · exact .inl hw
    · exact .inr (hg hgood)
  | commit q m hl hw hcm hlog =>
    refine h.of_grows g rfl rfl (h.nodes g rfl (h.commit_node hc g hw hcm ?_)) (fun _ _ _ hV => .inl hV)
      (fun _ _ hw => .inl hw)
    by_contra hlt
    exact hlog ((h.node q).log_top _ (by omega))

/-- **The invariant of the runs whose starts pick the newest vote.** -/
theorem Reach.good {n : Nat} {good : Prop} {s : State α} (hgood : good) (h : Reach n good s) : Good n s := by
  induction h with
  | init => exact good_init n
  | step h hs ih => exact ih.step hgood h.core hs

/-- **A commit number and its certificate**: a view below `v` won that number or a later one. -/
def Certified (s : State α) (v c : Nat) : Prop := c = 0 ∨ ∃ u k a, u < v ∧ s.won u k ∧ c ≤ k ∧ s.op u c = some a

/-- Whatever a node, a vote or a start counts as committed has its certificate. -/
structure Certificates (s : State α) : Prop where
  node : ∀ q, Certified s ((s.node q).last + 1) (s.node q).commit
  vote : ∀ q w V, s.vote q w V → Certified s (V.last + 1) V.commit
  start : ∀ v S, s.start v = some S → Certified s v S.top

section

variable {n : Nat} {s s' : State α}

theorem Certified.mono {v w c : Nat} (h : Certified s v c) (hw : v ≤ w) : Certified s w c :=
  h.imp id (fun ⟨u, k, a, hu, hk⟩ => ⟨u, k, a, hu.trans_le hw, hk⟩)

theorem Certified.grows (g : Grows s s') {v c : Nat} (h : Certified s v c) : Certified s' v c :=
  h.imp id (fun ⟨u, k, a, hu, hw, hc, ho⟩ => ⟨u, k, a, hu, g.won u k hw, hc, g.op u c a ho⟩)

theorem certificates_init : Certificates (State.init : State α) where
  node := fun _ => .inl rfl
  vote := fun _ _ _ h => h.elim
  start := fun v S hS => by
    simp only [State.init] at hS
    split at hS
    · cases hS
      exact .inl rfl
    · cases hS

theorem Certificates.nodes (h : Certificates s) (g : Grows s s') {q : Nat} {x : Node α}
    (hn : s'.node = Function.update s.node q x) (hx : Certified s' (x.last + 1) x.commit) (r : Nat) :
    Certified s' ((s'.node r).last + 1) (s'.node r).commit := by
  rw [hn]
  by_cases hr : r = q
  · subst hr
    rw [Function.update_self]
    exact hx
  · rw [Function.update_of_ne hr]
    exact (h.node r).grows g

theorem Certificates.step {good : Prop} (h : Certificates s) (hc : Core s) (hg : Good n s) (hs : Step n good s s') :
    Certificates s' := by
  have g := hc.grows hs
  have hvote := fun q w V hV => (h.vote q w V hV).grows g
  have hstart := fun v S hS => (h.start v S hS).grows g
  cases hs with
  | enter q => exact ⟨h.nodes g rfl ((h.node q).grows g), hvote, hstart⟩
  | cast q hl =>
    refine ⟨fun r => (h.node r).grows g, fun r w V hV => ?_, hstart⟩
    rcases hV with hV | ⟨rfl, rfl, rfl⟩
    · exact hvote r w V hV
    · exact (h.node r).grows g
  | take d w Q V p hw hl hst hQ hV hp hn =>
    have hcom := hvote p w (V p) (hV p hp)
    have hlt := (hg.vote p w (V p) (hV p hp)).last_lt
    refine ⟨h.nodes g rfl (hcom.mono (hlt.trans_le (Nat.le_succ w))), hvote, fun v S hS => ?_⟩
    by_cases hv : v = w
    · subst hv
      simp only [Function.update_self, Option.some.injEq] at hS
      subst hS
      exact hcom.mono hlt
    · simp only [Function.update_of_ne hv] at hS
      exact hstart v S hS
  | join q w S hw hl hst => exact ⟨h.nodes g rfl ((hstart w S hst).mono (Nat.le_succ w)), hvote, hstart⟩
  | propose p a hl hp => exact ⟨h.nodes g rfl ((h.node p).grows g), hvote, hstart⟩
  | accept q a hl hp ha => exact ⟨h.nodes g rfl ((h.node q).grows g), hvote, hstart⟩
  | win p m hl hp hcm hm hq =>
    obtain ⟨a, ha⟩ := Option.ne_none_iff_exists'.1 ((hg.node p).full m (by omega) hm)
    have ho : s.op (s.node p).last m = some a := by rw [← hc.log_eq p m hm, ha]
    exact ⟨h.nodes g rfl (.inr ⟨_, m, a, Nat.lt_succ_self _, .inr ⟨rfl, rfl⟩, le_refl m, ho⟩), hvote, hstart⟩
  | commit q m hl hw hcm hlog =>
    have htop : (s.node q).commit + 1 ≤ (s.node q).top := by
      by_contra hlt
      exact hlog ((hg.node q).log_top _ (by omega))
    obtain ⟨a, ha⟩ := Option.ne_none_iff_exists'.1 hlog
    have ho : s.op (s.node q).last ((s.node q).commit + 1) = some a := by rw [← hc.log_eq q _ htop, ha]
    exact ⟨h.nodes g rfl (.inr ⟨_, m, a, Nat.lt_succ_self _, hw, hcm, ho⟩), hvote, hstart⟩

theorem Reach.certificates {good : Prop} (hgood : good) (h : Reach n good s) : Certificates s := by
  induction h with
  | init => exact certificates_init
  | step h hs ih => exact ih.step h.core (h.good hgood) hs

/-- A later view starts at or above what has a certificate. -/
theorem Certified.le_start {v w c : Nat} {S : Start α} (h : Certified s v c) (hg : Good n s) (hS : s.start w = some S)
    (hv : v ≤ w) : c ≤ S.top := by
  rcases h with rfl | ⟨u, k, a, hu, hw, hk, ho⟩
  · exact Nat.zero_le _
  · rcases Nat.eq_zero_or_pos c with rfl | h1
    · exact Nat.zero_le _
    · exact (hg.start_of_won (hu.trans_le hv) hS hw h1 hk ho).1

/-- **A later view starts at or above everything a node has committed**, before it starts or after. -/
theorem Reach.commit_le_start {good : Prop} (hgood : good) (h : Reach n good s) (h' : Reach n good s') (g : Grows s s')
    {q w : Nat} {S : Start α} (hS : s'.start w = some S) (hl : (s.node q).last < w) : (s.node q).commit ≤ S.top :=
  (((h.certificates hgood).node q).grows g).le_start (h'.good hgood) hS hl

end

end Viewstamp
