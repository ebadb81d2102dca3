import MetaDR.Lib.Majority
import Mathlib.Logic.Function.Basic
/-!
# Viewstamp — a replicated log that moves from view to view

What viewstamped replication is for, apart from any code.  Nodes hold a numbered log each.  In a view one node, its
primary, numbers operations and the others take them up in order; an operation a quorum holds is won.  To leave a view
a node enters a later one and reports its log in a vote; a view starts with the log of one vote out of a quorum, cut
at what that vote reports committed, and the others join it.

Messages are not part of the state: whatever was once proposed, won, voted or started may arrive at any time, any
number of times, or never.  `good` switches on two demands.  A start picks the newest of its votes, none of which
reports a log past what it reports committed; and what is won is held by a quorum.  Without it logs still match inside
a view (`Core`).
-/
namespace Viewstamp

open Majority

variable {α : Type}

structure Node (α : Type) where
  /-- the view it has entered -/
  view : Nat
  /-- the view whose log it has -/
  last : Nat
  log : Nat → Option α
  /-- the greatest number it has taken up in view `last` -/
  top : Nat
  commit : Nat

structure Vote (α : Type) where
  last : Nat
  log : Nat → Option α
  commit : Nat

/-- What a view starts with. -/
structure Start (α : Type) where
  primary : Nat
  log : Nat → Option α
  top : Nat

/-- The nodes and all that ever happened. -/
structure State (α : Type) where
  node : Nat → Node α
  vote : Nat → Nat → Vote α → Prop
  start : Nat → Option (Start α)
  /-- the operation a view numbers `n` -/
  op : Nat → Nat → Option α
  /-- the node took up number `n` in view `v` -/
  held : Nat → Nat → Nat → Prop
  won : Nat → Nat → Prop

namespace State

/-- View `0` is started by node `0`, with an empty log. -/
def init : State α where
  node := fun _ => ⟨0, 0, fun _ => none, 0, 0⟩
  vote := fun _ _ _ => False
  start := fun v => if v = 0 then some ⟨0, fun _ => none, 0⟩ else none
  op := fun _ _ => none
  held := fun _ _ _ => False
  won := fun _ _ => False

def setNode (s : State α) (q : Nat) (x : Node α) : State α := { s with node := Function.update s.node q x }

/-- The node takes up the operation as the next number of its view. -/
def push (s : State α) (q : Nat) (a : α) : State α :=
  { s.setNode q { s.node q with
      log := Function.update (s.node q).log ((s.node q).top + 1) (some a), top := (s.node q).top + 1 } with
    held := fun r v n => s.held r v n ∨ (r = q ∧ v = (s.node q).last ∧ n = (s.node q).top + 1) }

end State

/-- The primary of a view, once it has started. -/
def IsPrimary (s : State α) (p v : Nat) : Prop := ∃ S, s.start v = some S ∧ S.primary = p

/-- **The vote to start from**: no vote of the quorum has a log past its commit number, and the one picked is from the
latest view, with the greatest commit number of it. -/
def Newest (Q : Finset Nat) (V : Nat → Vote α) (p : Nat) : Prop :=
  (∀ q ∈ Q, ∀ n, (V q).commit < n → (V q).log n = none) ∧
    ∀ q ∈ Q, (V q).last < (V p).last ∨ ((V q).last = (V p).last ∧ (V q).commit ≤ (V p).commit)

/-- The steps of `n` nodes. -/
inductive Step (n : Nat) (good : Prop) (s : State α) : State α → Prop where
  | enter (q : Nat) : Step n good s (s.setNode q { s.node q with view := (s.node q).view + 1 })
  | cast (q : Nat) (hl : (s.node q).last < (s.node q).view) :
      Step n good s { s with vote := fun r w V => s.vote r w V ∨
        (r = q ∧ w = (s.node q).view ∧ V = ⟨(s.node q).last, (s.node q).log, (s.node q).commit⟩) }
  | take (d w : Nat) (Q : Finset Nat) (V : Nat → Vote α) (p : Nat) (hw : (s.node d).view = w)
      (hl : (s.node d).last < w) (hs : s.start w = none) (hQ : IsQuorum n Q) (hV : ∀ q ∈ Q, s.vote q w (V q))
      (hp : p ∈ Q)
      (hg : good → Newest Q V p) :
      Step n good s { s.setNode d ⟨w, w, (V p).log, (V p).commit, (V p).commit⟩ with
        start := Function.update s.start w (some ⟨d, (V p).log, (V p).commit⟩)
        op := Function.update s.op w (fun m => if m ≤ (V p).commit then (V p).log m else none) }
  | join (q w : Nat) (S : Start α) (hw : (s.node q).view = w) (hl : (s.node q).last < w) (hs : s.start w = some S) :
      Step n good s (s.setNode q ⟨w, w, S.log, S.top, S.top⟩)
  | propose (p : Nat) (a : α) (hl : (s.node p).last = (s.node p).view) (hp : IsPrimary s p (s.node p).last) :
      Step n good s { s.push p a with
        op := Function.update s.op (s.node p).last
          (Function.update (s.op (s.node p).last) ((s.node p).top + 1) (some a)) }
  | accept (q : Nat) (a : α) (hl : (s.node q).last = (s.node q).view) (hp : ¬ IsPrimary s q (s.node q).last)
      (ha : s.op (s.node q).last ((s.node q).top + 1) = some a) : Step n good s (s.push q a)
  | win (p m : Nat) (hl : (s.node p).last = (s.node p).view) (hp : IsPrimary s p (s.node p).last)
      (hc : (s.node p).commit < m) (hm : m ≤ (s.node p).top)
      (hg : good → ∃ Q, IsQuorum n Q ∧ ∀ q ∈ Q, s.held q (s.node p).last m) :
      Step n good s { s.setNode p { s.node p with commit := m } with
        won := fun v k => s.won v k ∨ (v = (s.node p).last ∧ k = m) }
  | commit (q m : Nat) (hl : (s.node q).last = (s.node q).view) (hw : s.won (s.node q).last m)
      (hc : (s.node q).commit < m) (hlog : (s.node q).log ((s.node q).commit + 1) ≠ none) :
      Step n good s (s.setNode q { s.node q with commit := (s.node q).commit + 1 })

inductive Reach (n : Nat) (good : Prop) : State α → Prop where
  | init : Reach n good State.init
  | step {s s' : State α} (h : Reach n good s) (hs : Step n good s s') : Reach n good s'

/-- **What holds in every run**: logs agree with their view, and nobody is ahead of its primary. -/
structure Core (s : State α) : Prop where
  last_le : ∀ q, (s.node q).last ≤ (s.node q).view
  last_start : ∀ q, s.start (s.node q).last ≠ none
  log_eq : ∀ q n, n ≤ (s.node q).top → (s.node q).log n = s.op (s.node q).last n
  start_last : ∀ v S, s.start v = some S → v ≤ (s.node S.primary).last
  start_op : ∀ v S, s.start v = some S → ∀ n, n ≤ S.top → s.op v n = S.log n
  start_top : ∀ q S, s.start (s.node q).last = some S → S.top ≤ (s.node q).top
  start_commit : ∀ q S, s.start (s.node q).last = some S → S.top ≤ (s.node q).commit
  op_start : ∀ v n, s.op v n ≠ none → s.start v ≠ none
  op_le : ∀ v S n, s.start v = some S → (s.node S.primary).last = v → s.op v n ≠ none → n ≤ (s.node S.primary).top
  top_le : ∀ q S, s.start (s.node q).last = some S → (s.node q).top ≤ S.top ∨ s.op (s.node q).last (s.node q).top ≠ none
  commit_le : ∀ q S, s.start (s.node q).last = some S →
    (s.node q).commit ≤ S.top ∨ ∃ m, s.won (s.node q).last m ∧ (s.node q).commit ≤ m
  won_le : ∀ v S m, s.start v = some S → (s.node S.primary).last = v → s.won v m → m ≤ (s.node S.primary).commit
  won_start : ∀ v m, s.won v m → s.start v ≠ none
  held_last : ∀ q v n, s.held q v n → v ≤ (s.node q).last
  held_top : ∀ q n, s.held q (s.node q).last n → n ≤ (s.node q).top
  held_op : ∀ q v n, s.held q v n → s.op v n ≠ none
  primary_commit : ∀ v S, s.start v = some S → (s.node S.primary).last = v →
    (s.node S.primary).commit ≤ (s.node S.primary).top

theorem core_init : Core (State.init : State α) := by
  constructor <;> simp only [State.init]
  case start_op =>
    rintro v S hS n -
    split at hS <;> simp only [Option.some.injEq, reduceCtorEq] at hS
    rw [← hS]
  all_goals grind

section

variable {s : State α} (h : Core s)
include h

theorem Core.enter (q : Nat) : Core (s.setNode q { s.node q with view := (s.node q).view + 1 }) := by
  obtain ⟨hle, hstart, hlog, hprim, hsop, hstop, hscom, hops, hople, htle, hcle, hwle, hws, hhl, hht, hho, hpc⟩ := h
  constructor <;> simp only [State.setNode, Function.update_apply] <;> grind

theorem Core.join {q w : Nat} {S : Start α} (hl : (s.node q).last < w) (hs : s.start w = some S) :
    Core (s.setNode q ⟨w, w, S.log, S.top, S.top⟩) := by
  obtain ⟨hle, hstart, hlog, hprim, hsop, hstop, hscom, hops, hople, htle, hcle, hwle, hws, hhl, hht, hho, hpc⟩ := h
  constructor <;> simp only [State.setNode, Function.update_apply] <;> grind

theorem Core.take {d w : Nat} {log : Nat → Option α} {c : Nat} (hl : (s.node d).last < w) (hs : s.start w = none) :
    Core { s.setNode d ⟨w, w, log, c, c⟩ with
      start := Function.update s.start w (some ⟨d, log, c⟩)
      op := Function.update s.op w (fun m => if m ≤ c then log m else none) } := by
  obtain ⟨hle, hstart, hlog, hprim, hsop, hstop, hscom, hops, hople, htle, hcle, hwle, hws, hhl, hht, hho, hpc⟩ := h
  constructor <;> simp only [State.setNode, Function.update_apply]
  -- nobody has the log of a view that has not started
  case log_eq =>
    intro q n hn
    by_cases hq : q = d
    · subst hq; simp_all
    · have hne : (s.node q).last ≠ w := fun e => hstart q (e ▸ hs)
      simp only [hq, hne, if_false] at hn ⊢
      exact hlog q n hn
  case start_op =>
    intro v S hS n hn
    by_cases hv : v = w
    · subst hv
      simp only [if_true, Option.some.injEq] at hS ⊢
      subst hS
      exact if_pos hn
    · simp only [hv, if_false] at hS ⊢
      exact hsop v S hS n hn
  case op_le =>
    intro v S n hS hlast hop
    by_cases hv : v = w
    · subst hv
      simp only [if_true, Option.some.injEq] at hS hop
      subst hS
      simp only [if_true]
      by_contra hlt
      exact hop (if_neg hlt)
    · grind
  all_goals grind

theorem Core.propose {p : Nat} {a : α} (hp : IsPrimary s p (s.node p).last) :
    Core { s.push p a with
      op := Function.update s.op (s.node p).last
        (Function.update (s.op (s.node p).last) ((s.node p).top + 1) (some a)) } := by
  obtain ⟨S, hS, rfl⟩ := hp
  obtain ⟨hle, hstart, hlog, hprim, hsop, hstop, hscom, hops, hople, htle, hcle, hwle, hws, hhl, hht, hho, hpc⟩ := h
  constructor <;> simp only [State.push, State.setNode, Function.update_apply]
  -- nobody in the view is ahead of its primary
  case log_eq =>
    intro q n hn
    by_cases hq : q = S.primary
    · subst hq
      simp only [if_true] at hn ⊢
      by_cases hn' : n = (s.node S.primary).top + 1
      · simp only [Function.update_apply, hn', if_true]
      · simp only [Function.update_apply, hn', if_false]
        exact hlog _ n (by omega)
    · simp only [hq, if_false] at hn ⊢
      by_cases hv : (s.node q).last = (s.node S.primary).last
      · have hle : (s.node q).top ≤ (s.node S.primary).top := by
          rcases htle q S (hv ▸ hS) with ht | ht
          · exact ht.trans (hstop _ S hS)
          · exact hople _ S _ hS rfl (hv ▸ ht)
        have hne : n ≠ (s.node S.primary).top + 1 := by omega
        simp only [Function.update_apply, hv, hne, if_true, if_false]
        rw [hlog q n hn, hv]
      · simp only [hv, if_false]
        exact hlog q n hn
  all_goals grind

theorem Core.accept {q : Nat} {a : α} (hp : ¬ IsPrimary s q (s.node q).last)
    (ha : s.op (s.node q).last ((s.node q).top + 1) = some a) : Core (s.push q a) := by
  obtain ⟨hle, hstart, hlog, hprim, hsop, hstop, hscom, hops, hople, htle, hcle, hwle, hws, hhl, hht, hho, hpc⟩ := h
  constructor <;> simp only [State.push, State.setNode, Function.update_apply]
  case log_eq =>
    intro r n hn
    by_cases hr : r = q
    · subst hr
      simp only [if_true] at hn ⊢
      by_cases hn' : n = (s.node r).top + 1
      · simp only [Function.update_apply, hn', if_true, ha]
      · simp only [Function.update_apply, hn', if_false]
        exact hlog _ n (by omega)
    · simp only [hr, if_false] at hn ⊢
      exact hlog r n hn
  all_goals grind [IsPrimary]

theorem Core.win {p m : Nat} (hp : IsPrimary s p (s.node p).last) (hc : (s.node p).commit < m)
    (hm : m ≤ (s.node p).top) :
    Core { s.setNode p { s.node p with commit := m } with
      won := fun v k => s.won v k ∨ (v = (s.node p).last ∧ k = m) } := by
  obtain ⟨S, hS, rfl⟩ := hp
  obtain ⟨hle, hstart, hlog, hprim, hsop, hstop, hscom, hops, hople, htle, hcle, hwle, hws, hhl, hht, hho, hpc⟩ := h
  constructor <;> simp only [State.setNode, Function.update_apply]
  case commit_le =>
    intro q S' hS'
    by_cases hq : q = S.primary
    · subst hq
      simp only [if_true]
      exact .inr ⟨m, .inr ⟨trivial, rfl⟩, le_refl _⟩
    · simp only [hq, if_false] at hS' ⊢
      exact (hcle q S' hS').imp id (fun ⟨k, hk, hle⟩ => ⟨k, .inl hk, hle⟩)
  all_goals grind

theorem Core.commit {q m : Nat} (hw : s.won (s.node q).last m) (hc : (s.node q).commit < m) :
    Core (s.setNode q { s.node q with commit := (s.node q).commit + 1 }) := by
  obtain ⟨hle, hstart, hlog, hprim, hsop, hstop, hscom, hops, hople, htle, hcle, hwle, hws, hhl, hht, hho, hpc⟩ := h
  constructor <;> simp only [State.setNode, Function.update_apply]
  all_goals grind

end

theorem Core.step {n : Nat} {good : Prop} {s s' : State α} (h : Core s) (hs : Step n good s s') : Core s' := by
  cases hs with
  | enter q => exact h.enter q
  | cast q hl =>
    exact ⟨h.1, h.2, h.3, h.4, h.5, h.6, h.7, h.8, h.9, h.10, h.11, h.12, h.13, h.14, h.15, h.16, h.17⟩
  | take d w Q V p hw hl hs _ _ _ _ => exact h.take hl hs
  | join q w S _ hl hs => exact h.join hl hs
  | propose p a hl hp => exact h.propose hp
  | accept q a _ hp ha => exact h.accept hp ha
  | win p m _ hp hc hm _ => exact h.win hp hc hm
  | commit q m _ hw hc _ => exact h.commit hw hc

theorem Reach.core {n : Nat} {good : Prop} {s : State α} (h : Reach n good s) : Core s := by
  induction h with
  | init => exact core_init
  | step _ hs ih => exact ih.step hs

/-- **Log matching**: in a view, nobody has taken up more than its primary, and they agree on all of it. -/
theorem Core.logs_agree {s : State α} (h : Core s) {p q v : Nat} (hp : IsPrimary s p v) (hpl : (s.node p).last = v)
    (hql : (s.node q).last = v) : (s.node q).top ≤ (s.node p).top ∧ (s.node q).commit ≤ (s.node p).commit ∧
      ∀ m, m ≤ (s.node q).top → (s.node q).log m = (s.node p).log m := by
  obtain ⟨S, hS, rfl⟩ := hp
  have htop : (s.node q).top ≤ (s.node S.primary).top := by
    rcases h.top_le q S (hql ▸ hS) with ht | ht
    · exact ht.trans (h.start_top _ S (hpl ▸ hS))
    · exact h.op_le v S _ hS hpl (hql ▸ ht)
  refine ⟨htop, ?_, fun m hm => ?_⟩
  · rcases h.commit_le q S (hql ▸ hS) with hc | ⟨m, hm, hc⟩
    · exact hc.trans (h.start_commit _ S (hpl ▸ hS))
    · exact hc.trans (h.won_le v S m hS hpl (hql ▸ hm))
  · rw [h.log_eq q m hm, h.log_eq _ m (hm.trans htop), hql, hpl]

end Viewstamp
