import Mathlib.Data.List.Basic
/-!
# Run — systems, their runs and what is seen on them

A system takes events one by one; a step may be refused, and shows a list of observations.  `Reach` is its runs, cut
down to the steps that meet a condition on the state before, on all that was seen so far and on the event.  The
condition is a test, so a run can also be executed, and an executed run is one of them.
-/
namespace Run

structure System (σ ε ω : Type) where
  init : σ
  step : σ → ε → Option (σ × List ω)

variable {σ ε ω : Type} {S : System σ ε ω} {ok ok' : σ → List ω → ε → Bool}

/-- **The runs of a system whose steps meet `ok`**: where they lead, and all that is seen on the way. -/
inductive Reach (S : System σ ε ω) (ok : σ → List ω → ε → Bool) : σ → List ω → Prop where
  | init : Reach S ok S.init []
  | step {s s' : σ} {tr os : List ω} {e : ε} (h : Reach S ok s tr) (hok : ok s tr e = true)
      (hs : S.step s e = some (s', os)) : Reach S ok s' (tr ++ os)

/-- **What holds at the start and is kept by every allowed step holds on every run.** -/
theorem Reach.invariant {P : σ → List ω → Prop} (h0 : P S.init [])
    (hstep : ∀ s tr e s' os, Reach S ok s tr → P s tr → ok s tr e = true → S.step s e = some (s', os) → P s' (tr ++ os))
    {s : σ} {tr : List ω} (h : Reach S ok s tr) : P s tr := by
  induction h with
  | init => exact h0
  | step h hok hs ih => exact hstep _ _ _ _ _ h ih hok hs

/-- Each thing seen was seen when `T` held of what was seen before it. -/
def Each (T : List ω → ω → Prop) (tr : List ω) : Prop := ∀ tr₁ o tr₂, tr = tr₁ ++ o :: tr₂ → T tr₁ o

theorem each_nil {T : List ω → ω → Prop} : Each T [] := fun tr₁ o tr₂ h => by simp at h

theorem Each.append {T : List ω → ω → Prop} {tr os : List ω} (h : Each T tr)
    (hos : ∀ os₁ o os₂, os = os₁ ++ o :: os₂ → T (tr ++ os₁) o) : Each T (tr ++ os) := by
  intro tr₁ o tr₂ he
  rcases List.append_eq_append_iff.1 he with ⟨as, rfl, hos'⟩ | ⟨as, htr, has⟩
  · exact hos as o tr₂ hos'
  · cases as with
    | nil =>
      rw [List.append_nil] at htr
      subst htr
      simpa using hos [] o tr₂ has.symm
    | cons a as =>
      rw [List.cons_append, List.cons.injEq] at has
      obtain ⟨rfl, -⟩ := has
      exact h tr₁ o as htr

theorem Each.concat {T : List ω → ω → Prop} {tr : List ω} {o : ω} (h : Each T tr) (ho : T tr o) :
    Each T (tr ++ [o]) := by
  refine h.append (fun os₁ o' os₂ he => ?_)
  obtain ⟨rfl, hx⟩ | ⟨-, hx⟩ := List.singleton_eq_append_iff.1 he
  · cases hx
    rwa [List.append_nil]
  · cases hx

/-- What is seen first in a step, and no second time, is seen right after what was seen before the step. -/
theorem nil_of_first {o : ω} {os os₁ os₂ : List ω} (h : o :: os = os₁ ++ o :: os₂) (ho : o ∉ os) : os₁ = [] := by
  cases os₁ with
  | nil => rfl
  | cons a os₁ =>
    rw [List.cons_append, List.cons.injEq] at h
    exact absurd (h.2 ▸ List.mem_append_right _ List.mem_cons_self) ho

/-- The events run one after the other from a state and what was seen before it; `none` when one is refused. -/
def exec (S : System σ ε ω) (ok : σ → List ω → ε → Bool) : List ε → σ → List ω → Option (σ × List ω)
  | [], s, tr => some (s, tr)
  | e :: es, s, tr =>
    if ok s tr e = true then
      match S.step s e with
      | none => none
      | some (s', os) => exec S ok es s' (tr ++ os)
    else none

/-- **Steps that use something up come to an end**: an executed run is no longer than there was of it. -/
theorem exec_le {I : σ → Prop} {work : σ → Nat}
    (hstep : ∀ s tr e s' os, I s → ok s tr e = true → S.step s e = some (s', os) → I s' ∧ work s' < work s) :
    ∀ (es : List ε) {s s' : σ} {tr tr' : List ω}, I s → exec S ok es s tr = some (s', tr') →
      I s' ∧ es.length + work s' ≤ work s
  | [], s, s', tr, tr', hI, he => by
    cases he
    exact ⟨hI, by simp⟩
  | e :: es, s, s', tr, tr', hI, he => by
    unfold exec at he
    split at he
    · rename_i hok
      split at he
      · cases he
      · rename_i s₁ os hs
        obtain ⟨hI₁, hlt⟩ := hstep s tr e s₁ os hI hok hs
        obtain ⟨hI', hle⟩ := exec_le hstep es hI₁ he
        exact ⟨hI', by rw [List.length_cons]; omega⟩
    · cases he

theorem Reach.of_exec {s s' : σ} {tr tr' : List ω} (h : Reach S ok s tr) :
    ∀ es, exec S ok es s tr = some (s', tr') → Reach S ok s' tr'
  | [], he => by
    simp only [exec, Option.some.injEq, Prod.mk.injEq] at he
    obtain ⟨rfl, rfl⟩ := he
    exact h
  | e :: es, he => by
    unfold exec at he
    split at he
    · rename_i hok
      split at he
      · cases he
      · rename_i hs
        exact Reach.of_exec (h.step hok hs) es he
    · cases he

theorem exec_cons {s s' : σ} {tr os : List ω} {e : ε} (hok : ok s tr e = true) (hs : S.step s e = some (s', os))
    (es : List ε) : exec S ok (e :: es) s tr = exec S ok es s' (tr ++ os) := by rw [exec, if_pos hok, hs]

theorem exec_append : ∀ (es es' : List ε) (s : σ) (tr : List ω),
    exec S ok (es ++ es') s tr = (exec S ok es s tr).bind (fun x => exec S ok es' x.1 x.2)
  | [], es', s, tr => rfl
  | e :: es, es', s, tr => by
    simp only [List.cons_append, exec]
    split
    · cases S.step s e with
      | none => rfl
      | some x => exact exec_append es es' x.1 (tr ++ x.2)
    · rfl

/-- **Where a run gets from a state of it**, with what was seen until then, by allowed events that meet `p`. -/
structure Onward (S : System σ ε ω) (ok : σ → List ω → ε → Bool) (p : ε → Prop) (b : σ × List ω) (s : σ)
    (tr : List ω) : Prop where
  reach : Reach S ok s tr
  path : ∃ es, (∀ e ∈ es, p e) ∧ exec S ok es b.1 b.2 = some (s, tr)

theorem Reach.onward {p : ε → Prop} {s : σ} {tr : List ω} (h : Reach S ok s tr) : Onward S ok p (s, tr) s tr :=
  ⟨h, [], by simp, rfl⟩

theorem Onward.step {p : ε → Prop} {b : σ × List ω} {s s' : σ} {tr os : List ω} {e : ε} (h : Onward S ok p b s tr)
    (hp : p e) (hok : ok s tr e = true) (hs : S.step s e = some (s', os)) : Onward S ok p b s' (tr ++ os) := by
  obtain ⟨es, hes, he⟩ := h.path
  refine ⟨h.reach.step hok hs, es ++ [e], fun x hx => ?_, ?_⟩
  · rcases List.mem_append.1 hx with hx | hx
    · exact hes x hx
    · rwa [List.mem_singleton.1 hx]
  · rw [exec_append, he, Option.bind_some, exec_cons hok hs]
    rfl

/-- **What a run can do for one it can do for all**: from a state with the list still before it, on to one with it
behind. -/
theorem Onward.sweep {p : ε → Prop} {b : σ × List ω} {α : Type} {I : List α → σ → List ω → Prop}
    (hstep : ∀ a l s tr, Onward S ok p b s tr → I (a :: l) s tr →
      ∃ s' os, Onward S ok p b s' (tr ++ os) ∧ I l s' (tr ++ os)) :
    ∀ (l : List α) {s : σ} {tr : List ω}, Onward S ok p b s tr → I l s tr →
      ∃ s' os, Onward S ok p b s' (tr ++ os) ∧ I [] s' (tr ++ os)
  | [], s, tr, h, hI => ⟨s, [], by rwa [List.append_nil], by rwa [List.append_nil]⟩
  | a :: l, s, tr, h, hI => by
    obtain ⟨s₁, os₁, h₁, hI₁⟩ := hstep a l s tr h hI
    obtain ⟨s₂, os₂, h₂, hI₂⟩ := Onward.sweep hstep l h₁ hI₁
    exact ⟨s₂, os₁ ++ os₂, by rwa [← List.append_assoc], by rwa [← List.append_assoc]⟩

/-- **An executed run is a run**, and what a test finds at its end is there. -/
theorem exists_reach_of_exec (es : List ε) (q : σ → List ω → Bool)
    (h : (exec S ok es S.init []).any (fun p => q p.1 p.2) = true) : ∃ s tr, Reach S ok s tr ∧ q s tr = true := by
  cases he : exec S ok es S.init [] with
  | none => rw [he] at h; cases h
  | some p =>
    rw [he] at h
    exact ⟨p.1, p.2, Reach.init.of_exec es he, h⟩

/-- A run that goes on from where another ended; what the steps are held to does not look back. -/
theorem Reach.trans {p : σ → ε → Bool} {s s' : σ} {tr tr' : List ω} (h : Reach S (fun s _ e => p s e) s tr)
    (h' : Reach { S with init := s } (fun s _ e => p s e) s' tr') : Reach S (fun s _ e => p s e) s' (tr ++ tr') := by
  induction h' with
  | init => rwa [List.append_nil]
  | step _ hok hs ih =>
    rw [← List.append_assoc]
    exact ih.step hok hs

/-- The same system, which also shows the state before each step and the event. -/
def System.watched (S : System σ ε ω) : System σ ε (σ × ε × List ω) where
  init := S.init
  step := fun s e => (S.step s e).map (fun p => (p.1, [(s, e, p.2)]))

theorem System.step_watched {s s' : σ} {e : ε} {xs : List (σ × ε × List ω)} (h : S.watched.step s e = some (s', xs)) :
    ∃ os, S.step s e = some (s', os) ∧ xs = [(s, e, os)] := by
  obtain ⟨⟨t, os⟩, hs, hp⟩ := Option.map_eq_some_iff.1 h
  cases hp
  exact ⟨os, hs, rfl⟩

/-- A watched run is a run, and each step it shows was taken in a state that a run reaches. -/
theorem Reach.unwatched {s : σ} {xs : List (σ × ε × List ω)} (h : Reach S.watched (fun _ _ _ => true) s xs) :
    Reach S (fun _ _ _ => true) s (xs.flatMap (fun x => x.2.2)) := by
  induction h with
  | init => exact .init
  | step _ _ hs ih =>
    obtain ⟨os, hs', rfl⟩ := System.step_watched hs
    rw [List.flatMap_append, List.flatMap_singleton]
    exact ih.step rfl hs'

theorem Reach.mem_watched {s : σ} {xs : List (σ × ε × List ω)} (h : Reach S.watched (fun _ _ _ => true) s xs)
    {x : σ × ε × List ω} (hx : x ∈ xs) :
    ∃ tr s', Reach S (fun _ _ _ => true) x.1 tr ∧ S.step x.1 x.2.1 = some (s', x.2.2) := by
  induction h with
  | init => cases hx
  | step h _ hs ih =>
    obtain ⟨os, hs', rfl⟩ := System.step_watched hs
    rcases List.mem_append.1 hx with hx | hx
    · exact ih hx
    · rw [List.mem_singleton.1 hx]
      exact ⟨_, _, h.unwatched, hs'⟩

end Run
