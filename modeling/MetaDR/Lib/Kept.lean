import MetaDR.Lib.Run
import Mathlib.Data.List.Chain
import Mathlib.Data.List.Induction
/-!
# Kept — from a test to where its answer is used

A thread tests a property of a state that others change, and uses the answer some steps later.  The property holds where
the answer is used exactly when each step in between that ends it is followed, still in between, by one that brings it
back (`Linked.keptFrom_iff`): a condition on what happens between the test and the use.
-/
namespace Run

variable {σ ε τ ρ : Type} {before after : τ → ρ} {tr : List τ}

/-- Each step begins where the one before it ended. -/
def Linked (before after : τ → ρ) (tr : List τ) : Prop := tr.IsChain (fun x y => after x = before y)

/-- **What the steps take from `P` they give back**: behind each that ends it there is one that brings it back. -/
def GivesBack (before after : τ → ρ) (P : ρ → Prop) (tr : List τ) : Prop :=
  ∀ tr₁ x tr₂, tr = tr₁ ++ x :: tr₂ → P (before x) → ¬ P (after x) → ∃ y ∈ tr₂, P (after y)

/-- A `T` was seen, and no `N` after it. -/
def Since (T N : τ → Prop) (tr : List τ) : Prop := ∃ tr₁ x ys, tr = tr₁ ++ x :: ys ∧ T x ∧ ∀ y ∈ ys, ¬ N y

/-- Between a test and the use of its answer, with no new turn in between, `P` is given back. -/
def KeptFrom (before after : τ → ρ) (P : ρ → Prop) (test turn use : τ → Prop) (tr : List τ) : Prop :=
  ∀ tr₁ x ys y tr₂, tr = tr₁ ++ x :: (ys ++ y :: tr₂) → test x → (∀ z ∈ ys, ¬ turn z) → use y →
    GivesBack before after P ys

theorem Since.concat {T N : τ → Prop} (h : Since T N tr) {z : τ} (hz : ¬ N z) : Since T N (tr ++ [z]) := by
  obtain ⟨tr₁, x, ys, rfl, hx, hys⟩ := h
  exact ⟨tr₁, x, ys ++ [z], by simp, hx, List.forall_mem_append.2 ⟨hys, List.forall_mem_singleton.2 hz⟩⟩

theorem since_last {T N : τ → Prop} {x : τ} (hx : T x) : Since T N (tr ++ [x]) :=
  ⟨tr, x, [], rfl, hx, fun _ hy => absurd hy List.not_mem_nil⟩

theorem givesBack_concat {P : ρ → Prop} {z : τ} :
    GivesBack before after P (tr ++ [z]) ↔ P (after z) ∨ (¬ P (before z) ∧ GivesBack before after P tr) := by
  constructor
  · intro h
    by_cases hz : P (after z)
    · exact .inl hz
    · refine .inr ⟨fun hb => ?_, fun tr₁ x tr₂ he hx hnx => ?_⟩
      · obtain ⟨y, hy, -⟩ := h tr z [] rfl hb hz
        cases hy
      · obtain ⟨y, hy, hp⟩ := h tr₁ x (tr₂ ++ [z]) (by rw [he]; simp) hx hnx
        rcases List.mem_append.1 hy with hy | hy
        · exact ⟨y, hy, hp⟩
        · exact absurd (List.mem_singleton.1 hy ▸ hp) hz
  · intro h tr₁ x tr₂ he hx hnx
    rcases List.eq_nil_or_concat tr₂ with rfl | ⟨ys, y, rfl⟩
    · obtain ⟨-, rfl⟩ := List.append_singleton_inj.1 he
      exact absurd hnx (fun hnx => h.elim hnx (fun h => h.1 hx))
    · have he' : tr ++ [z] = (tr₁ ++ x :: ys) ++ [y] := by rw [he]; simp
      obtain ⟨rfl, rfl⟩ := List.append_singleton_inj.1 he'
      rcases h with h | ⟨-, h⟩
      · exact ⟨z, by simp, h⟩
      · obtain ⟨y, hy, hp⟩ := h tr₁ x ys rfl hx hnx
        exact ⟨y, by simp [hy], hp⟩

/-- **What held behind one step holds before a later one** just if what was taken in between was given back. -/
theorem Linked.holds_iff {P : ρ → Prop} {x : τ} (hx : P (after x)) : ∀ (ys : List τ) {y : τ},
    Linked before after (x :: (ys ++ [y])) → (P (before y) ↔ GivesBack before after P ys) := by
  intro ys
  induction ys using List.reverseRecOn with
  | nil =>
    intro y h
    have he : after x = before y := (List.isChain_cons_cons.1 h).1
    exact iff_of_true (he ▸ hx) (fun tr₁ z tr₂ hn => by simp at hn)
  | append_singleton ys z ih =>
    intro y h
    have h : Linked before after ((x :: (ys ++ [z])) ++ [y]) := h
    obtain ⟨hz, -, hlast⟩ := List.isChain_append.1 h
    have he : after z = before y := hlast z (by simp [List.getLast?_cons]) y rfl
    rw [givesBack_concat, ← ih hz, he]
    exact ⟨.inl, fun h => h.resolve_right (fun h => h.1 h.2)⟩

/-- **The answer still holds where it is used** just if what was taken from it since its test was given back. -/
theorem Linked.keptFrom_iff {P : ρ → Prop} {test turn use : τ → Prop} (hl : Linked before after tr)
    (htest : ∀ x ∈ tr, test x → P (after x))
    (huse : Each (fun tr₁ y => use y → Since test turn tr₁) tr) :
    KeptFrom before after P test turn use tr ↔ ∀ y ∈ tr, use y → P (before y) := by
  have hiff : ∀ tr₁ x ys y tr₂, tr = tr₁ ++ x :: (ys ++ y :: tr₂) → test x →
      (P (before y) ↔ GivesBack before after P ys) := fun tr₁ x ys y tr₂ he hx => by
    subst he
    refine Linked.holds_iff (htest x (by simp) hx) ys ?_
    have hl' : Linked before after (tr₁ ++ ((x :: (ys ++ [y])) ++ tr₂)) := by simpa using hl
    exact (List.isChain_append.1 (List.isChain_append.1 hl').2.1).1
  constructor
  · intro hk y hy hu
    obtain ⟨tr₀, tr₂, rfl⟩ := List.append_of_mem hy
    obtain ⟨tr₁, x, ys, rfl, hx, hys⟩ := huse tr₀ y tr₂ rfl hu
    have he : tr₁ ++ x :: ys ++ y :: tr₂ = tr₁ ++ x :: (ys ++ y :: tr₂) := by simp
    exact (hiff _ _ _ _ _ he hx).2 (hk _ _ _ _ _ he hx hys hu)
  · intro hall tr₁ x ys y tr₂ he hx _ hu
    exact (hiff _ _ _ _ _ he hx).1 (hall y (by rw [he]; simp) hu)

/-- The steps that a run shows one by one are linked. -/
theorem Reach.linked {T : System σ ε τ} {ok : σ → List τ → ε → Bool} (π : σ → ρ)
    (hstep : ∀ s tr e s' os, Reach T ok s tr → T.step s e = some (s', os) →
      ∃ x, os = [x] ∧ before x = π s ∧ after x = π s')
    {s : σ} (h : Reach T ok s tr) : Linked before after tr := by
  have hinv : Linked before after tr ∧ ∀ x ∈ tr.getLast?, after x = π s := by
    refine h.invariant (P := fun s tr => Linked before after tr ∧ ∀ x ∈ tr.getLast?, after x = π s)
      ⟨List.isChain_nil, by simp⟩ ?_
    rintro s tr e s' os hr ⟨hl, hlast⟩ - hs
    obtain ⟨x, rfl, hb, ha⟩ := hstep s tr e s' os hr hs
    refine ⟨List.isChain_append.2 ⟨hl, List.isChain_singleton x, fun y hy z hz => ?_⟩, fun y hy => ?_⟩
    · cases hz
      exact (hlast y hy).trans hb.symm
    · rw [List.getLast?_concat] at hy
      cases hy
      exact ha
  exact hinv.1

end Run
