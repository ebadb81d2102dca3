import Mathlib.Data.Option.Basic
/-!
# Lockstep — two machines on the same inputs

Two machines take the same inputs one by one; each step may fail.  Where a condition holds of the state and the input
the two go to the same state, and where it does not they can be told apart after the step.  Then a run of the first is,
state by state, a run of the second if and only if the condition holds at each of its steps (`states_iff`).
-/
namespace Lockstep

variable {σ ε ω : Type}

/-- The states a machine goes through; `none` when a step fails. -/
def states (step : σ → ε → Option σ) : σ → List ε → Option (List σ)
  | _, [] => some []
  | s, e :: es =>
    match step s e with
    | none => none
    | some s' => (states step s' es).map (s' :: ·)

/-- What holds of the state and the input at every step of a run. -/
def Along (step : σ → ε → Option σ) (P : σ → ε → Prop) : σ → List ε → Prop
  | _, [] => True
  | s, e :: es => P s e ∧ ∀ s', step s e = some s' → Along step P s' es

instance instDecidableAlong {step : σ → ε → Option σ} {P : σ → ε → Prop} [∀ s e, Decidable (P s e)] :
    ∀ (s : σ) (es : List ε), Decidable (Along step P s es)
  | _, [] => isTrue trivial
  | s, e :: es =>
    match h : step s e with
    | none => decidable_of_iff (P s e) ⟨fun hp => ⟨hp, fun s' hs => by rw [h] at hs; cases hs⟩, And.left⟩
    | some s' =>
      have : Decidable (Along step P s' es) := instDecidableAlong s' es
      decidable_of_iff (P s e ∧ Along step P s' es)
        ⟨fun hp => ⟨hp.1, fun t ht => by rw [h] at ht; cases ht; exact hp.2⟩, fun hp => ⟨hp.1, hp.2 s' h⟩⟩

theorem states_cons {step : σ → ε → Option σ} {s : σ} {e : ε} {es : List ε} {ss : List σ} :
    states step s (e :: es) = some ss ↔
      ∃ s' ss', step s e = some s' ∧ states step s' es = some ss' ∧ ss = s' :: ss' := by
  rw [states]
  cases step s e with
  | none => simp
  | some s' => simp [Option.map_eq_some_iff, eq_comm, and_comm]

theorem Along.mono {step : σ → ε → Option σ} {P Q : σ → ε → Prop} (h : ∀ s e, P s e → Q s e) :
    ∀ {es : List ε} {s : σ}, Along step P s es → Along step Q s es
  | [], _, _ => trivial
  | _ :: _, _, hp => ⟨h _ _ hp.1, fun s' hs => (hp.2 s' hs).mono h⟩

variable {step step' : σ → ε → Option σ} {P : σ → ε → Prop} {view : σ → ω}

/-- **Where the condition holds the second machine follows the first.** -/
theorem states_of_along (hsame : ∀ s e s', step s e = some s' → P s e → step' s e = some s') :
    ∀ {es : List ε} {s : σ} {ss : List σ}, states step s es = some ss → Along step P s es → states step' s es = some ss
  | [], _, _, h, _ => h
  | e :: es, s, ss, h, hp => by
    obtain ⟨s', ss', hs, hss, rfl⟩ := states_cons.1 h
    exact states_cons.2 ⟨s', ss', hsame s e s' hs hp.1, states_of_along hsame hss (hp.2 s' hs), rfl⟩

/-- **Where it follows, to the eye, the condition holds.** -/
theorem along_of_states (hsame : ∀ s e s', step s e = some s' → P s e → step' s e = some s')
    (hdiffer : ∀ s e s' s'', step s e = some s' → ¬ P s e → step' s e = some s'' → view s'' ≠ view s') :
    ∀ {es : List ε} {s : σ} {ss ss' : List σ}, states step s es = some ss → states step' s es = some ss' →
      ss'.map view = ss.map view → Along step P s es
  | [], _, _, _, _, _, _ => trivial
  | e :: es, s, ss, ss', h, h', hv => by
    obtain ⟨t, ts, hs, hss, rfl⟩ := states_cons.1 h
    obtain ⟨t', ts', hs', hss', rfl⟩ := states_cons.1 h'
    rw [List.map_cons, List.map_cons, List.cons.injEq] at hv
    have hp : P s e := by
      by_contra hn
      exact hdiffer s e t t' hs hn hs' hv.1
    obtain rfl : t' = t := Option.some.inj (hs'.symm.trans (hsame s e t hs hp))
    refine ⟨hp, fun u hu => ?_⟩
    obtain rfl : u = t' := Option.some.inj (hu.symm.trans hs)
    exact along_of_states hsame hdiffer hss hss' hv.2

/-- **The two go through states that look the same exactly when the condition holds at every step.** -/
theorem states_iff (hsame : ∀ s e s', step s e = some s' → P s e → step' s e = some s')
    (hdiffer : ∀ s e s' s'', step s e = some s' → ¬ P s e → step' s e = some s'' → view s'' ≠ view s')
    {es : List ε} {s : σ} {ss : List σ} (h : states step s es = some ss) :
    (∃ ss', states step' s es = some ss' ∧ ss'.map view = ss.map view) ↔ Along step P s es :=
  ⟨fun ⟨_, h', hv⟩ => along_of_states hsame hdiffer h h' hv, fun hp => ⟨ss, states_of_along hsame h hp, rfl⟩⟩

end Lockstep
