import MetaDR.Moves
/-!
# Views — a replica enters a view once, votes in it once and selects one candidate

`viewNum` never goes back while a process runs, and grows with each `changeView`.  So what a replica once entered, voted
for, selected or took up lies at or below it, and below it while it is changing views.
-/
namespace MetaDR

/-- The view the heart-beat thread is changing to. -/
def HbPc.view : HbPc → Option Nat
  | .startSent w _ => some w
  | .startWait w _ => some w
  | .choosing info _ _ => some info.viewNum
  | .doWait w => some w
  | .viewWait w => some w
  | _ => none

theorem Replica.hbOk.live {r : Replica} (h : r.hbOk) {w : Nat} (hw : r.hb.view = some w) : r.status ≠ .recovering := by
  unfold Replica.hbOk at h
  split at h
  · rename_i he; rw [he] at hw; cases hw
  · rename_i he; rw [he] at hw; cases hw
  · rename_i he; rw [he] at hw; cases hw
  · exact h

/-- It has not left the candidate loop. -/
def HbPc.undecided : HbPc → Bool
  | .startSent _ _ => true
  | .startWait _ _ => true
  | .choosing _ _ _ => true
  | _ => false

/-- The observations of a view change. -/
def Obs.isView : Obs → Bool
  | .entered _ _ => true
  | .voted _ _ => true
  | .selected _ _ _ => true
  | .newView _ _ _ => true
  | _ => false

/-- What a replica has done in view changes, against where it is. -/
structure Replica.Views (tr : List Obs) (i : Nat) (r : Replica) : Prop where
  normal_idle : r.status = .normal → r.hb = .idle
  entered_le : r.status ≠ .recovering → ∀ v, .entered i v ∈ tr → v ≤ r.viewNum
  newView_le : r.status ≠ .recovering → ∀ b info, .newView i b info ∈ tr → info.viewNum ≤ r.viewNum
  newView_lt : r.status ≠ .recovering → r.hb ≠ .idle → ∀ b info, .newView i b info ∈ tr → info.viewNum < r.viewNum
  hb_view : ∀ w, r.hb.view = some w → w = r.viewNum ∧ .entered i w ∈ tr
  unvoted : ∀ w o, r.hb = .startSent w o ∨ r.hb = .startWait w o → ∀ info, .voted i info ∈ tr → info.viewNum ≠ w
  unselected : r.hb.undecided = true → ∀ c, .selected i r.viewNum c ∉ tr
  doWait : ∀ w, r.hb = .doWait w → .selected i w i ∈ tr
  voted_entered : ∀ info, .voted i info ∈ tr → .entered i info.viewNum ∈ tr
  selected_entered : ∀ w c, .selected i w c ∈ tr → .entered i w ∈ tr
  selected_unique : ∀ w c c', .selected i w c ∈ tr → .selected i w c' ∈ tr → c = c'

theorem views_init (n i : Nat) : (Replica.init n i).Views [] i := by
  constructor <;> simp [Replica.init, HbPc.view, HbPc.undecided]

/-- What is no part of a view change of the replica leaves it where it is. -/
theorem Replica.Views.append {tr os : List Obs} {i : Nat} {r : Replica} (h : r.Views tr i)
    (hos : ∀ o ∈ os, o.by = i → o.isView = false) : r.Views (tr ++ os) i := by
  have hback : ∀ o, o.by = i → o.isView = true → o ∈ tr ++ os → o ∈ tr := fun o hb hv ho =>
    (List.mem_append.1 ho).elim (fun ho => ho) (fun ho => absurd (hos o ho hb) (by simp [hv]))
  have hfwd : ∀ o ∈ tr, o ∈ tr ++ os := fun o ho => List.mem_append_left _ ho
  exact {
    normal_idle := h.normal_idle
    entered_le := fun hs v hv => h.entered_le hs v (hback _ rfl rfl hv)
    newView_le := fun hs b info hv => h.newView_le hs b info (hback _ rfl rfl hv)
    newView_lt := fun hs hb b info hv => h.newView_lt hs hb b info (hback _ rfl rfl hv)
    hb_view := fun w hw => ⟨(h.hb_view w hw).1, hfwd _ (h.hb_view w hw).2⟩
    unvoted := fun w o hb info hv => h.unvoted w o hb info (hback _ rfl rfl hv)
    unselected := fun hb c hc => h.unselected hb c (hback _ rfl rfl hc)
    doWait := fun w hb => hfwd _ (h.doWait w hb)
    voted_entered := fun info hv => hfwd _ (h.voted_entered info (hback _ rfl rfl hv))
    selected_entered := fun w c hc => hfwd _ (h.selected_entered w c (hback _ rfl rfl hc))
    selected_unique := fun w c c' hc hc' => h.selected_unique w c c' (hback _ rfl rfl hc) (hback _ rfl rfl hc') }

theorem Replica.Views.keep {tr os : List Obs} {i : Nat} {r r' : Replica} (h : r.Views tr i)
    (hos : ∀ o ∈ os, o.by = i → o.isView = false) (hs : r'.status = r.status) (hv : r'.viewNum = r.viewNum)
    (hb : r'.hb = r.hb) : r'.Views (tr ++ os) i := by
  replace h := h.append hos
  exact { h with
    normal_idle := hs ▸ hb ▸ h.normal_idle
    entered_le := hs ▸ hv ▸ h.entered_le
    newView_le := hs ▸ hv ▸ h.newView_le
    newView_lt := hs ▸ hv ▸ hb ▸ h.newView_lt
    hb_view := hv ▸ hb ▸ h.hb_view
    unvoted := hb ▸ h.unvoted
    unselected := hv ▸ hb ▸ h.unselected
    doWait := hb ▸ h.doWait }

section

variable {n : Nat} {R : Rules}

/-- Entering the next view, which is above everything seen. -/
theorem Replica.Views.enter {tr : List Obs} {r : Replica} (h : r.Views tr r.id) (hs : r.status ≠ .recovering) :
    Replica.Views (tr ++ [.entered r.id (r.viewNum + 1)]) r.id
      { r with status := .viewChange, viewNum := r.viewNum + 1, hb := .startSent (r.viewNum + 1) r.viewNum } := by
  have hlt : ∀ v, .entered r.id v ∈ tr → v < r.viewNum + 1 := fun v hv => Nat.lt_succ_of_le (h.entered_le hs v hv)
  constructor <;> simp only [List.mem_append, List.mem_singleton, reduceCtorEq, or_false]
  case entered_le =>
    rintro - v (hv | hv)
    · exact (hlt v hv).le
    · cases hv; exact le_refl _
  case newView_le => exact fun _ b x hx => (h.newView_le hs b x hx).trans (Nat.le_succ _)
  case newView_lt => exact fun _ _ b x hx => Nat.lt_succ_of_le (h.newView_le hs b x hx)
  case hb_view =>
    intro w hw
    cases hw
    exact ⟨rfl, .inr rfl⟩
  case unvoted =>
    intro w o hw x hx he
    cases hw
    exact absurd (hlt _ (h.voted_entered x hx)) (by omega)
  case unselected => exact fun _ c hc => absurd (hlt _ (h.selected_entered _ c hc)) (by omega)
  case voted_entered => exact fun x hx => .inl (h.voted_entered x hx)
  case selected_entered => exact fun w c hc => .inl (h.selected_entered w c hc)
  case selected_unique => exact h.selected_unique
  all_goals simp

theorem Replica.Views.vote {tr : List Obs} {r : Replica} (h : r.Views tr r.id) {v o c : Nat} {info : ViewChangeInfo}
    (hw : r.hb = .startSent v o ∨ r.hb = .startWait v o) (hv : info.viewNum = v)
    (votes : Finmap (fun _ : Nat => List ViewChangeInfo)) (cnt : WaitMap) :
    Replica.Views (tr ++ [.voted r.id info]) r.id
      { r with viewChangeInfoMap := votes, doViewChangeMap := cnt, hb := .choosing info 0 c } := by
  have hview : r.hb.view = some v := by rcases hw with hw | hw <;> rw [hw] <;> rfl
  have hund : r.hb.undecided = true := by rcases hw with hw | hw <;> rw [hw] <;> rfl
  have hne : r.hb ≠ .idle := by rcases hw with hw | hw <;> rw [hw] <;> simp
  constructor <;> simp only [List.mem_append, List.mem_singleton, reduceCtorEq, or_false]
  case normal_idle => exact fun hn => absurd (h.normal_idle hn) hne
  case entered_le => exact h.entered_le
  case newView_le => exact h.newView_le
  case newView_lt => exact fun hs _ => h.newView_lt hs hne
  case hb_view =>
    intro w he
    simp only [HbPc.view, hv, Option.some.injEq] at he
    subst he
    exact h.hb_view v hview
  case unselected => exact fun _ => h.unselected hund
  case voted_entered =>
    rintro x (hx | hx)
    · exact h.voted_entered x hx
    · cases hx
      rw [hv]
      exact (h.hb_view v hview).2
  case selected_entered => exact h.selected_entered
  case selected_unique => exact h.selected_unique
  all_goals simp

/-- Selecting a candidate, which ends the loop. -/
theorem Replica.Views.select {tr : List Obs} {r : Replica} (h : r.Views tr r.id) {info : ViewChangeInfo} {cnt c : Nat}
    (hw : r.hb = .choosing info cnt c) (peers : List Nat) :
    Replica.Views (tr ++ [.selected r.id info.viewNum c]) r.id { r with
      replicas := peers
      priId := c
      hb := if c = r.id then .doWait info.viewNum else .viewWait info.viewNum } := by
  have hne : r.hb ≠ .idle := by simp [hw]
  obtain ⟨hview, hent⟩ := h.hb_view info.viewNum (by rw [hw]; rfl)
  have huns := h.unselected (by rw [hw]; rfl)
  rw [← hview] at huns
  constructor <;> simp only [List.mem_append, List.mem_singleton, reduceCtorEq, or_false]
  case normal_idle => exact fun hn => absurd (h.normal_idle hn) hne
  case entered_le => exact h.entered_le
  case newView_le => exact h.newView_le
  case newView_lt => exact fun hs _ => h.newView_lt hs hne
  case hb_view =>
    intro w he
    split at he <;> cases he <;> exact ⟨hview, hent⟩
  case unvoted =>
    intro w o he
    split at he <;> simp at he
  case unselected =>
    intro he
    split at he <;> cases he
  case doWait =>
    intro w he
    split at he
    · rename_i hc
      cases he
      rw [hc]
      exact .inr rfl
    · cases he
  case voted_entered => exact h.voted_entered
  case selected_entered =>
    rintro w c' (hx | hx)
    · exact h.selected_entered w c' hx
    · cases hx; exact hent
  case selected_unique =>
    rintro w c1 c2 (h1 | h1) (h2 | h2)
    · exact h.selected_unique w c1 c2 h1 h2
    · cases h2; exact absurd h1 (huns c1)
    · cases h1; exact absurd h2 (huns c2)
    · cases h1; cases h2; rfl

theorem Replica.Views.adopt {tr : List Obs} {w : Nat} {b : Bool} {r : Replica} (h : r.Views tr r.id)
    (hw : r.hb.view = some w) (hs : r.status ≠ .recovering) {info info' : ViewStartInfo} (hv : info.viewNum = w)
    (hv' : info'.viewNum = w) (kvMap : KvMap) (ops : List (Nat × Op)) :
    (r.adopted info kvMap).Views
      (tr ++ (ops.map (fun p => .applied r.id p.1 p.2) ++ [.newView r.id b info'])) r.id := by
  obtain ⟨hwv, -⟩ := h.hb_view w hw
  replace h : r.Views (tr ++ ops.map (fun p => .applied r.id p.1 p.2)) r.id := h.append (fun o ho _ => by
    obtain ⟨p, -, rfl⟩ := List.mem_map.1 ho; rfl)
  rw [← List.append_assoc]
  generalize tr ++ ops.map (fun p => .applied r.id p.1 p.2) = tr' at *
  constructor <;> simp only [Replica.adopted, List.mem_append, List.mem_singleton, reduceCtorEq, or_false]
  case entered_le => exact fun _ v he => by have := h.entered_le hs v he; omega
  case newView_le =>
    rintro - b' x (hx | hx)
    · have := h.newView_le hs b' x hx; omega
    · cases hx; omega
  case voted_entered => exact h.voted_entered
  case selected_entered => exact h.selected_entered
  case selected_unique => exact h.selected_unique
  all_goals simp [HbPc.view, HbPc.undecided]

theorem Move.views {tr : List Obs} {i : Nat} {r r' : Replica} {msg : Option Msg} {sent : List Packet} {os : List Obs}
    (h : r.Views tr i) (hid : r.id = i) (hb : r.hbOk) (m : Move R tr r msg r' sent os) : r'.Views (tr ++ os) i := by
  subst hid
  have hsame : r.Views (tr ++ []) r.id := h.append (by simp)
  cases m with
  | enter sent hl hs hp hm => exact h.enter hs
  | startWait v o hw =>
    have hne : r.hb ≠ .idle := by simp [hw]
    exact { hsame with
      normal_idle := fun hn => absurd (h.normal_idle hn) hne
      newView_lt := fun hs _ => hsame.newView_lt hs hne
      hb_view := fun w he => hsame.hb_view w (by rw [hw]; exact he)
      unvoted := fun w o' he => hsame.unvoted w o' (by rcases he with he | he <;> cases he; exact .inl hw)
      unselected := fun _ => hsame.unselected (by rw [hw]; rfl)
      doWait := fun w he => (by cases he) }
  | vote v o info hw hinfo => exact h.vote hw (by rw [hinfo]) _ _
  | candidate info cnt c sent hw hc hs =>
    have hne : r.hb ≠ .idle := by simp [hw]
    exact { hsame with
      normal_idle := fun hn => absurd (h.normal_idle hn) hne
      newView_lt := fun hs _ => hsame.newView_lt hs hne
      hb_view := fun w he => hsame.hb_view w (by rw [hw]; exact he)
      unvoted := fun w o' he => (by rcases he with he | he <;> cases he)
      unselected := fun _ => hsame.unselected (by rw [hw]; rfl)
      doWait := fun w he => (by cases he) }
  | select info cnt c sent hw hs => exact h.select hw _
  | giveUpView hw =>
    exact { hsame with
      normal_idle := fun _ => rfl
      newView_lt := fun _ he => absurd rfl he
      hb_view := fun w he => (by cases he)
      unvoted := fun w o he => (by rcases he with he | he <;> cases he)
      unselected := fun he => (by cases he)
      doWait := fun w he => (by cases he) }
  | startPrimary v votes cand kvMap ops hw hv hq hc hn hR hA ha hst =>
    exact h.adopt (by rw [hw]; rfl) (hb.live (w := v) (by rw [hw]; rfl)) hn hn kvMap ops
  | startBackup v info kvMap ops hw hinfo hn hA ha hst =>
    have hview : r.hb.view = some v := by rcases hw with hw | ⟨o, hw⟩ <;> rw [hw] <;> rfl
    exact h.adopt hview (hb.live hview) hn hn kvMap ops
  | storeStart info hv hs =>
    exact { hsame with
      normal_idle := fun hn => (by cases hn)
      entered_le := fun _ => hsame.entered_le hs
      newView_le := fun _ => hsame.newView_le hs
      newView_lt := fun _ => hsame.newView_lt hs }
  | recover pc sent hs hh hm =>
    have hview : pc.view = none ∧ pc.undecided = false := by rcases hh with ⟨t, rfl⟩ | ⟨t, rfl⟩ <;> exact ⟨rfl, rfl⟩
    exact { hsame with
      normal_idle := fun hn => (by rw [hs] at hn; cases hn)
      newView_lt := fun hns => absurd hs hns
      hb_view := fun w he => (by rw [hview.1] at he; cases he)
      unvoted := fun w o he => (by rcases he with rfl | rfl <;> cases hview.1)
      unselected := fun he => (by rw [hview.2] at he; cases he)
      doWait := fun w he => (by cases he; cases hview.1) }
  | _ => exact h.keep (by simp [Obs.isView]) rfl rfl rfl

theorem Moves.views {c : Cluster} {tr : List Obs} (h : Moves n R c tr) (i : Nat) : (c.reps i).Views tr i := by
  refine (h.invariant (P := fun tr i r => r.Views tr i) (Q := fun _ _ => True) (T := fun _ _ => True)
    (fun tr os i r hos h => h.append (fun o ho hb => absurd hb (hos o ho))) (fun _ _ _ h => h) (fun _ _ _ h => h)
    (views_init n) (fun _ _ _ h => { h with }) ?_ ?_).1 i
  · intro _ tr i r flag h
    exact { h with
      normal_idle := fun hn => (by cases hn)
      entered_le := fun hn => absurd rfl hn
      newView_le := fun hn => absurd rfl hn
      newView_lt := fun hn => absurd rfl hn
      hb_view := fun w he => (by cases he)
      unvoted := fun w o he => (by rcases he with he | he <;> cases he)
      unselected := fun he => (by cases he)
      doWait := fun w he => (by cases he) }
  · intro c tr i p r' sent os hm hP _ _ _ _ m
    exact ⟨m.views (hP i) (hm.id_eq i) (hm.hbOk i), fun _ _ => trivial, fun _ _ => trivial⟩

end

end MetaDR
