import MetaDR.ViewChangeHandler
/-!
# Selection — which log a view starts from

The loop of `updateNewView` looks for the greatest pair of old view and op number, but keeps the op number of the
older view when it moves to a later one.  So it finds the greatest pair exactly when what it has kept by then does not
get between the infos of the latest view (`best_log_selected`).
-/
namespace MetaDR

namespace ViewChangeInfo

/-- The lexicographic order of the pairs that the loop compares. -/
def NoNewer (x y : ViewChangeInfo) : Prop :=
  x.oldViewNum < y.oldViewNum ∨ (x.oldViewNum = y.oldViewNum ∧ x.opNum ≤ y.opNum)

/-- The info has the greatest pair of all. -/
def Newest (vcInfos : List ViewChangeInfo) (x : ViewChangeInfo) : Prop := x ∈ vcInfos ∧ ∀ y ∈ vcInfos, y.NoNewer x

/-- What the loop compares. -/
def pair (x : ViewChangeInfo) : Nat × Nat := (x.oldViewNum, x.opNum)

theorem NoNewer.antisymm {x y : ViewChangeInfo} (h : x.NoNewer y) (h' : y.NoNewer x) : x.pair = y.pair := by
  unfold NoNewer at h h'
  rw [pair, pair, Prod.mk.injEq]
  omega

/-- Two lists of the same infos have one greatest pair. -/
theorem Newest.pair_eq {vcInfos vcInfos' : List ViewChangeInfo} {x y : ViewChangeInfo} (hx : Newest vcInfos x)
    (hy : Newest vcInfos' y) (hp : vcInfos.Perm vcInfos') : x.pair = y.pair :=
  (hy.2 x (hp.mem_iff.1 hx.1)).antisymm (hx.2 y (hp.mem_iff.2 hy.1))

end ViewChangeInfo

open ViewChangeInfo

/-- The loop of `updateNewView` with the info it stands at in place of the index. -/
def pickLoop : List ViewChangeInfo → ViewChangeInfo → Nat → ViewChangeInfo
  | [], candidate, _ => candidate
  | info :: rest, candidate, highestOpNum =>
    if info.oldViewNum = candidate.oldViewNum then
      if highestOpNum < info.opNum then pickLoop rest info info.opNum else pickLoop rest candidate highestOpNum
    else if candidate.oldViewNum < info.oldViewNum then pickLoop rest info highestOpNum
    else pickLoop rest candidate highestOpNum

/-- The op number the loop keeps. -/
def keptLoop : List ViewChangeInfo → ViewChangeInfo → Nat → Nat
  | [], _, highestOpNum => highestOpNum
  | info :: rest, candidate, highestOpNum =>
    if info.oldViewNum = candidate.oldViewNum then
      if highestOpNum < info.opNum then keptLoop rest info info.opNum else keptLoop rest candidate highestOpNum
    else if candidate.oldViewNum < info.oldViewNum then keptLoop rest info highestOpNum
    else keptLoop rest candidate highestOpNum

/-- The index the loop ends with is that of the info `pickLoop` ends with. -/
theorem getElem?_selectLoop (l : List ViewChangeInfo) : ∀ (rest : List ViewChangeInfo) (i idx highestOpNum : Nat)
    (candidate : ViewChangeInfo), l.drop i = rest → l[idx]? = some candidate →
      l[selectLoop rest i idx candidate.oldViewNum highestOpNum]? = some (pickLoop rest candidate highestOpNum)
  | [], i, idx, _, candidate, _, hc => hc
  | info :: rest, i, idx, highestOpNum, candidate, hd, hc => by
    have hrest : l.drop (i + 1) = rest := by rw [← List.drop_drop, hd]; rfl
    have hinfo : l[i]? = some info := by
      rw [← List.head?_drop, hd]; rfl
    rw [selectLoop, pickLoop]
    split
    · rename_i hv
      split
      · rw [← hv]
        exact getElem?_selectLoop l rest _ _ _ info hrest hinfo
      · exact getElem?_selectLoop l rest _ _ _ candidate hrest hc
    · split
      · exact getElem?_selectLoop l rest _ _ _ info hrest hinfo
      · exact getElem?_selectLoop l rest _ _ _ candidate hrest hc

theorem selectCandidate_cons (info : ViewChangeInfo) (rest : List ViewChangeInfo) :
    selectCandidate (info :: rest) = some (pickLoop rest info info.opNum) :=
  getElem?_selectLoop (info :: rest) rest 1 0 info.opNum info rfl rfl

theorem pickLoop_append : ∀ (pre rest : List ViewChangeInfo) (candidate : ViewChangeInfo) (highestOpNum : Nat),
    pickLoop (pre ++ rest) candidate highestOpNum =
      pickLoop rest (pickLoop pre candidate highestOpNum) (keptLoop pre candidate highestOpNum)
  | [], _, _, _ => rfl
  | info :: pre, rest, candidate, highestOpNum => by
    rw [List.cons_append, pickLoop, pickLoop, keptLoop]
    split
    · split <;> exact pickLoop_append pre rest _ _
    · split <;> exact pickLoop_append pre rest _ _

/-- The loop stands at an info of the latest view so far. -/
theorem oldViewNum_pickLoop : ∀ (pre : List ViewChangeInfo) (candidate : ViewChangeInfo) (highestOpNum : Nat),
    (∀ x ∈ candidate :: pre, x.oldViewNum ≤ (pickLoop pre candidate highestOpNum).oldViewNum) ∧
      pickLoop pre candidate highestOpNum ∈ candidate :: pre
  | [], candidate, _ => ⟨fun x hx => by rw [List.mem_singleton.1 hx]; exact le_refl _, List.mem_cons_self⟩
  | info :: pre, candidate, highestOpNum => by
    have hstep : ∀ (c : ViewChangeInfo) (m : Nat), (c = info ∨ c = candidate) → info.oldViewNum ≤ c.oldViewNum →
        candidate.oldViewNum ≤ c.oldViewNum →
        (∀ x ∈ candidate :: info :: pre, x.oldViewNum ≤ (pickLoop pre c m).oldViewNum) ∧
          pickLoop pre c m ∈ candidate :: info :: pre := by
      intro c m hc h1 h2
      obtain ⟨hle, hm⟩ := oldViewNum_pickLoop pre c m
      have hcle := hle c List.mem_cons_self
      refine ⟨fun x hx => ?_, ?_⟩
      · rcases List.mem_cons.1 hx with rfl | hx
        · exact h2.trans hcle
        · rcases List.mem_cons.1 hx with rfl | hx
          · exact h1.trans hcle
          · exact hle x (List.mem_cons_of_mem _ hx)
      · rcases List.mem_cons.1 hm with hm | hm
        · rw [hm]
          rcases hc with rfl | rfl <;> simp
        · exact List.mem_cons_of_mem _ (List.mem_cons_of_mem _ hm)
    unfold pickLoop
    split
    · rename_i hv
      split
      · exact hstep info _ (.inl rfl) (le_refl _) hv.ge
      · exact hstep candidate _ (.inr rfl) hv.le (le_refl _)
    · rename_i hv
      split
      · rename_i hlt
        exact hstep info _ (.inl rfl) (le_refl _) hlt.le
      · exact hstep candidate _ (.inr rfl) (by omega) (le_refl _)

/-- **The loop from the latest view on**: it stays where it is, or finds the greatest op number that is past the one it
keeps. -/
theorem pickLoop_latest : ∀ (post : List ViewChangeInfo) (candidate : ViewChangeInfo) (highestOpNum : Nat),
    (∀ x ∈ post, x.oldViewNum ≤ candidate.oldViewNum) →
      (pickLoop post candidate highestOpNum = candidate ∧
        ∀ x ∈ post, x.oldViewNum = candidate.oldViewNum → x.opNum ≤ highestOpNum) ∨
      (pickLoop post candidate highestOpNum ∈ post ∧
        (pickLoop post candidate highestOpNum).oldViewNum = candidate.oldViewNum ∧
        highestOpNum < (pickLoop post candidate highestOpNum).opNum ∧
        ∀ x ∈ post, x.oldViewNum = candidate.oldViewNum → x.opNum ≤ (pickLoop post candidate highestOpNum).opNum)
  | [], _, _, _ => .inl ⟨rfl, fun x hx => absurd hx (List.not_mem_nil)⟩
  | info :: post, candidate, highestOpNum, hle => by
    have hinfo := hle info List.mem_cons_self
    have hpost := fun x hx => hle x (List.mem_cons_of_mem _ hx)
    unfold pickLoop
    split
    · rename_i hv
      split
      · rename_i hlt
        -- the loop moves to this info, and keeps its op number
        refine .inr ?_
        rcases pickLoop_latest post info info.opNum (fun x hx => hv ▸ hpost x hx) with ⟨he, hall⟩ | ⟨hm, hov, hop, hall⟩
        · rw [he]
          refine ⟨List.mem_cons_self, hv, hlt, fun x hx hxv => ?_⟩
          rcases List.mem_cons.1 hx with rfl | hx
          · exact le_refl _
          · exact hall x hx (hxv.trans hv.symm)
        · refine ⟨List.mem_cons_of_mem _ hm, hov.trans hv, hlt.trans hop, fun x hx hxv => ?_⟩
          rcases List.mem_cons.1 hx with rfl | hx
          · exact hop.le
          · exact hall x hx (hxv.trans hv.symm)
      · rename_i hge
        rcases pickLoop_latest post candidate highestOpNum hpost with ⟨he, hall⟩ | ⟨hm, hov, hop, hall⟩
        · refine .inl ⟨he, fun x hx hxv => ?_⟩
          rcases List.mem_cons.1 hx with rfl | hx
          · exact Nat.le_of_not_lt hge
          · exact hall x hx hxv
        · refine .inr ⟨List.mem_cons_of_mem _ hm, hov, hop, fun x hx hxv => ?_⟩
          rcases List.mem_cons.1 hx with rfl | hx
          · omega
          · exact hall x hx hxv
    · rename_i hv
      rw [if_neg (by omega)]
      rcases pickLoop_latest post candidate highestOpNum hpost with ⟨he, hall⟩ | ⟨hm, hov, hop, hall⟩
      · refine .inl ⟨he, fun x hx hxv => ?_⟩
        rcases List.mem_cons.1 hx with rfl | hx
        · exact absurd hxv hv
        · exact hall x hx hxv
      · refine .inr ⟨List.mem_cons_of_mem _ hm, hov, hop, fun x hx hxv => ?_⟩
        rcases List.mem_cons.1 hx with rfl | hx
        · exact absurd hxv hv
        · exact hall x hx hxv

/-- An info whose op number the loop compares: the first of all, or one of the latest view before it. -/
def Compared (pre : List ViewChangeInfo) (x : ViewChangeInfo) : Prop :=
  ∃ a b, pre = a ++ x :: b ∧ (a = [] ∨ ((∀ y ∈ a, y.oldViewNum ≤ x.oldViewNum) ∧ ∃ y ∈ a, y.oldViewNum = x.oldViewNum))

theorem compared_concat {seen : List ViewChangeInfo} {info x : ViewChangeInfo} (hne : seen ≠ []) :
    Compared (seen ++ [info]) x ↔ Compared seen x ∨
      (x = info ∧ (∀ y ∈ seen, y.oldViewNum ≤ info.oldViewNum) ∧ ∃ y ∈ seen, y.oldViewNum = info.oldViewNum) := by
  constructor
  · rintro ⟨a, b, he, hc⟩
    rcases List.eq_nil_or_concat b with rfl | ⟨b, z, rfl⟩
    · obtain ⟨rfl, hx⟩ := List.append_inj' he rfl
      cases hx
      exact .inr ⟨rfl, hc.resolve_left hne⟩
    · rw [List.concat_eq_append, ← List.cons_append, ← List.append_assoc] at he
      exact .inl ⟨a, b, (List.append_inj' he rfl).1, hc⟩
  · rintro (⟨a, b, rfl, hc⟩ | ⟨rfl, hc⟩)
    · exact ⟨a, b ++ [info], by simp, hc⟩
    · exact ⟨seen, [], rfl, .inr hc⟩

/-- The number is the greatest that the loop compares. -/
def Kept (seen : List ViewChangeInfo) (m : Nat) : Prop :=
  (∀ x, Compared seen x → x.opNum ≤ m) ∧ ∃ x, Compared seen x ∧ x.opNum = m

theorem kept_singleton (info : ViewChangeInfo) : Kept [info] info.opNum := by
  refine ⟨?_, info, ⟨[], [], rfl, .inl rfl⟩, rfl⟩
  rintro x ⟨a, b, he, -⟩
  cases a with
  | nil => cases he; exact le_refl _
  | cons y a => simp at he

/-- **What the loop keeps** is the greatest op number that it compares. -/
theorem kept_keptLoop : ∀ (rest seen : List ViewChangeInfo) (candidate : ViewChangeInfo) (highestOpNum : Nat),
    (∀ x ∈ seen, x.oldViewNum ≤ candidate.oldViewNum) → candidate ∈ seen → Kept seen highestOpNum →
      Kept (seen ++ rest) (keptLoop rest candidate highestOpNum)
  | [], seen, _, _, _, _, hk => by rwa [List.append_nil]
  | info :: rest, seen, candidate, highestOpNum, hle, hm, ⟨hub, z, hz, hzm⟩ => by
    have hne := List.ne_nil_of_mem hm
    have hsplit : seen ++ info :: rest = (seen ++ [info]) ++ rest := by simp
    have hmem := List.mem_append_left [info] hm
    have hlast : info ∈ seen ++ [info] := List.mem_append_right _ List.mem_cons_self
    -- everything seen is of a view that the one after this info is not behind
    have hall : ∀ v, candidate.oldViewNum ≤ v → info.oldViewNum ≤ v → ∀ x ∈ seen ++ [info], x.oldViewNum ≤ v := by
      intro v h1 h2 x hx
      rcases List.mem_append.1 hx with hx | hx
      · exact (hle x hx).trans h1
      · rw [List.mem_singleton.1 hx]; exact h2
    -- an info of another view is not compared
    have hskip : info.oldViewNum ≠ candidate.oldViewNum → Kept (seen ++ [info]) highestOpNum := by
      refine fun hv => ⟨fun x hx => ?_, z, (compared_concat hne).2 (.inl hz), hzm⟩
      rcases (compared_concat hne).1 hx with hx | ⟨rfl, hsle, y, hy, hyv⟩
      · exact hub x hx
      · have h1 := hsle candidate hm
        have h2 := hle y hy
        omega
    rw [hsplit, keptLoop]
    split
    · rename_i hv
      have hcmp : Compared (seen ++ [info]) info :=
        (compared_concat hne).2 (.inr ⟨rfl, fun y hy => hv ▸ hle y hy, candidate, hm, hv.symm⟩)
      split
      · rename_i hlt
        refine kept_keptLoop rest _ _ _ (hall _ hv.ge (le_refl _)) hlast ⟨fun x hx => ?_, info, hcmp, rfl⟩
        rcases (compared_concat hne).1 hx with hx | ⟨rfl, -⟩
        · exact (hub x hx).trans hlt.le
        · exact le_refl _
      · rename_i hge
        refine kept_keptLoop rest _ _ _ (hall _ (le_refl _) hv.le) hmem
          ⟨fun x hx => ?_, z, (compared_concat hne).2 (.inl hz), hzm⟩
        rcases (compared_concat hne).1 hx with hx | ⟨rfl, -⟩
        · exact hub x hx
        · exact Nat.le_of_not_lt hge
    · rename_i hv
      split
      · rename_i hlt
        exact kept_keptLoop rest _ _ _ (hall _ hlt.le (le_refl _)) hlast (hskip hv)
      · exact kept_keptLoop rest _ _ _ (hall _ (le_refl _) (by omega)) hmem (hskip hv)

/-- The first info of the latest view, and those before and behind it. -/
structure Latest (vcInfos pre : List ViewChangeInfo) (top : ViewChangeInfo) (post : List ViewChangeInfo) : Prop where
  eq : vcInfos = pre ++ top :: post
  before : ∀ x ∈ pre, x.oldViewNum < top.oldViewNum
  behind : ∀ x ∈ post, x.oldViewNum ≤ top.oldViewNum

theorem exists_latest : ∀ {vcInfos : List ViewChangeInfo}, vcInfos ≠ [] → ∃ pre top post, Latest vcInfos pre top post
  | [], h => absurd rfl h
  | [info], _ => ⟨[], info, [], rfl, by simp, by simp⟩
  | info :: next :: rest, _ => by
    obtain ⟨pre, top, post, he, hb, hp⟩ := exists_latest (List.cons_ne_nil next rest)
    by_cases hv : info.oldViewNum < top.oldViewNum
    · refine ⟨info :: pre, top, post, by rw [he]; rfl, fun x hx => ?_, hp⟩
      rcases List.mem_cons.1 hx with rfl | hx
      · exact hv
      · exact hb x hx
    · refine ⟨[], info, next :: rest, rfl, by simp, fun x hx => ?_⟩
      rw [he] at hx
      rcases List.mem_append.1 hx with hx | hx
      · have := hb x hx; omega
      · rcases List.mem_cons.1 hx with rfl | hx
        · omega
        · have := hp x hx; omega

/-- **What the loop keeps of older views does not matter**: the latest view comes first, or one of its later infos is
not behind its first one and past every op number compared before it, or none of them is past its first one, nor past
them all. -/
def KeptAside (vcInfos : List ViewChangeInfo) : Prop :=
  ∀ pre top post, Latest vcInfos pre top post → pre = [] ∨
    (∃ y ∈ post, y.oldViewNum = top.oldViewNum ∧ top.opNum ≤ y.opNum ∧ ∀ x, Compared pre x → x.opNum < y.opNum) ∨
    (∀ y ∈ post, y.oldViewNum = top.oldViewNum → y.opNum ≤ top.opNum ∧ ∃ x, Compared pre x ∧ y.opNum ≤ x.opNum)

theorem Latest.newest_iff {vcInfos pre post : List ViewChangeInfo} {top c : ViewChangeInfo}
    (h : Latest vcInfos pre top post) : Newest vcInfos c ↔ c ∈ top :: post ∧ c.oldViewNum = top.oldViewNum ∧
      ∀ y ∈ top :: post, y.oldViewNum = top.oldViewNum → y.opNum ≤ c.opNum := by
  obtain ⟨rfl, hb, hp⟩ := h
  constructor
  · rintro ⟨hm, hall⟩
    have htop := hall top (by simp)
    have hc : c ∈ top :: post := by
      refine (List.mem_append.1 hm).resolve_left (fun hc => ?_)
      have := hb c hc
      unfold NoNewer at htop
      omega
    have hcv : c.oldViewNum = top.oldViewNum := by
      have hle : c.oldViewNum ≤ top.oldViewNum := by
        rcases List.mem_cons.1 hc with rfl | hc
        · exact le_refl _
        · exact hp c hc
      unfold NoNewer at htop
      omega
    refine ⟨hc, hcv, fun y hy hyv => ?_⟩
    have := hall y (List.mem_append_right _ hy)
    unfold NoNewer at this
    omega
  · rintro ⟨hc, hcv, hall⟩
    refine ⟨List.mem_append_right _ hc, fun y hy => ?_⟩
    unfold NoNewer
    rcases List.mem_append.1 hy with hy | hy
    · exact .inl (hcv ▸ hb y hy)
    · by_cases hyv : y.oldViewNum = top.oldViewNum
      · exact .inr ⟨hyv.trans hcv.symm, hall y hy hyv⟩
      · refine .inl (hcv ▸ lt_of_le_of_ne ?_ hyv)
        rcases List.mem_cons.1 hy with rfl | hy
        · exact le_refl _
        · exact hp y hy

/-- Where the loop ends, by what it keeps when it comes to the latest view. -/
theorem Latest.selectCandidate {vcInfos pre post : List ViewChangeInfo} {top : ViewChangeInfo}
    (h : Latest vcInfos pre top post) : ∃ m, selectCandidate vcInfos = some (pickLoop post top m) ∧
      ((pre = [] ∧ m = top.opNum) ∨ (pre ≠ [] ∧ Kept pre m)) := by
  obtain ⟨rfl, hb, -⟩ := h
  cases pre with
  | nil => exact ⟨top.opNum, selectCandidate_cons top post, .inl ⟨rfl, rfl⟩⟩
  | cons info pre =>
    refine ⟨keptLoop pre info info.opNum, ?_, .inr ⟨List.cons_ne_nil _ _, ?_⟩⟩
    · have hlt := hb _ (oldViewNum_pickLoop pre info info.opNum).2
      rw [List.cons_append, selectCandidate_cons, pickLoop_append, pickLoop, if_neg (by omega), if_pos hlt]
    · exact kept_keptLoop pre [info] info info.opNum (by simp) (by simp) (kept_singleton info)

theorem Latest.newest_pickLoop_iff {vcInfos pre post : List ViewChangeInfo} {top : ViewChangeInfo} {m : Nat}
    (h : Latest vcInfos pre top post) (hk : Kept pre m) : Newest vcInfos (pickLoop post top m) ↔
      (∃ y ∈ post, y.oldViewNum = top.oldViewNum ∧ top.opNum ≤ y.opNum ∧ ∀ x, Compared pre x → x.opNum < y.opNum) ∨
      (∀ y ∈ post, y.oldViewNum = top.oldViewNum → y.opNum ≤ top.opNum ∧ ∃ x, Compared pre x ∧ y.opNum ≤ x.opNum) := by
  obtain ⟨hub, z, hz, hzm⟩ := hk
  rw [h.newest_iff]
  rcases pickLoop_latest post top m h.behind with ⟨he, hall⟩ | ⟨hm, hov, hop, hall⟩
  · -- the loop stays at the first info of the view
    rw [he]
    constructor
    · rintro ⟨-, -, hmax⟩
      exact .inr (fun y hy hyv => ⟨hmax y (List.mem_cons_of_mem _ hy) hyv, z, hz, hzm ▸ hall y hy hyv⟩)
    · rintro (⟨y, hy, hyv, -, hx⟩ | hpost)
      · have h1 := hx z hz
        have h2 := hall y hy hyv
        omega
      · refine ⟨List.mem_cons_self, rfl, fun y hy hyv => ?_⟩
        rcases List.mem_cons.1 hy with rfl | hy
        · exact le_refl _
        · exact (hpost y hy hyv).1
  · -- the loop moves on to a later one
    constructor
    · rintro ⟨-, -, hmax⟩
      exact .inl ⟨_, hm, hov, hmax top List.mem_cons_self rfl, fun x hx => (hub x hx).trans_lt hop⟩
    · rintro (⟨y, hy, hyv, htop, -⟩ | hpost)
      · refine ⟨List.mem_cons_of_mem _ hm, hov, fun x hx hxv => ?_⟩
        rcases List.mem_cons.1 hx with rfl | hx
        · exact htop.trans (hall y hy hyv)
        · exact hall x hx hxv
      · obtain ⟨-, x, hx, hle⟩ := hpost _ hm hov
        have := hub x hx
        omega

theorem newest_selectCandidate_iff {vcInfos : List ViewChangeInfo} (hne : vcInfos ≠ []) :
    (∃ c, selectCandidate vcInfos = some c ∧ Newest vcInfos c) ↔ KeptAside vcInfos := by
  have hpick : ∀ {c d}, selectCandidate vcInfos = some d → (∃ c, selectCandidate vcInfos = some c ∧ Newest vcInfos c) →
      c = d → Newest vcInfos c := by
    rintro c d hd ⟨c', hc', hn⟩ rfl
    rw [hd] at hc'
    cases hc'
    exact hn
  constructor
  · intro hsel pre top post h
    obtain ⟨m, he, ⟨hp, -⟩ | ⟨-, hk⟩⟩ := h.selectCandidate
    · exact .inl hp
    · exact .inr ((h.newest_pickLoop_iff hk).1 (hpick he hsel rfl))
  · intro hkept
    obtain ⟨pre, top, post, h⟩ := exists_latest hne
    obtain ⟨m, he, hp⟩ := h.selectCandidate
    refine ⟨_, he, ?_⟩
    rcases hp with ⟨rfl, rfl⟩ | ⟨hp, hk⟩
    · -- the latest view comes first: the loop starts with its own op number
      rw [h.newest_iff]
      rcases pickLoop_latest post top top.opNum h.behind with ⟨he, hall⟩ | ⟨hm, hov, hop, hall⟩
      · rw [he]
        refine ⟨List.mem_cons_self, rfl, fun y hy hyv => ?_⟩
        rcases List.mem_cons.1 hy with rfl | hy
        · exact le_refl _
        · exact hall y hy hyv
      · refine ⟨List.mem_cons_of_mem _ hm, hov, fun y hy hyv => ?_⟩
        rcases List.mem_cons.1 hy with rfl | hy
        · exact hop.le
        · exact hall y hy hyv
    · exact (h.newest_pickLoop_iff hk).2 ((hkept pre top post h).resolve_left hp)

/-- **The loop of `updateNewView` finds the greatest pair** exactly when what it keeps of older views does not
matter; and then it finds the same pair in every order of the infos. -/
theorem best_log_selected {vcInfos : List ViewChangeInfo} (hne : vcInfos ≠ []) :
    ((∃ c, selectCandidate vcInfos = some c ∧ Newest vcInfos c) ↔ KeptAside vcInfos) ∧
      ∀ vcInfos', vcInfos'.Perm vcInfos → KeptAside vcInfos → KeptAside vcInfos' →
        (selectCandidate vcInfos').map pair = (selectCandidate vcInfos).map pair := by
  refine ⟨newest_selectCandidate_iff hne, fun vcInfos' hp h h' => ?_⟩
  have hne' : vcInfos' ≠ [] := fun he => hne (he ▸ hp).symm.eq_nil
  obtain ⟨c, hc, hn⟩ := (newest_selectCandidate_iff hne).2 h
  obtain ⟨c', hc', hn'⟩ := (newest_selectCandidate_iff hne').2 h'
  rw [hc, hc', Option.map_some, Option.map_some, hn'.pair_eq hn hp]

/-- An info of replica `q` without a log. -/
def ViewChangeInfo.ofPair (oldViewNum opNum q : Nat) : ViewChangeInfo := ⟨2, [], oldViewNum, opNum, opNum, q⟩

theorem best_log_selected_three : ∃ c, selectCandidate [.ofPair 1 1 0, .ofPair 0 5 1, .ofPair 1 3 2] = some c ∧
    Newest [.ofPair 1 1 0, .ofPair 0 5 1, .ofPair 1 3 2] c := by
  refine (best_log_selected (List.cons_ne_nil _ _)).1.2 (fun pre top post h => .inl ?_)
  by_contra hp
  obtain ⟨x, pre, rfl⟩ := List.exists_cons_of_ne_nil hp
  obtain ⟨he, hb, -⟩ := h
  obtain ⟨rfl, htail⟩ := List.cons_eq_cons.1 he
  have htop : top ∈ pre ++ top :: post := by simp
  rw [← List.append_eq, ← htail] at htop
  have := hb _ List.mem_cons_self
  rcases List.mem_cons.1 htop with rfl | htop
  · simp [ViewChangeInfo.ofPair] at this
  · rw [List.mem_singleton.1 htop] at this
    simp [ViewChangeInfo.ofPair] at this

/-- The op number `5` of the older view hides the `3` of the later one. -/
theorem best_log_selected_fails :
    (selectCandidate [.ofPair 0 5 0, .ofPair 1 1 1, .ofPair 1 3 2]).map pair = some (1, 1) ∧
      (selectCandidate [.ofPair 1 1 1, .ofPair 1 3 2, .ofPair 0 5 0]).map pair = some (1, 3) ∧
      ¬ ∃ c, selectCandidate [.ofPair 0 5 0, .ofPair 1 1 1, .ofPair 1 3 2] = some c ∧
        Newest [.ofPair 0 5 0, .ofPair 1 1 1, .ofPair 1 3 2] c := by
  refine ⟨rfl, rfl, ?_⟩
  rintro ⟨c, hc, -, hall⟩
  obtain rfl : ViewChangeInfo.ofPair 1 1 1 = c := Option.some.inj hc
  have := hall (.ofPair 1 3 2) (by simp)
  simp [NoNewer, ViewChangeInfo.ofPair] at this

end MetaDR
