import Mathlib.Data.List.Basic
/-!
# Split — separators, pieces and spellings

A list over any alphabet with one separator symbol: its non-empty pieces (`pieces`), the spelling that puts exactly one
separator before each piece (`join`), and the list with every run of separators shrunk to its first (`squeeze`).  The
three are related by `join_pieces`: a list that starts with the separator and does not end in it squeezes to the join of
its pieces, so its pieces decide its squeezed form.
-/
namespace Split

variable {α : Type}

/-- One separator before each piece. -/
def join (sep : α) (ps : List (List α)) : List α := ps.flatMap (sep :: ·)

/-- A list of pieces that no separator occurs in and of which none is empty. -/
def Proper (sep : α) (ps : List (List α)) : Prop := ∀ p ∈ ps, p ≠ [] ∧ sep ∉ p

variable {sep : α}

@[simp] theorem join_nil : join sep ([] : List (List α)) = [] := rfl

@[simp] theorem join_cons (p : List α) (ps : List (List α)) : join sep (p :: ps) = sep :: (p ++ join sep ps) := rfl

theorem join_append (ps qs : List (List α)) : join sep (ps ++ qs) = join sep ps ++ join sep qs := List.flatMap_append

theorem join_snoc (ps : List (List α)) (p : List α) : join sep (ps ++ [p]) = join sep ps ++ sep :: p := by
  rw [join_append]; simp

theorem join_eq_nil {ps : List (List α)} : join sep ps = [] ↔ ps = [] := by cases ps <;> simp

theorem Proper.of_cons {p : List α} {ps : List (List α)} (h : Proper sep (p :: ps)) : Proper sep ps :=
  fun q hq => h q (List.mem_cons_of_mem _ hq)

/-- A list is empty, starts with the separator, or starts with a word that a separator or the end follows. -/
theorem word_cases : ∀ (s : List α), s = [] ∨ (∃ t, s = sep :: t) ∨
    ∃ w t, w ≠ [] ∧ sep ∉ w ∧ s = w ++ t ∧ (t = [] ∨ ∃ u, t = sep :: u)
  | [] => .inl rfl
  | c :: cs => by
    right
    by_cases hc : c = sep
    · exact .inl ⟨cs, by rw [hc]⟩
    · right
      rcases word_cases cs with rfl | ⟨t, rfl⟩ | ⟨w, t, -, hw, rfl, ht⟩
      · exact ⟨[c], [], by simp, by simpa using Ne.symm hc, by simp, .inl rfl⟩
      · exact ⟨[c], sep :: t, by simp, by simpa using Ne.symm hc, by simp, .inr ⟨t, rfl⟩⟩
      · exact ⟨c :: w, t, by simp, by simp [Ne.symm hc, hw], by simp, ht⟩

theorem getLast?_ne_of_cons {c d : α} {cs : List α} (h : (c :: cs).getLast? ≠ some d) : cs.getLast? ≠ some d := by
  cases cs with
  | nil => simp
  | cons e es => simpa using h

/-- The last separator of a list is where it is. -/
theorem last_sep_inj {a a' b b' : List α} (hb : sep ∉ b) (hb' : sep ∉ b') (h : a ++ sep :: b = a' ++ sep :: b') :
    a = a' ∧ b = b' := by
  rcases List.append_eq_append_iff.1 h with ⟨c, hc, hd⟩ | ⟨c, hc, hd⟩
  · cases c with
    | nil => simp_all
    | cons x c =>
      rw [List.cons_append, List.cons.injEq] at hd
      exact absurd (hd.2 ▸ by simp) hb
  · cases c with
    | nil => simp_all
    | cons x c =>
      rw [List.cons_append, List.cons.injEq] at hd
      exact absurd (hd.2 ▸ by simp) hb'

/-- **A joined list cut in front of a separator** is cut between two pieces. -/
theorem join_cut : ∀ {ps : List (List α)}, Proper sep ps → ∀ {a b : List α}, join sep ps = a ++ sep :: b →
    ∃ qs rs, ps = qs ++ rs ∧ a = join sep qs ∧ sep :: b = join sep rs
  | [], _, a, b, h => by simp at h
  | p :: ps, hp, [], b, h => ⟨[], p :: ps, rfl, rfl, h.symm⟩
  | p :: ps, hp, c :: a, b, h => by
    rw [join_cons, List.cons_append, List.cons.injEq] at h
    obtain ⟨rfl, h⟩ := h
    rcases List.append_eq_append_iff.1 h with ⟨d, rfl, hd⟩ | ⟨d, rfl, hd⟩
    · obtain ⟨qs, rs, rfl, rfl, hb⟩ := join_cut hp.of_cons hd
      exact ⟨p :: qs, rs, rfl, by simp, hb⟩
    · cases d with
      | nil => exact ⟨[a], ps, by simp, by simp, hd⟩
      | cons x d =>
        -- the separator would be in the piece
        rw [List.cons_append, List.cons.injEq] at hd
        exact absurd (by simp [hd.1]) (hp _ List.mem_cons_self).2

variable [DecidableEq α]

/-- The non-empty pieces between separators. -/
def pieces (sep : α) (s : List α) : List (List α) := (s.splitOn sep).filter (fun p => decide (p ≠ []))

/-- Every run of separators shrunk to one; `prev` says whether the symbol before the list was a separator. -/
def squeeze (sep : α) : Bool → List α → List α
  | _, [] => []
  | prev, c :: cs =>
    if c = sep then (if prev then squeeze sep true cs else c :: squeeze sep true cs) else c :: squeeze sep false cs

theorem length_squeeze_le : ∀ (prev : Bool) (s : List α), (squeeze sep prev s).length ≤ s.length
  | _, [] => Nat.le_refl _
  | prev, c :: cs => by
    have ht := length_squeeze_le true cs
    have hf := length_squeeze_le false cs
    unfold squeeze
    split
    · split
      · exact Nat.le_succ_of_le ht
      · exact Nat.succ_le_succ ht
    · exact Nat.succ_le_succ hf

@[simp] theorem pieces_nil : pieces sep ([] : List α) = [] := by simp [pieces]

@[simp] theorem pieces_sep (s : List α) : pieces sep (sep :: s) = pieces sep s := by
  simp [pieces, List.splitOn_cons_eq_if_modifyHead]

theorem pieces_word {w : List α} (hw : w ≠ []) (h : sep ∉ w) : pieces sep w = [w] := by
  simp [pieces, List.splitOn_eq_singleton h, hw]

theorem pieces_word_sep {w : List α} (hw : w ≠ []) (h : sep ∉ w) (s : List α) :
    pieces sep (w ++ sep :: s) = w :: pieces sep s := by
  simp [pieces, List.splitOn_append_cons_self_of_not_mem h, hw]

theorem splitOn_mem : ∀ (s : List α), ∀ p ∈ s.splitOn sep, sep ∉ p ∧ ∀ c ∈ p, c ∈ s
  | [] => by simp
  | d :: ds => by
    intro p hp
    rw [List.splitOn_cons_eq_if_modifyHead] at hp
    have ih := splitOn_mem ds
    by_cases hd : d = sep
    · simp only [hd, beq_self_eq_true, if_true, List.mem_cons] at hp
      rcases hp with rfl | hp
      · simp
      · exact ⟨(ih p hp).1, fun c hc => List.mem_cons_of_mem _ ((ih p hp).2 c hc)⟩
    · have hb : (d == sep) = false := by simpa using hd
      simp only [hb, Bool.false_eq_true, if_false] at hp
      cases hs : ds.splitOn sep with
      | nil => exact absurd hs (List.splitOn_ne_nil sep ds)
      | cons q qs =>
        rw [hs] at hp ih
        rcases List.mem_cons.1 hp with rfl | hp
        · obtain ⟨h1, h2⟩ := ih q (by simp)
          refine ⟨by simp [Ne.symm hd, h1], fun c hc => ?_⟩
          rcases List.mem_cons.1 hc with rfl | hc
          · simp
          · exact List.mem_cons_of_mem _ (h2 c hc)
        · obtain ⟨h1, h2⟩ := ih p (by simp [hp])
          exact ⟨h1, fun c hc => List.mem_cons_of_mem _ (h2 c hc)⟩

theorem mem_of_mem_pieces {s p : List α} (hp : p ∈ pieces sep s) {c : α} (hc : c ∈ p) : c ∈ s :=
  (splitOn_mem s p (List.mem_filter.1 hp).1).2 c hc

theorem mem_splitOn_of_mem {c : α} (hc : c ≠ sep) : ∀ {s : List α}, c ∈ s → ∃ p ∈ s.splitOn sep, c ∈ p
  | d :: ds, h => by
    rw [List.splitOn_cons_eq_if_modifyHead]
    by_cases hd : d = sep
    · have hm : c ∈ ds := (List.mem_cons.1 h).resolve_left (fun he => hc (he.trans hd))
      obtain ⟨p, hp, hcp⟩ := mem_splitOn_of_mem hc hm
      exact ⟨p, by simp [hd, hp], hcp⟩
    · have hb : (d == sep) = false := by simpa using hd
      cases hs : ds.splitOn sep with
      | nil => exact absurd hs (List.splitOn_ne_nil sep ds)
      | cons q qs =>
        simp only [hb, Bool.false_eq_true, if_false, List.modifyHead_cons]
        rcases List.mem_cons.1 h with rfl | hm
        · exact ⟨c :: q, by simp, by simp⟩
        · obtain ⟨p, hp, hcp⟩ := mem_splitOn_of_mem hc hm
          rw [hs] at hp
          rcases List.mem_cons.1 hp with rfl | hp
          · exact ⟨d :: p, by simp, by simp [hcp]⟩
          · exact ⟨p, by simp [hp], hcp⟩

theorem mem_pieces_of_mem {s : List α} {c : α} (h : c ∈ s) (hc : c ≠ sep) : ∃ p ∈ pieces sep s, c ∈ p := by
  obtain ⟨p, hp, hcp⟩ := mem_splitOn_of_mem hc h
  exact ⟨p, List.mem_filter.2 ⟨hp, by simpa using List.ne_nil_of_mem hcp⟩, hcp⟩

/-- **The pieces are non-empty and free of the separator.** -/
theorem pieces_proper (s : List α) : Proper sep (pieces sep s) := by
  intro p hp
  obtain ⟨hp1, hp2⟩ := List.mem_filter.1 hp
  exact ⟨by simpa using hp2, (splitOn_mem s p hp1).1⟩

/-- **Splitting a joined list gives its pieces back.** -/
theorem pieces_join : ∀ {ps : List (List α)}, Proper sep ps → pieces sep (join sep ps) = ps
  | [], _ => by simp
  | p :: ps, h => by
    obtain ⟨hp1, hp2⟩ := h p (by simp)
    rw [join_cons, pieces_sep]
    cases ps with
    | nil => simpa using pieces_word hp1 hp2
    | cons q qs =>
      have ih := pieces_join h.of_cons
      rw [join_cons, pieces_sep] at ih
      rw [join_cons, pieces_word_sep hp1 hp2, ih]

theorem join_inj {ps qs : List (List α)} (hp : Proper sep ps) (hq : Proper sep qs) (h : join sep ps = join sep qs) :
    ps = qs := by
  rw [← pieces_join hp, h, pieces_join hq]

theorem squeeze_word_append (b : Bool) : ∀ {w : List α}, sep ∉ w → w ≠ [] → ∀ s,
    squeeze sep b (w ++ s) = w ++ squeeze sep false s
  | [], _, hw, _ => absurd rfl hw
  | c :: cs, h, _, s => by
    simp only [List.mem_cons, not_or] at h
    rw [List.cons_append, squeeze, if_neg (Ne.symm h.1)]
    cases cs with
    | nil => simp
    | cons d ds => rw [squeeze_word_append false h.2 (by simp)]; simp

/-- **Behind a separator, a non-empty list that does not end in one squeezes to the join of its pieces**, less the
join's own first separator. -/
theorem squeeze_true_eq (s : List α) (hs : s ≠ []) (hl : s.getLast? ≠ some sep) :
    pieces sep s ≠ [] ∧ sep :: squeeze sep true s = join sep (pieces sep s) := by
  induction hn : s.length using Nat.strongRecOn generalizing s with
  | _ n ih =>
    rcases @word_cases α sep s with rfl | ⟨t, rfl⟩ | ⟨w, t, hw, hws, rfl, ht⟩
    · exact absurd rfl hs
    · have ht : t ≠ [] := by rintro rfl; simp at hl
      have := ih t.length (by simp at hn; omega) t ht (getLast?_ne_of_cons hl) rfl
      simpa [squeeze] using this
    · rw [squeeze_word_append true hws hw]
      rcases ht with rfl | ⟨u, rfl⟩
      · simp [squeeze, pieces_word hw hws]
      · have hu : u ≠ [] := by rintro rfl; simp at hl
        have hlu : u.getLast? ≠ some sep := by
          rw [List.getLast?_append, List.getLast?_cons] at hl
          cases hg : u.getLast? with
          | none => simp
          | some d => simpa [hg] using hl
        obtain ⟨-, h⟩ := ih u.length (by simp at hn; omega) u hu hlu rfl
        simp [squeeze, pieces_word_sep hw hws, h]

/-- **A list that starts with the separator and does not end in it squeezes to the join of its pieces.** -/
theorem squeeze_eq_join {s : List α} (hh : s.head? = some sep) (hl : s.getLast? ≠ some sep) :
    pieces sep s ≠ [] ∧ squeeze sep false s = join sep (pieces sep s) := by
  cases s with
  | nil => simp at hh
  | cons c cs =>
    simp only [List.head?_cons, Option.some.injEq] at hh
    subst hh
    have hcs : cs ≠ [] := by rintro rfl; simp at hl
    simpa [squeeze] using squeeze_true_eq cs hcs (getLast?_ne_of_cons hl)

end Split
