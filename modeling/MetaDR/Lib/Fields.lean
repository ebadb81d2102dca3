import Mathlib.Data.List.DropRight
import MetaDR.Lib.Split
/-!
# Fields — cutting a list at a separator, and stripping a blank

Two ways to cut a list: `List.splitOn`, which cuts at every separator, and `fields`, which keeps a separator that stands
where a field starts.  A list of fields is a cut in the second sense when only the last may be empty and none has the
separator but as its first symbol (`WellCut`); joining with the separator and `fields` are inverse to one another on
these (`fields_intercalate`, `intercalate_fields`).  `strip` takes a blank symbol off both ends.
-/
namespace Fields

variable {α : Type}

/-- **Fields as `fields` leaves them.** -/
inductive WellCut (sep : α) : List (List α) → Prop where
  | last (f : List α) (h : sep ∉ f.tail) : WellCut sep [f]
  | cons (f : List α) (fs : List (List α)) (hne : f ≠ []) (h : sep ∉ f.tail) (hfs : WellCut sep fs) :
      WellCut sep (f :: fs)

variable {sep : α}

theorem WellCut.ne_nil {fs : List (List α)} (h : WellCut sep fs) : fs ≠ [] := by
  cases h <;> exact List.cons_ne_nil _ _

/-- Fields without the separator, none of them empty, are cut either way. -/
theorem wellCut_of_notMem : ∀ {fs : List (List α)}, fs ≠ [] → (∀ f ∈ fs, f ≠ [] ∧ sep ∉ f) → WellCut sep fs
  | [], hne, _ => absurd rfl hne
  | [f], _, h => .last f (fun hm => (h f List.mem_cons_self).2 (List.mem_of_mem_tail hm))
  | f :: _ :: _, _, h =>
    .cons f _ (h f List.mem_cons_self).1 (fun hm => (h f List.mem_cons_self).2 (List.mem_of_mem_tail hm))
      (wellCut_of_notMem (List.cons_ne_nil _ _) (fun x hx => h x (List.mem_cons_of_mem _ hx)))

theorem intercalate_cons {f : List α} {fs : List (List α)} (h : fs ≠ []) :
    [sep].intercalate (f :: fs) = f ++ sep :: [sep].intercalate fs := by
  rw [List.intercalate_cons_of_ne_nil h, List.append_assoc, List.singleton_append]

theorem notMem_intercalate {x : α} (hx : x ≠ sep) : ∀ {fs : List (List α)}, (∀ f ∈ fs, x ∉ f) →
    x ∉ [sep].intercalate fs
  | [], _ => List.not_mem_nil
  | f :: fs, h => by
    obtain ⟨hf, hfs⟩ := List.forall_mem_cons.1 h
    by_cases hnil : fs = []
    · rwa [hnil, List.intercalate_singleton]
    · rw [intercalate_cons hnil, List.mem_append, List.mem_cons, not_or, not_or]
      exact ⟨hf, hx, notMem_intercalate hx hfs⟩

variable [DecidableEq α]

/-- The fields of what is left of a list, `cur` being the start of the first. -/
def cut (sep : α) (cur : List α) : List α → List (List α)
  | [] => [cur]
  | c :: cs => if c = sep ∧ cur ≠ [] then cur :: cut sep [] cs else cut sep (cur ++ [c]) cs

/-- The fields of a list: a separator ends a field that has begun. -/
def fields (sep : α) (l : List α) : List (List α) := cut sep [] l

/-- A field that has begun goes on to the next separator. -/
theorem cut_append {cur f : List α} (hc : cur ≠ []) (hf : sep ∉ f) (rest : List α) :
    cut sep cur (f ++ sep :: rest) = (cur ++ f) :: cut sep [] rest := by
  induction f generalizing cur with
  | nil => simp [cut, hc]
  | cons c f ih =>
    rw [List.mem_cons, not_or] at hf
    rw [List.cons_append, cut, if_neg (fun h => hf.1 h.1.symm), ih (by simp) hf.2]
    simp

theorem cut_end {cur f : List α} (hc : cur ≠ []) (hf : sep ∉ f) : cut sep cur f = [cur ++ f] := by
  induction f generalizing cur with
  | nil => simp [cut]
  | cons c f ih =>
    rw [List.mem_cons, not_or] at hf
    rw [cut, if_neg (fun h => hf.1 h.1.symm), ih (by simp) hf.2]
    simp

theorem fields_append {f : List α} (hne : f ≠ []) (hf : sep ∉ f.tail) (rest : List α) :
    fields sep (f ++ sep :: rest) = f :: fields sep rest := by
  obtain ⟨c, f, rfl⟩ := List.exists_cons_of_ne_nil hne
  rw [fields, List.cons_append, cut, if_neg (fun h => h.2 rfl)]
  exact cut_append (by simp) hf rest

theorem fields_of_notMem {f : List α} (hf : sep ∉ f.tail) : fields sep f = [f] := by
  cases f with
  | nil => rfl
  | cons c f =>
    rw [fields, cut, if_neg (fun h => h.2 rfl)]
    exact cut_end (by simp) hf

/-- **The fields of fields joined with the separator.** -/
theorem fields_intercalate {fs : List (List α)} (h : WellCut sep fs) : fields sep ([sep].intercalate fs) = fs := by
  induction h with
  | last f hf => rw [List.intercalate_singleton, fields_of_notMem hf]
  | cons f fs hne hf hfs ih => rw [intercalate_cons hfs.ne_nil, fields_append hne hf, ih]

theorem wellCut_cut {cur : List α} (hc : sep ∉ cur.tail) (l : List α) :
    WellCut sep (cut sep cur l) ∧ [sep].intercalate (cut sep cur l) = cur ++ l := by
  induction l generalizing cur with
  | nil => exact ⟨.last cur hc, by rw [cut, List.intercalate_singleton, List.append_nil]⟩
  | cons c l ih =>
    unfold cut
    split
    · rename_i hsep
      obtain ⟨hw, hi⟩ := @ih [] List.not_mem_nil
      refine ⟨.cons cur _ hsep.2 hc hw, ?_⟩
      rw [intercalate_cons hw.ne_nil, hi, hsep.1, List.nil_append]
    · rename_i hsep
      have htail : sep ∉ (cur ++ [c]).tail := by
        cases cur with
        | nil => exact List.not_mem_nil
        | cons d cur =>
          have hne : c ≠ sep := fun h => hsep ⟨h, List.cons_ne_nil _ _⟩
          simpa using ⟨hc, hne.symm⟩
      obtain ⟨hw, hi⟩ := ih htail
      exact ⟨hw, by rw [hi, List.append_assoc, List.singleton_append]⟩

theorem wellCut_fields (l : List α) : WellCut sep (fields sep l) := (wellCut_cut List.not_mem_nil l).1

/-- **The fields joined with the separator are the list.** -/
theorem intercalate_fields (l : List α) : [sep].intercalate (fields sep l) = l :=
  (wellCut_cut List.not_mem_nil l).2

theorem fields_eq_pair {l a b : List α} :
    fields sep l = [a, b] ↔ l = a ++ sep :: b ∧ a ≠ [] ∧ sep ∉ a.tail ∧ sep ∉ b.tail := by
  constructor
  · intro h
    have hw : WellCut sep (fields sep l) := wellCut_fields l
    have hi : [sep].intercalate (fields sep l) = l := intercalate_fields l
    rw [h] at hw hi
    rw [intercalate_cons (List.cons_ne_nil _ _), List.intercalate_singleton] at hi
    cases hw with
    | cons _ _ hne ha hb =>
      cases hb with
      | last _ hb => exact ⟨hi.symm, hne, ha, hb⟩
      | cons _ _ _ _ hnil => cases hnil
  · rintro ⟨rfl, hne, ha, hb⟩
    rw [fields_append hne ha, fields_of_notMem hb]

theorem splitOn_eq_pair {l a b : List α} : l.splitOn sep = [a, b] ↔ l = a ++ sep :: b ∧ sep ∉ a ∧ sep ∉ b := by
  constructor
  · intro h
    have hi : [sep].intercalate (l.splitOn sep) = l := List.intercalate_splitOn sep
    have hno : ∀ f ∈ l.splitOn sep, sep ∉ f := fun f hf => (Split.splitOn_mem l f hf).1
    rw [h] at hi hno
    rw [intercalate_cons (List.cons_ne_nil _ _), List.intercalate_singleton] at hi
    exact ⟨hi.symm, hno a (by simp), hno b (by simp)⟩
  · rintro ⟨rfl, ha, hb⟩
    rw [List.splitOn_append_cons_self_of_not_mem ha, List.splitOn_eq_singleton hb]

/-- The list without the blanks at its ends. -/
def strip (sp : α) (l : List α) : List α :=
  (l.dropWhile (fun c => decide (c = sp))).rdropWhile (fun c => decide (c = sp))

variable {sp : α}

theorem dropWhile_append_cons {x : α} (hx : x ≠ sp) (a b : List α) :
    (a ++ x :: b).dropWhile (fun c => decide (c = sp)) = a.dropWhile (fun c => decide (c = sp)) ++ x :: b := by
  induction a with
  | nil => rw [List.nil_append, List.dropWhile_cons_of_neg (by simpa using hx)]; rfl
  | cons c a ih =>
    by_cases hc : c = sp
    · rw [List.cons_append, List.dropWhile_cons_of_pos (by simpa using hc),
        List.dropWhile_cons_of_pos (by simpa using hc), ih]
    · rw [List.cons_append, List.dropWhile_cons_of_neg (by simpa using hc),
        List.dropWhile_cons_of_neg (by simpa using hc), List.cons_append]

theorem rdropWhile_append_cons {x : α} (hx : x ≠ sp) (a b : List α) :
    (a ++ x :: b).rdropWhile (fun c => decide (c = sp)) = a ++ x :: b.rdropWhile (fun c => decide (c = sp)) := by
  rw [List.rdropWhile, List.reverse_append, List.reverse_cons, List.append_assoc, List.singleton_append,
    dropWhile_append_cons hx, List.reverse_append, List.reverse_cons, List.reverse_reverse, List.append_assoc,
    List.singleton_append, List.rdropWhile]

/-- **Stripping stops at a symbol that is no blank.** -/
theorem strip_append_cons {x : α} (hx : x ≠ sp) (a b : List α) :
    strip sp (a ++ x :: b) =
      a.dropWhile (fun c => decide (c = sp)) ++ x :: b.rdropWhile (fun c => decide (c = sp)) := by
  unfold strip
  rw [dropWhile_append_cons hx, rdropWhile_append_cons hx]

theorem strip_eq_nil {l : List α} : strip sp l = [] ↔ ∀ c ∈ l, c = sp := by
  constructor
  · intro h c hc
    by_contra hne
    obtain ⟨a, b, rfl⟩ := List.append_of_mem hc
    rw [strip_append_cons hne] at h
    simp at h
  · intro h
    unfold strip
    rw [List.dropWhile_eq_nil_iff.2 (fun c hc => by simpa using h c hc), List.rdropWhile_nil]

theorem blank_or_exists (sp : α) (l : List α) : (∀ c ∈ l, c = sp) ∨ ∃ a x b, l = a ++ x :: b ∧ x ≠ sp := by
  by_cases h : ∀ c ∈ l, c = sp
  · exact .inl h
  · simp only [not_forall] at h
    obtain ⟨x, hx, hne⟩ := h
    obtain ⟨a, b, rfl⟩ := List.append_of_mem hx
    exact .inr ⟨a, x, b, rfl, hne⟩

@[simp] theorem dropWhile_strip (l : List α) : (strip sp l).dropWhile (fun c => decide (c = sp)) = strip sp l := by
  rcases blank_or_exists sp l with h | ⟨a, x, b, rfl, hx⟩
  · rw [strip_eq_nil.2 h]
    rfl
  · rw [strip_append_cons hx, dropWhile_append_cons hx, List.dropWhile_idempotent]

@[simp] theorem rdropWhile_strip (l : List α) : (strip sp l).rdropWhile (fun c => decide (c = sp)) = strip sp l :=
  List.rdropWhile_idempotent _ _

@[simp] theorem strip_dropWhile (l : List α) : strip sp (l.dropWhile (fun c => decide (c = sp))) = strip sp l := by
  unfold strip
  rw [List.dropWhile_idempotent]

@[simp] theorem strip_rdropWhile (l : List α) : strip sp (l.rdropWhile (fun c => decide (c = sp))) = strip sp l := by
  rcases blank_or_exists sp l with h | ⟨a, x, b, rfl, hx⟩
  · rw [strip_eq_nil.2 h, List.rdropWhile_eq_nil_iff.2 (fun c hc => by simpa using h c hc)]
    rfl
  · rw [rdropWhile_append_cons hx, strip_append_cons hx, strip_append_cons hx, List.rdropWhile_idempotent]

theorem head_strip {l t : List α} {c : α} (h : strip sp l = c :: t) : c ≠ sp := by
  intro hc
  have hd : (strip sp l).dropWhile _ = strip sp l := dropWhile_strip l
  rw [h, List.dropWhile_cons_of_pos (by simpa using hc)] at hd
  have hlen := (List.dropWhile_suffix (l := t) (fun c => decide (c = sp))).length_le
  rw [hd, List.length_cons] at hlen
  omega

theorem last_strip {l t : List α} {c : α} (h : strip sp l = t ++ [c]) : c ≠ sp := by
  intro hc
  have hd : (strip sp l).rdropWhile _ = strip sp l := rdropWhile_strip l
  rw [h, List.rdropWhile_concat_pos _ _ _ (by simpa using hc)] at hd
  have hlen := (List.rdropWhile_prefix (fun c => decide (c = sp)) t).length_le
  rw [hd, List.length_append, List.length_singleton] at hlen
  omega

theorem strip_of_notMem {l : List α} (h : sp ∉ l) : strip sp l = l := by
  cases l with
  | nil => rfl
  | cons c l =>
    have hc : c ≠ sp := fun hc => h (hc ▸ List.mem_cons_self)
    have hr : l.rdropWhile (fun c => decide (c = sp)) = l :=
      List.rdropWhile_eq_self_iff.2 (fun hl => by
        rw [decide_eq_true_eq]
        exact fun he => h (List.mem_cons_of_mem _ (he ▸ List.getLast_mem hl)))
    rw [← List.nil_append (c :: l), strip_append_cons hc, hr]
    rfl

theorem strip_blanks_append {b : List α} (hb : ∀ c ∈ b, c = sp) (l : List α) : strip sp (b ++ l) = strip sp l := by
  rw [← strip_dropWhile, List.dropWhile_append_of_pos (fun c hc => by simpa using hb c hc), strip_dropWhile]

theorem strip_append_blanks {b : List α} (hb : ∀ c ∈ b, c = sp) (l : List α) : strip sp (l ++ b) = strip sp l := by
  have hr : (l ++ b).rdropWhile (fun c => decide (c = sp)) = l.rdropWhile (fun c => decide (c = sp)) := by
    rw [List.rdropWhile, List.reverse_append,
      List.dropWhile_append_of_pos (fun c hc => by simpa using hb c (List.mem_reverse.1 hc)), List.rdropWhile]
  rw [← strip_rdropWhile, hr, strip_rdropWhile]

theorem mem_strip {l : List α} {c : α} (hc : c ≠ sp) : c ∈ strip sp l ↔ c ∈ l := by
  constructor
  · exact fun h => (List.dropWhile_suffix _).mem ((List.rdropWhile_prefix _ _).mem h)
  · intro h
    obtain ⟨a, b, rfl⟩ := List.append_of_mem h
    rw [strip_append_cons hc]
    exact List.mem_append_right _ List.mem_cons_self

theorem map_strip_splitOn_dropWhile (hne : sep ≠ sp) (l : List α) :
    ((l.dropWhile (fun c => decide (c = sp))).splitOn sep).map (strip sp) = (l.splitOn sep).map (strip sp) := by
  by_cases hm : sep ∈ l
  · obtain ⟨a, b, rfl, ha⟩ := List.eq_append_cons_of_mem hm
    have ha' : sep ∉ a.dropWhile (fun c => decide (c = sp)) := fun h => ha ((List.dropWhile_suffix _).mem h)
    rw [dropWhile_append_cons hne, List.splitOn_append_cons_self_of_not_mem ha',
      List.splitOn_append_cons_self_of_not_mem ha, List.map_cons, List.map_cons, strip_dropWhile]
  · have hm' : sep ∉ l.dropWhile (fun c => decide (c = sp)) := fun h => hm ((List.dropWhile_suffix _).mem h)
    rw [List.splitOn_eq_singleton hm, List.splitOn_eq_singleton hm', List.map_singleton, List.map_singleton,
      strip_dropWhile]

theorem map_strip_splitOn_rdropWhile (hne : sep ≠ sp) (l : List α) :
    ((l.rdropWhile (fun c => decide (c = sp))).splitOn sep).map (strip sp) = (l.splitOn sep).map (strip sp) := by
  by_cases hm : sep ∈ l
  · obtain ⟨b, a, hl, hb⟩ := List.eq_append_cons_of_mem (List.mem_reverse.2 hm)
    obtain rfl : l = a.reverse ++ sep :: b.reverse := by
      rw [← List.reverse_reverse l, hl]
      simp
    have hb₁ : sep ∉ b.reverse := fun h => hb (List.mem_reverse.1 h)
    have hb₂ : sep ∉ b.reverse.rdropWhile (fun c => decide (c = sp)) :=
      fun h => hb₁ ((List.rdropWhile_prefix _ _).mem h)
    rw [rdropWhile_append_cons hne, List.splitOn_append_cons_self, List.splitOn_append_cons_self,
      List.splitOn_eq_singleton hb₁, List.splitOn_eq_singleton hb₂, List.map_append, List.map_append,
      List.map_singleton, List.map_singleton, strip_rdropWhile]
  · have hm' : sep ∉ l.rdropWhile (fun c => decide (c = sp)) := fun h => hm ((List.rdropWhile_prefix _ _).mem h)
    rw [List.splitOn_eq_singleton hm, List.splitOn_eq_singleton hm', List.map_singleton, List.map_singleton,
      strip_rdropWhile]

/-- **Blanks at the ends of a list are blanks at the ends of its parts.** -/
theorem map_strip_splitOn_strip (hne : sep ≠ sp) (l : List α) :
    ((strip sp l).splitOn sep).map (strip sp) = (l.splitOn sep).map (strip sp) :=
  (map_strip_splitOn_rdropWhile hne _).trans (map_strip_splitOn_dropWhile hne l)

end Fields
