import Mathlib.Data.List.Basic
/-!
# Codec — formats that read back what they wrote

A format writes a value as a list of symbols and reads a value off the front of one.  Two laws: a value that fits is
read back from what was written of it, and what follows is left alone; and what was read once is read again when more
symbols have come in behind.  Formats are put together from parts, and the laws with them, so a format made of these
parts needs no proof of its own.
-/

structure Codec (β α : Type*) where
  fits : α → Prop
  save : α → List β
  load : List β → Option (α × List β)
  load_save : ∀ a rest, fits a → load (save a ++ rest) = some (a, rest)
  load_append : ∀ s a rest more, load s = some (a, rest) → load (s ++ more) = some (a, rest ++ more)

namespace Codec

variable {α β γ δ : Type*}

/-- The format of nothing. -/
def void : Codec β α where
  fits := fun _ => False
  save := fun _ => []
  load := fun _ => none
  load_save := fun _ _ h => h.elim
  load_append := fun _ _ _ _ h => by cases h

/-- One value behind the other. -/
def pair (c : Codec β α) (d : Codec β γ) : Codec β (α × γ) where
  fits := fun p => c.fits p.1 ∧ d.fits p.2
  save := fun p => c.save p.1 ++ d.save p.2
  load := fun s => (c.load s).bind (fun p => (d.load p.2).map (fun q => ((p.1, q.1), q.2)))
  load_save := fun p rest h => by
    rw [List.append_assoc, c.load_save _ _ h.1, Option.bind_some, d.load_save _ _ h.2]
    rfl
  load_append := fun s p rest more h => by
    obtain ⟨⟨a, s'⟩, ha, h⟩ := Option.bind_eq_some_iff.1 h
    obtain ⟨⟨b, s''⟩, hb, h⟩ := Option.map_eq_some_iff.1 h
    cases h
    rw [c.load_append _ _ _ more ha, Option.bind_some, d.load_append _ _ _ more hb]
    rfl

/-- The values of another type, written as `f` shows them and taken back by `g`. -/
def via (c : Codec β γ) (f : α → γ) (g : γ → Option α) (hfg : ∀ a, g (f a) = some a) : Codec β α where
  fits := fun a => c.fits (f a)
  save := fun a => c.save (f a)
  load := fun s => (c.load s).bind (fun p => (g p.1).map (fun a => (a, p.2)))
  load_save := fun a rest h => by rw [c.load_save _ _ h, Option.bind_some, hfg]; rfl
  load_append := fun s a rest more h => by
    obtain ⟨⟨x, s'⟩, hx, h⟩ := Option.bind_eq_some_iff.1 h
    obtain ⟨a', ha, h⟩ := Option.map_eq_some_iff.1 h
    cases h
    rw [c.load_append _ _ _ more hx, Option.bind_some, ha]
    rfl

/-- The names of an enumeration, written as their places in its list. -/
def enum [DecidableEq α] (c : Codec β Nat) (names : List α) (h : ∀ a, a ∈ names) : Codec β α :=
  c.via (fun a => names.idxOf a) (fun x => names[x]?) (fun a => List.getElem?_idxOf (h a))

/-- The values `inj` makes; `proj` says which these are. -/
def arm (c : Codec β γ) (inj : γ → α) (proj : α → Option γ) (hinj : ∀ a x, proj a = some x → inj x = a) :
    Codec β α where
  fits := fun a => ∃ x, proj a = some x ∧ c.fits x
  save := fun a => (proj a).elim [] c.save
  load := fun s => (c.load s).map (fun p => (inj p.1, p.2))
  load_save := fun a rest h => by
    obtain ⟨x, hx, hf⟩ := h
    rw [hx, Option.elim_some, c.load_save _ _ hf, Option.map_some, hinj a x hx]
  load_append := fun s a rest more h => by
    obtain ⟨p, hp, h⟩ := Option.map_eq_some_iff.1 h
    cases h
    rw [c.load_append _ _ _ more hp, Option.map_some]

/-- A tag, and behind it what the tag says. -/
def tagged (c : Codec β γ) (tag : α → γ) (body : γ → Codec β α) : Codec β α where
  fits := fun a => c.fits (tag a) ∧ (body (tag a)).fits a
  save := fun a => c.save (tag a) ++ (body (tag a)).save a
  load := fun s => (c.load s).bind (fun p => (body p.1).load p.2)
  load_save := fun a rest h => by
    rw [List.append_assoc, c.load_save _ _ h.1, Option.bind_some, (body _).load_save _ _ h.2]
  load_append := fun s a rest more h => by
    obtain ⟨p, hp, h⟩ := Option.bind_eq_some_iff.1 h
    rw [c.load_append _ _ _ more hp, Option.bind_some, (body _).load_append _ _ _ more h]

/-- So many values one after the other. -/
def loads (c : Codec β α) : Nat → List β → Option (List α × List β)
  | 0, s => some ([], s)
  | n + 1, s => (c.load s).bind (fun p => (loads c n p.2).map (fun q => (p.1 :: q.1, q.2)))

theorem loads_save (c : Codec β α) : ∀ (xs : List α) (rest : List β), (∀ x ∈ xs, c.fits x) →
    c.loads xs.length (xs.flatMap c.save ++ rest) = some (xs, rest)
  | [], _, _ => rfl
  | x :: xs, rest, h => by
    rw [List.flatMap_cons, List.append_assoc, List.length_cons, loads, c.load_save _ _ (h x List.mem_cons_self),
      Option.bind_some, loads_save c xs rest (fun y hy => h y (List.mem_cons_of_mem _ hy))]
    rfl

theorem loads_append (c : Codec β α) : ∀ (n : Nat) (s : List β) (xs : List α) (rest more : List β),
    c.loads n s = some (xs, rest) → c.loads n (s ++ more) = some (xs, rest ++ more)
  | 0, _, _, _, _, h => by cases h; rfl
  | n + 1, s, xs, rest, more, h => by
    obtain ⟨⟨x, s'⟩, hx, h⟩ := Option.bind_eq_some_iff.1 h
    obtain ⟨⟨ys, s''⟩, hys, h⟩ := Option.map_eq_some_iff.1 h
    cases h
    rw [loads, c.load_append _ _ _ more hx, Option.bind_some, loads_append c n _ _ _ more hys]
    rfl

/-- Values one after the other, their number in front. -/
def many (len : Codec β Nat) (c : Codec β α) : Codec β (List α) where
  fits := fun xs => len.fits xs.length ∧ ∀ x ∈ xs, c.fits x
  save := fun xs => len.save xs.length ++ xs.flatMap c.save
  load := fun s => (len.load s).bind (fun p => c.loads p.1 p.2)
  load_save := fun xs rest h => by
    rw [List.append_assoc, len.load_save _ _ h.1, Option.bind_some, loads_save c xs rest h.2]
  load_append := fun s xs rest more h => by
    obtain ⟨p, hp, h⟩ := Option.bind_eq_some_iff.1 h
    rw [len.load_append _ _ _ more hp, Option.bind_some, loads_append c _ _ _ _ more h]

theorem loads_add (c : Codec β α) : ∀ (m n : Nat) (s : List β), c.loads (m + n) s =
    (c.loads m s).bind (fun p => (c.loads n p.2).map (fun q => (p.1 ++ q.1, q.2)))
  | 0, n, s => by
    rw [Nat.zero_add, loads, Option.bind_some]
    cases c.loads n s <;> rfl
  | m + 1, n, s => by
    rw [Nat.succ_add, loads, loads, Option.bind_assoc]
    congr 1
    funext p
    rw [loads_add c m n p.2]
    cases c.loads m p.2 with
    | none => rfl
    | some q => cases h : c.loads n q.2 <;> simp [h]

/-- **What is read of a stream was written on it**: when the values do not come without a symbol, whatever part of the
stream has come in, the values read off it are the first ones that were written, in order. -/
theorem eq_take_of_loads (c : Codec β α) (h0 : c.load [] = none) {xs : List α} (hxs : ∀ x ∈ xs, c.fits x)
    {s more rest : List β} (hs : s ++ more = xs.flatMap c.save) {n : Nat} {ys : List α}
    (h : c.loads n s = some (ys, rest)) : n ≤ xs.length ∧ ys = xs.take n := by
  have hn := c.loads_append n s ys rest more h
  rw [hs] at hn
  have hall : ∀ k, k ≤ xs.length → c.loads k (xs.flatMap c.save) = some (xs.take k, (xs.drop k).flatMap c.save) := by
    intro k hk
    have := c.loads_save (xs.take k) ((xs.drop k).flatMap c.save) (fun x hx => hxs x (List.mem_of_mem_take hx))
    rwa [← List.flatMap_append, List.take_append_drop, List.length_take, Nat.min_eq_left hk] at this
  by_cases hle : n ≤ xs.length
  · rw [hall n hle, Option.some.injEq, Prod.mk.injEq] at hn
    exact ⟨hle, hn.1.symm⟩
  · -- behind the last value there is no symbol to read another one from
    obtain ⟨k, rfl⟩ := Nat.exists_eq_add_of_lt (Nat.lt_of_not_le hle)
    rw [Nat.add_assoc, c.loads_add, hall _ (Nat.le_refl _), List.drop_length, Option.bind_some] at hn
    simp [loads, h0] at hn

end Codec
