import MetaDR.Lib.Wildcard
import MetaDR.Children
/-!
# ServerDb — the store on SQLite (server/serverdb.cc)

A row of `kvpair` has its key and the slash count stored with it; the column `value` is left out, since no condition
reads it.  A key or a value is put between the quotes of a statement as it is.  What SQLite makes of a statement whose
quotes end early is the parameter `torn`; any other changes the table as it says, and one that fails leaves the
transaction open, so that no later `BEGIN` succeeds (`set_began`).

`list` asks for the keys like the path, `'/'` and `'%'` that are one slash deeper.  The count keeps `'%'` from taking a
slash, and `'_'` from standing for one (`resembles_iff`); what is left is that `LIKE` takes the two cases of a letter
for one, and a `'_'` of the path for any word character: `list` gives the children of every path that resembles the one
asked for (`Sound.mem_list`).
-/
namespace MetaDR

/-- `'%'` and `'_'`. -/
def percent : UInt8 := 37
def underscore : UInt8 := 95

/-- A capital letter's small one. -/
def foldCase (c : UInt8) : UInt8 := if 65 ≤ c.toNat ∧ c.toNat ≤ 90 then c + 32 else c

/-- `s LIKE pat`. -/
def like (pat s : Str) : Bool := Wildcard.fits percent underscore foldCase pat s

def dirDepth (path : Str) : Nat := path.count slash

structure Row where
  key : Str
  depth : Nat
  deriving DecidableEq, Repr

/-- The table `kvpair`; the key is its primary key. -/
structure ServerDB where
  rows : List Row
  primaryKey : (rows.map (·.key)).Nodup
  /-- a transaction is open -/
  began : Bool

/-- The statements of `sqlexec`, by what stands for each `%s` and `%d`. -/
inductive Stmt where
  | begin
  | commit
  | insert (path val : Str) (depth : Nat)
  | update (val path : Str)
  | delete (path : Str)
  deriving DecidableEq, Repr

/-- What is put between quotes. -/
def Stmt.quoted : Stmt → List Str
  | begin => []
  | commit => []
  | insert path val _ => [path, val]
  | update val path => [val, path]
  | delete path => [path]

/-- `'"'`. -/
def quote : UInt8 := 34

/-- The quotes of the statement are its own. -/
def Stmt.whole (stmt : Stmt) : Bool := stmt.quoted.all (fun s => decide (quote ∉ s))

namespace ServerDB

/-- `create`. -/
def create : ServerDB := ⟨[], List.nodup_nil, false⟩

def hasKey (db : ServerDB) (path : Str) : Bool := db.rows.any (fun row => decide (row.key = path))

theorem hasKey_iff {db : ServerDB} {path : Str} : db.hasKey path = true ↔ ∃ row ∈ db.rows, row.key = path := by
  simp [hasKey]

theorem primaryKey_insert {db : ServerDB} {path : Str} (h : db.hasKey path ≠ true) (depth : Nat) :
    ((db.rows ++ [Row.mk path depth]).map (·.key)).Nodup := by
  rw [List.map_append, List.map_singleton]
  refine List.Nodup.append db.primaryKey (List.nodup_singleton _) (List.disjoint_singleton.2 (fun hm => h ?_))
  obtain ⟨row, hrow, rfl⟩ := List.mem_map.1 hm
  exact hasKey_iff.2 ⟨row, hrow, rfl⟩

/-- What SQLite makes of a whole statement. -/
def exec (db : ServerDB) : Stmt → Except Fault ServerDB
  | .begin => if db.began = true then .error .runtimeError else .ok { db with began := true }
  | .commit => if db.began = true then .ok { db with began := false } else .error .runtimeError
  | .insert path _ depth =>
    if h : db.hasKey path = true then .error .runtimeError
    else .ok { db with rows := db.rows ++ [⟨path, depth⟩], primaryKey := primaryKey_insert h depth }
  | .update _ _ => .ok db
  | .delete path => .ok { db with
      rows := db.rows.filter (fun row => decide (row.key ≠ path))
      primaryKey := db.primaryKey.sublist (List.filter_sublist.map _) }

section

variable (torn : Stmt → ServerDB → Except Fault Unit × ServerDB)

/-- `sqlexec` of one statement after the other, until one throws. -/
def sqlexec : List Stmt → ServerDB → Except Fault Unit × ServerDB
  | [], db => (.ok (), db)
  | stmt :: stmts, db =>
    if stmt.whole = true then
      match db.exec stmt with
      | .ok db' => sqlexec stmts db'
      | .error e => (.error e, db)
    else
      match torn stmt db with
      | (.ok (), db') => sqlexec stmts db'
      | (.error e, db') => (.error e, db')

/-- `set`: whether the key was there, or the exception. -/
def set (db : ServerDB) (path val : Str) : Except Fault Bool × ServerDB :=
  let update := db.hasKey path
  let stmt := if update = true then .update val path else .insert path val (dirDepth path)
  let (res, db') := sqlexec torn [.begin, stmt, .commit] db
  (res.map (fun _ => update), db')

def remove (db : ServerDB) (path : Str) : Except Fault Unit × ServerDB :=
  if db.hasKey path = false then (.error .runtimeError, db)
  else sqlexec torn [.begin, .delete path, .commit] db

end

def list (db : ServerDB) (path : Str) : Finset Str :=
  let depth := dirDepth path + 1
  ((db.rows.filter (fun row => like (path ++ [slash, percent]) row.key && decide (row.depth = depth))).map
    (·.key)).toFinset

inductive Call where
  | set (path val : Str)
  | remove (path : Str)
  deriving DecidableEq, Repr

namespace Call

def path : Call → Str
  | set path _ => path
  | remove path => path

/-- The call is on a canonical key, and no value ends its quotes. -/
def Clean : Call → Prop
  | set path val => Canonical path ∧ quote ∉ val
  | remove path => Canonical path

/-- A call, and the table behind it. -/
def run (torn : Stmt → ServerDB → Except Fault Unit × ServerDB) (db : ServerDB) : Call → ServerDB
  | set path val => (db.set torn path val).2
  | remove path => (db.remove torn path).2

end Call

def runAll (torn : Stmt → ServerDB → Except Fault Unit × ServerDB) (calls : List Call) : ServerDB :=
  calls.foldl (Call.run torn) create

end ServerDB

open ServerDB (Call runAll)

/-- The keys that calls leave stored. -/
def storedBy (stored : Finset Str) : Call → Finset Str
  | .set path _ => insert path stored
  | .remove path => stored.erase path

def storedKeys (calls : List Call) : Finset Str := calls.foldl storedBy ∅

/-- **`list` gives the children**: the stored keys that are the path, a slash and a component. -/
def ListsStored (torn : Stmt → ServerDB → Except Fault Unit × ServerDB) (calls : List Call) (p : Str) : Prop :=
  ∀ key, key ∈ (runAll torn calls).list p ↔ key ∈ storedKeys calls ∧ IsChild p key

/-- `q` has the same letter as `p` wherever `p` has one, up to its case, and a word character where `p` has `'_'`. -/
def Resembles (p q : Str) : Prop :=
  List.Forall₂ (fun c d => (c = underscore ∧ d ≠ slash) ∨ foldCase c = foldCase d) p q

/-- **No look-alike**: no stored key is the child of another path that resembles `p`. -/
def NoLookalike (calls : List Call) (p : Str) : Prop :=
  ∀ key ∈ storedKeys calls, ∀ q, IsChild q key → Resembles p q → q = p

/-- A table that holds the keys, each canonical and with its own depth, and no transaction open. -/
structure ServerDB.Sound (db : ServerDB) (stored : Finset Str) : Prop where
  keys : ∀ key, db.hasKey key = true ↔ key ∈ stored
  canonical : ∀ row ∈ db.rows, Canonical row.key
  depth : ∀ row ∈ db.rows, row.depth = dirDepth row.key
  began : db.began = false

theorem Canonical.quote_notMem {p : Str} (hp : Canonical p) : quote ∉ p := fun hm => by
  rcases hp.chars _ hm with h | h <;> revert h <;> decide

namespace ServerDB

variable {torn : Stmt → ServerDB → Except Fault Unit × ServerDB} {db : ServerDB} {stored : Finset Str}

/-- **A transaction left open** makes every `set` throw, and none changes anything. -/
theorem set_began (h : db.began = true) (path val : Str) : db.set torn path val = (.error .runtimeError, db) := by
  have hb : Stmt.whole .begin = true := rfl
  simp [ServerDB.set, sqlexec, hb, exec, h, Except.map]

/-- A whole statement in a transaction of its own. -/
theorem sqlexec_alone (hb : db.began = false) {stmt : Stmt} (hw : stmt.whole = true) {db' : ServerDB}
    (hs : exec { db with began := true } stmt = .ok db') (hb' : db'.began = true) :
    sqlexec torn [.begin, stmt, .commit] db = (.ok (), { db' with began := false }) := by
  have hbegin : Stmt.whole .begin = true := rfl
  have hcommit : Stmt.whole .commit = true := rfl
  have hstart : db.exec .begin = .ok { db with began := true } := by simp [exec, hb]
  have hend : db'.exec .commit = .ok { db' with began := false } := by simp [exec, hb']
  simp only [sqlexec, hbegin, hw, hcommit, if_true, hstart, hs, hend]

/-- **`set` on a clean call** adds the key, if it is not there, with its depth. -/
theorem set_eq (hb : db.began = false) {path val : Str} (hp : quote ∉ path) (hv : quote ∉ val) :
    db.set torn path val =
      (.ok (db.hasKey path),
        if h : db.hasKey path = true then db
        else { db with rows := db.rows ++ [⟨path, dirDepth path⟩], primaryKey := primaryKey_insert h _ }) := by
  unfold ServerDB.set
  by_cases hk : db.hasKey path = true
  · have hw : (Stmt.update val path).whole = true := by simp [Stmt.whole, Stmt.quoted, hp, hv]
    rw [dif_pos hk]
    simp only [hk, if_true, sqlexec_alone hb hw (rfl : exec _ (.update val path) = _) rfl]
    cases db
    simp_all [Except.map]
  · have hw : (Stmt.insert path val (dirDepth path)).whole = true := by simp [Stmt.whole, Stmt.quoted, hp, hv]
    have hs : exec { db with began := true } (.insert path val (dirDepth path)) = .ok
        { db with
          rows := db.rows ++ [⟨path, dirDepth path⟩]
          primaryKey := primaryKey_insert hk _
          began := true } := dif_neg hk
    rw [dif_neg hk]
    simp only [hk, Bool.false_eq_true, if_false, sqlexec_alone hb hw hs rfl]
    cases db
    simp_all [Except.map]

/-- **`remove` on a clean call** throws or drops the key. -/
theorem remove_snd (hb : db.began = false) {path : Str} (hp : quote ∉ path) :
    (db.remove torn path).2 =
      if db.hasKey path = false then db
      else { db with
        rows := db.rows.filter (fun row => decide (row.key ≠ path))
        primaryKey := db.primaryKey.sublist (List.filter_sublist.map _) } := by
  unfold ServerDB.remove
  split
  · rfl
  · have hw : (Stmt.delete path).whole = true := by simp [Stmt.whole, Stmt.quoted, hp]
    simp only [sqlexec_alone hb hw (rfl : exec _ (.delete path) = _) rfl]
    cases db
    simp_all

theorem Sound.set (h : db.Sound stored) {path val : Str} (hp : Canonical path) (hv : quote ∉ val) :
    (db.set torn path val).2.Sound (insert path stored) := by
  rw [set_eq h.began hp.quote_notMem hv]
  dsimp only
  split
  · rename_i hk
    exact ⟨fun key => by rw [h.keys, Finset.insert_eq_of_mem ((h.keys path).1 hk)], h.canonical, h.depth, h.began⟩
  · refine ⟨fun key => ?_, fun row hm => ?_, fun row hm => ?_, h.began⟩
    · rw [Finset.mem_insert, ← h.keys, hasKey_iff, hasKey_iff]
      simp [or_and_right, exists_or, or_comm, eq_comm]
    · rcases List.mem_append.1 hm with hm | hm
      · exact h.canonical row hm
      · exact List.mem_singleton.1 hm ▸ hp
    · rcases List.mem_append.1 hm with hm | hm
      · exact h.depth row hm
      · exact List.mem_singleton.1 hm ▸ rfl

theorem Sound.remove (h : db.Sound stored) {path : Str} (hp : Canonical path) :
    (db.remove torn path).2.Sound (stored.erase path) := by
  rw [remove_snd h.began hp.quote_notMem]
  by_cases hk : db.hasKey path = false
  · rw [if_pos hk]
    have hno : path ∉ stored := fun hm => by
      rw [(h.keys path).2 hm] at hk
      cases hk
    rwa [Finset.erase_eq_of_notMem hno]
  · rw [if_neg hk]
    refine ⟨fun key => ?_, fun row hm => h.canonical row (List.mem_of_mem_filter hm),
      fun row hm => h.depth row (List.mem_of_mem_filter hm), h.began⟩
    rw [Finset.mem_erase, ← h.keys, hasKey_iff, hasKey_iff]
    constructor
    · rintro ⟨row, hm, rfl⟩
      obtain ⟨hm, hne⟩ := List.mem_filter.1 hm
      exact ⟨of_decide_eq_true hne, row, hm, rfl⟩
    · rintro ⟨hne, row, hm, rfl⟩
      exact ⟨row, List.mem_filter.2 ⟨hm, decide_eq_true hne⟩, rfl⟩

theorem Sound.run (h : db.Sound stored) {call : Call} (hc : call.Clean) :
    (call.run torn db).Sound (storedBy stored call) := by
  cases call with
  | set path val => exact h.set hc.1 hc.2
  | remove path => exact h.remove hc

/-- **The table after any calls** holds the keys they leave stored. -/
theorem sound_runAll (torn : Stmt → ServerDB → Except Fault Unit × ServerDB) {calls : List Call}
    (hc : ∀ call ∈ calls, call.Clean) : (runAll torn calls).Sound (storedKeys calls) := by
  have hrun : ∀ (calls : List Call) (db : ServerDB) (stored : Finset Str), (∀ call ∈ calls, call.Clean) →
      db.Sound stored → (calls.foldl (Call.run torn) db).Sound (calls.foldl storedBy stored) := by
    intro calls
    induction calls with
    | nil => exact fun _ _ _ h => h
    | cons call calls ih =>
      intro db stored hc h
      obtain ⟨hcall, hcalls⟩ := List.forall_mem_cons.1 hc
      exact ih _ _ hcalls (h.run hcall)
  exact hrun calls _ _ hc ⟨fun key => by simp [create, hasKey], fun _ hm => absurd hm List.not_mem_nil,
    fun _ hm => absurd hm List.not_mem_nil, rfl⟩

end ServerDB

theorem foldCase_eq_slash {c : UInt8} : foldCase c = slash ↔ c = slash := by
  unfold foldCase
  split
  · rename_i hc
    have hnat : (c + 32).toNat = c.toNat + 32 := by
      rw [UInt8.toNat_add]
      exact Nat.mod_eq_of_lt (by show c.toNat + 32 < 256; omega)
    have hs : slash.toNat = 47 := rfl
    rw [← UInt8.toNat_inj, ← UInt8.toNat_inj, hnat, hs]
    omega
  · exact Iff.rfl

/-- What `'_'` or a letter stands for is a slash only where there is no resemblance. -/
theorem stands_cases {c d : UInt8} (h : Wildcard.Stands underscore foldCase c d) :
    (((c = underscore ∧ d ≠ slash) ∨ foldCase c = foldCase d) ∧ (c = slash ↔ d = slash)) ∨
      (¬((c = underscore ∧ d ≠ slash) ∨ foldCase c = foldCase d) ∧ c ≠ slash ∧ d = slash) := by
  by_cases hf : foldCase c = foldCase d
  · exact .inl ⟨.inr hf, by rw [← foldCase_eq_slash, hf, foldCase_eq_slash]⟩
  · obtain rfl := h.resolve_right hf
    by_cases hd : d = slash
    · exact .inr ⟨fun h => h.elim (fun h => h.2 hd) hf, by decide, hd⟩
    · exact .inl ⟨.inl ⟨rfl, hd⟩, iff_of_false (by decide) hd⟩

theorem dirDepth_cons (c : UInt8) (s : Str) : dirDepth (c :: s) = dirDepth s + if c = slash then 1 else 0 := by
  simp [dirDepth, List.count_cons]

theorem dirDepth_le {p q : Str} (h : List.Forall₂ (Wildcard.Stands underscore foldCase) p q) :
    dirDepth p ≤ dirDepth q := by
  induction h with
  | nil => exact Nat.le_refl _
  | cons hcd _ ih =>
    rw [dirDepth_cons, dirDepth_cons]
    obtain ⟨-, hs⟩ | ⟨-, hc, -⟩ := stands_cases hcd
    · simp only [hs]
      omega
    · rw [if_neg hc]
      omega

/-- **The depths tell**: what `LIKE` takes for the path resembles it when it has no more slashes. -/
theorem resembles_iff {p q : Str} :
    Resembles p q ↔ List.Forall₂ (Wildcard.Stands underscore foldCase) p q ∧ dirDepth q = dirDepth p := by
  constructor
  · intro h
    induction h with
    | nil => exact ⟨.nil, rfl⟩
    | @cons c d p q hcd _ ih =>
      have hst : Wildcard.Stands underscore foldCase c d := hcd.imp And.left id
      obtain ⟨-, hs⟩ | ⟨hno, -⟩ := stands_cases hst
      · exact ⟨.cons hst ih.1, by simp only [dirDepth_cons, hs, ih.2]⟩
      · exact absurd hcd hno
  · rintro ⟨h, hdepth⟩
    induction h with
    | nil => exact .nil
    | cons hcd hpq ih =>
      rw [dirDepth_cons, dirDepth_cons] at hdepth
      obtain ⟨hr, hs⟩ | ⟨-, hc, hd⟩ := stands_cases hcd
      · simp only [hs] at hdepth
        exact .cons hr (ih (Nat.add_right_cancel hdepth))
      · have := dirDepth_le hpq
        rw [if_neg hc, if_pos hd] at hdepth
        omega

/-- What the pattern of `list` matches. -/
theorem like_iff {p key : Str} (hp : percent ∉ p) :
    like (p ++ [slash, percent]) key = true ↔
      ∃ q r, key = q ++ slash :: r ∧ List.Forall₂ (Wildcard.Stands underscore foldCase) p q := by
  have hno : percent ∉ p ++ [slash] := by
    rw [List.mem_append, not_or]
    exact ⟨hp, by decide⟩
  rw [like, show p ++ [slash, percent] = (p ++ [slash]) ++ [percent] by simp, Wildcard.fits_append_many hno]
  constructor
  · rintro ⟨t, r, rfl, hall⟩
    have hpq := (List.forall₂_take_append _ _ _ hall.flip).flip
    have hl := (List.forall₂_drop_append _ _ _ hall.flip).flip
    cases hdrop : t.drop p.length with
    | nil =>
      rw [hdrop] at hl
      cases hl
    | cons d l =>
      rw [hdrop] at hl
      cases hl with
      | cons hd hnil =>
        cases hnil
        obtain rfl : d = slash := by
          obtain ⟨-, hs⟩ | ⟨-, hne, -⟩ := stands_cases hd
          · exact hs.1 rfl
          · exact absurd rfl hne
        refine ⟨t.take p.length, r, ?_, hpq⟩
        conv_lhs => rw [← List.take_append_drop p.length t, hdrop]
        simp
  · rintro ⟨q, r, rfl, hpq⟩
    exact ⟨q ++ [slash], r, by simp, List.rel_append hpq (.cons (.inr rfl) .nil)⟩

/-- **A canonical key is listed** when it is the child of a path that resembles the one asked for. -/
theorem listed_iff_resembles {p key : Str} (hp : percent ∉ p) (hkey : Canonical key) :
    (like (p ++ [slash, percent]) key = true ∧ dirDepth key = dirDepth p + 1) ↔
      ∃ q, IsChild q key ∧ Resembles p q := by
  have hdepth : ∀ q r : Str, dirDepth (q ++ slash :: r) = dirDepth q + 1 + dirDepth r := fun q r => by
    simp only [dirDepth, List.count_append, List.count_cons_self]
    omega
  rw [like_iff hp]
  constructor
  · rintro ⟨⟨q, r, rfl, hpq⟩, hd⟩
    have hle := dirDepth_le hpq
    rw [hdepth] at hd
    have hr : slash ∉ r := List.count_eq_zero.1 (show dirDepth r = 0 by omega)
    refine ⟨q, ⟨r, ?_, hr, rfl⟩, resembles_iff.2 ⟨hpq, by omega⟩⟩
    rintro rfl
    exact hkey.ends (by simp)
  · rintro ⟨q, ⟨r, -, hr, rfl⟩, hres⟩
    obtain ⟨hpq, hd⟩ := resembles_iff.1 hres
    have hzero : dirDepth r = 0 := List.count_eq_zero.2 hr
    exact ⟨⟨q, r, rfl, hpq⟩, by rw [hdepth]; omega⟩

/-- **What `list` gives.** -/
theorem ServerDB.Sound.mem_list {db : ServerDB} {stored : Finset Str} (h : db.Sound stored) {p : Str}
    (hp : percent ∉ p) (key : Str) :
    key ∈ db.list p ↔ key ∈ stored ∧ ∃ q, IsChild q key ∧ Resembles p q := by
  rw [ServerDB.list, List.mem_toFinset, List.mem_map, ← h.keys, ServerDB.hasKey_iff]
  constructor
  · rintro ⟨row, hm, rfl⟩
    obtain ⟨hm, hrow⟩ := List.mem_filter.1 hm
    rw [Bool.and_eq_true, decide_eq_true_eq, h.depth row hm] at hrow
    exact ⟨⟨row, hm, rfl⟩, (listed_iff_resembles hp (h.canonical row hm)).1 hrow⟩
  · rintro ⟨⟨row, hm, rfl⟩, hq⟩
    have hrow := (listed_iff_resembles hp (h.canonical row hm)).2 hq
    refine ⟨row, List.mem_filter.2 ⟨hm, ?_⟩, rfl⟩
    rw [Bool.and_eq_true, decide_eq_true_eq, h.depth row hm]
    exact hrow

theorem Canonical.percent_notMem {p : Str} (hp : Canonical p) : percent ∉ p := fun hm => by
  rcases hp.chars _ hm with h | h <;> revert h <;> decide

theorem Resembles.refl (p : Str) : Resembles p p := List.forall₂_same.2 (fun _ _ => .inr rfl)

/-- **Persistent listing.**  After any calls on canonical keys, none of which passes a value with a double quote, `list`
gives exactly the stored children of a canonical path when, and only when, no stored key is the child of another path
that resembles it. -/
theorem persistent_listing (torn : Stmt → ServerDB → Except Fault Unit × ServerDB) {calls : List Call}
    (hc : ∀ call ∈ calls, call.Clean) {p : Str} (hp : Canonical p) :
    ListsStored torn calls p ↔ NoLookalike calls p := by
  have hmem := (ServerDB.sound_runAll torn hc).mem_list hp.percent_notMem
  constructor
  · intro h key hk q hq hres
    obtain ⟨-, c, hcne, hcs, rfl⟩ := (h key).1 ((hmem key).2 ⟨hk, q, hq, hres⟩)
    obtain ⟨c', -, hcs', heq⟩ := hq
    exact (Split.last_sep_inj hcs hcs' heq).1.symm
  · intro h key
    rw [hmem]
    constructor
    · rintro ⟨hk, q, hq, hres⟩
      obtain rfl := h key hk q hq hres
      exact ⟨hk, hq⟩
    · rintro ⟨hk, hchild⟩
      exact ⟨hk, p, hchild, Resembles.refl p⟩

theorem canonical_of_words {ps : List Str} (h : ps ≠ [])
    (hw : ps.all (fun p => !p.isEmpty && p.all isWordChar) = true) : Canonical (pathKey ps) :=
  canonical_pathKey ⟨h, by simpa using hw⟩

/-- `/a` and `/a/b`: the only child of `/a` is listed. -/
theorem persistent_listing_two :
    ListsStored (fun _ db => (.error .runtimeError, db))
      [.set (pathKey [[97]]) [120], .set (pathKey [[97], [98]]) []] (pathKey [[97]]) := by
  refine (persistent_listing _ (fun call hm => ?_) (canonical_of_words (by decide) (by decide))).2 ?_
  · rcases List.mem_cons.1 hm with rfl | hm
    · exact ⟨canonical_of_words (by decide) (by decide), by decide⟩
    · rw [List.mem_singleton.1 hm]
      exact ⟨canonical_of_words (by decide) (by decide), by decide⟩
  · rintro key hk q ⟨c, -, hc, heq⟩ hres
    rcases Finset.mem_insert.1 hk with rfl | hk
    · exact (Split.last_sep_inj (a := pathKey [[97]]) (b := [98]) (by decide) hc heq).1.symm
    · rcases Finset.mem_insert.1 hk with rfl | hk
      · obtain rfl : [] = q := (Split.last_sep_inj (a := []) (b := [97]) (by decide) hc heq).1
        cases hres
      · exact absurd hk (Finset.notMem_empty _)

/-- `/A/b` is listed under `/a`, and `/axb/c` under `/a_b`, whatever SQLite makes of other statements. -/
theorem persistent_listing_fails :
    (Canonical (pathKey [[65], [98]]) ∧ Canonical (pathKey [[97]]) ∧
        ∀ torn, ¬ ListsStored torn [.set (pathKey [[65], [98]]) []] (pathKey [[97]])) ∧
      Canonical (pathKey [[97, 120, 98], [99]]) ∧ Canonical (pathKey [[97, 95, 98]]) ∧
        ∀ torn, ¬ ListsStored torn [.set (pathKey [[97, 120, 98], [99]]) []] (pathKey [[97, 95, 98]]) := by
  refine ⟨⟨?_, ?_, fun torn h => ?_⟩, ?_, ?_, fun torn h => ?_⟩
  · exact canonical_of_words (by decide) (by decide)
  · exact canonical_of_words (by decide) (by decide)
  · have hl : pathKey [[65], [98]] ∈ (runAll torn [.set (pathKey [[65], [98]]) []]).list (pathKey [[97]]) :=
      of_decide_eq_true rfl
    obtain ⟨-, c, -, -, hc⟩ := (h _).1 hl
    cases hc
  · exact canonical_of_words (by decide) (by decide)
  · exact canonical_of_words (by decide) (by decide)
  · have hl : pathKey [[97, 120, 98], [99]] ∈
        (runAll torn [.set (pathKey [[97, 120, 98], [99]]) []]).list (pathKey [[97, 95, 98]]) := of_decide_eq_true rfl
    obtain ⟨-, c, -, -, hc⟩ := (h _).1 hl
    cases hc

end MetaDR
