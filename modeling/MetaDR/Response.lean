import MetaDR.Lib.Threads
import MetaDR.QuorumWait
/-!
# Response — counting answers and waiting for enough (server/vrCommon.h)

A `Response` is a count under a mutex, with a condition variable.  The thread that needs the answers, here thread `0`,
counts itself, tests the count and waits; each answer is counted by another thread, which notifies when there are
enough, with the mutex free again.  `replicate` and `changeView` wait so, and the handlers of `PrepareOk`,
`StartViewChange` and `DoViewChange` count.  Each step here is one thing that one thread does.

When the answers that came are counted and thread `0` still waits, there are too few of them (`quorum_wait_settles`):
no wake-up is lost.  If no wait ends by itself, one that ends without a timeout has enough behind it
(`quorum_wait_sound`), which is what `Rules.notified` asks of `replicate`.
-/
namespace MetaDR
namespace Response

open Function Threads

/-- What the thread does next. -/
inductive Pc where
  | idle
  /-- thread `0` counts itself in a block of its own -/
  | ownLock
  | ownCount
  | ownUnlock
  /-- the block that waits; `own` says whether thread `0` counts itself there -/
  | askLock (own : Bool)
  | askCount
  | askTest
  | waiting
  /-- the wait is over and takes the mutex again -/
  | relock (status : CvStatus)
  | leave (status : CvStatus)
  /-- an answer: some handlers first ask whether there are enough already -/
  | tellCheck
  | tellLock
  | tellCount
  | tellTest
  | tellUnlock (notify : Bool)
  | tellNotify
  deriving DecidableEq, Repr

structure State where
  cnt : Nat
  /-- the thread that holds `rMutex` -/
  mutex : Option Nat
  pc : Nat → Pc

inductive Event where
  | own
  | ask (own : Bool)
  | tell (t : Nat) (check : Bool)
  /-- the thread does what it does next -/
  | run (t : Nat)
  /-- its `notify_one` ends the wait -/
  | notify (t : Nat)
  /-- the wait ends with no notification -/
  | wake
  | timeout
  deriving DecidableEq, Repr

inductive Obs where
  | counted (t : Nat)
  | ended (status : CvStatus)
  deriving DecidableEq, Repr

/-- Where the mutex is held. -/
def Pc.holds : Pc → Bool
  | .ownCount | .ownUnlock | .askCount | .askTest | .leave _ | .tellCount | .tellTest | .tellUnlock _ => true
  | _ => false

namespace State

def init : State := ⟨0, none, fun _ => .idle⟩

def goto (s : State) (t : Nat) (p : Pc) : State := { s with pc := update s.pc t p }

@[simp] theorem goto_self (s : State) (t : Nat) (p : Pc) : (s.goto t p).pc t = p := by
  show update s.pc t p t = p
  rw [update_self]

theorem goto_of_ne (s : State) {t u : Nat} (h : u ≠ t) (p : Pc) : (s.goto t p).pc u = s.pc u := by
  show update s.pc t p u = s.pc u
  rw [update_of_ne h]

/-- `quorumReached`. -/
def enough (majority : Nat) (s : State) : Bool := decide (majority ≤ s.cnt)

/-- The next thing thread `t` does. -/
def run (majority : Nat) (s : State) (t : Nat) : Option (State × List Obs) :=
  match s.pc t with
  | .idle => none
  | .ownLock => if s.mutex = none then some ({ s.goto t .ownCount with mutex := some t }, []) else none
  | .ownCount => some ({ s.goto t .ownUnlock with cnt := s.cnt + 1 }, [.counted t])
  | .ownUnlock => some ({ s.goto t .idle with mutex := none }, [])
  | .askLock own =>
    if s.mutex = none then some ({ s.goto t (if own then .askCount else .askTest) with mutex := some t }, []) else none
  | .askCount => some ({ s.goto t .askTest with cnt := s.cnt + 1 }, [.counted t])
  | .askTest =>
    if s.enough majority then some (s.goto t (.leave .noTimeout), [])
    else some ({ s.goto t .waiting with mutex := none }, [])
  | .waiting => none
  | .relock status => if s.mutex = none then some ({ s.goto t (.leave status) with mutex := some t }, []) else none
  | .leave status => some ({ s.goto t .idle with mutex := none }, [.ended status])
  | .tellCheck =>
    if s.mutex = none then some (s.goto t (if s.enough majority then .idle else .tellLock), []) else none
  | .tellLock => if s.mutex = none then some ({ s.goto t .tellCount with mutex := some t }, []) else none
  | .tellCount => some ({ s.goto t .tellTest with cnt := s.cnt + 1 }, [.counted t])
  | .tellTest => some (s.goto t (.tellUnlock (s.enough majority)), [])
  | .tellUnlock notify => some ({ s.goto t (if notify then .tellNotify else .idle) with mutex := none }, [])
  | .tellNotify => if s.pc 0 = .waiting then none else some (s.goto t .idle, [])

/-- The `Response` as the threads `0 .. n - 1` use it. -/
def step (n majority : Nat) (s : State) : Event → Option (State × List Obs)
  | .own => if 0 < n ∧ s.pc 0 = .idle then some (s.goto 0 .ownLock, []) else none
  | .ask own => if 0 < n ∧ s.pc 0 = .idle then some (s.goto 0 (.askLock own), []) else none
  | .tell t check =>
    if t < n ∧ s.pc t = .idle then some (s.goto t (if check then .tellCheck else .tellLock), []) else none
  | .run t => if t < n then s.run majority t else none
  | .notify t =>
    if t < n ∧ s.pc t = .tellNotify ∧ s.pc 0 = .waiting then
      some ((s.goto 0 (.relock .noTimeout)).goto t .idle, [])
    else none
  | .wake => if 0 < n ∧ s.pc 0 = .waiting then some (s.goto 0 (.relock .noTimeout), []) else none
  | .timeout => if 0 < n ∧ s.pc 0 = .waiting then some (s.goto 0 (.relock .timeout), []) else none

end State

def system (n majority : Nat) : Run.System State Event Obs := ⟨State.init, State.step n majority⟩

/-- **What a step can do** to one thread, from where it stands: where it goes, and what becomes of the count and the
mutex. -/
inductive Moved (majority : Nat) (s : State) (t : Nat) : Event → Pc → Nat → Option Nat → List Obs → Prop where
  | own (h0 : t = 0) (hp : s.pc t = .idle) : Moved majority s t .own .ownLock s.cnt s.mutex []
  | ask (own : Bool) (h0 : t = 0) (hp : s.pc t = .idle) :
      Moved majority s t (.ask own) (.askLock own) s.cnt s.mutex []
  | tell (check : Bool) (hp : s.pc t = .idle) :
      Moved majority s t (.tell t check) (if check then .tellCheck else .tellLock) s.cnt s.mutex []
  | ownLock (hp : s.pc t = .ownLock) (hm : s.mutex = none) : Moved majority s t (.run t) .ownCount s.cnt (some t) []
  | ownCount (hp : s.pc t = .ownCount) : Moved majority s t (.run t) .ownUnlock (s.cnt + 1) s.mutex [.counted t]
  | ownUnlock (hp : s.pc t = .ownUnlock) : Moved majority s t (.run t) .idle s.cnt none []
  | askLock (own : Bool) (hp : s.pc t = .askLock own) (hm : s.mutex = none) :
      Moved majority s t (.run t) (if own then .askCount else .askTest) s.cnt (some t) []
  | askCount (hp : s.pc t = .askCount) : Moved majority s t (.run t) .askTest (s.cnt + 1) s.mutex [.counted t]
  | pass (hp : s.pc t = .askTest) (he : majority ≤ s.cnt) :
      Moved majority s t (.run t) (.leave .noTimeout) s.cnt s.mutex []
  | wait (hp : s.pc t = .askTest) (he : s.cnt < majority) : Moved majority s t (.run t) .waiting s.cnt none []
  | relock (status : CvStatus) (hp : s.pc t = .relock status) (hm : s.mutex = none) :
      Moved majority s t (.run t) (.leave status) s.cnt (some t) []
  | leave (status : CvStatus) (hp : s.pc t = .leave status) :
      Moved majority s t (.run t) .idle s.cnt none [.ended status]
  | checked (hp : s.pc t = .tellCheck) (he : majority ≤ s.cnt) : Moved majority s t (.run t) .idle s.cnt s.mutex []
  | missing (hp : s.pc t = .tellCheck) (he : s.cnt < majority) :
      Moved majority s t (.run t) .tellLock s.cnt s.mutex []
  | tellLock (hp : s.pc t = .tellLock) (hm : s.mutex = none) : Moved majority s t (.run t) .tellCount s.cnt (some t) []
  | tellCount (hp : s.pc t = .tellCount) : Moved majority s t (.run t) .tellTest (s.cnt + 1) s.mutex [.counted t]
  | tellTest (hp : s.pc t = .tellTest) :
      Moved majority s t (.run t) (.tellUnlock (decide (majority ≤ s.cnt))) s.cnt s.mutex []
  | tellUnlock (notify : Bool) (hp : s.pc t = .tellUnlock notify) :
      Moved majority s t (.run t) (if notify then .tellNotify else .idle) s.cnt none []
  | nobody (hp : s.pc t = .tellNotify) (hw : s.pc 0 ≠ .waiting) : Moved majority s t (.run t) .idle s.cnt s.mutex []
  | wake (h0 : t = 0) (hp : s.pc t = .waiting) : Moved majority s t .wake (.relock .noTimeout) s.cnt s.mutex []
  | timeout (h0 : t = 0) (hp : s.pc t = .waiting) : Moved majority s t .timeout (.relock .timeout) s.cnt s.mutex []

theorem State.run_moved {majority t : Nat} {s s' : State} {os : List Obs} (h : s.run majority t = some (s', os)) :
    ∃ p cnt mutex, Moved majority s t (.run t) p cnt mutex os ∧ s' = ⟨cnt, mutex, update s.pc t p⟩ := by
  unfold run at h
  split at h <;> rename_i hp
  · cases h
  · obtain ⟨hm, he⟩ := Option.ite_none_right_eq_some.1 h
    cases he
    exact ⟨_, _, _, .ownLock hp hm, rfl⟩
  · cases h
    exact ⟨_, _, _, .ownCount hp, rfl⟩
  · cases h
    exact ⟨_, _, _, .ownUnlock hp, rfl⟩
  · obtain ⟨hm, he⟩ := Option.ite_none_right_eq_some.1 h
    cases he
    exact ⟨_, _, _, .askLock _ hp hm, rfl⟩
  · cases h
    exact ⟨_, _, _, .askCount hp, rfl⟩
  · split at h <;> rename_i he <;> cases h
    · exact ⟨_, _, _, .pass hp (of_decide_eq_true he), rfl⟩
    · exact ⟨_, _, _, .wait hp (Nat.lt_of_not_le (fun hle => he (decide_eq_true hle))), rfl⟩
  · cases h
  · obtain ⟨hm, he⟩ := Option.ite_none_right_eq_some.1 h
    cases he
    exact ⟨_, _, _, .relock _ hp hm, rfl⟩
  · cases h
    exact ⟨_, _, _, .leave _ hp, rfl⟩
  · obtain ⟨hm, he⟩ := Option.ite_none_right_eq_some.1 h
    cases he
    split
    · rename_i he
      exact ⟨_, _, _, .checked hp (of_decide_eq_true he), rfl⟩
    · rename_i he
      exact ⟨_, _, _, .missing hp (Nat.lt_of_not_le (fun hle => he (decide_eq_true hle))), rfl⟩
  · obtain ⟨hm, he⟩ := Option.ite_none_right_eq_some.1 h
    cases he
    exact ⟨_, _, _, .tellLock hp hm, rfl⟩
  · cases h
    exact ⟨_, _, _, .tellCount hp, rfl⟩
  · cases h
    exact ⟨_, _, _, .tellTest hp, rfl⟩
  · cases h
    exact ⟨_, _, _, .tellUnlock _ hp, rfl⟩
  · split at h <;> rename_i hw
    · cases h
    · cases h
      exact ⟨_, _, _, .nobody hp hw, rfl⟩

/-- The step is one thread's, or one thread ends the wait of thread `0`. -/
theorem State.step_moved {n majority : Nat} {s s' : State} {e : Event} {os : List Obs}
    (h : s.step n majority e = some (s', os)) :
    (∃ t p cnt mutex, t < n ∧ Moved majority s t e p cnt mutex os ∧ s' = ⟨cnt, mutex, update s.pc t p⟩) ∨
      ∃ t, e = .notify t ∧ t < n ∧ s.pc t = .tellNotify ∧ s.pc 0 = .waiting ∧
        s' = (s.goto 0 (.relock .noTimeout)).goto t .idle ∧ os = [] := by
  cases e with
  | own =>
    obtain ⟨⟨hn, hp⟩, he⟩ := Option.ite_none_right_eq_some.1 h
    cases he
    exact .inl ⟨0, _, _, _, hn, .own rfl hp, rfl⟩
  | ask own =>
    obtain ⟨⟨hn, hp⟩, he⟩ := Option.ite_none_right_eq_some.1 h
    cases he
    exact .inl ⟨0, _, _, _, hn, .ask own rfl hp, rfl⟩
  | tell t check =>
    obtain ⟨⟨hn, hp⟩, he⟩ := Option.ite_none_right_eq_some.1 h
    cases he
    exact .inl ⟨t, _, _, _, hn, .tell check hp, rfl⟩
  | run t =>
    obtain ⟨hn, he⟩ := Option.ite_none_right_eq_some.1 h
    obtain ⟨p, cnt, mutex, m, hs⟩ := run_moved he
    exact .inl ⟨t, p, cnt, mutex, hn, m, hs⟩
  | notify t =>
    obtain ⟨⟨hn, hp, hw⟩, he⟩ := Option.ite_none_right_eq_some.1 h
    cases he
    exact .inr ⟨t, rfl, hn, hp, hw, rfl, rfl⟩
  | wake =>
    obtain ⟨⟨hn, hw⟩, he⟩ := Option.ite_none_right_eq_some.1 h
    cases he
    exact .inl ⟨0, _, _, _, hn, .wake rfl hw, rfl⟩
  | timeout =>
    obtain ⟨⟨hn, hw⟩, he⟩ := Option.ite_none_right_eq_some.1 h
    cases he
    exact .inl ⟨0, _, _, _, hn, .timeout rfl hw, rfl⟩

/-- Where only thread `0` stands. -/
def Pc.asks : Pc → Bool
  | .ownLock | .ownCount | .ownUnlock | .askLock _ | .askCount | .askTest | .waiting | .relock _ | .leave _ => true
  | _ => false

/-- Threads that will notify, if there are enough. -/
def Pc.wakes : Pc → Nat
  | .tellTest | .tellUnlock true | .tellNotify => 1
  | _ => 0

/-- The mutex keeps the others out, and no wake-up is lost: when there are enough and thread `0` waits, somebody is on
the way to wake it. -/
structure State.Inv (n majority : Nat) (s : State) : Prop where
  exclusive : Exclusive Pc.holds s.mutex s.pc
  outside : ∀ t, n ≤ t → s.pc t = .idle
  asker : ∀ t, (s.pc t).asks = true → t = 0
  awake : s.pc 0 = .waiting → majority ≤ s.cnt → 0 < total n Pc.wakes s.pc

theorem State.init_inv (n majority : Nat) : init.Inv n majority where
  exclusive := fun _ => ⟨fun h => (nomatch h), fun h => (nomatch h)⟩
  outside := fun _ _ => rfl
  asker := fun _ h => (nomatch h)
  awake := fun h => (nomatch h)

section

variable {n majority : Nat} {s s' : State} {e : Event} {os : List Obs} {t cnt : Nat} {p : Pc} {mutex : Option Nat}

theorem outside_update (h : s.Inv n majority) (ht : t < n) (p : Pc) : ∀ u, n ≤ u → update s.pc t p u = .idle :=
  fun u hu => by
    rw [update_of_ne (by omega)]
    exact h.outside u hu

theorem asker_update (h : s.Inv n majority) (hp : p.asks = true → t = 0) :
    ∀ u, (update s.pc t p u).asks = true → u = 0 := fun u hu => by
  by_cases hut : u = t
  · rw [hut, update_self] at hu
    rw [hut, hp hu]
  · rw [update_of_ne hut] at hu
    exact h.asker u hu

/-- The thread begins no wait for what is there, wakes no fewer than before, and one more if its step makes it
enough. -/
theorem awake_update (h : s.Inv n majority) (ht : t < n) (hwait : p = .waiting → cnt < majority)
    (hnew : t = 0 ∨ (majority ≤ cnt → majority ≤ s.cnt ∨ 0 < p.wakes))
    (hkeep : majority ≤ cnt → s.pc 0 = .waiting → (s.pc t).wakes ≤ p.wakes) :
    update s.pc t p 0 = .waiting → majority ≤ cnt → 0 < total n Pc.wakes (update s.pc t p) := fun hw hc => by
  by_cases h0 : 0 = t
  · subst h0
    rw [update_self] at hw
    exact absurd hc (Nat.not_le.2 (hwait hw))
  · rw [update_of_ne h0] at hw
    have htotal := total_update Pc.wakes s.pc ht p
    have hle := hkeep hc hw
    rcases hnew.resolve_left (Ne.symm h0) hc with hs | hp
    · have := h.awake hw hs
      omega
    · have := le_total Pc.wakes (update s.pc t p) ht
      rw [update_self] at this
      omega

/-- **One thread's step keeps it.** -/
theorem Moved.inv (h : s.Inv n majority) (ht : t < n) (m : Moved majority s t e p cnt mutex os) :
    State.Inv n majority ⟨cnt, mutex, update s.pc t p⟩ := by
  have h0 : ∀ {p₀ : Pc}, s.pc t = p₀ → p₀.asks = true → t = 0 := fun hp ha => h.asker t (by rw [hp]; exact ha)
  cases m with
  | own hz hp | ask own hz hp | wake hz hp | timeout hz hp =>
    exact ⟨h.exclusive.move (by rw [hp]; rfl), outside_update h ht _, asker_update h (fun _ => hz),
      awake_update h ht (fun he => (nomatch he)) (.inr .inl) (fun _ _ => by rw [hp]; exact Nat.zero_le _)⟩
  | tell check hp =>
    cases check <;>
      exact ⟨h.exclusive.move (by rw [hp]; rfl), outside_update h ht _, asker_update h (fun ha => (nomatch ha)),
        awake_update h ht (fun he => (nomatch he)) (.inr .inl) (fun _ _ => by rw [hp]; exact Nat.zero_le _)⟩
  | ownLock hp hm | relock status hp hm =>
    exact ⟨(hm ▸ h.exclusive).acquire rfl, outside_update h ht _, asker_update h (fun _ => h0 hp rfl),
      awake_update h ht (fun he => (nomatch he)) (.inr .inl) (fun _ _ => by rw [hp]; exact Nat.zero_le _)⟩
  | askLock own hp hm =>
    cases own <;>
      exact ⟨(hm ▸ h.exclusive).acquire rfl, outside_update h ht _, asker_update h (fun _ => h0 hp rfl),
        awake_update h ht (fun he => (nomatch he)) (.inr .inl) (fun _ _ => by rw [hp]; exact Nat.zero_le _)⟩
  | ownCount hp | askCount hp =>
    exact ⟨h.exclusive.move (by rw [hp]; rfl), outside_update h ht _, asker_update h (fun _ => h0 hp rfl),
      awake_update h ht (fun he => (nomatch he)) (.inl (h0 hp rfl)) (fun _ _ => by rw [hp]; exact Nat.zero_le _)⟩
  | ownUnlock hp | leave status hp =>
    exact ⟨h.exclusive.release (by rw [hp]; rfl) rfl, outside_update h ht _, asker_update h (fun ha => (nomatch ha)),
      awake_update h ht (fun he => (nomatch he)) (.inr .inl) (fun _ _ => by rw [hp]; exact Nat.zero_le _)⟩
  | pass hp he =>
    exact ⟨h.exclusive.move (by rw [hp]; rfl), outside_update h ht _, asker_update h (fun _ => h0 hp rfl),
      awake_update h ht (fun he => (nomatch he)) (.inr .inl) (fun _ _ => by rw [hp]; exact Nat.zero_le _)⟩
  | wait hp he =>
    exact ⟨h.exclusive.release (by rw [hp]; rfl) rfl, outside_update h ht _, asker_update h (fun _ => h0 hp rfl),
      awake_update h ht (fun _ => he) (.inr .inl) (fun _ _ => by rw [hp]; exact Nat.zero_le _)⟩
  | checked hp | missing hp =>
    exact ⟨h.exclusive.move (by rw [hp]; rfl), outside_update h ht _, asker_update h (fun ha => (nomatch ha)),
      awake_update h ht (fun he => (nomatch he)) (.inr .inl) (fun _ _ => by rw [hp]; exact Nat.zero_le _)⟩
  | tellLock hp hm =>
    exact ⟨(hm ▸ h.exclusive).acquire rfl, outside_update h ht _, asker_update h (fun ha => (nomatch ha)),
      awake_update h ht (fun he => (nomatch he)) (.inr .inl) (fun _ _ => by rw [hp]; exact Nat.zero_le _)⟩
  | tellCount hp =>
    exact ⟨h.exclusive.move (by rw [hp]; rfl), outside_update h ht _, asker_update h (fun ha => (nomatch ha)),
      awake_update h ht (fun he => (nomatch he)) (.inr (fun _ => .inr Nat.one_pos))
        (fun _ _ => by rw [hp]; exact Nat.zero_le _)⟩
  | tellTest hp =>
    exact ⟨h.exclusive.move (by rw [hp]; rfl), outside_update h ht _, asker_update h (fun ha => (nomatch ha)),
      awake_update h ht (fun he => (nomatch he)) (.inr .inl) (fun hc _ => by rw [hp, decide_eq_true hc]; exact le_rfl)⟩
  | tellUnlock notify hp =>
    cases notify <;>
      exact ⟨h.exclusive.release (by rw [hp]; rfl) rfl, outside_update h ht _,
        asker_update h (fun ha => (nomatch ha)), awake_update h ht (fun he => (nomatch he)) (.inr .inl)
          (fun _ _ => by rw [hp]; exact le_rfl)⟩
  | nobody hp hw =>
    exact ⟨h.exclusive.move (by rw [hp]; rfl), outside_update h ht _, asker_update h (fun ha => (nomatch ha)),
      awake_update h ht (fun he => (nomatch he)) (.inr .inl) (fun _ hw' => absurd hw' hw)⟩

/-- So does a notification. -/
theorem State.Inv.notified (h : s.Inv n majority) (ht : t < n) (hp : s.pc t = .tellNotify)
    (hw : s.pc 0 = .waiting) : State.Inv n majority ((s.goto 0 (.relock .noTimeout)).goto t .idle) := by
  have hn : 0 < n := Nat.lt_of_le_of_lt (Nat.zero_le t) ht
  have ht0 : t ≠ 0 := fun he => by
    rw [he, hw] at hp
    cases hp
  have h₁ : State.Inv n majority (s.goto 0 (.relock .noTimeout)) := Moved.inv h hn (.wake rfl hw)
  have hpt : (s.goto 0 (.relock .noTimeout)).pc t = .tellNotify := (s.goto_of_ne ht0 _).trans hp
  exact Moved.inv h₁ ht (.nobody hpt (by rw [State.goto_self]; exact Pc.noConfusion))

theorem State.Inv.step (h : s.Inv n majority) (hs : s.step n majority e = some (s', os)) : s'.Inv n majority := by
  rcases State.step_moved hs with ⟨t, p, cnt, mutex, ht, m, rfl⟩ | ⟨t, -, ht, hp, hw, rfl, -⟩
  · exact m.inv h ht
  · exact h.notified ht hp hw

end

/-- The threads go on; nothing is begun, and no wait ends by itself or with the time. -/
def Event.goesOn : Event → Bool
  | .run _ | .notify _ => true
  | _ => false

/-- How many steps the thread can still take, if it does not wait; the steps behind a wait are the notifying
thread's. -/
def Pc.work : Pc → Nat
  | .idle => 0
  | .ownLock => 3
  | .ownCount => 2
  | .ownUnlock => 1
  | .askLock _ => 4
  | .askCount => 3
  | .askTest => 2
  | .waiting => 0
  | .relock _ => 2
  | .leave _ => 1
  | .tellCheck => 8
  | .tellLock => 7
  | .tellCount => 6
  | .tellTest => 5
  | .tellUnlock _ => 4
  | .tellNotify => 3

section

variable {n majority : Nat} {s s' : State} {e : Event} {os tr : List Obs} {t : Nat}

/-- Each step uses some of it up. -/
theorem State.step_work (he : e.goesOn = true) (hs : s.step n majority e = some (s', os)) :
    total n Pc.work s'.pc < total n Pc.work s.pc := by
  rcases State.step_moved hs with ⟨t, p, cnt, mutex, ht, m, rfl⟩ | ⟨t, -, ht, hp, hw, rfl, -⟩
  · cases m with
    | own | ask | tell | wake | timeout => cases he
    | askLock own hp | tellUnlock own hp => exact total_update_lt ht hp (by cases own <;> simp [Pc.work])
    | ownLock hp | ownCount hp | ownUnlock hp | askCount hp | pass hp | wait hp | relock status hp | leave status hp
    | checked hp | missing hp | tellLock hp | tellCount hp | tellTest hp | nobody hp =>
      exact total_update_lt ht hp (by simp [Pc.work])
  · have ht0 : t ≠ 0 := fun he => by
      rw [he, hw] at hp
      cases hp
    have h₁ := total_update Pc.work s.pc (Nat.lt_of_le_of_lt (Nat.zero_le t) ht) (.relock .noTimeout)
    have h₂ := total_update Pc.work (update s.pc 0 (.relock .noTimeout)) ht .idle
    rw [hw] at h₁
    rw [update_of_ne ht0, hp] at h₂
    simp only [Pc.work] at h₁ h₂
    show total n Pc.work (update (update s.pc 0 (.relock .noTimeout)) t .idle) < _
    omega

/-- A thread that cannot go on is out, waits, or stands at the mutex. -/
theorem State.run_eq_none {majority : Nat} (hrun : s.run majority t = none) :
    s.pc t = .idle ∨ s.pc t = .waiting ∨ s.pc t = .tellNotify ∧ s.pc 0 = .waiting ∨
      (s.pc t).holds = false ∧ s.mutex ≠ none := by
  unfold State.run at hrun
  cases hp : s.pc t with
  | idle => exact .inl rfl
  | waiting => exact .inr (.inl rfl)
  | tellNotify => exact .inr (.inr (.inl ⟨rfl, by simpa [hp] using hrun⟩))
  | ownLock | askLock | relock | tellCheck | tellLock =>
    exact .inr (.inr (.inr ⟨rfl, by simpa [hp] using hrun⟩))
  | askTest =>
    simp only [hp] at hrun
    split at hrun <;> cases hrun
  | ownCount | ownUnlock | askCount | leave | tellCount | tellTest | tellUnlock => simp [hp] at hrun

/-- **Where nothing goes on, thread `0` waits for want of answers**, and everybody else is out. -/
theorem State.Inv.rests (h : s.Inv n majority)
    (hstuck : ∀ e : Event, e.goesOn = true → s.step n majority e = none) (ht : t < n) :
    s.pc t = .idle ∨ t = 0 ∧ s.pc t = .waiting ∧ s.cnt < majority := by
  have hrun : ∀ u < n, s.run majority u = none := fun u hu => by
    have := hstuck (.run u) rfl
    rwa [State.step, if_pos hu] at this
  have hnotify : ∀ u < n, ¬ (s.pc u = .tellNotify ∧ s.pc 0 = .waiting) := fun u hu hp => by
    have := hstuck (.notify u) rfl
    rw [State.step, if_pos ⟨hu, hp⟩] at this
    cases this
  have hfree : s.mutex = none := by
    by_contra hm
    obtain ⟨u, hm⟩ := Option.ne_none_iff_exists'.1 hm
    have hholds := (h.exclusive u).2 hm
    have hu : u < n := by
      by_contra hn
      rw [h.outside u (Nat.not_lt.1 hn)] at hholds
      cases hholds
    rcases State.run_eq_none (hrun u hu) with hp | hp | ⟨hp, -⟩ | ⟨hp, -⟩ <;> rw [hp] at hholds <;> cases hholds
  have hout : ∀ u < n, s.pc u = .idle ∨ s.pc u = .waiting := fun u hu => by
    rcases State.run_eq_none (hrun u hu) with hp | hp | hp | ⟨-, hp⟩
    · exact .inl hp
    · exact .inr hp
    · exact absurd hp (hnotify u hu)
    · exact absurd hfree hp
  rcases hout t ht with hp | hp
  · exact .inl hp
  · obtain rfl := h.asker t (by rw [hp]; rfl)
    refine .inr ⟨rfl, hp, Nat.lt_of_not_le (fun hle => ?_)⟩
    have hzero : total n Pc.wakes s.pc = 0 := total_eq_zero.2 (fun u hu => by
      rcases hout u hu with he | he <;> rw [he] <;> rfl)
    exact absurd (h.awake hp hle) (by rw [hzero]; exact Nat.lt_irrefl 0)

/-- **No wake-up is lost.**  In any state of any run, what has begun can take only so many steps, in whatever order,
until an answer comes or a wait ends by itself or with the time; and when it can take no more, thread `0` waits only if
there are too few answers. -/
theorem quorum_wait_settles {tr' : List Obs} {es : List Event}
    (h : Run.Reach (system n majority) (fun _ _ _ => true) s tr)
    (he : Run.exec (system n majority) (fun _ _ e => e.goesOn) es s tr = some (s', tr')) :
    es.length ≤ total n Pc.work s.pc ∧ ((∀ e : Event, e.goesOn = true → s'.step n majority e = none) →
      ∀ t < n, s'.pc t = .idle ∨ t = 0 ∧ s'.pc t = .waiting ∧ s'.cnt < majority) := by
  have hi : s.Inv n majority := h.invariant (P := fun s _ => s.Inv n majority) (State.init_inv n majority)
    (fun _ _ _ _ _ _ hi _ hs => hi.step hs)
  have hstep : ∀ (s : State) (_ : List Obs) (e : Event) (s' : State) (os : List Obs), s.Inv n majority →
      e.goesOn = true → s.step n majority e = some (s', os) →
      s'.Inv n majority ∧ total n Pc.work s'.pc < total n Pc.work s.pc :=
    fun _ _ _ _ _ hi hgo hs => ⟨hi.step hs, State.step_work hgo hs⟩
  obtain ⟨h', hlen⟩ := Run.exec_le hstep es hi he
  exact ⟨by omega, fun hstuck t ht => h'.rests hstuck ht⟩

end

/-- Thread `0` waits with its own count, and an answer comes. -/
def answerEvents : List Event := [.ask true, .run 0, .run 0, .run 0, .tell 1 true]

/-- It is counted and is enough: thread `0` is woken and goes on. -/
def countEvents : List Event := [.run 1, .run 1, .run 1, .run 1, .run 1, .notify 1, .run 0, .run 0]

theorem quorum_wait_settles_two : ∃ (s s' : State) (tr tr' : List Obs),
    Run.Reach (system 2 2) (fun _ _ _ => true) s tr ∧ s.pc 0 = .waiting ∧
    Run.exec (system 2 2) (fun _ _ e => e.goesOn) countEvents s tr = some (s', tr') ∧
    countEvents.length ≤ total 2 Pc.work s.pc ∧ (s'.pc 0 = .idle ∨ 0 = 0 ∧ s'.pc 0 = .waiting ∧ s'.cnt < 2) := by
  obtain ⟨s, tr, h, hc⟩ : ∃ s tr, Run.Reach (system 2 2) (fun _ _ _ => true) s tr ∧ (decide (s.pc 0 = .waiting) &&
      (Run.exec (system 2 2) (fun _ _ e => e.goesOn) countEvents s tr).any
        (fun p : State × List Obs => decide (p.1.pc 0 = .idle) && decide (p.1.pc 1 = .idle))) = true :=
    Run.exists_reach_of_exec answerEvents _ (by decide +kernel)
  simp only [Bool.and_eq_true, decide_eq_true_eq] at hc
  obtain ⟨hwait, hexec⟩ := hc
  cases he : Run.exec (system 2 2) (fun _ _ e => e.goesOn) countEvents s tr with
  | none =>
    rw [he] at hexec
    cases hexec
  | some q =>
    obtain ⟨s', tr'⟩ := q
    rw [he] at hexec
    simp only [Option.any_some, Bool.and_eq_true, decide_eq_true_eq] at hexec
    have hidle : ∀ t < 2, s'.pc t = .idle := fun t ht => by
      obtain rfl | rfl : t = 0 ∨ t = 1 := by omega
      · exact hexec.1
      · exact hexec.2
    have hstuck : ∀ e : Event, e.goesOn = true → s'.step 2 2 e = none := fun e hgo => by
      cases e with
      | run t =>
        by_cases ht : t < 2
        · rw [State.step, if_pos ht, State.run, hidle t ht]
        · exact if_neg ht
      | notify t => exact if_neg (fun hp => by
          rw [hidle t hp.1] at hp
          cases hp.2.1)
      | own | ask | tell | wake | timeout => cases hgo
    obtain ⟨hlen, hrest⟩ := quorum_wait_settles h he
    exact ⟨s, s', tr, tr', h, hwait, he, hlen, hrest hstuck 0 (by decide)⟩

section

variable {n majority : Nat} {s s' : State} {e : Event} {os tr : List Obs} {t : Nat}

/-- Where there are enough for sure, if no wait ends by itself. -/
def Pc.Sure (majority cnt : Nat) : Pc → Prop
  | .relock .noTimeout | .leave .noTimeout | .tellUnlock true | .tellNotify => majority ≤ cnt
  | _ => True

theorem sure_update {pc : Nat → Pc} {p : Pc} {c c' : Nat} (h : ∀ u, (pc u).Sure majority c) (hle : c ≤ c')
    (hp : p.Sure majority c') (u : Nat) : (update pc t p u).Sure majority c' := by
  have hmono : ∀ q : Pc, q.Sure majority c → q.Sure majority c' := fun q hq => by
    unfold Pc.Sure at hq ⊢
    split at hq <;> first | exact hq.trans hle | trivial
  by_cases hu : u = t
  · rw [hu, update_self]
    exact hp
  · rw [update_of_ne hu]
    exact hmono _ (h u)

def Obs.isCounted : Obs → Bool
  | .counted _ => true
  | _ => false

/-- How many answers were counted. -/
def answers (tr : List Obs) : Nat := tr.countP Obs.isCounted

/-- The count is what was counted, and who goes on for enough has them. -/
structure State.Counts (majority : Nat) (s : State) (tr : List Obs) : Prop where
  cnt : s.cnt = answers tr
  sure : ∀ t, (s.pc t).Sure majority s.cnt
  ended : Run.Each (fun tr o => o = .ended .noTimeout → majority ≤ answers tr) tr

theorem Moved.counts {p : Pc} {cnt : Nat} {mutex : Option Nat} (h : s.Counts majority tr)
    (m : Moved majority s t e p cnt mutex os) (he : e ≠ .wake) :
    State.Counts majority ⟨cnt, mutex, update s.pc t p⟩ (tr ++ os) := by
  have hquiet : ∀ {p : Pc} {mutex : Option Nat}, p.Sure majority s.cnt →
      State.Counts majority ⟨s.cnt, mutex, update s.pc t p⟩ (tr ++ []) := fun hp => by
    rw [List.append_nil]
    exact ⟨h.cnt, sure_update h.sure le_rfl hp, h.ended⟩
  have hcount : ∀ {p : Pc}, p.Sure majority (s.cnt + 1) →
      State.Counts majority ⟨s.cnt + 1, s.mutex, update s.pc t p⟩ (tr ++ [.counted t]) := fun hp =>
    ⟨by rw [answers, List.countP_append, ← answers, ← h.cnt]; rfl, sure_update h.sure (Nat.le_succ _) hp,
      h.ended.concat (fun ho => (nomatch ho))⟩
  have hsure := h.sure t
  cases m with
  | ownCount hp | askCount hp | tellCount hp => exact hcount trivial
  | pass hp henough => exact hquiet henough
  | relock status hp =>
    rw [hp] at hsure
    cases status with
    | noTimeout => exact hquiet hsure
    | timeout => exact hquiet trivial
  | leave status hp =>
    rw [hp] at hsure
    refine ⟨?_, sure_update h.sure le_rfl trivial, h.ended.concat (fun ho => ?_)⟩
    · rw [answers, List.countP_append, ← answers, ← h.cnt]
      rfl
    · obtain rfl : status = .noTimeout := by simpa using ho
      rw [← h.cnt]
      exact hsure
  | tellTest hp =>
    refine hquiet ?_
    by_cases hle : majority ≤ s.cnt
    · rw [decide_eq_true hle]
      exact hle
    · rw [decide_eq_false hle]
      trivial
  | tellUnlock notify hp =>
    rw [hp] at hsure
    cases notify with
    | false => exact hquiet trivial
    | true => exact hquiet hsure
  | askLock own hp => cases own <;> exact hquiet trivial
  | tell check hp => cases check <;> exact hquiet trivial
  | wake => exact absurd rfl he
  | own | ask | ownLock | ownUnlock | wait | checked | missing | tellLock | nobody | timeout => exact hquiet trivial

/-- **A wait that ends without a timeout has enough answers behind it**, in every run in which no wait ends by
itself. -/
theorem quorum_wait_sound (h : Run.Reach (system n majority) (fun _ _ e => decide (e ≠ .wake)) s tr) :
    Run.Each (fun tr o => o = .ended .noTimeout → majority ≤ answers tr) tr := by
  have hc : s.Counts majority tr := by
    refine h.invariant (P := fun s tr => s.Counts majority tr) ⟨rfl, fun _ => trivial, Run.each_nil⟩
      (fun s tr e s' os _ hc hok hs => ?_)
    rcases State.step_moved hs with ⟨t, p, cnt, mutex, ht, m, rfl⟩ | ⟨t, rfl, ht, hp, hw, rfl, rfl⟩
    · exact m.counts hc (of_decide_eq_true hok)
    · have hsure := hc.sure t
      rw [hp] at hsure
      rw [List.append_nil]
      exact ⟨hc.cnt, sure_update (sure_update hc.sure le_rfl hsure) le_rfl trivial, hc.ended⟩
  exact hc.ended

end

theorem quorum_wait_sound_two : ∃ s tr₁ tr₂,
    Run.Reach (system 2 2) (fun _ _ e => decide (e ≠ .wake)) s (tr₁ ++ .ended .noTimeout :: tr₂) ∧
      2 ≤ answers tr₁ := by
  obtain ⟨s, tr, h, hc⟩ : ∃ s tr, Run.Reach (system 2 2) (fun _ _ e => decide (e ≠ .wake)) s tr ∧
      decide (Obs.ended .noTimeout ∈ tr) = true :=
    Run.exists_reach_of_exec (answerEvents ++ countEvents) _ (by decide +kernel)
  obtain ⟨tr₁, tr₂, rfl⟩ := List.append_of_mem (of_decide_eq_true hc)
  exact ⟨s, tr₁, tr₂, h, quorum_wait_sound h tr₁ _ tr₂ rfl rfl⟩

/-- Thread `0` at `p`, everybody else out. -/
def State.alone (c : Nat) (p : Pc) : State := ⟨c, none, update (fun _ => .idle) 0 p⟩

/-- An answer of thread `1`, with nobody in between. -/
theorem tell_alone (majority c : Nat) (p : Pc) : ∃ es s os,
    Run.exec (system 2 majority) (fun _ _ _ => true) es (.alone c p) [] = some (s, os) ∧ s.pc 1 = .idle ∧
      s.cnt = (if majority ≤ c then c else c + 1) ∧
      s.pc 0 = (if p = .waiting ∧ c < majority ∧ majority ≤ c + 1 then .relock .noTimeout else p) := by
  by_cases hle : majority ≤ c
  · refine ⟨[.tell 1 true, .run 1], ?_⟩
    simp [Run.exec, system, State.step, State.run, State.goto, State.enough, State.alone, hle, Nat.not_lt.2 hle]
  · have hlt := Nat.lt_of_not_le hle
    by_cases hle' : majority ≤ c + 1
    · by_cases hp : p = .waiting
      · refine ⟨.tell 1 true :: (List.replicate 5 (.run 1) ++ [.notify 1]), ?_⟩
        simp [Run.exec, system, State.step, State.run, State.goto, State.enough, State.alone, hle, hle', hlt, hp,
          List.replicate]
      · refine ⟨.tell 1 true :: List.replicate 6 (.run 1), ?_⟩
        simp [Run.exec, system, State.step, State.run, State.goto, State.enough, State.alone, hle, hle', hp,
          List.replicate]
    · refine ⟨.tell 1 true :: List.replicate 5 (.run 1), ?_⟩
      simp [Run.exec, system, State.step, State.run, State.goto, State.enough, State.alone, hle, hle', List.replicate]

/-- Thread `0` counts itself and comes to its wait, or through, with nobody in between. -/
theorem ask_alone (majority c : Nat) : ∃ es s os,
    Run.exec (system 2 majority) (fun _ _ _ => true) es (.alone c .idle) [] = some (s, os) ∧ s.cnt = c + 1 ∧
      (s.pc 0 = .waiting ↔ ¬ majority ≤ c + 1) ∧ (.ended .noTimeout ∈ os ↔ majority ≤ c + 1) := by
  by_cases hle : majority ≤ c + 1
  · refine ⟨.ask true :: List.replicate 4 (.run 0), ?_⟩
    simp [Run.exec, system, State.step, State.run, State.goto, State.enough, State.alone, hle, List.replicate]
  · refine ⟨.ask true :: List.replicate 3 (.run 0), ?_⟩
    simp [Run.exec, system, State.step, State.run, State.goto, State.enough, State.alone, hle, List.replicate]

end Response

namespace Replica

variable {r : Replica}

/-- `processPrepareOk` counts as a thread of the number's `Response` does. -/
theorem prepareOkCount_tells (resp : PrepResponse) (p : Response.Pc) : ∃ es s os,
      Run.exec (Response.system 2 r.getMajorityCnt) (fun _ _ _ => true) es (.alone (r.waitMap.cnt resp.opNum) p) [] =
        some (s, os) ∧ s.cnt = (r.prepareOkCount resp).rep.waitMap.cnt resp.opNum := by
  obtain ⟨es, s, os, he, -, hcnt, -⟩ := Response.tell_alone r.getMajorityCnt (r.waitMap.cnt resp.opNum) p
  refine ⟨es, s, os, he, hcnt.trans ?_⟩
  unfold prepareOkCount
  dsimp only
  have hreached : ({ r with waitMap := r.waitMap.touch resp.opNum, listener := none } : Replica).quorumReached
      ((r.waitMap.touch resp.opNum).cnt resp.opNum) = decide (r.getMajorityCnt ≤ r.waitMap.cnt resp.opNum) := by
    rw [WaitMap.cnt_touch]
    rfl
  rw [hreached]
  by_cases hle : r.getMajorityCnt ≤ r.waitMap.cnt resp.opNum
  · rw [if_pos hle, if_pos (decide_eq_true hle)]
    exact (WaitMap.cnt_touch _ _ _).symm
  · rw [if_neg hle, if_neg (by simpa using hle)]
    show _ = ((r.waitMap.touch resp.opNum).bump resp.opNum).cnt resp.opNum
    rw [WaitMap.cnt_bump, if_pos rfl, WaitMap.cnt_touch]

/-- `replicate` counts itself and waits as thread `0` does. -/
theorem replicateCount_asks {req : Req} {m : Mutation} {x : PrepInfo} {s : Step}
    (h : r.replicateCount req m x = some s) : ∃ es s' os,
      Run.exec (Response.system 2 r.getMajorityCnt) (fun _ _ _ => true) es (.alone (r.waitMap.cnt x.opNum) .idle) [] =
        some (s', os) ∧ (s'.pc 0 = .waiting ↔ s.rep.client = .waiting req m x) ∧
      (.ended .noTimeout ∈ os ↔ .quorum r.id x ∈ s.obs) := by
  obtain ⟨es, s', os, he, -, hwait, hend⟩ := Response.ask_alone r.getMajorityCnt (r.waitMap.cnt x.opNum)
  refine ⟨es, s', os, he, ?_⟩
  rw [hwait, hend]
  have hreached : ({ r with waitMap := r.waitMap.bump x.opNum } : Replica).quorumReached
      ((r.waitMap.bump x.opNum).cnt x.opNum) = decide (r.getMajorityCnt ≤ r.waitMap.cnt x.opNum + 1) := by
    rw [WaitMap.cnt_bump, if_pos rfl]
    rfl
  unfold replicateCount at h
  dsimp only at h
  rw [hreached] at h
  by_cases hle : r.getMajorityCnt ≤ r.waitMap.cnt x.opNum + 1
  · rw [if_pos (decide_eq_true hle)] at h
    obtain ⟨log, -, rfl⟩ := replicateEnd_eq_some h
    exact ⟨⟨fun hn => absurd hle hn, fun hc => by cases hc⟩, ⟨fun _ => List.mem_cons_self, fun _ => hle⟩⟩
  · rw [if_neg (by simpa using hle)] at h
    cases h
    exact ⟨⟨fun _ => rfl, fun _ => hle⟩, ⟨fun hn => absurd hn hle, fun hm => by cases hm⟩⟩

end Replica
end MetaDR
