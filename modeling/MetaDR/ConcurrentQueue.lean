import MetaDR.Lib.Threads
import MetaDR.Performs
/-!
# ConcurrentQueue — the queues between the threads (server/concurrentQueue.h)

`CQueue` is a queue under a mutex, with a condition variable.  `push` notifies when it has left the mutex; `pop` waits
in a loop, since a wait may end with no notification, or with one for an item that another thread has taken.  Each step
here is one thing that one thread does, so that any number of threads may be anywhere in `push` and `pop`.

Every call takes effect at one step between its start and its end, and the effects are those of a queue
(`queue_linearizable`).  No wake-up is lost: when the calls under way can go no further, those that wait find nothing
in the queue (`queue_delivers`).  So a replica's two queues are lists that one thread adds to and another takes from,
each in one step (`act_queues`, `handle_queues`).
-/
namespace MetaDR
namespace CQueue

open Function Threads

variable {α : Type}

/-- What the thread does next; at `waiting` it is in `cond_.wait`. -/
inductive Pc (α : Type) where
  | idle
  | pushLock (item : α)
  | pushStore (item : α)
  | pushUnlock
  | pushNotify
  | popLock
  | popTest
  | waiting
  | popFront
  | popRemove (val : α)
  | popUnlock (val : α)
  deriving DecidableEq, Repr

structure State (α : Type) where
  queue : List α
  /-- the thread that holds `mutex_` -/
  mutex : Option Nat
  pc : Nat → Pc α

inductive Event (α : Type) where
  | push (t : Nat) (item : α)
  | pop (t : Nat)
  /-- the thread does what it does next -/
  | run (t : Nat)
  /-- its `notify_one` ends the wait of `u` -/
  | notify (t u : Nat)
  /-- the wait ends with no notification -/
  | wake (t : Nat)
  deriving DecidableEq, Repr

/-- What is seen of a thread: its calls, where they take effect, and its returns. -/
inductive Obs (α : Type) where
  | pushCalled (t : Nat) (item : α)
  | stored (t : Nat) (item : α)
  | pushReturned (t : Nat)
  | popCalled (t : Nat)
  | taken (t : Nat) (val : α)
  | popReturned (t : Nat) (val : α)
  deriving DecidableEq, Repr

/-- Where the mutex is held. -/
def Pc.holds : Pc α → Bool
  | .pushStore _ | .pushUnlock | .popTest | .popFront | .popRemove _ | .popUnlock _ => true
  | _ => false

def Pc.waits : Pc α → Nat
  | .waiting => 1
  | _ => 0

namespace State

def init : State α := ⟨[], none, fun _ => .idle⟩

def goto (s : State α) (t : Nat) (p : Pc α) : State α := { s with pc := update s.pc t p }

/-- How many threads wait. -/
def waiters (n : Nat) (s : State α) : Nat := total n Pc.waits s.pc

/-- The next thing thread `t` does; `front` and `pop` of an empty queue are undefined. -/
def run (n : Nat) (s : State α) (t : Nat) : Option (State α × List (Obs α)) :=
  match s.pc t with
  | .idle => none
  | .pushLock item => if s.mutex = none then some ({ s.goto t (.pushStore item) with mutex := some t }, []) else none
  | .pushStore item => some ({ s.goto t .pushUnlock with queue := s.queue ++ [item] }, [.stored t item])
  | .pushUnlock => some ({ s.goto t .pushNotify with mutex := none }, [])
  | .pushNotify => if s.waiters n = 0 then some (s.goto t .idle, [.pushReturned t]) else none
  | .popLock => if s.mutex = none then some ({ s.goto t .popTest with mutex := some t }, []) else none
  | .popTest =>
    if s.queue.isEmpty then some ({ s.goto t .waiting with mutex := none }, []) else some (s.goto t .popFront, [])
  | .waiting => none
  | .popFront => s.queue.head?.map (fun val => (s.goto t (.popRemove val), []))
  | .popRemove val =>
    match s.queue with
    | [] => none
    | _ :: rest => some ({ s.goto t (.popUnlock val) with queue := rest }, [.taken t val])
  | .popUnlock val => some ({ s.goto t .idle with mutex := none }, [.popReturned t val])

/-- The queue as the threads `0 .. n - 1` use it. -/
def step (n : Nat) (s : State α) : Event α → Option (State α × List (Obs α))
  | .push t item =>
    match s.pc t with
    | .idle => if t < n then some (s.goto t (.pushLock item), [.pushCalled t item]) else none
    | _ => none
  | .pop t =>
    match s.pc t with
    | .idle => if t < n then some (s.goto t .popLock, [.popCalled t]) else none
    | _ => none
  | .run t => if t < n then s.run n t else none
  | .notify t u =>
    match s.pc t, s.pc u with
    | .pushNotify, .waiting =>
      if t < n ∧ u < n then some ((s.goto u .popLock).goto t .idle, [.pushReturned t]) else none
    | _, _ => none
  | .wake t =>
    match s.pc t with
    | .waiting => if t < n then some (s.goto t .popLock, []) else none
    | _ => none

end State

def system (α : Type) (n : Nat) : Run.System (State α) (Event α) (Obs α) := ⟨State.init, State.step n⟩

/-- **The runs of `n` threads.** -/
abbrev Reaches (n : Nat) : State α → List (Obs α) → Prop := Run.Reach (system α n) (fun _ _ _ => true)

/-- **What a step can do**: which thread moves, from where, and what it leaves. -/
inductive Moved (n : Nat) (s : State α) : Event α → State α → List (Obs α) → Prop where
  | push {t : Nat} (item : α) (ht : t < n) (hp : s.pc t = .idle) :
      Moved n s (.push t item) (s.goto t (.pushLock item)) [.pushCalled t item]
  | pop {t : Nat} (ht : t < n) (hp : s.pc t = .idle) : Moved n s (.pop t) (s.goto t .popLock) [.popCalled t]
  | pushLock {t : Nat} {item : α} (ht : t < n) (hp : s.pc t = .pushLock item) (hm : s.mutex = none) :
      Moved n s (.run t) { s.goto t (.pushStore item) with mutex := some t } []
  | store {t : Nat} {item : α} (ht : t < n) (hp : s.pc t = .pushStore item) :
      Moved n s (.run t) { s.goto t .pushUnlock with queue := s.queue ++ [item] } [.stored t item]
  | unlock {t : Nat} (ht : t < n) (hp : s.pc t = .pushUnlock) :
      Moved n s (.run t) { s.goto t .pushNotify with mutex := none } []
  | notifyNone {t : Nat} (ht : t < n) (hp : s.pc t = .pushNotify) (hw : s.waiters n = 0) :
      Moved n s (.run t) (s.goto t .idle) [.pushReturned t]
  | notify {t u : Nat} (ht : t < n) (hu : u < n) (hp : s.pc t = .pushNotify) (hw : s.pc u = .waiting) :
      Moved n s (.notify t u) ((s.goto u .popLock).goto t .idle) [.pushReturned t]
  | wake {t : Nat} (ht : t < n) (hp : s.pc t = .waiting) : Moved n s (.wake t) (s.goto t .popLock) []
  | popLock {t : Nat} (ht : t < n) (hp : s.pc t = .popLock) (hm : s.mutex = none) :
      Moved n s (.run t) { s.goto t .popTest with mutex := some t } []
  | wait {t : Nat} (ht : t < n) (hp : s.pc t = .popTest) (hq : s.queue = []) :
      Moved n s (.run t) { s.goto t .waiting with mutex := none } []
  | leave {t : Nat} (ht : t < n) (hp : s.pc t = .popTest) (hq : s.queue ≠ []) :
      Moved n s (.run t) (s.goto t .popFront) []
  | front {t : Nat} {val : α} (ht : t < n) (hp : s.pc t = .popFront) (hq : s.queue.head? = some val) :
      Moved n s (.run t) (s.goto t (.popRemove val)) []
  | remove {t : Nat} {val x : α} {rest : List α} (ht : t < n) (hp : s.pc t = .popRemove val)
      (hq : s.queue = x :: rest) : Moved n s (.run t) { s.goto t (.popUnlock val) with queue := rest } [.taken t val]
  | ret {t : Nat} {val : α} (ht : t < n) (hp : s.pc t = .popUnlock val) :
      Moved n s (.run t) { s.goto t .idle with mutex := none } [.popReturned t val]

theorem State.run_moved {n : Nat} {s s' : State α} {t : Nat} {os : List (Obs α)} (ht : t < n)
    (h : s.run n t = some (s', os)) : Moved n s (.run t) s' os := by
  unfold run at h
  split at h <;> rename_i hp
  · cases h
  · obtain ⟨hm, he⟩ := Option.ite_none_right_eq_some.1 h
    cases he
    exact .pushLock ht hp hm
  · cases h
    exact .store ht hp
  · cases h
    exact .unlock ht hp
  · obtain ⟨hw, he⟩ := Option.ite_none_right_eq_some.1 h
    cases he
    exact .notifyNone ht hp hw
  · obtain ⟨hm, he⟩ := Option.ite_none_right_eq_some.1 h
    cases he
    exact .popLock ht hp hm
  · split at h <;> rename_i hq
    · cases h
      exact .wait ht hp (List.isEmpty_iff.1 hq)
    · cases h
      exact .leave ht hp (fun he => hq (List.isEmpty_iff.2 he))
  · cases h
  · obtain ⟨val, hq, he⟩ := Option.map_eq_some_iff.1 h
    cases he
    exact .front ht hp hq
  · split at h
    · cases h
    · rename_i hq
      cases h
      exact .remove ht hp hq
  · cases h
    exact .ret ht hp

theorem State.step_moved {n : Nat} {s s' : State α} {e : Event α} {os : List (Obs α)}
    (h : s.step n e = some (s', os)) : Moved n s e s' os := by
  unfold step at h
  split at h
  · split at h
    · rename_i hp
      obtain ⟨ht, he⟩ := Option.ite_none_right_eq_some.1 h
      cases he
      exact .push _ ht hp
    · cases h
  · split at h
    · rename_i hp
      obtain ⟨ht, he⟩ := Option.ite_none_right_eq_some.1 h
      cases he
      exact .pop ht hp
    · cases h
  · obtain ⟨ht, he⟩ := Option.ite_none_right_eq_some.1 h
    exact run_moved ht he
  · split at h
    · rename_i hp hw
      obtain ⟨⟨ht, hu⟩, he⟩ := Option.ite_none_right_eq_some.1 h
      cases he
      exact .notify ht hu hp hw
    · cases h
  · split at h
    · rename_i hp
      obtain ⟨ht, he⟩ := Option.ite_none_right_eq_some.1 h
      cases he
      exact .wake ht hp
    · cases h

/-- What a thread inside relies on of the queue. -/
def Pc.Sees : Pc α → List α → Prop
  | .popFront, q => q ≠ []
  | .popRemove val, q => q.head? = some val
  | _, _ => True

theorem Pc.sees_of_not_holds {p : Pc α} (h : p.holds = false) (q : List α) : p.Sees q := by
  cases p with
  | popFront | popRemove => cases h
  | _ => trivial

/-- Threads that are on their way to the test, or to wake somebody who then is. -/
def Pc.wakes : Pc α → Nat
  | .pushUnlock | .pushNotify | .popLock | .popTest | .popFront | .popRemove _ => 1
  | _ => 0

/-- The mutex keeps the others out, the queue is as the one inside left it, and no wake-up is lost: as long as a
thread waits, every item has a thread that is on its way. -/
structure State.Inv (n : Nat) (s : State α) : Prop where
  exclusive : Exclusive Pc.holds s.mutex s.pc
  sees : ∀ t, (s.pc t).Sees s.queue
  outside : ∀ t, n ≤ t → s.pc t = .idle
  awake : 0 < s.waiters n → s.queue.length ≤ total n Pc.wakes s.pc

theorem State.init_inv (n : Nat) : (init : State α).Inv n where
  exclusive := fun _ => ⟨fun h => (nomatch h), fun h => (nomatch h)⟩
  sees := fun _ => trivial
  outside := fun _ _ => rfl
  awake := fun _ => Nat.zero_le _

section

variable {n : Nat} {s s' : State α} {e : Event α} {os : List (Obs α)} {t : Nat} {p : Pc α}

theorem outside_update (h : ∀ t, n ≤ t → s.pc t = .idle) (ht : t < n) (p : Pc α) :
    ∀ u, n ≤ u → update s.pc t p u = .idle := fun u hu => by
  rw [update_of_ne (by omega)]
  exact h u hu

/-- The thread moves and the queue is as before. -/
theorem sees_update (h : ∀ t, (s.pc t).Sees s.queue) (hp : p.Sees s.queue) : ∀ u, (update s.pc t p u).Sees s.queue :=
  fun u => by
    by_cases hu : u = t
    · rw [hu, update_self]
      exact hp
    · rw [update_of_ne hu]
      exact h u

/-- The thread inside changes the queue: nobody else has looked at it. -/
theorem sees_update_inside (h : Exclusive Pc.holds s.mutex s.pc) (ht : (s.pc t).holds = true) {q : List α}
    (hp : p.Sees q) : ∀ u, (update s.pc t p u).Sees q := fun u => by
  by_cases hu : u = t
  · rw [hu, update_self]
    exact hp
  · rw [update_of_ne hu]
    exact Pc.sees_of_not_holds (Bool.eq_false_iff.2 (fun he => hu (h.other ht he))) q

/-- Nobody begins to wait, and the threads on their way make up for the items that are new. -/
theorem awake_update {pc : Nat → Pc α} {k k' : Nat} (h : 0 < total n Pc.waits pc → k ≤ total n Pc.wakes pc)
    (ht : t < n) (hw : p.waits ≤ (pc t).waits) (hk : k' + (pc t).wakes ≤ k + p.wakes) :
    0 < total n Pc.waits (update pc t p) → k' ≤ total n Pc.wakes (update pc t p) := fun hpos => by
  have hwaits := total_update Pc.waits pc ht p
  have hwakes := total_update Pc.wakes pc ht p
  omega

/-- **One step keeps it.** -/
theorem Moved.inv (h : s.Inv n) (m : Moved n s e s' os) : s'.Inv n := by
  cases m with
  | push item ht hp =>
    exact ⟨h.exclusive.move (by rw [hp]; rfl), sees_update h.sees trivial, outside_update h.outside ht _,
      awake_update h.awake ht (by rw [hp]; exact le_rfl) (by rw [hp]; exact le_rfl)⟩
  | pop ht hp =>
    exact ⟨h.exclusive.move (by rw [hp]; rfl), sees_update h.sees trivial, outside_update h.outside ht _,
      awake_update h.awake ht (by rw [hp]; exact le_rfl) (by rw [hp]; exact Nat.le_succ _)⟩
  | pushLock ht hp hm =>
    exact ⟨(hm ▸ h.exclusive).acquire rfl, sees_update h.sees trivial, outside_update h.outside ht _,
      awake_update h.awake ht (by rw [hp]; exact le_rfl) (by rw [hp]; exact le_rfl)⟩
  | store ht hp =>
    exact ⟨h.exclusive.move (by rw [hp]; rfl), sees_update_inside h.exclusive (by rw [hp]; rfl) trivial,
      outside_update h.outside ht _, awake_update h.awake ht (by rw [hp]; exact le_rfl)
        (by rw [hp, List.length_append]; exact le_rfl)⟩
  | unlock ht hp =>
    exact ⟨h.exclusive.release (by rw [hp]; rfl) rfl, sees_update h.sees trivial, outside_update h.outside ht _,
      awake_update h.awake ht (by rw [hp]; exact le_rfl) (by rw [hp]; exact le_rfl)⟩
  | notifyNone ht hp hw =>
    refine ⟨h.exclusive.move (by rw [hp]; rfl), sees_update h.sees trivial, outside_update h.outside ht _,
      fun hpos => ?_⟩
    have hwaits := total_update Pc.waits s.pc ht .idle
    rw [hp, show total n Pc.waits s.pc = 0 from hw] at hwaits
    exact absurd hwaits (by rw [show Pc.waits (.pushNotify : Pc α) = 0 from rfl]; exact hpos.ne')
  | @notify t u ht hu hp hw =>
    have hut : t ≠ u := fun he => by
      rw [he, hw] at hp
      cases hp
    have hpt : (s.goto u .popLock).pc t = .pushNotify := (update_of_ne hut _ _).trans hp
    -- the waiter is on its way before the notifying thread is through
    have hwoken : 0 < total n Pc.waits (update s.pc u .popLock) →
        s.queue.length + 1 ≤ total n Pc.wakes (update s.pc u .popLock) :=
      awake_update h.awake hu (by rw [hw]; exact Nat.zero_le _) (by rw [hw]; exact le_rfl)
    have hexclusive : Exclusive Pc.holds s.mutex (s.goto u .popLock).pc := h.exclusive.move (by rw [hw]; rfl)
    exact ⟨hexclusive.move (by rw [hpt]; rfl),
      sees_update (s := s.goto u .popLock) (sees_update h.sees trivial) trivial,
      outside_update (s := s.goto u .popLock) (outside_update h.outside hu _) ht _,
      awake_update hwoken ht (by rw [hpt]; exact le_rfl) (by rw [hpt]; exact le_rfl)⟩
  | wake ht hp =>
    exact ⟨h.exclusive.move (by rw [hp]; rfl), sees_update h.sees trivial, outside_update h.outside ht _,
      awake_update h.awake ht (by rw [hp]; exact Nat.zero_le _) (by rw [hp]; exact Nat.le_succ _)⟩
  | popLock ht hp hm =>
    exact ⟨(hm ▸ h.exclusive).acquire rfl, sees_update h.sees trivial, outside_update h.outside ht _,
      awake_update h.awake ht (by rw [hp]; exact le_rfl) (by rw [hp]; exact le_rfl)⟩
  | wait ht hp hq =>
    refine ⟨h.exclusive.release (by rw [hp]; rfl) rfl, sees_update h.sees trivial, outside_update h.outside ht _,
      fun _ => ?_⟩
    show s.queue.length ≤ _
    rw [hq]
    exact Nat.zero_le _
  | leave ht hp hq =>
    exact ⟨h.exclusive.move (by rw [hp]; rfl), sees_update h.sees hq, outside_update h.outside ht _,
      awake_update h.awake ht (by rw [hp]; exact le_rfl) (by rw [hp]; exact le_rfl)⟩
  | front ht hp hq =>
    exact ⟨h.exclusive.move (by rw [hp]; rfl), sees_update h.sees hq, outside_update h.outside ht _,
      awake_update h.awake ht (by rw [hp]; exact le_rfl) (by rw [hp]; exact le_rfl)⟩
  | remove ht hp hq =>
    exact ⟨h.exclusive.move (by rw [hp]; rfl), sees_update_inside h.exclusive (by rw [hp]; rfl) trivial,
      outside_update h.outside ht _, awake_update h.awake ht (by rw [hp]; exact le_rfl)
        (by rw [hp, hq]; exact le_rfl)⟩
  | ret ht hp =>
    exact ⟨h.exclusive.release (by rw [hp]; rfl) rfl, sees_update h.sees trivial, outside_update h.outside ht _,
      awake_update h.awake ht (by rw [hp]; exact le_rfl) (by rw [hp]; exact le_rfl)⟩

theorem Reaches.inv {tr : List (Obs α)} (h : Reaches n s tr) : s.Inv n :=
  h.invariant (P := fun s _ => s.Inv n) (State.init_inv n) (fun _ _ _ _ _ _ hi _ hs => (State.step_moved hs).inv hi)

end

/-- How far a thread is with its call. -/
inductive Phase (α : Type) where
  | out
  | pushing (item : α)
  | stored
  | popping
  | taken (val : α)
  deriving DecidableEq, Repr

def Pc.phase : Pc α → Phase α
  | .idle => .out
  | .pushLock item | .pushStore item => .pushing item
  | .pushUnlock | .pushNotify => .stored
  | .popLock | .popTest | .waiting | .popFront | .popRemove _ => .popping
  | .popUnlock val => .taken val

/-- A thread moves and shows nothing. -/
theorem phase_update {pc : Nat → Pc α} {t : Nat} {p p' : Pc α} (hp : pc t = p) (h : p'.phase = p.phase) (u : Nat) :
    (update pc t p' u).phase = (pc u).phase := by
  by_cases hu : u = t
  · rw [hu, update_self, hp, h]
  · rw [update_of_ne hu]

section

variable [DecidableEq α] {n : Nat} {s s' : State α} {e : Event α} {tr os : List (Obs α)}

/-- What it does to a queue: an item goes in at the end, and the first one comes out. -/
def Obs.apply (q : List α) : Obs α → Option (List α)
  | .stored _ item => some (q ++ [item])
  | .taken _ val => if q.head? = some val then some q.tail else none
  | _ => some q

/-- The queue that the effects leave, if they can be those of one. -/
def replay (tr : List (Obs α)) : Option (List α) := tr.foldlM Obs.apply []

/-- A call takes effect once, with what it was called with, and returns what it took. -/
def Phase.next : Phase α → Obs α → Option (Phase α)
  | .out, .pushCalled _ item => some (.pushing item)
  | .pushing item, .stored _ x => if x = item then some .stored else none
  | .stored, .pushReturned _ => some .out
  | .out, .popCalled _ => some .popping
  | .popping, .taken _ val => some (.taken val)
  | .taken val, .popReturned _ x => if x = val then some .out else none
  | _, _ => none

def Obs.thread : Obs α → Nat
  | .pushCalled t _ => t
  | .stored t _ => t
  | .pushReturned t => t
  | .popCalled t => t
  | .taken t _ => t
  | .popReturned t _ => t

/-- What is seen of thread `t`, call after call; `none` if it is out of order. -/
def session (t : Nat) (tr : List (Obs α)) : Option (Phase α) :=
  (tr.filter (fun o => decide (o.thread = t))).foldlM Phase.next .out

theorem session_of_ne {t : Nat} {o : Obs α} (h : o.thread ≠ t) : session t (tr ++ [o]) = session t tr := by
  rw [session, List.filter_append, List.filter_cons_of_neg (by simpa using h), List.filter_nil, List.append_nil]
  rfl

theorem session_self {t : Nat} {o : Obs α} {ph : Phase α} (ho : o.thread = t) (h : session t tr = some ph) :
    session t (tr ++ [o]) = ph.next o := by
  rw [session, List.filter_append, List.filter_cons_of_pos (by simpa using ho), List.filter_nil, List.foldlM_append]
  rw [session] at h
  rw [h]
  simp

/-- A thread moves and shows what takes it there from where it was. -/
theorem session_goto (h : ∀ u, session u tr = some (s.pc u).phase) {t : Nat} {p p' : Pc α} {o : Obs α}
    (hp : s.pc t = p) (ho : o.thread = t) (hn : p.phase.next o = some p'.phase) (u : Nat) :
    session u (tr ++ [o]) = some (update s.pc t p' u).phase := by
  by_cases hu : u = t
  · rw [hu, update_self, session_self ho (h t), hp, hn]
  · rw [update_of_ne hu, session_of_ne (fun he => hu (he.symm.trans ho)), h u]

theorem Moved.session (h : ∀ u, session u tr = some (s.pc u).phase) (m : Moved n s e s' os) (u : Nat) :
    CQueue.session u (tr ++ os) = some (s'.pc u).phase := by
  have hquiet : ∀ {t : Nat} {p p' : Pc α}, s.pc t = p → p'.phase = p.phase →
      CQueue.session u (tr ++ []) = some (update s.pc t p' u).phase := fun hp he => by
    rw [List.append_nil, phase_update hp he, h u]
  cases m with
  | push item ht hp => exact session_goto h hp rfl rfl u
  | pop ht hp => exact session_goto h hp rfl rfl u
  | store ht hp =>
    refine session_goto h hp rfl ?_ u
    exact if_pos rfl
  | notifyNone ht hp => exact session_goto h hp rfl rfl u
  | @notify t w ht hu hp hw =>
    have hwt : t ≠ w := fun he => by
      rw [he, hw] at hp
      cases hp
    refine session_goto (s := s.goto w .popLock) (fun v => ?_) ((update_of_ne hwt _ _).trans hp) rfl rfl u
    exact (h v).trans (congrArg some (phase_update hw (show Pc.phase .popLock = _ from rfl) v).symm)
  | remove ht hp => exact session_goto h hp rfl rfl u
  | ret ht hp =>
    refine session_goto h hp rfl ?_ u
    exact if_pos rfl
  | pushLock ht hp | unlock ht hp | wake ht hp | popLock ht hp | wait ht hp | leave ht hp | front ht hp =>
    exact hquiet hp rfl

/-- The effects so far leave the queue as it is. -/
theorem Moved.replay (hi : s.Inv n) (h : replay tr = some s.queue) (m : Moved n s e s' os) :
    CQueue.replay (tr ++ os) = some s'.queue := by
  have hone : ∀ o : Obs α, CQueue.replay (tr ++ [o]) = o.apply s.queue := fun o => by
    rw [CQueue.replay, List.foldlM_append]
    rw [CQueue.replay] at h
    rw [h]
    simp
  cases m with
  | @remove t val x rest ht hp hq =>
    have hsees : s.queue.head? = some val := by
      have := hi.sees t
      rwa [hp] at this
    rw [hone, Obs.apply, if_pos hsees, hq]
    rfl
  | push | pop | store | notifyNone | notify | ret => exact hone _
  | _ =>
    rw [List.append_nil]
    exact h

/-- **The queue is linearizable.**  In every run of any number of threads, what is stored and taken, in that order, is
what one queue would give, and leaves it as it is; and each thread's calls take effect once, between the call and the
return, with the item that was pushed or is returned. -/
theorem queue_linearizable (h : Reaches n s tr) :
    replay tr = some s.queue ∧ ∀ t, session t tr = some (s.pc t).phase := by
  induction h with
  | init => exact ⟨rfl, fun _ => rfl⟩
  | step h _ hs ih =>
    have m := State.step_moved hs
    exact ⟨m.replay (Reaches.inv h) ih.1, m.session ih.2⟩

end

/-- Thread `0` waits and thread `1` is about to push. -/
def meetEvents : List (Event Nat) := [.pop 0, .run 0, .run 0, .push 1 5]

/-- Thread `1` stores and wakes thread `0`, which takes the item. -/
def handEvents : List (Event Nat) :=
  [.run 1, .run 1, .run 1, .notify 1 0, .run 0, .run 0, .run 0, .run 0, .run 0]

theorem queue_linearizable_two : ∃ (s : State Nat) (tr : List (Obs Nat)), Reaches 2 s tr ∧
    .popReturned 0 5 ∈ tr ∧ replay tr = some [] ∧ session 0 tr = some .out := by
  obtain ⟨s, tr, h, hc⟩ : ∃ s tr, Reaches 2 s tr ∧
      decide (.popReturned 0 5 ∈ tr ∧ s.queue = [] ∧ s.pc 0 = (.idle : Pc Nat)) = true :=
    Run.exists_reach_of_exec (meetEvents ++ handEvents) _ (by decide +kernel)
  obtain ⟨hret, hq, hp⟩ := of_decide_eq_true hc
  obtain ⟨hreplay, hsession⟩ := queue_linearizable h
  exact ⟨s, tr, h, hret, by rw [hreplay, hq], by rw [hsession 0, hp]; rfl⟩

/-- The calls under way go on; nobody calls, and no wait ends by itself. -/
def Event.goesOn : Event α → Bool
  | .run _ | .notify _ _ => true
  | _ => false

/-- How many steps the thread can still take, if it does not wait; the step that ends a wait is the notifying
thread's. -/
def Pc.work : Pc α → Nat
  | .idle => 0
  | .waiting => 0
  | .popUnlock _ => 1
  | .popRemove _ => 2
  | .popFront => 3
  | .popTest => 4
  | .popLock => 5
  | .pushNotify => 6
  | .pushUnlock => 7
  | .pushStore _ => 8
  | .pushLock _ => 9

section

variable {n : Nat} {s s' : State α} {e : Event α} {tr os : List (Obs α)}

/-- Each step uses some of it up. -/
theorem Moved.work (m : Moved n s e s' os) (he : e.goesOn = true) :
    total n Pc.work s'.pc < total n Pc.work s.pc := by
  cases m with
  | push | pop | wake => cases he
  | @notify t u ht hu hp hw =>
    have hut : t ≠ u := fun he => by
      rw [he, hw] at hp
      cases hp
    have h₁ := total_update Pc.work s.pc hu .popLock
    have h₂ := total_update Pc.work (update s.pc u .popLock) ht .idle
    rw [hw] at h₁
    rw [update_of_ne hut, hp] at h₂
    simp only [Pc.work] at h₁ h₂
    show total n Pc.work (update (update s.pc u .popLock) t .idle) < _
    omega
  | pushLock ht hp | store ht hp | unlock ht hp | notifyNone ht hp | popLock ht hp | wait ht hp | leave ht hp
  | front ht hp | remove ht hp | ret ht hp => exact total_update_lt ht hp (by simp [Pc.work])

/-- Where nothing goes on, nobody is inside: one that is could move. -/
theorem State.Inv.free (h : s.Inv n) (hstuck : ∀ e : Event α, e.goesOn = true → s.step n e = none) :
    s.mutex = none := by
  by_contra hm
  obtain ⟨t, hm⟩ := Option.ne_none_iff_exists'.1 hm
  have hholds := (h.exclusive t).2 hm
  have ht : t < n := by
    by_contra hn
    rw [h.outside t (Nat.not_lt.1 hn)] at hholds
    cases hholds
  have hrun : s.run n t = none := by
    have := hstuck (.run t) rfl
    rwa [State.step, if_pos ht] at this
  have hsees := h.sees t
  unfold State.run at hrun
  cases hp : s.pc t with
  | popTest =>
    simp only [hp] at hrun
    split at hrun <;> cases hrun
  | popFront =>
    simp only [hp, Option.map_eq_none_iff, List.head?_eq_none_iff] at hrun
    rw [hp] at hsees
    exact hsees hrun
  | popRemove val =>
    simp only [hp] at hrun
    rw [hp] at hsees
    cases hq : s.queue with
    | nil =>
      have hsees : s.queue.head? = some val := hsees
      rw [hq] at hsees
      cases hsees
    | cons => simp [hq] at hrun
  | idle | pushLock | pushNotify | popLock | waiting =>
    rw [hp] at hholds
    cases hholds
  | pushStore | pushUnlock | popUnlock => simp [hp] at hrun

/-- Nor on the way in, nor out. -/
theorem State.Inv.out (h : s.Inv n) (hstuck : ∀ e : Event α, e.goesOn = true → s.step n e = none) {t : Nat}
    (ht : t < n) : s.pc t = .idle ∨ s.pc t = .waiting := by
  have hm := h.free hstuck
  have hrun : s.run n t = none := by
    have := hstuck (.run t) rfl
    rwa [State.step, if_pos ht] at this
  have hnot : (s.pc t).holds ≠ true := fun he => by
    have := (h.exclusive t).1 he
    rw [hm] at this
    cases this
  unfold State.run at hrun
  cases hp : s.pc t with
  | idle => exact .inl rfl
  | waiting => exact .inr rfl
  | pushLock | popLock => simp [hp, hm] at hrun
  | pushNotify =>
    -- somebody waits, and is the one to wake
    have hw : s.waiters n ≠ 0 := by simpa [hp] using hrun
    obtain ⟨u, hu, hne⟩ : ∃ u < n, Pc.waits (s.pc u) ≠ 0 := by
      by_contra hex
      refine hw (total_eq_zero.2 (fun u hu => ?_))
      by_contra hne
      exact hex ⟨u, hu, hne⟩
    have hwait : s.pc u = .waiting := by
      cases hpu : s.pc u with
      | waiting => rfl
      | _ => exact absurd (by rw [hpu]; rfl) hne
    have := hstuck (.notify t u) rfl
    simp [State.step, hp, hwait, ht, hu] at this
  | pushStore | pushUnlock | popTest | popFront | popRemove | popUnlock =>
    rw [hp] at hnot
    exact absurd rfl hnot

/-- **Where nothing goes on, everybody is out or waits, and those wait for an item.** -/
theorem State.Inv.rests (h : s.Inv n) (hstuck : ∀ e : Event α, e.goesOn = true → s.step n e = none) {t : Nat}
    (ht : t < n) : s.pc t = .idle ∨ s.pc t = .waiting ∧ s.queue = [] := by
  rcases h.out hstuck ht with hp | hp
  · exact .inl hp
  · refine .inr ⟨hp, List.length_eq_zero_iff.1 (Nat.le_zero.1 ?_)⟩
    have hpos : 0 < s.waiters n := Nat.lt_of_lt_of_le (by rw [hp]; exact Nat.zero_lt_one) (le_total Pc.waits s.pc ht)
    have hzero : total n Pc.wakes s.pc = 0 := total_eq_zero.2 (fun u hu => by
      rcases h.out hstuck hu with he | he <;> rw [he] <;> rfl)
    exact (h.awake hpos).trans hzero.le

/-- **No wake-up is lost.**  In any state of any run, the calls under way can take only so many steps, in whatever
order, until another call is made or a wait ends by itself; and when they can take no more, every thread has returned
or waits, and if one waits there is nothing in the queue. -/
theorem queue_delivers {tr' : List (Obs α)} {es : List (Event α)} (h : Reaches n s tr)
    (he : Run.exec (system α n) (fun _ _ e => e.goesOn) es s tr = some (s', tr')) :
    es.length ≤ total n Pc.work s.pc ∧ ((∀ e : Event α, e.goesOn = true → s'.step n e = none) →
      ∀ t < n, s'.pc t = .idle ∨ s'.pc t = .waiting ∧ s'.queue = []) := by
  have hstep : ∀ (s : State α) (_ : List (Obs α)) (e : Event α) (s' : State α) (os : List (Obs α)), s.Inv n →
      e.goesOn = true → s.step n e = some (s', os) → s'.Inv n ∧ total n Pc.work s'.pc < total n Pc.work s.pc :=
    fun _ _ _ _ _ hi hgo hs => ⟨(State.step_moved hs).inv hi, (State.step_moved hs).work hgo⟩
  obtain ⟨h', hlen⟩ := Run.exec_le hstep es (Reaches.inv h) he
  exact ⟨by omega, fun hstuck t ht => h'.rests hstuck ht⟩

end

theorem queue_delivers_two : ∃ (s s' : State Nat) (tr tr' : List (Obs Nat)), Reaches 2 s tr ∧ s.pc 0 = .waiting ∧
    Run.exec (system Nat 2) (fun _ _ e => e.goesOn) handEvents s tr = some (s', tr') ∧
    handEvents.length ≤ total 2 Pc.work s.pc ∧ (s'.pc 0 = .idle ∨ s'.pc 0 = .waiting ∧ s'.queue = []) := by
  obtain ⟨s, tr, h, hc⟩ : ∃ s tr, Reaches 2 s tr ∧ (decide (s.pc 0 = .waiting) &&
      (Run.exec (system Nat 2) (fun _ _ e => e.goesOn) handEvents s tr).any
        (fun p : State Nat × List (Obs Nat) => decide (p.1.pc 0 = .idle) && decide (p.1.pc 1 = .idle))) = true :=
    Run.exists_reach_of_exec meetEvents _ (by decide +kernel)
  simp only [Bool.and_eq_true, decide_eq_true_eq] at hc
  obtain ⟨hwait, hexec⟩ := hc
  cases he : Run.exec (system Nat 2) (fun _ _ e => e.goesOn) handEvents s tr with
  | none =>
    rw [he] at hexec
    cases hexec
  | some q =>
    obtain ⟨s', tr'⟩ := q
    rw [he] at hexec
    simp only [Option.any_some, Bool.and_eq_true, decide_eq_true_eq] at hexec
    have hidle : ∀ t < 2, s'.pc t = .idle := fun t ht => by
      obtain rfl | rfl : t = 0 ∨ t = 1 := by omega
      · exact hexec.1
      · exact hexec.2
    have hstuck : ∀ e : Event Nat, e.goesOn = true → s'.step 2 e = none := fun e hgo => by
      cases hs : s'.step 2 e with
      | none => rfl
      | some q =>
        obtain ⟨s'', os⟩ := q
        cases State.step_moved hs with
        | push | pop | wake => cases hgo
        | pushLock ht hp | store ht hp | unlock ht hp | notifyNone ht hp | notify ht _ hp | popLock ht hp
        | wait ht hp | leave ht hp | front ht hp | remove ht hp | ret ht hp =>
          rw [hidle _ ht] at hp
          cases hp
    obtain ⟨hlen, hrest⟩ := queue_delivers h he
    exact ⟨s, s', tr, tr', h, hwait, he, hlen, hrest hstuck 0 (by decide)⟩

end CQueue

namespace Replica

variable {r : Replica} {s : Step} {now : Nat}

/-- The workers, thread `1` of each queue, take from them. -/
theorem act_queues {a : Act} (h : r.act now a = .ok s) :
    (s.rep.prepReqQ = r.prepReqQ ∨
      a = .prepCheck ∧ ∃ x, (CQueue.Obs.taken 1 x).apply r.prepReqQ = some s.rep.prepReqQ) ∧
    (s.rep.recoveryReqQ = r.recoveryReqQ ∨
      a = .recReqCheck ∧ ∃ x, (CQueue.Obs.taken 1 x).apply r.recoveryReqQ = some s.rep.recoveryReqQ) := by
  cases performs_of_act h with
  | popped prepInfo rest ppit hp hq =>
    refine ⟨.inr ⟨rfl, prepInfo, ?_⟩, .inl rfl⟩
    rw [hq]
    exact if_pos rfl
  | recPopped req rest prr hp hq =>
    refine ⟨.inl rfl, .inr ⟨rfl, req, ?_⟩⟩
    rw [hq]
    exact if_pos rfl
  | recovered a nonce s hb hend =>
    obtain ⟨resp, rfl⟩ := recoverEnd_eq_some hend
    exact ⟨.inl rfl, .inl rfl⟩
  | _ => exact ⟨.inl rfl, .inl rfl⟩

/-- The listener, thread `0`, adds to them. -/
theorem handle_queues {msg : Msg} (h : r.handle now msg = .ok s) :
    (s.rep.prepReqQ = r.prepReqQ ∨
      ∃ x, msg = .prepare x ∧ (CQueue.Obs.stored 0 x).apply r.prepReqQ = some s.rep.prepReqQ) ∧
    (s.rep.recoveryReqQ = r.recoveryReqQ ∨
      ∃ x, msg = .recoveryRequest x ∧ (CQueue.Obs.stored 0 x).apply r.recoveryReqQ = some s.rep.recoveryReqQ) := by
  cases handles_of_handle h with
  | queued prepInfo => exact ⟨.inr ⟨prepInfo, rfl, rfl⟩, .inl rfl⟩
  | recQueued req => exact ⟨.inl rfl, .inr ⟨req, rfl, rfl⟩⟩
  | _ => exact ⟨.inl rfl, .inl rfl⟩

end Replica
end MetaDR
