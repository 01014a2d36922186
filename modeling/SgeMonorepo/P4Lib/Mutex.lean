import SgeMonorepo.P4Lib.Ownership

/-!
# The critical sections, statement by statement

`P4runcb.lean` runs each critical section of a pool as one step: `Pool::Client` takes the front
of the queue (lines 36-42) and the lease deleter pushes the client back or deletes it (lines
70-77).  The code does more than one thing in each.  It locks the pool's `mu_`, tests the queue
(and, in the deleter, `c->Dropped()`), runs the branch the test chose, and unlocks `mu_` as the
`lock_guard` goes out of scope.  Between the test and the branch another call could change the
queue, were it not for the mutex, and then `clients_.front()` would read an empty deque, or the
deleter would push a client onto a queue that is already full.

This file runs the two sections as the code does, one step per statement that touches the
queue, with the owner of each `mu_` as part of the state (`MutexWorld`).  The pieces of
`p4runcb` outside the sections are the atomic model's.  `clients_.front()` of an empty deque is
undefined behaviour, and `MutexWorld.body` has no step there.

## Strategy

* `LockInv` says that `mu_` is held by exactly the calls inside a section of its pool, and that
  what a call inside a section has tested still reads the same (`Critical.Sound`).  A step of
  another call cannot change that: it is either outside both sections, where it leaves the
  queues alone and touches no client but its own and a new one, or inside a section of the
  other pool.
* With a current test, the branch is the atomic model's step (`body_of_popTested`,
  `body_of_relTested`), and locking, testing and unlocking change nothing of the process: each
  step of the mutex-level process is a stutter or a step of the atomic model
  (`world_step`).  So every state of the mutex level has the world of a reachable state
  (`mutex_refinement`), and every invariant proved of the atomic model holds there.
* A call inside a section can always take its next step there (`inside_progress`), so a call
  waiting on a held mutex waits on a call that goes on (`no_deadlock`).
* Conversely, an atomic step is lock, test, body, unlock run back to back, so the two levels
  reach the same worlds when no mutex is held (`mutex_quiet_iff`).
-/

namespace SgeMonorepo.P4Lib

open Function

/-- Where a call is inside a critical section of its pool, which it entered by locking the
pool's `mu_`. -/
inductive Critical
  /-- `Pool::Client` has locked `mu_` (line 37). -/
  | popLocked
  /-- It read `!clients_.empty()` as `nonempty` (line 38). -/
  | popTested (nonempty : Bool)
  /-- It moved the front client out (lines 39-40) or skipped the `if`, and leaves the block. -/
  | popDone
  /-- The deleter has locked `mu_` (line 71). -/
  | relLocked
  /-- It read `!c->Dropped() && (clients_.size() < kMaxClients)` as `push` (line 72). -/
  | relTested (push : Bool)
  /-- It pushed `c` back (line 73) or deleted it (line 75), and returns. -/
  | relDone
deriving DecidableEq

/-- The program counters at which a call runs one of its pool's critical sections. -/
def Pc.critical : Pc → Bool
  | .loop | .release .. => true
  | _ => false

namespace World

/-- The test of `Pool::Client`, `!clients_.empty()`, on the pool selected by `tag`. -/
def popTest (w : World) (tag : Bool) : Bool := !(w.idle tag).isEmpty

/-- The test of the deleter for client `c`, `!c->Dropped() && (clients_.size() < kMaxClients)`. -/
def releaseTest (w : World) (tag : Bool) (c : SessionId) : Bool :=
  !(w.sessions c).dropped && decide ((w.idle tag).length < kMaxClients)

end World

/-- What a call inside a section has seen still holds: until its branch it is where the atomic
model runs the section, and the test it made reads the same on the current state. -/
def Critical.Sound (w : World) (tag : Bool) : Critical → Pc → Prop
  | .popLocked, pc => pc = .loop
  | .popTested b, pc => pc = .loop ∧ b = w.popTest tag
  | .relLocked, pc => ∃ c exit, pc = .release c exit
  | .relTested p, pc => ∃ c exit, pc = .release c exit ∧ p = w.releaseTest tag c
  | .popDone, _ | .relDone, _ => True

/-- The process with the pools' mutexes. -/
structure MutexWorld where
  world : World
  /-- Where each call is inside a critical section; `none` outside both. -/
  inside : Nat → Option Critical
  /-- The call holding the `mu_` of the pool selected by `tag`, if any. -/
  holder : Bool → Option Nat

/-- A step of a call at the mutex level. -/
inductive MutexAct
  /-- `std::lock_guard<std::mutex> lock(mu_)` (lines 37 and 71); it waits while `mu_` is held. -/
  | lock
  /-- The `if` condition (line 38 or line 72). -/
  | test
  /-- The branch the test chose (lines 39-40, or line 73 or line 75). -/
  | body
  /-- The `lock_guard` goes out of scope (line 42 or line 77). -/
  | unlock
  /-- A piece of `p4runcb` outside both critical sections, as the atomic model runs it. -/
  | piece (act : Act)

namespace MutexWorld

/-- The process with no mutex held. -/
def quiet (w : World) : MutexWorld := ⟨w, fun _ => none, fun _ => none⟩

variable (f : MutexWorld) (i : Nat)

/-- The pool call `i` selected at line 184. -/
def tag : Bool := (f.world.calls i).args.tag

/-- Call `i` locks its pool's `mu_` and enters section `s`. -/
def enter (s : Critical) : MutexWorld :=
  { f with inside := update f.inside i (some s), holder := update f.holder (f.tag i) (some i) }

/-- Call `i` goes on to `s` inside its section. -/
def move (s : Critical) : MutexWorld := { f with inside := update f.inside i (some s) }

/-- Call `i` unlocks its pool's `mu_`. -/
def leave : MutexWorld :=
  { f with inside := update f.inside i none, holder := update f.holder (f.tag i) none }

/-- `lock_guard lock(mu_)`, at the call to `pool.Client` (line 188) or as the lease ends. -/
def lock : Option MutexWorld :=
  match f.inside i, f.holder (f.tag i), (f.world.calls i).pc with
  | none, none, .loop => some (f.enter i .popLocked)
  | none, none, .release .. => some (f.enter i .relLocked)
  | _, _, _ => none

/-- The test of the section, reading the queue and, in the deleter, `c->Dropped()`. -/
def test : Option MutexWorld :=
  match f.inside i, (f.world.calls i).pc with
  | some .popLocked, _ => some (f.move i (.popTested (f.world.popTest (f.tag i))))
  | some .relLocked, .release c _ => some (f.move i (.relTested (f.world.releaseTest (f.tag i) c)))
  | _, _ => none

/-- The branch the test chose, as the test read, whatever the queue holds now.  The front of an
empty deque is undefined, and there is no step there. -/
def body : Option MutexWorld :=
  let w := f.world
  let t := f.tag i
  let k := w.calls i
  match f.inside i, k.pc with
  | some (.popTested true), _ =>
    match w.idle t with
    | c :: rest =>
      some { f.move i .popDone with
             world := (w.setPool t ⟨rest⟩).setCall i (k.popped (some c)) }
    | [] => none
  | some (.popTested false), _ =>
    some { f.move i .popDone with world := w.setCall i (k.popped none) }
  | some (.relTested true), .release c exit =>
    some { f.move i .relDone with
           world := (w.setPool t ⟨w.idle t ++ [c]⟩).setCall i (k.release c exit true) }
  | some (.relTested false), .release c exit =>
    some { f.move i .relDone with world := (w.delete c).setCall i (k.release c exit false) }
  | _, _ => none

/-- The end of the `lock_guard`'s scope. -/
def unlock : Option MutexWorld :=
  match f.inside i with
  | some .popDone | some .relDone => some (f.leave i)
  | _ => none

/-- A piece of `p4runcb` outside both sections. -/
def piece (act : Act) : Option MutexWorld :=
  if f.inside i = none ∧ (f.world.calls i).pc.critical = false then
    (step f.world i act).map fun w => { f with world := w }
  else none

/-- Call `i` takes its next step at the mutex level. -/
def step : MutexAct → Option MutexWorld
  | .lock => f.lock i
  | .test => f.test i
  | .body => f.body i
  | .unlock => f.unlock i
  | .piece act => f.piece i act

section Updates

variable (s : Critical)

@[simp] theorem enter_world : (f.enter i s).world = f.world := rfl
@[simp] theorem enter_inside : (f.enter i s).inside = update f.inside i (some s) := rfl
@[simp] theorem enter_holder : (f.enter i s).holder = update f.holder (f.tag i) (some i) := rfl
@[simp] theorem move_world : (f.move i s).world = f.world := rfl
@[simp] theorem move_inside : (f.move i s).inside = update f.inside i (some s) := rfl
@[simp] theorem move_holder : (f.move i s).holder = f.holder := rfl
@[simp] theorem leave_world : (f.leave i).world = f.world := rfl
@[simp] theorem leave_inside : (f.leave i).inside = update f.inside i none := rfl
@[simp] theorem leave_holder : (f.leave i).holder = update f.holder (f.tag i) none := rfl
@[simp] theorem quiet_world (w : World) : (quiet w).world = w := rfl
@[simp] theorem quiet_inside (w : World) (j : Nat) : (quiet w).inside j = none := rfl
@[simp] theorem quiet_holder (w : World) (t : Bool) : (quiet w).holder t = none := rfl
@[simp] theorem enter_tag : (f.enter i s).tag = f.tag := rfl
@[simp] theorem move_tag : (f.move i s).tag = f.tag := rfl
@[simp] theorem leave_tag : (f.leave i).tag = f.tag := rfl

end Updates

end MutexWorld

/-- The states the mutex-level process reaches from its start. -/
inductive MutexReachable (argsOf : Nat → Args) : MutexWorld → Prop
  | init : MutexReachable argsOf (.quiet (World.init argsOf))
  | step {f f' : MutexWorld} {i : Nat} {a : MutexAct} :
      MutexReachable argsOf f → f.step i a = some f' → MutexReachable argsOf f'

/-- The mutexes are used as the code uses them: a pool's `mu_` is held by exactly the calls
inside one of its sections, and every such call's test still reads the same. -/
structure MutexWorld.LockInv (f : MutexWorld) : Prop where
  holder_inside : ∀ t i, f.holder t = some i → f.inside i ≠ none ∧ f.tag i = t
  inside_holder : ∀ i s, f.inside i = some s → f.holder (f.tag i) = some i
  sound : ∀ i s, f.inside i = some s → s.Sound f.world (f.tag i) (f.world.calls i).pc

namespace MutexWorld

variable {f f' : MutexWorld} {i : Nat}

/-! ## The branch of a current test is the atomic step -/

theorem body_of_popTested (hs : f.inside i = some (.popTested (f.world.popTest (f.tag i))))
    (hpc : (f.world.calls i).pc = .loop) :
    f.body i = some { f.move i .popDone with world := f.world.pop i } := by
  simp only [World.popTest, World.idle, tag] at hs
  cases hq : (f.world.pools (f.world.calls i).args.tag).clients <;>
    simp [body, World.pop, Pool.pop, World.idle, tag, hs, hpc, hq]

theorem body_of_relTested {c : SessionId} {exit : Bool}
    (hs : f.inside i = some (.relTested (f.world.releaseTest (f.tag i) c)))
    (hpc : (f.world.calls i).pc = .release c exit) :
    f.body i = some { f.move i .relDone with world := f.world.release i c exit } := by
  simp only [World.releaseTest, World.idle, tag] at hs
  cases hp : (!(f.world.sessions c).dropped &&
      decide ((f.world.pools (f.world.calls i).args.tag).clients.length < kMaxClients)) <;>
    simp only [hp] at hs <;> simp [body, World.release, Pool.release, World.idle, tag, hs, hpc, hp]

/-! ## Everything a step can be -/

theorem lock_eq (h : f.lock i = some f') : f.inside i = none ∧ f.holder (f.tag i) = none ∧
    ∃ s, s.Sound f.world (f.tag i) (f.world.calls i).pc ∧ f' = f.enter i s := by
  unfold lock at h
  split at h <;> cases h
  · exact ⟨‹_›, ‹_›, .popLocked, ‹_›, rfl⟩
  · exact ⟨‹_›, ‹_›, .relLocked, ⟨_, _, ‹_›⟩, rfl⟩

theorem test_eq (hI : f.LockInv) (h : f.test i = some f') : f.inside i ≠ none ∧
    ∃ s, s.Sound f.world (f.tag i) (f.world.calls i).pc ∧ f' = f.move i s := by
  unfold test at h
  split at h <;> cases h
  · rename_i hs
    exact ⟨by simp [hs], .popTested _, ⟨hI.sound i _ hs, rfl⟩, rfl⟩
  · rename_i c exit hs hpc
    exact ⟨by simp [hs], .relTested _, ⟨c, exit, hpc, rfl⟩, rfl⟩

theorem body_eq (hI : f.LockInv) (h : f.body i = some f') : f.inside i ≠ none ∧
    (∃ act, P4Lib.step f.world i act = some f'.world) ∧
    ∃ s, s.Sound f'.world (f.tag i) (f'.world.calls i).pc ∧
      f' = { f.move i s with world := f'.world } := by
  cases hs : f.inside i with
  | none => simp [body, hs] at h
  | some s =>
    have hsound := hI.sound i s hs
    cases s with
    | popTested b =>
      obtain ⟨hpc, rfl⟩ := hsound
      rw [body_of_popTested hs hpc] at h
      cases h
      exact ⟨by simp, ⟨.acquire, by unfold P4Lib.step; rw [hpc]⟩, .popDone, trivial, rfl⟩
    | relTested p =>
      obtain ⟨c, exit, hpc, rfl⟩ := hsound
      rw [body_of_relTested hs hpc] at h
      cases h
      exact ⟨by simp, ⟨.release, by unfold P4Lib.step; rw [hpc]⟩, .relDone, trivial, rfl⟩
    | _ => simp [body, hs] at h

theorem unlock_eq (h : f.unlock i = some f') : f.inside i ≠ none ∧ f' = f.leave i := by
  unfold unlock at h
  split at h <;> cases h <;> simp_all

theorem piece_eq {act : Act} (h : f.piece i act = some f') : f.inside i = none ∧
    (f.world.calls i).pc.critical = false ∧ P4Lib.step f.world i act = some f'.world ∧
    f' = { f with world := f'.world } := by
  unfold piece at h
  split at h
  · obtain ⟨w', hw', rfl⟩ := Option.map_eq_some'.1 h
    exact ⟨‹_ ∧ _›.1, ‹_ ∧ _›.2, hw', rfl⟩
  · cases h

/-! ## The lock invariant -/

theorem lockInv_quiet (w : World) : (quiet w).LockInv :=
  ⟨fun _ _ h => (by cases h), fun _ _ h => (by cases h), fun _ _ h => (by cases h)⟩

/-- The test a call has made reads the same after a change of the process that leaves its queue
and, in the deleter, its client alone. -/
theorem sound_frame {s : Critical} {w w' : World} {t : Bool} {pc : Pc} (h : s.Sound w t pc)
    (hidle : w'.idle t = w.idle t)
    (hsess : ∀ c exit, pc = .release c exit → w'.sessions c = w.sessions c) :
    s.Sound w' t pc := by
  cases s with
  | popTested b => exact ⟨h.1, by rw [h.2, World.popTest, World.popTest, hidle]⟩
  | relTested p =>
    obtain ⟨c, exit, hpc, rfl⟩ := h
    exact ⟨c, exit, hpc, by rw [World.releaseTest, World.releaseTest, hidle, hsess c exit hpc]⟩
  | _ => exact h

/-- A step of call `i` in the atomic model keeps the test of another call `j`, as long as it
leaves `j`'s queue alone: `j`'s client is nobody else's. -/
theorem sound_step {w w' : World} {act : Act} (hsafe : w.owners.Safe)
    (hs : P4Lib.step w i act = some w') {j : Nat} (hj : j ≠ i) {s : Critical} {t : Bool}
    (hidle : w'.idle t = w.idle t) (h : s.Sound w t (w.calls j).pc) :
    s.Sound w' t (w'.calls j).pc := by
  rw [calls_step_of_ne hs hj]
  refine sound_frame h hidle fun c exit hpc => ?_
  have hc : w.owners.held j = some c := by
    simp [World.owners, World.held, Call.held, hpc, Pc.session]
  exact sessions_step hs (fun hi => hj (hsafe.held_inj hc hi)) (hsafe.ne_nextId_of_held hc)

/-- The tests of the calls inside a section, after call `i` alone has changed where it is. -/
theorem sound_update {ins : Nat → Option Critical} {w : World} {tag : Nat → Bool}
    {o : Option Critical} (hi : ∀ s, o = some s → s.Sound w (tag i) (w.calls i).pc)
    (hother : ∀ j s, j ≠ i → ins j = some s → s.Sound w (tag j) (w.calls j).pc) :
    ∀ j s, update ins i o j = some s → s.Sound w (tag j) (w.calls j).pc := by
  intro j s h
  by_cases hj : j = i
  · subst hj
    exact hi s (by rwa [update_same] at h)
  · exact hother j s hj (by rwa [update_noteq hj] at h)

namespace LockInv

variable (hI : f.LockInv)
include hI

/-- At most one call is inside the sections of a pool. -/
theorem eq_of_inside {j : Nat} {s s' : Critical} (hi : f.inside i = some s)
    (hj : f.inside j = some s') (ht : f.tag j = f.tag i) : j = i := by
  have h := hI.inside_holder j s' hj
  rw [ht, hI.inside_holder i s hi] at h
  exact (Option.some.inj h).symm

theorem enter (hin : f.inside i = none) (hfree : f.holder (f.tag i) = none) {s : Critical}
    (hs : s.Sound f.world (f.tag i) (f.world.calls i).pc) : (f.enter i s).LockInv where
  holder_inside t j h := by
    rw [enter_holder, update_apply] at h
    split at h
    · cases h
      simp [*]
    · have hj : j ≠ i := by rintro rfl; exact (hI.holder_inside t j h).1 hin
      simpa [hj] using hI.holder_inside t j h
  inside_holder j s' h := by
    by_cases hj : j = i
    · simp [hj]
    · rw [enter_inside, update_noteq hj] at h
      have ht : f.tag j ≠ f.tag i := fun ht => by simpa [ht, hfree] using hI.inside_holder j s' h
      simpa [ht] using hI.inside_holder j s' h
  sound := sound_update (fun _ h => Option.some.inj h ▸ hs) fun j s' _ h => hI.sound j s' h

theorem move {w' : World} (hin : f.inside i ≠ none)
    (hargs : ∀ j, (w'.calls j).args = (f.world.calls j).args) {s : Critical}
    (hs : s.Sound w' (f.tag i) (w'.calls i).pc)
    (hother : ∀ j s', j ≠ i → f.inside j = some s' →
      s'.Sound w' (f.tag j) (w'.calls j).pc) :
    ({ f.move i s with world := w' } : MutexWorld).LockInv := by
  have htag : ∀ j, (w'.calls j).args.tag = f.tag j := fun j => congrArg Args.tag (hargs j)
  refine ⟨fun t j h => ?_, fun j s' h => ?_, fun j s' h => ?_⟩ <;>
    simp only [tag, move_holder, move_inside] at h ⊢ <;> simp only [htag]
  · by_cases hj : j = i
    · subst hj; simpa using (hI.holder_inside t j h).2
    · simpa [hj] using hI.holder_inside t j h
  · by_cases hj : j = i
    · subst hj
      obtain ⟨s₀, hs₀⟩ := Option.ne_none_iff_exists'.1 hin
      exact hI.inside_holder j s₀ hs₀
    · rw [update_noteq hj] at h
      exact hI.inside_holder j s' h
  · exact sound_update (fun _ h => Option.some.inj h ▸ hs) hother j s' h

theorem leave (hin : f.inside i ≠ none) : (f.leave i).LockInv where
  holder_inside t j h := by
    rw [leave_holder, update_apply] at h
    split at h
    · cases h
    · rename_i ht
      have hj : j ≠ i := by rintro rfl; exact ht (hI.holder_inside t j h).2.symm
      simpa [hj] using hI.holder_inside t j h
  inside_holder j s' h := by
    by_cases hj : j = i
    · simp [hj] at h
    · rw [leave_inside, update_noteq hj] at h
      have ht : f.tag j ≠ f.tag i := fun ht => hj (hI.eq_of_inside
        (Option.ne_none_iff_exists'.1 hin).choose_spec h ht)
      simpa [ht] using hI.inside_holder j s' h
  sound := sound_update (fun _ h => nomatch h) fun j s' _ h => hI.sound j s' h

theorem piece {w' : World} (hargs : ∀ j, (w'.calls j).args = (f.world.calls j).args)
    (hother : ∀ j s', f.inside j = some s' → s'.Sound w' (f.tag j) (w'.calls j).pc) :
    ({ f with world := w' } : MutexWorld).LockInv := by
  have htag : ∀ j, (w'.calls j).args.tag = f.tag j := fun j => congrArg Args.tag (hargs j)
  refine ⟨fun t j h => ?_, fun j s' h => ?_, fun j s' h => ?_⟩ <;>
    simp only [tag, htag] at h ⊢
  · exact hI.holder_inside t j h
  · exact hI.inside_holder j s' h
  · exact hother j s' h

end LockInv

/-! ## Each step keeps the invariant and refines the atomic model -/

/-- Every step of the mutex level keeps the lock invariant. -/
theorem lockInv_step (hsafe : f.world.owners.Safe) (hI : f.LockInv) {a : MutexAct}
    (h : f.step i a = some f') : f'.LockInv := by
  cases a with
  | lock =>
    obtain ⟨hin, hfree, s, hs, rfl⟩ := lock_eq h
    exact hI.enter hin hfree hs
  | test =>
    obtain ⟨hin, s, hs, rfl⟩ := test_eq hI h
    exact hI.move hin (fun _ => rfl) hs fun j s' _ hj => hI.sound j s' hj
  | body =>
    obtain ⟨hin, ⟨act, hstep⟩, s, hs, hf'⟩ := body_eq hI h
    obtain ⟨s₀, hs₀⟩ := Option.ne_none_iff_exists'.1 hin
    rw [hf']
    refine hI.move hin (fun j => args_step hstep) hs fun j s' hj hs' => ?_
    have ht : f.tag i ≠ f.tag j := fun ht => hj (hI.eq_of_inside hs₀ hs' ht.symm)
    exact sound_step hsafe hstep hj (idle_step_of_ne hstep ht) (hI.sound j s' hs')
  | unlock =>
    obtain ⟨hin, rfl⟩ := unlock_eq h
    exact hI.leave hin
  | piece act =>
    obtain ⟨hin, hcrit, hstep, hf'⟩ := piece_eq h
    rw [hf']
    refine hI.piece (fun j => args_step hstep) fun j s' hs' => ?_
    have hj : j ≠ i := by rintro rfl; simp [hin] at hs'
    refine sound_step hsafe hstep hj (idle_step_eq hstep (fun hpc => ?_) fun c exit hpc => ?_)
      (hI.sound j s' hs') <;> simp [hpc, Pc.critical] at hcrit

/-- Locking, testing and unlocking leave the process alone; the branch of a section and every
piece outside the sections are steps of the atomic model. -/
theorem world_step (hI : f.LockInv) {a : MutexAct} (h : f.step i a = some f') :
    f'.world = f.world ∨ ∃ act, P4Lib.step f.world i act = some f'.world := by
  cases a with
  | lock => obtain ⟨-, -, s, -, rfl⟩ := lock_eq h; exact .inl rfl
  | test => obtain ⟨-, s, -, rfl⟩ := test_eq hI h; exact .inl rfl
  | body => exact .inr (body_eq hI h).2.1
  | unlock => obtain ⟨-, rfl⟩ := unlock_eq h; exact .inl rfl
  | piece act => exact .inr ⟨act, (piece_eq h).2.2.1⟩

/-- A call inside a section can always take its next step there: in particular the front of the
queue is never read off an empty deque. -/
theorem inside_progress (hI : f.LockInv) {s : Critical} (hs : f.inside i = some s) :
    ∃ a f', f.step i a = some f' := by
  have hsound := hI.sound i s hs
  cases s with
  | popLocked => exact ⟨.test, by simp [step, test, hs]⟩
  | popTested b =>
    obtain ⟨hpc, rfl⟩ := hsound
    exact ⟨.body, _, body_of_popTested hs hpc⟩
  | popDone => exact ⟨.unlock, by simp [step, unlock, hs]⟩
  | relLocked =>
    obtain ⟨c, exit, hpc⟩ := hsound
    exact ⟨.test, by simp [step, test, hs, hpc]⟩
  | relTested p =>
    obtain ⟨c, exit, hpc, rfl⟩ := hsound
    exact ⟨.body, _, body_of_relTested hs hpc⟩
  | relDone => exact ⟨.unlock, by simp [step, unlock, hs]⟩

end MutexWorld

/-- A call that has not returned has a next piece in the atomic model, whatever the server
answers there. -/
theorem exists_step (w : World) (i : Nat) (hpc : (w.calls i).pc ≠ .done) :
    ∃ act w', step w i act = some w' := by
  unfold step
  cases h : (w.calls i).pc with
  | loop => exact ⟨.acquire, _, rfl⟩
  | create => exact ⟨.create sampleInit, _, rfl⟩
  | failed => exact ⟨.reportFailure, _, rfl⟩
  | leased => exact ⟨.override, _, rfl⟩
  | setArgs => exact ⟨.setArgs, _, rfl⟩
  | run => exact ⟨.run ⟨[], false⟩, _, rfl⟩
  | ran => exact ⟨.checkDropped, _, rfl⟩
  | final => exact ⟨.final ⟨false, ""⟩, _, rfl⟩
  | release => exact ⟨.release, _, rfl⟩
  | done => exact absurd h hpc

open MutexWorld

variable {argsOf : Nat → Args} {f : MutexWorld}

theorem mutexReachable_inv (hf : MutexReachable argsOf f) :
    Reachable argsOf f.world ∧ f.LockInv := by
  induction hf with
  | init => exact ⟨.refl _, lockInv_quiet _⟩
  | step _ h ih =>
    refine ⟨?_, lockInv_step (safe_reachable ih.1) ih.2 h⟩
    rcases world_step ih.2 h with heq | ⟨act, hs⟩
    · exact heq ▸ ih.1
    · exact reachable_of_step ih.1 hs

/-- **The mutex level refines the atomic model.**  Every state the process reaches with its
critical sections run statement by statement, in the middle of sections included, has the world
of a state the atomic model reaches, and each of its steps is a step of the atomic model by the
same call or changes nothing of the process. -/
theorem mutex_refinement (hf : MutexReachable argsOf f) :
    Reachable argsOf f.world ∧ ∀ i a f', f.step i a = some f' →
      f'.world = f.world ∨ ∃ act, step f.world i act = some f'.world :=
  ⟨(mutexReachable_inv hf).1, fun _ _ _ h => world_step (mutexReachable_inv hf).2 h⟩

/-- **The mutexes exclude each other's sections.**  At most one call is inside the critical
sections of a pool; the test of a call inside one still reads the same, so the branch it takes
is the one the current queue calls for; and such a call can always go on, so `clients_.front()`
is never read off an empty deque and the lock is never held by a call that cannot release it. -/
theorem mutual_exclusion (hf : MutexReachable argsOf f) :
    (∀ i j s s', f.inside i = some s → f.inside j = some s' → f.tag i = f.tag j → i = j) ∧
    (∀ i b, f.inside i = some (.popTested b) → b = f.world.popTest (f.tag i)) ∧
    (∀ i p c exit, f.inside i = some (.relTested p) → (f.world.calls i).pc = .release c exit →
      p = f.world.releaseTest (f.tag i) c) ∧
    (∀ i s, f.inside i = some s → ∃ a f', f.step i a = some f') := by
  have hI := (mutexReachable_inv hf).2
  refine ⟨fun i j s s' hi hj ht => hI.eq_of_inside hj hi ht,
    fun i b hs => (hI.sound i _ hs).2, fun i p c exit hs hpc => ?_,
    fun i s hs => inside_progress hI hs⟩
  obtain ⟨c', exit', hpc', rfl⟩ := hI.sound i _ hs
  rw [hpc] at hpc'
  cases hpc'
  rfl

/-- **The mutexes never deadlock.**  In every reachable state of the statement-level process, a
call that has not returned can take a step, or it waits on its pool's `mu_` and the call holding
that mutex can take a step. -/
theorem no_deadlock (hf : MutexReachable argsOf f) {i : Nat} (hpc : (f.world.calls i).pc ≠ .done) :
    (∃ a f', f.step i a = some f') ∨
      ∃ j, j ≠ i ∧ f.holder (f.tag i) = some j ∧ ∃ a f', f.step j a = some f' := by
  have hI := (mutexReachable_inv hf).2
  cases hs : f.inside i with
  | some s => exact .inl (inside_progress hI hs)
  | none =>
    cases hc : (f.world.calls i).pc.critical
    · -- outside the sections, the piece the call is at
      obtain ⟨act, w', h⟩ := exists_step f.world i hpc
      exact .inl ⟨.piece act, by simp [MutexWorld.step, piece, hs, hc, h]⟩
    · cases hh : f.holder (f.tag i) with
      | none =>
        -- at a section with its mutex free: lock it
        refine .inl ⟨.lock, ?_⟩
        cases hpc' : (f.world.calls i).pc <;> simp only [hpc', Pc.critical, reduceCtorEq] at hc <;>
          simp [MutexWorld.step, lock, hs, hh, hpc']
      | some j =>
        -- waiting on the mutex: its holder is inside a section, and goes on
        obtain ⟨hj, -⟩ := hI.holder_inside _ j hh
        obtain ⟨s, hsj⟩ := Option.ne_none_iff_exists'.1 hj
        exact .inr ⟨j, by rintro rfl; exact hj hs, rfl, inside_progress hI hsj⟩

/-! ## The atomic model is the mutex level run section by section -/

theorem leave_section {w w' : World} {i : Nat} (s₁ s₂ s₃ : Critical)
    (htag : (w'.calls i).args.tag = (w.calls i).args.tag) :
    ({ (((quiet w).enter i s₁).move i s₂).move i s₃ with world := w' } : MutexWorld).leave i =
      quiet w' := by
  simp only [leave, enter, move, quiet, tag, htag, update_idem]
  congr
  · funext j; by_cases hj : j = i <;> simp [hj]
  · funext t; by_cases ht : t = (w.calls i).args.tag <;> simp [ht]

/-- A section run back to back from a state with no mutex held: lock, test, branch, unlock. -/
theorem quiet_section {w w' : World} {i : Nat} (s₁ s₂ s₃ : Critical)
    (hf : MutexReachable argsOf (quiet w))
    (h₁ : (quiet w).lock i = some ((quiet w).enter i s₁))
    (h₂ : ((quiet w).enter i s₁).test i = some (((quiet w).enter i s₁).move i s₂))
    (h₃ : (((quiet w).enter i s₁).move i s₂).body i =
      some { (((quiet w).enter i s₁).move i s₂).move i s₃ with world := w' })
    (hdone : s₃ = .popDone ∨ s₃ = .relDone)
    (htag : (w'.calls i).args.tag = (w.calls i).args.tag) :
    MutexReachable argsOf (quiet w') := by
  have h₄ : ({ (((quiet w).enter i s₁).move i s₂).move i s₃ with world := w' } :
      MutexWorld).unlock i = some (quiet w') := by
    rw [← leave_section s₁ s₂ s₃ htag]
    rcases hdone with rfl | rfl <;> simp [unlock]
  exact .step (.step (.step (.step hf (a := .lock) h₁) (a := .test) h₂) (a := .body) h₃)
    (a := .unlock) h₄

/-- Every step of the atomic model is a run of the mutex level between states with no mutex
held. -/
theorem quiet_step {w w' : World} {i : Nat} {act : Act} (hf : MutexReachable argsOf (quiet w))
    (h : step w i act = some w') : MutexReachable argsOf (quiet w') := by
  have htag : (w'.calls i).args.tag = (w.calls i).args.tag := congrArg Args.tag (args_step h)
  cases hc : (w.calls i).pc.critical
  · exact .step hf (i := i) (a := .piece act) (by simp [MutexWorld.step, piece, quiet, hc, h])
  · cases hpc : (w.calls i).pc <;> simp only [hpc, Pc.critical, reduceCtorEq] at hc
    · rw [step_of_loop h hpc] at htag ⊢
      exact quiet_section .popLocked (.popTested (w.popTest (w.calls i).args.tag)) .popDone hf
        (by simp [lock, hpc]) (by simp [test, tag])
        (body_of_popTested (by simp [tag]) (by simpa using hpc))
        (.inl rfl) htag
    · rename_i c exit
      rw [step_of_release h hpc] at htag ⊢
      exact quiet_section .relLocked (.relTested (w.releaseTest (w.calls i).args.tag c)) .relDone hf
        (by simp [lock, hpc]) (by simp [test, hpc, tag])
        (body_of_relTested (by simp [tag]) (by simpa using hpc)) (.inr rfl) htag

theorem quiet_reachable {w : World} (hw : Reachable argsOf w) :
    MutexReachable argsOf (quiet w) := by
  induction hw with
  | refl => exact .init
  | tail _ hs _ ih => exact quiet_step ih hs

/-- **The two levels reach the same processes.**  With no mutex held, the mutex level reaches
exactly the states of the atomic model: a critical section of the atomic model is lock, test,
branch and unlock run back to back, and the mutex level reaches nothing beyond it. -/
theorem mutex_quiet_iff (w : World) : MutexReachable argsOf (quiet w) ↔ Reachable argsOf w :=
  ⟨fun hf => (mutexReachable_inv hf).1, quiet_reachable⟩

/-! ## A sample state inside a section -/

/-- After the sample run, a third call on `defaultPool` has locked its `mu_` and found call 0's
former client in the queue. -/
def sampleMutex : MutexWorld :=
  ((quiet sampleWorld).enter 2 .popLocked).move 2 (.popTested true)

theorem sampleMutex_reachable : MutexReachable sampleArgs sampleMutex :=
  .step (.step (quiet_reachable sampleWorld_reachable) (i := 2) (a := .lock) rfl)
    (i := 2) (a := .test) rfl

theorem mutex_refinement_sample :
    MutexReachable sampleArgs sampleMutex ∧
    (Reachable sampleArgs sampleMutex.world ∧ ∀ i a f', sampleMutex.step i a = some f' →
      f'.world = sampleMutex.world ∨ ∃ act, step sampleMutex.world i act = some f'.world) :=
  ⟨sampleMutex_reachable, mutex_refinement sampleMutex_reachable⟩

theorem no_deadlock_sample :
    MutexReachable sampleArgs sampleMutex ∧ (sampleMutex.world.calls 3).pc ≠ .done ∧
    ((∃ a f', sampleMutex.step 3 a = some f') ∨
      ∃ j, j ≠ 3 ∧ sampleMutex.holder (sampleMutex.tag 3) = some j ∧
        ∃ a f', sampleMutex.step j a = some f') := by
  have hpc : (sampleMutex.world.calls 3).pc ≠ .done := by
    rw [show (sampleMutex.world.calls 3).pc = .loop from rfl]
    exact Pc.noConfusion
  exact ⟨sampleMutex_reachable, hpc, no_deadlock sampleMutex_reachable hpc⟩

theorem mutual_exclusion_sample :
    MutexReachable sampleArgs sampleMutex ∧
    ((∀ i j s s', sampleMutex.inside i = some s → sampleMutex.inside j = some s' →
      sampleMutex.tag i = sampleMutex.tag j → i = j) ∧
    (∀ i b, sampleMutex.inside i = some (.popTested b) →
      b = sampleMutex.world.popTest (sampleMutex.tag i)) ∧
    (∀ i p c exit, sampleMutex.inside i = some (.relTested p) →
      (sampleMutex.world.calls i).pc = .release c exit →
      p = sampleMutex.world.releaseTest (sampleMutex.tag i) c) ∧
    (∀ i s, sampleMutex.inside i = some s → ∃ a f', sampleMutex.step i a = some f')) :=
  ⟨sampleMutex_reachable, mutual_exclusion sampleMutex_reachable⟩

end SgeMonorepo.P4Lib
