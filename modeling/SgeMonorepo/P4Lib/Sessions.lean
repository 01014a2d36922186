import SgeMonorepo.P4Lib.Ownership

/-!
# What the clients in the queues are like

A client that goes back to a queue is reused by whichever call takes it next, so whatever one call
does to a client must be undone before its lease ends, or the client must be deleted.  This file
proves that it is.  In every reachable state, every idle client

* completed `Init` without error, with its pool's protocol set before (`Session.OfPool`);
* has not dropped and has never been finalized;
* carries the user and password it had right after `Init` (`Session.Pristine`).

## Strategy

`Held a s pc` says what the code of a call at `pc` with arguments `a` knows of the client `s` it
holds: after the override, the call's credentials; after the restore, the original ones again;
after a drop, that `Dropped()` says so.  `SessionInv` says that every idle client is clean and that
every held client is of its holder's pool and as its holder's `Held` says.

A step of call `i` touches only the client `i` holds or the one it allocates, and adds to a queue
only the client its deleter pushes (`sessions_step`, `mem_idle_step`).  With the pools safe
(`safe_reachable`), no other call holds that client and it is not idle.  So a step keeps the
invariant for every other client and call for free, and for call `i` it is one case per piece of
`p4runcb` (`held_self`).  The deleter pushes only a client that has not dropped, and `Held` at the
end of a lease that dropped says that it has: a finalized client is deleted.
-/

namespace SgeMonorepo.P4Lib

open Function

/-- The protocol `Pool::Client` sets before `Init` on the clients of the pool that `tag` selects:
`SetProtocol("tag", "")` for `tagPool`, none for `defaultPool`. -/
def protocolOf (tag : Bool) : Option (String × String) := if tag then some ("tag", "") else none

namespace Session

variable (s : Session)

/-- The client has the credentials it had right after `Init`. -/
def Pristine : Prop := s.user = s.initUser ∧ s.password = s.initPassword

/-- A client of the pool that `tag` selects: its `Init` succeeded, with that pool's protocol set
before it and not changed since. -/
def OfPool (tag : Bool) : Prop :=
  s.initOk = true ∧ s.protocol = protocolOf tag ∧ s.initProtocol = protocolOf tag

/-- What an idle client of the pool that `tag` selects is like. -/
def Clean (tag : Bool) : Prop :=
  s.OfPool tag ∧ s.dropped = false ∧ s.finalized = false ∧ s.Pristine

/-- The credentials of a client leased by a call with arguments `a`, once the call has overridden
them: the call's own when it overrides, and then the strings it saved for the restore are the
originals; the originals otherwise. -/
def Overridden (a : Args) (ou op : String) : Prop :=
  if a.overrides then
    s.user = cStr a.user ∧ s.password = cStr a.passwd ∧ ou = s.initUser.val ∧
      op = s.initPassword.val
  else s.Pristine

end Session

/-- What the code of a call with arguments `a` at `pc` knows of the client `s` it holds. -/
def Held (a : Args) (s : Session) : Pc → Prop
  | .leased .. => s.dropped = false ∧ s.finalized = false ∧ s.Pristine
  | .setArgs _ _ ou op | .run _ _ ou op =>
    s.dropped = false ∧ s.finalized = false ∧ s.Overridden a ou op
  | .ran _ _ ou op => s.finalized = false ∧ s.Overridden a ou op
  | .final _ => s.dropped = true ∧ s.finalized = false
  | .release _ exit =>
    if exit then s.dropped = false ∧ s.finalized = false ∧ s.Pristine
    else s.dropped = true ∧ s.finalized = true
  | .loop | .create | .failed _ | .done => True

/-- Every idle client is clean, and every held client is of its holder's pool and as its holder's
code knows it. -/
structure SessionInv (w : World) : Prop where
  idle : ∀ b c, c ∈ w.idle b → (w.sessions c).Clean b
  held : ∀ j c, w.held j = some c →
    (w.sessions c).OfPool (w.calls j).args.tag ∧ Held (w.calls j).args (w.sessions c) (w.calls j).pc

/-- A client that `Init` set up without error is a clean client of its pool. -/
theorem newClient_clean (tag : Bool) (a : InitAnswer) (hok : a.err.test = false) :
    (World.newClient tag a).Clean tag := by
  cases tag <;> simp [World.newClient, Pool.setProtocol, protocolOf, Session.Clean, Session.OfPool,
    Session.Pristine, Session.new, hok]

/-! ## One step -/

section Step

variable {w w' : World} {i : Nat} {act : Act}

/-- The stepping call's client is as its new code knows it. -/
private theorem held_self (hI : SessionInv w) (h : step w i act = some w') {c : SessionId}
    (hc : w'.held i = some c) :
    (w'.sessions c).OfPool (w'.calls i).args.tag ∧
      Held (w'.calls i).args (w'.sessions c) (w'.calls i).pc := by
  have hold {pc : Pc} (hpc : (w.calls i).pc = pc) {d : SessionId} (hd : pc.session = some d) :
      (w.sessions d).OfPool (w.calls i).args.tag ∧ Held (w.calls i).args (w.sessions d) pc := by
    rw [← hpc]; exact hI.held i d ((congrArg Pc.session hpc).trans hd)
  -- after a step that neither takes nor releases a client, the call holds the same one
  have hsame {pc : Pc} (hpc : (w.calls i).pc = pc) {d : SessionId} (hd : pc.session = some d) :
      c = d := by
    obtain ⟨o, ho, -⟩ := calls_step h
    exact Call.held_step ho ((congrArg Pc.session hpc).trans hd) hc
  refine step_cases h ?_ ?_ ?_ ?_ ?_ ?_ ?_ ?_ ?_
  · -- `Pool::Client` hands out the front of the queue, which is clean
    rintro - rfl
    simp only [World.held, World.pop_calls, update_same, World.pop_sessions] at hc ⊢
    cases hpop : (w.pools (w.calls i).args.tag).pop with
    | none => simp [hpop, Call.held, Pc.session] at hc
    | some x =>
      obtain ⟨d, p⟩ := x
      simp only [hpop, Option.map_some', Call.popped_some, Call.held, Pc.session,
        Option.some.injEq] at hc ⊢
      subst hc
      exact hI.idle (w.calls i).args.tag d (by simp [World.idle, Pool.pop_eq_some hpop])
  · -- a new client whose `Init` succeeded is clean
    rintro a - rfl
    simp only [World.held, World.create_calls, update_same, Call.held_created] at hc
    split at hc
    · cases hc
    · cases hc
      rename_i hok
      simp only [World.create_sessions, World.create_calls, update_same, Call.created, if_neg hok]
      exact newClient_clean (w.calls i).args.tag a (by simpa using hok)
  · rintro msg - rfl
    simp [World.held, World.reportFailure] at hc
  · -- the override replaces the credentials and saves the originals
    rintro d fresh hpc rfl
    obtain rfl := hsame hpc rfl
    obtain ⟨hpool, hd, hf, hu, hp⟩ := hold hpc rfl
    clear hold hsame h
    simp only [World.override_sessions, World.override_calls, update_same, Call.override]
    by_cases ho : (w.calls i).args.overrides <;>
      simp_all [Held, Session.Overridden, Session.OfPool, Session.Pristine]
  · rintro d fresh ou op hpc rfl
    obtain rfl := hsame hpc rfl
    simp only [World.setArgs, World.setCall_calls, World.setCall_sessions, update_same,
      Call.setArgs]
    exact hold hpc rfl
  · -- `Run` may drop the connection and changes nothing else
    rintro d fresh ou op a hpc rfl
    obtain rfl := hsame hpc rfl
    obtain ⟨hpool, -, hf, hov⟩ := hold hpc rfl
    simp only [World.runCmd, World.setCall_calls, World.setCall_sessions,
      World.setSession_sessions, update_same, Call.runCmd]
    exact ⟨hpool, hf, hov⟩
  · -- the restore brings back the credentials saved by the override
    rintro d fresh ou op hpc rfl
    obtain rfl := hsame hpc rfl
    obtain ⟨hpool, hf, hov⟩ := hold hpc rfl
    clear hold hsame h
    simp only [World.checkDropped_sessions, World.checkDropped_calls, update_same,
      Call.checkDropped]
    unfold Session.Overridden at hov
    cases hdr : (w.sessions c).dropped <;> by_cases ho : (w.calls i).args.overrides <;>
      simp_all [Held, Session.OfPool, Session.Pristine]
  · -- `Final` leaves `Dropped()` set
    rintro d err hpc rfl
    obtain rfl := hsame hpc rfl
    obtain ⟨hpool, hd, -⟩ := hold hpc rfl
    simp only [World.final, World.setCall_calls, World.setCall_sessions,
      World.setSession_sessions, update_same, Call.final]
    exact ⟨hpool, hd, rfl⟩
  · rintro d exit - rfl
    simp [World.held, World.release_calls] at hc

/-- Every step keeps `SessionInv`, given that the pools are safe. -/
theorem sessionInv_step (hsafe : w.owners.Safe) (hI : SessionInv w)
    (h : step w i act = some w') : SessionInv w' := by
  refine ⟨fun b c hc => ?_, fun j c hc => ?_⟩
  · rcases mem_idle_step h hc with hc | ⟨exit, hpc, rfl, hd, hs⟩
    · -- an idle client that no step touches
      rw [sessions_step h (hsafe.not_held_of_idle hc) (hsafe.ne_nextId_of_idle hc)]
      exact hI.idle b c hc
    · -- the client the deleter pushes back has not dropped, so its lease ended with the restore
      obtain ⟨hpool, hheld⟩ := hI.held i c ((congrArg Pc.session hpc).trans rfl)
      rw [hpc] at hheld
      rw [hs]
      cases exit
      · simp [Held, hd] at hheld
      · exact ⟨hpool, hheld⟩
  · by_cases hj : j = i
    · subst hj
      exact held_self hI h hc
    · -- another call's client, which the step does not touch
      have hcj : w.held j = some c := by rwa [World.held, calls_step_of_ne h hj] at hc
      rw [calls_step_of_ne h hj,
        sessions_step h (fun hi => hj (hsafe.held_inj hcj hi)) (hsafe.ne_nextId_of_held hcj)]
      exact hI.held j c hcj

end Step

variable {argsOf : Nat → Args} {w : World}

theorem sessionInv_reachable (hw : Reachable argsOf w) : SessionInv w := by
  refine reachable_induction ⟨fun b c hc => ?_, fun j c hc => ?_⟩
    (fun hr hI h => sessionInv_step (safe_reachable hr) hI h) hw
  · simp [World.idle, World.init, Pool.empty] at hc
  · simp [World.held, World.init, Call.start, Call.held, Pc.session] at hc

/-- The client that call `j` holds at `pc` is of its pool and as its code knows it. -/
theorem held_of_pc (hw : Reachable argsOf w) {j : Nat} {pc : Pc} (hpc : (w.calls j).pc = pc)
    {c : SessionId} (hc : pc.session = some c) :
    (w.sessions c).OfPool (argsOf j).tag ∧ Held (argsOf j) (w.sessions c) pc := by
  rw [← hpc, ← args_reachable hw j]
  exact (sessionInv_reachable hw).held j c ((congrArg Pc.session hpc).trans hc)

/-! ## Credentials -/

/-- **Credentials never leak.**  In every reachable state, whatever the calls, their arguments and
the server do: every idle client carries the user and password it had right after `Init`; and a
call about to `Run` holds a client whose user and password are the call's own `user` and `passwd`,
each as `c_str()` passes it (up to its first NUL), when both are non-empty, and those the client had
right after `Init` otherwise. -/
theorem run_credentials (hw : Reachable argsOf w) :
    (∀ b c, c ∈ w.idle b →
      (w.sessions c).user = (w.sessions c).initUser ∧
        (w.sessions c).password = (w.sessions c).initPassword) ∧
    (∀ j c fresh ou op, (w.calls j).pc = .run c fresh ou op →
      (w.sessions c).user =
          (if (argsOf j).overrides then cStr (argsOf j).user else (w.sessions c).initUser) ∧
        (w.sessions c).password =
          (if (argsOf j).overrides then cStr (argsOf j).passwd
            else (w.sessions c).initPassword)) := by
  refine ⟨fun b c hc => ((sessionInv_reachable hw).idle b c hc).2.2.2,
    fun j c fresh ou op hpc => ?_⟩
  obtain ⟨-, -, -, hov⟩ := held_of_pc hw hpc rfl
  unfold Session.Overridden at hov
  split at hov
  · simp_all
  · simp_all [Session.Pristine]

theorem run_credentials_sample :
    Reachable sampleArgs midWorld ∧ midWorld.idle false = [3] ∧
      (midWorld.calls 1).pc = .run 2 true "alice" "secret" ∧ (sampleArgs 1).overrides = true ∧
    ((∀ b c, c ∈ midWorld.idle b →
      (midWorld.sessions c).user = (midWorld.sessions c).initUser ∧
        (midWorld.sessions c).password = (midWorld.sessions c).initPassword) ∧
    (∀ j c fresh ou op, (midWorld.calls j).pc = .run c fresh ou op →
      (midWorld.sessions c).user =
          (if (sampleArgs j).overrides then cStr (sampleArgs j).user
            else (midWorld.sessions c).initUser) ∧
        (midWorld.sessions c).password =
          (if (sampleArgs j).overrides then cStr (sampleArgs j).passwd
            else (midWorld.sessions c).initPassword))) :=
  ⟨midWorld_reachable, rfl, rfl, rfl, run_credentials midWorld_reachable⟩

/-- A call whose user name holds a NUL byte. -/
def nulUserArgs (_ : Nat) : Args :=
  { cmd := "info", user := "a\x00b", passwd := "pw", input := [], joined := [], argv := [],
    cbid := 0, tag := false }

/-- The user a command runs with is not the call's `user` when that holds a NUL: `SetUser` is given
`userStr.c_str()`, which ends at the NUL. -/
theorem run_user_cut_at_nul :
    ∃ w c fresh ou op, Reachable nulUserArgs w ∧ (w.calls 0).pc = .run c fresh ou op ∧
      (nulUserArgs 0).user ≠ "" ∧ (nulUserArgs 0).passwd ≠ "" ∧
      (w.sessions c).user.val ≠ (nulUserArgs 0).user :=
  ⟨_, 0, true, "alice", "secret",
    @steps_of_runSchedule (World.init nulUserArgs) _
      [(0, .acquire), (0, .create sampleInit), (0, .override), (0, .setArgs)] rfl,
    rfl, by decide, by decide, by decide⟩

/-! ## Health -/

/-- **Idle clients are healthy.**  In every reachable state, whatever the calls and the server do
(failed `Init`s, drops on pooled or new clients, `Final` with or without an error): every idle
client completed `Init` without error, has not dropped and has never been finalized; and when the
lease of a client that was finalized after a drop ends, the deleter deletes it. -/
theorem idle_clients_healthy (hw : Reachable argsOf w) :
    (∀ b c, c ∈ w.idle b → (w.sessions c).initOk = true ∧ (w.sessions c).dropped = false ∧
      (w.sessions c).finalized = false) ∧
    (∀ j c, (w.calls j).pc = .release c false →
      (w.sessions c).finalized = true ∧
        (w.pools (argsOf j).tag).release c (w.sessions c).dropped = none) := by
  refine ⟨fun b c hc => ?_, fun j c hpc => ?_⟩
  · obtain ⟨⟨hok, -⟩, hd, hf, -⟩ := (sessionInv_reachable hw).idle b c hc
    exact ⟨hok, hd, hf⟩
  · obtain ⟨-, hd, hf⟩ := held_of_pc hw hpc rfl
    exact ⟨hf, Pool.release_eq_none.2 (.inl hd)⟩

theorem idle_clients_healthy_sample :
    Reachable sampleArgs midWorld ∧ midWorld.idle false = [3] ∧
      (midWorld.calls 2).pc = .release 1 false ∧
    ((∀ b c, c ∈ midWorld.idle b → (midWorld.sessions c).initOk = true ∧
      (midWorld.sessions c).dropped = false ∧ (midWorld.sessions c).finalized = false) ∧
    (∀ j c, (midWorld.calls j).pc = .release c false →
      (midWorld.sessions c).finalized = true ∧
        (midWorld.pools (sampleArgs j).tag).release c (midWorld.sessions c).dropped = none)) :=
  ⟨midWorld_reachable, rfl, rfl, idle_clients_healthy midWorld_reachable⟩

/-- **Each client is used in the order its API asks for.**  In every reachable state, whatever the
calls and the server do: every client a call holds completed `Init` without error; a call about to
`Run` holds a client that has not dropped and has never been finalized; and a call about to call
`Final` holds a client that has dropped and has not been finalized yet, so `Final` is called once
on a client, and only after its connection dropped. -/
theorem client_lifecycle (hw : Reachable argsOf w) :
    (∀ j c, w.held j = some c → (w.sessions c).initOk = true) ∧
    (∀ j c fresh ou op, (w.calls j).pc = .run c fresh ou op →
      (w.sessions c).dropped = false ∧ (w.sessions c).finalized = false) ∧
    (∀ j c, (w.calls j).pc = .final c →
      (w.sessions c).dropped = true ∧ (w.sessions c).finalized = false) := by
  refine ⟨fun j c hc => ((sessionInv_reachable hw).held j c hc).1.1, fun j c _ _ _ hpc => ?_,
    fun j c hpc => (held_of_pc hw hpc rfl).2⟩
  obtain ⟨-, hd, hf, -⟩ := held_of_pc hw hpc rfl
  exact ⟨hd, hf⟩

theorem client_lifecycle_sample :
    Reachable sampleArgs midWorld ∧ (midWorld.calls 1).pc = .run 2 true "alice" "secret" ∧
      (midWorld.calls 0).pc = .final 0 ∧
    ((∀ j c, midWorld.held j = some c → (midWorld.sessions c).initOk = true) ∧
    (∀ j c fresh ou op, (midWorld.calls j).pc = .run c fresh ou op →
      (midWorld.sessions c).dropped = false ∧ (midWorld.sessions c).finalized = false) ∧
    (∀ j c, (midWorld.calls j).pc = .final c →
      (midWorld.sessions c).dropped = true ∧ (midWorld.sessions c).finalized = false)) :=
  ⟨midWorld_reachable, rfl, rfl, client_lifecycle midWorld_reachable⟩

/-! ## Protocols -/

/-- **Each pool keeps its own clients.**  In every reachable state, whatever the calls' `tag` flags:
every client idle in `tagPool` had `SetProtocol("tag", "")` called before its `Init`, and every
client idle in `defaultPool` never had `SetProtocol` called; and a call about to `Run` holds a
client with the tag protocol exactly when its `tag` is set.  In both cases the protocol is the one
that was in force when `Init` connected the client. -/
theorem pool_protocols (hw : Reachable argsOf w) :
    (∀ b c, c ∈ w.idle b → (w.sessions c).protocol = (if b then some ("tag", "") else none) ∧
      (w.sessions c).initProtocol = (w.sessions c).protocol) ∧
    (∀ j c fresh ou op, (w.calls j).pc = .run c fresh ou op →
      ((w.sessions c).protocol = some ("tag", "") ↔ (argsOf j).tag = true) ∧
      (w.sessions c).initProtocol = (w.sessions c).protocol) := by
  refine ⟨fun b c hc => ?_, fun j c fresh ou op hpc => ?_⟩
  · obtain ⟨⟨-, hp, hi⟩, -⟩ := (sessionInv_reachable hw).idle b c hc
    exact ⟨hp, hi.trans hp.symm⟩
  · obtain ⟨⟨-, hp, hi⟩, -⟩ := held_of_pc hw hpc rfl
    refine ⟨?_, hi.trans hp.symm⟩
    cases htag : (argsOf j).tag <;> simp [hp, htag, protocolOf]

/-- The sample's calls, with `tag` set: they use `tagPool`. -/
def tagArgs (i : Nat) : Args := { sampleArgs i with tag := true }

/-- Call 0 creates a client of `tagPool`, runs its command on it and puts it back; call 1 takes it
from the queue and is about to `Run` on it. -/
def tagSchedule : List (Nat × Act) :=
  [(0, .acquire), (0, .create sampleInit), (0, .override), (0, .setArgs), (0, .run ⟨[], false⟩),
   (0, .checkDropped), (0, .release), (1, .acquire), (1, .override), (1, .setArgs)]

theorem pool_protocols_sample :
    ∃ w, Reachable tagArgs w ∧ (w.calls 1).pc = .run 0 false "alice" "secret" ∧
      (w.calls 1).cur.lease = some (.pooled 0) ∧
    ((∀ b c, c ∈ w.idle b → (w.sessions c).protocol = (if b then some ("tag", "") else none) ∧
      (w.sessions c).initProtocol = (w.sessions c).protocol) ∧
    (∀ j c fresh ou op, (w.calls j).pc = .run c fresh ou op →
      ((w.sessions c).protocol = some ("tag", "") ↔ (tagArgs j).tag = true) ∧
      (w.sessions c).initProtocol = (w.sessions c).protocol)) :=
  have hw := @steps_of_runSchedule (World.init tagArgs) _ tagSchedule rfl
  ⟨_, hw, rfl, rfl, pool_protocols hw⟩

end SgeMonorepo.P4Lib
