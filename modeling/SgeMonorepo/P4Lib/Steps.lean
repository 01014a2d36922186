import SgeMonorepo.P4Lib.P4runcb

/-!
# What one step can do

Every invariant of the process is proved the same way: it holds at the start, and one step keeps
it.  This file says once what a step can do, so that the invariant files never unfold `step`.

* `step_cases`: a step is one of the nine pieces of `p4runcb`, at the program counter it belongs
  to.
* `calls_step`: a step changes the state of the stepping call only, and that change is one step of
  the call's own view `Call.step`.  The interleaved process thus refines the sequential reading of
  `p4runcb` in which whatever the pool, the server and the client answer is arbitrary; the
  invariants of a single call are proved on that reading (`reachable_call`).
* the `_idle`, `_sessions` and `_nextId` lemmas: what each piece does to the shared state;
  `idle_step_cases`: only `Pool::Client`'s first critical section and the deleter touch a queue.

Over whole runs:

* `queue_fifo`: the queues are FIFO.  The clients handed out of a queue, in order, followed by
  those still in it, are those it held followed by those pushed to it, in order.  `queueLog` reads
  both lists off a schedule, from what the calls observe, and every run is a schedule
  (`exists_schedule`).
-/

namespace SgeMonorepo.P4Lib

open Function

namespace World

variable {w : World} {i j : Nat} {k : Call} {b t : Bool} {c d : SessionId} {s : Session}
  {p : Pool}

@[simp] theorem held_setCall : (w.setCall i k).held j = if j = i then k.held else w.held j := by
  simp only [held, setCall_calls, update_apply]
  split <;> rfl

@[simp] theorem held_setSession : (w.setSession c s).held j = w.held j := rfl

@[simp] theorem held_setPool : (w.setPool t p).held j = w.held j := rfl

@[simp] theorem idle_setCall : (w.setCall i k).idle b = w.idle b := rfl

@[simp] theorem idle_setSession : (w.setSession c s).idle b = w.idle b := rfl

@[simp] theorem idle_setPool : (w.setPool t p).idle b = if b = t then p.clients else w.idle b := by
  simp only [idle, setPool_pools, update_apply]
  split <;> rfl

end World

/-! ## The call-level pieces -/

namespace Call

variable (k : Call)

@[simp] theorem popped_some (c : SessionId) :
    k.popped (some c) =
      { k with pc := .leased c false, cur := { k.cur with lease := some (.pooled c) } } := rfl

@[simp] theorem popped_none : k.popped none = { k with pc := .create } := rfl

variable {k} in
/-- The nine pieces of `p4runcb` as the call sees them, each at the program counter it runs
from. -/
theorem step_cases {P : Prop} {o : Obs} {k' : Call} (h : k.step o = some k')
    (hpop : ∀ r, k.pc = .loop → k' = k.popped r → P)
    (hcreate : ∀ c a, k.pc = .create → k' = k.created c a → P)
    (hreport : ∀ msg, k.pc = .failed msg → k' = k.reportFailure msg → P)
    (hoverride : ∀ c fresh u p, k.pc = .leased c fresh → k' = k.override c fresh u p → P)
    (hsetArgs : ∀ c fresh ou op, k.pc = .setArgs c fresh ou op →
      k' = k.setArgs c fresh ou op → P)
    (hrun : ∀ c fresh ou op a, k.pc = .run c fresh ou op → k' = k.runCmd c fresh ou op a → P)
    (hcheck : ∀ c fresh ou op d, k.pc = .ran c fresh ou op → k' = k.checkDropped c ou op d → P)
    (hfinal : ∀ c err, k.pc = .final c → k' = k.final c err → P)
    (hrelease : ∀ c exit pushed, k.pc = .release c exit → k' = k.release c exit pushed → P) :
    P := by
  unfold step at h
  cases hpc : k.pc <;> rw [hpc] at h <;> cases o <;> cases h
  · exact hpop _ hpc rfl
  · exact hcreate _ _ hpc rfl
  · exact hreport _ hpc rfl
  · exact hoverride _ _ _ _ hpc rfl
  · exact hsetArgs _ _ _ _ hpc rfl
  · exact hrun _ _ _ _ _ hpc rfl
  · exact hcheck _ _ _ _ _ hpc rfl
  · exact hfinal _ _ hpc rfl
  · exact hrelease _ _ _ hpc rfl

/-- A call's own step keeps its arguments. -/
theorem step_args {o : Obs} {k' : Call} (h : k.step o = some k') : k'.args = k.args := by
  refine step_cases h ?_ ?_ ?_ ?_ ?_ ?_ ?_ ?_ ?_
  · rintro (_ | c) - rfl <;> rfl
  · rintro c a - rfl; unfold created; split <;> rfl
  · rintro msg - rfl; rfl
  · rintro c fresh u p - rfl; unfold override; split <;> rfl
  · rintro c fresh ou op - rfl; rfl
  · rintro c fresh ou op a - rfl; rfl
  · rintro c fresh ou op d - rfl; unfold checkDropped; split <;> rfl
  · rintro c err - rfl; rfl
  · rintro c exit pushed - rfl; rfl

end Call

/-! ## Everything a step can be -/

/-- The nine pieces of `p4runcb`, each at the program counter it runs from. -/
theorem step_cases {P : Prop} {w w' : World} {i : Nat} {act : Act} (h : step w i act = some w')
    (hpop : (w.calls i).pc = .loop → w' = w.pop i → P)
    (hcreate : ∀ a, (w.calls i).pc = .create → w' = w.create i a → P)
    (hreport : ∀ msg, (w.calls i).pc = .failed msg → w' = w.reportFailure i msg → P)
    (hoverride : ∀ c fresh, (w.calls i).pc = .leased c fresh → w' = w.override i c fresh → P)
    (hsetArgs : ∀ c fresh ou op, (w.calls i).pc = .setArgs c fresh ou op →
      w' = w.setArgs i c fresh ou op → P)
    (hrun : ∀ c fresh ou op a, (w.calls i).pc = .run c fresh ou op →
      w' = w.runCmd i c fresh ou op a → P)
    (hcheck : ∀ c fresh ou op, (w.calls i).pc = .ran c fresh ou op →
      w' = w.checkDropped i c ou op → P)
    (hfinal : ∀ c err, (w.calls i).pc = .final c → w' = w.final i c err → P)
    (hrelease : ∀ c exit, (w.calls i).pc = .release c exit → w' = w.release i c exit → P) : P := by
  unfold step at h
  cases hpc : (w.calls i).pc <;> rw [hpc] at h <;> cases act <;> cases h
  · exact hpop hpc rfl
  · exact hcreate _ hpc rfl
  · exact hreport _ hpc rfl
  · exact hoverride _ _ hpc rfl
  · exact hsetArgs _ _ _ _ hpc rfl
  · exact hrun _ _ _ _ _ hpc rfl
  · exact hcheck _ _ _ _ hpc rfl
  · exact hfinal _ _ hpc rfl
  · exact hrelease _ _ hpc rfl

/-! ## What each piece does to the calls -/

namespace World

variable (w : World) (i : Nat)

theorem pop_calls :
    (w.pop i).calls =
      update w.calls i
        ((w.calls i).popped (((w.pools (w.calls i).args.tag).pop).map Prod.fst)) := by
  unfold pop
  dsimp only
  split <;> simp_all

theorem create_calls (a : InitAnswer) :
    (w.create i a).calls = update w.calls i ((w.calls i).created w.nextId a) := by
  unfold create
  split <;> rfl

theorem override_calls (c : SessionId) (fresh : Bool) :
    (w.override i c fresh).calls =
      update w.calls i
        ((w.calls i).override c fresh (w.sessions c).user (w.sessions c).password) := by
  unfold override
  dsimp only
  split <;> rfl

theorem checkDropped_calls (c : SessionId) (ou op : String) :
    (w.checkDropped i c ou op).calls =
      update w.calls i ((w.calls i).checkDropped c ou op (w.sessions c).dropped) := by
  unfold checkDropped
  dsimp only
  split <;> rfl

theorem release_calls (c : SessionId) (exit : Bool) :
    (w.release i c exit).calls =
      update w.calls i ((w.calls i).release c exit
        ((w.pools (w.calls i).args.tag).release c (w.sessions c).dropped).isSome) := by
  unfold release
  dsimp only
  split <;> simp_all

/-! ## What each piece does to the queues and the clients -/

variable {w i}

theorem pop_idle (b : Bool) :
    (w.pop i).idle b = if b = (w.calls i).args.tag then (w.idle b).tail else w.idle b := by
  unfold pop
  dsimp only
  by_cases hb : b = (w.calls i).args.tag
  · subst hb
    split <;> rename_i h
    · simp [idle, Pool.pop_eq_some h]
    · simp [idle, Pool.pop_eq_none h]
  · split <;> simp [hb]

theorem pop_sessions : (w.pop i).sessions = w.sessions := by
  unfold pop; dsimp only; split <;> rfl

@[simp] theorem create_idle (a : InitAnswer) (b : Bool) : (w.create i a).idle b = w.idle b := by
  unfold create; split <;> rfl

theorem create_sessions (a : InitAnswer) :
    (w.create i a).sessions = update w.sessions w.nextId (newClient (w.calls i).args.tag a) := by
  unfold create; split <;> rfl

theorem create_nextId (a : InitAnswer) : (w.create i a).nextId = w.nextId + 1 := by
  unfold create; split <;> rfl

@[simp] theorem override_idle (c : SessionId) (fresh : Bool) (b : Bool) :
    (w.override i c fresh).idle b = w.idle b := by
  unfold override; dsimp only; split <;> rfl

theorem override_sessions (c : SessionId) (fresh : Bool) :
    (w.override i c fresh).sessions =
      if (w.calls i).args.overrides then
        update w.sessions c
          (((w.sessions c).setUser (cStr (w.calls i).args.user)).setPassword
            (cStr (w.calls i).args.passwd))
      else w.sessions := by
  unfold override; dsimp only; split <;> rfl

theorem checkDropped_sessions (c : SessionId) (ou op : String) :
    (w.checkDropped i c ou op).sessions =
      if !(w.sessions c).dropped && (w.calls i).args.overrides then
        update w.sessions c (((w.sessions c).setUser (cStr ou)).setPassword (cStr op))
      else w.sessions := by
  unfold checkDropped; dsimp only; split <;> rfl

@[simp] theorem checkDropped_idle (c : SessionId) (ou op : String) (b : Bool) :
    (w.checkDropped i c ou op).idle b = w.idle b := by
  unfold checkDropped; dsimp only; split <;> rfl

theorem release_idle (c : SessionId) (exit : Bool) (b : Bool) :
    (w.release i c exit).idle b =
      if b = (w.calls i).args.tag ∧ (w.sessions c).dropped = false ∧
          (w.idle b).length < kMaxClients then w.idle b ++ [c]
      else w.idle b := by
  unfold release
  dsimp only
  by_cases hb : b = (w.calls i).args.tag
  · subst hb
    split <;> rename_i h
    · obtain ⟨hd, hlen, hp⟩ := Pool.release_eq_some h
      simp_all [idle]
    · have := Pool.release_eq_none.1 h
      simp only [idle_setCall, idle, delete_pools]
      split <;> simp_all
      omega
  · split <;> simp [hb, idle]

theorem release_sessions (c : SessionId) (exit : Bool) :
    (w.release i c exit).sessions = w.sessions := by
  unfold release; dsimp only; split <;> rfl

end World

/-- A step changes the stepping call only, by a step of the call's own view. -/
theorem calls_step {w w' : World} {i : Nat} {act : Act} (h : step w i act = some w') :
    ∃ o, (w.calls i).step o = some (w'.calls i) ∧ w'.calls = update w.calls i (w'.calls i) := by
  refine step_cases h ?_ ?_ ?_ ?_ ?_ ?_ ?_ ?_ ?_
  · rintro hpc rfl
    exact ⟨.pop ((w.pools (w.calls i).args.tag).pop.map Prod.fst),
      by unfold Call.step; simp [hpc, World.pop_calls]⟩
  · rintro a hpc rfl
    exact ⟨.create w.nextId a, by unfold Call.step; simp [hpc, World.create_calls]⟩
  · rintro msg hpc rfl
    exact ⟨.reportFailure, by unfold Call.step; simp [hpc, World.reportFailure]⟩
  · rintro c fresh hpc rfl
    exact ⟨.override (w.sessions c).user (w.sessions c).password,
      by unfold Call.step; simp [hpc, World.override_calls]⟩
  · rintro c fresh ou op hpc rfl
    exact ⟨.setArgs, by unfold Call.step; simp [hpc, World.setArgs]⟩
  · rintro c fresh ou op a hpc rfl
    exact ⟨.run a, by unfold Call.step; simp [hpc, World.runCmd]⟩
  · rintro c fresh ou op hpc rfl
    exact ⟨.checkDropped (w.sessions c).dropped, by unfold Call.step; simp [hpc, World.checkDropped_calls]⟩
  · rintro c err hpc rfl
    exact ⟨.final err, by unfold Call.step; simp [hpc, World.final]⟩
  · rintro c exit hpc rfl
    exact ⟨.release ((w.pools (w.calls i).args.tag).release c (w.sessions c).dropped).isSome,
      by unfold Call.step; simp [hpc, World.release_calls]⟩

theorem calls_step_of_ne {w w' : World} {i j : Nat} {act : Act} (h : step w i act = some w')
    (hj : j ≠ i) : w'.calls j = w.calls j := by
  obtain ⟨_, -, hcalls⟩ := calls_step h
  rw [hcalls, update_noteq hj]

/-- A step keeps every call's arguments. -/
theorem args_step {w w' : World} {i j : Nat} {act : Act} (h : step w i act = some w') :
    (w'.calls j).args = (w.calls j).args := by
  by_cases hj : j = i
  · subst hj
    obtain ⟨_, ho, -⟩ := calls_step h
    exact Call.step_args _ ho
  · rw [calls_step_of_ne h hj]

/-- A step changes no client object but the one the stepping call holds and the new one at
`nextId`. -/
theorem sessions_step {w w' : World} {i : Nat} {act : Act} (h : step w i act = some w')
    {d : SessionId} (hheld : w.held i ≠ some d) (hnew : d ≠ w.nextId) :
    w'.sessions d = w.sessions d := by
  have hne {pc : Pc} {c : SessionId} (hpc : (w.calls i).pc = pc) (hc : pc.session = some c) :
      d ≠ c := fun hd => hheld (by rw [hd]; exact (congrArg Pc.session hpc).trans hc)
  refine step_cases h ?_ ?_ ?_ ?_ ?_ ?_ ?_ ?_ ?_
  · rintro - rfl; rw [World.pop_sessions]
  · rintro a - rfl; rw [World.create_sessions, update_noteq hnew]
  · rintro msg - rfl; rfl
  · rintro c fresh hpc rfl
    rw [World.override_sessions]
    split
    · exact update_noteq (hne hpc rfl) _ _
    · rfl
  · rintro c fresh ou op - rfl; rfl
  · rintro c fresh ou op a hpc rfl; exact update_noteq (hne hpc rfl) _ _
  · rintro c fresh ou op hpc rfl
    rw [World.checkDropped_sessions]
    split
    · exact update_noteq (hne hpc rfl) _ _
    · rfl
  · rintro c err hpc rfl; exact update_noteq (hne hpc rfl) _ _
  · rintro c exit - rfl; rw [World.release_sessions]

theorem step_of_loop {w w' : World} {i : Nat} {act : Act} (h : step w i act = some w')
    (hpc : (w.calls i).pc = .loop) : w' = w.pop i := by
  unfold step at h; rw [hpc] at h; cases act <;> cases h; rfl

theorem step_of_release {w w' : World} {i : Nat} {act : Act} (h : step w i act = some w')
    {c : SessionId} {exit : Bool} (hpc : (w.calls i).pc = .release c exit) :
    w' = w.release i c exit := by
  unfold step at h; rw [hpc] at h; cases act <;> cases h; rfl

/-- Only the first critical section of `Pool::Client` and the deleter touch the queues. -/
theorem idle_step_eq {w w' : World} {i : Nat} {act : Act} (h : step w i act = some w') {b : Bool}
    (hpop : (w.calls i).pc ≠ .loop) (hrel : ∀ c exit, (w.calls i).pc ≠ .release c exit) :
    w'.idle b = w.idle b := by
  refine step_cases h (fun hpc _ => absurd hpc hpop) ?_ ?_ ?_ ?_ ?_ ?_ ?_
    (fun c exit hpc _ => absurd hpc (hrel c exit))
  · rintro a - rfl; exact World.create_idle a b
  · rintro msg - rfl; rfl
  · rintro c fresh - rfl; exact World.override_idle c fresh b
  · rintro c fresh ou op - rfl; rfl
  · rintro c fresh ou op a - rfl; rfl
  · rintro c fresh ou op - rfl; exact World.checkDropped_idle c ou op b
  · rintro c err - rfl; rfl

/-- What a step can do to the queues: run the first critical section of `Pool::Client`, run the
deleter, or leave them alone. -/
theorem idle_step_cases {P : Prop} {w w' : World} {i : Nat} {act : Act}
    (h : step w i act = some w') (hpop : (w.calls i).pc = .loop → w' = w.pop i → P)
    (hrel : ∀ c exit, (w.calls i).pc = .release c exit → w' = w.release i c exit → P)
    (hsame : (∀ b, w'.idle b = w.idle b) → P) : P := by
  by_cases hl : (w.calls i).pc = .loop
  · exact hpop hl (step_of_loop h hl)
  by_cases hr : ∃ c exit, (w.calls i).pc = .release c exit
  · obtain ⟨c, exit, hpc⟩ := hr
    exact hrel c exit hpc (step_of_release h hpc)
  exact hsame fun b => idle_step_eq h hl fun c exit hpc => hr ⟨c, exit, hpc⟩

/-- A step of a call leaves the queue of the other pool alone. -/
theorem idle_step_of_ne {w w' : World} {i : Nat} {act : Act} (h : step w i act = some w') {b : Bool}
    (hb : (w.calls i).args.tag ≠ b) : w'.idle b = w.idle b := by
  refine idle_step_cases h (fun _ h' => ?_) (fun c exit _ h' => ?_) (· b)
  · rw [h', World.pop_idle, if_neg (Ne.symm hb)]
  · rw [h', World.release_idle, if_neg fun h => hb h.1.symm]

/-- A step adds to a queue only the client that the stepping call's deleter pushes back, which has
not dropped; that step changes no client object. -/
theorem mem_idle_step {w w' : World} {i : Nat} {act : Act} (h : step w i act = some w') {b : Bool}
    {d : SessionId} (hd : d ∈ w'.idle b) :
    d ∈ w.idle b ∨ ∃ exit, (w.calls i).pc = .release d exit ∧ b = (w.calls i).args.tag ∧
      (w.sessions d).dropped = false ∧ w'.sessions = w.sessions := by
  refine idle_step_cases h (fun _ h' => ?_) (fun c exit hpc h' => ?_) (fun hs => .inl (hs b ▸ hd))
  · rw [h', World.pop_idle] at hd
    split at hd
    · exact .inl (List.mem_of_mem_tail hd)
    · exact .inl hd
  · rw [h', World.release_idle] at hd
    split at hd
    · rename_i hcond
      rcases List.mem_append.1 hd with hd | hd
      · exact .inl hd
      · rw [List.mem_singleton.1 hd]
        exact .inr ⟨exit, hpc, hcond.1, hcond.2.1, h' ▸ World.release_sessions c exit⟩
    · exact .inl hd

/-! ## Runs -/

theorem Steps.trans {P : World → Nat → Act → World → Prop} {w₁ w₂ w₃ : World}
    (h₁ : Steps P w₁ w₂) (h₂ : Steps P w₂ w₃) : Steps P w₁ w₃ := by
  induction h₂ with
  | refl => exact h₁
  | tail _ hs hp ih => exact .tail ih hs hp

theorem Steps.mono {P Q : World → Nat → Act → World → Prop} {w w' : World}
    (hPQ : ∀ w i act w', P w i act w' → Q w i act w') (h : Steps P w w') : Steps Q w w' := by
  induction h with
  | refl => exact .refl _
  | tail _ hs hp ih => exact .tail ih hs (hPQ _ _ _ _ hp)

theorem Steps.head {P : World → Nat → Act → World → Prop} {w₁ w₂ w₃ : World} {i : Nat}
    {act : Act} (h : step w₁ i act = some w₂) (hp : P w₁ i act w₂) (hs : Steps P w₂ w₃) :
    Steps P w₁ w₃ :=
  (Steps.tail (.refl _) h hp).trans hs

/-- The steps of a schedule, one after another; `none` when one of them is not the step its call
is at. -/
def runSchedule (w : World) : List (Nat × Act) → Option World
  | [] => some w
  | (i, act) :: rest => (step w i act).bind fun w' => runSchedule w' rest

theorem steps_of_runSchedule {w w' : World} {sched : List (Nat × Act)}
    (h : runSchedule w sched = some w') : Steps (fun _ _ _ _ => True) w w' := by
  induction sched generalizing w with
  | nil => cases h; exact .refl _
  | cons x rest ih =>
    simp only [runSchedule, Option.bind_eq_some] at h
    obtain ⟨w₁, h₁, h₂⟩ := h
    exact .head h₁ trivial (ih h₂)

theorem runSchedule_append (w : World) (s₁ s₂ : List (Nat × Act)) :
    runSchedule w (s₁ ++ s₂) = (runSchedule w s₁).bind fun w' => runSchedule w' s₂ := by
  induction s₁ generalizing w with
  | nil => rfl
  | cons x rest ih => simp [runSchedule, ih, Option.bind_assoc]

/-- Every run is the run of a schedule. -/
theorem exists_schedule {P : World → Nat → Act → World → Prop} {w w' : World} (h : Steps P w w') :
    ∃ sched, runSchedule w sched = some w' := by
  induction h with
  | refl => exact ⟨[], rfl⟩
  | @tail _ _ i act _ hs _ ih =>
    obtain ⟨sched, hsched⟩ := ih
    exact ⟨sched ++ [(i, act)], by simp [runSchedule_append, hsched, runSchedule, hs]⟩

variable {argsOf : Nat → Args}

/-- Whatever a run allows, it goes from reachable states to reachable states. -/
theorem Steps.reachable {P : World → Nat → Act → World → Prop} {w w' : World}
    (hw : Reachable argsOf w) (h : Steps P w w') : Reachable argsOf w' :=
  hw.trans (h.mono fun _ _ _ _ _ => trivial)

theorem reachable_of_step {w w' : World} {i : Nat} {act : Act} (hw : Reachable argsOf w)
    (h : step w i act = some w') : Reachable argsOf w' :=
  Steps.tail hw h trivial

/-- An invariant that holds at the start and that every step keeps holds in every reachable
state. -/
theorem reachable_induction {I : World → Prop} (hinit : I (World.init argsOf))
    (hstep : ∀ {w w' i act}, Reachable argsOf w → I w → step w i act = some w' → I w')
    {w : World} (hw : Reachable argsOf w) : I w := by
  unfold Reachable at hw
  induction hw with
  | refl => exact hinit
  | tail hr hs _ ih => exact hstep hr ih hs

/-- A property of a single call that holds before its first step and that every step of the call's
own view keeps holds of every call in every reachable state. -/
theorem reachable_call {Q : Call → Prop} (hstart : ∀ a, Q (Call.start a))
    (hstep : ∀ {k k' o}, Q k → k.step o = some k' → Q k') {w : World}
    (hw : Reachable argsOf w) (j : Nat) : Q (w.calls j) := by
  refine reachable_induction (I := fun w => ∀ j, Q (w.calls j)) (fun j => hstart _) ?_ hw j
  intro w w' i act _ hI h j
  obtain ⟨o, ho, hcalls⟩ := calls_step h
  rw [hcalls]
  by_cases hj : j = i
  · subst hj
    rw [update_same]
    exact hstep (hI j) ho
  · rw [update_noteq hj]
    exact hI j

/-- Every call keeps the arguments it was started with. -/
theorem args_reachable {w : World} (hw : Reachable argsOf w) (j : Nat) :
    (w.calls j).args = argsOf j := by
  refine reachable_induction (I := fun w => ∀ j, (w.calls j).args = argsOf j) (fun _ => rfl) ?_ hw j
  intro w w' i act _ hI h j
  rw [args_step h, hI j]

/-- An invariant that holds at a reachable state and that every step of a run keeps holds at the
run's end. -/
theorem Steps.induction_reachable {P : World → Nat → Act → World → Prop} {I : World → Prop}
    {w₀ w : World} (hw₀ : Reachable argsOf w₀) (h₀ : I w₀)
    (hstep : ∀ {w w' i act}, Reachable argsOf w → I w → step w i act = some w' →
      P w i act w' → I w')
    (hs : Steps P w₀ w) : I w := by
  have : Reachable argsOf w ∧ I w := by
    induction hs with
    | refl => exact ⟨hw₀, h₀⟩
    | tail _ h hp ih => exact ⟨reachable_of_step ih.1 h, hstep ih.1 ih.2 h hp⟩
  exact this.2

/-! ## Sample runs -/

/-- Two `print` calls on the default pool, each with the arguments `foo` and `bar`; call `1`
overrides the credentials. -/
def sampleArgs (i : Nat) : Args :=
  { cmd := "print", user := if i = 1 then "carol" else "", passwd := if i = 1 then "pw" else "",
    input := [], joined := [102, 111, 111, 98, 97, 114], argv := [3, 3], cbid := i, tag := false }

/-- What `Init` answers in the sample: no error, and the user `alice` from the environment. -/
def sampleInit : InitAnswer := ⟨⟨false, ""⟩, cStr "alice", cStr "secret"⟩

/-- Calls 0 and 1 both find the pool empty and create a client each.  Call 0's command succeeds
and its client goes back to the pool.  Call 1's connection drops, `Final` reports an error, the
client is deleted, and call 1 takes call 0's former client from the pool, runs its command on it
and puts it back. -/
def sampleSchedule : List (Nat × Act) :=
  [(0, .acquire), (1, .acquire), (0, .create sampleInit), (1, .create sampleInit),
   (0, .override), (0, .setArgs), (0, .run ⟨[.outputText [104, 105]], false⟩), (0, .checkDropped),
   (0, .release), (1, .override), (1, .setArgs), (1, .run ⟨[], true⟩), (1, .checkDropped),
   (1, .final ⟨true, "lost"⟩), (1, .release), (1, .acquire), (1, .override), (1, .setArgs),
   (1, .run ⟨[.outputText [111, 107]], false⟩), (1, .checkDropped), (1, .release)]

/-- The state the sample schedule ends in. -/
def sampleWorld : World :=
  (runSchedule (World.init sampleArgs) sampleSchedule).getD (World.init sampleArgs)

theorem sampleWorld_reachable : Reachable sampleArgs sampleWorld :=
  steps_of_runSchedule (show runSchedule _ sampleSchedule = some sampleWorld from rfl)

example :
    sampleWorld.idle false = [0] ∧ sampleWorld.destroyed = [1] ∧ sampleWorld.held 1 = none := by
  decide

/-- Call 0's connection drops and it is about to call `Final`; call 2's dropped too, `Final`
reported an error, and its deleter is about to run; call 1 has overridden the credentials of a
new client and is about to `Run`; call 3's command succeeded and its client is back in the
queue. -/
def midSchedule : List (Nat × Act) :=
  [(0, .acquire), (0, .create sampleInit), (0, .override), (0, .setArgs), (0, .run ⟨[], true⟩),
   (0, .checkDropped), (2, .acquire), (2, .create sampleInit), (2, .override), (2, .setArgs),
   (2, .run ⟨[], true⟩), (2, .checkDropped), (2, .final ⟨true, "lost"⟩), (1, .acquire),
   (1, .create sampleInit), (1, .override), (1, .setArgs), (3, .acquire), (3, .create sampleInit),
   (3, .override), (3, .setArgs), (3, .run ⟨[], false⟩), (3, .checkDropped), (3, .release)]

/-- The state the schedule stops in. -/
def midWorld : World :=
  (runSchedule (World.init sampleArgs) midSchedule).getD (World.init sampleArgs)

theorem midWorld_reachable : Reachable sampleArgs midWorld :=
  steps_of_runSchedule (show runSchedule _ midSchedule = some midWorld from rfl)

/-! ## What every run keeps -/

/-- What a step moves through queue `b`, as the code decides it: the client that `Pool::Client`
took from the queue for the stepping call, which then holds it, and the client that the call's
deleter pushed back (`!c->Dropped() && clients_.size() < kMaxClients`). -/
def queueMoves (b : Bool) (w : World) (i : Nat) (w' : World) : List SessionId × List SessionId :=
  if (w.calls i).args.tag = b then
    match (w.calls i).pc with
    | .loop =>
      match (w'.calls i).pc with
      | .leased c _ => ([c], [])
      | _ => ([], [])
    | .release c _ =>
      if (w.sessions c).dropped = false ∧ (w.idle b).length < kMaxClients then ([], [c])
      else ([], [])
    | _ => ([], [])
  else ([], [])

/-- The clients a schedule takes from queue `b` and pushes to it, in order. -/
def queueLog (b : Bool) : World → List (Nat × Act) → List SessionId × List SessionId
  | _, [] => ([], [])
  | w, (i, act) :: rest =>
    match step w i act with
    | some w' => ((queueMoves b w i w').1 ++ (queueLog b w' rest).1,
        (queueMoves b w i w').2 ++ (queueLog b w' rest).2)
    | none => ([], [])

/-- One step: what it takes from a queue, followed by the queue after it, is the queue before it
followed by what it pushes. -/
theorem queueMoves_spec {w w' : World} {i : Nat} {act : Act} (h : step w i act = some w')
    (b : Bool) : (queueMoves b w i w').1 ++ w'.idle b = w.idle b ++ (queueMoves b w i w').2 := by
  unfold queueMoves
  split
  swap
  · rename_i hb; simp [idle_step_of_ne h hb]
  subst b
  split
  · -- `Pool::Client` takes the front client, if there is one
    rename_i hpc
    obtain rfl := step_of_loop h hpc
    rw [World.pop_calls, update_same, World.pop_idle, if_pos rfl]
    cases hp : (w.pools (w.calls i).args.tag).pop with
    | none => simp [World.idle, Pool.pop_eq_none hp]
    | some r => simp [World.idle, Pool.pop_eq_some hp]
  · -- the deleter pushes the client back, or deletes it
    rename_i c exit hpc
    rw [step_of_release h hpc, World.release_idle]
    split <;> simp_all
  · -- no other step moves a client through a queue
    rename_i hpop hrel
    simp [idle_step_eq h hpop fun c exit => hrel c exit]

/-- **The idle queues are FIFO.**  Along any schedule of the calls, the clients that
`Pool::Client` took from a queue, in the order it took them, followed by the clients still in it,
are the clients it held at the start followed by the clients the deleters pushed to it, in the
order they pushed them.  Every run is a schedule (`exists_schedule`). -/
theorem queue_fifo {w w' : World} {sched : List (Nat × Act)} (h : runSchedule w sched = some w')
    (b : Bool) : (queueLog b w sched).1 ++ w'.idle b = w.idle b ++ (queueLog b w sched).2 := by
  induction sched generalizing w with
  | nil => cases h; simp [queueLog]
  | cons x rest ih =>
    obtain ⟨i, act⟩ := x
    simp only [runSchedule, Option.bind_eq_some] at h
    obtain ⟨w₁, h₁, h₂⟩ := h
    simp only [queueLog, h₁]
    calc (queueMoves b w i w₁).1 ++ (queueLog b w₁ rest).1 ++ w'.idle b
        = (queueMoves b w i w₁).1 ++ (w₁.idle b ++ (queueLog b w₁ rest).2) := by
          rw [List.append_assoc, ih h₂]
      _ = w.idle b ++ ((queueMoves b w i w₁).2 ++ (queueLog b w₁ rest).2) := by
          rw [← List.append_assoc, queueMoves_spec h₁, List.append_assoc]

theorem queue_fifo_sample :
    runSchedule (World.init sampleArgs) sampleSchedule = some sampleWorld ∧
      (queueLog false (World.init sampleArgs) sampleSchedule).1 ++ sampleWorld.idle false =
        (World.init sampleArgs).idle false ++
          (queueLog false (World.init sampleArgs) sampleSchedule).2 :=
  ⟨rfl, queue_fifo
    (show runSchedule (World.init sampleArgs) sampleSchedule = some sampleWorld from rfl) false⟩

example : queueLog false (World.init sampleArgs) sampleSchedule = ([0], [0, 0]) := by decide

end SgeMonorepo.P4Lib
