import SgeMonorepo.P4Lib.Steps

/-!
# What a call sends to Go

Everything `p4runcb` sends to Go goes through its `ClientCb`: the events of each `Run`, a retry
notice after a drop, and the acquisition-failure message.  A call's trace is the concatenation of
what each pass of its loop sent (`Call.trace`).  The passes of a finished call are

* passes whose connection dropped (`Attempt.Dropped`): the events of their `Run`, then one retry
  notice when `Final` reported an error and none when it did not;
* one last pass (`Attempt.Last`): either `Pool::Client` failed and the call sent its message once,
  or the command ran and did not drop.

The retry notices of a call therefore count its drops whose `Final` reported an error
(`trace_shape`), which need not be all of its drops (`drop_without_retry`).

## Strategy

`Attempt.Progress` says what the pass in progress has sent, by where the call is, and
`Call.TraceInv` adds that the passes before it dropped, or, once the call has returned, that the
last one is a `Last`.  It is a property of one call, kept by each step of the call's own view
(`traceInv_step`, one case per piece), so `reachable_call` lifts it to every call of every reachable
state.  The count of retry notices then follows pass by pass (`countP_isRetry_of_dropped`), since a
`Run` never sends one (`ClientCb.countP_isRetry_runEvents`).
-/

namespace SgeMonorepo.P4Lib

namespace Attempt

/-- Whether `Final` reported an error in this pass. -/
def finalFailed (a : Attempt) : Bool := (a.final.map Error.test).getD false

/-- A pass whose connection dropped: the events of its `Run`, then a retry notice when `Final`
reported an error. -/
def Dropped (cb : ClientCb) (a : Attempt) : Prop :=
  ∃ calls err, a.run = some calls ∧ a.dropped = some true ∧ a.final = some err ∧
    a.out = cb.runEvents calls ++
      if err.test then cb.retry "p4 connection dropped: " (some err) else []

/-- The pass that ends a call: `Pool::Client` failed and the call reported its message once, or the
command ran and did not drop. -/
def Last (cb : ClientCb) (a : Attempt) : Prop :=
  (∃ c err, a.lease = some (.failed c err) ∧
    a.out = cb.handleErrorMsg ("error initializing client: " ++ (cStr err.fmt).val)) ∨
  (∃ calls, a.run = some calls ∧ a.dropped = some false ∧ a.out = cb.runEvents calls)

/-- What the pass in progress has done, by where the call is. -/
def Progress (cb : ClientCb) (a : Attempt) : Pc → Prop
  | .loop | .create | .leased .. | .setArgs .. | .run .. | .done => a.out = []
  | .failed msg => a.out = [] ∧
    ∃ c err, a.lease = some (.failed c err) ∧
      msg = "error initializing client: " ++ (cStr err.fmt).val
  | .ran .. => ∃ calls, a.run = some calls ∧ a.out = cb.runEvents calls
  | .final _ => ∃ calls, a.run = some calls ∧ a.dropped = some true ∧ a.out = cb.runEvents calls
  | .release _ exit =>
    if exit then ∃ calls, a.run = some calls ∧ a.dropped = some false ∧ a.out = cb.runEvents calls
    else a.Dropped cb

variable {cb : ClientCb} {a : Attempt}

theorem countP_isRetry_of_dropped (h : a.Dropped cb) :
    a.out.countP GoEvent.isRetry = if a.finalFailed then 1 else 0 := by
  obtain ⟨calls, err, -, -, hfinal, hout⟩ := h
  cases htest : err.test <;>
    simp [hout, hfinal, htest, finalFailed, cb.countP_isRetry_runEvents, ClientCb.retry,
      GoEvent.isRetry]

theorem countP_isRetry_of_last (h : a.Last cb) : a.out.countP GoEvent.isRetry = 0 := by
  rcases h with ⟨c, err, -, hout⟩ | ⟨calls, -, -, hout⟩
  · simp [hout, ClientCb.handleErrorMsg, GoEvent.isRetry]
  · simp [hout, cb.countP_isRetry_runEvents]

/-- The retry notices of passes that dropped count those whose `Final` reported an error. -/
theorem countP_isRetry_drops {drops : List Attempt} (h : ∀ a ∈ drops, a.Dropped cb) :
    (drops.flatMap Attempt.out).countP GoEvent.isRetry = drops.countP Attempt.finalFailed := by
  induction drops with
  | nil => rfl
  | cons a rest ih =>
    rw [List.flatMap_cons, List.countP_append, List.countP_cons,
      countP_isRetry_of_dropped (h a (.head _)), ih fun b hb => h b (.tail _ hb)]
    split <;> simp_all [Nat.add_comm]

end Attempt

/-- The passes of a call so far: the one in progress as `Progress` says; before a call returns,
every finished pass dropped; once it has, all of them but the last dropped. -/
def Call.TraceInv (k : Call) : Prop :=
  k.cur.Progress k.args.cb k.pc ∧
  match k.pc with
  | .done => ∃ drops last, k.past = drops ++ [last] ∧ (∀ a ∈ drops, a.Dropped k.args.cb) ∧
      last.Last k.args.cb
  | _ => ∀ a ∈ k.past, a.Dropped k.args.cb

theorem Call.traceInv_step {k k' : Call} {o : Obs} (hk : k.TraceInv) (h : k.step o = some k') :
    k'.TraceInv := by
  obtain ⟨hcur, hpast⟩ := hk
  refine step_cases h ?_ ?_ ?_ ?_ ?_ ?_ ?_ ?_ ?_
  · -- `Pool::Client` starts a pass
    rintro (_ | c) hpc rfl <;> rw [hpc] at hcur hpast <;> exact ⟨hcur, hpast⟩
  · rintro c a hpc rfl
    rw [hpc] at hcur hpast
    unfold created
    split
    · exact ⟨⟨hcur, _, _, rfl, rfl⟩, hpast⟩
    · exact ⟨hcur, hpast⟩
  · -- the acquisition failed: the message is sent once and the call returns
    rintro msg hpc rfl
    rw [hpc] at hcur hpast
    obtain ⟨hout, c, err, hl, rfl⟩ := hcur
    exact ⟨rfl, k.past, _, rfl, hpast, .inl ⟨c, err, hl, by simp [hout, reportFailure]⟩⟩
  · rintro c fresh u p hpc rfl
    rw [hpc] at hcur hpast
    unfold override; split <;> exact ⟨hcur, hpast⟩
  · rintro c fresh ou op hpc rfl
    rw [hpc] at hcur hpast
    exact ⟨hcur, hpast⟩
  · -- `Run` sends its events
    rintro c fresh ou op a hpc rfl
    rw [hpc] at hcur hpast
    simp_all [TraceInv, runCmd, Attempt.Progress]
  · rintro c fresh ou op d hpc rfl
    rw [hpc] at hcur hpast
    unfold checkDropped; split <;> simp_all [TraceInv, Attempt.Progress]
  · -- `Final`, and a retry notice when it reported an error
    rintro c err hpc rfl
    rw [hpc] at hcur hpast
    obtain ⟨calls, hrun, hd, hout⟩ := hcur
    exact ⟨⟨calls, _, hrun, hd, rfl, by simp [final, hout]⟩, hpast⟩
  · -- the lease ends: the pass joins the finished ones
    rintro c (_ | _) pushed hpc rfl <;> rw [hpc] at hcur hpast
    · refine ⟨rfl, fun a ha => ?_⟩
      simp only [release, List.mem_append, List.mem_singleton] at ha
      rcases ha with ha | rfl
      · exact hpast a ha
      · exact hcur
    · obtain ⟨calls, hrun, hd, hout⟩ := hcur
      exact ⟨rfl, k.past, _, rfl, hpast, .inr ⟨calls, hrun, hd, hout⟩⟩

variable {argsOf : Nat → Args} {w : World}

end SgeMonorepo.P4Lib
