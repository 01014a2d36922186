import SgeMonorepo.P4Lib.Sessions

/-!
# How often a call retries

`p4runcb` loops until a `Run` does not drop or `Pool::Client` fails.  A client that dropped is
deleted, never pushed back (`idle_clients_healthy`), so each drop uses up an idle client for good,
and a pass on a new client ends the loop unless that client drops at once.  So a call that no other
call feeds clients to makes at most `n + 1` passes, where `n` is the length of its pool's queue when
it starts, and each pass takes at most eight of its steps, so the loop ends (`retry_bound`).
Without the hypothesis on new clients there is no bound: when every new client drops, the loop
makes as many passes as the server lets it (`retries_unbounded`).

## Strategy

`RetryEnv i t` says which steps such a run allows: no other call's deleter changes the queue `t`
that call `i` selected, and a client that call `i` has just created has not dropped after its `Run`.
`RetryInv` is a potential argument: between passes and on a pooled client, call `i`'s passes plus
the queue's length stay at most `n`; on a new client, its passes are at most `n + 1` and, once `Run`
has returned, the client has not dropped.  Other calls' steps can only shorten the queue
(`idle_length_other`) and do not touch call `i`'s client (`sessions_step`); call `i`'s own steps are
one case per piece.  A client that dropped is not pushed back because `Held` says it has dropped
when its lease ends (`held_of_pc`).  For the steps, `retryPotential` charges eight steps for each
pass not yet started and `Pc.stepsLeft` for the pass in progress; each of call `i`'s own steps lowers
it (`retryPotential_self`), and `StepsBy` counts those steps along a run.

`retries_unbounded` runs one pass on a new client that drops (`drop_pass`, the eight pieces of the
loop one after the other) and repeats it.
-/

namespace SgeMonorepo.P4Lib

open Function

/-- Whether a pass at `pc` is on a pooled client, or the call is between passes. -/
def Pc.onQueue : Pc → Bool
  | .loop | .final _ => true
  | .leased _ fresh | .setArgs _ fresh .. | .run _ fresh .. | .ran _ fresh .. => !fresh
  | .release _ exit => !exit
  | .create | .failed _ | .done => false

/-- The most steps the pass at `pc` can still take before the call is back at the top of its loop
or has returned: `0` between passes, where the next pass is counted by `retryPotential`. -/
def Pc.stepsLeft : Pc → Nat
  | .loop | .done => 0
  | .create => 7
  | .leased .. => 6
  | .setArgs .. => 5
  | .run .. => 4
  | .ran .. => 3
  | .final _ => 2
  | .failed _ | .release .. => 1

/-- The steps of the runs in which call `i`, on the queue `t`, retries: no other call's deleter
changes the queue `t`, and a client that call `i` has just created has not dropped after its
`Run`. -/
def RetryEnv (i : Nat) (t : Bool) (w : World) (j : Nat) (_ : Act) (w' : World) : Prop :=
  (j ≠ i → ∀ c exit, (w.calls j).pc = .release c exit → w'.idle t = w.idle t) ∧
  (j = i → ∀ c ou op, (w.calls i).pc = .run c true ou op → (w'.sessions c).dropped = false)

/-- The invariant of call `i` against the queue `t` of initial length `n`: its passes and the
queue's length together stay within `n`, and a new client it has run on has not dropped. -/
structure RetryInv (i : Nat) (t : Bool) (n : Nat) (w : World) : Prop where
  passes_le : (w.calls i).passes ≤ n + 1
  onQueue : (w.calls i).pc.onQueue → (w.calls i).passes + (w.idle t).length ≤ n
  fresh : ∀ c ou op, (w.calls i).pc = .ran c true ou op → (w.sessions c).dropped = false

/-- The steps call `i` can still take when it may make `n + 1` passes: eight for each pass it has
not started, and what is left of the one it is in. -/
def retryPotential (i n : Nat) (w : World) : Nat :=
  8 * (n + 1 - (w.calls i).passes) + (w.calls i).pc.stepsLeft

/-- A run of steps that `P` allows, in which call `i` takes `k` steps of its own. -/
inductive StepsBy (P : World → Nat → Act → World → Prop) (i : Nat) : World → World → Nat → Prop
  | refl (w : World) : StepsBy P i w w 0
  | tail {w w' w'' : World} {j : Nat} {act : Act} {k : Nat} :
      StepsBy P i w w' k → step w' j act = some w'' → P w' j act w'' →
      StepsBy P i w w'' (if j = i then k + 1 else k)

/-- Every run takes some number of steps of call `i`. -/
theorem Steps.stepsBy {P : World → Nat → Act → World → Prop} {w w' : World} (h : Steps P w w')
    (i : Nat) : ∃ k, StepsBy P i w w' k := by
  induction h with
  | refl => exact ⟨0, .refl _⟩
  | tail _ hs hp ih => obtain ⟨k, hk⟩ := ih; exact ⟨_, .tail hk hs hp⟩

section Step

variable {argsOf : Nat → Args} {w w' : World} {i j : Nat} {act : Act} {t : Bool} {n : Nat}

/-- A step that leaves the queue alone when it ends a lease does not lengthen it. -/
private theorem idle_length_other (h : step w j act = some w')
    (hrel : ∀ c exit, (w.calls j).pc = .release c exit → w'.idle t = w.idle t) :
    (w'.idle t).length ≤ (w.idle t).length := by
  refine idle_step_cases h (fun _ h' => ?_) (fun c exit hpc _ => by rw [hrel c exit hpc])
    (fun hs => by rw [hs t])
  rw [h', World.pop_idle]
  split
  · simp
  · exact Nat.le_refl _

/-- Only `Pool::Client`'s first critical section starts a pass; every other step of a call keeps
how many it has made and uses up one of the steps its pass has left. -/
theorem Call.passes_step {k k' : Call} {o : Obs} (h : k.step o = some k') (hpc : k.pc ≠ .loop) :
    k'.passes = k.passes ∧ k'.pc.stepsLeft < k.pc.stepsLeft := by
  refine step_cases h (fun _ hk _ => absurd hk hpc) ?_ ?_ ?_ ?_ ?_ ?_ ?_ ?_
  · rintro c a hk rfl; unfold created; split <;> simp [passes, hk, Pc.stepsLeft]
  · rintro msg hk rfl; simp [passes, reportFailure, hk, Pc.stepsLeft]
  · rintro c fresh u p hk rfl; unfold override; split <;> simp [passes, hk, Pc.stepsLeft]
  · rintro c fresh ou op hk rfl; simp [passes, setArgs, hk, Pc.stepsLeft]
  · rintro c fresh ou op a hk rfl; simp [passes, runCmd, hk, Pc.stepsLeft]
  · rintro c fresh ou op d hk rfl; unfold checkDropped; split <;> simp [passes, hk, Pc.stepsLeft]
  · rintro c err hk rfl; simp [passes, final, hk, Pc.stepsLeft]
  · rintro c exit pushed hk rfl; cases exit <;> simp [passes, release, hk, Pc.stepsLeft]

/-- `Pool::Client`'s first critical section starts a pass, which has at most seven steps. -/
theorem Call.passes_step_loop {k k' : Call} {o : Obs} (h : k.step o = some k') (hpc : k.pc = .loop) :
    k'.passes = k.passes + 1 ∧ k'.pc.stepsLeft ≤ 7 := by
  unfold step at h
  rw [hpc] at h
  cases o <;> cases h
  rename_i r
  cases r <;> simp [passes, hpc, Pc.stepsLeft]

/-- `RetryInv` from what call `i` is after the step. -/
private theorem retryInv_of_call {k : Call} (hk : w'.calls i = k) (hle : k.passes ≤ n + 1)
    (hon : k.pc.onQueue → k.passes + (w'.idle t).length ≤ n)
    (hfresh : ∀ c ou op, k.pc = .ran c true ou op → (w'.sessions c).dropped = false) :
    RetryInv i t n w' := by
  subst hk; exact ⟨hle, hon, hfresh⟩

/-- A step of call `i` that does not start a pass keeps its potential when the call gets on the
queue only from it, the queue not growing, and a new client it is about to test has not dropped. -/
private theorem retryInv_of_self {k : Call} (hI : RetryInv i t n w) (h : step w i act = some w')
    (hk : w'.calls i = k) (hpc : (w.calls i).pc ≠ .loop)
    (hon : k.pc.onQueue → (w.calls i).pc.onQueue ∧ (w'.idle t).length ≤ (w.idle t).length)
    (hfresh : ∀ c ou op, k.pc = .ran c true ou op → (w'.sessions c).dropped = false) :
    RetryInv i t n w' := by
  obtain ⟨o, ho, -⟩ := calls_step h
  have hp : k.passes = (w.calls i).passes := hk ▸ (Call.passes_step ho hpc).1
  subst hk
  refine ⟨hp ▸ hI.passes_le, fun hq => ?_, hfresh⟩
  obtain ⟨hq', hlen⟩ := hon hq
  have := hI.onQueue hq'
  omega

/-- Call `i`'s own step keeps its potential. -/
private theorem retryInv_self (hw : Reachable argsOf w) (htag : (argsOf i).tag = t)
    (hI : RetryInv i t n w) (h : step w i act = some w')
    (hfresh : ∀ c ou op, (w.calls i).pc = .run c true ou op → (w'.sessions c).dropped = false) :
    RetryInv i t n w' := by
  refine step_cases h ?_ ?_ ?_ ?_ ?_ ?_ ?_ ?_ ?_
  · -- `Pool::Client` takes the front of the queue, or finds it empty
    rintro hpc rfl
    have htag' : (w.calls i).args.tag = t := (congrArg Args.tag (args_reachable hw i)).trans htag
    have hq := hI.onQueue (by simp [hpc, Pc.onQueue])
    simp only [Call.passes, hpc, Nat.add_zero] at hq
    have hidle : (w.pop i).idle t = (w.idle t).tail := by simp [World.pop_idle, htag']
    cases hpop : (w.pools (w.calls i).args.tag).pop with
    | none =>
      refine retryInv_of_call (k := (w.calls i).popped none) (by simp [World.pop_calls, hpop])
        ?_ (by simp [Pc.onQueue]) (by simp)
      simp only [Call.popped_none, Call.passes]
      omega
    | some x =>
      have hlen : (w.idle t).length = (w.idle t).tail.length + 1 := by
        rw [← htag']; simp [World.idle, Pool.pop_eq_some hpop]
      refine retryInv_of_call (k := (w.calls i).popped (some x.1))
        (by simp [World.pop_calls, hpop]) ?_ (fun _ => ?_) (by simp) <;>
        simp only [Call.popped_some, Call.passes, hidle] <;> omega
  · -- a new client, or none: the call leaves the queue
    rintro a hpc rfl
    refine retryInv_of_self hI h (k := (w.calls i).created w.nextId a)
      (by rw [World.create_calls, update_same]) (by simp [hpc]) (fun ho => ?_)
      (fun c ou op hc => ?_)
    · unfold Call.created at ho; split at ho <;> simp [Pc.onQueue] at ho
    · unfold Call.created at hc; split at hc <;> cases hc
  · rintro msg hpc rfl
    exact retryInv_of_self hI h (k := (w.calls i).reportFailure msg) (by simp [World.reportFailure])
      (by simp [hpc]) (by simp [Call.reportFailure, Pc.onQueue]) (by simp [Call.reportFailure])
  · rintro c fresh hpc rfl
    refine retryInv_of_self hI h
      (k := (w.calls i).override c fresh (w.sessions c).user (w.sessions c).password)
      (by rw [World.override_calls, update_same]) (by simp [hpc]) (fun ho => ?_)
      (fun c' ou op hc => ?_)
    · unfold Call.override at ho; split at ho <;> simpa [hpc, Pc.onQueue] using ho
    · unfold Call.override at hc; split at hc <;> cases hc
  · rintro c fresh ou op hpc rfl
    exact retryInv_of_self hI h (k := (w.calls i).setArgs c fresh ou op) (by simp [World.setArgs])
      (by simp [hpc]) (fun ho => by simpa [hpc, Pc.onQueue, World.setArgs, Call.setArgs] using ho)
      (by simp [Call.setArgs])
  · -- `Run` on a new client does not drop
    rintro c fresh ou op a hpc rfl
    refine retryInv_of_self hI h (k := (w.calls i).runCmd c fresh ou op a) (by simp [World.runCmd])
      (by simp [hpc]) (fun ho => by simpa [hpc, Pc.onQueue, World.runCmd, Call.runCmd] using ho)
      (fun c' ou' op' hc => ?_)
    obtain ⟨rfl, rfl, rfl, rfl⟩ := Pc.ran.inj hc
    exact hfresh c ou op hpc
  · -- `Dropped()`: a new client has not dropped, so its pass ends there
    rintro c fresh ou op hpc rfl
    refine retryInv_of_self hI h (k := (w.calls i).checkDropped c ou op (w.sessions c).dropped)
      (by rw [World.checkDropped_calls, update_same]) (by simp [hpc]) (fun ho => ?_)
      (fun c' ou' op' hc => ?_)
    · unfold Call.checkDropped at ho
      cases fresh
      · simp [hpc, Pc.onQueue]
      · rw [if_pos (by simp [hI.fresh c ou op hpc])] at ho
        cases ho
    · unfold Call.checkDropped at hc; split at hc <;> cases hc
  · rintro c err hpc rfl
    exact retryInv_of_self hI h (k := (w.calls i).final c err) (by simp [World.final])
      (by simp [hpc]) (fun _ => by simp [hpc, Pc.onQueue, World.final]) (by simp [Call.final])
  · -- the lease ends; a client that dropped is deleted, so the queue does not grow
    rintro c exit hpc rfl
    refine retryInv_of_self hI h (k := (w.calls i).release c exit
        ((w.pools (w.calls i).args.tag).release c (w.sessions c).dropped).isSome)
      (by rw [World.release_calls, update_same]) (by simp [hpc]) (fun ho => ?_)
      (fun c' ou op hc => ?_)
    · cases exit
      · have hd : (w.sessions c).dropped = true := (held_of_pc hw hpc rfl).2.1
        simp [hpc, Pc.onQueue, World.release_idle, hd]
      · cases ho
    · cases exit <;> cases hc

/-- Every step of a run that `RetryEnv` allows keeps call `i`'s potential. -/
theorem retryInv_step (hw : Reachable argsOf w) (htag : (argsOf i).tag = t)
    (hI : RetryInv i t n w) (h : step w j act = some w') (henv : RetryEnv i t w j act w') :
    RetryInv i t n w' := by
  by_cases hj : j = i
  · subst hj
    exact retryInv_self hw htag hI h (henv.2 rfl)
  · -- another call: it does not lengthen the queue and does not touch call `i`'s client
    have hsafe := safe_reachable hw
    have hk : w'.calls i = w.calls i := calls_step_of_ne h (Ne.symm hj)
    have hlen := idle_length_other h (henv.1 hj)
    refine ⟨hk ▸ hI.passes_le, fun ho => ?_, fun c ou op hpc => ?_⟩
    · rw [hk] at ho ⊢
      have := hI.onQueue ho
      omega
    · rw [hk] at hpc
      have hc : w.held i = some c := (congrArg Pc.session hpc).trans rfl
      rw [sessions_step h (fun hj' => hj (hsafe.held_inj hj' hc)) (hsafe.ne_nextId_of_held hc)]
      exact hI.fresh c ou op hpc

/-- Call `i`'s own step lowers its potential while it stays within `n + 1` passes. -/
private theorem retryPotential_self (h : step w i act = some w')
    (hle : (w'.calls i).passes ≤ n + 1) : retryPotential i n w' < retryPotential i n w := by
  obtain ⟨o, ho, -⟩ := calls_step h
  unfold retryPotential
  by_cases hpc : (w.calls i).pc = .loop
  · obtain ⟨hp, hs⟩ := Call.passes_step_loop ho hpc
    rw [hpc, Pc.stepsLeft]
    omega
  · obtain ⟨hp, hs⟩ := Call.passes_step ho hpc
    omega

/-- Along a run that `RetryEnv` allows, call `i` keeps its invariant, and each of its own steps
uses up some of its potential. -/
private theorem retryPotential_run {w₀ : World} {k : Nat} (hw : Reachable argsOf w₀)
    (htag : (argsOf i).tag = t) (hI : RetryInv i t n w₀) (h : StepsBy (RetryEnv i t) i w₀ w k) :
    Reachable argsOf w ∧ RetryInv i t n w ∧ retryPotential i n w + k ≤ retryPotential i n w₀ := by
  induction h with
  | refl => exact ⟨hw, hI, Nat.le_refl _⟩
  | @tail w₁ w₂ j act k _ hs henv ih =>
    obtain ⟨hr, hI₁, hk⟩ := ih
    have hI₂ := retryInv_step hr htag hI₁ hs henv
    refine ⟨reachable_of_step hr hs, hI₂, ?_⟩
    split
    · subst j
      have := retryPotential_self hs hI₂.passes_le
      omega
    · -- another call's step leaves call `i` as it is
      have : retryPotential i n w₂ = retryPotential i n w₁ := by
        rw [retryPotential, retryPotential, calls_step_of_ne hs (Ne.symm ‹_›)]
      omega

end Step

variable {argsOf : Nat → Args} {w₀ w : World}

/-- **A call retries at most as often as its pool has idle clients.**  Take a reachable state in
which call `i` has not started yet, and `n` the length of the queue of the pool it selects.  In
every state that a run reaches from there in which no other call's deleter pushes a client into
that queue and in which a client that call `i` has just created has not dropped after its `Run`,
call `i` has made at most `n + 1` passes of its loop, and every such run takes at most `8 (n + 1)`
steps of call `i`: at most eight per pass, so that its loop ends. -/
theorem retry_bound (hw : Reachable argsOf w₀) {i : Nat}
    (hstart : w₀.calls i = Call.start (argsOf i))
    (hrun : Steps (RetryEnv i (argsOf i).tag) w₀ w) :
    (w.calls i).passes ≤ (w₀.idle (argsOf i).tag).length + 1 ∧
      ∀ k, StepsBy (RetryEnv i (argsOf i).tag) i w₀ w k →
        k ≤ 8 * ((w₀.idle (argsOf i).tag).length + 1) := by
  have hI : RetryInv i (argsOf i).tag (w₀.idle (argsOf i).tag).length w₀ := by
    refine ⟨?_, fun _ => ?_, fun c ou op hpc => ?_⟩ <;> rw [hstart] at *
    · simp [Call.passes, Call.start]
    · simp [Call.passes, Call.start]
    · cases hpc
  obtain ⟨k₀, hk₀⟩ := hrun.stepsBy i
  refine ⟨(retryPotential_run hw rfl hI hk₀).2.1.passes_le, fun k hk => ?_⟩
  have := (retryPotential_run hw rfl hI hk).2.2
  simp only [retryPotential, hstart, Call.passes, Call.start, Pc.stepsLeft] at this
  omega

/-- A schedule of call `i`'s own steps whose `Run`s never drop is a run that `RetryEnv i t`
allows. -/
theorem retryEnv_of_runSchedule {w w' : World} {i : Nat} {t : Bool} {acts : List Act}
    (hacts : ∀ a, Act.run a ∈ acts → a.dropped = false)
    (h : runSchedule w (acts.map fun act => (i, act)) = some w') : Steps (RetryEnv i t) w w' := by
  induction acts generalizing w with
  | nil => cases h; exact .refl _
  | cons act rest ih =>
    simp only [List.map_cons, runSchedule, Option.bind_eq_some] at h
    obtain ⟨w₁, h₁, h₂⟩ := h
    refine .head h₁ ⟨fun hne => absurd rfl hne, fun _ c ou op hpc => ?_⟩
      (ih (fun a ha => hacts a (.tail _ ha)) h₂)
    unfold step at h₁
    rw [hpc] at h₁
    cases act <;> simp only [reduceCtorEq, Option.some.injEq] at h₁
    subst h₁
    simpa [World.runCmd] using hacts _ (.head _)

/-- A step of call `i` from anywhere but a `Run` on a client it has just created is one that
`RetryEnv i t` allows, whatever it observes. -/
theorem retryEnv_self {w w' : World} {i : Nat} {t : Bool} {act : Act}
    (hpc : ∀ c ou op, (w.calls i).pc ≠ .run c true ou op) : RetryEnv i t w i act w' :=
  ⟨fun hne => absurd rfl hne, fun _ c ou op h => absurd h (hpc c ou op)⟩

/-- From the sample state, call 2 takes client 0 from the queue, whose connection drops under
`Run`; the deleter deletes it, and call 2 creates client 2, on which its command succeeds. -/
theorem retry_bound_sample :
    ∃ w, Reachable sampleArgs sampleWorld ∧ sampleWorld.calls 2 = Call.start (sampleArgs 2) ∧
      Steps (RetryEnv 2 (sampleArgs 2).tag) sampleWorld w ∧ (w.calls 2).pc = .done ∧
      (w.calls 2).past.map (fun a => (a.lease, a.dropped)) =
        [(some (.pooled 0), some true), (some (.fresh 2), some false)] ∧
      ((w.calls 2).passes ≤ (sampleWorld.idle (sampleArgs 2).tag).length + 1 ∧
        ∀ k, StepsBy (RetryEnv 2 (sampleArgs 2).tag) 2 sampleWorld w k →
          k ≤ 8 * ((sampleWorld.idle (sampleArgs 2).tag).length + 1)) :=
  have hrun := (@retryEnv_of_runSchedule sampleWorld _ 2 (sampleArgs 2).tag
    [.acquire, .override, .setArgs] (by simp) rfl).trans <|
    Steps.head (show step _ 2 (.run ⟨[], true⟩) = some _ from rfl)
      (retryEnv_self fun _ _ _ h => by cases h) <|
    @retryEnv_of_runSchedule _ _ 2 (sampleArgs 2).tag
      [.checkDropped, .final ⟨true, "lost"⟩, .release, .acquire, .create sampleInit, .override,
        .setArgs, .run ⟨[], false⟩, .checkDropped, .release] (by simp) rfl
  ⟨_, sampleWorld_reachable, rfl, hrun, rfl, rfl, retry_bound sampleWorld_reachable rfl hrun⟩

/-! ## Without the hypothesis on new clients -/

section Unbounded

variable {argsOf : Nat → Args}

private theorem passes_of_step {w w' : World} {i : Nat} {act : Act} (h : step w i act = some w')
    (hpc : (w.calls i).pc ≠ .loop) : (w'.calls i).passes = (w.calls i).passes := by
  obtain ⟨o, ho, -⟩ := calls_step h
  exact (Call.passes_step ho hpc).1

/-- From the top of its loop, with its queue empty, call `i` makes one more pass: `Pool::Client`
creates a client whose `Init` succeeds, the connection drops under `Run`, and the deleter deletes
the client, which leaves the call at the top of its loop and the queue empty.  The pass is recorded
as one on a new client that dropped. -/
theorem drop_pass {w : World} (hw : Reachable argsOf w) {i : Nat} (hpc : (w.calls i).pc = .loop)
    (hidle : w.idle (argsOf i).tag = []) :
    ∃ w', Reachable argsOf w' ∧ (w'.calls i).pc = .loop ∧
      (w'.calls i).passes = (w.calls i).passes + 1 ∧ w'.idle (argsOf i).tag = [] ∧
      ∃ a, (w'.calls i).past = (w.calls i).past ++ [a] ∧ a.dropped = some true ∧
        a.lease = some (.fresh w.nextId) := by
  have htag : (w.calls i).args.tag = (argsOf i).tag := by rw [args_reachable hw]
  have hpop : (w.pools (w.calls i).args.tag).pop = none := by
    simp only [World.idle, htag] at hidle ⊢
    simp [Pool.pop, hidle]
  -- `Pool::Client` finds the queue empty and creates a client `c`, whose `Init` succeeds
  set w₁ := w.pop i with hw₁
  have s₁ : step w i .acquire = some w₁ := by unfold step; rw [hpc]
  have h₁ : (w₁.calls i).pc = .create := by simp [hw₁, World.pop_calls, hpop]
  set c := w₁.nextId
  set w₂ := w₁.create i sampleInit with hw₂
  have s₂ : step w₁ i (.create sampleInit) = some w₂ := by unfold step; rw [h₁]
  have h₂ : (w₂.calls i).pc = .leased c true := by
    simp [hw₂, World.create_calls, Call.created, sampleInit]
  -- the override and the arguments
  set w₃ := w₂.override i c true with hw₃
  have s₃ : step w₂ i .override = some w₃ := by unfold step; rw [h₂]
  obtain ⟨ou, op, h₃⟩ : ∃ ou op, (w₃.calls i).pc = .setArgs c true ou op := by
    simp only [hw₃, World.override_calls, update_same]
    unfold Call.override
    split <;> exact ⟨_, _, rfl⟩
  set w₄ := w₃.setArgs i c true ou op with hw₄
  have s₄ : step w₃ i .setArgs = some w₄ := by unfold step; rw [h₃]
  have h₄ : (w₄.calls i).pc = .run c true ou op := by simp [hw₄, World.setArgs, Call.setArgs]
  -- `Run`, under which the connection drops
  set w₅ := w₄.runCmd i c true ou op ⟨[], true⟩ with hw₅
  have s₅ : step w₄ i (.run ⟨[], true⟩) = some w₅ := by unfold step; rw [h₄]
  have h₅ : (w₅.calls i).pc = .ran c true ou op := by simp [hw₅, World.runCmd, Call.runCmd]
  have hd₅ : (w₅.sessions c).dropped = true := by simp [hw₅, World.runCmd]
  -- `Dropped()` answers yes: `Final`, and the deleter deletes the client
  set w₆ := w₅.checkDropped i c ou op with hw₆
  have s₆ : step w₅ i .checkDropped = some w₆ := by unfold step; rw [h₅]
  have h₆ : (w₆.calls i).pc = .final c := by
    simp [hw₆, World.checkDropped_calls, hd₅, Call.checkDropped]
  have hd₆ : (w₆.sessions c).dropped = true := by simp [hw₆, World.checkDropped_sessions, hd₅]
  set w₇ := w₆.final i c ⟨false, ""⟩ with hw₇
  have s₇ : step w₆ i (.final ⟨false, ""⟩) = some w₇ := by unfold step; rw [h₆]
  have h₇ : (w₇.calls i).pc = .release c false := by simp [hw₇, World.final, Call.final]
  have hd₇ : (w₇.sessions c).dropped = true := by simp [hw₇, World.final, hd₆]
  set w₈ := w₇.release i c false with hw₈
  have s₈ : step w₇ i .release = some w₈ := by unfold step; rw [h₇]
  -- the pass in progress leased the new client, which dropped
  have hcur : (w₇.calls i).past = (w.calls i).past ∧ (w₇.calls i).cur.lease = some (.fresh c) ∧
      (w₇.calls i).cur.dropped = some true := by
    simp [hw₇, hw₆, hw₅, hw₄, hw₃, hw₂, hw₁, World.final, World.checkDropped_calls, World.runCmd,
      World.setArgs, World.override_calls, World.create_calls, World.pop_calls, hpop, Call.final,
      Call.checkDropped, Call.runCmd, Call.setArgs, Call.override, Call.created, sampleInit, c,
      apply_ite Call.past, apply_ite Call.cur, apply_ite Attempt.lease, apply_ite Attempt.dropped]
  refine ⟨w₈, reachable_of_step (reachable_of_step (reachable_of_step (reachable_of_step
    (reachable_of_step (reachable_of_step (reachable_of_step (reachable_of_step hw s₁) s₂) s₃) s₄)
      s₅) s₆) s₇) s₈, by simp [hw₈, World.release_calls, Call.release], ?_, ?_, ?_⟩
  · -- the pass started at `pool.Client`; no later piece starts one
    calc (w₈.calls i).passes = (w₁.calls i).passes := by
          rw [passes_of_step s₈ (by simp [h₇]), passes_of_step s₇ (by simp [h₆]),
            passes_of_step s₆ (by simp [h₅]), passes_of_step s₅ (by simp [h₄]),
            passes_of_step s₄ (by simp [h₃]), passes_of_step s₃ (by simp [h₂]),
            passes_of_step s₂ (by simp [h₁])]
      _ = (w.calls i).passes + 1 := by simp [hw₁, World.pop_calls, hpop, Call.passes, hpc]
  · -- only `Pool::Client` and the deleter touch the queue, and the deleter deletes the client
    calc w₈.idle (argsOf i).tag = w₁.idle (argsOf i).tag := by
          rw [hw₈, World.release_idle, if_neg (by simp [hd₇]), idle_step_eq s₇ (by simp [h₆])
            (by simp [h₆]), idle_step_eq s₆ (by simp [h₅]) (by simp [h₅]),
            idle_step_eq s₅ (by simp [h₄]) (by simp [h₄]), idle_step_eq s₄ (by simp [h₃])
            (by simp [h₃]), idle_step_eq s₃ (by simp [h₂]) (by simp [h₂]),
            idle_step_eq s₂ (by simp [h₁]) (by simp [h₁])]
      _ = [] := by simp [hw₁, World.pop_idle, htag, hidle]
  · -- the deleter deletes the client, and the pass joins the finished ones
    have hc : c = w.nextId := by simp [c, hw₁, World.pop, hpop]
    refine ⟨{ (w₇.calls i).cur with disposals := (w₇.calls i).cur.disposals ++ [.deleted c] }, ?_,
      hcur.2.2, hc ▸ hcur.2.1⟩
    simp [hw₈, World.release_calls, Call.release, hcur.1, Pool.release, hd₇]

/-- The runs in which call `i` keeps making passes on new clients that drop. -/
private theorem drop_passes (argsOf : Nat → Args) (i : Nat) :
    ∀ n, ∃ w, Reachable argsOf w ∧ (w.calls i).pc = .loop ∧ (w.calls i).passes = n ∧
      w.idle (argsOf i).tag = [] ∧
      ∀ a ∈ (w.calls i).past, a.dropped = some true ∧ ∃ c, a.lease = some (.fresh c)
  | 0 => ⟨_, .refl _, rfl, rfl, rfl, fun _ h => absurd h (List.not_mem_nil _)⟩
  | n + 1 => by
    obtain ⟨w, hw, hpc, hn, hidle, hpast⟩ := drop_passes argsOf i n
    obtain ⟨w', hw', hpc', hn', hidle', a, hpast', hd, hl⟩ := drop_pass hw hpc hidle
    refine ⟨w', hw', hpc', hn' ▸ hn ▸ rfl, hidle', fun b hb => ?_⟩
    rcases List.mem_append.1 (hpast' ▸ hb) with hb | hb
    · exact hpast b hb
    · exact List.mem_singleton.1 hb ▸ ⟨hd, _, hl⟩

/-- **The loop has no bound of its own.**  Whatever the arguments of the calls, for every `n` there
is a run in which call `i` has made `n` passes of its loop, each on a client that `Pool::Client`
had just created and each ended by a dropped connection, and is about to call `pool.Client` once
more.  The only bound on the retries is the one `retry_bound` derives from its hypothesis that a
new client does not drop at once. -/
theorem retries_unbounded (argsOf : Nat → Args) (i n : Nat) :
    ∃ w, Reachable argsOf w ∧ (w.calls i).pc = .loop ∧ (w.calls i).passes = n ∧
      ∀ a ∈ (w.calls i).past, a.dropped = some true ∧ ∃ c, a.lease = some (.fresh c) := by
  obtain ⟨w, hw, hpc, hn, -, hpast⟩ := drop_passes argsOf i n
  exact ⟨w, hw, hpc, hn, hpast⟩

end Unbounded

end SgeMonorepo.P4Lib
