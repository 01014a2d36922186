import SgeMonorepo.P4Lib.Steps

/-!
# The command each pass runs

Go passes a command's arguments packed: `joined` holds them one after another, and `argv` points at
their `argc` lengths.  Every pass of the loop unpacks them again, with `next` starting at `0`, into
one `SetVar` per argument, and then calls `Run` with `cmdstr.c_str()`.

* `argSlices_slice`, `argSlices_le`: when `joined` is `x₁ ++ ... ++ xₖ` and the lengths are
  `|x₁|, ..., |xₖ|`, the `i`-th `StrRef` names exactly `xᵢ`, inside `joined`.
* `attempt_arguments`: every finished pass that got a client called, after the override, `SetVar`
  once per argument with these slices, then `Run` once, with `cmd` up to its first NUL, and nothing
  after but the restore or `Final`.  A retry thus repeats the first pass's command and arguments.
* `run_cmd_cut_at_nul`: a `cmd` that holds a NUL does not reach `Run` whole.

## Strategy

`Attempt.ApiProgress` says which calls the pass in progress has made, by where the call is, and
`Call.ArgsInv` adds that every finished pass is `Finished`.  It is a property of one call, kept by
each step of the call's own view (`argsInv_step`), and lifted to every reachable state by
`reachable_call`.  The slices are a separate induction on the argument list.
-/

namespace SgeMonorepo.P4Lib

/-! ## Unpacking the arguments -/

/-- After `pre`, the slices of the packed arguments lie inside `pre ++ xs.flatten`. -/
theorem argSlices_le (pre : Bytes) (xs : List Bytes) :
    ∀ s ∈ argSlices pre.length (xs.map List.length), s.1 + s.2 ≤ (pre ++ xs.flatten).length := by
  induction xs generalizing pre with
  | nil => simp [argSlices]
  | cons x rest ih =>
    intro s hs
    simp only [List.map_cons, argSlices, List.mem_cons] at hs
    rcases hs with rfl | hs
    · simp
    · simpa using ih (pre ++ x) s (by simpa using hs)

/-- After `pre`, the slices of the packed arguments are the arguments, in order. -/
theorem argSlices_slice (pre : Bytes) (xs : List Bytes) :
    (argSlices pre.length (xs.map List.length)).map (fun s => slice (pre ++ xs.flatten) s.1 s.2) =
      xs := by
  induction xs generalizing pre with
  | nil => rfl
  | cons x rest ih =>
    simp only [List.map_cons, argSlices, List.flatten_cons, slice, List.drop_left,
      List.take_left, List.cons.injEq, true_and]
    simpa [slice] using ih (pre ++ x)

/-! ## The calls of a pass -/

namespace Args

variable (a : Args)

/-- Lines 193-200: the override, when the call overrides. -/
def overrideCalls : List ApiCall :=
  if a.overrides then [.setUser (cStr a.user), .setPassword (cStr a.passwd)] else []

/-- Lines 202-208: one `SetVar` per argument. -/
def setVarCalls : List ApiCall := (argSlices 0 a.argv).map fun s => .setVar s.1 s.2

end Args

/-- A call that may follow `Run` in a pass: the restore or `Final`. -/
def ApiCall.AfterRun : ApiCall → Prop
  | .setUser _ | .setPassword _ | .final => True
  | .setVar .. | .run _ => False

namespace Attempt

/-- A pass that ran its command: the override, the arguments, `Run` with `cmd` as `c_str()` passes
it, and then only the restore or `Final`. -/
def Ran (args : Args) (a : Attempt) : Prop :=
  ∃ post, a.api = args.overrideCalls ++ args.setVarCalls ++ .run (cStr args.cmd) :: post ∧
    ∀ x ∈ post, x.AfterRun

/-- A finished pass: `Pool::Client` failed and no call was made, or the pass ran its command. -/
def Finished (args : Args) (a : Attempt) : Prop :=
  (∃ c err, a.lease = some (.failed c err) ∧ a.api = []) ∨ a.Ran args

/-- The calls the pass in progress has made on its client, by where the call is. -/
def ApiProgress (args : Args) (a : Attempt) : Pc → Prop
  | .loop | .create | .leased .. | .done => a.api = []
  | .failed _ => ∃ c err, a.lease = some (.failed c err) ∧ a.api = []
  | .setArgs .. => a.api = args.overrideCalls
  | .run .. => a.api = args.overrideCalls ++ args.setVarCalls
  | .ran .. | .final _ => a.api = args.overrideCalls ++ args.setVarCalls ++ [.run (cStr args.cmd)]
  | .release .. => a.Ran args

end Attempt

/-- Every finished pass of a call is `Finished`, and the pass in progress as `ApiProgress` says. -/
def Call.ArgsInv (k : Call) : Prop :=
  (∀ a ∈ k.past, a.Finished k.args) ∧ k.cur.ApiProgress k.args k.pc

theorem Call.argsInv_step {k k' : Call} {o : Obs} (hk : k.ArgsInv) (h : k.step o = some k') :
    k'.ArgsInv := by
  obtain ⟨hpast, hcur⟩ := hk
  refine step_cases h ?_ ?_ ?_ ?_ ?_ ?_ ?_ ?_ ?_
  · rintro (_ | c) hpc rfl <;> rw [hpc] at hcur <;> exact ⟨hpast, hcur⟩
  · rintro c a hpc rfl
    rw [hpc] at hcur
    unfold created
    split
    · exact ⟨hpast, _, _, rfl, hcur⟩
    · exact ⟨hpast, hcur⟩
  · -- the failed pass joins the finished ones
    rintro msg hpc rfl
    rw [hpc] at hcur
    refine ⟨fun a ha => ?_, rfl⟩
    simp only [reportFailure, List.mem_append, List.mem_singleton] at ha
    rcases ha with ha | rfl
    · exact hpast a ha
    · exact .inl hcur
  · -- the override
    rintro c fresh u p hpc rfl
    simp only [hpc, Attempt.ApiProgress] at hcur
    unfold override
    split <;> rename_i ho <;> refine ⟨hpast, ?_⟩ <;>
      simp [Attempt.ApiProgress, Args.overrideCalls, ho, hcur]
  · rintro c fresh ou op hpc rfl
    simp only [hpc, Attempt.ApiProgress] at hcur
    exact ⟨hpast, by simp [setArgs, Attempt.ApiProgress, hcur, Args.setVarCalls]⟩
  · rintro c fresh ou op a hpc rfl
    simp only [hpc, Attempt.ApiProgress] at hcur
    exact ⟨hpast, by simp [runCmd, Attempt.ApiProgress, hcur]⟩
  · -- the restore ends the pass's calls, unless the connection dropped
    rintro c fresh ou op d hpc rfl
    simp only [hpc, Attempt.ApiProgress] at hcur
    unfold checkDropped
    split
    · refine ⟨hpast, if k.args.overrides then [.setUser (cStr ou), .setPassword (cStr op)] else [],
        by simp [hcur], fun x hx => ?_⟩
      split at hx
      · rcases List.mem_pair.1 hx with rfl | rfl <;> trivial
      · simp at hx
    · exact ⟨hpast, hcur⟩
  · rintro c err hpc rfl
    simp only [hpc, Attempt.ApiProgress] at hcur
    exact ⟨hpast, [.final], by simp [final, hcur], by simp [ApiCall.AfterRun]⟩
  · -- the pass that ran joins the finished ones
    rintro c exit pushed hpc rfl
    rw [hpc] at hcur
    refine ⟨fun a ha => ?_, by cases exit <;> rfl⟩
    simp only [release, List.mem_append, List.mem_singleton] at ha
    rcases ha with ha | rfl
    · exact hpast a ha
    · exact .inr hcur

variable {argsOf : Nat → Args} {w : World}

/-- **Every pass runs the same command.**  Let call `j`'s arguments be `x₁, ..., xₖ`, packed:
`joined` is `x₁ ++ ... ++ xₖ` and `argv` holds `|x₁|, ..., |xₖ|`.  In every reachable state, every
finished pass of the call either failed to get a client and called nothing on one, or called, after
the override, `SetVar` exactly `k` times, the `i`-th time with a slice of `joined` that holds
exactly the bytes of `xᵢ`, then `Run` with `cmd` up to its first NUL, and after that only the
restore or `Final`. -/
theorem attempt_arguments (hw : Reachable argsOf w) {j : Nat} {xs : List Bytes}
    (hjoined : (argsOf j).joined = xs.flatten) (hargv : (argsOf j).argv = xs.map List.length) :
    ∀ a ∈ (w.calls j).past, (∃ c err, a.lease = some (.failed c err) ∧ a.api = []) ∨
      ∃ (slices : List (Nat × Nat)) (post : List ApiCall),
        a.api = (argsOf j).overrideCalls ++ slices.map (fun s => .setVar s.1 s.2) ++
          .run (cStr (argsOf j).cmd) :: post ∧
        slices.map (fun s => slice (argsOf j).joined s.1 s.2) = xs ∧
        (∀ s ∈ slices, s.1 + s.2 ≤ (argsOf j).joined.length) ∧ ∀ x ∈ post, x.AfterRun := by
  intro a ha
  have hpast :=
    (reachable_call (Q := Call.ArgsInv) (fun _ => ⟨by simp [Call.start], rfl⟩) Call.argsInv_step hw j).1
  rw [args_reachable hw j] at hpast
  refine (hpast a ha).imp id fun ⟨post, hapi, hpost⟩ => ⟨_, post, hapi, ?_, fun s hs => ?_, hpost⟩
  · simpa [hjoined, hargv] using argSlices_slice [] xs
  · rw [hargv] at hs
    simpa [hjoined] using argSlices_le [] xs s hs

/-- Call 1 of the sample finished two leased passes: one on the client it created, whose connection
dropped, and one on the client it took from the queue. -/
theorem attempt_arguments_sample :
    Reachable sampleArgs sampleWorld ∧
      (sampleWorld.calls 1).past.map Attempt.lease = [some (.fresh 1), some (.pooled 0)] ∧
      (sampleArgs 1).joined = [[102, 111, 111], [98, 97, 114]].flatten ∧
      (sampleArgs 1).argv = [[102, 111, 111], [98, 97, 114]].map List.length ∧
    ∀ a ∈ (sampleWorld.calls 1).past, (∃ c err, a.lease = some (.failed c err) ∧ a.api = []) ∨
      ∃ (slices : List (Nat × Nat)) (post : List ApiCall),
        a.api = (sampleArgs 1).overrideCalls ++ slices.map (fun s => .setVar s.1 s.2) ++
          .run (cStr (sampleArgs 1).cmd) :: post ∧
        slices.map (fun s => slice (sampleArgs 1).joined s.1 s.2) =
          [[102, 111, 111], [98, 97, 114]] ∧
        (∀ s ∈ slices, s.1 + s.2 ≤ (sampleArgs 1).joined.length) ∧ ∀ x ∈ post, x.AfterRun :=
  ⟨sampleWorld_reachable, rfl, rfl, rfl, attempt_arguments sampleWorld_reachable rfl rfl⟩

/-- A call whose command holds a NUL byte, with the three arguments `foo`, `bar`, `baz`. -/
def nulCmdArgs (_ : Nat) : Args :=
  { cmd := "in\x00fo", user := "", passwd := "", input := [],
    joined := [102, 111, 111, 98, 97, 114, 98, 97, 122], argv := [3, 3, 3], cbid := 0,
    tag := false }

/-- `Run` is given `cmdstr.c_str()`, which ends at the NUL: the only pass of the call runs `in`, not
its `cmd`. -/
theorem run_cmd_cut_at_nul :
    ∃ w, Reachable nulCmdArgs w ∧ (w.calls 0).pc = .done ∧
      (w.calls 0).past.map Attempt.api =
        [[.setVar 0 3, .setVar 3 3, .setVar 6 3, .run (cStr "in")]] ∧ (nulCmdArgs 0).cmd ≠ "in" :=
  ⟨_, @steps_of_runSchedule (World.init nulCmdArgs) _
    [(0, .acquire), (0, .create sampleInit), (0, .override), (0, .setArgs), (0, .run ⟨[], false⟩),
     (0, .checkDropped), (0, .release)] rfl, rfl, by decide, by decide⟩

end SgeMonorepo.P4Lib
