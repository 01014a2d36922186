import SgeMonorepo.P4Lib.ClientCb
import SgeMonorepo.P4Lib.Pool

/-!
# `p4runcb`: calls running side by side over the two pools

`p4runcb` leases a client from `defaultPool` or `tagPool`, overrides its credentials when the call
supplies both a user and a password, sets the command's arguments, runs the command with a
`ClientCb` as sink and, unless the connection dropped, restores the credentials and lets the lease
end, which returns the client to its pool.  When the connection dropped it calls `Final`, lets the
lease end, and loops for another client.

Go may call `p4runcb` from many goroutines at once.  The model is the whole process: both pools,
every client object ever allocated, and every call, each with its own program counter (`Pc`).  A
step is one call running the next piece of its code (`step`), and steps of different calls
interleave arbitrarily.  The two critical sections of a pool are single steps, as the mutex makes
them (`Mutex.lean` runs them statement by statement under the mutex and shows that the two models
reach the same states).  The pieces in between are split where the code is: the override, the
arguments, `Run`, the `Dropped()` test with the restore, and `Final`.

What the server answers to `Init`, `Run` and `Final` travels with the step (`Act`), so one run of
the model fixes one server behaviour, and a theorem over all runs holds for all of them.

`Call.past` and `Call.cur` are ghost state: per pass of the loop, how the call got its client, what
it called on the client, what the server answered, how the deleter disposed of the client, and
what the call sent to Go.  No step reads them.
-/

namespace SgeMonorepo.P4Lib

open Function

/-- The arguments of `p4runcb`.  `argv` points at `argc` lengths; the list holds them, so `argc`
is its length. -/
structure Args where
  cmd : String
  user : String
  passwd : String
  input : Bytes
  joined : Bytes
  argv : List Nat
  cbid : Int
  tag : Bool

namespace Args

/-- `!userStr.empty() && !passwdStr.empty()`: the call overrides the credentials. -/
def overrides (a : Args) : Bool := a.user != "" && a.passwd != ""

/-- `ClientCb cb(cbid, input)`. -/
def cb (a : Args) : ClientCb := ⟨a.cbid, a.input⟩

end Args

/-- The argument loop of `p4runcb` from offset `next`: `SetVar(StrRef::Null(),
StrRef(&joined.p[next], args[i]))`, then `next += args[i]`.  Each `StrRef` is given by its offset
and length in `joined`. -/
def argSlices (next : Nat) : List Nat → List (Nat × Nat)
  | [] => []
  | len :: rest => (next, len) :: argSlices (next + len) rest

/-- The bytes of `joined` that `StrRef(&joined.p[offset], len)` names. -/
def slice (joined : Bytes) (offset len : Nat) : Bytes := (joined.drop offset).take len

/-- A call the loop makes on its leased client. -/
inductive ApiCall
  | setUser (user : CStr)
  | setPassword (password : CStr)
  | setVar (offset len : Nat)
  | run (cmd : CStr)
  | final
deriving DecidableEq

/-- How `pool.Client` served a pass of the loop. -/
inductive Lease
  /-- The front of the idle queue. -/
  | pooled (c : SessionId)
  /-- A new client whose `Init` succeeded; `fresh` is set. -/
  | fresh (c : SessionId)
  /-- A new client whose `Init` failed; it was deleted and `Client` returned `nullptr`. -/
  | failed (c : SessionId) (err : Error)

/-- The client a lease holds, if the pass got one. -/
def Lease.session : Lease → Option SessionId
  | .pooled c | .fresh c => some c
  | .failed .. => none

/-- What the lease deleter did with the client. -/
inductive Disposal
  | pushed (c : SessionId)
  | deleted (c : SessionId)

/-- The client a disposal was about. -/
def Disposal.session : Disposal → SessionId
  | .pushed c | .deleted c => c

/-- Ghost record of one pass of the loop. -/
structure Attempt where
  lease : Option Lease := none
  /-- The calls made on the leased client, in order. -/
  api : List ApiCall := []
  /-- The calls the server made on `cb` during `Run`, once it has returned. -/
  run : Option (List UserCall) := none
  /-- What `Dropped()` answered after `Run`. -/
  dropped : Option Bool := none
  /-- What `Final` reported. -/
  final : Option Error := none
  /-- What the lease deleter did. -/
  disposals : List Disposal := []
  /-- The callbacks sent to Go. -/
  out : List GoEvent := []

/-- Where a call is in `p4runcb`.  `c` is the leased client, `fresh` the flag `Pool::Client` set,
`origUser` and `origPasswd` the strings of lines 193-194. -/
inductive Pc
  /-- The top of the `while (true)` body, about to call `pool.Client`. -/
  | loop
  /-- `Pool::Client` found the queue empty and constructs a client, outside the lock. -/
  | create
  /-- `Pool::Client` returned `nullptr`, with this message in `errmsg`. -/
  | failed (msg : String)
  /-- Holding the lease, before the override. -/
  | leased (c : SessionId) (fresh : Bool)
  /-- The override done, before the arguments. -/
  | setArgs (c : SessionId) (fresh : Bool) (origUser origPasswd : String)
  /-- The arguments set, before `Run`. -/
  | run (c : SessionId) (fresh : Bool) (origUser origPasswd : String)
  /-- `Run` returned, before the `Dropped()` test. -/
  | ran (c : SessionId) (fresh : Bool) (origUser origPasswd : String)
  /-- The client dropped, before `Final`. -/
  | final (c : SessionId)
  /-- The lease's scope ends, at the `break` (`exit`) or at the end of the loop body. -/
  | release (c : SessionId) (exit : Bool)
  /-- `p4runcb` has returned. -/
  | done

/-- The client a call holds a lease on. -/
def Pc.session : Pc → Option SessionId
  | .leased c _ | .setArgs c .. | .run c .. | .ran c .. | .final c | .release c _ => some c
  | .loop | .create | .failed _ | .done => none

/-- One `p4runcb` call. -/
structure Call where
  args : Args
  pc : Pc
  /-- Ghost: the passes that have ended, in order. -/
  past : List Attempt
  /-- Ghost: the pass in progress; empty between passes. -/
  cur : Attempt

namespace Call

/-- The client the call holds. -/
def held (k : Call) : Option SessionId := k.pc.session

/-- Everything the call has sent to Go, in order. -/
def trace (k : Call) : List GoEvent := k.past.flatMap Attempt.out ++ k.cur.out

/-- The number of times the loop has called `pool.Client`. -/
def passes (k : Call) : Nat :=
  k.past.length + match k.pc with
    | .loop | .done => 0
    | _ => 1

/-- A call before its first step. -/
def start (a : Args) : Call := ⟨a, .loop, [], {}⟩

/-! ## The loop body, as the call sees it

Each function is one piece of `p4runcb`, applied to what the call observes there: the pool's
answer, the server's answer, or the state of its client where the code reads it. -/

variable (k : Call)

/-- `pool.Client` took the front client `c` (`some c`), or found the queue empty. -/
def popped : Option SessionId → Call
  | some c => { k with pc := .leased c false, cur := { k.cur with lease := some (.pooled c) } }
  | none => { k with pc := .create }

/-- `pool.Client` constructed client `c` and ran `Init` (lines 43-62). -/
def created (c : SessionId) (a : InitAnswer) : Call :=
  if a.err.test then
    { k with pc := .failed ("error initializing client: " ++ (cStr a.err.fmt).val),
             cur := { k.cur with lease := some (.failed c a.err) } }
  else { k with pc := .leased c true, cur := { k.cur with lease := some (.fresh c) } }

/-- `cb.HandleError(errmsg); return init_us;` (lines 189-192). -/
def reportFailure (msg : String) : Call :=
  { k with pc := .done, cur := {},
           past := k.past ++ [{ k.cur with out := k.cur.out ++ k.args.cb.handleErrorMsg msg }] }

/-- Lines 193-200, `GetUser()` and `GetPassword()` answering `user` and `password`. -/
def override (c : SessionId) (fresh : Bool) (user password : CStr) : Call :=
  if k.args.overrides then
    { k with pc := .setArgs c fresh user.val password.val,
             cur := { k.cur with
               api := k.cur.api ++
                 [.setUser (cStr k.args.user), .setPassword (cStr k.args.passwd)] } }
  else { k with pc := .setArgs c fresh "" "" }

/-- Lines 202-208: one `SetVar` per argument, each a slice of `joined`, `next` starting at 0. -/
def setArgs (c : SessionId) (fresh : Bool) (origUser origPasswd : String) : Call :=
  { k with pc := .run c fresh origUser origPasswd,
           cur := { k.cur with
             api := k.cur.api ++ (argSlices 0 k.args.argv).map fun s => .setVar s.1 s.2 } }

/-- Line 209: `Run(cmdstr.c_str(), &cb)`; the server's calls on `cb` reach Go through it. -/
def runCmd (c : SessionId) (fresh : Bool) (origUser origPasswd : String) (a : RunAnswer) : Call :=
  { k with pc := .ran c fresh origUser origPasswd,
           cur := { k.cur with
             api := k.cur.api ++ [.run (cStr k.args.cmd)], run := some a.calls,
             out := k.cur.out ++ k.args.cb.runEvents a.calls } }

/-- Lines 211-218, `Dropped()` answering `dropped`: restore the captured user and password (when
overridden) and `break`, or go on to `Final`. -/
def checkDropped (c : SessionId) (origUser origPasswd : String) (dropped : Bool) : Call :=
  if !dropped then
    { k with pc := .release c true,
             cur := { k.cur with
               dropped := some false,
               api := k.cur.api ++ if k.args.overrides then
                 [.setUser (cStr origUser), .setPassword (cStr origPasswd)] else [] } }
  else { k with pc := .final c, cur := { k.cur with dropped := some true } }

/-- Lines 220-224: `Final(&err)`, and a retry notice when `err.Test()`. -/
def final (c : SessionId) (err : Error) : Call :=
  { k with pc := .release c false,
           cur := { k.cur with
             api := k.cur.api ++ [.final], final := some err,
             out := k.cur.out ++
               if err.test then k.args.cb.retry "p4 connection dropped: " (some err) else [] } }

/-- The end of the lease's scope, the deleter having pushed `c` back (`pushed`) or deleted it.
After the `break` (`exit`) the call returns; otherwise the loop starts over. -/
def release (c : SessionId) (exit pushed : Bool) : Call :=
  { k with pc := if exit then .done else .loop, cur := {},
           past := k.past ++ [{ k.cur with
             disposals := k.cur.disposals ++ [if pushed then .pushed c else .deleted c] }] }

end Call

/-- What a call observes at a step. -/
inductive Obs
  | pop (r : Option SessionId)
  | create (c : SessionId) (a : InitAnswer)
  | reportFailure
  | override (user password : CStr)
  | setArgs
  | run (a : RunAnswer)
  | checkDropped (dropped : Bool)
  | final (err : Error)
  | release (pushed : Bool)

/-- The call's next step as the call sees it; `none` when `o` is not what its code is at. -/
def Call.step (k : Call) (o : Obs) : Option Call :=
  match k.pc, o with
  | .loop, .pop r => some (k.popped r)
  | .create, .create c a => some (k.created c a)
  | .failed msg, .reportFailure => some (k.reportFailure msg)
  | .leased c fresh, .override u p => some (k.override c fresh u p)
  | .setArgs c fresh ou op, .setArgs => some (k.setArgs c fresh ou op)
  | .run c fresh ou op, .run a => some (k.runCmd c fresh ou op a)
  | .ran c _ ou op, .checkDropped d => some (k.checkDropped c ou op d)
  | .final c, .final err => some (k.final c err)
  | .release c exit, .release pushed => some (k.release c exit pushed)
  | _, _ => none

/-- The process: both pools, every client object, and every `p4runcb` call. -/
structure World where
  /-- `defaultPool` at `false`, `tagPool` at `true`: the value of `tag` that selects each. -/
  pools : Bool → Pool
  /-- The client objects, by address. -/
  sessions : SessionId → Session
  /-- The address the next `new ClientApi()` returns: none of the clients ever allocated. -/
  nextId : SessionId
  /-- Ghost: the clients that have been deleted. -/
  destroyed : List SessionId
  calls : Nat → Call

namespace World

/-- The process at start: both pools empty, no client, call `i` about to run with `argsOf i`. -/
def init (argsOf : Nat → Args) : World :=
  ⟨fun _ => .empty, fun _ => .new, 0, [], fun i => .start (argsOf i)⟩

/-- Replace call `i`. -/
def setCall (w : World) (i : Nat) (k : Call) : World := { w with calls := update w.calls i k }

/-- Replace the client at `c`. -/
def setSession (w : World) (c : SessionId) (s : Session) : World :=
  { w with sessions := update w.sessions c s }

/-- Replace the pool selected by `tag`. -/
def setPool (w : World) (tag : Bool) (p : Pool) : World := { w with pools := update w.pools tag p }

/-- `new ClientApi()` and what follows it: the client `s` at the next address. -/
def allocate (w : World) (s : Session) : World :=
  { w with sessions := update w.sessions w.nextId s, nextId := w.nextId + 1 }

/-- `delete c`. -/
def delete (w : World) (c : SessionId) : World := { w with destroyed := c :: w.destroyed }

section Updates

variable (w : World) (i : Nat) (k : Call) (c : SessionId) (s : Session) (tag : Bool) (p : Pool)

@[simp] theorem setCall_calls : (w.setCall i k).calls = update w.calls i k := rfl
@[simp] theorem setCall_sessions : (w.setCall i k).sessions = w.sessions := rfl
@[simp] theorem setCall_pools : (w.setCall i k).pools = w.pools := rfl
@[simp] theorem setCall_nextId : (w.setCall i k).nextId = w.nextId := rfl
@[simp] theorem setCall_destroyed : (w.setCall i k).destroyed = w.destroyed := rfl
@[simp] theorem setSession_calls : (w.setSession c s).calls = w.calls := rfl
@[simp] theorem setSession_sessions : (w.setSession c s).sessions = update w.sessions c s := rfl
@[simp] theorem setSession_pools : (w.setSession c s).pools = w.pools := rfl
@[simp] theorem setSession_nextId : (w.setSession c s).nextId = w.nextId := rfl
@[simp] theorem setSession_destroyed : (w.setSession c s).destroyed = w.destroyed := rfl
@[simp] theorem setPool_calls : (w.setPool tag p).calls = w.calls := rfl
@[simp] theorem setPool_sessions : (w.setPool tag p).sessions = w.sessions := rfl
@[simp] theorem setPool_pools : (w.setPool tag p).pools = update w.pools tag p := rfl
@[simp] theorem setPool_nextId : (w.setPool tag p).nextId = w.nextId := rfl
@[simp] theorem setPool_destroyed : (w.setPool tag p).destroyed = w.destroyed := rfl
@[simp] theorem allocate_calls : (w.allocate s).calls = w.calls := rfl
@[simp] theorem allocate_sessions : (w.allocate s).sessions = update w.sessions w.nextId s := rfl
@[simp] theorem allocate_pools : (w.allocate s).pools = w.pools := rfl
@[simp] theorem allocate_nextId : (w.allocate s).nextId = w.nextId + 1 := rfl
@[simp] theorem allocate_destroyed : (w.allocate s).destroyed = w.destroyed := rfl
@[simp] theorem delete_calls : (w.delete c).calls = w.calls := rfl
@[simp] theorem delete_sessions : (w.delete c).sessions = w.sessions := rfl
@[simp] theorem delete_pools : (w.delete c).pools = w.pools := rfl
@[simp] theorem delete_nextId : (w.delete c).nextId = w.nextId := rfl
@[simp] theorem delete_destroyed : (w.delete c).destroyed = c :: w.destroyed := rfl

end Updates

/-- The client call `i` holds. -/
def held (w : World) (i : Nat) : Option SessionId := (w.calls i).held

/-- The idle queue of the pool selected by `tag`. -/
def idle (w : World) (tag : Bool) : List SessionId := (w.pools tag).clients

/-- A client as lines 44-49 construct it: `new ClientApi()`, `SetCharset("utf8")`, the pool's
`SetProtocol`, `Init`. -/
def newClient (tag : Bool) (a : InitAnswer) : Session :=
  (Pool.setProtocol tag (Session.new.setCharset "utf8")).init a

/-! ## The pieces of `p4runcb`, on the whole process -/

variable (w : World) (i : Nat)

/-- The first critical section of `Pool::Client` (lines 36-42), on the pool the call selected at
line 184. -/
def pop : World :=
  let k := w.calls i
  match (w.pools k.args.tag).pop with
  | some (c, p) => (w.setPool k.args.tag p).setCall i (k.popped (some c))
  | none => w.setCall i (k.popped none)

/-- The rest of `Pool::Client` on an empty queue (lines 43-61).  A failed `Init` leaves `errmsg`
set, and the `unique_ptr` deletes the client as `Client` returns `nullptr`. -/
def create (a : InitAnswer) : World :=
  let k := w.calls i
  let c := w.nextId
  let w := w.allocate (newClient k.args.tag a)
  (if a.err.test then w.delete c else w).setCall i (k.created c a)

/-- Lines 189-192. -/
def reportFailure (msg : String) : World := w.setCall i ((w.calls i).reportFailure msg)

/-- Lines 193-200. -/
def override (c : SessionId) (fresh : Bool) : World :=
  let k := w.calls i
  let s := w.sessions c
  (if k.args.overrides then
    w.setSession c ((s.setUser (cStr k.args.user)).setPassword (cStr k.args.passwd))
  else w).setCall i (k.override c fresh s.user s.password)

/-- Lines 202-208. -/
def setArgs (c : SessionId) (fresh : Bool) (origUser origPasswd : String) : World :=
  w.setCall i ((w.calls i).setArgs c fresh origUser origPasswd)

/-- Line 209. -/
def runCmd (c : SessionId) (fresh : Bool) (origUser origPasswd : String) (a : RunAnswer) : World :=
  (w.setSession c ((w.sessions c).run a)).setCall i
    ((w.calls i).runCmd c fresh origUser origPasswd a)

/-- Lines 211-218. -/
def checkDropped (c : SessionId) (origUser origPasswd : String) : World :=
  let k := w.calls i
  let s := w.sessions c
  (if !s.dropped && k.args.overrides then
    w.setSession c ((s.setUser (cStr origUser)).setPassword (cStr origPasswd))
  else w).setCall i (k.checkDropped c origUser origPasswd s.dropped)

/-- Lines 220-224. -/
def final (c : SessionId) (err : Error) : World :=
  (w.setSession c (w.sessions c).final).setCall i ((w.calls i).final c err)

/-- The lease deleter (lines 70-77), as `c` goes out of scope.  It captured `this`, the pool the
call selected. -/
def release (c : SessionId) (exit : Bool) : World :=
  let k := w.calls i
  match (w.pools k.args.tag).release c (w.sessions c).dropped with
  | some p => (w.setPool k.args.tag p).setCall i (k.release c exit true)
  | none => (w.delete c).setCall i (k.release c exit false)

end World

/-- A step of a call, with what the server answers in it. -/
inductive Act
  | acquire
  | create (a : InitAnswer)
  | reportFailure
  | override
  | setArgs
  | run (a : RunAnswer)
  | checkDropped
  | final (err : Error)
  | release

/-- Call `i` takes its next step; `none` when `act` is not the step its code is at. -/
def step (w : World) (i : Nat) (act : Act) : Option World :=
  match (w.calls i).pc, act with
  | .loop, .acquire => some (w.pop i)
  | .create, .create a => some (w.create i a)
  | .failed msg, .reportFailure => some (w.reportFailure i msg)
  | .leased c fresh, .override => some (w.override i c fresh)
  | .setArgs c fresh ou op, .setArgs => some (w.setArgs i c fresh ou op)
  | .run c fresh ou op, .run a => some (w.runCmd i c fresh ou op a)
  | .ran c _ ou op, .checkDropped => some (w.checkDropped i c ou op)
  | .final c, .final err => some (w.final i c err)
  | .release c exit, .release => some (w.release i c exit)
  | _, _ => none

/-- `Steps P w w'`: `w'` follows from `w` by steps that each satisfy `P`. -/
inductive Steps (P : World → Nat → Act → World → Prop) : World → World → Prop
  | refl (w : World) : Steps P w w
  | tail {w w' w'' : World} {i : Nat} {act : Act} :
      Steps P w w' → step w' i act = some w'' → P w' i act w'' → Steps P w w''

/-- The states the process reaches from its start, whatever the calls and the server do. -/
def Reachable (argsOf : Nat → Args) (w : World) : Prop :=
  Steps (fun _ _ _ _ => True) (World.init argsOf) w

end SgeMonorepo.P4Lib
