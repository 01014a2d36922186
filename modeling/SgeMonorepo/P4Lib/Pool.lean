import SgeMonorepo.P4Lib.Capability

/-!
# `Pool`: the queue of idle clients

A `Pool` owns the clients that no call is using, in the deque `clients_`.  `Pool::Client` takes
the front one under the mutex, or constructs a new one outside it; the `shared_ptr` it returns
carries a deleter that, under the mutex again, pushes the client to the back of the queue unless
it dropped or the queue already holds `kMaxClients`, and deletes it otherwise.

This file models the two critical sections as functions of the queue (`Pool.pop`,
`Pool.release`) and the virtual `SetProtocol` that tells `TagPool` from `Pool`.  Which client
object a pool hands out, and to whom, is the business of `P4runcb.lean`, which runs them inside
the whole process.  The mutex makes each critical section one atomic step there.
-/

namespace SgeMonorepo.P4Lib

/-- `kMaxClients`: try not to keep more than this many clients idle. -/
def kMaxClients : Nat := 16

/-- A `Pool`: its deque `clients_` of idle clients, front first. -/
structure Pool where
  clients : List SessionId

namespace Pool

/-- The empty pool that a static `Pool` starts as. -/
def empty : Pool := ⟨[]⟩

/-- The first critical section of `Pool::Client`: move the front client out, if there is one. -/
def pop (p : Pool) : Option (SessionId × Pool) :=
  match p.clients with
  | [] => none
  | c :: rest => some (c, ⟨rest⟩)

/-- The lease deleter: with the client's `Dropped()` answer, push it to the back when it has not
dropped and fewer than `kMaxClients` are idle; `none` when it is deleted instead. -/
def release (p : Pool) (c : SessionId) (dropped : Bool) : Option Pool :=
  if !dropped && p.clients.length < kMaxClients then some ⟨p.clients ++ [c]⟩ else none

/-- `SetProtocol(c)`, called before `Init`: nothing for `Pool`, `SetProtocol("tag", "")` for
`TagPool`.  `tag` says which of the two classes the pool is. -/
def setProtocol (tag : Bool) (s : Session) : Session :=
  if tag then s.setProtocol "tag" "" else s

theorem pop_eq_some {p : Pool} {c : SessionId} {p' : Pool} (h : p.pop = some (c, p')) :
    p.clients = c :: p'.clients := by
  obtain ⟨_ | ⟨d, rest⟩⟩ := p <;> simp only [pop, Option.some.injEq, Prod.mk.injEq,
    reduceCtorEq] at h
  obtain ⟨rfl, rfl⟩ := h
  rfl

theorem pop_eq_none {p : Pool} (h : p.pop = none) : p.clients = [] := by
  unfold pop at h
  split at h <;> simp_all

theorem release_eq_some {p : Pool} {c : SessionId} {dropped : Bool} {p' : Pool}
    (h : p.release c dropped = some p') :
    dropped = false ∧ p.clients.length < kMaxClients ∧ p'.clients = p.clients ++ [c] := by
  unfold release at h
  split at h
  · cases h
    simp_all
  · cases h

/-- The deleter deletes exactly the clients that dropped or find the queue full. -/
theorem release_eq_none {p : Pool} {c : SessionId} {dropped : Bool} :
    p.release c dropped = none ↔ dropped = true ∨ kMaxClients ≤ p.clients.length := by
  unfold release
  cases dropped <;> simp [Nat.not_lt]

@[simp] theorem setProtocol_protocol (tag : Bool) (s : Session) :
    (setProtocol tag s).protocol = if tag then some ("tag", "") else s.protocol := by
  cases tag <;> rfl

end Pool

end SgeMonorepo.P4Lib
