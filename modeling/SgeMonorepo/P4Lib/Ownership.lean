import SgeMonorepo.P4Lib.Steps

/-!
# Every client is in one place

The pools are safe when every client object is in exactly one place: not yet allocated, in one
idle queue, held by one call, or deleted.  `Owners` is the part of the process that says where
the clients are (the two queues, the client each call holds, the deleted clients, the next
address), and `Owners.Safe` says it is the picture of a location function `loc : SessionId →
Place` whose queues are short and repeat nothing.  With one place per client, "idle and held",
"held twice" and "deleted but reachable" cannot even be written down.

## Strategy

* `Owners.Move` lists the five ways a step can change the picture: take the front of a queue,
  hand out a new client, delete a new client whose `Init` failed, push a held client back (only
  when the queue has room), delete a held client.
* `Safe.move`: each move relocates one client and keeps the others where they were
  (`inPlace_take`, ... for the moved client, and a frame lemma for the rest), so `loc` changes at
  one point.
* `owners_step`: every step of the process leaves its picture alone or makes one move.  This is
  the refinement of the abstract picture by the process; `owners_refinement` extends it to runs.
* `leaseInv_step`: per call, every pass that got a client disposed of it exactly once, when the
  pass ended; `release_disposal`: what the pass records is what the deleter did to the queue and to
  the deleted clients.
* `DeletedOnce.move`: a move deletes only a client that has been allocated and is not deleted yet,
  so the process deletes each client at most once, and only clients `new` returned
  (`delete_once`).  With one place per client, no allocated client is lost either (`no_leak`).
-/

namespace SgeMonorepo.P4Lib

open Function

/-- Where the clients are. -/
structure Owners where
  idle : Bool → List SessionId
  held : Nat → Option SessionId
  destroyed : List SessionId
  nextId : SessionId

/-- The place of one client. -/
inductive Place
  | unborn
  | idle (tag : Bool)
  | held (call : Nat)
  | deleted
deriving DecidableEq

namespace Owners

/-- Client `c` is at place `p` in the picture. -/
def InPlace (o : Owners) (c : SessionId) : Place → Prop
  | .unborn => o.nextId ≤ c
  | .idle b => c ∈ o.idle b
  | .held j => o.held j = some c
  | .deleted => c ∈ o.destroyed

/-- The pools are safe: the picture is that of a location function, and each queue holds at most
`kMaxClients` clients, none twice. -/
structure Safe (o : Owners) : Prop where
  loc : ∃ loc : SessionId → Place, ∀ c p, o.InPlace c p ↔ loc c = p
  length_le : ∀ b, (o.idle b).length ≤ kMaxClients
  nodup : ∀ b, (o.idle b).Nodup

/-- The ways a step changes the picture. -/
inductive Move : Owners → Owners → Prop
  /-- `Pool::Client` moves the front of queue `t` to call `i`. -/
  | take {o : Owners} {t : Bool} {i : Nat} {c : SessionId} {rest : List SessionId} :
      o.idle t = c :: rest → o.held i = none →
      Move o { o with idle := update o.idle t rest, held := update o.held i (some c) }
  /-- `Pool::Client` hands call `i` a new client. -/
  | alloc {o : Owners} {i : Nat} : o.held i = none →
      Move o { o with held := update o.held i (some o.nextId), nextId := o.nextId + 1 }
  /-- A new client whose `Init` failed is deleted at once. -/
  | allocDelete {o : Owners} :
      Move o { o with destroyed := o.nextId :: o.destroyed, nextId := o.nextId + 1 }
  /-- The deleter pushes call `i`'s client to the back of queue `t`, which has room. -/
  | push {o : Owners} {t : Bool} {i : Nat} {c : SessionId} :
      o.held i = some c → (o.idle t).length < kMaxClients →
      Move o { o with idle := update o.idle t (o.idle t ++ [c]), held := update o.held i none }
  /-- The deleter deletes call `i`'s client. -/
  | delete {o : Owners} {i : Nat} {c : SessionId} : o.held i = some c →
      Move o { o with destroyed := c :: o.destroyed, held := update o.held i none }

/-- The picture at start: nothing allocated. -/
theorem safe_start (held : Nat → Option SessionId) (hheld : ∀ j, held j = none) :
    Safe ⟨fun _ => [], held, [], 0⟩ := by
  refine ⟨⟨fun _ => .unborn, fun c p => ?_⟩, fun _ => by simp [kMaxClients], fun _ => .nil⟩
  cases p <;> simp [InPlace, hheld]

/-! ## Moves keep the pools safe -/

section Move

variable {o : Owners} {loc : SessionId → Place} (hloc : ∀ c p, o.InPlace c p ↔ loc c = p)
include hloc

/-- A move of client `c` from `p₀` to `p₁` that leaves every other client where it was keeps a
location function: the old one, changed at `c`. -/
private theorem relocate {o' : Owners} {c : SessionId} {p q : Place} (hc : o.InPlace c p)
    (hne : p ≠ q) (hframe : ∀ d r, r ≠ p → r ≠ q → (o'.InPlace d r ↔ o.InPlace d r))
    (hsrc : ∀ d, o'.InPlace d p ↔ o.InPlace d p ∧ d ≠ c)
    (hdst : ∀ d, o'.InPlace d q ↔ o.InPlace d q ∨ d = c) :
    ∃ loc' : SessionId → Place, ∀ d r, o'.InPlace d r ↔ loc' d = r := by
  have hlc : loc c = p := (hloc c p).1 hc
  refine ⟨update loc c q, fun d r => ?_⟩
  by_cases hd : d = c
  · subst hd
    by_cases h₀ : r = p
    · subst h₀; simp [hsrc, Ne.symm hne]
    · by_cases h₁ : r = q
      · subst h₁; simp [hdst]
      · rw [hframe d r h₀ h₁, hloc, hlc, update_same]
        exact ⟨fun h => absurd h.symm h₀, fun h => absurd h.symm h₁⟩
  · rw [update_noteq hd, ← hloc]
    by_cases h₀ : r = p
    · subst h₀; simp [hsrc, hd]
    · by_cases h₁ : r = q
      · subst h₁; simp [hdst, hd]
      · exact hframe d r h₀ h₁

theorem safe_take {t : Bool} {i : Nat} {c : SessionId} {rest : List SessionId}
    (hnodup : (o.idle t).Nodup) (hidle : o.idle t = c :: rest) (hheld : o.held i = none) :
    ∃ loc' : SessionId → Place, ∀ d q,
      InPlace { o with idle := update o.idle t rest, held := update o.held i (some c) } d q ↔
        loc' d = q := by
  have hrest : c ∉ rest := (List.nodup_cons.1 (hidle ▸ hnodup)).1
  refine relocate hloc (c := c) (p := .idle t) (q := .held i) (by simp [InPlace, hidle]) (by simp)
    (fun d q h₀ h₁ => ?_) (fun d => ?_) (fun d => ?_)
  · cases q <;> simp_all [InPlace, update_apply]
  · by_cases hd : d = c <;> simp_all [InPlace]
  · simp [InPlace, hheld, eq_comm]

theorem safe_alloc {i : Nat} (hheld : o.held i = none) :
    ∃ loc' : SessionId → Place, ∀ d q,
      InPlace { o with held := update o.held i (some o.nextId), nextId := o.nextId + 1 } d q ↔
        loc' d = q := by
  refine relocate hloc (c := o.nextId) (p := .unborn) (q := .held i) (by simp [InPlace]) (by simp)
    (fun d q h₀ h₁ => ?_) (fun d => ?_) (fun d => ?_)
  · cases q <;> simp_all [InPlace, update_apply]
  · exact ⟨fun h => ⟨Nat.le_of_succ_le h, Nat.ne_of_gt h⟩,
      fun h => Nat.lt_of_le_of_ne h.1 (Ne.symm h.2)⟩
  · simp [InPlace, hheld, eq_comm]

theorem safe_allocDelete :
    ∃ loc' : SessionId → Place, ∀ d q,
      InPlace { o with destroyed := o.nextId :: o.destroyed, nextId := o.nextId + 1 } d q ↔
        loc' d = q := by
  refine relocate hloc (c := o.nextId) (p := .unborn) (q := .deleted) (by simp [InPlace]) (by simp)
    (fun d q h₀ h₁ => ?_) (fun d => ?_) (fun d => ?_)
  · cases q <;> simp_all [InPlace]
  · exact ⟨fun h => ⟨Nat.le_of_succ_le h, Nat.ne_of_gt h⟩,
      fun h => Nat.lt_of_le_of_ne h.1 (Ne.symm h.2)⟩
  · simp [InPlace, or_comm]

theorem safe_push {t : Bool} {i : Nat} {c : SessionId} (hheld : o.held i = some c) :
    ∃ loc' : SessionId → Place, ∀ d q,
      InPlace { o with idle := update o.idle t (o.idle t ++ [c]), held := update o.held i none }
        d q ↔ loc' d = q := by
  refine relocate hloc (p := .held i) (q := .idle t) hheld (by simp)
    (fun d q h₀ h₁ => ?_) (fun d => ?_) (fun d => ?_)
  · cases q <;> simp_all [InPlace, update_apply]
  · simp only [InPlace, update_same, hheld]
    exact ⟨nofun, fun h => absurd (Option.some.inj h.1).symm h.2⟩
  · simp [InPlace]

theorem safe_delete {i : Nat} {c : SessionId} (hheld : o.held i = some c) :
    ∃ loc' : SessionId → Place, ∀ d q,
      InPlace { o with destroyed := c :: o.destroyed, held := update o.held i none } d q ↔
        loc' d = q := by
  refine relocate hloc (p := .held i) (q := .deleted) hheld (by simp)
    (fun d q h₀ h₁ => ?_) (fun d => ?_) (fun d => ?_)
  · cases q <;> simp_all [InPlace, update_apply]
  · simp only [InPlace, update_same, hheld]
    exact ⟨nofun, fun h => absurd (Option.some.inj h.1).symm h.2⟩
  · simp [InPlace, or_comm]

end Move

/-- Every move keeps the pools safe. -/
theorem Safe.move {o o' : Owners} (h : o.Safe) (hm : Move o o') : o'.Safe := by
  obtain ⟨⟨loc, hloc⟩, hlen, hnd⟩ := h
  cases hm with
  | @take t i c rest hidle hheld =>
    refine ⟨safe_take hloc (hnd t) hidle hheld, fun b => ?_, fun b => ?_⟩ <;>
      simp only [update_apply] <;> split
    · have := hlen t; simp_all; omega
    · exact hlen b
    · subst b; exact (List.nodup_cons.1 (hidle ▸ hnd _)).2
    · exact hnd b
  | alloc hheld => exact ⟨safe_alloc hloc hheld, hlen, hnd⟩
  | allocDelete => exact ⟨safe_allocDelete hloc, hlen, hnd⟩
  | @push t i c hheld hroom =>
    have hc : c ∉ o.idle t := fun hmem =>
      Place.noConfusion (((hloc c (.idle t)).1 hmem).symm.trans ((hloc c (.held i)).1 hheld))
    refine ⟨safe_push hloc hheld, fun b => ?_, fun b => ?_⟩ <;> simp only [update_apply] <;> split
    · subst b; simpa using hroom
    · exact hlen b
    · subst b; exact (hnd t).append (List.nodup_singleton c) (List.disjoint_singleton.2 hc)
    · exact hnd b
  | delete hheld => exact ⟨safe_delete hloc hheld, hlen, hnd⟩

/-! ## What a safe picture rules out -/

namespace Safe

variable {o : Owners} (h : o.Safe) {c : SessionId}
include h

theorem place_unique {p q : Place} (hp : o.InPlace c p) (hq : o.InPlace c q) : p = q := by
  obtain ⟨loc, hloc⟩ := h.loc
  exact ((hloc c p).1 hp).symm.trans ((hloc c q).1 hq)

theorem not_held_of_idle {b : Bool} {j : Nat} (hc : c ∈ o.idle b) : o.held j ≠ some c :=
  fun hj => Place.noConfusion (h.place_unique (p := .idle b) (q := .held j) hc hj)

theorem held_inj {j j' : Nat} (hj : o.held j = some c) (hj' : o.held j' = some c) : j = j' :=
  Place.held.inj (h.place_unique (p := .held j) (q := .held j') hj hj')

theorem not_idle_of_destroyed {b : Bool} (hc : c ∈ o.destroyed) : c ∉ o.idle b :=
  fun hb => Place.noConfusion (h.place_unique (p := .deleted) (q := .idle b) hc hb)

theorem not_held_of_destroyed {j : Nat} (hc : c ∈ o.destroyed) : o.held j ≠ some c :=
  fun hj => Place.noConfusion (h.place_unique (p := .deleted) (q := .held j) hc hj)

/-- A held client has been allocated. -/
theorem ne_nextId_of_held {j : Nat} (hj : o.held j = some c) : c ≠ o.nextId := by
  rintro rfl
  exact Place.noConfusion (h.place_unique (p := .unborn) (q := .held j) (Nat.le_refl _) hj)

/-- A held client has been allocated, before the next address. -/
theorem lt_nextId_of_held {j : Nat} (hj : o.held j = some c) : c < o.nextId :=
  Nat.lt_of_not_le fun hle =>
    Place.noConfusion (h.place_unique (p := .unborn) (q := .held j) hle hj)

/-- An idle client has been allocated. -/
theorem ne_nextId_of_idle {b : Bool} (hc : c ∈ o.idle b) : c ≠ o.nextId := by
  rintro rfl
  exact Place.noConfusion (h.place_unique (p := .unborn) (q := .idle b) (Nat.le_refl _) hc)

end Safe

end Owners

/-! ## The process refines the picture -/

namespace World

/-- Where the clients of the process are. -/
def owners (w : World) : Owners := ⟨w.idle, w.held, w.destroyed, w.nextId⟩

variable {w : World} {i : Nat} {k : Call} {c : SessionId} {s : Session} {t : Bool} {p : Pool}

theorem owners_setCall :
    (w.setCall i k).owners = { w.owners with held := update w.held i k.held } := by
  unfold owners
  congr 1
  funext j
  simp [update_apply]

/-- A step that leaves the calling call holding what it held leaves the picture alone. -/
theorem owners_setCall_of_held (hk : k.held = (w.calls i).held) :
    (w.setCall i k).owners = w.owners := by
  rw [owners_setCall, hk]
  exact congrArg (fun h => { w.owners with held := h }) (update_eq_self i w.held)

theorem owners_setPool :
    (w.setPool t p).owners = { w.owners with idle := update w.idle t p.clients } := by
  unfold owners
  congr 1
  funext b
  simp [update_apply]

@[simp] theorem owners_setSession : (w.setSession c s).owners = w.owners := rfl

theorem owners_allocate : (w.allocate s).owners = { w.owners with nextId := w.nextId + 1 } := rfl

theorem owners_delete : (w.delete c).owners = { w.owners with destroyed := c :: w.destroyed } :=
  rfl

end World

namespace Call

variable (k : Call) (c : SessionId)

@[simp] theorem held_created (a : InitAnswer) :
    (k.created c a).held = if a.err.test then none else some c := by
  unfold created; split <;> rfl

@[simp] theorem held_reportFailure (msg : String) : (k.reportFailure msg).held = none := rfl

@[simp] theorem held_override (fresh : Bool) (u p : CStr) :
    (k.override c fresh u p).held = some c := by
  unfold override; split <;> rfl

@[simp] theorem held_setArgs (fresh : Bool) (ou op : String) :
    (k.setArgs c fresh ou op).held = some c := rfl

@[simp] theorem held_runCmd (fresh : Bool) (ou op : String) (a : RunAnswer) :
    (k.runCmd c fresh ou op a).held = some c := rfl

@[simp] theorem held_checkDropped (ou op : String) (dropped : Bool) :
    (k.checkDropped c ou op dropped).held = some c := by
  unfold checkDropped; split <;> rfl

@[simp] theorem held_final (err : Error) : (k.final c err).held = some c := rfl

@[simp] theorem held_release (exit pushed : Bool) : (k.release c exit pushed).held = none := by
  unfold release; split <;> rfl

/-- A call's own step keeps the client it holds, unless it takes one or lets it go. -/
theorem held_step {k k' : Call} {o : Obs} (h : k.step o = some k') {c d : SessionId}
    (hd : k.held = some d) (hc : k'.held = some c) : c = d := by
  replace hd : k.pc.session = some d := hd
  refine step_cases h ?_ ?_ ?_ ?_ ?_ ?_ ?_ ?_ ?_ <;> intros <;> subst_vars <;> clear h <;>
    simp_all [Pc.session]

end Call

/-- Every step of the process leaves the picture alone or makes one move of it. -/
theorem owners_step {w w' : World} {i : Nat} {act : Act} (h : step w i act = some w') :
    w'.owners = w.owners ∨ Owners.Move w.owners w'.owners := by
  have hheld {pc : Pc} (hpc : (w.calls i).pc = pc) : w.owners.held i = pc.session :=
    congrArg Pc.session hpc
  refine step_cases h ?_ ?_ ?_ ?_ ?_ ?_ ?_ ?_ ?_
  · -- `Pool::Client` takes the front of the queue, or finds it empty
    rintro hpc rfl
    unfold World.pop
    dsimp only
    split
    · rename_i c p hpop
      right
      rw [World.owners_setCall, World.owners_setPool]
      exact .take (Pool.pop_eq_some hpop) (hheld hpc)
    · exact .inl (World.owners_setCall_of_held (hheld hpc).symm)
  · -- a new client: handed out, or deleted when its `Init` failed
    rintro a hpc rfl
    right
    unfold World.create
    dsimp only
    split <;> rename_i herr
    · rw [World.owners_setCall_of_held
          (by rw [Call.held_created, if_pos herr]; exact (hheld hpc).symm),
        World.owners_delete, World.owners_allocate]
      exact .allocDelete
    · rw [World.owners_setCall, World.owners_allocate, Call.held_created, if_neg herr]
      exact .alloc (hheld hpc)
  · rintro msg hpc rfl
    exact .inl (World.owners_setCall_of_held (hheld hpc).symm)
  · rintro c fresh hpc rfl
    unfold World.override
    dsimp only
    split <;> exact .inl
      (World.owners_setCall_of_held (by rw [Call.held_override]; exact (hheld hpc).symm))
  · rintro c fresh ou op hpc rfl
    exact .inl (World.owners_setCall_of_held (by rw [Call.held_setArgs]; exact (hheld hpc).symm))
  · rintro c fresh ou op a hpc rfl
    exact .inl (World.owners_setCall_of_held (by rw [Call.held_runCmd]; exact (hheld hpc).symm))
  · rintro c fresh ou op hpc rfl
    unfold World.checkDropped
    dsimp only
    split <;> exact .inl
      (World.owners_setCall_of_held (by rw [Call.held_checkDropped]; exact (hheld hpc).symm))
  · rintro c err hpc rfl
    exact .inl (World.owners_setCall_of_held (by rw [Call.held_final]; exact (hheld hpc).symm))
  · -- the deleter pushes the client back or deletes it
    rintro c exit hpc rfl
    right
    unfold World.release
    dsimp only
    split
    · rename_i p hrel
      obtain ⟨-, hroom, hp⟩ := Pool.release_eq_some hrel
      rw [World.owners_setCall, World.owners_setPool, hp, Call.held_release]
      exact .push (hheld hpc) hroom
    · rw [World.owners_setCall, World.owners_delete, Call.held_release]
      exact .delete (hheld hpc)

variable {argsOf : Nat → Args}

/-- The pools are safe in every reachable state. -/
theorem safe_reachable {w : World} (hw : Reachable argsOf w) : w.owners.Safe := by
  refine reachable_induction (I := fun w => w.owners.Safe) ?_ (fun _ hsafe h => ?_) hw
  · exact Owners.safe_start _ fun _ => rfl
  · rcases owners_step h with heq | hm
    · exact heq ▸ hsafe
    · exact hsafe.move hm

/-- **The pools refine the ownership machine.**  Along any run, however the calls interleave, the
picture of where every client is goes from its start to its end by moves of `Owners.Move`. -/
theorem owners_refinement {P : World → Nat → Act → World → Prop} {w w' : World}
    (h : Steps P w w') : Relation.ReflTransGen Owners.Move w.owners w'.owners := by
  induction h with
  | refl => exact .refl
  | tail _ hs _ ih =>
    rcases owners_step hs with heq | hm
    · rwa [heq]
    · exact ih.tail hm

theorem owners_refinement_sample :
    Reachable sampleArgs sampleWorld ∧
      Relation.ReflTransGen Owners.Move (World.init sampleArgs).owners sampleWorld.owners :=
  ⟨sampleWorld_reachable, owners_refinement sampleWorld_reachable⟩

/-! ## Each lease ends once -/

/-- A finished pass that got a client disposed of it exactly once, by pushing it back or deleting
it; a pass whose `Init` failed disposed of nothing. -/
def Attempt.DisposedOnce (a : Attempt) : Prop :=
  match a.lease with
  | some (.pooled c) | some (.fresh c) => a.disposals = [.pushed c] ∨ a.disposals = [.deleted c]
  | some (.failed ..) => a.disposals = []
  | none => False

/-- The lease record of a call: its finished passes disposed of their clients once, and the
pass in progress has not yet disposed of anything and records the client the call holds. -/
def Call.LeaseInv (k : Call) : Prop :=
  (∀ a ∈ k.past, a.DisposedOnce) ∧ k.cur.disposals = [] ∧
    match k.pc with
    | .loop | .create | .done => k.cur.lease = none
    | .failed _ => ∃ c err, k.cur.lease = some (.failed c err)
    | pc => k.cur.lease.bind Lease.session = pc.session

theorem Call.leaseInv_step {k k' : Call} {o : Obs} (hk : k.LeaseInv) (h : k.step o = some k') :
    k'.LeaseInv := by
  obtain ⟨hpast, hdisp, hlease⟩ := hk
  refine step_cases h ?_ ?_ ?_ ?_ ?_ ?_ ?_ ?_ ?_
  · rintro (_ | c) hpc rfl <;> rw [hpc] at hlease <;>
      simp_all [LeaseInv, Lease.session, Pc.session]
  · rintro c a hpc rfl
    rw [hpc] at hlease
    unfold created; split <;> simp_all [LeaseInv, Lease.session, Pc.session]
  · -- the failed pass joins the finished ones, having disposed of nothing
    rintro msg hpc rfl
    rw [hpc] at hlease
    obtain ⟨c, err, hl⟩ := hlease
    refine ⟨fun a ha => ?_, rfl, rfl⟩
    simp only [reportFailure, List.mem_append, List.mem_singleton] at ha
    rcases ha with ha | rfl
    · exact hpast a ha
    · simp [Attempt.DisposedOnce, hl, hdisp]
  · rintro c fresh u p hpc rfl
    rw [hpc] at hlease
    unfold override; split <;> simp_all [LeaseInv, Pc.session]
  · rintro c fresh ou op hpc rfl
    rw [hpc] at hlease
    simp_all [LeaseInv, setArgs, Pc.session]
  · rintro c fresh ou op a hpc rfl
    rw [hpc] at hlease
    simp_all [LeaseInv, runCmd, Pc.session]
  · rintro c fresh ou op d hpc rfl
    rw [hpc] at hlease
    unfold checkDropped; split <;> simp_all [LeaseInv, Pc.session]
  · rintro c err hpc rfl
    rw [hpc] at hlease
    simp_all [LeaseInv, final, Pc.session]
  · -- the lease ends: the pass joins the finished ones, having disposed of its client once
    rintro c exit pushed hpc rfl
    rw [hpc] at hlease
    refine ⟨fun a ha => ?_, rfl, by cases exit <;> rfl⟩
    simp only [release, List.mem_append, List.mem_singleton] at ha
    rcases ha with ha | rfl
    · exact hpast a ha
    · simp only [Pc.session, Option.bind_eq_some] at hlease
      obtain ⟨l, hl, hs⟩ := hlease
      cases l <;> simp_all [Attempt.DisposedOnce, Lease.session]

/-- The deleter does what the pass records: it puts its client on the back of its pool's queue and
records `.pushed c`, or deletes it and records `.deleted c`. -/
theorem release_disposal {w w' : World} {j : Nat} {act : Act} {c : SessionId} {exit : Bool}
    (h : step w j act = some w') (hpc : (w.calls j).pc = .release c exit) :
    ∃ d, (w'.calls j).past = (w.calls j).past ++
        [{ (w.calls j).cur with disposals := (w.calls j).cur.disposals ++ [d] }] ∧
      (d = .pushed c ∧ w'.idle (w.calls j).args.tag = w.idle (w.calls j).args.tag ++ [c] ∧
          w'.destroyed = w.destroyed ∨
        d = .deleted c ∧ w'.idle (w.calls j).args.tag = w.idle (w.calls j).args.tag ∧
          w'.destroyed = c :: w.destroyed) := by
  rw [step_of_release h hpc]
  cases hp : (w.pools (w.calls j).args.tag).release c (w.sessions c).dropped with
  | some p =>
    refine ⟨.pushed c, ?_, .inl ⟨rfl, ?_, ?_⟩⟩ <;>
      simp [World.release, hp, Call.release, World.idle, (Pool.release_eq_some hp).2.2]
  | none =>
    refine ⟨.deleted c, ?_, .inr ⟨rfl, ?_, ?_⟩⟩ <;> simp [World.release, hp, Call.release, World.idle]

/-- **The pools are safe.**  In every reachable state, whatever the calls and the server do: each
idle queue holds at most `kMaxClients` clients and none twice; no client is both idle and held, or
held by two calls; no deleted client is idle or held; a call that has returned holds no client,
each of its passes that got one having pushed it back or deleted it exactly once; and when a lease
ends, the pass records `.pushed c` exactly when the deleter puts its client `c` on the back of its
pool's queue, and `.deleted c` exactly when it deletes `c`. -/
theorem pool_safety {w : World} (hw : Reachable argsOf w) :
    (∀ b, (w.idle b).length ≤ kMaxClients ∧ (w.idle b).Nodup) ∧
    (∀ b c j, c ∈ w.idle b → w.held j ≠ some c) ∧
    (∀ j j' c, w.held j = some c → w.held j' = some c → j = j') ∧
    (∀ c ∈ w.destroyed, (∀ b, c ∉ w.idle b) ∧ ∀ j, w.held j ≠ some c) ∧
    (∀ j, (w.calls j).pc = .done → w.held j = none ∧ ∀ a ∈ (w.calls j).past, a.DisposedOnce) ∧
    (∀ j c exit act w', (w.calls j).pc = .release c exit → step w j act = some w' →
      (w'.calls j).past = (w.calls j).past ++ [{ (w.calls j).cur with disposals := [.pushed c] }] ∧
          w'.idle (argsOf j).tag = w.idle (argsOf j).tag ++ [c] ∧ w'.destroyed = w.destroyed ∨
        (w'.calls j).past = (w.calls j).past ++ [{ (w.calls j).cur with disposals := [.deleted c] }] ∧
          w'.idle (argsOf j).tag = w.idle (argsOf j).tag ∧ w'.destroyed = c :: w.destroyed) := by
  have hsafe := safe_reachable hw
  have hlease := reachable_call (Q := Call.LeaseInv) (fun _ => by simp [Call.LeaseInv, Call.start])
    Call.leaseInv_step hw
  refine ⟨fun b => ⟨hsafe.length_le b, hsafe.nodup b⟩, fun _ _ _ => hsafe.not_held_of_idle,
    fun _ _ _ => hsafe.held_inj, fun _ hc => ⟨fun _ => hsafe.not_idle_of_destroyed hc,
      fun _ => hsafe.not_held_of_destroyed hc⟩, fun j hdone => ⟨?_, (hlease j).1⟩,
    fun j c exit act w' hpc h => ?_⟩
  · simp [World.held, Call.held, hdone, Pc.session]
  · -- the pass in progress has disposed of nothing yet
    obtain ⟨d, hpast, hd⟩ := release_disposal h hpc
    rw [(hlease j).2.1, List.nil_append] at hpast
    rw [args_reachable hw j] at hd
    rcases hd with ⟨rfl, hd⟩ | ⟨rfl, hd⟩
    · exact .inl ⟨hpast, hd⟩
    · exact .inr ⟨hpast, hd⟩

/-- In the state `midWorld`, call 2's deleter is about to delete the client whose connection
dropped, and call 3 has returned. -/
theorem pool_safety_sample :
    Reachable sampleArgs midWorld ∧ (midWorld.calls 2).pc = .release 1 false ∧
      (midWorld.calls 3).pc = .done ∧
    ((∀ b, (midWorld.idle b).length ≤ kMaxClients ∧ (midWorld.idle b).Nodup) ∧
    (∀ b c j, c ∈ midWorld.idle b → midWorld.held j ≠ some c) ∧
    (∀ j j' c, midWorld.held j = some c → midWorld.held j' = some c → j = j') ∧
    (∀ c ∈ midWorld.destroyed, (∀ b, c ∉ midWorld.idle b) ∧ ∀ j, midWorld.held j ≠ some c) ∧
    (∀ j, (midWorld.calls j).pc = .done →
      midWorld.held j = none ∧ ∀ a ∈ (midWorld.calls j).past, a.DisposedOnce) ∧
    (∀ j c exit act w', (midWorld.calls j).pc = .release c exit → step midWorld j act = some w' →
      (w'.calls j).past =
          (midWorld.calls j).past ++ [{ (midWorld.calls j).cur with disposals := [.pushed c] }] ∧
          w'.idle (sampleArgs j).tag = midWorld.idle (sampleArgs j).tag ++ [c] ∧
          w'.destroyed = midWorld.destroyed ∨
        (w'.calls j).past =
          (midWorld.calls j).past ++ [{ (midWorld.calls j).cur with disposals := [.deleted c] }] ∧
          w'.idle (sampleArgs j).tag = midWorld.idle (sampleArgs j).tag ∧
          w'.destroyed = c :: midWorld.destroyed)) :=
  ⟨midWorld_reachable, rfl, rfl, pool_safety midWorld_reachable⟩

/-! ## Every client is deleted once -/

namespace Owners

/-- The clients deleted so far had all been allocated, and none was deleted twice. -/
structure DeletedOnce (o : Owners) : Prop where
  nodup : o.destroyed.Nodup
  lt_nextId : ∀ c ∈ o.destroyed, c < o.nextId

/-- A move deletes only a client that has been allocated and is not deleted yet: a new client whose
`Init` failed, or a held one. -/
theorem DeletedOnce.move {o o' : Owners} (hs : o.Safe) (hd : o.DeletedOnce) (hm : Move o o') :
    o'.DeletedOnce := by
  obtain ⟨hnd, hlt⟩ := hd
  cases hm with
  | take _ _ => exact ⟨hnd, hlt⟩
  | alloc _ => exact ⟨hnd, fun c hc => Nat.lt_succ_of_lt (hlt c hc)⟩
  | allocDelete =>
    refine ⟨List.nodup_cons.2 ⟨fun hc => Nat.lt_irrefl _ (hlt _ hc), hnd⟩, fun c hc => ?_⟩
    rcases List.mem_cons.1 hc with rfl | hc
    · exact Nat.lt_succ_self _
    · exact Nat.lt_succ_of_lt (hlt c hc)
  | push _ _ => exact ⟨hnd, hlt⟩
  | delete hheld =>
    refine ⟨List.nodup_cons.2 ⟨fun hc => hs.not_held_of_destroyed hc hheld, hnd⟩, fun c hc => ?_⟩
    rcases List.mem_cons.1 hc with rfl | hc
    · exact hs.lt_nextId_of_held hheld
    · exact hlt c hc

end Owners

/-- **Every client is deleted once.**  In every reachable state, whatever the calls and the server
do, the process has deleted only clients that `new` had returned, and none of them twice: the
failed-`Init` path of `Pool::Client` deletes the client it has just created, and the deleter of a
lease deletes the client the call holds, which no other path can delete. -/
theorem delete_once {w : World} (hw : Reachable argsOf w) :
    w.destroyed.Nodup ∧ ∀ c ∈ w.destroyed, c < w.nextId := by
  have hd : w.owners.DeletedOnce := by
    refine reachable_induction (I := fun w => w.owners.DeletedOnce)
      ⟨List.nodup_nil, fun _ hc => absurd hc (List.not_mem_nil _)⟩ (fun hr hd h => ?_) hw
    rcases owners_step h with heq | hm
    · exact heq ▸ hd
    · exact hd.move (safe_reachable hr) hm
  exact ⟨hd.nodup, hd.lt_nextId⟩

theorem delete_once_sample :
    Reachable sampleArgs sampleWorld ∧ sampleWorld.destroyed.Nodup ∧
      ∀ c ∈ sampleWorld.destroyed, c < sampleWorld.nextId :=
  ⟨sampleWorld_reachable, delete_once sampleWorld_reachable⟩

/-- **No client leaks.**  In every reachable state, whatever the calls and the server do, every
client that `new ClientApi()` has returned is idle in one of the pools, held by a call, or
deleted: the `unique_ptr` of `Pool::Client`, the queue of `unique_ptr`s and the lease's deleter
between them lose none. -/
theorem no_leak {w : World} (hw : Reachable argsOf w) {c : SessionId} (hc : c < w.nextId) :
    (∃ b, c ∈ w.idle b) ∨ (∃ j, w.held j = some c) ∨ c ∈ w.destroyed := by
  obtain ⟨loc, hloc⟩ := (safe_reachable hw).loc
  cases hp : loc c with
  | unborn => exact absurd ((hloc c .unborn).2 hp) (Nat.not_le.2 hc)
  | idle b => exact .inl ⟨b, (hloc c _).2 hp⟩
  | held j => exact .inr (.inl ⟨j, (hloc c _).2 hp⟩)
  | deleted => exact .inr (.inr ((hloc c _).2 hp))

theorem no_leak_sample :
    Reachable sampleArgs sampleWorld ∧ 0 < sampleWorld.nextId ∧
      ((∃ b, 0 ∈ sampleWorld.idle b) ∨ (∃ j, sampleWorld.held j = some 0) ∨
        0 ∈ sampleWorld.destroyed) :=
  ⟨sampleWorld_reachable, by decide, no_leak sampleWorld_reachable (by decide)⟩

end SgeMonorepo.P4Lib
