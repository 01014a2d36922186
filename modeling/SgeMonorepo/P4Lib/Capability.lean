import Mathlib.Logic.Function.Basic
import Mathlib.Data.List.Nodup

/-!
# The p4 client, as `p4_cgo_bridge.cc` uses it

The bridge never looks inside a `ClientApi`.  It constructs one, sets its charset and protocol,
calls `Init`, reads and writes the user and password, sets unnamed variables, calls `Run`, asks
`Dropped()` and calls `Final`.  This file models that surface and nothing else.  What the server
does is not modelled: it is an answer chosen by the environment at each call (`InitAnswer`,
`RunAnswer`, the `Error` that `Final` fills in), so that every theorem about the bridge holds for
every server behaviour.

Two conventions of the C API matter below.

* A `const char*` argument is read up to its first NUL.  `CStr` is such a string, and `cStr s` is
  what `s.c_str()` passes: the part of `s` before its first NUL.  `SetUser`, `SetPassword` and
  `Run` take `const char*`, so a `std::string` built from a Go `strview` that holds a NUL reaches
  them cut short.
* A `strview` or `StrRef` carries its length, so the bytes it names reach the callee whole.

The fields `initOk`, `initProtocol`, `initUser`, `initPassword` and `finalized` of `Session` are
ghost state: they record what happened to the client, and no code of the bridge reads them.  A
protocol takes effect only if `SetProtocol` is called before `Init`, which sends it to the server;
`initProtocol` is the protocol in force at `Init`.
-/

namespace SgeMonorepo.P4Lib

/-- The bytes named by a `strview` or a `StrRef`. -/
abbrev Bytes := List UInt8

/-- The address of a `ClientApi` object. -/
abbrev SessionId := Nat

/-- The character that ends a C string. -/
def nul : Char := Char.ofNat 0

/-- A C string: the characters a `const char*` argument carries, none of them NUL. -/
structure CStr where
  val : String
  nul_free : nul ∉ val.data
deriving DecidableEq

/-- The empty C string. -/
def CStr.empty : CStr := ⟨"", by decide⟩

/-- `s.c_str()` as a `const char*` reader sees it: `s` up to its first NUL. -/
def cStr (s : String) : CStr :=
  ⟨⟨s.data.takeWhile (· ≠ nul)⟩, fun h => by simpa using List.mem_takeWhile_imp h⟩

/-- Reading back the text of a C string, as `std::string(p)` does, loses nothing. -/
@[simp] theorem cStr_val (s : CStr) : cStr s.val = s := by
  obtain ⟨⟨l⟩, h⟩ := s
  simp only [cStr, CStr.mk.injEq]
  congr 1
  exact List.takeWhile_eq_self_iff.2 fun x hx => by
    simpa using fun hx' : x = nul => h (hx' ▸ hx)

/-- A string without NUL passes through `c_str()` whole. -/
theorem cStr_val_eq_of_nul_free {s : String} (h : nul ∉ s.data) : (cStr s).val = s :=
  congrArg CStr.val (cStr_val ⟨s, h⟩)

/-- A p4 `Error`: `Test()` says whether it holds an error, `fmt` is the text `Fmt()` writes. -/
structure Error where
  test : Bool
  fmt : String
deriving DecidableEq

/-- A `StrDict` as `OutputStat` reads it through `GetVar(i, var, val)`: its pairs by index. -/
abbrev StrDict := List (String × String)

/-- `GetVar(i, var, val)`: the `i`-th pair, if there is one. -/
def StrDict.getVar (d : StrDict) (i : Nat) : Option (String × String) := d[i]?

/-- A call that the server makes on the command's `ClientUser` while `Run` is in progress. -/
inductive UserCall
  | handleError (err : Error)
  | outputBinary (data : Bytes)
  | outputText (data : Bytes)
  /-- `OutputInfo(level, data)`: `level` is a C `char`, given by its byte. -/
  | outputInfo (level : UInt8) (data : String)
  | outputStat (dict : StrDict)
  /-- `InputData(buf, e)`: the server asks for the command's input, to be appended to `buf`. -/
  | inputData (buf : Bytes)

/-- What `Init` does, decided by the server and the environment: the error it reports, and the
user and password the client picked up (from the environment or its defaults). -/
structure InitAnswer where
  err : Error
  user : CStr
  password : CStr

/-- What `Run` does, decided by the server: the calls it makes on the `ClientUser`, in order, and
whether the connection dropped under it (what `Dropped()` answers from then on). -/
structure RunAnswer where
  calls : List UserCall
  dropped : Bool

/-- A `ClientApi` object. -/
structure Session where
  /-- Set by `SetCharset`. -/
  charset : String
  /-- Set by `SetProtocol`; `none` while it was never called. -/
  protocol : Option (String × String)
  user : CStr
  password : CStr
  /-- What `Dropped()` answers. -/
  dropped : Bool
  /-- `Init` returned without error. -/
  initOk : Bool
  /-- The protocol set when `Init` was called: the one the connection speaks. -/
  initProtocol : Option (String × String)
  /-- The user right after `Init`. -/
  initUser : CStr
  /-- The password right after `Init`. -/
  initPassword : CStr
  /-- `Final` has been called. -/
  finalized : Bool

namespace Session

/-- `new ClientApi()`. -/
def new : Session :=
  ⟨"", none, .empty, .empty, false, false, none, .empty, .empty, false⟩

/-- `SetCharset(c)`. -/
@[simps] def setCharset (s : Session) (c : String) : Session := { s with charset := c }

/-- `SetProtocol(p, v)`. -/
@[simps] def setProtocol (s : Session) (p v : String) : Session :=
  { s with protocol := some (p, v) }

/-- `Init(&err)`: connect, with the credentials the client has picked up. -/
@[simps] def init (s : Session) (a : InitAnswer) : Session :=
  { s with user := a.user, password := a.password, initOk := !a.err.test,
           initProtocol := s.protocol, initUser := a.user, initPassword := a.password }

/-- `SetUser(u)`. -/
@[simps] def setUser (s : Session) (u : CStr) : Session := { s with user := u }

/-- `SetPassword(p)`. -/
@[simps] def setPassword (s : Session) (p : CStr) : Session := { s with password := p }

/-- `Run(cmd, ui)`, as far as the client itself is concerned: whether the connection dropped. -/
@[simps] def run (s : Session) (a : RunAnswer) : Session := { s with dropped := a.dropped }

/-- `Final(&err)`.  `Dropped()` keeps its answer afterwards. -/
@[simps] def final (s : Session) : Session := { s with finalized := true }

end Session

end SgeMonorepo.P4Lib
