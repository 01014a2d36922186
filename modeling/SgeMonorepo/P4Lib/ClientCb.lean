import SgeMonorepo.P4Lib.Capability

/-!
# `ClientCb`: forwarding a command's output to Go

`ClientCb` is the `ClientUser` that `p4runcb` hands to `Run`.  Each method the server calls on it
becomes at most one call of a `gop4api*` function, tagged with the call's `cbid`; `Retry` and
`HandleError(const std::string&)` are called by `p4runcb` itself.  The Go functions are modelled
by the event they receive (`GoEvent`), so a method is a function to the list of events it emits.

The one method with a loop is `OutputStat`, which walks the dictionary with `GetVar(i, var, val)`
until it fails and skips two reserved keys.  It compares keys with `StrPtr::operator==`, a
`strcmp`, so a key is read only up to its first NUL.  `outputStat_eq` says what it sends: one
event whose keys and values are the dictionary's other pairs, whole and in order.

`OutputInfo` receives its level as a C `char` and sends `level - '0'` through the `char` parameter
of `gop4apiOutputInfo`, so the level wraps around as a signed byte (`signedChar`).

Run events never contain a retry notice (`not_isRetry_of_mem_runEvents`): only `p4runcb` emits
those, which is what lets the trace of a call be counted by its retry notices.
-/

namespace SgeMonorepo.P4Lib

/-- A call of one of the `gop4api*` functions exported by Go. -/
inductive GoEvent
  /-- `gop4apiHandleError(cbid, err, len)`. -/
  | handleError (cbid : Int) (err : String)
  /-- `gop4apiOutputBinary(cbid, data, len)`. -/
  | outputBinary (cbid : Int) (data : Bytes)
  /-- `gop4apiOutputText(cbid, data, len)`. -/
  | outputText (cbid : Int) (data : Bytes)
  /-- `gop4apiOutputInfo(cbid, level, info)`. -/
  | outputInfo (cbid : Int) (level : Int) (info : String)
  /-- `gop4apiOutputStat(cbid, count, key, value)`. -/
  | outputStat (cbid : Int) (count : Nat) (keys values : List String)
  /-- `gop4apiRetry(cbid, context, err, len)`. -/
  | retry (cbid : Int) (context : String) (err : String)
deriving DecidableEq

/-- The correlation id every event carries. -/
def GoEvent.cbid : GoEvent → Int
  | .handleError id _ | .outputBinary id _ | .outputText id _ | .outputInfo id _ _
  | .outputStat id _ _ _ | .retry id _ _ => id

/-- Whether the event is a retry notice. -/
def GoEvent.isRetry : GoEvent → Bool
  | .retry .. => true
  | _ => false

/-- Whether the event is an error report. -/
def GoEvent.isError : GoEvent → Bool
  | .handleError .. => true
  | _ => false

/-- `P4Tag::v_specFormatted`.  Modelled from the spec: the constant is declared by the p4 API, not
in this repository, and the spec names the key it holds "specFormatted". -/
def vSpecFormatted : String := "specFormatted"

/-- `var == s` for a `StrRef var` and a C string `s`: `StrPtr::operator==`, a `strcmp` of the two,
which reads the key only up to its first NUL. -/
def strEq (var s : String) : Bool := (cStr var).val == s

/-- The keys `OutputStat` does not forward: `var == "func" || var == P4Tag::v_specFormatted`. -/
def reservedKey (var : String) : Bool := strEq var "func" || strEq var vSpecFormatted

/-- A value converted to a `char`, signed as on the platforms the bridge is built for: its low
byte, read in two's complement. -/
def signedChar (n : Int) : Int := if n % 256 < 128 then n % 256 else n % 256 - 256

/-- A `ClientCb cb(cbid, input)`. -/
structure ClientCb where
  cbid : Int
  input : Bytes

namespace ClientCb

variable (cb : ClientCb)

/-- `HandleError(Error*)`: forward the formatted error, if it holds one. -/
def handleError (err : Error) : List GoEvent :=
  if err.test then [.handleError cb.cbid err.fmt] else []

/-- `HandleError(const std::string&)`: forward the message, all of its bytes. -/
def handleErrorMsg (msg : String) : List GoEvent := [.handleError cb.cbid msg]

/-- `Retry(context, err)`: the context as a C string, and the formatted error if `err` is not
null. -/
def retry (context : String) (err : Option Error) : List GoEvent :=
  [.retry cb.cbid (cStr context).val ((err.map Error.fmt).getD "")]

/-- `OutputBinary(data, length)`. -/
def outputBinary (data : Bytes) : List GoEvent := [.outputBinary cb.cbid data]

/-- `OutputText(data, length)`. -/
def outputText (data : Bytes) : List GoEvent := [.outputText cb.cbid data]

/-- `OutputInfo(level, data)`: the `char` level is promoted to `int`, `'0'` is subtracted, and
the difference is passed back as the `char` parameter of `gop4apiOutputInfo`. -/
def outputInfo (level : UInt8) (data : String) : List GoEvent :=
  [.outputInfo cb.cbid (signedChar (signedChar level.toNat - '0'.toNat)) data]

example : (ClientCb.mk 0 []).outputInfo 200 "" = [.outputInfo 0 (-104) ""] := by decide

/-- The loop `for (int i = 0; varList->GetVar(i, var, val); i++)` of `OutputStat`, from index `i`,
with the keys and values pushed so far. -/
def outputStatFrom (d : StrDict) (i : Nat) (keys values : List String) :
    List String × List String :=
  match h : d.getVar i with
  | none => (keys, values)
  | some (var, val) =>
    if reservedKey var then outputStatFrom d (i + 1) keys values
    else outputStatFrom d (i + 1) (keys ++ [var]) (values ++ [val])
termination_by d.length - i
decreasing_by
  all_goals
    have := (List.getElem?_eq_some_iff.1 h).1
    omega

/-- `OutputStat(varList)`: one `gop4apiOutputStat` with `keys.size()` and both vectors. -/
def outputStat (d : StrDict) : List GoEvent :=
  let (keys, values) := outputStatFrom d 0 [] []
  [.outputStat cb.cbid keys.length keys values]

/-- `InputData(buf, e)`: append the input to `buf` when there is some.  `Terminate()` writes the
C terminator after the contents and does not change them. -/
def inputData (buf : Bytes) : Bytes :=
  if cb.input.length > 0 then buf ++ cb.input else buf

/-- The method a server call lands in, and the events it sends to Go. -/
def dispatch : UserCall → List GoEvent
  | .handleError err => cb.handleError err
  | .outputBinary data => cb.outputBinary data
  | .outputText data => cb.outputText data
  | .outputInfo level data => cb.outputInfo level data
  | .outputStat d => cb.outputStat d
  | .inputData _ => []

/-- The events a `Run` sends to Go, given the calls the server made. -/
def runEvents (calls : List UserCall) : List GoEvent := calls.flatMap cb.dispatch

/-! ## `OutputStat` forwards the unreserved pairs, in order -/

/-- The pairs `OutputStat` forwards. -/
def statPairs (d : StrDict) : StrDict := d.filter fun p => !reservedKey p.1

private theorem getVar_eq_head? (d : StrDict) (i : Nat) : d.getVar i = (d.drop i).head? := by
  simp [StrDict.getVar]

private theorem drop_eq_cons {d : StrDict} {i : Nat} {p : String × String}
    (h : d.getVar i = some p) : d.drop i = p :: d.drop (i + 1) := by
  rw [getVar_eq_head?] at h
  rw [← List.drop_drop]
  cases hd : d.drop i with
  | nil => simp [hd] at h
  | cons q rest => simp_all

theorem outputStatFrom_eq (d : StrDict) (i : Nat) (keys values : List String) :
    outputStatFrom d i keys values =
      (keys ++ (statPairs (d.drop i)).map Prod.fst,
        values ++ (statPairs (d.drop i)).map Prod.snd) := by
  induction i, keys, values using outputStatFrom.induct d with
  | case1 i keys values h =>
    have hnil : d.drop i = [] := by rwa [getVar_eq_head?, List.head?_eq_none_iff] at h
    rw [outputStatFrom]
    split
    · simp [hnil, statPairs]
    · simp_all
  | case2 i keys values var val h hres ih =>
    rw [outputStatFrom]
    split
    · simp_all
    · obtain ⟨rfl, rfl⟩ : _ ∧ _ := Prod.mk.inj (Option.some.inj ((h.symm.trans ‹_›)))
      simp [hres, ih, drop_eq_cons h, statPairs]
  | case3 i keys values var val h hres ih =>
    rw [outputStatFrom]
    split
    · simp_all
    · obtain ⟨rfl, rfl⟩ : _ ∧ _ := Prod.mk.inj (Option.some.inj ((h.symm.trans ‹_›)))
      simp [hres, ih, drop_eq_cons h, statPairs]

/-- `OutputStat` makes exactly one `gop4apiOutputStat` call.  Its count is the number of pairs
whose key, read up to its first NUL as `strcmp` reads it, is neither `"func"` nor
`P4Tag::v_specFormatted`, and its key and value arrays are those pairs, whole and index by index,
in dictionary order. -/
theorem outputStat_eq (d : StrDict) :
    let kept := d.filter fun p => (cStr p.1).val != "func" && (cStr p.1).val != vSpecFormatted
    cb.outputStat d =
      [.outputStat cb.cbid kept.length (kept.map Prod.fst) (kept.map Prod.snd)] := by
  simp [outputStat, outputStatFrom_eq, statPairs, reservedKey, strEq, bne]

example :
    statPairs [("func", "x"), ("specFormatted", "y"), ("client", "z")] = [("client", "z")] := by
  decide

/-- A key that holds a NUL after `func` is a different key, and is not forwarded: `strcmp` stops
at the NUL and finds it equal to `"func"`. -/
theorem outputStat_nul_key :
    "func\x00x" ≠ "func" ∧ "func\x00x" ≠ vSpecFormatted ∧
      (ClientCb.mk 0 []).outputStat [("func\x00x", "v")] = [.outputStat 0 0 [] []] := by
  refine ⟨by decide, by decide, ?_⟩
  simp [outputStat, outputStatFrom_eq, statPairs]
  decide

/-! ## Events of a `Run` -/

theorem not_isRetry_of_mem_dispatch {u : UserCall} {e : GoEvent} (h : e ∈ cb.dispatch u) :
    e.isRetry = false := by
  cases u <;> simp only [dispatch, handleError, outputBinary, outputText, outputInfo,
    outputStat] at h <;> (try split at h) <;> simp_all [GoEvent.isRetry]

/-- The server cannot make the adapter send a retry notice. -/
theorem not_isRetry_of_mem_runEvents {calls : List UserCall} {e : GoEvent}
    (h : e ∈ cb.runEvents calls) : e.isRetry = false := by
  obtain ⟨u, -, hu⟩ := List.mem_flatMap.1 h
  exact cb.not_isRetry_of_mem_dispatch hu

theorem countP_isRetry_runEvents (calls : List UserCall) :
    (cb.runEvents calls).countP GoEvent.isRetry = 0 :=
  List.countP_eq_zero.2 fun _ he => by simp [cb.not_isRetry_of_mem_runEvents he]

end ClientCb

end SgeMonorepo.P4Lib
