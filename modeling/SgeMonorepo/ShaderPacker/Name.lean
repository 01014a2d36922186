import Mathlib.Order.Basic

/-!
# The shader name `main` derives from the shader's path

`main` names the packed shader after its source file.  Lines 332-337 cut the path `argv[3]` at its
last `.` (`shader_name_no_ext`), find its last `/` or `\`, and take what follows that separator out
of `shader_name_no_ext`.  The two positions are both found in the whole path, so when the last `.`
belongs to a directory and the file name has none, the second `substr` starts past the end of the
shortened string and throws `std::out_of_range` (`shaderName_throws`).  In every other case the
result is the path's last component without its extension (`shaderName_ok`).  `shaderName_eq`
says both at once.

## Strategy

`findLastOf` scans back from the end, as `basic_string::find_last_of` does, and
`findLastOf_eq_some_iff` and `findLastOf_eq_none_iff` say what the scan finds.  A suffix of the path
has its last `.` where the path has it, when that lies in the suffix, and none otherwise
(`findLastOf_drop`, `findLastOf_drop_eq_none`); this lines the code's two cuts up with the spec's
reading.  Strings are lists of characters, one per byte of the `std::string`.
-/

namespace SgeMonorepo.ShaderPacker

/-- What the C++ library calls of `shaderpacker.cpp` can throw. -/
inductive Exception
  /-- `std::out_of_range`, from `substr` at a position past the end. -/
  | outOfRange
  /-- `filesystem_error`, from `create_directories` when it cannot make the directory. -/
  | filesystemError
deriving DecidableEq

/-- `s.find_last_of(chars)`: scanning back from the end, the position of the first character that
is one of `chars`; `none` is `npos`. -/
def findLastOf (s chars : List Char) : Option Nat :=
  scan s.length
where
  /-- The scan over the positions below `n`, from `n - 1` down. -/
  scan : Nat → Option Nat
    | 0 => none
    | n + 1 =>
      match s[n]? with
      | some c => if c ∈ chars then some n else scan n
      | none => scan n

/-- `s.substr(pos, count)`: at most `count` characters from `pos`, and `out_of_range` when `pos` is
past the end. -/
def substr (s : List Char) (pos count : Nat) : Except Exception (List Char) :=
  if s.length < pos then .error .outOfRange else .ok ((s.drop pos).take count)

/-- The separators of `find_last_of("\\/")`. -/
def separators : List Char := ['\\', '/']

/-- Lines 332-337 of `main`: `shader_name`, from the path `argv[3]`.  `shader_path` is computed on
the way; its `substr` cannot throw. -/
def shaderName (path : List Char) : Except Exception (List Char) := do
  let lastdot := findLastOf path ['.']
  let shaderNameNoExt ← match lastdot with
    | none => pure path
    | some d => substr path 0 d
  let lastslash := findLastOf path separators
  let _shaderPath ← match lastslash with
    | none => pure path
    | some s => substr path 0 s
  match lastslash with
  | none => pure shaderNameNoExt
  | some s => substr shaderNameNoExt (s + 1) shaderNameNoExt.length

/-- The name the spec describes: the last component of the path (what follows its last `/` or
`\`), cut at its own last `.` when it has one. -/
def specShaderName (path : List Char) : List Char :=
  let comp := match findLastOf path separators with
    | none => path
    | some s => path.drop (s + 1)
  match findLastOf comp ['.'] with
  | none => comp
  | some d => comp.take d

/-- Whether the path's last `.` comes before its last separator, so that it lies in a directory. -/
def dotInDir (path : List Char) : Bool :=
  match findLastOf path ['.'], findLastOf path separators with
  | some d, some s => decide (d < s)
  | _, _ => false

/-! ## What `find_last_of` finds -/

section FindLastOf

variable {l cs : List Char}

private theorem scan_eq_some_iff {n i : Nat} (hn : n ≤ l.length) :
    findLastOf.scan l cs n = some i ↔
      i < n ∧ ∃ h : i < l.length, l[i] ∈ cs ∧
        ∀ j (hj : j < l.length), i < j → j < n → l[j] ∉ cs := by
  induction n with
  | zero => simp [findLastOf.scan]
  | succ n ih =>
    have hlt : n < l.length := hn
    simp only [findLastOf.scan, List.getElem?_eq_getElem hlt]
    split
    · rename_i hc
      constructor
      · rintro ⟨⟩
        exact ⟨by omega, hlt, hc, fun j hj h₁ h₂ => by omega⟩
      · rintro ⟨hin, hi, hci, hlast⟩
        rcases Nat.lt_succ_iff_lt_or_eq.1 hin with hin | rfl
        · exact absurd hc (hlast n hlt hin (by omega))
        · rfl
    · rename_i hc
      rw [ih (by omega)]
      constructor
      · rintro ⟨hin, hi, hci, hlast⟩
        refine ⟨by omega, hi, hci, fun j hj h₁ h₂ => ?_⟩
        rcases Nat.lt_succ_iff_lt_or_eq.1 h₂ with h₂ | rfl
        · exact hlast j hj h₁ h₂
        · exact hc
      · rintro ⟨hin, hi, hci, hlast⟩
        have hne : i ≠ n := by rintro rfl; exact hc hci
        exact ⟨by omega, hi, hci, fun j hj h₁ h₂ => hlast j hj h₁ (by omega)⟩

/-- `find_last_of` finds the position of a character of `cs` after which there is none. -/
theorem findLastOf_eq_some_iff {i : Nat} :
    findLastOf l cs = some i ↔
      ∃ h : i < l.length, l[i] ∈ cs ∧ ∀ j (hj : j < l.length), i < j → l[j] ∉ cs := by
  rw [findLastOf, scan_eq_some_iff (Nat.le_refl _)]
  exact ⟨fun ⟨_, hi, hc, hlast⟩ => ⟨hi, hc, fun j hj h => hlast j hj h hj⟩,
    fun ⟨hi, hc, hlast⟩ => ⟨hi, hi, hc, fun j hj h _ => hlast j hj h⟩⟩

/-- The scan below `n` stops at a character of `cs` below `n`, if there is one. -/
private theorem scan_ne_none {n j : Nat} (hn : n ≤ l.length) (hj : j < n) (hjl : j < l.length)
    (hc : l[j] ∈ cs) : findLastOf.scan l cs n ≠ none := by
  induction n with
  | zero => omega
  | succ n ih =>
    have hlt : n < l.length := hn
    simp only [findLastOf.scan, List.getElem?_eq_getElem hlt]
    split
    · simp
    · rename_i hcn
      rcases Nat.lt_succ_iff_lt_or_eq.1 hj with hj | rfl
      · exact ih (by omega) hj
      · exact absurd hc hcn

/-- `find_last_of` finds nothing exactly when no character is one of `cs`. -/
theorem findLastOf_eq_none_iff :
    findLastOf l cs = none ↔ ∀ j (hj : j < l.length), l[j] ∉ cs := by
  refine ⟨fun h j hj hc => scan_ne_none (Nat.le_refl _) hj hj hc h, fun h => ?_⟩
  cases hfind : findLastOf l cs with
  | none => rfl
  | some i =>
    obtain ⟨hi, hc, -⟩ := findLastOf_eq_some_iff.1 hfind
    exact absurd hc (h i hi)

theorem lt_length_of_findLastOf {i : Nat} (h : findLastOf l cs = some i) : i < l.length :=
  (findLastOf_eq_some_iff.1 h).1

/-- In a suffix, the last character of `cs` is the whole list's, when it lies in the suffix. -/
theorem findLastOf_drop {i k : Nat} (h : findLastOf l cs = some i) (hk : k ≤ i) :
    findLastOf (l.drop k) cs = some (i - k) := by
  obtain ⟨hi, hc, hlast⟩ := findLastOf_eq_some_iff.1 h
  refine findLastOf_eq_some_iff.2 ⟨by simp; omega, ?_, fun j hj hij => ?_⟩
  · simpa [show k + (i - k) = i by omega] using hc
  · simp only [List.getElem_drop]
    exact hlast _ _ (by omega)

/-- A suffix that starts after the last character of `cs` has none. -/
theorem findLastOf_drop_eq_none {k : Nat} (h : ∀ i, findLastOf l cs = some i → i < k) :
    findLastOf (l.drop k) cs = none := by
  refine findLastOf_eq_none_iff.2 fun j hj hc => ?_
  simp only [List.getElem_drop] at hc
  cases hfind : findLastOf l cs with
  | none => exact findLastOf_eq_none_iff.1 hfind _ _ hc
  | some i =>
    have := h i hfind
    exact (findLastOf_eq_some_iff.1 hfind).2.2 _ (by simp at hj; omega) (by omega) hc

end FindLastOf

/-! ## The name -/

/-- A `.` is not a separator, so the last `.` and the last separator are never at one place. -/
theorem findLastOf_dot_ne_separator {path : List Char} {d s : Nat}
    (hd : findLastOf path ['.'] = some d) (hs : findLastOf path separators = some s) : d ≠ s := by
  rintro rfl
  obtain ⟨h, hdot, -⟩ := findLastOf_eq_some_iff.1 hd
  obtain ⟨h', hsep, -⟩ := findLastOf_eq_some_iff.1 hs
  simp only [List.mem_singleton] at hdot
  simp [separators, hdot] at hsep

/-- What lines 332-337 compute: `out_of_range` when the path's last `.` is in a directory, and the
spec's name otherwise. -/
theorem shaderName_eq (path : List Char) :
    shaderName path = if dotInDir path then .error .outOfRange else .ok (specShaderName path) := by
  unfold shaderName specShaderName dotInDir
  cases hs : findLastOf path separators with
  | none =>
    cases hd : findLastOf path ['.'] with
    | none => simp [hd, bind, Except.bind, pure, Except.pure]
    | some d => simp [hd, substr]
  | some s =>
    have hslen := lt_length_of_findLastOf hs
    cases hd : findLastOf path ['.'] with
    | none =>
      -- no `.`: the last component, whole
      have hnone : findLastOf (path.drop (s + 1)) ['.'] = none :=
        findLastOf_drop_eq_none (by simp [hd])
      have htake : (path.drop (s + 1)).take path.length = path.drop (s + 1) :=
        List.take_of_length_le (by simp)
      simp [substr, hnone, htake, Nat.not_lt.2 hslen, bind, Except.bind, pure, Except.pure]
    | some d =>
      have hdlen := lt_length_of_findLastOf hd
      by_cases hds : d < s
      · -- the last `.` is in a directory: the second `substr` starts past the end
        have hlt : d < s + 1 := by omega
        simp [substr, Nat.min_eq_left (Nat.le_of_lt hdlen), hlt, hds, bind, Except.bind]
      · -- the last `.` is in the last component
        have hsd : s < d :=
          Nat.lt_of_le_of_ne (Nat.not_lt.1 hds) (findLastOf_dot_ne_separator hd hs).symm
        have hdrop : findLastOf (path.drop (s + 1)) ['.'] = some (d - (s + 1)) :=
          findLastOf_drop hd hsd
        simp [substr, hdrop, hds, List.drop_take, List.take_take,
          Nat.min_eq_left (Nat.le_of_lt hdlen), Nat.not_lt.2 hsd,
          Nat.min_eq_right (Nat.sub_le d (s + 1)), bind, Except.bind]

/-- **The name of a path whose last `.` is not in a directory.**  When the path's last `.`, if any,
comes after its last separator, if any, `main` derives the last component of the path without its
extension. -/
theorem shaderName_ok {path : List Char}
    (h : ∀ d s, findLastOf path ['.'] = some d → findLastOf path separators = some s → s < d) :
    shaderName path = .ok (specShaderName path) := by
  rw [shaderName_eq, if_neg]
  unfold dotInDir
  split
  · rename_i d s hd hs
    simpa using Nat.le_of_lt (h d s hd hs)
  · simp

theorem shaderName_ok_sample :
    (∀ d s, findLastOf "dir/name.hlsl".toList ['.'] = some d →
        findLastOf "dir/name.hlsl".toList separators = some s → s < d) ∧
      shaderName "dir/name.hlsl".toList = .ok (specShaderName "dir/name.hlsl".toList) := by
  have h : ∀ d s, findLastOf "dir/name.hlsl".toList ['.'] = some d →
      findLastOf "dir/name.hlsl".toList separators = some s → s < d := fun d s hd hs => by
    obtain rfl : d = 8 := Option.some.inj (hd.symm.trans rfl)
    obtain rfl : s = 3 := Option.some.inj (hs.symm.trans rfl)
    decide
  exact ⟨h, shaderName_ok h⟩

/-- **`main` throws on a path whose last `.` is in a directory.**  When the path's last `.` comes
before its last separator, `shader_name_no_ext` ends before the separator, and the second `substr`
starts past its end. -/
theorem shaderName_throws {path : List Char} {d s : Nat}
    (hd : findLastOf path ['.'] = some d) (hs : findLastOf path separators = some s)
    (hds : d < s) : shaderName path = .error .outOfRange := by
  rw [shaderName_eq, if_pos (by simp [dotInDir, hd, hs, hds])]

theorem shaderName_throws_sample :
    findLastOf "my.dir/foo".toList ['.'] = some 2 ∧
      findLastOf "my.dir/foo".toList separators = some 6 ∧
      2 < 6 ∧ shaderName "my.dir/foo".toList = .error .outOfRange :=
  ⟨rfl, rfl, by decide, shaderName_throws rfl rfl (by decide)⟩

/-- `./foo`: its last `.` is the directory `.`, so `main` throws where the spec expects `foo`. -/
theorem shaderName_dot_dir :
    shaderName "./foo".toList = .error .outOfRange ∧ specShaderName "./foo".toList = "foo".toList :=
  ⟨rfl, rfl⟩

end SgeMonorepo.ShaderPacker
