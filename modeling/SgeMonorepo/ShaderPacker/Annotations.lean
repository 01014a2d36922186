import Mathlib.Data.List.Basic

/-!
# The annotations `main` collects

`main` finds the entry points of a shader in annotations such as `@shader(main, vertex)`.  Lines
284-314 iterate over the matches of `@\w+\(.*?\)` in the source and, for each, over the matches of
`\w+` in it: the first word is the annotation's kind; when it is `shader` (up to case), the loop
takes two more words with `*(++nt_next)`, the entry's name and type, and `GetShaderType` reads the
type.  Nothing checks that the iterator is not at its end before these dereferences.  Line 34 leaves
`NDEBUG` undefined, so the asserts are live: an annotation of another kind fails the `assert` of
line 310, and an unknown type the one of line 134, and the program aborts.

* `words_of_mem_annotations`: the words of a match are its kind followed by the words between its
  parentheses, so the first dereference is always safe.
* `collect_annotations_eq`: the loop pushes the entry each match declares (`entryOf?`), in order,
  or ends at the first match that declares none, with that match's fault (`annotationFault`).
* `collect_annotations_ok_iff`: so it runs through exactly when every match is a `shader`
  annotation with a name and a type `GetShaderType` knows.
* `collect_shader_no_args`: `@shader()` makes it dereference the end iterator; it is not reported
  as unsupported syntax.

## Strategy

The two regular expressions are modelled by what they match, not by a regex engine.  A match of
`@\w+\(.*?\)` at a position is `@`, the maximal run of word characters (which must be followed by
`(`), and the shortest run of characters other than line terminators up to a `)`
(`matchAnnotation`).  The iterator tries each position in turn and resumes after a match
(`annotationsFrom`).  The matches of `\w+` are the maximal runs of word characters (`words`).
An iteration is one `Except`: the entry it pushes, or how the program ends there (`Fault`).
-/

namespace SgeMonorepo.ShaderPacker

/-! ## The two regular expressions -/

/-- `\w`: an ASCII letter or digit, or `_`. -/
def isWordChar (c : Char) : Bool := c.isAlphanum || c == '_'

/-- The characters ECMAScript's `.` does not match. -/
def isLineTerminator (c : Char) : Bool := c == '\n' || c == '\r'

/-- `.*?\)` at the start of `s`: the characters before the first `)`, none of them a line
terminator, and what follows that `)`. -/
def closeParen : List Char → Option (List Char × List Char)
  | [] => none
  | c :: rest =>
    if c = ')' then some ([], rest)
    else if isLineTerminator c then none
    else (closeParen rest).map fun r => (c :: r.1, r.2)

/-- `@\w+\(.*?\)` at the start of `s`: the match and what follows it.  `\w+` can only end where
`(` follows, so it is the maximal run of word characters. -/
def matchAnnotation : List Char → Option (List Char × List Char)
  | '@' :: rest =>
    match rest.dropWhile isWordChar with
    | '(' :: body =>
      if rest.takeWhile isWordChar = [] then none
      else (closeParen body).map fun r =>
        ('@' :: (rest.takeWhile isWordChar ++ '(' :: (r.1 ++ [')'])), r.2)
    | _ => none
  | _ => none

/-- The matches `sregex_iterator` visits in `s`, trying at most `fuel` positions: at each position
the match that starts there, if any, after which the search resumes. -/
def annotationsFrom : Nat → List Char → List (List Char)
  | 0, _ => []
  | _ + 1, [] => []
  | fuel + 1, c :: rest =>
    match matchAnnotation (c :: rest) with
    | some r => r.1 :: annotationsFrom fuel r.2
    | none => annotationsFrom fuel rest

/-- `sregex_iterator next(shader.begin(), shader.end(), expr)` with `expr` = `@\w+\(.*?\)`: the
matches in `shader`.  A match is never empty, so `s.length` positions are enough
(`annotationsFrom_eq`). -/
def annotations (s : List Char) : List (List Char) := annotationsFrom s.length s

/-- The matches of `\w+` in `s`, given the run `cur` (reversed) read so far: the maximal runs of
word characters. -/
def wordsAux : List Char → List Char → List (List Char)
  | cur, [] => if cur = [] then [] else [cur.reverse]
  | cur, c :: rest =>
    if isWordChar c then wordsAux (c :: cur) rest
    else if cur = [] then wordsAux [] rest
    else cur.reverse :: wordsAux [] rest

/-- `sregex_iterator nt_next(nts.begin(), nts.end(), nametype)` with `nametype` = `\w+`. -/
def words (s : List Char) : List (List Char) := wordsAux [] s

/-! ## The loop -/

/-- `shader_packer_util::CompareString`: equal lengths, and equal characters up to case. -/
def compareString (a b : List Char) : Bool :=
  a.length == b.length && (a.zip b).all fun p => p.1.toLower == p.2.toLower

/-- `ShaderType`. -/
inductive ShaderType
  | vertex | pixel | geometry | hull | domain | compute
deriving DecidableEq

/-- How the program ends abnormally. -/
inductive Fault
  /-- `*it` on the end iterator: undefined behaviour. -/
  | derefEnd
  /-- A call through a null COM pointer: undefined behaviour. -/
  | nullDeref
  /-- `assert(false && msg)`: `NDEBUG` is not defined, so the program reports `msg` and aborts. -/
  | assertFailed (msg : String)
deriving DecidableEq

/-- `GetShaderType`: the type named up to case; any other name fails the `assert` of line 134. -/
def getShaderType (s : List Char) : Except Fault ShaderType :=
  if compareString s "vertex".toList then .ok .vertex
  else if compareString s "pixel".toList then .ok .pixel
  else if compareString s "geometry".toList then .ok .geometry
  else if compareString s "hull".toList then .ok .hull
  else if compareString s "domain".toList then .ok .domain
  else if compareString s "compute".toList then .ok .compute
  else .error (.assertFailed "Unsupported shader type!!!")

/-- An `SShaderEntry` as the loop pushes it: its name and type (its code is still empty). -/
structure SShaderEntry where
  name : List Char
  type : ShaderType
deriving DecidableEq

/-- `*it` for an iterator at the `k`-th of the matches `ms`. -/
def deref (ms : List (List Char)) (k : Nat) : Except Fault (List Char) :=
  match ms[k]? with
  | some m => .ok m
  | none => .error .derefEnd

/-- One iteration of the loop (lines 291-311), on the match `nts`: the entry it pushes. -/
def collectOne (nts : List Char) : Except Fault SShaderEntry := do
  let ms := words nts
  let type ← deref ms 0
  if compareString type "shader".toList then
    let shName ← deref ms 1
    let shType ← deref ms 2
    let t ← getShaderType shType
    pure ⟨shName, t⟩
  else throw (.assertFailed "Unsupported syntax!!!")

/-- The loop over the matches `ms`, in order, up to its first fault: the entries it pushes. -/
def collect : List (List Char) → Except Fault (List SShaderEntry)
  | [] => pure []
  | nts :: rest => do
    let e ← collectOne nts
    let es ← collect rest
    pure (e :: es)

/-! ## What the matches are -/

/-- A match of `@\w+\(.*?\)`: `@`, a nonempty word, `(`, characters that are neither `)` nor line
terminators, and `)`. -/
def IsAnnotation (m : List Char) : Prop :=
  ∃ w inner, m = '@' :: (w ++ '(' :: (inner ++ [')'])) ∧ w ≠ [] ∧ (∀ c ∈ w, isWordChar c) ∧
    ∀ c ∈ inner, c ≠ ')' ∧ isLineTerminator c = false

theorem closeParen_spec {s inner after : List Char} (h : closeParen s = some (inner, after)) :
    s = inner ++ ')' :: after ∧ ∀ c ∈ inner, c ≠ ')' ∧ isLineTerminator c = false := by
  induction s generalizing inner after with
  | nil => cases h
  | cons c rest ih =>
    simp only [closeParen] at h
    by_cases hc : c = ')'
    · rw [if_pos hc] at h
      cases h
      simp [hc]
    · rw [if_neg hc] at h
      by_cases hl : isLineTerminator c
      · rw [if_pos hl] at h; cases h
      · rw [if_neg hl] at h
        cases hr : closeParen rest with
        | none => rw [hr] at h; cases h
        | some r =>
          rw [hr] at h
          simp only [Option.map_some', Option.some.injEq, Prod.mk.injEq] at h
          obtain ⟨rfl, rfl⟩ := h
          obtain ⟨hrs, hin⟩ := ih hr
          refine ⟨by rw [hrs]; rfl, fun x hx => ?_⟩
          rcases List.mem_cons.1 hx with rfl | hx
          · exact ⟨hc, by simpa using hl⟩
          · exact hin x hx

theorem matchAnnotation_spec {s m after : List Char} (h : matchAnnotation s = some (m, after)) :
    IsAnnotation m ∧ s = m ++ after := by
  unfold matchAnnotation at h
  split at h
  · rename_i rest
    split at h
    · rename_i body hbody
      split at h
      · cases h
      · rename_i hw
        cases hr : closeParen body with
        | none => rw [hr] at h; cases h
        | some r =>
          rw [hr] at h
          simp only [Option.map_some', Option.some.injEq, Prod.mk.injEq] at h
          obtain ⟨rfl, rfl⟩ := h
          obtain ⟨hbr, hin⟩ := closeParen_spec hr
          refine ⟨⟨_, r.1, rfl, hw, fun c hc => List.mem_takeWhile_imp hc, hin⟩, ?_⟩
          have hrest : rest = rest.takeWhile isWordChar ++ '(' :: body := by
            rw [← hbody, List.takeWhile_append_dropWhile]
          calc '@' :: rest = '@' :: (rest.takeWhile isWordChar ++ '(' :: body) := congrArg _ hrest
            _ = _ := by rw [hbr]; simp
    · cases h
  · cases h

/-- A match is never empty, so what follows it is shorter than where it started. -/
theorem length_lt_of_matchAnnotation {s m after : List Char}
    (h : matchAnnotation s = some (m, after)) : after.length < s.length := by
  obtain ⟨⟨w, inner, rfl, -⟩, rfl⟩ := matchAnnotation_spec h
  simp
  omega

theorem isAnnotation_of_mem_annotationsFrom {fuel : Nat} {s m : List Char}
    (h : m ∈ annotationsFrom fuel s) : IsAnnotation m := by
  induction fuel, s using annotationsFrom.induct with
  | case1 => cases h
  | case2 => cases h
  | case3 fuel c rest r hr ih =>
    simp only [annotationsFrom, hr, List.mem_cons] at h
    rcases h with rfl | h
    · exact (matchAnnotation_spec hr).1
    · exact ih h
  | case4 fuel c rest hr ih =>
    simp only [annotationsFrom, hr] at h
    exact ih h

/-- Any fuel from the text's length on gives the same matches: every position is tried. -/
theorem annotationsFrom_eq {fuel : Nat} {s : List Char} (h : s.length ≤ fuel) :
    annotationsFrom fuel s = annotations s := by
  suffices key : ∀ n, s.length ≤ n → annotationsFrom fuel s = annotationsFrom n s from
    key _ (Nat.le_refl _)
  induction fuel, s using annotationsFrom.induct with
  | case1 s =>
    intro n _
    cases s with
    | nil => cases n <;> rfl
    | cons => simp at h
  | case2 fuel => intro n _; cases n <;> rfl
  | case3 fuel c rest r hr ih =>
    intro n hn
    have hlt := length_lt_of_matchAnnotation hr
    obtain ⟨n, rfl⟩ : ∃ m, n = m + 1 := Nat.exists_eq_succ_of_ne_zero (by simp at hn; omega)
    simp only [List.length_cons] at h hn hlt
    simp only [annotationsFrom, hr, ih (by omega) n (by omega)]
  | case4 fuel c rest hr ih =>
    intro n hn
    obtain ⟨n, rfl⟩ : ∃ m, n = m + 1 := Nat.exists_eq_succ_of_ne_zero (by simp at hn; omega)
    simp only [List.length_cons] at h hn
    simp only [annotationsFrom, hr, ih (by omega) n (by omega)]

theorem isAnnotation_of_mem_annotations {s m : List Char} (h : m ∈ annotations s) :
    IsAnnotation m :=
  isAnnotation_of_mem_annotationsFrom h

/-! ## The words of a match -/

theorem wordsAux_append_nonword (cur l : List Char) {c : Char} (hc : isWordChar c = false) :
    wordsAux cur (l ++ [c]) = wordsAux cur l := by
  induction l generalizing cur with
  | nil => simp [wordsAux, hc]
  | cons x rest ih => rw [List.cons_append, wordsAux, wordsAux, ih, ih]

theorem wordsAux_word (cur w l : List Char) (hw : ∀ c ∈ w, isWordChar c) {c : Char}
    (hc : isWordChar c = false) (hne : w ≠ [] ∨ cur ≠ []) :
    wordsAux cur (w ++ c :: l) = (w.reverse ++ cur).reverse :: wordsAux [] l := by
  induction w generalizing cur with
  | nil =>
    simp only [ne_eq, not_true_eq_false, false_or] at hne
    simp [wordsAux, hc, hne]
  | cons x rest ih =>
    rw [List.cons_append, wordsAux, if_pos (hw x (.head _)),
      ih (x :: cur) (fun c hc => hw c (.tail _ hc)) (.inr (List.cons_ne_nil _ _))]
    simp

/-- The words of a match: its kind, then the words between its parentheses. -/
theorem words_of_isAnnotation {m : List Char} (h : IsAnnotation m) :
    ∃ w inner, words m = w :: words inner ∧ w ≠ [] := by
  obtain ⟨w, inner, rfl, hw, hwc, -⟩ := h
  refine ⟨w, inner, ?_, hw⟩
  simp only [words, wordsAux, show isWordChar '@' = false by decide, if_false, if_true]
  rw [wordsAux_word [] w _ hwc (by decide) (.inl hw),
    wordsAux_append_nonword _ _ (by decide)]
  simp

theorem words_of_mem_annotations {s m : List Char} (h : m ∈ annotations s) :
    ∃ w inner, words m = w :: words inner ∧ w ≠ [] :=
  words_of_isAnnotation (isAnnotation_of_mem_annotations h)

/-! ## What the loop does with each match -/

/-- Whether the first word of a match is `shader`, up to case. -/
def isShader (m : List Char) : Bool := compareString ((words m).headD []) "shader".toList

/-- The entry a match declares when it is a `shader` annotation with a name and a type that
`GetShaderType` knows: its second word as the name, and that type. -/
def entryOf? (m : List Char) : Option SShaderEntry :=
  if isShader m ∧ 2 < (words m).length then
    (getShaderType ((words m).getD 2 [])).toOption.map fun t => ⟨(words m).getD 1 [], t⟩
  else none

/-- How an iteration ends on a match that declares no entry: at the `assert` of line 310 when it is
not a `shader` annotation, on the end iterator when its name or type is missing, and at the `assert`
of line 134 when its type is unknown. -/
def annotationFault (m : List Char) : Fault :=
  if !isShader m then .assertFailed "Unsupported syntax!!!"
  else if (words m).length ≤ 2 then .derefEnd
  else .assertFailed "Unsupported shader type!!!"

/-- `GetShaderType` fails only at its `assert`. -/
theorem getShaderType_error {s : List Char} {f : Fault} (h : getShaderType s = .error f) :
    f = .assertFailed "Unsupported shader type!!!" := by
  unfold getShaderType at h
  -- whatever the six comparisons answer, only the last branch is an error
  generalize compareString s "vertex".toList = b₁, compareString s "pixel".toList = b₂,
    compareString s "geometry".toList = b₃, compareString s "hull".toList = b₄,
    compareString s "domain".toList = b₅, compareString s "compute".toList = b₆ at h
  cases b₁ <;> cases b₂ <;> cases b₃ <;> cases b₄ <;> cases b₅ <;> cases b₆ <;> simp_all

theorem entryOf?_isSome_iff (m : List Char) :
    (entryOf? m).isSome ↔ isShader m = true ∧ 2 < (words m).length ∧
      ∃ t, getShaderType ((words m).getD 2 []) = .ok t := by
  unfold entryOf?
  split
  · cases getShaderType ((words m).getD 2 []) <;> simp_all [Except.toOption]
  · simp_all

/-- An iteration on a match that has a first word pushes the entry the match declares, or ends with
the match's fault. -/
theorem collectOne_eq {nts : List Char} (h : words nts ≠ []) :
    collectOne nts = match entryOf? nts with
      | some e => .ok e
      | none => .error (annotationFault nts) := by
  obtain ⟨w, ws, hws⟩ := List.exists_cons_of_ne_nil h
  unfold collectOne entryOf? annotationFault isShader
  simp only [hws, deref, List.getElem?_cons_zero, List.headD_cons, bind, Except.bind]
  cases compareString w "shader".toList
  · rfl
  · rcases ws with _ | ⟨a, _ | ⟨b, rest⟩⟩
    · rfl
    · rfl
    · cases hb : getShaderType b with
      | ok t => simp [hb, Except.toOption, pure, Except.pure]
      | error f => simp [hb, Except.toOption, getShaderType_error hb]

/-- The loop pushes the entries the matches declare, in order, or ends with the fault of the first
match that declares none. -/
theorem collect_eq {ms : List (List Char)} (hms : ∀ m ∈ ms, words m ≠ []) :
    collect ms = match ms.find? (fun m => (entryOf? m).isNone) with
      | some m => .error (annotationFault m)
      | none => .ok (ms.filterMap entryOf?) := by
  induction ms with
  | nil => rfl
  | cons m rest ih =>
    rw [collect, collectOne_eq (hms m (.head _)), ih fun m' hm' => hms m' (.tail _ hm'),
      List.find?_cons]
    cases he : entryOf? m
    · rfl
    · simp only [Option.isNone_some, List.filterMap_cons, he]
      cases List.find? (fun m => (entryOf? m).isNone) rest <;> rfl

/-- **The loop over a shader's annotations.**  For every shader source, the collection loop pushes
the entries its matches declare, in order, or ends with the fault of the first match that declares
none. -/
theorem collect_annotations_eq (s : List Char) :
    collect (annotations s) = match (annotations s).find? (fun m => (entryOf? m).isNone) with
      | some m => .error (annotationFault m)
      | none => .ok ((annotations s).filterMap entryOf?) :=
  collect_eq fun _ hm => by
    obtain ⟨w, inner, hws, -⟩ := words_of_mem_annotations hm
    simp [hws]

/-- **The loop runs through exactly on well-formed `shader` annotations.**  For every shader
source, the collection loop neither aborts at an `assert` nor dereferences its `\w+` iterator past
the end if and only if every match of `@\w+\(.*?\)` has `shader` (up to case) as its first word,
at least two more words, and as its third word a type `GetShaderType` knows. -/
theorem collect_annotations_ok_iff (s : List Char) :
    (∃ es, collect (annotations s) = .ok es) ↔
      ∀ m ∈ annotations s, isShader m = true ∧ 2 < (words m).length ∧
        ∃ t, getShaderType ((words m).getD 2 []) = .ok t := by
  simp only [← entryOf?_isSome_iff, collect_annotations_eq]
  split
  · rename_i m hm
    obtain ⟨hmem, hnone⟩ := List.mem_of_find?_eq_some hm, List.find?_some hm
    simp only [reduceCtorEq, exists_false, false_iff, not_forall]
    exact ⟨m, hmem, by simpa using hnone⟩
  · rename_i hm
    simp only [List.find?_eq_none, Option.isNone_iff_eq_none] at hm
    exact ⟨fun _ m hmem => Option.isSome_iff_ne_none.2 (hm m hmem), fun _ => ⟨_, rfl⟩⟩

/-- `@shader()`: the kind is `shader` and nothing follows it, so `*(++nt_next)` dereferences the end
iterator; the annotation is not reported as unsupported syntax. -/
theorem collect_shader_no_args :
    annotations "@shader()".toList = ["@shader()".toList] ∧
      collect (annotations "@shader()".toList) = .error .derefEnd :=
  ⟨rfl, rfl⟩

end SgeMonorepo.ShaderPacker
