import SgeMonorepo.ShaderPacker.Annotations

/-!
# The two regular expressions, against the iterator's definition

`Annotations.lean` reads the matches of `@\w+\(.*?\)` and of `\w+` with two scanners written for
what these two patterns can match: `annotationsFrom`, over `matchAnnotation` and `closeParen`, and
`wordsAux`.  This file checks both against the definition of `regex_iterator`, stated over the
strings a pattern matches and nothing else:

* a search from a position reports the match at the leftmost position where the pattern matches a
  prefix of the rest of the text, and there the match the engine tries first (`FirstMatch`): the
  shortest for `@\w+\(.*?\)`, whose `.*?` is lazy (its `\w+` has a single choice, since `(` is not
  a word character), and the longest for `\w+`, which is greedy;
* the iterator starts with a search from the beginning and, after each match, searches again from
  where the match ends (`Visits`).

`annotations_eq_iff_visits` and `words_eq_iff_visits` say that each scanner returns exactly the
matches the iterator visits.  Neither pattern matches the empty string, so the standard's special
case for empty matches never arises.

## Strategy

`Visits` is functional (`Visits.unique`), so each theorem needs only that the scanner's output is
visited.  That is an induction along the scanner's recursion, given what it finds at one position:
`matchAnnotation` returns the shortest prefix that `@\w+\(.*?\)` matches and fails only where no
prefix matches (`matchAnnotation_firstMatch`, `not_annotationPattern_of_eq_none`), and
the run of word characters at a position is the longest prefix that `\w+` matches
(`firstMatch_takeWhile`).
-/

namespace SgeMonorepo.ShaderPacker

/-! ## The iterator -/

/-- The strings `@\w+\(.*?\)` matches: `@`, one or more word characters, `(`, any characters other
than line terminators, and `)`. -/
def AnnotationPattern (m : List Char) : Prop :=
  ∃ w x, m = '@' :: (w ++ '(' :: (x ++ [')'])) ∧ w ≠ [] ∧ (∀ c ∈ w, isWordChar c) ∧
    ∀ c ∈ x, isLineTerminator c = false

/-- The strings `\w+` matches. -/
def WordPattern (m : List Char) : Prop := m ≠ [] ∧ ∀ c ∈ m, isWordChar c

/-- `m` is the match the engine reports at the start of `s`: of the prefixes of `s` that the
pattern `P` matches, the one it tries first, where `tried a b` says that a match of length `a` is
tried before one of length `b`. -/
def FirstMatch (P : List Char → Prop) (tried : Nat → Nat → Prop) (s m : List Char) : Prop :=
  m <+: s ∧ P m ∧ ∀ m', m' <+: s → P m' → tried m.length m'.length

/-- The matches a `regex_iterator` over `s` visits: a search moves on while the pattern `P` matches
no prefix of the rest of the text, reports the match the engine tries first at the first position
where it does, and the next search starts where that match ends. -/
inductive Visits (P : List Char → Prop) (tried : Nat → Nat → Prop) :
    List Char → List (List Char) → Prop
  /-- The search reaches the end of the text. -/
  | nil : Visits P tried [] []
  /-- No match starts here. -/
  | skip {c : Char} {rest : List Char} {ms : List (List Char)} :
      (∀ m, m <+: c :: rest → ¬ P m) → Visits P tried rest ms → Visits P tried (c :: rest) ms
  /-- A match starts here. -/
  | take {s m : List Char} {ms : List (List Char)} :
      FirstMatch P tried s m → Visits P tried (s.drop m.length) ms → Visits P tried s (m :: ms)

section Unique

variable {P : List Char → Prop} {tried : Nat → Nat → Prop}
  (hanti : ∀ a b, tried a b → tried b a → a = b)
include hanti

theorem FirstMatch.unique {s m₁ m₂ : List Char} (h₁ : FirstMatch P tried s m₁)
    (h₂ : FirstMatch P tried s m₂) : m₁ = m₂ := by
  have hlen : m₁.length = m₂.length :=
    hanti _ _ (h₁.2.2 m₂ h₂.1 h₂.2.1) (h₂.2.2 m₁ h₁.1 h₁.2.1)
  exact (List.prefix_of_prefix_length_le h₁.1 h₂.1 hlen.le).eq_of_length hlen

/-- An iterator over a pattern that does not match the empty string visits one list of matches. -/
theorem Visits.unique (hempty : ¬ P []) {s : List Char} {ms₁ ms₂ : List (List Char)}
    (h₁ : Visits P tried s ms₁) (h₂ : Visits P tried s ms₂) : ms₁ = ms₂ := by
  induction h₁ generalizing ms₂ with
  | nil =>
    cases h₂ with
    | nil => rfl
    | take hf _ => exact absurd (List.prefix_nil.1 hf.1 ▸ hf.2.1) hempty
  | skip hno _ ih =>
    cases h₂ with
    | skip _ h₂ => exact ih h₂
    | take hf _ => exact absurd hf.2.1 (hno _ hf.1)
  | take hf₁ _ ih =>
    cases h₂ with
    | nil => exact absurd (List.prefix_nil.1 hf₁.1 ▸ hf₁.2.1) hempty
    | skip hno _ => exact absurd hf₁.2.1 (hno _ hf₁.1)
    | take hf₂ h₂ =>
      obtain rfl := FirstMatch.unique hanti hf₁ hf₂
      rw [ih h₂]

end Unique

/-! ## `@\w+\(.*?\)` at one position -/

theorem not_annotationPattern_nil : ¬ AnnotationPattern [] := by
  rintro ⟨w, x, h, -⟩
  cases h

theorem IsAnnotation.annotationPattern {m : List Char} (h : IsAnnotation m) :
    AnnotationPattern m :=
  let ⟨w, x, hm, hw, hwc, hx⟩ := h
  ⟨w, x, hm, hw, hwc, fun c hc => (hx c hc).2⟩

/-- `closeParen` fails only where no `)` can be reached without crossing a line terminator. -/
theorem closeParen_ne_of_eq_none {s : List Char} (h : closeParen s = none) {x after : List Char}
    (hx : ∀ c ∈ x, isLineTerminator c = false) : s ≠ x ++ ')' :: after := by
  induction s generalizing x with
  | nil => simp
  | cons c rest ih =>
    intro hs
    by_cases hc : c = ')'
    · simp [closeParen, hc] at h
    · cases x with
      | nil => exact hc (List.cons.inj hs).1
      | cons d x =>
        obtain ⟨rfl, hrest⟩ := List.cons.inj hs
        simp only [closeParen, if_neg hc, hx c (.head _), Bool.false_eq_true, if_false,
          Option.map_eq_none'] at h
        exact ih h (fun c hc => hx c (.tail _ hc)) hrest

/-- The first `)` of `inner ++ ')' :: after`, where `inner` holds none, is the one after `inner`. -/
private theorem length_le_of_first_paren {inner x after u : List Char}
    (hin : ∀ c ∈ inner, c ≠ ')') (h : inner ++ ')' :: after = x ++ ')' :: u) :
    inner.length ≤ x.length := by
  induction inner generalizing x with
  | nil => simp
  | cons c inner ih =>
    cases x with
    | nil => exact absurd (List.cons.inj h).1 (hin c (.head _))
    | cons d x =>
      simpa using ih (fun c hc => hin c (.tail _ hc)) (List.cons.inj h).2

/-- The word characters before a `(` are the run of word characters at the start. -/
private theorem takeWhile_dropWhile_word {w t : List Char} (hw : ∀ c ∈ w, isWordChar c) :
    (w ++ '(' :: t).takeWhile isWordChar = w ∧ (w ++ '(' :: t).dropWhile isWordChar = '(' :: t := by
  have hparen : isWordChar '(' = false := by decide
  rw [List.takeWhile_append_of_pos hw, List.dropWhile_append_of_pos hw]
  simp [List.takeWhile_cons, List.dropWhile_cons, hparen]

/-- A prefix that `@\w+\(.*?\)` matches, read as `matchAnnotation` reads the text: after the `@`,
the run of word characters, which is not empty and is followed by `(`, then characters other than
line terminators up to a `)`. -/
theorem annotationPattern_prefix {s m : List Char} (hm : m <+: s) (hp : AnnotationPattern m) :
    ∃ rest body x u, s = '@' :: rest ∧ rest.takeWhile isWordChar ≠ [] ∧
      rest.dropWhile isWordChar = '(' :: body ∧ body = x ++ ')' :: u ∧
      (∀ c ∈ x, isLineTerminator c = false) ∧
      m = '@' :: (rest.takeWhile isWordChar ++ '(' :: (x ++ [')'])) := by
  obtain ⟨w, x, rfl, hw, hwc, hx⟩ := hp
  obtain ⟨u, rfl⟩ := hm
  obtain ⟨htake, hdrop⟩ := takeWhile_dropWhile_word (t := x ++ ')' :: u) hwc
  exact ⟨w ++ '(' :: (x ++ ')' :: u), x ++ ')' :: u, x, u, by simp, by rw [htake]; exact hw, hdrop,
    rfl, hx, by rw [htake]⟩

/-- What `matchAnnotation` finds: `@`, a run of word characters followed by `(`, and what
`closeParen` finds after the `(`. -/
theorem matchAnnotation_eq_some {s m after : List Char}
    (h : matchAnnotation s = some (m, after)) :
    ∃ rest body x, s = '@' :: rest ∧ rest.dropWhile isWordChar = '(' :: body ∧
      closeParen body = some (x, after) ∧
      m = '@' :: (rest.takeWhile isWordChar ++ '(' :: (x ++ [')'])) := by
  unfold matchAnnotation at h
  split at h
  · rename_i rest
    split at h
    · rename_i body hbody
      split at h
      · cases h
      · cases hr : closeParen body with
        | none => simp [hr] at h
        | some r =>
          simp only [hr, Option.map_some', Option.some.injEq, Prod.mk.injEq] at h
          obtain ⟨rfl, rfl⟩ := h
          exact ⟨rest, body, r.1, rfl, hbody, hr, rfl⟩
    · cases h
  · cases h

/-- `matchAnnotation` returns the shortest prefix that `@\w+\(.*?\)` matches. -/
theorem matchAnnotation_firstMatch {s m after : List Char}
    (h : matchAnnotation s = some (m, after)) : FirstMatch AnnotationPattern (· ≤ ·) s m := by
  obtain ⟨hann, hs⟩ := matchAnnotation_spec h
  refine ⟨hs ▸ List.prefix_append _ _, hann.annotationPattern, fun m' hm' hp' => ?_⟩
  obtain ⟨rest, body, x, rfl, hbody, hx, rfl⟩ := matchAnnotation_eq_some h
  obtain ⟨hbx, hxc⟩ := closeParen_spec hx
  obtain ⟨rest', body', x', u', hrest, -, hbody', hb', -, rfl⟩ := annotationPattern_prefix hm' hp'
  obtain rfl := (List.cons.inj hrest).2.symm
  obtain rfl : body' = body := List.cons.inj (hbody'.symm.trans hbody) |>.2
  have hlen := length_le_of_first_paren (fun c hc => (hxc c hc).1) (hbx.symm.trans hb')
  simp only [List.length_cons, List.length_append, List.length_singleton]
  omega

/-- `matchAnnotation` fails only where `@\w+\(.*?\)` matches no prefix. -/
theorem not_annotationPattern_of_eq_none {s : List Char} (h : matchAnnotation s = none) :
    ∀ m, m <+: s → ¬ AnnotationPattern m := by
  intro m hm hp
  obtain ⟨rest, body, x, u, rfl, hw, hbody, rfl, hx, -⟩ := annotationPattern_prefix hm hp
  simp only [ matchAnnotation, hbody, if_neg hw, Option.map_eq_none'] at h
  exact closeParen_ne_of_eq_none h hx rfl

/-! ## The matches of `@\w+\(.*?\)` -/

theorem visits_annotationsFrom {fuel : Nat} {s : List Char} (h : s.length ≤ fuel) :
    Visits AnnotationPattern (· ≤ ·) s (annotationsFrom fuel s) := by
  induction fuel, s using annotationsFrom.induct with
  | case1 s =>
    cases s with
    | nil => exact .nil
    | cons => simp at h
  | case2 fuel => exact .nil
  | case3 fuel c rest r hr ih =>
    have hlt := length_lt_of_matchAnnotation hr
    simp only [annotationsFrom, hr]
    refine .take (matchAnnotation_firstMatch hr) ?_
    rw [(matchAnnotation_spec hr).2, List.drop_left]
    exact ih (by simp only [List.length_cons] at h hlt; omega)
  | case4 fuel c rest hr ih =>
    simp only [annotationsFrom, hr]
    exact .skip (not_annotationPattern_of_eq_none hr)
      (ih (by simp only [List.length_cons] at h; omega))

/-- **`annotations` is `sregex_iterator` over `@\w+\(.*?\)`.**  For every text, the list of matches
`main` loops over is exactly the list the iterator visits by the standard's definition: from the
start and then from the end of each match, the search moves to the first position where
`@\w+\(.*?\)` matches a prefix of the rest (`@`, word characters, `(`, characters other than line
terminators, `)`), and there reports the shortest such prefix. -/
theorem annotations_eq_iff_visits (s : List Char) (ms : List (List Char)) :
    annotations s = ms ↔ Visits AnnotationPattern (· ≤ ·) s ms := by
  have hv : Visits AnnotationPattern (· ≤ ·) s (annotations s) := visits_annotationsFrom le_rfl
  exact ⟨fun h => h ▸ hv, Visits.unique (fun _ _ => Nat.le_antisymm) not_annotationPattern_nil hv⟩

/-! ## The matches of `\w+` -/

/-- In the middle of a run of word characters, `wordsAux` finishes the run and goes on from its
end. -/
theorem wordsAux_of_ne_nil {cur : List Char} (hcur : cur ≠ []) (l : List Char) :
    wordsAux cur l = (cur.reverse ++ l.takeWhile isWordChar) :: words (l.dropWhile isWordChar) := by
  induction l generalizing cur with
  | nil => simp [wordsAux, hcur, words]
  | cons d l ih =>
    by_cases hd : isWordChar d
    · rw [wordsAux, if_pos hd, ih (List.cons_ne_nil _ _)]
      simp [List.takeWhile_cons, List.dropWhile_cons, hd]
    · simp [wordsAux, hd, hcur, words, List.takeWhile_cons, List.dropWhile_cons]

theorem words_cons_of_isWordChar {c : Char} (hc : isWordChar c) (rest : List Char) :
    words (c :: rest) =
      (c :: rest).takeWhile isWordChar :: words ((c :: rest).dropWhile isWordChar) := by
  rw [words, wordsAux, if_pos hc, wordsAux_of_ne_nil (List.cons_ne_nil _ _)]
  simp [List.takeWhile_cons, List.dropWhile_cons, hc]

theorem words_cons_of_not_isWordChar {c : Char} (hc : isWordChar c = false) (rest : List Char) :
    words (c :: rest) = words rest := by
  simp [words, wordsAux, hc]

/-- A prefix whose characters all satisfy `p` is a prefix of the longest one. -/
private theorem prefix_takeWhile {p : Char → Bool} :
    ∀ {m l : List Char}, m <+: l → (∀ c ∈ m, p c) → m <+: l.takeWhile p
  | [], _, _, _ => List.nil_prefix
  | _ :: _, [], h, _ => absurd (List.prefix_nil.1 h) (List.cons_ne_nil _ _)
  | c :: m, d :: l, h, hp => by
    obtain ⟨rfl, hml⟩ := List.cons_prefix_cons.1 h
    rw [List.takeWhile_cons_of_pos (hp c (.head _))]
    exact List.cons_prefix_cons.2 ⟨rfl, prefix_takeWhile hml fun x hx => hp x (.tail _ hx)⟩

private theorem drop_length_takeWhile (p : Char → Bool) (l : List Char) :
    l.drop (l.takeWhile p).length = l.dropWhile p := by
  induction l with
  | nil => rfl
  | cons c l ih => by_cases h : p c <;> simp [List.takeWhile_cons, List.dropWhile_cons, h, ih]

/-- The run of word characters at a position is the longest prefix that `\w+` matches. -/
theorem firstMatch_takeWhile {c : Char} (hc : isWordChar c) (rest : List Char) :
    FirstMatch WordPattern (· ≥ ·) (c :: rest) ((c :: rest).takeWhile isWordChar) :=
  ⟨List.takeWhile_prefix _,
    ⟨by simp [List.takeWhile_cons, hc], fun _ hx => List.mem_takeWhile_imp hx⟩,
    fun _ hm hp => (prefix_takeWhile hm hp.2).length_le⟩

theorem visits_words : ∀ s : List Char, Visits WordPattern (· ≥ ·) s (words s)
  | [] => .nil
  | c :: rest => by
    by_cases hc : isWordChar c
    · rw [words_cons_of_isWordChar hc]
      refine .take (firstMatch_takeWhile hc rest) ?_
      rw [drop_length_takeWhile]
      exact visits_words _
    · rw [words_cons_of_not_isWordChar (by simpa using hc)]
      refine .skip (fun m hm hp => ?_) (visits_words rest)
      rcases List.prefix_cons_iff.1 hm with rfl | ⟨t, rfl, -⟩
      · exact hp.1 rfl
      · exact hc (hp.2 c (.head _))
termination_by s => s.length
decreasing_by
  all_goals simp_wf
  rw [List.dropWhile_cons_of_pos hc]
  exact Nat.lt_succ_of_le (List.dropWhile_suffix _).length_le

/-- **`words` is `sregex_iterator` over `\w+`.**  For every text, the list `words` returns is
exactly the list of matches the iterator visits by the standard's definition: from the start and
then from the end of each match, the search moves to the first position where a word character
stands, and there reports the longest run of word characters. -/
theorem words_eq_iff_visits (s : List Char) (ms : List (List Char)) :
    words s = ms ↔ Visits WordPattern (· ≥ ·) s ms :=
  ⟨fun h => h ▸ visits_words s,
    Visits.unique (fun _ _ h₁ h₂ => Nat.le_antisymm h₂ h₁) (fun h => h.1 rfl) (visits_words s)⟩

end SgeMonorepo.ShaderPacker
