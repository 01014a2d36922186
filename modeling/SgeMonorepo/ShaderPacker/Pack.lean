import SgeMonorepo.ShaderPacker.Annotations
import SgeMonorepo.ShaderPacker.Name

/-!
# Compiling the entries and writing the package

`Compile` (lines 192-261) hands the shader without its annotations to dxc once per entry, and
`PackShaders` (lines 153-190) builds the package in memory and writes it to the output file.  Both
talk to the world outside the program, which is an oracle here: `Dxc` answers the calls `Compile`
makes, and a `FileSystem` answers `create_directories` and the `ofstream`.

* `compile`: the code dxc produced, or how the program ends.  A failed creation of the library, the
  compiler or the source blob fails an `assert`, which aborts; the `IDxcOperationResult` and the blob
  that `GetResult` fills in are used without a null check.  Whether dxc reports success (the
  `HRESULT` of `Compile`, then `GetStatus`) decides only whether the error buffer is printed: a failed
  compilation goes on to `GetResult`, and the code it gives is packed like any other.
* `packShaders`: `create_directories(output_path)` throws when it fails, and the `assert` of line
  187 aborts when the file does not open.  When `output_path` is the output file itself, which `main`
  makes it for an output file without a separator, the file is the directory just made and cannot be
  opened (`packShaders_self`).

What `cout` prints is not modelled, nor the FlatBuffers encoding of the package: `.packed` records
what the package holds and where it is written.
-/

namespace SgeMonorepo.ShaderPacker

/-- `shader_packer_util::GetTargetProfile`.  The `default` branch cannot be reached: `ShaderType`
has these six values only. -/
def getTargetProfile : ShaderType → String
  | .vertex => "vs_6_0"
  | .pixel => "ps_6_0"
  | .geometry => "gs_6_0"
  | .hull => "hs_6_0"
  | .domain => "ds_6_0"
  | .compute => "cs_6_0"

/-! ## `Compile` -/

/-- What dxc answers to the calls `Compile` makes for one entry. -/
structure DxcAnswer where
  /-- `DxcCreateInstance(CLSID_DxcLibrary, ...)` succeeds. -/
  library : Bool
  /-- `DxcCreateInstance(CLSID_DxcCompiler, ...)` succeeds. -/
  compiler : Bool
  /-- `CreateBlobWithEncodingFromPinned` succeeds. -/
  blob : Bool
  /-- The `IDxcOperationResult` that `compiler->Compile` sets, if any, and the blob that its
  `GetResult` sets, if any. -/
  result : Option (Option (List UInt8))
deriving DecidableEq

/-- dxc: its answers, given the source text, the entry point, the target profile and the source name
that `Compile` passes. -/
abbrev Dxc := List Char → List Char → String → List Char → DxcAnswer

/-- `Compile(shader, entry, target_profile, shader_path_file_name)`: the code it stores in
`entry.shader`, which is the blob `GetResult` gives, or how the program ends. -/
def compile (dxc : Dxc) (shader : List Char) (entry : SShaderEntry) (targetProfile : String)
    (shaderPathFileName : List Char) : Except Fault (List UInt8) :=
  let a := dxc shader entry.name targetProfile shaderPathFileName
  if !a.library then .error (.assertFailed "Fail to create dxc instance!")
  else if !a.compiler then .error (.assertFailed "Fail to create dxc instance!")
  else if !a.blob then .error (.assertFailed "Fail to create shader blob!")
  else match a.result with
    | some (some code) => .ok code
    | _ => .error .nullDeref

/-- Lines 327-330: `Compile` for each entry in turn, with its type's target profile; each entry
gets the code dxc produced for it. -/
def compileAll (dxc : Dxc) (newshader shaderPathFileName : List Char) :
    List SShaderEntry → Except Fault (List (SShaderEntry × List UInt8))
  | [] => .ok []
  | e :: rest => do
    let code ← compile dxc newshader e (getTargetProfile e.type) shaderPathFileName
    let codes ← compileAll dxc newshader shaderPathFileName rest
    pure ((e, code) :: codes)

/-- When every `Compile` returns, the entries keep their order, each with the code dxc gave it. -/
theorem compileAll_ok {dxc : Dxc} {newshader path : List Char} {es : List SShaderEntry}
    {cs : List (SShaderEntry × List UInt8)} (h : compileAll dxc newshader path es = .ok cs) :
    cs.map Prod.fst = es ∧
      ∀ p ∈ cs, compile dxc newshader p.1 (getTargetProfile p.1.type) path = .ok p.2 := by
  induction es generalizing cs with
  | nil => cases h; simp
  | cons e rest ih =>
    simp only [compileAll, bind, Except.bind] at h
    split at h
    · cases h
    · rename_i code hcode
      split at h
      · cases h
      · rename_i codes hcodes
        cases h
        obtain ⟨hfst, hcode'⟩ := ih hcodes
        exact ⟨by simp [hfst], by simpa [hcode] using hcode'⟩

/-! ## `PackShaders` -/

/-- How `main` ends. -/
inductive MainResult
  /-- `return code`, with nothing written. -/
  | exit (code : Nat)
  /-- The package `name`, holding the entries with their code, is written to `file`; then
  `return 0`. -/
  | packed (entries : List (SShaderEntry × List UInt8)) (name file : List Char)
  /-- An `assert` aborts, or undefined behaviour. -/
  | fault (f : Fault)
  /-- An exception leaves `main`, and the program ends in `std::terminate`. -/
  | uncaught (e : Exception)
deriving DecidableEq

/-- The file system as `PackShaders` finds it: whether `create_directories(dir)` succeeds, and
whether, once it has, `ofstream(file, binary)` opens `file`.  A directory is not a file `ofstream`
can open, so the directory just made never opens. -/
structure FileSystem where
  createDirectories : List Char → Bool
  opens : List Char → List Char → Bool
  not_opens_dir : ∀ dir, opens dir dir = false

/-- `PackShaders(shader_entries, shader_name, output_path, output_file_name)`, and the `return 0`
of `main` that follows it. -/
def packShaders (fs : FileSystem) (entries : List (SShaderEntry × List UInt8))
    (shaderName outputPath outputFileName : List Char) : MainResult :=
  if !fs.createDirectories outputPath then .uncaught .filesystemError
  else if !fs.opens outputPath outputFileName then .fault (.assertFailed "Cannot create file stream!")
  else .packed entries shaderName outputFileName

/-- When the output file is the directory `create_directories` makes, `PackShaders` throws or
aborts, and writes nothing. -/
theorem packShaders_self (fs : FileSystem) (entries : List (SShaderEntry × List UInt8))
    (name dir : List Char) :
    packShaders fs entries name dir dir =
      if fs.createDirectories dir then .fault (.assertFailed "Cannot create file stream!")
      else .uncaught .filesystemError := by
  unfold packShaders
  cases fs.createDirectories dir <;> simp [fs.not_opens_dir]

end SgeMonorepo.ShaderPacker
