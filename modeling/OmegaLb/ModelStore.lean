import OmegaLb.FilePath
import OmegaLb.GoRuntime
import OmegaLb.Json

/-! The store of model_store.go: registry.json and the model files, with every way in which the
file system may fail a call. A path is the file that Clean takes it to. -/
namespace OmegaLb.ModelStore
open GoText (Bytes ascii)
open Utf8 (coerce)
open FilePath (clean join)

structure ModelVersion where
  version : Bytes
  path : Bytes
  stage : Bytes
  checksum : Bytes
  createdAt : Int
  deriving DecidableEq, Repr

/-- What is read back: a string that is not UTF-8 is coerced as it is written. -/
def ModelVersion.stored (mv : ModelVersion) : ModelVersion where
  version := coerce mv.version
  path := coerce mv.path
  stage := coerce mv.stage
  checksum := coerce mv.checksum
  createdAt := mv.createdAt

/-- The content of registry.json, as json.Unmarshal takes it. -/
inductive Registry where
  | malformed (cause : Bytes)
  | versions (all : List ModelVersion)

structure Store where
  basePath : Bytes
  registry : Option Registry
  files : Bytes → Option Bytes

/-- sort.Slice by CreatedAt, newest first. It is not stable. -/
structure Sorter where
  run : List ModelVersion → List ModelVersion
  perm : ∀ all, (run all).Perm all
  newestFirst : ∀ all, (run all).Pairwise fun a b => b.createdAt ≤ a.createdAt

/-! ### Errors -/

inductive CopyError where
  | openSrc (src cause : Bytes)
  | openDst (dst cause : Bytes)
  | copy (src dst cause : Bytes)
  deriving DecidableEq, Repr

def CopyError.text : CopyError → Bytes
  | .openSrc src cause => ascii "open src " ++ src ++ ascii ": " ++ cause
  | .openDst dst cause => ascii "open dst " ++ dst ++ ascii ": " ++ cause
  | .copy src dst cause =>
    ascii "copy " ++ src ++ [32, 0xE2, 0x86, 0x92, 32] ++ dst ++ ascii ": " ++ cause

inductive StoreError where
  | alreadyExists (version : Bytes)
  | mkdir (dir cause : Bytes)
  | push (cause : CopyError)
  | notFound (version : Bytes)
  | checksum (version cause : Bytes)
  | mismatch (version stored got : Bytes)
  | readRegistry (cause : Bytes)
  | parseRegistry (cause : Bytes)
  | writeTmp (cause : Bytes)
  | rename (cause : Bytes)
  deriving DecidableEq, Repr

def StoreError.text : StoreError → Bytes
  | .alreadyExists version => ascii "model store: version " ++ version ++
      ascii " already exists; bump the version or delete it first"
  | .mkdir dir cause => ascii "model store: mkdir " ++ dir ++ ascii ": " ++ cause
  | .push cause => ascii "model store push: " ++ cause.text
  | .notFound version => ascii "model store: version " ++ version ++ ascii " not found"
  | .checksum version cause =>
    ascii "model store pull " ++ version ++ ascii ": checksum error: " ++ cause
  | .mismatch version stored got => ascii "model store pull " ++ version ++
      ascii ": checksum mismatch (stored=" ++ stored ++ ascii ", got=" ++ got ++
      ascii "); file may be corrupted or tampered with"
  | .readRegistry cause => ascii "model store: read registry: " ++ cause
  | .parseRegistry cause => ascii "model store: parse registry: " ++ cause
  | .writeTmp cause => ascii "model store: write registry tmp: " ++ cause
  | .rename cause => ascii "model store: atomic rename registry: " ++ cause

/-! ### The registry -/

/-- One use of the registry. A cause makes that call of the file system fail. -/
structure RegistryIO where
  read : Option Bytes := none
  sort : Sorter
  writeTmp : Option Bytes := none
  rename : Option Bytes := none

def Store.list (s : Store) (io : RegistryIO) : Except StoreError (List ModelVersion) :=
  match io.read with
  | some cause => .error (.readRegistry cause)
  | none =>
    match s.registry with
    | none => .ok []
    | some (.malformed cause) => .error (.parseRegistry cause)
    | some (.versions all) => .ok (io.sort.run (all.map ModelVersion.stored))

/-- `all, _ := s.List()` -/
def Store.listOrNil (s : Store) (io : RegistryIO) : List ModelVersion :=
  match s.list io with
  | .error _ => []
  | .ok all => all

def Store.writeRegistry (s : Store) (io : RegistryIO) (versions : List ModelVersion) :
    Store × Option StoreError :=
  match io.writeTmp with
  | some cause => (s, some (.writeTmp cause))
  | none =>
    match io.rename with
    | some cause => (s, some (.rename cause))
    | none => ({ s with registry := some (.versions versions) }, none)

def upsert (mv : ModelVersion) : List ModelVersion → List ModelVersion
  | [] => [mv]
  | existing :: rest =>
    if existing.version = mv.version then mv :: rest else existing :: upsert mv rest

def Store.upsertRegistry (s : Store) (io : RegistryIO) (mv : ModelVersion) : Store × Option StoreError :=
  s.writeRegistry io (upsert mv (s.listOrNil io))

def setStage (version newStage : Bytes) : List ModelVersion → List ModelVersion
  | [] => []
  | mv :: rest =>
    if mv.version = version then { mv with stage := newStage } :: rest
    else mv :: setStage version newStage rest

def Store.promote (s : Store) (io : RegistryIO) (version newStage : Bytes) : Store × Option StoreError :=
  match s.list io with
  | .error err => (s, some err)
  | .ok all =>
    if all.any (·.version = version) then s.writeRegistry io (setStage version newStage all)
    else (s, some (.notFound version))

/-! ### The model files -/

section Digest
variable (sha256 : Bytes → Bytes)

/-- hex.EncodeToString of the digest -/
def checksumOf (content : Bytes) : Bytes :=
  (sha256 content).flatMap fun b => [Json.hexDigit (b.toNat / 16), Json.hexDigit (b.toNat % 16)]

def noSuchFile : Bytes := ascii "no such file or directory"

structure CopyIO where
  openSrc : Option Bytes := none
  openDst : Option Bytes := none
  /-- The copy stops after so many bytes. -/
  copy : Option (Nat × Bytes) := none

def CopyIO.written (io : CopyIO) (content : Bytes) : Bytes :=
  match io.copy with
  | none => content
  | some (n, _) => content.take n

/-- What there is to copy once the destination is open, and by that truncated. -/
def Store.source (s : Store) (src dst : Bytes) : Option Bytes :=
  (s.files (clean src)).map fun content => if clean src = clean dst then [] else content

def Store.writeFile (s : Store) (path content : Bytes) : Store :=
  { s with files := Function.update s.files (clean path) (some content) }

def Store.copyAndChecksum (s : Store) (io : CopyIO) (src dst : Bytes) : Store × Except CopyError Bytes :=
  match io.openSrc with
  | some cause => (s, .error (.openSrc src cause))
  | none =>
    match s.source src dst with
    | none => (s, .error (.openSrc src noSuchFile))
    | some content =>
      match io.openDst with
      | some cause => (s, .error (.openDst dst cause))
      | none =>
        let s := s.writeFile dst (io.written content)
        match io.copy with
        | some (_, cause) => (s, .error (.copy src dst cause))
        | none => (s, .ok (checksumOf sha256 content))

def Store.checksumFile (s : Store) (fails : Option Bytes) (path : Bytes) : Except Bytes Bytes :=
  match fails with
  | some cause => .error cause
  | none =>
    match s.files (clean path) with
    | none => .error noSuchFile
    | some content => .ok (checksumOf sha256 content)

/-! ### Push and Pull -/

structure PushIO where
  existing : RegistryIO
  mkdir : Option Bytes := none
  copy : CopyIO := {}
  registry : RegistryIO
  now : Int

def Store.destPath (s : Store) (version : Bytes) : Bytes :=
  join (join s.basePath version) (ascii "model.onnx")

def Store.push (s : Store) (io : PushIO) (version stage srcPath : Bytes) :
    Store × Except StoreError ModelVersion :=
  if (s.listOrNil io.existing).any (·.version = version) then (s, .error (.alreadyExists version))
  else
    match io.mkdir with
    | some cause => (s, .error (.mkdir (join s.basePath version) cause))
    | none =>
      let destPath := s.destPath version
      match s.copyAndChecksum sha256 io.copy srcPath destPath with
      | (s, .error cause) => (s, .error (.push cause))
      | (s, .ok checksum) =>
        let mv := { version, path := destPath, stage, checksum, createdAt := io.now }
        match s.upsertRegistry io.registry mv with
        | (s, some err) => (s, .error err)
        | (s, none) => (s, .ok mv)

def Store.pull (s : Store) (io : RegistryIO) (openModel : Option Bytes) (version : Bytes) :
    Go (Except StoreError ModelVersion) :=
  match s.list io with
  | .error err => .ok (.error err)
  | .ok all =>
    match all.find? (·.version = version) with
    | none => .ok (.error (.notFound version))
    | some mv =>
      match s.checksumFile sha256 openModel mv.path with
      | .error cause => .ok (.error (.checksum version cause))
      | .ok got =>
        if got ≠ mv.checksum then do
          let stored ← goSlice mv.checksum 0 8
          let got ← goSlice got 0 8
          return .error (.mismatch version stored got)
        else .ok (.ok mv)

end Digest

def newLocalModelStore (basePath : Bytes) (files : Bytes → Option Bytes) : Store := ⟨basePath, none, files⟩

end OmegaLb.ModelStore
