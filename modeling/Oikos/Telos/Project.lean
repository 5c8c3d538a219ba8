/-
The project made of modules: a text for each backend, with a bridge between Rust and
Go.  Every function is looked up by its bare name among the bodies of the outcomes.

Functions of one name: they share one body and one record of the proof, those of the
last outcome with that name.  With no two of them, every function has its own.
-/
import Oikos.Telos.Backends
import Oikos.Telos.Tampering

namespace Oikos.Telos

open List

/-! ### Bodies -/

/-- The body of an outcome is kept under the name of its function; a later one replaces
an earlier one. -/
def collectBodies (outcomes : List FuncOutcome) : Table String (List Stmt) :=
  outcomes.foldl (fun bodies o => bodies.insert o.funcName o.finalCandidate.stmts) .empty

def bodyOf (bodies : Table String (List Stmt)) (f : SourceFunc) : List Stmt :=
  (bodies.get f.name.text).getD f.body

def SourceModule.emission (bodies : Table String (List Stmt)) (m : SourceModule) : Emission where
  module := m
  functions := m.funcs.map fun f => (f, bodyOf bodies f)

def emissions (modules : List SourceModule) (outcomes : List FuncOutcome) : List Emission :=
  modules.map (SourceModule.emission (collectBodies outcomes))

def generateProgram (order : TypeOrder) (modules : List SourceModule)
    (outcomes : List FuncOutcome) :
    String :=
  renderRust order (emissions modules outcomes)

/-! ### The bridge -/

structure FfiFunc where
  module : Name
  func : Name
  target : Target
  inputs : List InputParam
  returnsScalar : Bool

structure CParam where
  name : String
  pointer : Bool

namespace FfiFunc

def cName (f : FfiFunc) : String :=
  "telos_" ++ f.module.text ++ "_" ++ f.func.text

def cParams (f : FfiFunc) : List CParam :=
  f.inputs.flatMap fun
    | .scalar name => [⟨name.text, false⟩]
    | .struct name _ mutated fields =>
      fields.map fun fld => ⟨name.text ++ "_" ++ fld.text, mutated⟩

end FfiFunc

def CParam.cTy (p : CParam) : String :=
  if p.pointer then "int64_t*" else "int64_t"

def CParam.rustCTy (p : CParam) : String :=
  if p.pointer then "*mut i64" else "i64"

def plan (modules : List Emission) : List FfiFunc :=
  modules.flatMap fun e =>
    let types := collectTypes e.module .empty
    let target := (route e.module.attributes).target
    e.functions.map fun (f, stmts) =>
      let analysis := analyzeFunc f stmts types
      { module := e.module.name
        func := f.name
        target := target
        inputs := analysis.inputs
        returnsScalar := analysis.scalarOut.isSome }

def genHeader (funcs : List FfiFunc) : String :=
  "/* Generated by tpt-telos. Automatic FFI bridge (C ABI). */\n" ++
    "#ifndef TELOS_FFI_H\n#define TELOS_FFI_H\n\n#include <stdint.h>\n\n" ++
    "/* Rust-generated functions, callable from Go. */\n" ++
    String.join ((funcs.filter (·.target == .rust)).map fun f =>
      let params := f.cParams.map fun p => p.cTy ++ " " ++ p.name
      (if f.returnsScalar then "int64_t" else "void") ++ " " ++ f.cName ++ "(" ++
        (if params.isEmpty then "void" else ", ".intercalate params) ++ ");\n") ++
    "\n#endif /* TELOS_FFI_H */\n"

def cell (name fld : Name) : String :=
  name.text ++ "_" ++ fld.text

def callText (f : FfiFunc) (pad call bind finish : String) : String :=
  pad ++ (if f.returnsScalar then bind else "") ++ call ++ finish

def genRustExport (f : FfiFunc) : String :=
  "#[no_mangle]\npub extern \"C\" fn " ++ f.cName ++ "(" ++
    ", ".intercalate (f.cParams.map fun p => p.name ++ ": " ++ p.rustCTy) ++ ")" ++
      (if f.returnsScalar then " -> i64" else "") ++ " \x7b\n" ++
    String.join (f.inputs.map fun
      | .scalar _ => ""
      | .struct name ty mutated fields =>
        "    let " ++ (if mutated then "mut " else "") ++ name.text ++ " = " ++ ty ++ " \x7b " ++
          ", ".intercalate (fields.map fun fld =>
            fld.text ++ ": " ++
              (if mutated then "unsafe \x7b *" ++ cell name fld ++ " \x7d" else cell name fld)) ++
            " \x7d;\n") ++
    callText f "    "
      (f.func.text ++ "(" ++ ", ".intercalate (f.inputs.map fun
        | .scalar name => name.text
        | .struct name _ mutated _ => (if mutated then "&mut " else "&") ++ name.text) ++ ")")
      "let __ret = " ";\n" ++
    String.join (f.inputs.map fun
      | .struct name _ true fields =>
        String.join (fields.map fun fld =>
          "    unsafe \x7b *" ++ cell name fld ++ " = " ++ name.text ++ "." ++
            fld.text ++ "; \x7d\n")
      | _ => "") ++
    (if f.returnsScalar then "    __ret\n" else "") ++ "\x7d\n"

def genRustGoWrapper (f : FfiFunc) : String :=
  "/// Safe wrapper: call the Go-generated `" ++ f.func.text ++ "` from Rust.\n" ++
    "pub fn call_go_" ++ f.func.text ++ "(" ++
      ", ".intercalate (f.inputs.flatMap fun
        | .scalar name => [name.text ++ ": i64"]
        | .struct name _ mutated fields =>
          fields.map fun fld => cell name fld ++ ": " ++ (if mutated then "&mut i64" else "i64")) ++
            ")" ++
      (if f.returnsScalar then " -> i64" else "") ++ " \x7b\n" ++
    "    unsafe \x7b " ++ f.cName ++ "(" ++
      ", ".intercalate (f.inputs.flatMap fun
        | .scalar name => [name.text]
        | .struct name _ mutated fields =>
          fields.map fun fld => cell name fld ++ (if mutated then " as *mut i64" else "")) ++
      ") \x7d\n" ++ "\x7d\n"

/-- What is written before and for the functions of a target, if there are any. -/
def exportSection (funcs : List FfiFunc) (title : String) (gen : FfiFunc → String) : String :=
  if funcs.isEmpty then "" else title ++ String.join (funcs.map fun f => gen f ++ "\n")

def genRust (funcs : List FfiFunc) : String :=
  "//! Generated by tpt-telos. Automatic FFI bridge (Rust side).\n" ++
    "//! Rust exports use the C ABI so Go can call them; Go functions are\n" ++
    "//! imported and wrapped in safe helpers so Rust can call them.\n" ++
    "#![allow(clippy::missing_safety_doc, unused_unsafe)]\n\n" ++ "use crate::*;\n\n" ++
    exportSection (funcs.filter (·.target == .rust))
      "// ===== Rust exports (callable from Go) =====\n\n" genRustExport ++
    exportSection (funcs.filter (·.target == .go))
      ("// ===== Go imports (callable from Rust) =====\n\n" ++ "extern \"C\" \x7b\n" ++
        String.join ((funcs.filter (·.target == .go)).map fun f =>
          "    fn " ++ f.cName ++ "(" ++
            ", ".intercalate (f.cParams.map fun p => p.name ++ ": " ++ p.rustCTy) ++ ")" ++
            (if f.returnsScalar then " -> i64" else "") ++ ";\n") ++ "\x7d\n\n") genRustGoWrapper

def genGoCallRust (f : FfiFunc) : String :=
  let wrapper := "CallRust" ++ exported f.func.text
  "// " ++ wrapper ++ " invokes the Rust-generated " ++ f.func.text ++
    " across the FFI boundary.\n" ++
    "func " ++ wrapper ++ "(" ++ ", ".intercalate (f.inputs.map goParam) ++ ")" ++
      (if f.returnsScalar then " int64" else "") ++ " \x7b\n" ++
    String.join (f.inputs.map fun
      | .struct name _ true fields =>
        String.join (fields.map fun fld =>
          "\tc_" ++ cell name fld ++ " := C.int64_t(" ++ name.text ++ "." ++
            exported fld.text ++ ")\n")
      | _ => "") ++
    callText f "\t"
      ("C." ++ f.cName ++ "(" ++ ", ".intercalate (f.inputs.flatMap fun
        | .scalar name => ["C.int64_t(" ++ name.text ++ ")"]
        | .struct name _ mutated fields =>
          fields.map fun fld =>
            if mutated then "&c_" ++ cell name fld
            else "C.int64_t(" ++ name.text ++ "." ++ exported fld.text ++ ")") ++ ")")
      "__ret := " "\n" ++
    String.join (f.inputs.map fun
      | .struct name _ true fields =>
        String.join (fields.map fun fld =>
          "\t" ++ name.text ++ "." ++ exported fld.text ++ " = int64(c_" ++ cell name fld ++ ")\n")
      | _ => "") ++
    (if f.returnsScalar then "\treturn int64(__ret)\n" else "") ++ "\x7d\n"

def genGoExport (f : FfiFunc) : String :=
  "//export " ++ f.cName ++ "\n" ++
    "func " ++ f.cName ++ "(" ++
      ", ".intercalate (f.cParams.map fun p =>
        p.name ++ " " ++ (if p.pointer then "*C.int64_t" else "C.int64_t")) ++ ")" ++
      (if f.returnsScalar then " C.int64_t" else "") ++ " \x7b\n" ++
    String.join (f.inputs.map fun
      | .scalar _ => ""
      | .struct name ty mutated fields =>
        "\t" ++ name.text ++ " := " ++ ty ++ "\x7b" ++
          ", ".intercalate (fields.map fun fld =>
            exported fld.text ++ ": int64(" ++ (if mutated then "*" else "") ++
              cell name fld ++ ")") ++
            "\x7d\n") ++
    callText f "\t"
      (exported f.func.text ++ "(" ++ ", ".intercalate (f.inputs.map fun
        | .scalar name => "int64(" ++ name.text ++ ")"
        | .struct name _ mutated _ => (if mutated then "&" else "") ++ name.text) ++ ")")
      "__ret := " "\n" ++
    String.join (f.inputs.map fun
      | .struct name _ true fields =>
        String.join (fields.map fun fld =>
          "\t*" ++ cell name fld ++ " = C.int64_t(" ++ name.text ++ "." ++
            exported fld.text ++ ")\n")
      | _ => "") ++
    (if f.returnsScalar then "\treturn C.int64_t(__ret)\n" else "") ++ "\x7d\n"

def genGo (funcs : List FfiFunc) (package : String) : String :=
  normalize
    ("// Generated by tpt-telos. Automatic FFI bridge (Go side).\n" ++
      "// Go wrappers call the Rust exports via cgo; //export shims expose Go\n" ++
      "// functions to Rust across the same C ABI.\n" ++ "package " ++ package ++ "\n\n" ++
      "/*\n#include <stdint.h>\n#include \"telos_ffi.h\"\n*/\nimport \"C\"\n\n" ++
      exportSection (funcs.filter (·.target == .rust))
        "// ===== Calls into Rust (cgo) =====\n\n" genGoCallRust ++
      exportSection (funcs.filter (·.target == .go))
        "// ===== Exports to Rust (cgo //export) =====\n\n" genGoExport)

/-! ### The project -/

structure GeneratedFile where
  path : String
  contents : String
deriving Repr, DecidableEq

structure Project where
  files : List GeneratedFile
  hasRust : Bool
  hasGo : Bool
  hasFfi : Bool
  hasPython : Bool
  diagnostics : List RoutingDiagnostic

def goPackage : String :=
  "gosvc"

def rustCargoToml (dual : Bool) : String :=
  "[package]\nname = \"generated_rust\"\nversion = \"0.1.0\"\nedition = \"2021\"\n" ++
    (if dual then "\n[lib]\ncrate-type = [\"staticlib\", \"rlib\"]\n" else "") ++
    "\n[dependencies]\n\n[workspace]\n"

def goMod : String :=
  "module telos/" ++ goPackage ++ "\n\ngo 1.21\n"

def usesJax (m : SourceModule) : Bool :=
  (boundaryFlags m.attributes).contains "jax"

def assemble (order : TypeOrder) (modules : List Emission) : Project :=
  let targeted (target : Target) :=
    modules.filter fun e => (route e.module.attributes).target == target
  let rustMods := targeted .rust
  let goMods := targeted .go
  let pyMods := targeted .python
  let hasRust := !rustMods.isEmpty
  let hasGo := !goMods.isEmpty
  let hasFfi := hasRust && hasGo
  let useJax := pyMods.any fun e => usesJax e.module
  let funcs := plan modules
  { files :=
      (if hasRust then
        [⟨"rust/src/lib.rs", renderRust order rustMods ++
          if hasFfi then "\npub mod ffi;\n" else ""⟩,
          ⟨"rust/Cargo.toml", rustCargoToml hasFfi⟩]
      else []) ++
      (if hasGo then
        [⟨"go/service.go", generateGoPackage goMods goPackage⟩, ⟨"go/go.mod", goMod⟩]
      else []) ++
      (if hasFfi then
        [⟨"rust/src/ffi.rs", genRust funcs⟩, ⟨"go/ffi.go", genGo funcs goPackage⟩,
          ⟨"go/telos_ffi.h", genHeader funcs⟩]
      else []) ++
      if !pyMods.isEmpty then
        [⟨"python/service.py", generatePythonPackage order pyMods useJax⟩,
          ⟨"python/requirements.txt", if useJax then "jax\n" else "# No runtime dependencies\n"⟩]
      else []
    hasRust := hasRust
    hasGo := hasGo
    hasFfi := hasFfi
    hasPython := !pyMods.isEmpty
    diagnostics := modules.flatMap fun e =>
      (routeChecked e.module.attributes e.module.name.text).2 }

def generateProject (order : TypeOrder) (modules : List SourceModule)
    (outcomes : List FuncOutcome) :
    Project :=
  assemble order (emissions modules outcomes)

structure Transpiled where
  module : SourceModule
  outcomes : List FuncOutcome
  named : outcomes.map FuncOutcome.funcName = module.funcs.map fun f => f.name.text

namespace Transpiled

def own (t : Transpiled) : Emission where
  module := t.module
  functions := t.module.funcs.zip (t.outcomes.map fun o => o.finalCandidate.stmts)

end Transpiled

def functionNames (program : List Transpiled) : List Name :=
  program.flatMap fun t => t.module.funcs.map SourceFunc.name

structure KeepsOwn (sha256 : List UInt8 → List UInt8) (secs : Nat) (source : List UInt8)
    (program : List Transpiled) (outcomes : List FuncOutcome) : Prop where
  program_eq : ∀ order, generateProgram order (program.map Transpiled.module) outcomes =
    renderRust order (program.map Transpiled.own)
  project_eq : ∀ order, generateProject order (program.map Transpiled.module) outcomes =
    assemble order (program.map Transpiled.own)
  records : (generateManifest sha256 secs source outcomes).functions.entries.Perm
    (outcomes.map fun o => (o.funcName, funcProof o))

/-! ### The last outcome of a name -/

theorem get_collectBodies (outcomes : List FuncOutcome) (name : String) :
    (collectBodies outcomes).get name =
      ((outcomes.filter (·.funcName == name)).getLast?).map fun o => o.finalCandidate.stmts := by
  induction outcomes using reverseRecOn with
  | nil => rfl
  | append_singleton outcomes o ih =>
    have hstep : collectBodies (outcomes ++ [o]) =
        (collectBodies outcomes).insert o.funcName o.finalCandidate.stmts := by
      rw [collectBodies, foldl_append]
      rfl
    rw [hstep, Table.get_insert, filter_append, ih]
    by_cases hname : name = o.funcName
    · simp [hname]
    · have hne : ¬o.funcName = name := fun h => hname h.symm
      simp [hname, hne]

theorem get_collectBodies_of_mem {outcomes : List FuncOutcome} {o : FuncOutcome}
    (h : (outcomes.map FuncOutcome.funcName).Nodup) (ho : o ∈ outcomes) :
    (collectBodies outcomes).get o.funcName = some o.finalCandidate.stmts := by
  obtain ⟨before, after, rfl⟩ := append_of_mem ho
  have hafter : ∀ o' ∈ after, (o'.funcName == o.funcName) = false := by
    intro o' ho'
    rw [beq_eq_false_iff_ne]
    intro heq
    rw [map_append, map_cons] at h
    have hcons := (nodup_append.mp h).2.1
    exact (nodup_cons.mp hcons).1 (heq ▸ mem_map_of_mem ho')
  have hnone : after.filter (·.funcName == o.funcName) = [] :=
    filter_eq_nil_iff.mpr fun o' ho' => by simp [hafter o' ho']
  rw [get_collectBodies, filter_append, filter_cons_of_pos (by simp), hnone,
    getLast?_concat]
  rfl

theorem map_bodyOf {bodies : Table String (List Stmt)} {funcs : List SourceFunc}
    {outcomes : List FuncOutcome}
    (hnamed : outcomes.map FuncOutcome.funcName = funcs.map fun f => f.name.text)
    (hbodies : ∀ o ∈ outcomes, bodies.get o.funcName = some o.finalCandidate.stmts) :
    (funcs.map fun f => (f, bodyOf bodies f)) =
      funcs.zip (outcomes.map fun o => o.finalCandidate.stmts) := by
  induction funcs generalizing outcomes with
  | nil => rfl
  | cons f funcs ih =>
    cases outcomes with
    | nil => cases hnamed
    | cons o outcomes =>
      obtain ⟨hname, hrest⟩ := cons.inj hnamed
      have hget : bodies.get f.name.text = some o.finalCandidate.stmts := by
        change o.funcName = f.name.text at hname
        rw [← hname]
        exact hbodies o mem_cons_self
      have hbody : bodyOf bodies f = o.finalCandidate.stmts := by
        rw [bodyOf, hget]
        rfl
      rw [map_cons, hbody, map_cons, zip_cons_cons,
        ih hrest fun o' ho' => hbodies o' (mem_cons_of_mem o ho')]

section Program

variable {sha256 : List UInt8 → List UInt8} {secs : Nat} {source : List UInt8}
  {program : List Transpiled} {outcomes : List FuncOutcome}

theorem nodup_funcName_iff (h : outcomes.Perm (program.flatMap Transpiled.outcomes)) :
    (outcomes.map FuncOutcome.funcName).Nodup ↔ (functionNames program).Nodup := by
  have htext : (program.flatMap Transpiled.outcomes).map FuncOutcome.funcName =
      (functionNames program).map Name.text := by
    rw [functionNames, map_flatMap, map_flatMap]
    refine congrArg (flatMap · program) (funext fun t => ?_)
    rw [t.named, map_map]
    rfl
  have hinj : Function.Injective Name.text := by
    rintro ⟨v, hv⟩ ⟨w, hw⟩ (rfl : v = w)
    rfl
  rw [(h.map FuncOutcome.funcName).nodup_iff, htext, nodup_map_iff hinj]

theorem emissions_eq (h : outcomes.Perm (program.flatMap Transpiled.outcomes))
    (hnodup : (outcomes.map FuncOutcome.funcName).Nodup) :
    emissions (program.map Transpiled.module) outcomes = program.map Transpiled.own := by
  rw [emissions, map_map]
  refine map_congr_left fun t ht => ?_
  have hbodies : ∀ o ∈ t.outcomes,
      (collectBodies outcomes).get o.funcName = some o.finalCandidate.stmts := fun o ho =>
    get_collectBodies_of_mem hnodup (h.mem_iff.mpr (mem_flatMap.mpr ⟨t, ht, ho⟩))
  rw [Function.comp_apply, SourceModule.emission, Transpiled.own, map_bodyOf t.named hbodies]

theorem perm_funcProofs (h : (outcomes.map FuncOutcome.funcName).Nodup) :
    (funcProofs outcomes).entries.Perm (outcomes.map fun o => (o.funcName, funcProof o)) := by
  have hfold : funcProofs outcomes = (outcomes.map fun o => (o.funcName, funcProof o)).foldl
      (fun functions p => functions.insert p.1 p.2) .empty := by
    rw [funcProofs, foldl_map]
  rw [hfold]
  refine OrdMap.perm_foldl_insert .empty ?_
  rw [map_map]
  exact h

theorem nodup_of_perm_funcProofs
    (h : (funcProofs outcomes).entries.Perm (outcomes.map fun o => (o.funcName, funcProof o))) :
    (outcomes.map FuncOutcome.funcName).Nodup := by
  have hkeys := (h.map Prod.fst).nodup_iff.mp (funcProofs outcomes).nodup_keys
  rw [map_map] at hkeys
  exact hkeys

/-- Every function has its own body and record exactly if no two functions of all modules
have the same name. -/
theorem keepsOwn_iff (h : outcomes.Perm (program.flatMap Transpiled.outcomes)) :
    KeepsOwn sha256 secs source program outcomes ↔ (functionNames program).Nodup := by
  rw [← nodup_funcName_iff h]
  constructor
  · intro hkeeps
    exact nodup_of_perm_funcProofs hkeeps.records
  · intro hnodup
    have heq := emissions_eq h hnodup
    exact
      { program_eq := fun order => congrArg (renderRust order) heq
        project_eq := fun order => congrArg (assemble order) heq
        records := perm_funcProofs hnodup }

end Program

/-! ### Two functions of one name -/

/-- The function `transfer` without parameters and contract. -/
def transferFunc : SourceFunc where
  attributes := []
  name := ⟨"transfer", by decide⟩
  params := []
  returnTy := none
  requires := []
  ensures := []
  body := []
  elided := true
  span := ⟨1, 1⟩
  requiresSpans := []
  ensuresSpans := []

/-- An outcome for `transfer` with a body that returns a number. -/
def transferOutcome (n : Int) (verified : Bool) : FuncOutcome where
  funcName := "transfer"
  agent := "static"
  iterations := []
  finalCandidate := ⟨[.ret (some (.int n))]⟩
  problem := { funcName := "transfer", funcSpan := ⟨1, 1⟩, premises := [], conclusions := [] }
  result := { funcName := "transfer", checks := [], allPassed := verified }
  verified := verified

/-- A module with nothing but the function `transfer`. -/
def transferModule (name : Name) (n : Int) (verified : Bool) : Transpiled where
  module := { attributes := [], name := name, items := [.func transferFunc] }
  outcomes := [transferOutcome n verified]
  named := rfl

/-- The modules `Bank` and `Vault`; only the `transfer` of the second one is verified. -/
def bankAndVault : List Transpiled :=
  [transferModule ⟨"Bank", by decide⟩ 1 false, transferModule ⟨"Vault", by decide⟩ 2 true]

/-- The function of `Bank` gets the body and the record of the one of `Vault`. -/
theorem bankAndVault_not_kept :
    [transferOutcome 1 false, transferOutcome 2 true].Perm
        (bankAndVault.flatMap Transpiled.outcomes) ∧
      ¬KeepsOwn id 0 [] bankAndVault [transferOutcome 1 false, transferOutcome 2 true] ∧
      (collectBodies [transferOutcome 1 false, transferOutcome 2 true]).get "transfer" =
        some [.ret (some (.int 2))] ∧
      ((funcProofs [transferOutcome 1 false, transferOutcome 2 true]).get "transfer").map
        FuncProof.verified = some true := by
  refine ⟨.refl _, fun hkeeps => ?_, ?_, ?_⟩
  · have hnodup := nodup_of_perm_funcProofs hkeeps.records
    exact absurd hnodup (by decide)
  · rw [get_collectBodies]
    rfl
  · rw [funcProofs, foldl_cons, foldl_cons, foldl_nil, OrdMap.get_insert,
      if_pos (by rfl)]
    rfl

theorem keepsOwn_bank :
    KeepsOwn id 0 [] [transferModule ⟨"Bank", by decide⟩ 1 false] [transferOutcome 1 false] ↔
      (functionNames [transferModule ⟨"Bank", by decide⟩ 1 false]).Nodup :=
  keepsOwn_iff (.refl _)

end Oikos.Telos
