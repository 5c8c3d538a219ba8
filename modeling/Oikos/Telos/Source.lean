/-
The modules that `telos-parser` returns, with the parts that the verifier does not look
at, and the backend that a module is routed to.
-/
import Oikos.Telos.Syntax

namespace Oikos.Telos

/-- What may stand behind `=` in an attribute. -/
inductive Literal where
  | int (n : Int)
  | ident (s : Name)
deriving DecidableEq

/-- An argument of an attribute: a word alone, or a word with its value. -/
inductive Arg where
  | flag (f : Name)
  | kv (key : Name) (value : Literal)
deriving DecidableEq

/-- `@name(args)` in front of a module or a function. -/
structure Attribute where
  name : Name
  args : List Arg
deriving DecidableEq

/-- A field of a struct or of an enum's variant. -/
structure FieldDef where
  name : Name
  ty : Ty

structure StructDef where
  name : Name
  fields : List FieldDef

structure VariantDef where
  name : Name
  fields : List FieldDef

structure EnumDef where
  name : Name
  variants : List VariantDef

/-- Whether a parameter is declared `mut`. -/
inductive ParamMutability where
  | immutable
  | mutable
deriving Repr, DecidableEq

/-- A parameter as it is written; the verifier does not see `mut`. -/
structure SourceParam extends Param where
  mutability : ParamMutability

/-- A function as the parser returns it, with the positions of its clauses. -/
structure SourceFunc where
  attributes : List Attribute
  name : Name
  params : List SourceParam
  returnTy : Option Ty
  requires : List Expr
  ensures : List Expr
  body : List Stmt
  elided : Bool
  span : Span
  requiresSpans : List Span
  ensuresSpans : List Span

/-- An item of a module. -/
inductive SourceItem where
  | invariant (inv : Invariant)
  | func (f : SourceFunc)
  | struct (sd : StructDef)
  | enum (ed : EnumDef)

/-- A module as the parser returns it. -/
structure SourceModule where
  attributes : List Attribute
  name : Name
  items : List SourceItem

/-! ### Items by kind -/

def SourceItem.func? : SourceItem → Option SourceFunc
  | .func f => some f
  | _ => none

def SourceModule.funcs (m : SourceModule) : List SourceFunc :=
  m.items.filterMap SourceItem.func?

def SourceItem.invariant? : SourceItem → Option Invariant
  | .invariant inv => some inv
  | _ => none

def SourceModule.invariants (m : SourceModule) : List Invariant :=
  m.items.filterMap SourceItem.invariant?

/-- Whether `@eject` keeps the body as an opaque block. -/
def SourceFunc.isEjected (f : SourceFunc) : Bool :=
  f.attributes.any fun a => a.name.text == "eject"

/-! ### Routing -/

/-- The backends. -/
inductive Target where
  | rust
  | go
  | python
deriving Repr, DecidableEq

def Target.text : Target → String
  | .rust => "rust"
  | .go => "go"
  | .python => "python"

/-- Where a module's state lives, as `@state` says. -/
inductive StorageClass where
  | persistent
  | ephemeral
deriving Repr, DecidableEq

/-- The flags that Go's garbage collector conflicts with. -/
inductive DiagnosticKind where
  | realTimeGoConflict
  | zeroAllocGoConflict
deriving Repr, DecidableEq

/-- A complaint about a route, which is taken all the same. -/
structure RoutingDiagnostic where
  kind : DiagnosticKind
  module : String
  message : String
deriving Repr, DecidableEq

/-- Where a module goes and why. -/
structure Route where
  target : Target
  storage : StorageClass
  reason : String
deriving Repr, DecidableEq

/-- The boundary flags that ask for Rust. -/
def rustFlags : List String :=
  ["cpu_bound", "zero_allocation", "crypto", "real_time"]

def goFlags : List String :=
  ["network_io", "high_concurrency", "distributed", "high_latency"]

def pythonFlags : List String :=
  ["ml_training", "python", "jax"]

def Arg.flag? : Arg → Option Name
  | .flag f => some f
  | .kv _ _ => none

/-- The words of all `@boundary` attributes. -/
def boundaryFlags (attrs : List Attribute) : List String :=
  (attrs.filter fun a => a.name.text == "boundary").flatMap fun a =>
    (a.args.filterMap Arg.flag?).map Name.text

def storageClass (word : String) : Option StorageClass :=
  match word with
  | "persistent" => some .persistent
  | "ephemeral" => some .ephemeral
  | _ => none

/-- A class by its word alone, or as the value of `class`. -/
def Arg.storageClass : Arg → Option StorageClass
  | .flag f => Telos.storageClass f.text
  | .kv key (.ident v) => if key.text = "class" then Telos.storageClass v.text else none
  | .kv _ (.int _) => none

/-- The first argument of `@state` that names a storage class. -/
def parseStorageClass (attrs : List Attribute) : StorageClass :=
  (((attrs.filter fun a => a.name.text == "state").flatMap Attribute.args).findSome?
    Arg.storageClass).getD .ephemeral

/-- The complaint about a flag that Go cannot honour. -/
def goConflict (kind : DiagnosticKind) (moduleName reason : String) : RoutingDiagnostic where
  kind := kind
  module := moduleName
  message := "module \x60" ++ moduleName ++ "\x60 " ++ reason ++
    "; see ARCHITECTURE.md § Go GC Determinism)"

/-- `{:?}` of a list of words. -/
def debugWords (words : List String) : String :=
  "[" ++ ", ".intercalate (words.map fun w => "\"" ++ w ++ "\"") ++ "]"

/-- Python's flags win over Go's, these over Rust's; without any the module goes to Rust. -/
def routeChecked (attrs : List Attribute) (moduleName : String) : Route × List RoutingDiagnostic :=
  let flags := boundaryFlags attrs
  let storage := parseStorageClass attrs
  let pythonHits := flags.filter (pythonFlags.contains ·)
  let goHits := flags.filter fun f => !pythonFlags.contains f && goFlags.contains f
  let rustHits := flags.filter fun f =>
    !pythonFlags.contains f && !goFlags.contains f && rustFlags.contains f
  if !pythonHits.isEmpty then
    (⟨.python, storage, "boundary flags " ++ debugWords pythonHits ++ " routed to Python backend"⟩,
      [])
  else if !goHits.isEmpty then
    (⟨.go, storage, "boundary flags " ++ debugWords goHits ++ " routed to Go backend"⟩,
      (if rustHits.contains "real_time" then
        [goConflict .realTimeGoConflict moduleName
          ("has \x60real_time\x60 flag but is routed to Go (GC is non-deterministic; " ++
            "FADEC/PREEMPT_RT targets must use Rust")]
      else []) ++
      (if rustHits.contains "zero_allocation" then
        [goConflict .zeroAllocGoConflict moduleName
          ("has \x60zero_allocation\x60 flag but is routed to Go " ++
            "(Go allocates via GC; zero-allocation guarantees cannot be upheld")]
      else []))
  else if !rustHits.isEmpty then
    (⟨.rust, storage, "boundary flags " ++ debugWords rustHits ++ " routed to Rust backend"⟩, [])
  else
    (⟨.rust, storage, "no explicit boundary flags; defaulting to Rust compute backend"⟩, [])

def route (attrs : List Attribute) : Route :=
  (routeChecked attrs "").1

end Oikos.Telos
