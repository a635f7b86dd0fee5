import Monomorph.Engine.Rearrange

/-!
# Mocks

To replace a function in tests, it and all of its instances are annotated. Only functions that a
user has written can be mocked; other targets are reported and passed over.

## Main definitions

* `MockReport`: what has been annotated and what has been refused.
* `Run.instrumentMocks`: annotates functions and their instances.
-/

namespace Monomorph

/-- The outcome of annotating mocks. -/
structure MockReport where
  /-- The declarations that got the annotation. -/
  instrumented : List DeclId := []
  /-- The targets that cannot be mocked. -/
  rejected : List DeclId := []
deriving DecidableEq, Repr, Inhabited

namespace Run

/-- The name of the annotation. -/
def mockAnnotation : String := "mock"

/-- Reports a problem. -/
def report (d : Diagnostic) : Run Unit :=
  modify fun e => { e with diagnostics := e.diagnostics.emit d }

/-- Reports a target that cannot be mocked. -/
def reportUnsupported (target : Decl) : Run Unit :=
  report
    { severity := .error
      code := Diagnostic.mockUnsupported
      message := "cannot mock `" ++ target.displayName ++
        "`: only user-declared functions can be mocked"
      help := some "mock the function that uses this declaration instead"
      span := target.span }

/-- Reports a target that is mocked already. -/
def reportRepeated (target : Decl) : Run Unit :=
  report
    { severity := .warning
      code := Diagnostic.mockRepeated
      message := "`" ++ target.displayName ++ "` is already mocked"
      span := target.span }

variable (make : Instantiator) (fuel : Nat)

/-- Annotates a declaration and rearranges the instance it belongs to. -/
def annotateMock (d : DeclId) : Run Unit := do
  modifyDecl d fun decl =>
    { decl with annotations := decl.annotations ++ [{ name := mockAnnotation }] }
  let registry := (← get).registry
  if registry.isInstance d then
    let _ ← rearrange make fuel ((registry.ownerOf? d).getD d)

/-- Annotates the declarations that are not annotated yet, and lists them. If the target itself is
annotated already, that is reported. -/
def annotateMocks (target : DeclId) : List DeclId → Run (List DeclId)
  | [] => return []
  | d :: rest => do
    let decl ← decl d
    if decl.hasAnnotation mockAnnotation then
      if d = target then reportRepeated decl
      annotateMocks target rest
    else
      annotateMock make fuel d
      return d :: (← annotateMocks target rest)

/-- Annotates functions and all of their instances. -/
def instrumentMocks : List DeclId → Run MockReport
  | [] => return {}
  | target :: rest => do
    let decl ← decl target
    if !decl.isFunc || decl.attrs.compilerAdded then
      reportUnsupported decl
      let others ← instrumentMocks rest
      return { others with rejected := target :: others.rejected }
    else
      let e ← get
      let template := e.templateOf target
      let done ← annotateMocks make fuel target (template :: e.registry.instancesOf template)
      let others ← instrumentMocks rest
      return { others with instrumented := done ++ others.instrumented }

end Run

end Monomorph
