import Monomorph.Engine.Canonical

/-!
# Shapes

The shape of an instance is a text with its name and the canonical signatures of its members. The
shape that an instance ought to have can be told from the template and the substitution alone; if it
differs from the shape of an instance of an earlier build, the template has changed.

## Main definitions

* `Engine.memberShape?`: the signature of a member under a substitution.
* `Engine.shape?`: the shape of an instance.
* `Engine.expectedShape?`: the shape that a fresh instance would have.
-/

namespace Monomorph

namespace Engine

variable (e : Engine)

/-- The text of a type under a substitution, in canonical form. -/
def shapeTy? (s : Subst) (t : Ty) : Option String := e.package.showTy? (e.canonical (s.apply t))

/-- The text of the type of a parameter. -/
def shapeParam? (s : Subst) (d : DeclId) : Option String := do
  match (← e.package.decl? d).kind with
  | .var _ ty _ => e.shapeTy? s ty
  | _ => return ""

/-- The signature of a member under a substitution. -/
def memberShape? (s : Subst) (member : DeclId) : Option String := do
  let decl ← e.package.decl? member
  match decl.kind with
  | .func params ret _ =>
    let params ← params.mapM (e.shapeParam? s)
    return "func " ++ decl.name ++ "(" ++ ", ".intercalate params ++ ") -> " ++
      (← e.shapeTy? s ret)
  | .var _ ty _ => return "var " ++ decl.name ++ ": " ++ (← e.shapeTy? s ty)
  | kind => return kind.label ++ " " ++ decl.name

/-- The shape of an instance. -/
def shape? (inst : DeclId) : Option String := do
  let decl ← e.package.decl? inst
  let members ← decl.kind.members.mapM (e.memberShape? {})
  return "; ".intercalate (decl.displayName :: members)

/-- The shape of a fresh instance of a key. Members with type parameters of their own are not part
of it. -/
def expectedShape? (key : InstanceKey) : Option String := do
  let name ← key.mangle? e.package
  let decl ← e.package.decl? key.template
  let members ← e.package.filterDecls? (!·.hasTypeParams) decl.kind.members
  return "; ".intercalate (name :: (← members.mapM (e.memberShape? key.subst)))

end Engine

end Monomorph
