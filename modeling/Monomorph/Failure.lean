import Monomorph.Instance.Key
import Monomorph.Instance.State
import Monomorph.Text.Quoted

/-!
# Failures

A request fails silently when it depends on a declaration that an earlier stage has reported; it
fails with an internal error when the package contradicts what the checker has promised. The
remaining two outcomes are no answers at all: a handle that leads out of the arena, and a
computation that needs more steps than it was given.

## Main definitions

* `InternalError`: the causes of internal errors, with their wording in `InternalError.message`.
* `Failure`: why a request has no result.
* `Subst.ofArgs`: pairs parameters with arguments, or reports an arity mismatch.
-/

namespace Monomorph

/-- Something that should be registered and is not. -/
inductive MissingMapping where
  /-- A request is completed that was never begun. -/
  | unreserved (key : InstanceKey)
  /-- An instance is invalidated that does not exist. -/
  | unknownInstance (inst : DeclId)
  /-- The copy of a template went to another slot than the one set aside for it. -/
  | ignoredSlot (reserved written : DeclId)
  /-- Making an owner did not make its member. -/
  | unregisteredMember (name : String)
deriving DecidableEq

/-- Contradictions between the package and what the checker has promised. -/
inductive InternalError where
  | duplicateRegistration (key : InstanceKey) (existing incoming : DeclId)
  | missingMapping (what : MissingMapping)
  /-- A declaration got too many or too few type arguments; without parameters it is not named. -/
  | arityMismatch (decl : Option DeclId) (expected found : Nat)
  | illegalTransition (src dst : SlotState)
  | unresolvedDispatch (ty method : String)
  | ambiguousDispatch (ty method : String) (candidates : List String)
  | recursionLimit (limit : Nat) (name : String)
  | danglingReference (inst target : String)
  | unknownDecl (d : DeclId)
deriving DecidableEq

/-- The wording of what is missing. -/
def MissingMapping.message : MissingMapping → String
  | .unreserved key => "completing unreserved key " ++ key.text
  | .unknownInstance inst => "invalidating unknown instance " ++ inst.label
  | .ignoredSlot reserved written =>
    "cloner ignored reserved slot " ++ reserved.label ++ " (wrote " ++ written.label ++ ")"
  | .unregisteredMember name =>
    "member " ++ name ++ " was not registered by its owner's instantiation"

/-- The wording of an internal error. -/
def InternalError.message : InternalError → String
  | .duplicateRegistration key existing incoming =>
    "同一实例化键注册了两个不同的声明: " ++ key.text ++ " -> " ++ existing.label ++ " / " ++
      incoming.label
  | .missingMapping what => "缺少预期存在的映射: " ++ what.message
  | .arityMismatch decl expected found =>
    "类型实参数量不匹配: " ++ (decl.map DeclId.label).getD "<none>" ++ " 需要 " ++
      toString expected ++ " 个, 实际 " ++ toString found ++ " 个"
  | .illegalTransition src dst => "非法的实例化状态转换: " ++ src.name ++ " -> " ++ dst.name
  | .unresolvedDispatch ty method => "抽象方法 " ++ method ++ " 在类型 " ++ ty ++ " 中没有实现"
  | .ambiguousDispatch ty method candidates =>
    "抽象方法 " ++ method ++ " 在类型 " ++ ty ++ " 中有多个不兼容的实现: " ++
      Quoted.list candidates
  | .recursionLimit limit name =>
    "实例化深度超过上限 " ++ toString limit ++ "（疑似循环替换）: " ++ name
  | .danglingReference inst target =>
    "实例 " ++ inst ++ " 中存在指向泛型原型 " ++ target ++ " 的悬空引用"
  | .unknownDecl d => "未知声明: " ++ d.label

/-- Why a request has no result. -/
inductive Failure where
  /-- It depends on a declaration that is already known to be broken. -/
  | broken (d : DeclId)
  /-- The package is inconsistent. -/
  | internal (error : InternalError)
  /-- A handle leads out of the arena. -/
  | outsideArena
  /-- The computation was cut off. -/
  | outOfFuel
deriving DecidableEq

/-- The wording of a failure that is reported. -/
def Failure.message : Failure → String
  | .broken d => "声明 " ++ d.label ++ " 已损坏, 跳过实例化"
  | .internal error => "内部编译器错误: " ++ error.message
  | .outsideArena => "handle outside the arena"
  | .outOfFuel => "out of fuel"

/-- Pairs parameters with arguments by position. -/
def Subst.ofArgs (params : List ParamId) (args : List Ty) : Except InternalError Subst :=
  match Subst.ofArgs? params args with
  | some s => .ok s
  | none =>
    .error (.arityMismatch (params.head?.map (·.owner)) params.length args.length)

/-- Moves to another state along one of the transitions. -/
def SlotState.transition (src dst : SlotState) : Except InternalError SlotState :=
  if src.canBecome dst then .ok dst else .error (.illegalTransition src dst)

end Monomorph
