import Monomorph.Proofs.Instances.Labels
import Monomorph.Proofs.Instances.Searches
import Monomorph.Proofs.Instances.Vouching

/-!
# What an instance calls for

Making an instance leads to requests for further instances: for the one that it belongs to, for those in
its types and code, and for the extensions of a type if these are attached at once. All of this is told by
the package and the key alone. It is written down here in terms of the engine as it was started, in which
there are no instances: there every type is in canonical form, every request names its template, and the
base types of a receiver are read off the package.

## Main definitions

* `Engine.requestKeys`, `Engine.typeKeys`, `Engine.extensionKeys`, `Engine.exprKeys`: what a request, a
  type, the extensions of a type, and an expression call for.
* `Engine.Calls`: one key calls for another one.
* `Engine.Complete`: a set of keys that contains whatever its keys call for.

## Main results

* `Engine.Begins.requestKeys_self`: the request for a key in normal form asks for the key.
-/

namespace Monomorph

open Run (withTypeArgs)

/-- The target of an expression in the template `g` is no mere part of it, which is copied along without
being registered. -/
def Package.RefersBeyond (p : Package) (g : DeclId) (tree : Package.Subtree) (expr : Expr) : Prop :=
  ∀ c, expr.kind.target? = some c → c ∈ tree.decls → c ≠ g → p.IsMember c

namespace Engine

/-! ### Demands -/

section Demands

variable (b : Engine)

/-- The key that a request asks for, unless it asks for a declaration of the package. -/
def requestKeys (d : DeclId) (s : Subst) : Set InstanceKey :=
  {k | b.normalize? d s = some (.instanceOf k)}

/-- The key that an application asks for when it is rearranged. -/
def namedKeys (package : String) (d : DeclId) (args : List Ty) : Set InstanceKey :=
  {k | args ≠ [] ∧ (∀ a ∈ args, a.isConcrete = true) ∧ b.accessible? package d = some true ∧
    ∃ decl s, b.package.decl? d = some decl ∧ Subst.ofArgs decl.ownParams args = .ok s ∧
      k ∈ b.requestKeys d s}

mutual

/-- The keys that a type asks for when it is rearranged. -/
def typeKeys (package : String) : Ty → Set InstanceKey
  | .named d args => typesKeys package args ∪ b.namedKeys package d args
  | .tuple items => typesKeys package items
  | .func params ret => typesKeys package params ∪ typeKeys package ret
  | .prim _ | .param _ | .invalid => ∅

/-- The keys that several types ask for. -/
def typesKeys (package : String) : List Ty → Set InstanceKey
  | [] => ∅
  | t :: ts => typeKeys package t ∪ typesKeys package ts

end

/-- The extension applies to the type under the binding. -/
def Extended (t : Ty) (ext : DeclId) (binding : Subst) : Prop :=
  (∃ exts, b.matchingExtensions? t = some exts ∧ ext ∈ exts) ∧
    ∃ decl, b.package.decl? ext = some decl ∧
      decl.Admits (b.package.Grants b.package.Derives) t binding

/-- The key of an extension, if it applies to the type. -/
def attachKeys (ext : DeclId) (t : Ty) : Set InstanceKey :=
  {k | ∃ binding, b.Extended t ext binding ∧ k ∈ b.requestKeys ext binding}

/-- The keys of the extensions that apply to a concrete type. -/
def extensionKeys (t : Ty) : Set InstanceKey :=
  {k | t.isConcrete = true ∧ ∃ ext, k ∈ b.attachKeys ext t}

/-- The key that a reference asks for, in an instance under the substitution `s`. -/
def refKeys (package : String) (s : Subst) (c : DeclId) (typeArgs : List Ty) : Set InstanceKey :=
  {k | b.package.isGeneric? c = some true ∧ b.accessible? package c = some true ∧
    ∃ decl scope, b.package.decl? c = some decl ∧ b.package.scopeParams? c = some scope ∧
      (withTypeArgs (s.restrict scope) decl.ownParams typeArgs).isConcrete = true ∧
      k ∈ b.requestKeys c (withTypeArgs (s.restrict scope) decl.ownParams typeArgs)}

/-- The key that an access to an ordinary member asks for. -/
def memberKeys (package : String) (s : Subst) (owner : Ty) (c : DeclId) (typeArgs : List Ty) :
    Set InstanceKey :=
  {k | b.package.isGeneric? c = some true ∧ b.accessible? package c = some true ∧
    ∃ decl parent found, b.package.decl? c = some decl ∧ decl.parent = some parent ∧
      b.package.Searches parent [] [owner] found ∧
      (withTypeArgs (found.getD s) decl.ownParams typeArgs).isConcrete = true ∧
      k ∈ b.requestKeys c (withTypeArgs (found.getD s) decl.ownParams typeArgs)}

/-- The substitution of the instance that a request for an extension is answered with. -/
def hostSubst (ext : DeclId) (binding : Subst) : Subst :=
  match b.normalize? ext binding with
  | some (.instanceOf key) => key.subst
  | _ => {}

/-- The key that an access to a member of an extension asks for if the member has type parameters of its
own. -/
def hostedKeys (owner : Ty) (c : DeclId) (typeArgs : List Ty) : Set InstanceKey :=
  {k | ∃ decl ext binding s, b.package.decl? c = some decl ∧ decl.parent = some ext ∧
    b.Extended owner ext binding ∧ decl.hasTypeParams = true ∧ typeArgs ≠ [] ∧
    (∀ a ∈ typeArgs, a.isConcrete = true) ∧ Subst.ofArgs decl.ownParams typeArgs = .ok s ∧
    k ∈ b.requestKeys c (s.compose (b.hostSubst ext binding))}

/-- The keys that an access to a member of an extension asks for, along with those of all extensions of the
receiver. -/
def extensionMemberKeys (owner : Ty) (c : DeclId) (typeArgs : List Ty) : Set InstanceKey :=
  b.extensionKeys owner ∪ b.hostedKeys owner c typeArgs

/-- The declaration is a member of an extension. -/
def InExtension (c : DeclId) : Prop :=
  ∃ decl parent owner, b.package.decl? c = some decl ∧ decl.parent = some parent ∧
    b.package.decl? parent = some owner ∧ owner.kind.isExtension = true

/-- The keys that a member access asks for. -/
def accessKeys (package : String) (s : Subst) (owner : Ty) (c : DeclId) (typeArgs : List Ty) :
    Set InstanceKey :=
  {k | (b.InExtension c ∧ owner.isConcrete = true) ∧ k ∈ b.extensionMemberKeys owner c typeArgs ∨
    ¬ (b.InExtension c ∧ owner.isConcrete = true) ∧ k ∈ b.memberKeys package s owner c typeArgs}

/-- The keys that the target of an expression asks for. -/
def targetKeys (package : String) (s : Subst) : ExprKind → Set InstanceKey
  | .ref c typeArgs => b.refKeys package s c typeArgs
  | .member _ owner c typeArgs => b.accessKeys package s owner c typeArgs
  | _ => ∅

/-- The keys that an expression of the template of a key asks for. -/
def exprKeys (package : String) (key : InstanceKey) (tree : Package.Subtree) (expr : Expr) :
    Set InstanceKey :=
  b.typesKeys package (expr.types.map key.subst.apply) ∪
    {k | b.package.RefersBeyond key.template tree expr ∧
      k ∈ b.targetKeys package key.subst (expr.retype key.subst.apply).kind}

/-- What a key calls for when its instance is made. -/
inductive Calls (key : InstanceKey) : InstanceKey → Prop where
  /-- The instance that it belongs to, unless it belongs to a mere part of an instance. -/
  | owner {decl : Decl} {c : DeclId} {k : InstanceKey} (hd : b.package.decl? key.template = some decl)
    (hc : decl.parent = some c) (hkind : b.package.Leads c ∨ b.package.IsMember c)
    (hk : k ∈ b.requestKeys c key.subst) : Calls key k
  /-- The members that are made with it. -/
  | member {tree : Package.Subtree} {c : DeclId} (hleads : b.package.Leads key.template)
    (htree : b.package.templateSubtree? key.template = some tree) (hc : c ∈ tree.decls)
    (hne : c ≠ key.template) (hmember : b.package.IsMember c) : Calls key ⟨c, key.subst⟩
  /-- What the types of its declarations ask for. -/
  | decl {tree : Package.Subtree} {c : DeclId} {root decl : Decl} {k : InstanceKey}
    (hleads : b.package.Leads key.template)
    (htree : b.package.templateSubtree? key.template = some tree)
    (hroot : b.package.decl? key.template = some root) (hc : c ∈ tree.decls)
    (hd : b.package.decl? c = some decl)
    (hk : k ∈ b.typesKeys root.package (decl.kind.types.map key.subst.apply)) : Calls key k
  /-- What its expressions ask for. -/
  | expr {tree : Package.Subtree} {x : ExprId} {root : Decl} {expr : Expr} {k : InstanceKey}
    (hleads : b.package.Leads key.template)
    (htree : b.package.templateSubtree? key.template = some tree)
    (hroot : b.package.decl? key.template = some root) (hx : x ∈ tree.exprs)
    (hexpr : b.package.expr? x = some expr) (hk : k ∈ b.exprKeys root.package key tree expr) :
    Calls key k
  /-- The extensions of a type, if they are attached at once. -/
  | attached {root : Decl} {k : InstanceKey} (hleads : b.package.Leads key.template)
    (hroot : b.package.decl? key.template = some root) (heager : b.config.eagerExtensions = true)
    (htype : root.kind.isType = true)
    (hk : k ∈ b.extensionKeys (.named key.template (root.ownParams.map key.subst.value))) : Calls key k

/-- Whatever one of the keys calls for is one of them. -/
def Complete (K : Set InstanceKey) : Prop := ∀ k ∈ K, ∀ k', b.Calls k k' → k' ∈ K

end Demands

/-! ### The start -/

/-- The engine has been started on a package as the checker leaves it, in which no type is nested in
another declaration, and types apply types at the top only. -/
structure Begins (w : Setting) (b : Engine) : Prop where
  wellFormed : w.package.WellFormed
  strict : w.strict = true
  flat : w.package.FlatTypes
  top : ∀ d ∈ w.package.topLevel, d.index < w.package.decls.size
  firm : b.access.Firm
  started : ∃ config access, b = start w.package config access .reserved

namespace Begins

variable {w : Setting} {b : Engine} (h : Begins w b)
include h

theorem tidy : w.Tidy := by
  obtain ⟨p, strict⟩ := w
  exact h.wellFormed.tidy strict

theorem orderly : b.Orderly w := by
  obtain ⟨config, access, rfl⟩ := h.started
  exact orderly_start h.tidy config access

theorem package_eq : b.package = w.package := by
  obtain ⟨config, access, rfl⟩ := h.started
  rfl

/-- There are no instances. -/
theorem keyOf (d : DeclId) : b.registry.keyOf? d = none := by
  obtain ⟨config, access, rfl⟩ := h.started
  rfl

theorem templateOf (d : DeclId) : b.templateOf d = d := by
  rw [Engine.templateOf, h.keyOf]

/-- All types are in canonical form. -/
theorem canonical (t : Ty) : b.canonical t = t :=
  h.orderly.settled.canonical_eq_self (Ty.Handles.bare (Ty.Applies.handles
    (fun d _ (_ : True) => spell_eq_none_of_keyOf (h.keyOf d)) (Ty.applies_of_forall (fun _ _ => trivial) t)))

/-! ### Requests -/

/-- The key that a request asks for. -/
theorem mem_requestKeys {d : DeclId} {s : Subst} {k : InstanceKey} :
    k ∈ b.requestKeys d s ↔ ∃ scope, w.package.scopeParams? d = some scope ∧
      k = ⟨d, b.arguments s scope⟩ ∧ (b.arguments s scope).isEmpty = false := by
  have hrequested : b.requested d s = s := by rw [requested, h.keyOf]
  rw [requestKeys, Set.mem_ofPred_eq]
  constructor
  · intro hn
    obtain ⟨scope, hscope, htemplate, hsubst, hne⟩ := normalize?_eq_instanceOf hn
    rw [h.templateOf] at htemplate
    rw [htemplate, h.package_eq] at hscope
    rw [hrequested] at hsubst
    refine ⟨scope, hscope, ?_, ?_⟩
    · rw [← hsubst, ← htemplate]
    · rw [← hsubst]
      simpa using hne
  · rintro ⟨scope, hscope, rfl, hne⟩
    have hscope' : scope.isEmpty = false := by
      rw [Bool.eq_false_iff]
      intro hnil
      rw [List.isEmpty_iff.1 hnil] at hne
      have hempty : (b.arguments s []).isEmpty = true :=
        Subst.isEmpty_iff.2 fun q => by rw [get?_arguments, if_neg List.not_mem_nil]
      rw [hempty] at hne
      cases hne
    rw [normalize?_eq, h.templateOf, h.package_eq, hscope, Option.bind_some, hrequested, hscope', hne]
    rfl

/-- Substitutions that replace the parameters in scope alike ask for the same key. -/
theorem requestKeys_congr {d : DeclId} {s s' : Subst} {scope : List ParamId}
    (hscope : w.package.scopeParams? d = some scope) (hs : ∀ q ∈ scope, s.get? q = s'.get? q) :
    b.requestKeys d s = b.requestKeys d s' := by
  have harguments : b.arguments s scope = b.arguments s' scope := Subst.ext_get? fun q => by
    rw [get?_arguments, get?_arguments]
    split
    · rename_i hq
      rw [hs q hq]
    · rfl
  ext k
  rw [h.mem_requestKeys, h.mem_requestKeys]
  refine exists_congr fun scope' => and_congr_right fun hscope' => ?_
  obtain rfl := Option.some.inj (hscope.symm.trans hscope')
  rw [harguments]

/-- The request for a key in normal form asks for the key. -/
theorem requestKeys_self {c : DeclId} {s : Subst} {scope : List ParamId}
    (hscope : w.package.scopeParams? c = some scope) (hne : ¬ s.isEmpty = true)
    (hnormal : ∀ q v, s.get? q = some v → v ≠ .param q ∧ q ∈ scope) :
    b.requestKeys c s = {⟨c, s⟩} := by
  have harguments : b.arguments s scope = s := Subst.ext_get? fun q => by
    rw [get?_arguments]
    cases hq : s.get? q with
    | none => split <;> rfl
    | some v =>
      obtain ⟨hself, hmem⟩ := hnormal q v hq
      rw [if_pos hmem, Option.map_some, h.canonical, Option.filter_some_pos (by simpa using hself)]
  ext k
  rw [h.mem_requestKeys, Set.mem_singleton_iff]
  constructor
  · rintro ⟨scope', hscope', rfl, -⟩
    obtain rfl := Option.some.inj (hscope.symm.trans hscope')
    rw [harguments]
  · rintro rfl
    exact ⟨scope, hscope, by rw [harguments], by simpa [harguments] using hne⟩

/-! ### What an application, a reference and an access ask for -/

section Keys

variable {package : String} {s : Subst} {c : DeclId} {args : List Ty} {decl : Decl}
  (hd : w.package.decl? c = some decl)
include hd

/-- What an application of an accessible declaration to concrete arguments asks for. -/
theorem namedKeys_eq {s : Subst} (hne : args ≠ []) (hconcrete : ∀ a ∈ args, a.isConcrete = true)
    (haccess : b.accessible? package c = some true) (hs : Subst.ofArgs decl.ownParams args = .ok s) :
    b.namedKeys package c args = b.requestKeys c s := by
  rw [← h.package_eq] at hd
  ext k
  constructor
  · rintro ⟨-, -, -, decl', s', hd', hs', hk⟩
    obtain rfl := Option.some.inj (hd.symm.trans hd')
    rwa [Except.ok.inj (hs.symm.trans hs')]
  · exact fun hk => ⟨hne, hconcrete, haccess, decl, s, hd, hs, hk⟩

variable (hgeneric : b.package.isGeneric? c = some true) (haccess : b.accessible? package c = some true)
include hgeneric haccess

/-- What a reference to an accessible generic declaration asks for. -/
theorem refKeys_eq {scope : List ParamId} (hscope : w.package.scopeParams? c = some scope) :
    b.refKeys package s c args =
      {k | (withTypeArgs (s.restrict scope) decl.ownParams args).isConcrete = true ∧
        k ∈ b.requestKeys c (withTypeArgs (s.restrict scope) decl.ownParams args)} := by
  rw [← h.package_eq] at hd hscope
  ext k
  constructor
  · rintro ⟨-, -, decl', scope', hd', hscope', hk⟩
    obtain rfl := Option.some.inj (hd.symm.trans hd')
    obtain rfl := Option.some.inj (hscope.symm.trans hscope')
    exact hk
  · exact fun hk => ⟨hgeneric, haccess, decl, scope, hd, hscope, hk⟩

/-- What an access to an accessible generic member asks for. -/
theorem memberKeys_eq {parent : DeclId} (hparent : decl.parent = some parent) {owner : Ty}
    {found : Option Subst} (hfound : w.package.Searches parent [] [owner] found) :
    b.memberKeys package s owner c args =
      {k | (withTypeArgs (found.getD s) decl.ownParams args).isConcrete = true ∧
        k ∈ b.requestKeys c (withTypeArgs (found.getD s) decl.ownParams args)} := by
  rw [← h.package_eq] at hd hfound
  ext k
  constructor
  · rintro ⟨-, -, decl', parent', found', hd', hparent', hfound', hk⟩
    obtain rfl := Option.some.inj (hd.symm.trans hd')
    obtain rfl := Option.some.inj (hparent.symm.trans hparent')
    rwa [hfound.unique hfound']
  · exact fun hk => ⟨hgeneric, haccess, decl, parent, found, hd, hparent, hfound, hk⟩

end Keys

end Begins

end Engine

end Monomorph
