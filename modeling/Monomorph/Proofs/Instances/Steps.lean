import Monomorph.Proofs.Instances.Drafts
import Monomorph.Proofs.Requests.Interfaces

/-!
# Steps between orderly states

Whatever an engine does in an orderly state comes down to a few kinds of steps: the draft of an
instance is added, the root of a draft moves into the instance of its owner, the types and targets of
a slot are reworded, an annotation is added, an instance is declared complete, or only the bookkeeping
changes. All invariants of runs are invariants of these steps.

A step is taken during a computation. It may change the slots that did not exist when the computation
began, and those existing ones that a patch lists.

## Main definitions

* `AccessRule.Steady`: the rules whose verdict on a declaration at the top stays the same.
* `Engine.Clean`: the types that rearranging leaves alone.
* `Engine.Whole`: the types in which no instance is a partial one.
* `Setting.Legal`: the types in which only types at the top are applied to arguments.
* `Engine.Rewords`: another spelling of a type.
* `Engine.Learns`: a state in which candidates have been noted at most.
* `Engine.Enlarges`: a state to which slots have been added.
* `Engine.Fastens`: an extension that applies to a type.
* `Engine.Housed`: an instance whose parent is the one that its key calls for.
* `Engine.Resolved`: an instance that calls for no more instances.
* `Engine.Step`: the steps.

## Main results

* `Engine.Step.orderly`: a step from an orderly state leads to an orderly state.
-/

namespace Monomorph

/-! ### What rearranging leaves alone -/

/-- What no step changes in a declaration. -/
def Decl.imprint (decl : Decl) : String × Attributes × List TypeParam × String × Option DeclId ×
    Option String × Span × Bool :=
  (decl.name, decl.attrs, decl.typeParams, decl.package, decl.origin, decl.mangled, decl.span,
    decl.broken)

/-- The verdict on a declaration at the top rests on what no computation changes in it. -/
def AccessRule.Steady (rule : AccessRule) : Prop :=
  ∀ (p p' : Package) (package : String) (d : DeclId) (decl decl' : Decl), p.decl? d = some decl →
    p'.decl? d = some decl' → decl.parent = none → decl'.parent = none →
    decl'.imprint = decl.imprint → rule p' package d = rule p package d

namespace Engine

/-- Nothing in a type that the package has access to is applied to concrete arguments. -/
def Clean (e : Engine) (package : String) (t : Ty) : Prop :=
  t.Everywhere fun d args => args ≠ [] → (∀ a ∈ args, a.isConcrete = true) →
    e.accessible? package d ≠ some true

/-- Declarations that call for no more instances. -/
def CleanDecls (e : Engine) (package : String) (ds : List DeclId) : Prop :=
  ∀ d ∈ ds, ∀ decl, e.package.decl? d = some decl → ∀ t ∈ decl.kind.types, e.Clean package t

/-- Expressions that call for no more instances. -/
def CleanExprs (e : Engine) (package : String) (xs : List ExprId) : Prop :=
  ∀ x ∈ xs, ∀ expr, e.package.expr? x = some expr → ∀ t ∈ expr.types, e.Clean package t

/-- The instances that stand in a type are those of concrete types. -/
def Whole (e : Engine) (t : Ty) : Prop :=
  t.Bare fun d => ∀ v, e.spell d = some v → v.isConcrete = true

end Engine

/-! ### Steps -/

/-- Only types at the top are applied to arguments. -/
def Setting.Legal (w : Setting) (t : Ty) : Prop :=
  t.Applies fun d n => n ≠ 0 → w.package.TopType d

namespace Engine

variable {w : Setting} {e e' : Engine}

/-- A type is spelled in another way. The types that are legal stay so, and they mean the same, also
when something is put in the place of their parameters. What called for no instances still does not, and
no partial instance is put in. -/
structure Rewords (w : Setting) (e : Engine) (t t' : Ty) : Prop where
  fits : t'.Applies (w.Fits e.package.decls.size)
  legal : w.Legal t → w.Legal t'
  applied : w.Legal t → ∀ s : Subst, e.canonical (s.apply t') = e.canonical (s.apply t)
  concrete : t'.isConcrete = t.isConcrete
  clean : w.strict = true → e.access.Steady → ∀ package, e.Clean package t → e.Clean package t'
  whole : w.Legal t → e.Whole t → e.Whole t'

theorem Rewords.canonical {t t' : Ty} (h : Rewords w e t t') (ht : w.Legal t) :
    e.canonical t' = e.canonical t := by
  rw [← Subst.empty_apply t', ← Subst.empty_apply t]
  exact h.applied ht .empty

/-- The parent of the instance `d` of a key is what the key calls for: the parent of the template if
nothing in scope of it is replaced, else the instance of that parent under the same replacements. -/
def Housed (w : Setting) (e : Engine) (key : InstanceKey) (d : DeclId) : Prop :=
  ∀ template c scope, w.package.decl? key.template = some template → template.parent = some c →
    w.package.scopeParams? c = some scope → ∃ decl owner, e.package.decl? d = some decl ∧
      decl.parent = some owner ∧ ((key.subst.restrict scope).isEmpty = true ∧ owner = c ∨
        (key.subst.restrict scope).isEmpty = false ∧
          e.registry.keyOf? owner = some { template := c, subst := key.subst.restrict scope })

/-- If only types at the top are applied to arguments, the types in the subtree of an instance call
for no more instances. -/
def Resolved (w : Setting) (e : Engine) (root : DeclId) : Prop :=
  w.strict = true → e.access.Steady → ∀ decl tree, e.package.decl? root = some decl →
    e.package.templateSubtree? root = some tree →
    e.CleanDecls decl.package tree.decls ∧ e.CleanExprs decl.package tree.exprs

/-- What has been noted as the candidates for a type is noted still, and what is new is right: these are
the extensions that match the type. -/
structure Learns (e e' : Engine) : Prop where
  kept : ∀ {canon exts}, e.extensions.candidates.get? canon = some exts →
    e'.extensions.candidates.get? canon = some exts
  matching : ∀ {canon exts}, e'.extensions.candidates.get? canon = some exts →
    e.extensions.candidates.get? canon = some exts ∨ e.matchingExtensions? canon = some exts

theorem Learns.of_eq (h : e'.extensions.candidates = e.extensions.candidates) : Learns e e' :=
  ⟨fun hk => h ▸ hk, fun hk => .inl (h ▸ hk)⟩

/-- Slots have been added to the state `e₀`, and what was there is still the same, as are the candidates
that have been noted. -/
structure Enlarges (e₀ e : Engine) : Prop extends Later e₀ e where
  decl : ∀ {d : DeclId}, d.index < e₀.package.decls.size → e.package.decl? d = e₀.package.decl? d
  header : e.package.header = e₀.package.header
  candidates : ∀ {canon exts}, e₀.extensions.candidates.get? canon = some exts →
    e.extensions.candidates.get? canon = some exts

/-- The extension may be attached to the type, with the given declaration as its instance: in an
earlier state the extension was found to apply to the type under a binding, and the declaration has
answered the request for the extension under this binding. -/
structure Fastens (w : Setting) (e : Engine) (ext : DeclId) (canon : Ty) (inst : DeclId) : Prop where
  ext_lt : ext.index < e.package.decls.size
  inst_lt : inst.index < e.package.decls.size
  templateOf_eq : e.templateOf inst = e.templateOf ext
  concrete : canon.isConcrete = true
  bound : ∃ e₀ b target, e₀.Orderly w ∧ Enlarges e₀ e ∧ e₀.Accepts ext canon b ∧
    e₀.normalize? ext b = some target ∧ e₀.Fulfills target inst e

/-- The steps of a computation that began with `n` declarations and `m` expressions. -/
inductive Step (w : Setting) (S : Patch) (n m : Nat) : Engine → Engine → Prop where
  /-- The bookkeeping changes; what is attached to types are extensions that apply to them, and the
  candidates for a type are those that match it. -/
  | note {e e' : Engine} (ha : Alike e e')
    (hattached : ∀ {ext canon inst}, e'.extensions.attached.get? (ext, canon) = some inst →
      e.extensions.attached.get? (ext, canon) = some inst ∨ Fastens w e ext canon inst)
    (hlearns : Learns e e') : Step w S n m e e'
  /-- The draft of an instance is added. -/
  | draft {e e' : Engine} {key : InstanceKey} {root : DeclId} {members : List InstanceKey}
    {tree : Package.Subtree} {table : Remap} (h : Draft w e key root members tree table e') :
    Step w S n m e e'
  /-- The root of a draft moves into the instance of its owner. -/
  | house {e : Engine} {key : InstanceKey} {slot : Slot} {decl : Decl}
    (hslot : e.registry.slots.get? key = some slot) (hstate : slot.state = .instantiating)
    (hleads : w.package.Leads key.template) (hn : n ≤ slot.decl.index)
    (hd : e.package.decl? slot.decl = some decl) (hparent : decl.parent ≠ none) (owner : DeclId) :
    Step w S n m e
      { e with package := e.package.setDecl slot.decl { decl with parent := some owner } }
  /-- The types of a declaration are reworded. -/
  | retype {e : Engine} {d : DeclId} {decl : Decl} {kind : DeclKind}
    (hd : e.package.decl? d = some decl) (hS : n ≤ d.index ∨ S.decl d)
    (hs : kind.skeleton = decl.kind.skeleton)
    (ht : List.Forall₂ (e.Rewords w) decl.kind.types kind.types) :
    Step w S n m e { e with package := e.package.setDecl d { decl with kind := kind } }
  /-- The types and the target of an expression are reworded. -/
  | reexpress {e : Engine} {x : ExprId} {expr expr' : Expr}
    (hx : e.package.expr? x = some expr) (hS : m ≤ x.index ∨ S.expr x)
    (hs : expr'.skeleton = expr.skeleton)
    (ht : List.Forall₂ (e.Rewords w) expr.types expr'.types)
    (htarget : ∀ c', expr'.kind.target? = some c' → c'.index < e.package.decls.size ∧
      ∃ c, expr.kind.target? = some c ∧ e.templateOf c' = e.templateOf c) :
    Step w S n m e { e with package := e.package.setExpr x expr' }
  /-- A declaration is annotated. -/
  | annotate {e : Engine} {d : DeclId} {decl : Decl} (hd : e.package.decl? d = some decl)
    (hS : S.note d) (annotations : List Annotation) :
    Step w S n m e
      { e with package := e.package.setDecl d { decl with annotations := annotations } }
  /-- A draft is declared complete. -/
  | finish {e : Engine} {keys : List InstanceKey} {slots : Assoc InstanceKey Slot}
    (hf : Registry.Finished keys e.registry.slots slots)
    (hsound : Sound { e with registry := { e.registry with slots := slots } })
    (hhoused : ∀ k ∈ keys, ∀ slot, e.registry.slots.get? k = some slot →
      w.package.Leads k.template → Housed w e k slot.decl)
    (hresolved : ∀ k ∈ keys, ∀ slot, e.registry.slots.get? k = some slot →
      w.package.Leads k.template → Resolved w e slot.decl) :
    Step w S n m e { e with registry := { e.registry with slots := slots } }

/-! ### Drawings in later states -/

/-- What the small steps have in common: no slots are added, and a slot keeps its shape. -/
structure Touches (w : Setting) (e e' : Engine) : Prop where
  settled : e'.Settled
  rooted : e'.Rooted w.package
  keyOf : ∀ d, e'.registry.keyOf? d = e.registry.keyOf? d
  decls_size : e'.package.decls.size = e.package.decls.size
  exprs_size : e'.package.exprs.size = e.package.exprs.size
  decl : ∀ {d decl decl'}, e.package.decl? d = some decl → e'.package.decl? d = some decl' →
    decl'.kind.skeleton = decl.kind.skeleton ∧ decl'.typeParams = decl.typeParams ∧
    decl'.broken = decl.broken ∧ decl'.origin = decl.origin ∧
    (decl'.parent = decl.parent ∨ (decl'.parent = none ↔ decl.parent = none) ∧
      ∃ k, e.registry.keyOf? d = some k ∧ w.package.Leads k.template)
  expr : ∀ {x expr expr'}, e.package.expr? x = some expr → e'.package.expr? x = some expr' →
    expr'.skeleton = expr.skeleton
  declTypes : ∀ {d decl'}, e'.package.decl? d = some decl' → ∀ t ∈ decl'.kind.types,
    t.Applies (w.Fits e.package.decls.size)
  exprTypes : ∀ {x expr'}, e'.package.expr? x = some expr' → ∀ t ∈ expr'.types,
    t.Applies (w.Fits e.package.decls.size)
  target : ∀ {x expr' c}, e'.package.expr? x = some expr' → expr'.kind.target? = some c →
    c.index < e.package.decls.size
  attached : ∀ {ext canon inst}, e'.extensions.attached.get? (ext, canon) = some inst →
    ext.index < e.package.decls.size ∧ inst.index < e.package.decls.size ∧
      e.templateOf inst = e.templateOf ext

theorem Touches.templateOf_eq (h : Touches w e e') (d : DeclId) :
    e'.templateOf d = e.templateOf d := by
  unfold templateOf
  rw [h.keyOf]

/-- Drawings survive small steps. -/
theorem Drawn.of_touches (hp : w.package.Forest) (h : Touches w e e') {key : InstanceKey}
    {tree : Package.Subtree} {table : Remap} (hd : Drawn w.package e key tree table) :
    Drawn w.package e' key tree table := by
  refine
    { tree_eq := hd.tree_eq
      leads := hd.leads
      pinned := hd.pinned
      outside := hd.outside
      decl_ge := hd.decl_ge
      decl_inj := hd.decl_inj
      expr_ge := hd.expr_ge
      expr_inj := hd.expr_inj
      decl := fun c hc => ?_
      expr := fun x hx => ?_
      keyOf := fun c hc k hk => hd.keyOf c hc k ((h.keyOf _).symm.trans hk)
      keyOf_root := (h.keyOf _).trans hd.keyOf_root
      keyOf_member := fun b hb decl hdecl c hmem hc =>
        (h.keyOf _).trans (hd.keyOf_member b hb decl hdecl c hmem hc) }
  · obtain ⟨decl, decl', hdecl, hdecl', hdraw⟩ := hd.decl c hc
    have hlt := Package.lt_of_decl? hdecl'
    rw [← h.decls_size] at hlt
    obtain ⟨decl'', hdecl''⟩ := Package.decl?_eq_some_iff_lt.2 hlt
    obtain ⟨hs, ht, -, -, hparent⟩ := h.decl hdecl' hdecl''
    refine ⟨decl, decl'', hdecl, hdecl'', hs.trans hdraw.skeleton, ht.trans hdraw.typeParams,
      fun hne => ?_, ?_⟩
    · rcases hparent with hparent | ⟨-, k, hk, hleads⟩
      · exact hparent.trans (hdraw.parent hne)
      · -- Only the root of a drawing is an instance of a leading template.
        obtain rfl := hd.keyOf c hc k hk
        exact absurd hleads (hp.not_leads_of_mem hd.tree_eq hc hne)
    · rcases hparent with hparent | ⟨hparent, -⟩
      · rw [hparent]
        exact hdraw.nested
      · exact hparent.trans hdraw.nested
  · obtain ⟨expr, expr', hexpr, hexpr', hdraw⟩ := hd.expr x hx
    obtain ⟨expr'', hexpr''⟩ := Package.exists_expr?_of_lt (p := e'.package)
      (h.exprs_size ▸ Package.lt_of_expr? hexpr')
    exact ⟨expr, expr'', hexpr, hexpr'', (h.expr hexpr' hexpr'').trans hdraw⟩

/-- A small step from an orderly state leads to an orderly state. -/
theorem Orderly.of_touches (hw : w.Tidy) (he : e.Orderly w) (h : Touches w e e') :
    e'.Orderly w where
  settled := h.settled
  rooted := h.rooted
  unbroken {d decl'} hd := by
    obtain ⟨decl, hdecl⟩ := Package.decl?_eq_some_iff_lt.2 (h.decls_size ▸ Package.lt_of_decl? hd)
    exact (h.decl hdecl hd).2.2.1.trans (he.unbroken hdecl)
  declTypes hd := by
    rw [h.decls_size]
    exact h.declTypes hd
  exprTypes hx := by
    rw [h.decls_size]
    exact h.exprTypes hx
  target hx hc := by
    rw [h.decls_size]
    exact h.target hx hc
  applies hk := he.applies ((h.keyOf _).symm.trans hk)
  nonempty hk := he.nonempty ((h.keyOf _).symm.trans hk)
  normal hk := he.normal ((h.keyOf _).symm.trans hk)
  drawn hk := by
    obtain ⟨key, tree, table, hdrawn, hrest⟩ := he.drawn ((h.keyOf _).symm.trans hk)
    exact ⟨key, tree, table, hdrawn.of_touches hw.forest h, hrest⟩
  covered hlow hhigh := by
    obtain ⟨key, tree, table, hdrawn, hrest⟩ := he.covered hlow (h.decls_size ▸ hhigh)
    exact ⟨key, tree, table, hdrawn.of_touches hw.forest h, hrest⟩
  origin {d k decl'} hk hd := by
    obtain ⟨decl, hdecl⟩ := Package.decl?_eq_some_iff_lt.2 (h.decls_size ▸ Package.lt_of_decl? hd)
    exact (h.decl hdecl hd).2.2.2.1.trans (he.origin ((h.keyOf _).symm.trans hk) hdecl)
  attached ha := by
    rw [h.decls_size, h.templateOf_eq, h.templateOf_eq]
    exact h.attached ha

/-! ### Small steps -/

theorem Rewords.forall_fits {ts ts' : List Ty} (h : List.Forall₂ (e.Rewords w) ts ts') :
    ∀ t ∈ ts', t.Applies (w.Fits e.package.decls.size) := by
  induction h with
  | nil => exact fun t ht => nomatch ht
  | cons hr _ ih => exact List.forall_mem_cons.2 ⟨hr.fits, ih⟩

/-- A declaration is overwritten. -/
theorem Orderly.touches_setDecl (he : e.Orderly w) {d : DeclId} {decl decl' : Decl}
    (hd : e.package.decl? d = some decl)
    (hsettled : Settled { e with package := e.package.setDecl d decl' })
    (hrooted : Rooted w.package { e with package := e.package.setDecl d decl' })
    (hs : decl'.kind.skeleton = decl.kind.skeleton) (hp : decl'.typeParams = decl.typeParams)
    (hb : decl'.broken = decl.broken) (ho : decl'.origin = decl.origin)
    (hparent : decl'.parent = decl.parent ∨ (decl'.parent = none ↔ decl.parent = none) ∧
      ∃ k, e.registry.keyOf? d = some k ∧ w.package.Leads k.template)
    (ht : ∀ t ∈ decl'.kind.types, t.Applies (w.Fits e.package.decls.size)) :
    Touches w e { e with package := e.package.setDecl d decl' } where
  settled := hsettled
  rooted := hrooted
  keyOf _ := rfl
  decls_size := Package.size_decls_setDecl _ _ _
  exprs_size := rfl
  decl {c decl₁ decl₂} hc hc' := by
    by_cases hcd : c = d
    · subst hcd
      obtain rfl := Option.some.inj (hd.symm.trans hc)
      obtain rfl := Option.some.inj
        ((Package.decl?_setDecl_self (Package.lt_of_decl? hd) decl').symm.trans hc')
      exact ⟨hs, hp, hb, ho, hparent⟩
    · obtain rfl := Option.some.inj
        (hc.symm.trans ((Package.decl?_setDecl_of_ne hcd decl').symm.trans hc'))
      exact ⟨rfl, rfl, rfl, rfl, .inl rfl⟩
  expr hx hx' := by rw [Option.some.inj (hx.symm.trans hx')]
  declTypes {c decl₂} hc := by
    by_cases hcd : c = d
    · subst hcd
      obtain rfl := Option.some.inj
        ((Package.decl?_setDecl_self (Package.lt_of_decl? hd) decl').symm.trans hc)
      exact ht
    · exact he.declTypes ((Package.decl?_setDecl_of_ne hcd decl').symm.trans hc)
  exprTypes hx := he.exprTypes hx
  target hx hc := he.target hx hc
  attached := he.attached

/-- An expression is overwritten. -/
theorem Orderly.touches_setExpr (hw : w.Tidy) (he : e.Orderly w) {x : ExprId} {expr expr' : Expr}
    (hx : e.package.expr? x = some expr) (hs : expr'.skeleton = expr.skeleton)
    (ht : ∀ t ∈ expr'.types, t.Applies (w.Fits e.package.decls.size))
    (hc : ∀ c, expr'.kind.target? = some c → c.index < e.package.decls.size) :
    Touches w e { e with package := e.package.setExpr x expr' } := by
  have hroots := rewriting_roots hw.forest.toClosed
  obtain ⟨hl, hr⟩ := hroots.reexpress trivial (hroots.refl e) hx hs he.settled he.rooted
  have hslot : ∀ {y expr₂}, (e.package.setExpr x expr').expr? y = some expr₂ →
      y = x ∧ expr₂ = expr' ∨ e.package.expr? y = some expr₂ := by
    intro y expr₂ hy
    rw [Package.expr?_setExpr] at hy
    split at hy
    · rename_i heq
      exact .inl ⟨heq.1, (Option.some.inj hy).symm⟩
    · exact .inr hy
  refine
    { settled := hl.settled
      rooted := hr
      keyOf := fun _ => rfl
      decls_size := rfl
      exprs_size := Package.size_exprs_setExpr _ _ _
      decl := fun {d decl decl'} hd hd' => ?_
      expr := fun hy hy' => ?_
      declTypes := fun hd => he.declTypes hd
      exprTypes := fun hy => ?_
      target := fun hy htarget => ?_
      attached := he.attached }
  · obtain rfl := Option.some.inj (hd.symm.trans hd')
    exact ⟨rfl, rfl, rfl, rfl, .inl rfl⟩
  · rcases hslot hy' with ⟨rfl, rfl⟩ | hsame
    · rw [Option.some.inj (hy.symm.trans hx)]
      exact hs
    · rw [Option.some.inj (hy.symm.trans hsame)]
  · rcases hslot hy with ⟨-, rfl⟩ | hsame
    · exact ht
    · exact he.exprTypes hsame
  · rcases hslot hy with ⟨-, rfl⟩ | hsame
    · exact hc _ htarget
    · exact he.target hsame htarget

/-- The code and the keys stay the same. -/
theorem Orderly.touches_of_eq (he : e.Orderly w) (hsettled : e'.Settled)
    (hrooted : e'.Rooted w.package) (hpackage : e'.package = e.package)
    (hkeys : ∀ d, e'.registry.keyOf? d = e.registry.keyOf? d)
    (hattached : ∀ {ext canon inst}, e'.extensions.attached.get? (ext, canon) = some inst →
      e.extensions.attached.get? (ext, canon) = some inst ∨ Fastens w e ext canon inst) :
    Touches w e e' where
  settled := hsettled
  rooted := hrooted
  keyOf := hkeys
  decls_size := by rw [hpackage]
  exprs_size := by rw [hpackage]
  decl {d decl decl'} hd hd' := by
    rw [hpackage] at hd'
    obtain rfl := Option.some.inj (hd.symm.trans hd')
    exact ⟨rfl, rfl, rfl, rfl, .inl rfl⟩
  expr hx hx' := by
    rw [hpackage] at hx'
    rw [Option.some.inj (hx.symm.trans hx')]
  declTypes hd := he.declTypes (hpackage ▸ hd)
  exprTypes hx := he.exprTypes (hpackage ▸ hx)
  target hx hc := he.target (hpackage ▸ hx) hc
  attached ha := (hattached ha).elim he.attached fun h => ⟨h.ext_lt, h.inst_lt, h.templateOf_eq⟩

/-! ### Drafts -/

section Drafts

variable {key : InstanceKey} {root : DeclId} {members : List InstanceKey} {tree : Package.Subtree}
  {table : Remap}

/-- A type at the top of the package is not renamed in a copy. -/
theorem Drawn.reference_of_topType (h : Drawn w.package e key tree table) (hp : w.package.Forest)
    {d : DeclId} (hd : w.package.TopType d) : table.reference d = d := by
  unfold Remap.reference
  rw [h.pinned]
  split
  · rfl
  · rename_i hne
    refine h.outside d fun hmem => ?_
    obtain ⟨decl, hdecl, hparent, -⟩ := hd
    obtain ⟨b, hb⟩ := hp.parent_of_mem_tail h.tree_eq hmem (fun heq => hne (by simp [heq])) hdecl
    rw [hparent] at hb
    cases hb

/-- What a copy refers to exists. -/
theorem Drawn.reference_lt (h : Drawn w.package e key tree table) {d : DeclId}
    (hd : d.index < e.package.decls.size) :
    (table.reference d).index < e.package.decls.size := by
  unfold Remap.reference
  split
  · exact hd
  · by_cases hmem : d ∈ tree.decls
    · obtain ⟨decl, decl', -, hdecl', -⟩ := h.decl d hmem
      exact Package.lt_of_decl? hdecl'
    · rw [h.outside d hmem]
      exact hd

/-- The renamed types of a draft fit. -/
theorem Draft.fits (h : Draft w e key root members tree table e') (hw : w.Tidy) {t : Ty}
    (ht : t.Applies (w.Fits e.package.decls.size)) :
    (key.subst.apply (t.rename table)).Applies (w.Fits e'.package.decls.size) := by
  have hle := h.later.decls_le
  have hsubst : key.subst.Applies (w.Fits e'.package.decls.size) := by
    intro q v hv
    have hkey := h.later.settled.key h.making.keyOf_root
    exact (h.applies q v hv).and_handles (hkey.handles v (Subst.mem_values.2 ⟨q, hv⟩))
  refine hsubst.apply (ht.rename fun d n hdn => ⟨fun hstrict hn => ?_, ?_⟩)
  · rw [h.drawn.reference_of_topType hw.forest (hdn.1 hstrict hn)]
    exact hdn.1 hstrict hn
  · exact h.drawn.reference_lt (Nat.lt_of_lt_of_le hdn.2 hle)

/-- Drawings survive drafts. -/
theorem Drawn.of_draft (h : Draft w e key root members tree table e')
    {key₀ : InstanceKey} {tree₀ : Package.Subtree} {table₀ : Remap}
    (hd : Drawn w.package e key₀ tree₀ table₀) : Drawn w.package e' key₀ tree₀ table₀ := by
  have hkeyOf : ∀ {d}, d.index < e.package.decls.size →
      e'.registry.keyOf? d = e.registry.keyOf? d := fun hlt => h.later.keyOf hlt
  have hlt : ∀ {c}, c ∈ tree₀.decls → (table₀.decl c).index < e.package.decls.size := by
    intro c hc
    obtain ⟨decl, decl', -, hdecl', -⟩ := hd.decl c hc
    exact Package.lt_of_decl? hdecl'
  refine
    { tree_eq := hd.tree_eq
      leads := hd.leads
      pinned := hd.pinned
      outside := hd.outside
      decl_ge := hd.decl_ge
      decl_inj := hd.decl_inj
      expr_ge := hd.expr_ge
      expr_inj := hd.expr_inj
      decl := fun c hc => ?_
      expr := fun x hx => ?_
      keyOf := fun c hc k hk => hd.keyOf c hc k ((hkeyOf (hlt hc)).symm.trans hk)
      keyOf_root := (hkeyOf (hlt hd.mem_root)).trans hd.keyOf_root
      keyOf_member := fun b hb decl hdecl c hmem hc =>
        (hkeyOf (hlt hc)).trans (hd.keyOf_member b hb decl hdecl c hmem hc) }
  · obtain ⟨decl, decl', hdecl, hdecl', hdraw⟩ := hd.decl c hc
    exact ⟨decl, decl', hdecl, (h.decl_old (hlt hc)).trans hdecl', hdraw⟩
  · obtain ⟨expr, expr', hexpr, hexpr', hdraw⟩ := hd.expr x hx
    exact ⟨expr, expr', hexpr, (h.expr_old (Package.lt_of_expr? hexpr')).trans hexpr', hdraw⟩

/-- A draft is an orderly addition. -/
theorem Draft.orderly (hw : w.Tidy) (he : e.Orderly w)
    (h : Draft w e key root members tree table e') : e'.Orderly w := by
  have hle := h.later.decls_le
  have hdecl : ∀ {d decl'}, e'.package.decl? d = some decl' → e.package.decl? d = some decl' ∨
      ∃ c ∈ tree.decls, table.decl c = d := by
    intro d decl' hd
    by_cases hlt : d.index < e.package.decls.size
    · exact .inl ((h.decl_old hlt).symm.trans hd)
    · exact .inr (h.decl_new (Nat.le_of_not_lt hlt) (Package.lt_of_decl? hd))
  have hexpr : ∀ {x expr'}, e'.package.expr? x = some expr' → e.package.expr? x = some expr' ∨
      ∃ y ∈ tree.exprs, ∃ expr, e.package.expr? y = some expr ∧
        expr' = (expr.rename table).retype key.subst.apply := by
    intro x expr' hx
    by_cases hlt : x.index < e.package.exprs.size
    · exact .inl ((h.expr_old hlt).symm.trans hx)
    · obtain ⟨y, hy, rfl⟩ := h.expr_new (Nat.le_of_not_lt hlt) (Package.lt_of_expr? hx)
      obtain ⟨expr, hy₁, hy₂⟩ := h.expr y hy
      exact .inr ⟨y, hy, expr, hy₁, Option.some.inj (hx.symm.trans hy₂)⟩
  have hkey : ∀ {d k}, e'.registry.keyOf? d = some k → e.registry.keyOf? d = some k ∨
      ∃ c ∈ tree.decls, table.decl c = d ∧ k = { template := c, subst := key.subst } := by
    intro d k hk
    rcases h.keyOf hk with hold | ⟨c, hc, rfl⟩
    · exact .inl hold
    · exact .inr ⟨c, hc, rfl, h.drawn.keyOf c hc k hk⟩
  refine
    { settled := h.later.settled
      rooted := h.rooted
      unbroken := fun {d decl'} hd => ?_
      declTypes := fun {d decl'} hd t ht => ?_
      exprTypes := fun {x expr'} hx t ht => ?_
      target := fun {x expr' c} hx hc => ?_
      applies := fun {d k} hk => ?_
      nonempty := fun {d k} hk => ?_
      normal := fun {d k} hk q v hv => ?_
      drawn := fun {d k} hk => ?_
      covered := fun {d} hlow hhigh => ?_
      origin := fun {d k decl'} hk hd => ?_
      attached := fun {ext canon inst} ha => ?_ }
  · rcases hdecl hd with hold | ⟨c, hc, rfl⟩
    · exact he.unbroken hold
    · obtain ⟨decl, decl'', hc₁, hc₂, hbroken, -⟩ := h.decl c hc
      obtain rfl := Option.some.inj (hd.symm.trans hc₂)
      exact hbroken.trans (he.unbroken hc₁)
  · rcases hdecl hd with hold | ⟨c, hc, rfl⟩
    · exact (he.declTypes hold t ht).grow hle
    · obtain ⟨decl, decl'', hc₁, hc₂, -, -, htypes⟩ := h.decl c hc
      obtain rfl := Option.some.inj (hd.symm.trans hc₂)
      rw [htypes] at ht
      obtain ⟨t₀, ht₀, rfl⟩ := List.mem_map.1 ht
      exact h.fits hw (he.declTypes hc₁ t₀ ht₀)
  · rcases hexpr hx with hold | ⟨y, -, expr, hy, rfl⟩
    · exact (he.exprTypes hold t ht).grow hle
    · rw [Expr.types_retype, Expr.types_rename, List.map_map] at ht
      obtain ⟨t₀, ht₀, rfl⟩ := List.mem_map.1 ht
      exact h.fits hw (he.exprTypes hy t₀ ht₀)
  · rcases hexpr hx with hold | ⟨y, -, expr, hy, rfl⟩
    · exact Nat.lt_of_lt_of_le (he.target hold hc) hle
    · rw [Expr.target?_retype, Expr.target?_rename] at hc
      obtain ⟨c₀, hc₀, rfl⟩ := Option.map_eq_some_iff.1 hc
      exact h.drawn.reference_lt (Nat.lt_of_lt_of_le (he.target hy hc₀) hle)
  · rcases hkey hk with hold | ⟨c, -, -, rfl⟩
    · exact he.applies hold
    · exact h.applies
  · rcases hkey hk with hold | ⟨c, -, -, rfl⟩
    · exact he.nonempty hold
    · exact h.asked.not_isEmpty
  · rcases hkey hk with hold | ⟨c, hc, -, rfl⟩
    · exact he.normal hold q v hv
    · obtain ⟨scope, hscope⟩ := hw.forest.exists_scopeParams? (h.drawn.lt_of_mem hc)
      have htemplate := (he.rooted.asked h.asked)
      obtain ⟨outer, houter, -⟩ := htemplate.2
      exact ⟨(h.asked.mem_scope houter hv).2, scope, hscope,
        he.mem_scope_of_asked hw.forest h.asked h.drawn.tree_eq hc hscope hv⟩
  · rcases hkey hk with hold | ⟨c, hc, rfl, rfl⟩
    · obtain ⟨key₀, tree₀, table₀, hdrawn, hrest⟩ := he.drawn hold
      exact ⟨key₀, tree₀, table₀, hdrawn.of_draft h, hrest⟩
    · exact ⟨key, tree, table, h.drawn, hc, rfl, rfl⟩
  · by_cases hlt : d.index < e.package.decls.size
    · obtain ⟨key₀, tree₀, table₀, hdrawn, hrest⟩ := he.covered hlow hlt
      exact ⟨key₀, tree₀, table₀, hdrawn.of_draft h, hrest⟩
    · exact ⟨key, tree, table, h.drawn, h.decl_new (Nat.le_of_not_lt hlt) hhigh⟩
  · rcases hkey hk with hold | ⟨c, hc, rfl, rfl⟩
    · rw [h.decl_old (he.settled.sound.indexed.keyOf_lt hold)] at hd
      exact he.origin hold hd
    · exact h.origin c hc hk hd
  · have hsame : e'.extensions = e.extensions := by
      obtain ⟨q, r, rfl⟩ := h.rest
      rfl
    rw [hsame] at ha
    obtain ⟨hext, hinst, htemplate⟩ := he.attached ha
    refine ⟨Nat.lt_of_lt_of_le hext hle, Nat.lt_of_lt_of_le hinst hle, ?_⟩
    rw [h.later.templateOf_eq hinst, h.later.templateOf_eq hext]
    exact htemplate

end Drafts

/-! ### All steps -/

/-- A step other than a draft is a small one. -/
theorem Step.touches {S : Patch} {n m : Nat} (hw : w.Tidy) (h : Step w S n m e e')
    (he : e.Orderly w) : Touches w e e' ∨
      ∃ key root members tree table, Draft w e key root members tree table e' := by
  have hroots := rewriting_roots hw.forest.toClosed
  cases h with
  | note ha hattached =>
    obtain ⟨hl, hr⟩ := Roots.of_alike ha he.settled he.rooted
    exact .inl (he.touches_of_eq hl.settled hr ha.package ha.keyOf_eq hattached)
  | draft h => exact .inr ⟨_, _, _, _, _, h⟩
  | house hslot hstate hleads hn hd hparent owner =>
    have hk := he.settled.sound.indexed.keyOf_slot hslot
    refine .inl (he.touches_setDecl hd (he.settled.setParent hd hparent owner)
      (he.rooted.setDecl hw.forest.toClosed hd (fun hlt => ?_) rfl) rfl rfl rfl rfl
      (.inr ⟨⟨nofun, fun hnone => absurd hnone hparent⟩, _, hk, hleads⟩)
      fun t ht => he.declTypes hd t ht)
    exact absurd hlt (Nat.not_lt.2 (he.rooted.instance_ge hk))
  | retype hd hS hs ht =>
    obtain ⟨hl, hr⟩ := hroots.retype trivial (hroots.refl e) hd hd hs he.settled he.rooted
    exact .inl (he.touches_setDecl hd hl.settled hr hs rfl rfl rfl (.inl rfl)
      (Rewords.forall_fits ht))
  | reexpress hx hS hs ht htarget =>
    exact .inl (he.touches_setExpr hw hx hs (Rewords.forall_fits ht) fun c hc => (htarget c hc).1)
  | annotate hd hS annotations =>
    obtain ⟨hl, hr⟩ := hroots.annotate annotations trivial hd he.settled he.rooted
    exact .inl (he.touches_setDecl hd hl.settled hr rfl rfl rfl rfl (.inl rfl)
      fun t ht => he.declTypes hd t ht)
  | finish hf hsound =>
    refine .inl (he.touches_of_eq ⟨hsound, he.settled.tombstone, fun hk => ?_⟩
      ⟨he.rooted.placement, he.rooted.underlies, he.rooted.instance_ge, he.rooted.template_lt,
        he.rooted.scope, he.rooted.plain⟩ rfl (fun _ => rfl) fun ha => .inl ha)
    have hkey := he.settled.key hk
    exact ⟨hkey.template_lt, hkey.handles, hkey.bare, hkey.params⟩

/-- A step from an orderly state leads to an orderly state. -/
theorem Step.orderly {S : Patch} {n m : Nat} (hw : w.Tidy) (h : Step w S n m e e')
    (he : e.Orderly w) : e'.Orderly w := by
  obtain htouches | ⟨_, _, _, _, _, hdraft⟩ := h.touches hw he
  · exact he.of_touches hw htouches
  · exact hdraft.orderly hw he

/-- Drawings survive all steps. -/
theorem Step.drawn {S : Patch} {n m : Nat} (hw : w.Tidy) (h : Step w S n m e e') (he : e.Orderly w)
    {key : InstanceKey} {tree : Package.Subtree} {table : Remap}
    (hd : Drawn w.package e key tree table) : Drawn w.package e' key tree table := by
  obtain htouches | ⟨_, _, _, _, _, hdraft⟩ := h.touches hw he
  · exact hd.of_touches hw.forest htouches
  · exact hd.of_draft hdraft

/-- A declaration that was not there before is part of a draft. -/
theorem Step.drafted_decl {S : Patch} {n m : Nat} (hw : w.Tidy) (h : Step w S n m e e')
    (he : e.Orderly w) {d : DeclId} (hge : ¬ d.index < e.package.decls.size)
    (hlt : d.index < e'.package.decls.size) : ∃ key root members tree table,
      Draft w e key root members tree table e' ∧ ∃ c ∈ tree.decls, table.decl c = d := by
  obtain htouches | ⟨key, root, members, tree, table, hdraft⟩ := h.touches hw he
  · exact absurd (htouches.decls_size ▸ hlt) hge
  · exact ⟨key, root, members, tree, table, hdraft, hdraft.decl_new (Nat.le_of_not_lt hge) hlt⟩

/-- So is an expression that was not there before. -/
theorem Step.drafted_expr {S : Patch} {n m : Nat} (hw : w.Tidy) (h : Step w S n m e e')
    (he : e.Orderly w) {x : ExprId} (hge : ¬ x.index < e.package.exprs.size)
    (hlt : x.index < e'.package.exprs.size) : ∃ key root members tree table,
      Draft w e key root members tree table e' ∧ ∃ y ∈ tree.exprs, table.expr y = x := by
  obtain htouches | ⟨key, root, members, tree, table, hdraft⟩ := h.touches hw he
  · exact absurd (htouches.exprs_size ▸ hlt) hge
  · exact ⟨key, root, members, tree, table, hdraft, hdraft.expr_new (Nat.le_of_not_lt hge) hlt⟩

end Engine

end Monomorph
