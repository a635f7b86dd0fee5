import Monomorph.Proofs.Instances.Enclosure
import Monomorph.Proofs.Instances.Substitution

/-!
# Types of finished instances

When an instance is declared complete, its types call for no more instances, and no later step changes
this. In code that belongs to one package everything is accessible, so the types of an instance name no
template then: an application has been replaced by its instance, and what stands without arguments is
plain code at the top.

This rests on what the checker promises: that the types which are named stand at the top of the package.
A class inside of a generic class has parameters in scope without taking arguments. Such a name is left
alone, and the instance refers to the template.

## Main definitions

* `Engine.AllResolved`: complete instances call for no more instances.
* `Package.Belongs`, `Package.Scoped`: code of one package, and types with the parameters in scope only.
* `Engine.Plain`: the types without parameters in which nothing generic is named.

## Main results

* `Engine.Evolves.allResolved`: complete instances stay resolved.
* `Engine.Orderly.plain_of_clean`: what calls for no instances is plain.
* `Engine.types_of_answer_plain`: the types in the answer to a request are plain.
* `Engine.inner_class_left_behind`: a name inside of a template is left alone.
-/

namespace Monomorph

/-! ### Packages -/

namespace Package

variable {p : Package}

/-- All code belongs to the named package. -/
def Belongs (p : Package) (name : String) : Prop :=
  ∀ d decl, p.decl? d = some decl → decl.package = name

/-- The types of a package mention only parameters that are in scope. -/
structure Scoped (p : Package) : Prop where
  decl : ∀ {d decl scope}, p.decl? d = some decl → p.scopeParams? d = some scope →
    ∀ t ∈ decl.kind.types, t.Within scope
  expr : ∀ {d x expr scope}, p.Holds d x → p.expr? x = some expr → p.scopeParams? d = some scope →
    ∀ t ∈ expr.types, t.Within scope

theorem belongs_iff {name : String} : p.Belongs name ↔ p.EachDecl fun _ decl => decl.package = name :=
  ⟨fun h => eachDecl_iff.2 (h _ _), fun h _ _ hd => eachDecl_iff.1 h hd⟩

theorem scoped_iff : p.Scoped ↔ p.EachDecl fun d decl => ∀ scope ∈ (p.scopeParams? d).toList,
    (∀ t ∈ decl.kind.types, t.Within scope) ∧ ∀ code ∈ (p.code? decl).toList, ∀ x ∈ code,
      ∀ expr ∈ (p.expr? x).toList, ∀ t ∈ expr.types, t.Within scope := by
  simp only [eachDecl_iff, Option.mem_toList]
  constructor
  · exact fun h _ decl hd scope hscope => ⟨h.decl hd hscope, fun code hcode x hx expr hexpr =>
      h.expr ⟨decl, code, hd, hcode, hx⟩ hexpr hscope⟩
  · intro h
    refine ⟨fun hd hscope => (h hd _ hscope).1, ?_⟩
    rintro d x expr scope ⟨decl, code, hd, hcode, hx⟩ hexpr hscope
    exact (h hd scope hscope).2 code hcode x hx expr hexpr

instance (name : String) : Decidable (p.Belongs name) := decidable_of_iff _ belongs_iff.symm

instance : Decidable p.Scoped := decidable_of_iff _ scoped_iff.symm

/-- What is copied together with a declaration has the same parameters in scope. -/
theorem Forest.scopeParams?_of_mem (hp : p.Forest) {g c : DeclId} {n : Nat} {tree : Subtree}
    (h : p.treeWithin g p.declaresParams n g = some tree) (hc : c ∈ tree.decls)
    {scope : List ParamId} (hg : p.scopeParams? g = some scope) : p.scopeParams? c = some scope := by
  obtain ⟨inner, hinner⟩ := hp.exists_scopeParams? (lt_of_mem_treeWithin h hc)
  rw [hinner]
  change p.scopeWithin p.decls.size c = some inner at hinner
  -- The way outwards leads through the subtree up to its root.
  generalize p.decls.size = m at hinner
  induction m generalizing c inner with
  | zero =>
    obtain ⟨m, decl, hm, -⟩ := scopeWithin_eq_some hinner
    cases hm
  | succ m ih =>
    by_cases hroot : c = g
    · subst hroot
      exact congrArg some (scopeWithin_unique hinner hg)
    · obtain ⟨decl, b, hd, hparent, hb⟩ := hp.parent_mem h hc hroot
      have hplain := typeParams_eq_nil_of_declaresParams hd (skip_eq_false_of_mem h hc hroot)
      obtain ⟨m', decl', hm, hd', hcase⟩ := scopeWithin_eq_some hinner
      obtain rfl := Nat.succ.inj hm
      obtain rfl := Option.some.inj (hd.symm.trans hd')
      rcases hcase with ⟨hnone, -⟩ | ⟨b', outer, hparent', houter, rfl⟩
      · rw [hparent] at hnone
        cases hnone
      · obtain rfl := Option.some.inj (hparent.symm.trans hparent')
        rw [Decl.ownParams, hplain, List.map_nil, List.append_nil]
        exact ih hb outer houter

/-- A declaration at the top is generic if it has parameters. -/
theorem isGeneric?_of_top {d : DeclId} {decl : Decl} (hd : p.decl? d = some decl)
    (hparent : decl.parent = none) : p.isGeneric? d = some decl.hasTypeParams := by
  obtain ⟨n, hn⟩ := Nat.exists_eq_succ_of_ne_zero (Nat.ne_of_gt (Nat.zero_lt_of_lt (lt_of_decl? hd)))
  rw [isGeneric?, hn, isGenericWithin_of_scopeWithin (scopeWithin_of_top hd hparent), Decl.ownParams,
    List.isEmpty_map, Decl.hasTypeParams]

theorem lt_of_topType {d : DeclId} (h : p.TopType d) : d.index < p.decls.size := by
  obtain ⟨decl, hd, -⟩ := h
  exact lt_of_decl? hd

end Package

namespace Engine

variable {w : Setting} {S : Patch} {n m : Nat} {e e' : Engine} {package : String}

/-! ### Complete instances stay resolved -/

/-- Every complete instance that was made in its own right calls for no more instances. -/
def AllResolved (w : Setting) (e : Engine) : Prop :=
  ∀ (k : InstanceKey) (slot : Slot), e.registry.slots.get? k = some slot →
    slot.state ≠ .instantiating → w.package.Leads k.template → Resolved w e slot.decl

section Steps

variable (he : e.Orderly w) (h : Step w S n m e e')

include he h

/-- What a step makes of the types of a declaration. -/
theorem Step.rewords_decl {d : DeclId} {decl decl' : Decl} (hd : e.package.decl? d = some decl)
    (hd' : e'.package.decl? d = some decl') :
    List.Forall₂ (e.Rewords w) decl.kind.types decl'.kind.types := by
  have hrefl : decl = decl' → List.Forall₂ (e.Rewords w) decl.kind.types decl'.kind.types := by
    rintro rfl
    exact List.forall₂_same.2 fun t ht => .refl (he.declTypes hd t ht)
  -- A step that overwrites the declaration `c`.
  have hset : ∀ {c : DeclId} {declc declc' : Decl}, e.package.decl? c = some declc →
      (e.package.setDecl c declc').decl? d = some decl' →
      List.Forall₂ (e.Rewords w) declc.kind.types declc'.kind.types →
      List.Forall₂ (e.Rewords w) decl.kind.types decl'.kind.types := by
    intro c declc declc' hc hnew hwords
    by_cases hcd : d = c
    · subst hcd
      obtain rfl := Option.some.inj (hc.symm.trans hd)
      obtain rfl := Option.some.inj
        ((Package.decl?_setDecl_self (Package.lt_of_decl? hc) declc').symm.trans hnew)
      exact hwords
    · rw [Package.decl?_setDecl_of_ne hcd] at hnew
      exact hrefl (Option.some.inj (hd.symm.trans hnew))
  have hsame : ∀ {c : DeclId} {declc : Decl}, e.package.decl? c = some declc →
      List.Forall₂ (e.Rewords w) declc.kind.types declc.kind.types := fun hc =>
    List.forall₂_same.2 fun t ht => .refl (he.declTypes hc t ht)
  cases h with
  | note ha =>
    rw [ha.package] at hd'
    exact hrefl (Option.some.inj (hd.symm.trans hd'))
  | draft h =>
    rw [h.decl_old (Package.lt_of_decl? hd)] at hd'
    exact hrefl (Option.some.inj (hd.symm.trans hd'))
  | house hslot hstate hleads hn hc hparent owner => exact hset hc hd' (hsame hc)
  | retype hc hS hs ht => exact hset hc hd' ht
  | annotate hc hS annotations => exact hset hc hd' (hsame hc)
  | reexpress | finish => exact hrefl (Option.some.inj (hd.symm.trans hd'))

/-- What a step makes of the types of an expression. -/
theorem Step.rewords_expr {x : ExprId} {expr expr' : Expr} (hx : e.package.expr? x = some expr)
    (hx' : e'.package.expr? x = some expr') :
    List.Forall₂ (e.Rewords w) expr.types expr'.types := by
  have hrefl : expr = expr' → List.Forall₂ (e.Rewords w) expr.types expr'.types := by
    rintro rfl
    exact List.forall₂_same.2 fun t ht => .refl (he.exprTypes hx t ht)
  cases h with
  | note ha =>
    rw [ha.package] at hx'
    exact hrefl (Option.some.inj (hx.symm.trans hx'))
  | draft h =>
    rw [h.expr_old (Package.lt_of_expr? hx)] at hx'
    exact hrefl (Option.some.inj (hx.symm.trans hx'))
  | @reexpress y expry expry' hy hS hs ht htarget =>
    by_cases hxy : x = y
    · subst hxy
      obtain rfl := Option.some.inj (hy.symm.trans hx)
      have hnew := (Package.expr?_setExpr e.package x x expry').trans
        (if_pos ⟨rfl, Package.lt_of_expr? hx⟩)
      obtain rfl := Option.some.inj (hnew.symm.trans hx')
      exact ht
    · rw [Package.expr?_setExpr_of_ne hxy] at hx'
      exact hrefl (Option.some.inj (hx.symm.trans hx'))
  | house | retype | annotate | finish => exact hrefl (Option.some.inj (hx.symm.trans hx'))

/-- Reworded types call for no more instances after a step if they did not before. -/
theorem Step.forall_clean (hw : w.Tidy) (hstrict : w.strict = true) (hs : e.access.Steady)
    {ts ts' : List Ty} (hts : List.Forall₂ (e.Rewords w) ts ts')
    (hclean : ∀ t ∈ ts, e.Clean package t) : ∀ t ∈ ts', e'.Clean package t := by
  intro t ht
  rw [clean_congr hstrict (fun _ hd => h.accessible?_eq hw he hs hd package)
    (Rewords.forall_fits hts t ht).names]
  exact Rewords.forall_clean hts hstrict hs hclean t ht

/-- An instance that calls for no more instances does not do so after a step either. -/
theorem Resolved.step (hw : w.Tidy) {root : DeclId} {k : InstanceKey}
    (hk : e.registry.keyOf? root = some k) (hr : Resolved w e root) : Resolved w e' root := by
  intro hstrict hs decl' tree' hd' htree'
  rw [h.access_eq] at hs
  obtain ⟨key, tree₀, table, hdrawn, hmem, rfl, -⟩ := he.drawn hk
  obtain ⟨tree, htree, hdecls, hexprs⟩ := hdrawn.templateSubtree?_later (h.drawn hw he hdrawn)
    hw.forest he.rooted.underlies (h.orderly hw he).rooted.underlies hmem htree'
  obtain ⟨decl, hd⟩ :=
    Package.decl?_eq_some_iff_lt.2 (he.settled.sound.indexed.keyOf_lt hk)
  obtain ⟨decl₁, hd₁, hrevised⟩ := h.decl hw he hd
  obtain rfl := Option.some.inj (hd'.symm.trans hd₁)
  have hpackage : decl'.package = decl.package := congrArg (fun i => i.2.2.2.1) hrevised.imprint
  obtain ⟨hcleanDecls, hcleanExprs⟩ := hr hstrict hs decl tree hd htree
  have hwithin := htree
  rw [Package.templateSubtree?_eq] at hwithin
  rw [hpackage, hdecls, hexprs]
  refine ⟨fun c hc declc' hdc' => ?_, fun x hx expr' hx' => ?_⟩
  · obtain ⟨declc, hdc⟩ :=
      Package.decl?_eq_some_iff_lt.2 (Package.lt_of_mem_treeWithin hwithin hc)
    exact h.forall_clean he hw hstrict hs (h.rewords_decl he hdc hdc') (hcleanDecls c hc declc hdc)
  · obtain ⟨c, -, hholds⟩ := (Package.mem_exprs_iff hwithin).1 hx
    obtain ⟨expr, hexpr⟩ := Package.exists_expr?_of_lt (Package.Holds.lt hholds)
    exact h.forall_clean he hw hstrict hs (h.rewords_expr he hexpr hx') (hcleanExprs x hx expr hexpr)

/-- Complete instances stay resolved, and new ones are resolved before they are complete. -/
theorem Step.allResolved (hw : w.Tidy) (hall : AllResolved w e) : AllResolved w e' := by
  intro k slot hk hstate hleads
  have hstep := h
  have hold : ∀ {slot₀ : Slot}, e.registry.slots.get? k = some slot₀ → slot₀.decl = slot.decl →
      Resolved w e slot₀.decl → Resolved w e' slot.decl := by
    intro slot₀ hslot₀ hdecl hr
    exact hdecl ▸ hr.step he hstep hw (he.settled.sound.indexed.keyOf_slot hslot₀)
  cases h with
  | note ha =>
    rw [ha.slots] at hk
    exact hold hk rfl (hall k slot hk hstate hleads)
  | draft h =>
    rcases h.slots k slot hk with hk₀ | hnew
    · exact hold hk₀ rfl (hall k slot hk₀ hstate hleads)
    · obtain ⟨slot', hslot', hstate'⟩ := h.making.instantiating k hnew
      obtain rfl := Option.some.inj (hk.symm.trans hslot')
      exact absurd hstate' hstate
  | house | retype | reexpress | annotate => exact hold hk rfl (hall k slot hk hstate hleads)
  | @finish keys slots hf hsound hhoused hresolved =>
    have hget := hf.get? k
    change slots.get? k = some slot at hk
    rw [hk] at hget
    split at hget
    · rename_i hmem
      obtain ⟨slot₀, hslot₀, hslot⟩ := Option.map_eq_some_iff.1 hget.symm
      exact hold hslot₀ (by rw [← hslot]) (hresolved k hmem slot₀ hslot₀ hleads)
    · exact hold hget.symm rfl (hall k slot hget.symm hstate hleads)

end Steps

theorem Evolves.allResolved (h : Evolves w S e e') (hw : w.Tidy) (he : e.Orderly w)
    (hall : AllResolved w e) : AllResolved w e' := by
  induction h with
  | refl => exact hall
  | tail hsteps hstep ih => exact hstep.allResolved (orderly hw he hsteps) hw ih

/-! ### Code of one package -/

/-- Copies belong to the package of the template. -/
theorem Step.belongs (hw : w.Tidy) (he : e.Orderly w) (h : Step w S n m e e') {name : String}
    (hname : e.package.Belongs name) : e'.package.Belongs name := by
  intro d decl' hd'
  by_cases hlt : d.index < e.package.decls.size
  · obtain ⟨decl, hd⟩ := Package.decl?_eq_some_iff_lt.2 hlt
    obtain ⟨decl₁, hd₁, hrevised⟩ := h.decl hw he hd
    obtain rfl := Option.some.inj (hd'.symm.trans hd₁)
    exact (congrArg (fun i => i.2.2.2.1) hrevised.imprint).trans (hname d decl hd)
  · obtain ⟨key, root, members, tree, table, hdraft, c, hc, rfl⟩ :=
      h.drafted_decl hw he hlt (Package.lt_of_decl? hd')
    obtain ⟨decl, decl₁, hd, hd₁, -, hcaption, -⟩ := hdraft.decl c hc
    obtain rfl := Option.some.inj (hd'.symm.trans hd₁)
    exact (congrArg (fun i => i.2.2.2.1) hcaption).trans (hname c decl hd)

theorem Evolves.belongs (h : Evolves w S e e') (hw : w.Tidy) (he : e.Orderly w) {name : String}
    (hname : e.package.Belongs name) : e'.package.Belongs name := by
  induction h with
  | refl => exact hname
  | tail hsteps hstep ih => exact hstep.belongs hw (orderly hw he hsteps) ih

/-- Code of one package has access to everything. -/
theorem accessible?_of_belongs {name : String} (hname : e.package.Belongs name) {d : DeclId}
    {decl : Decl} (hd : e.package.decl? d = some decl) : e.accessible? name d = some true := by
  rw [accessible?, hd, Option.bind_eq_bind, Option.bind_some, if_pos (hname d decl hd)]
  rfl

/-! ### What calls for no instances -/

/-- Neither parameters nor broken parts occur in the type, and the declarations that are named stand
without arguments and are not generic. -/
def Plain (e : Engine) (t : Ty) : Prop :=
  t.isConcrete = true ∧ t.Everywhere fun d args => args = [] ∧ e.package.isGeneric? d = some false

/-- What stands for a concrete type is not generic. -/
theorem Orderly.isGeneric?_of_spell (he : e.Orderly w) {d : DeclId}
    (hnames : ((Ty.named d []).expand e.spell).Applies w.package.TypeName)
    (hconcrete : ((Ty.named d []).expand e.spell).isConcrete = true) :
    e.package.isGeneric? d = some false := by
  rw [Ty.expand] at hnames hconcrete
  cases hspell : e.spell d with
  | none =>
    rw [hspell] at hnames
    obtain ⟨decl₀, hd₀, htop, -, hlength⟩ := hnames.1
    obtain ⟨decl, hd, ho⟩ := he.rooted.underlies.decl hd₀
    rw [Package.isGeneric?_of_top hd ((Decl.parent_eq_of_outline ho).trans htop), Decl.hasTypeParams,
      Decl.typeParams_eq_of_outline ho, List.length_eq_zero_iff.1 hlength]
    rfl
  | some v =>
    obtain ⟨key, decl, hk, ⟨template, htemplate, htop, -⟩, hd, rfl⟩ := he.topType_of_spell hspell
    rw [hspell] at hconcrete
    change (Ty.named _ _).isConcrete = true at hconcrete
    rw [Ty.isConcrete_named, List.all_map, List.all_eq_true] at hconcrete
    obtain ⟨template', htemplate', ho⟩ := he.rooted.underlies.decl htemplate
    obtain rfl := Option.some.inj (hd.symm.trans htemplate')
    obtain ⟨key₀, tree, table, hdrawn, hmem, rfl, hsubst⟩ := he.drawn hk
    obtain ⟨template', inst, htemplate', hinst, hdraw⟩ := hdrawn.decl _ hmem
    obtain rfl := Option.some.inj (htemplate.symm.trans htemplate')
    -- A parameter that is left open would occur in the type.
    have hclosed : inst.typeParams = [] := by
      rw [hdraw.typeParams, List.filter_eq_nil_iff]
      intro q hq hopen
      rw [← Decl.typeParams_eq_of_outline ho] at hq
      have hparam := hconcrete q hq
      rw [Function.comp_apply, hsubst, Option.isNone_iff_eq_none.1 hopen] at hparam
      cases hparam
    rw [Package.isGeneric?_of_top hinst (hdraw.nested.2 htop), Decl.hasTypeParams, hclosed]
    rfl

mutual

theorem Orderly.everywhere_of_clean (he : e.Orderly w)
    (haccess : ∀ d, w.package.TopType d → e.accessible? package d = some true) :
    ∀ {t : Ty}, e.Clean package t → (t.expand e.spell).Applies w.package.TypeName →
      (t.expand e.spell).isConcrete = true →
      t.Everywhere fun d args => args = [] ∧ e.package.isGeneric? d = some false
  | .named d [], _, hnames, hconcrete =>
    ⟨⟨rfl, he.isGeneric?_of_spell hnames hconcrete⟩, trivial⟩
  | .named d (t :: ts), hclean, hnames, hconcrete => by
    -- The application would have been replaced.
    have hargs := Ty.isConcrete_of_expand hconcrete
    rw [Ty.isConcrete_named, List.all_eq_true] at hargs
    rw [Ty.expand] at hnames
    exact absurd (haccess d hnames.1.topType) (hclean.1 (List.cons_ne_nil t ts) hargs)
  | .tuple items, hclean, hnames, hconcrete => by
    rw [Ty.expand] at hnames hconcrete
    rw [Ty.isConcrete_tuple] at hconcrete
    exact Orderly.allEverywhere_of_clean he haccess hclean hnames hconcrete
  | .func params ret, hclean, hnames, hconcrete => by
    rw [Ty.expand] at hnames hconcrete
    rw [Ty.isConcrete_func, Bool.and_eq_true] at hconcrete
    exact ⟨Orderly.allEverywhere_of_clean he haccess hclean.1 hnames.1 hconcrete.1,
      Orderly.everywhere_of_clean he haccess hclean.2 hnames.2 hconcrete.2⟩
  | .prim _, _, _, _ | .param _, _, _, _ | .invalid, _, _, _ => trivial

theorem Orderly.allEverywhere_of_clean (he : e.Orderly w)
    (haccess : ∀ d, w.package.TopType d → e.accessible? package d = some true) :
    ∀ {ts : List Ty}, Ty.AllEverywhere (fun d args => args ≠ [] →
        (∀ a ∈ args, a.isConcrete = true) → e.accessible? package d ≠ some true) ts →
      Ty.AllApply w.package.TypeName (Ty.expandAll e.spell ts) →
      (Ty.expandAll e.spell ts).all Ty.isConcrete = true →
      Ty.AllEverywhere (fun d args => args = [] ∧ e.package.isGeneric? d = some false) ts
  | [], _, _, _ => trivial
  | t :: ts, hclean, hnames, hconcrete => by
    rw [Ty.expandAll] at hnames hconcrete
    rw [List.all_cons, Bool.and_eq_true] at hconcrete
    exact ⟨Orderly.everywhere_of_clean he haccess hclean.1 hnames.1 hconcrete.1,
      Orderly.allEverywhere_of_clean he haccess hclean.2 hnames.2 hconcrete.2⟩

end

/-- A type that calls for no instances and means a concrete type is plain. -/
theorem Orderly.plain_of_clean (he : e.Orderly w)
    (haccess : ∀ d, w.package.TopType d → e.accessible? package d = some true) {t : Ty}
    (hclean : e.Clean package t) (hnames : (e.canonical t).Applies w.package.TypeName)
    (hconcrete : (e.canonical t).isConcrete = true) : e.Plain t := by
  rw [he.settled.canonical_eq] at hnames hconcrete
  exact ⟨Ty.isConcrete_of_expand hconcrete, he.everywhere_of_clean haccess hclean hnames hconcrete⟩

/-- Types that stand for concrete types of the package are plain once they call for no instances. -/
theorem Orderly.forall_plain (he : e.Orderly w)
    (haccess : ∀ d, w.package.TopType d → e.accessible? package d = some true) {ts ts' : List Ty}
    (hts : ∀ t ∈ ts, t.Applies w.package.TypeName ∧ t.isConcrete = true)
    (h : List.Forall₂ (Revises w e e) ts ts') (hclean : ∀ t ∈ ts', e.Clean package t) :
    ∀ t ∈ ts', e.Plain t := by
  induction h with
  | nil => exact fun t ht => absurd ht List.not_mem_nil
  | @cons t t' ts ts' hr _ ih =>
    rw [List.forall_mem_cons] at hts hclean ⊢
    obtain ⟨⟨hnames, hconcrete⟩, hrest⟩ := hts
    have hcanonical : e.canonical t' = t := by
      rw [hr.canonical (hnames.mono fun _ _ hd _ => hd.topType)]
      exact he.canonical_of_originals (hnames.handles fun _ _ hd => Package.lt_of_topType hd.topType)
    rw [← hcanonical] at hnames hconcrete
    exact ⟨he.plain_of_clean haccess hclean.1 hnames hconcrete, ih hrest hclean.2⟩

/-- When nothing is in the making, the slots of all instances are clean. -/
theorem AllResolved.clean (hall : AllResolved w e) (hw : w.Tidy) (he : e.Orderly w)
    (hstrict : w.strict = true) (hs : e.access.Steady) {name : String}
    (hname : e.package.Belongs name)
    (hdone : ∀ k slot, e.registry.slots.get? k = some slot → slot.state ≠ .instantiating)
    {key : InstanceKey} {tree : Package.Subtree} {table : Remap}
    (hd : Drawn w.package e key tree table) :
    e.CleanDecls name (tree.decls.map table.decl) ∧ e.CleanExprs name (tree.exprs.map table.expr) := by
  obtain ⟨slot, hslot, hroot⟩ := he.settled.sound.indexed.slot_keyOf hd.keyOf_root
  have hresolved := hall key slot hslot (hdone key slot hslot) hd.leads
  rw [hroot] at hresolved
  obtain ⟨-, root, -, hdecl, -⟩ := hd.decl key.template hd.mem_root
  obtain ⟨t, t', ht, -, -, ht', hdecls, hexprs⟩ :=
    hd.exists_templateSubtree hw.forest he.rooted.underlies hd.mem_root
  rw [Package.templateSubtree?_eq] at ht
  obtain rfl := Option.some.inj (ht.symm.trans hd.tree_eq)
  rw [← hdecls, ← hexprs, ← hname _ root hdecl]
  exact hresolved hstrict hs root t' hdecl ht'

/-! ### Answers -/

/-- The answer to a request that covers everything in scope with concrete types is an instance, and
the key of this instance does so as well. -/
theorem Answered.exists_covering_key {g d : DeclId} {s : Subst} {target : Target}
    (h : e.Answered g s d target e') (hw : w.Tidy) (he : e.Orderly w) (he' : e'.Orderly w)
    {scope : List ParamId} (hscope : w.package.scopeParams? g = some scope) (hne : scope ≠ [])
    (hs : ∀ q ∈ scope, ∃ v, s.get? q = some v ∧ v.isConcrete = true)
    (happlies : s.Applies w.package.TypeName) :
    ∃ t, e'.registry.keyOf? d = some ⟨g, t⟩ ∧ t.Applies w.package.TypeName ∧
      ∀ q ∈ scope, ∃ v, t.get? q = some v ∧ v.isConcrete = true := by
  have hkey : ∃ t, e'.registry.keyOf? d = some ⟨g, t⟩ := by
    have hlt := Package.lt_of_scopeParams? hscope
    obtain ⟨scope', hscope', hcase⟩ := normalize?_eq_some h.normal
    rw [he.templateOf_original hlt, he.rooted.underlies.scopeParams?_eq hw.forest hlt, hscope]
      at hscope'
    obtain rfl := Option.some.inj hscope'
    rw [he.templateOf_original hlt, he.requested_original hlt] at hcase
    have hf := h.fulfills
    rcases hcase with ⟨hnil, -⟩ | ⟨-, hempty, -⟩ | ⟨-, -, rfl⟩
    · exact absurd hnil hne
    · -- Nothing is replaced: but the first parameter is.
      obtain ⟨q, hq⟩ := List.exists_mem_of_ne_nil scope hne
      obtain ⟨v, hv, hconcrete⟩ := hs q hq
      have hnone := Subst.isEmpty_iff.1 hempty q
      rw [get?_arguments, if_pos hq, hv, Option.map_some, Option.filter_eq_none_iff] at hnone
      have hparam := of_decide_eq_false (Bool.eq_false_iff.2 (hnone _ rfl))
      rw [he.settled.eq_param_of_canonical (not_not.1 hparam)] at hconcrete
      cases hconcrete
    · obtain ⟨⟨slot, hslot, rfl⟩, -⟩ := hf
      exact ⟨_, he'.settled.sound.indexed.keyOf_slot hslot⟩
  obtain ⟨t, hk⟩ := hkey
  obtain ⟨scope', hscope', hsubst⟩ := h.get?_subst hw he he'
    (fun v hv => (Subst.applies_iff_values.1 happlies v hv).handles
      fun _ _ hc => Package.lt_of_topType hc.topType) hk
  obtain rfl := Option.some.inj (hscope.symm.trans hscope')
  refine ⟨t, hk, fun q v hq => happlies q v ((hsubst q v).1 hq).2.1, fun q hq => ?_⟩
  obtain ⟨v, hv, hconcrete⟩ := hs q hq
  refine ⟨v, (hsubst q v).2 ⟨hq, hv, fun hparam => ?_⟩, hconcrete⟩
  rw [hparam] at hconcrete
  cases hconcrete

/-- No template is left behind in the types of an instance. In a well-formed package whose code belongs
to one package and whose types mention only parameters in scope, let a request that covers everything in
scope of a template with concrete types be answered in the course of an uneventful run. At the end of
the run no type in the subtree of the answer mentions a parameter, and every declaration that is named
stands without arguments and is not generic. -/
theorem types_of_answer_plain {p : Package} (hp : p.WellFormed) (hscoped : p.Scoped) {name : String}
    (hname : p.Belongs name) (config : Config) {access : AccessRule} (haccess : access.Steady)
    {ops ops' : List Operation} {g d : DeclId} {s : Subst}
    (hops : ∀ op ∈ ops ++ Operation.instantiate g s :: ops',
      op.IsInstantiation ∧ ∀ t ∈ op.types, t.Applies p.TypeName)
    (hrun : (start p config access .reserved).Uneventful (ops ++ Operation.instantiate g s :: ops'))
    (hd : ((start p config access .reserved).afterAll ops).answer g s = .ok d)
    (he : e = (start p config access .reserved).afterAll (ops ++ Operation.instantiate g s :: ops'))
    {scope : List ParamId} (hscope : p.scopeParams? g = some scope) (hne : scope ≠ [])
    (hs : ∀ q ∈ scope, ∃ v, s.get? q = some v ∧ v.isConcrete = true) :
    ∃ tree, e.package.templateSubtree? d = some tree ∧
      (∀ c ∈ tree.decls, ∃ decl, e.package.decl? c = some decl ∧ ∀ t ∈ decl.kind.types, e.Plain t) ∧
      ∀ x ∈ tree.exprs, ∃ expr, e.package.expr? x = some expr ∧ ∀ t ∈ expr.types, e.Plain t := by
  have hw : Setting.Tidy ⟨p, true⟩ := hp.tidy true
  have hserves : ∀ op ∈ ops ++ Operation.instantiate g s :: ops',
      Run.Serves ⟨p, true⟩ (.plain p) op.run := fun op hop =>
    Operation.serves_run_plain hw (hops op hop).1 fun t ht =>
      ((hops op hop).2 t ht).mono fun _ _ h => Setting.names_of_topType h.topType _
  have hstart := orderly_start hw config access
  -- The states before and after the request.
  obtain ⟨e₀, he₀⟩ : ∃ e₀, e₀ = (start p config access .reserved).afterAll ops := ⟨_, rfl⟩
  rw [afterAll_append, ← he₀] at he
  rw [← he₀] at hd
  have hv₀ : Evolves ⟨p, true⟩ (.plain p) (start p config access .reserved) e₀ :=
    he₀ ▸ evolves_afterAll hw hstart fun op hop => hserves op (List.mem_append_left _ hop)
  have horderly₀ := hv₀.orderly hw hstart
  have hv₁ : Evolves ⟨p, true⟩ (.plain p) e₀ (e₀.afterAll [.instantiate g s]) :=
    evolves_afterAll hw horderly₀ fun op hop =>
      hserves op (List.mem_append_right _ (List.mem_singleton.1 hop ▸ List.mem_cons_self))
  have horderly₁ := hv₁.orderly hw horderly₀
  have hv : Evolves ⟨p, true⟩ (.plain p) ((Operation.instantiate g s).after e₀) e :=
    he ▸ evolves_afterAll hw horderly₁ fun op hop =>
      hserves op (List.mem_append_right _ (List.mem_cons_of_mem _ hop))
  have horderly := hv.orderly hw horderly₁
  have hall := (hv₀.trans hv₁).trans hv
  have hdone : ∀ k slot, e.registry.slots.get? k = some slot → slot.state ≠ .instantiating := by
    intro k slot hslot hstate
    have hprogress := progress_afterAll hw hstart hserves hrun
    rw [afterAll_append, ← he₀, ← he] at hprogress
    cases hprogress.finishes k slot hslot hstate
  -- The key of the answer and the drawing that it belongs to.
  obtain ⟨target, hanswered⟩ := horderly₀.settled.answered hd
  obtain ⟨t, hk₁, happlies, hcovers⟩ := hanswered.exists_covering_key hw horderly₀ horderly₁ hscope
    hne hs (Subst.applies_iff_values.2
      (hops (.instantiate g s) (List.mem_append_right _ List.mem_cons_self)).2)
  have hk : e.registry.keyOf? d = some ⟨g, t⟩ :=
    (hv.keyOf (hanswered.lt_answer horderly₁.settled)).trans hk₁
  obtain ⟨key, tree₀, table, hdrawn, hmem, rfl, hsame, hrendered⟩ :=
    hall.allRendered hp hw config access d ⟨g, t⟩ hk
  obtain rfl : t = key.subst := hsame
  obtain ⟨tree, tree', htree, hdecls, hexprs, htree', hmap, hmap'⟩ :=
    hdrawn.exists_templateSubtree hw.forest horderly.rooted.underlies hmem
  rw [Package.templateSubtree?_eq] at htree
  have hbelongs : e.package.Belongs name := hall.belongs hw hstart hname
  obtain ⟨hcleanDecls, hcleanExprs⟩ := (hall.allResolved hw hstart fun k slot hk => by cases hk).clean
    hw horderly rfl (hall.access_eq ▸ haccess) hbelongs hdone hdrawn
  have hopen : ∀ c, p.TopType c → e.accessible? name c = some true := by
    rintro c ⟨decl₀, hc₀, -⟩
    obtain ⟨decl, hc, -⟩ := horderly.rooted.underlies.decl hc₀
    exact accessible?_of_belongs hbelongs hc
  have hconcrete : ∀ {ts : List Ty}, (∀ t ∈ ts, t.Applies p.TypeName) → (∀ t ∈ ts, t.Within scope) →
      ∀ t ∈ ts.map key.subst.apply, t.Applies p.TypeName ∧ t.isConcrete = true := by
    intro ts hts hwithin t ht
    obtain ⟨t₀, ht₀, rfl⟩ := List.mem_map.1 ht
    exact ⟨happlies.apply (hts t₀ ht₀), (hwithin t₀ ht₀).isConcrete_apply hcovers⟩
  refine ⟨tree', htree', fun c' hc' => ?_, fun x' hx' => ?_⟩
  · rw [hmap] at hc'
    obtain ⟨c, hc, rfl⟩ := List.mem_map.1 hc'
    obtain ⟨decl, decl', hdecl, hdecl', -, htypes⟩ := hrendered.decl c (hdecls hc)
    refine ⟨decl', hdecl', horderly.forall_plain hopen (hconcrete (hp.declTypes hdecl) ?_) htypes ?_⟩
    · exact hscoped.decl hdecl (hw.forest.scopeParams?_of_mem htree hc hscope)
    · exact hcleanDecls _ (List.mem_map_of_mem (hdecls hc)) decl' hdecl'
  · rw [hmap'] at hx'
    obtain ⟨x, hx, rfl⟩ := List.mem_map.1 hx'
    obtain ⟨expr, expr', hexpr, hexpr', htypes, -⟩ := hrendered.expr x (hexprs hx)
    obtain ⟨c, hc, hholds⟩ := (Package.mem_exprs_iff htree).1 hx
    refine ⟨expr', hexpr', horderly.forall_plain hopen (hconcrete (hp.exprTypes hexpr) ?_) htypes ?_⟩
    · exact hscoped.expr hholds hexpr (hw.forest.scopeParams?_of_mem htree hc hscope)
    · exact hcleanExprs _ (List.mem_map_of_mem (hexprs hx)) expr' hexpr'

/-- In `Node<Int64>` the type of the field `next`, which is `Node<T>` in the template, is plain. -/
theorem next_of_node_plain :
    ∃ decl, ((start nodePackage {} .visible .reserved).afterAll
        [.instantiate ⟨0⟩ boxSubst]).package.decl? ⟨4⟩ = some decl ∧ decl.kind.types.length = 1 ∧
      ∀ t ∈ decl.kind.types, ((start nodePackage {} .visible .reserved).afterAll
        [.instantiate ⟨0⟩ boxSubst]).Plain t := by
  have hanswer : (start nodePackage {} .visible .reserved).answer ⟨0⟩ boxSubst = .ok ⟨3⟩ := by
    decide +kernel
  have htree : ((start nodePackage {} .visible .reserved).afterAll
      [.instantiate ⟨0⟩ boxSubst]).package.templateSubtree? ⟨3⟩ =
      some { decls := [⟨3⟩, ⟨4⟩, ⟨5⟩], exprs := [⟨1⟩] } := by decide +kernel
  have hlength : (((start nodePackage {} .visible .reserved).afterAll
      [.instantiate ⟨0⟩ boxSubst]).package.decl? ⟨4⟩).map (·.kind.types.length) = some 1 := by
    decide +kernel
  have hname : nodePackage.Belongs "demo" := by decide +kernel
  have hops : ∀ op ∈ [] ++ [Operation.instantiate ⟨0⟩ boxSubst],
      op.IsInstantiation ∧ ∀ t ∈ op.types, t.Applies nodePackage.TypeName := by
    intro op hop
    obtain rfl := List.mem_singleton.1 hop
    refine ⟨trivial, fun t ht => ?_⟩
    obtain rfl : t = .prim .int64 := List.mem_singleton.1 ht
    trivial
  have hcovers : ∀ q ∈ [(⟨⟨0⟩, 0⟩ : ParamId)], ∃ v, boxSubst.get? q = some v ∧ v.isConcrete = true := by
    intro q hq
    obtain rfl := List.mem_singleton.1 hq
    exact ⟨.prim .int64, by decide, rfl⟩
  obtain ⟨tree, htree', hdecls, -⟩ := types_of_answer_plain (by decide +kernel) (by decide +kernel)
    hname {} AccessRule.steady_visible hops (uneventful_of_answer hanswer) hanswer rfl
    (by decide +kernel) (List.cons_ne_nil _ _) hcovers
  obtain rfl := Option.some.inj (htree.symm.trans htree')
  obtain ⟨decl, hdecl, hplain⟩ := hdecls ⟨4⟩ (by simp)
  refine ⟨decl, hdecl, ?_, hplain⟩
  obtain ⟨decl', hdecl', hlength'⟩ := Option.map_eq_some_iff.1 hlength
  obtain rfl := Option.some.inj (hdecl.symm.trans hdecl')
  exact hlength'

/-- A package with a class `Box<T>` that has a class `Inner` and a method `make<U>` that returns an
`Inner`. -/
def innerPackage : Package where
  name := "demo"
  decls := #[
    { name := "Box", kind := .type .classKind [] [⟨1⟩, ⟨2⟩], package := "demo",
      typeParams := [{ id := ⟨⟨0⟩, 0⟩, name := "T" }] },
    { name := "Inner", kind := .type .classKind [] [], package := "demo", parent := some ⟨0⟩ },
    { name := "make", kind := .func [] (.named ⟨1⟩ []) none, package := "demo", parent := some ⟨0⟩,
      typeParams := [{ id := ⟨⟨2⟩, 0⟩, name := "U" }] }]
  topLevel := [⟨0⟩]

/-- The method is made by itself, and the class that it returns stands without arguments: the instance
refers to the template of the class, although an instance of this class exists. -/
theorem inner_class_left_behind :
    let s := Subst.ofList [(⟨⟨0⟩, 0⟩, .prim .int64), (⟨⟨2⟩, 0⟩, .prim .bool)]
    let e := (start innerPackage {} .visible .reserved).afterAll [.instantiate ⟨2⟩ s]
    Setting.Tidy ⟨innerPackage, true⟩ ∧ innerPackage.Scoped ∧ innerPackage.Belongs "demo" ∧
      (start innerPackage {} .visible .reserved).answer ⟨2⟩ s = .ok ⟨3⟩ ∧
      (e.package.decl? ⟨3⟩).map (·.kind.types) = some [.named ⟨1⟩ []] ∧
      e.package.isGeneric? ⟨1⟩ = some true ∧ e.danglingRefs? ⟨3⟩ = some [⟨1⟩] ∧
      e.registry.lookup? ⟨⟨1⟩, boxSubst⟩ = some ⟨5⟩ := by
  decide +kernel

end Engine

end Monomorph
