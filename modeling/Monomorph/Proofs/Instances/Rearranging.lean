import Monomorph.Proofs.Instances.Rewording

/-!
# Rearranging code

A reference is replaced by a reference to an instance of the same template, whichever way the instance
is found: through the arguments of the reference, through the type of the receiver, or through the
extension that is attached to this type. So rearranging a subtree changes nothing but the spelling of
types and the choice among the instances of a template, and only in the slots of the subtree.

## Main definitions

* `Engine.Retargets`: an expression that refers to something of the same template.
* `Patch.ofTree`: the slots of a subtree.

## Main results

* `Engine.Orderly.keyOf_of_extension`: only registered instances are members of extension instances.
* `Run.works_rearrangeExpr`: what rearranging an expression does.
* `Run.works_rearrange_of_slots`, `Run.works_rearrange`: what rearranging a subtree does.
-/

namespace Monomorph

variable {α : Type} {w : Setting} {S S' : Patch} {e e' : Engine}

/-! ### Members of extensions -/

namespace DeclKind

theorem isExtension_skeleton (kind : DeclKind) : kind.skeleton.isExtension = kind.isExtension := by
  cases kind <;> rfl

theorem isExtension_carry (f : DeclId → DeclId) (g : ExprId → ExprId) (keep : DeclId → Bool)
    (kind : DeclKind) : (kind.carry f g keep).isExtension = kind.isExtension := by
  cases kind <;> rfl

end DeclKind

/-- An extension has members and nothing else below it. -/
theorem Package.children?_of_isExtension {p : Package} {d : DeclId} {decl : Decl}
    {children : List DeclId} (hd : p.decl? d = some decl) (hkind : decl.kind.isExtension = true)
    (hch : p.children? d = some children) : children = decl.kind.members := by
  obtain ⟨name, kind⟩ := decl
  cases kind with
  | extension extended interfaces bounds members =>
    simp only [children?, hd, code?, DeclKind.rootExpr?, letVars?, DeclKind.params,
      Option.bind_eq_bind, Option.bind_some, List.append_nil] at hch
    exact (Option.some.inj hch).symm
  | func | type | interface | var | placeholder => cases hkind

namespace Engine

/-- Whatever is below an extension instance is registered: anything else whose parent is an extension
belongs to the package. -/
theorem Orderly.lt_of_extension (hw : w.Tidy) (he : e.Orderly w) {d ext : DeclId}
    {decl extDecl : Decl} (hk : e.registry.keyOf? d = none) (hd : e.package.decl? d = some decl)
    (hparent : decl.parent = some ext) (hext : e.package.decl? ext = some extDecl)
    (hkind : extDecl.kind.isExtension = true) : d.index < w.package.decls.size := by
  by_contra hlt
  obtain ⟨key, tree, table, hdrawn, c, hc, rfl⟩ :=
    he.covered (Nat.le_of_not_lt hlt) (Package.lt_of_decl? hd)
  obtain ⟨decl₀, decl', hd₀, hd', hdraw⟩ := hdrawn.decl c hc
  obtain rfl := Option.some.inj (hd.symm.trans hd')
  have hne : c ≠ key.template := by
    rintro rfl
    rw [hdrawn.keyOf_root] at hk
    cases hk
  obtain rfl | ⟨b, hb, children, hch, hmem⟩ := Package.eq_or_child_of_mem hdrawn.tree_eq hc
  · exact hne rfl
  · obtain ⟨decl₁, hd₁, hparent₀⟩ := hw.forest.parent_of_mem hch hmem
    obtain rfl := Option.some.inj (hd₀.symm.trans hd₁)
    rw [hdraw.parent hne, hparent₀] at hparent
    obtain rfl := Option.some.inj hparent
    obtain ⟨declb, declb', hdb, hdb', hdrawb⟩ := hdrawn.decl b hb
    obtain rfl := Option.some.inj (hext.symm.trans hdb')
    rw [← DeclKind.isExtension_skeleton, hdrawb.skeleton, DeclKind.isExtension_skeleton,
      DeclKind.isExtension_carry] at hkind
    rw [Package.children?_of_isExtension hdb hkind hch] at hmem
    rw [hdrawn.keyOf_member b hb declb hdb c hmem hc] at hk
    cases hk

/-- So its parent is the extension of the package. -/
theorem Orderly.keyOf_of_extension (hw : w.Tidy) (he : e.Orderly w) {d ext : DeclId}
    {decl extDecl : Decl} (hk : e.registry.keyOf? d = none) (hd : e.package.decl? d = some decl)
    (hparent : decl.parent = some ext) (hext : e.package.decl? ext = some extDecl)
    (hkind : extDecl.kind.isExtension = true) : e.registry.keyOf? ext = none := by
  obtain ⟨decl₀, hd₀, ho⟩ := he.rooted.underlies.exists_decl
    (he.lt_of_extension hw hk hd hparent hext hkind) hd
  rw [Decl.parent_eq_of_outline ho] at hparent
  exact he.keyOf_original (hw.forest.parent hd₀ hparent)

/-- A member of an instance was made from the template that its origin says. -/
theorem Orderly.templateOf_of_origin (hw : w.Tidy) (he : e.Orderly w) {inst d c : DeclId}
    {k : InstanceKey} {instDecl decl : Decl} (hk : e.registry.keyOf? inst = some k)
    (hinst : e.package.decl? inst = some instDecl) (hmem : d ∈ instDecl.kind.members)
    (hd : e.package.decl? d = some decl) (horigin : decl.origin = some c) :
    e.templateOf d = c := by
  obtain ⟨key, tree, table, hdrawn, hc, rfl, -⟩ := he.drawn hk
  obtain ⟨c', -, -, hkd⟩ := hdrawn.exists_of_mem_members hc hinst hmem hw.forest
  have horigin' := he.origin hkd hd
  rw [horigin] at horigin'
  rw [Orderly.templateOf_of_keyOf hkd]
  exact (Option.some.inj horigin').symm

end Engine

/-! ### Finding the instance -/

namespace Run

open Engine (Orderly Progress Rearranged)

variable {make : Instantiator} {fuel : Nat} {site : Site}

theorem works_findByOrigin (template : DeclId) (ds : List DeclId) :
    (findByOrigin template ds).Works w S e fun found e' => e' = e ∧ ∀ d, found = some d → d ∈ ds ∧
      ∃ decl, e.package.decl? d = some decl ∧ decl.origin = some template := by
  induction ds with
  | nil => exact .pure ⟨rfl, nofun⟩
  | cons d rest ih =>
    refine Works.decl_bind fun decl hd => ?_
    split
    · rename_i horigin
      refine Works.pure ⟨rfl, fun d' hd' => ?_⟩
      obtain rfl := Option.some.inj hd'
      exact ⟨List.mem_cons_self, decl, hd, horigin⟩
    · refine Works.mono ih fun found e' _ ⟨he', hfound⟩ => ⟨he', fun d' hd' => ?_⟩
      obtain ⟨hmem, hdecl⟩ := hfound d' hd'
      exact ⟨List.mem_cons_of_mem _ hmem, hdecl⟩

/-- The result of looking for an instance of a template. -/
def Resolves (template : DeclId) (found : Option DeclId) (e : Engine) : Prop :=
  ∀ inst, found = some inst → e.templateOf inst = template ∧ inst.index < e.package.decls.size

theorem Resolves.none (template : DeclId) (e : Engine) : Resolves template none e := nofun

section Resolving

variable (hw : w.Tidy) (hm : Makes w make)

include hw hm

/-- An instance that is made of a template. -/
theorem works_make (he : e.Orderly w) {template : DeclId} (ht : e.templateOf template = template)
    {s : Subst} (hs : s.Applies w.Names) :
    (do return some (← make template s) : Run _).Works w .empty e (Resolves template) := by
  refine .bind hw he (hm.templateOf hw template hs he) fun d e' _ _ hd => .pure fun inst hinst => ?_
  obtain rfl := Option.some.inj hinst
  exact ⟨hd.1.trans ht, hd.2⟩

theorem works_resolveExtensionMember (he : e.Orderly w) {owner : Ty} (howner : owner.Applies w.Names)
    {member : DeclId} (hmember : e.registry.keyOf? member = none)
    (hext : ∀ decl ext, e.package.decl? member = some decl → decl.parent = some ext →
      ∃ extDecl, e.package.decl? ext = some extDecl ∧ extDecl.kind.isExtension = true)
    {typeArgs : List Ty} (hargs : ∀ t ∈ typeArgs, t.Applies w.Names) :
    (resolveExtensionMember make fuel owner member typeArgs).Works w .empty e (Resolves member) := by
  refine .decl_bind fun decl hd => ?_
  have hlt := Package.lt_of_decl? hd
  have htemplate : e.templateOf member = member := by rw [Engine.templateOf, hmember]
  split
  · exact .pure (.none member e)
  · rename_i ext hparent
    obtain ⟨extDecl, hextDecl, hkind⟩ := hext decl ext hd hparent
    have hkext := he.keyOf_of_extension hw hmember hd hparent hextDecl hkind
    refine .bind hw he (serves_canonical howner e he) fun canon e₁ he₁ hp₁ hcanon => ?_
    refine .bind hw he₁ (serves_ensureExtensions hw hm hcanon e₁ he₁) fun _ e₂ he₂ hp₂ _ => ?_
    have hp := (hp₁.trans hp₂).evolves
    have htemplate₂ := (hp.templateOf_eq hlt).trans htemplate
    refine .get_bind ?_
    split
    · exact .pure (.none member e₂)
    · rename_i inst hattached
      refine .decl_bind fun decl₂ hd₂ => ?_
      split
      · split
        · exact .pure (.none member e₂)
        · refine .bind hw he₂ (works_instantiateMember hw hm inst member hargs he₂)
            fun d e₃ _ _ hd₃ => .pure fun inst' hinst' => ?_
          obtain rfl := Option.some.inj hinst'
          exact ⟨hd₃.1.trans htemplate₂, hd₃.2⟩
      · split
        · refine .pure fun inst' hinst' => ?_
          obtain rfl := Option.some.inj hinst'
          exact ⟨htemplate₂, Nat.lt_of_lt_of_le hlt hp.decls_le⟩
        · rename_i hne
          refine .decl_bind fun instDecl hinst => ?_
          -- What is attached and not the extension of the package itself is an instance of it.
          have hkinst : ∃ k, e₂.registry.keyOf? inst = some k := by
            cases hk : e₂.registry.keyOf? inst with
            | some k => exact ⟨k, rfl⟩
            | none =>
              have hsame := (he₂.attached hattached).2.2
              have hkext₂ := (hp.keyOf (Package.lt_of_decl? hextDecl)).trans hkext
              rw [Engine.templateOf, hk, Engine.templateOf, hkext₂] at hsame
              exact absurd hsame hne
          obtain ⟨k, hkinst⟩ := hkinst
          refine (works_findByOrigin member instDecl.kind.members).mono ?_
          rintro found e' _ ⟨rfl, hfound⟩ d hd'
          obtain ⟨hmem, decl', hdecl', horigin⟩ := hfound d hd'
          exact ⟨he₂.templateOf_of_origin hw hkinst hinst hmem hdecl' horigin,
            Package.lt_of_decl? hdecl'⟩

omit hw hm in
theorem applies_withTypeArgs {s : Subst} (hs : s.Applies w.Names) (own : List ParamId)
    {typeArgs : List Ty} (hargs : ∀ t ∈ typeArgs, t.Applies w.Names) :
    (withTypeArgs s own typeArgs).Applies w.Names := by
  unfold withTypeArgs
  split
  · exact hs.insertAll own hargs
  · exact hs

theorem works_resolveRef (hsite : site.subst.Applies w.Names) (he : e.Orderly w) (target : DeclId)
    {typeArgs : List Ty} (hargs : ∀ t ∈ typeArgs, t.Applies w.Names) :
    (resolveRef make site target typeArgs).Works w .empty e (Resolves (e.templateOf target)) := by
  refine .get_bind (.query_bind fun generic _ => ?_)
  split
  · exact .pure (.none _ e)
  · split
    · exact .pure (.none _ e)
    · refine .query_bind fun access _ => ?_
      split
      · exact .pure (.none _ e)
      · refine .bind hw he (R := fun s e' => e' = e ∧ s.Applies w.Names) ?_ ?_
        · refine .get_bind ?_
          split
          · rename_i key hk
            exact .pure ⟨rfl, he.applies hk⟩
          · refine .query_bind fun scope _ => ?_
            exact .pure ⟨rfl, hsite.restrict scope⟩
        · rintro s e' - - ⟨rfl, hs⟩
          refine .decl_bind fun decl _ => ?_
          dsimp only
          split
          · exact .pure (.none _ _)
          · exact works_make hw hm he (he.templateOf_templateOf target)
              (applies_withTypeArgs hs decl.ownParams hargs)

theorem works_resolveMember (hsite : site.subst.Applies w.Names) (he : e.Orderly w) {owner : Ty}
    (howner : owner.Applies w.Names) (member : DeclId) {typeArgs : List Ty}
    (hargs : ∀ t ∈ typeArgs, t.Applies w.Names) :
    (resolveMember make fuel site owner member typeArgs).Works w .empty e
      (Resolves (e.templateOf member)) := by
  refine .get_bind (.decl_bind fun decl _ => ?_)
  split
  · exact .pure (.none _ e)
  · rename_i parent _
    have hfind : ∀ fallback : Subst, fallback.Applies w.Names → Works w .empty (do
        let found ← ofExcept (e.receiverSubst fuel owner parent)
        let s := withTypeArgs (found.getD fallback) decl.ownParams typeArgs
        if !s.isConcrete then return none
        return some (← make (e.templateOf member) s)) e (Resolves (e.templateOf member)) := by
      intro fallback hfallback
      refine .bind hw he (R := fun found e' => e' = e ∧ ∀ s, found = some s → s.Applies w.Names)
        (.ofExcept (e.receiverSubstFrom_ne_broken parent fuel _ _) fun found hfound => ⟨rfl, ?_⟩) ?_
      · rintro s rfl
        exact he.applies_receiverSubstFrom (List.forall_mem_singleton.2 howner) hfound
      · rintro found e' - - ⟨rfl, hfound⟩
        dsimp only
        split
        · exact .pure (.none _ _)
        · refine works_make hw hm he (he.templateOf_templateOf member)
            (applies_withTypeArgs ?_ decl.ownParams hargs)
          cases found with
          | none => exact hfallback
          | some s => exact hfound s rfl
    refine .get_bind (.get_bind ?_)
    dsimp only
    split
    · rename_i key hk
      exact hfind key.subst (he.applies hk)
    · exact hfind site.subst hsite

theorem works_resolveAccess (hsite : site.subst.Applies w.Names) (he : e.Orderly w) {owner : Ty}
    (howner : owner.Applies w.Names) (member : DeclId) {typeArgs : List Ty}
    (hargs : ∀ t ∈ typeArgs, t.Applies w.Names) :
    (resolveAccess make fuel site owner member typeArgs).Works w .empty e
      (Resolves (e.templateOf member)) := by
  have hkey : e.registry.keyOf? (e.templateOf member) = none := by
    cases hk : e.registry.keyOf? member with
    | none => rwa [Engine.templateOf, hk]
    | some k =>
      rw [Orderly.templateOf_of_keyOf hk]
      exact he.keyOf_original (he.rooted.template_lt hk)
  refine .get_bind (.bind hw he (R := fun found e' => e' = e ∧ (found = true →
    ∀ decl ext, e.package.decl? (e.templateOf member) = some decl → decl.parent = some ext →
      ∃ extDecl, e.package.decl? ext = some extDecl ∧ extDecl.kind.isExtension = true)) ?_ ?_)
  · refine .decl_bind fun decl hd => ?_
    split
    · exact .pure ⟨rfl, fun hfalse => Bool.noConfusion hfalse⟩
    · rename_i parent hparent
      refine .decl_bind fun extDecl hext => .pure ⟨rfl, fun hkind decl' ext hd' hparent' => ?_⟩
      obtain rfl := Option.some.inj (hd.symm.trans hd')
      obtain rfl := Option.some.inj (hparent.symm.trans hparent')
      exact ⟨extDecl, hext, hkind⟩
  · rintro found e' - - ⟨rfl, hfound⟩
    split
    · rename_i hcase
      rw [Bool.and_eq_true] at hcase
      exact works_resolveExtensionMember hw hm he howner hkey (hfound hcase.1) hargs
    · refine .query_bind fun generic _ => ?_
      split
      · exact .pure (.none _ _)
      · refine .query_bind fun access _ => ?_
        split
        · exact .pure (.none _ _)
        · exact works_resolveMember hw hm hsite he howner member hargs

end Resolving

end Run

/-! ### Expressions -/

namespace Engine

/-- An expression refers to something of the same template. -/
def Retargets (e : Engine) (expr expr' : Expr) : Prop :=
  ∀ c', expr'.kind.target? = some c' → c'.index < e.package.decls.size ∧
    ∃ c, expr.kind.target? = some c ∧ e.templateOf c' = e.templateOf c

theorem Retargets.refl {expr : Expr}
    (h : ∀ c, expr.kind.target? = some c → c.index < e.package.decls.size) :
    Retargets e expr expr :=
  fun c hc => ⟨h c hc, c, hc, rfl⟩

end Engine

namespace Run

open Engine (Orderly Progress Rearranged Retargets)

variable {make : Instantiator} {fuel : Nat} {site : Site}

/-- An expression gets the target that was found. -/
theorem works_retarget (hw : w.Tidy) (he : e.Orderly w) {expr : Expr} {old : DeclId}
    {form : DeclId → ExprKind} {resolved : Run (Option DeclId)}
    (hexpr : expr.kind.target? = some old) (hform : ∀ d, (form d).target? = some d)
    (htypes : ∀ d, (form d).types = expr.kind.types) (hold : old.index < e.package.decls.size)
    (hr : resolved.Works w .empty e (Resolves (e.templateOf old))) :
    Sweep.Works w .empty (retarget expr old form resolved) e fun expr' e' =>
      expr'.types = expr.types ∧ Retargets e' expr expr' := by
  have hresolved : resolved.unlessBroken.Works w .empty e fun found e' =>
      ∃ inst, found = some inst ∧ Resolves (e.templateOf old) inst e' :=
    .unlessBroken (hr.mono fun inst e' _ h => ⟨inst, rfl, h⟩)
  refine .bind hw he (.lift hresolved) fun found e₁ he₁ hp₁ hfound => ?_
  obtain ⟨inst, rfl, hinst⟩ := hfound
  have hkeep : Retargets e₁ expr expr := .refl fun c hc => by
    rw [hexpr] at hc
    obtain rfl := Option.some.inj hc
    exact Nat.lt_of_lt_of_le hold hp₁.evolves.decls_le
  cases inst with
  | none => exact .pure ⟨rfl, hkeep⟩
  | some inst =>
    dsimp only
    split
    · exact .pure ⟨rfl, hkeep⟩
    · obtain ⟨htemplate, hlt⟩ := hinst inst rfl
      have hdone : Expr.types { expr with kind := form inst } = expr.types ∧
          Retargets e₁ expr { expr with kind := form inst } := by
        refine ⟨congrArg (List.cons expr.ty) (htypes inst), fun c' hc' => ?_⟩
        rw [hform inst] at hc'
        obtain rfl := Option.some.inj hc'
        exact ⟨hlt, old, hexpr, htemplate.trans (hp₁.evolves.templateOf_eq hold).symm⟩
      refine .bind hw he₁ (.markChanged hdone) fun _ _ _ _ hdone => .pure hdone

variable (hw : w.Tidy) (hm : Makes w make) (hsite : site.subst.Applies w.Names)

include hw hm hsite

theorem works_rearrangeTarget (he : e.Orderly w) {expr : Expr}
    (hts : ∀ t ∈ expr.types, t.Applies w.Names)
    (htarget : ∀ c, expr.kind.target? = some c → c.index < e.package.decls.size) :
    Sweep.Works w .empty (rearrangeTarget make fuel site expr) e fun expr' e' =>
      expr'.types = expr.types ∧ Retargets e' expr expr' := by
  obtain ⟨kind, ty, span⟩ := expr
  cases kind with
  | ref target typeArgs =>
    refine works_retarget hw he rfl (fun _ => rfl) (fun _ => rfl) (htarget target rfl) ?_
    exact works_resolveRef hw hm hsite he target fun t ht => hts t (List.mem_cons_of_mem _ ht)
  | member base owner target typeArgs =>
    refine works_retarget hw he rfl (fun _ => rfl) (fun _ => rfl) (htarget target rfl) ?_
    exact works_resolveAccess hw hm hsite he (hts owner (List.mem_cons_of_mem _ List.mem_cons_self))
      target fun t ht => hts t (List.mem_cons_of_mem _ (List.mem_cons_of_mem _ ht))
  | lit | call | letVar | block | ret | binary | cond => exact .pure ⟨rfl, .refl htarget⟩

/-- Rearranging an expression. -/
theorem works_rearrangeExpr (he : e.Orderly w) {expr : Expr}
    (hts : ∀ t ∈ expr.types, t.Applies (w.Fits e.package.decls.size))
    (htarget : ∀ c, expr.kind.target? = some c → c.index < e.package.decls.size) :
    Sweep.Works w .empty (rearrangeExpr make fuel site expr) e fun expr' e' =>
      List.Forall₂ (Rearranged w site.package e') expr.types expr'.types ∧
        Retargets e' expr expr' := by
  refine .bind hw he (works_rearrangeExprTypes hw hm he hts) fun expr₁ e₁ he₁ hp₁ h₁ => ?_
  obtain ⟨htypes, hsame⟩ := h₁
  have hfits := Engine.Rewords.forall_fits (htypes.imp fun _ _ => Rearranged.toRewords)
  refine (works_rearrangeTarget hw hm hsite he₁ (fun t ht => (hfits t ht).names) fun c hc => ?_).mono
    fun expr₂ e₂ hp₂ h₂ => ⟨?_, fun c' hc' => ?_⟩
  · rw [hsame] at hc
    exact Nat.lt_of_lt_of_le (htarget c hc) hp₁.evolves.decls_le
  · rw [h₂.1]
    exact Rearranged.forall_mono hw he₁ hp₂.evolves htypes fun t ht =>
      (hts t ht).grow hp₁.evolves.decls_le
  · obtain ⟨hlt, c, hc, htemplate⟩ := h₂.2 c' hc'
    exact ⟨hlt, c, hsame.symm.trans hc, htemplate⟩

end Run

/-! ### Subtrees -/

namespace Patch

/-- Some declarations. -/
def ofDecls (ds : List DeclId) : Patch := ⟨(· ∈ ds), fun _ => False, fun _ => False⟩

/-- Some expressions. -/
def ofExprs (xs : List ExprId) : Patch := ⟨fun _ => False, (· ∈ xs), fun _ => False⟩

/-- The slots of a subtree. -/
def ofTree (tree : Package.Subtree) : Patch := ⟨(· ∈ tree.decls), (· ∈ tree.exprs), fun _ => False⟩

end Patch

namespace Engine

section Later

variable (hw : w.Tidy) (he : e.Orderly w) (hv : Evolves w S e e') (hstrict : w.strict = true)
  (hs : e.access.Steady) {package : String}

include hw he hv hstrict hs

/-- Declarations that are not touched stay clean. -/
theorem Evolves.cleanDecls {ds : List DeclId} (hds : ∀ d ∈ ds, d.index < e.package.decls.size)
    (hS : ∀ d ∈ ds, ¬ S.decl d ∧ ¬ S.note d) (h : e.CleanDecls package ds) :
    e'.CleanDecls package ds := by
  intro d hd decl hdecl t ht
  rw [hv.decl_eq hw he (hds d hd) (hS d hd).1 (hS d hd).2] at hdecl
  exact hv.clean hw he hstrict hs (he.declTypes hdecl t ht) (h d hd decl hdecl t ht)

/-- Expressions that are not touched stay clean. -/
theorem Evolves.cleanExprs {xs : List ExprId} (hxs : ∀ x ∈ xs, x.index < e.package.exprs.size)
    (hS : ∀ x ∈ xs, ¬ S.expr x) (h : e.CleanExprs package xs) : e'.CleanExprs package xs := by
  intro x hx expr hexpr t ht
  rw [hv.expr_eq hw he (hxs x hx) (hS x hx)] at hexpr
  exact hv.clean hw he hstrict hs (he.exprTypes hexpr t ht) (h x hx expr hexpr t ht)

end Later

end Engine

namespace Run

open Engine (Orderly Progress Evolves Finishes Rearranged Rewords Retargets CleanDecls CleanExprs)

variable {make : Instantiator} {fuel : Nat} {site : Site}

theorem works_retype {d : DeclId} {decl : Decl} {kind : DeclKind}
    (hd : e.package.decl? d = some decl) (hS : S.decl d)
    (hs : kind.skeleton = decl.kind.skeleton)
    (ht : List.Forall₂ (e.Rewords w) decl.kind.types kind.types) :
    (modifyDecl d fun decl => { decl with kind := kind }).Works w S e fun _ e' =>
      e'.package.decl? d = some { decl with kind := kind } := by
  refine meets_modifyDecl (fun decl' hd' => ?_) ⟨nofun, .refl w S e⟩
  obtain rfl := Option.some.inj (hd.symm.trans hd')
  exact ⟨⟨.step (.retype hd (.inr hS) hs ht), fun _ _ hk _ => hk⟩,
    Package.decl?_setDecl_self (Package.lt_of_decl? hd) _⟩

theorem works_reexpress {x : ExprId} {expr expr' : Expr} (hx : e.package.expr? x = some expr)
    (hS : S.expr x) (hs : expr'.skeleton = expr.skeleton)
    (ht : List.Forall₂ (e.Rewords w) expr.types expr'.types) (hr : Retargets e expr expr') :
    (modifyPackage (·.setExpr x expr')).Works w S e fun _ e' =>
      e'.package.expr? x = some expr' :=
  ⟨⟨.step (.reexpress hx (.inr hS) hs ht hr), fun _ _ hk _ => hk⟩,
    (Package.expr?_setExpr _ _ _ _).trans (if_pos ⟨rfl, Package.lt_of_expr? hx⟩)⟩

variable (hw : w.Tidy) (hm : Makes w make)

include hw hm

/-- Rearranging declarations. -/
theorem works_rearrangeDecls (he : e.Orderly w) (ds : List DeclId) :
    Sweep.Works w (.ofDecls ds) (rearrangeDecls make site ds) e fun _ e' =>
      w.strict = true → e'.access.Steady → e'.CleanDecls site.package ds := by
  induction ds generalizing e with
  | nil => exact .pure fun _ _ => nofun
  | cons d rest ih =>
    refine .query_bind fun decl hd => ?_
    have hkind := ((works_rearrangeKind hw hm he (he.declTypes hd)).returns
      (DeclKind.skeleton_mapTypes (rearrangeTy make site) decl.kind)).mono fun kind e₁ hp₁ h₁ =>
        And.intro h₁ ((hp₁.evolves.decl_eq hw he (Package.lt_of_decl? hd) id id).trans hd)
    refine .bind hw he hkind.of_empty fun kind e₁ he₁ _ ⟨⟨htypes, hskeleton⟩, hd₁⟩ => ?_
    refine .bind hw he₁ (.lift (works_retype hd₁ List.mem_cons_self hskeleton
      (htypes.imp fun _ _ => Rearranged.toRewords))) fun _ e₂ he₂ hp₂ hd₂ => ?_
    refine .within (.mono (ih he₂) fun _ e₃ hp₃ hrest hstrict hs => ?_)
      ⟨fun _ => List.mem_cons_of_mem _, fun _ => id, fun _ => id⟩
    have hs₂ : e₂.access.Steady := hp₃.evolves.access_eq ▸ hs
    have hs₁ : e₁.access.Steady := hp₂.evolves.access_eq ▸ hs₂
    intro d' hd'
    by_cases hmem : d' ∈ rest
    · exact hrest hstrict hs d' hmem
    · obtain rfl := (List.mem_cons.1 hd').resolve_right hmem
      have hclean₂ : e₂.CleanDecls site.package [d'] := by
        intro c hc declc hdeclc t ht
        obtain rfl := List.mem_singleton.1 hc
        obtain rfl := Option.some.inj (hd₂.symm.trans hdeclc)
        exact hp₂.evolves.clean hw he₁ hstrict hs₁ ((Rewords.forall_fits
          (htypes.imp fun _ _ => Rearranged.toRewords)) t ht)
          (Rearranged.forall_cleaned htypes hstrict hs₁ t ht)
      refine hp₃.evolves.cleanDecls hw he₂ hstrict hs₂ ?_ ?_ hclean₂ d' List.mem_cons_self
      · exact List.forall_mem_singleton.2 (Package.lt_of_decl? hd₂)
      · exact List.forall_mem_singleton.2 ⟨hmem, id⟩

omit hm in
/-- An expression is rearranged and put in its place, and the others follow. -/
theorem works_rearrangeNext (he : e.Orderly w) {x : ExprId} {xs : List ExprId} {expr : Expr}
    (hx : e.package.expr? x = some expr) {P : Expr → Engine → Prop}
    (hexpr : Sweep.Works w .empty (rearrangeExpr make fuel site expr) e P)
    (hrevised : ∀ expr' e₁, P expr' e₁ → List.Forall₂ (e₁.Rewords w) expr.types expr'.types ∧
      Retargets e₁ expr expr')
    {Q : Unit → Engine → Prop} (hnext : ∀ expr' e₁ e₂, e₁.Orderly w → P expr' e₁ →
      Evolves w .empty e e₁ → Evolves w (.ofExprs [x]) e₁ e₂ → e₂.package.expr? x = some expr' →
      Sweep.Works w (.ofExprs xs) (rearrangeExprs make fuel site xs) e₂ Q) :
    Sweep.Works w (.ofExprs (x :: xs)) (do
      let expr' ← rearrangeExpr make fuel site expr
      modifyPackage (·.setExpr x expr')
      rearrangeExprs make fuel site xs) e Q := by
  have hfound := (hexpr.returns (skeleton_rearrangeExpr make fuel site expr)).mono
    fun _ _ hp₁ h₁ => And.intro h₁ hp₁.evolves
  refine .bind hw he hfound.of_empty ?_
  rintro expr' e₁ he₁ - ⟨⟨hP, hskeleton⟩, hv₁⟩
  have hx₁ := (hv₁.expr_eq hw he (Package.lt_of_expr? hx) id).trans hx
  obtain ⟨hwords, hretargets⟩ := hrevised expr' e₁ hP
  have hset := (works_reexpress (S := .ofExprs [x]) hx₁ List.mem_cons_self hskeleton hwords
    hretargets).mono fun _ _ hp₂ hx₂ => And.intro hx₂ hp₂.evolves
  refine .bind hw he₁ (.within (.lift hset) ⟨fun _ => id, fun y hy => ?_, fun _ => id⟩) ?_
  · rw [List.mem_singleton.1 hy]
    exact List.mem_cons_self
  · rintro _ e₂ - - ⟨hx₂, hv₂⟩
    exact .within (hnext expr' e₁ e₂ he₁ hP hv₁ hv₂ hx₂)
      ⟨fun _ => id, fun _ => List.mem_cons_of_mem _, fun _ => id⟩

/-- Rearranging expressions. -/
theorem works_rearrangeExprs (hsite : site.subst.Applies w.Names) (he : e.Orderly w)
    (xs : List ExprId) :
    Sweep.Works w (.ofExprs xs) (rearrangeExprs make fuel site xs) e fun _ e' =>
      w.strict = true → e'.access.Steady → e'.CleanExprs site.package xs := by
  induction xs generalizing e with
  | nil => exact .pure fun _ _ => nofun
  | cons x rest ih =>
    refine .query_bind fun expr hx => ?_
    refine works_rearrangeNext hw he hx (works_rearrangeExpr hw hm hsite he (he.exprTypes hx)
      fun c hc => he.target hx hc) (fun expr' e₁ h₁ => ⟨h₁.1.imp fun _ _ => Rearranged.toRewords, h₁.2⟩) ?_
    rintro expr' e₁ e₂ he₁ ⟨htypes, -⟩ - hv₂ hx₂
    have he₂ := hv₂.orderly hw he₁
    refine (ih he₂).mono fun _ e₃ hp₃ hrest hstrict hs => ?_
    have hs₂ : e₂.access.Steady := hp₃.evolves.access_eq ▸ hs
    have hs₁ : e₁.access.Steady := hv₂.access_eq ▸ hs₂
    intro x' hx'
    by_cases hmem : x' ∈ rest
    · exact hrest hstrict hs x' hmem
    · obtain rfl := (List.mem_cons.1 hx').resolve_right hmem
      have hclean₂ : e₂.CleanExprs site.package [x'] := by
        intro y hy expry hexpry t ht
        obtain rfl := List.mem_singleton.1 hy
        obtain rfl := Option.some.inj (hx₂.symm.trans hexpry)
        exact hv₂.clean hw he₁ hstrict hs₁ ((Rewords.forall_fits
          (htypes.imp fun _ _ => Rearranged.toRewords)) t ht)
          (Rearranged.forall_cleaned htypes hstrict hs₁ t ht)
      refine hp₃.evolves.cleanExprs hw he₂ hstrict hs₂ ?_ ?_ hclean₂ x' List.mem_cons_self
      · exact List.forall_mem_singleton.2 (Package.lt_of_expr? hx₂)
      · exact List.forall_mem_singleton.2 hmem

omit hm in
/-- Rearranging a subtree comes down to rearranging its slots: nothing is marked as broken. -/
theorem works_rearrange_of_slots (he : e.Orderly w) {root : DeclId} {tree : Package.Subtree}
    (htree : e.package.templateSubtree? root = some tree) {Q : Decl → Engine → Prop}
    (hslots : ∀ decl, e.package.decl? root = some decl → Sweep.Works w S (do
      rearrangeDecls make ⟨e.substOf root, decl.package⟩ tree.decls
      rearrangeExprs make fuel ⟨e.substOf root, decl.package⟩ tree.exprs) e fun _ e' => Q decl e') :
    (rearrange make fuel root).Works w S e fun _ e' =>
      ∃ decl, e.package.decl? root = some decl ∧ Q decl e' := by
  refine .query_bind fun tree' htree' => ?_
  obtain rfl := Option.some.inj (htree.symm.trans htree')
  refine .get_bind (.decl_bind fun decl hd => ?_)
  refine .bind hw he (hslots decl hd {} rfl) ?_
  rintro ⟨⟨⟩, marks⟩ e' - - ⟨hmarks, hQ⟩
  dsimp only at hmarks ⊢
  rw [hmarks]
  exact .pure ⟨decl, hd, hQ⟩

/-- Rearranging a subtree. -/
theorem works_rearrange (he : e.Orderly w) {root : DeclId} {tree : Package.Subtree}
    (htree : e.package.templateSubtree? root = some tree) :
    (rearrange make fuel root).Works w (.ofTree tree) e fun _ e' =>
      ∃ decl, e.package.decl? root = some decl ∧ (w.strict = true → e'.access.Steady →
        e'.CleanDecls decl.package tree.decls ∧ e'.CleanExprs decl.package tree.exprs) := by
  have hlt : ∀ d ∈ tree.decls, d.index < e.package.decls.size := by
    rw [Package.templateSubtree?_eq] at htree
    exact fun d hd => Package.lt_of_mem_treeWithin htree hd
  refine works_rearrange_of_slots hw he htree fun decl _ => ?_
  refine .bind hw he (.within (works_rearrangeDecls hw hm he tree.decls)
    ⟨fun _ => id, fun _ => False.elim, fun _ => id⟩) fun _ e₁ he₁ hp₁ hdecls => ?_
  refine .within (.mono (works_rearrangeExprs hw hm (he.applies_substOf root) he₁ tree.exprs)
    fun _ e₂ hp₂ hexprs hstrict hs => ⟨?_, hexprs hstrict hs⟩)
    ⟨fun _ => False.elim, fun _ => id, fun _ => id⟩
  have hs₁ : e₁.access.Steady := hp₂.evolves.access_eq ▸ hs
  refine hp₂.evolves.cleanDecls hw he₁ hstrict hs₁ (fun d hd => ?_) (fun _ _ => ⟨id, id⟩)
    (hdecls hstrict hs₁)
  exact Nat.lt_of_lt_of_le (hlt d hd) hp₁.evolves.decls_le

end Run

end Monomorph
