import Monomorph.Proofs.Instances.Completion
import Monomorph.Proofs.Instances.Retargeting

/-!
# Transcripts of templates

A fresh instance is a transcript of its template: its types are those of the template under the
substitution of the key, and its references lead to the package, to instances that were made with it, or to
parts of it that are no instances. So rearranging it supplies what the key calls for on account of its types
and expressions.

## Main definitions

* `Engine.Transcript`: the slots of an instance are those of the template under the substitution.

## Main results

* `Engine.Draft.transcript`: a draft is a transcript.
* `Run.supplies_rearrange`: rearranging a transcript supplies what its slots call for.
-/

namespace Monomorph

namespace Engine

variable {w : Setting} {S : Patch} {b e e' : Engine} {key : InstanceKey} {tree : Package.Subtree}
  {table : Remap}

/-- An expression of an instance that was copied from the expression `expr₀` of the template. -/
structure ExprTranscript (w : Setting) (e : Engine) (key : InstanceKey) (tree : Package.Subtree)
    (expr₀ expr : Expr) : Prop where
  types : expr.types = expr₀.types.map key.subst.apply
  refers : w.package.RefersBeyond key.template tree expr₀ →
    Run.Refers w e key.subst (expr₀.retype key.subst.apply).kind expr.kind
  unplaced : ¬ w.package.RefersBeyond key.template tree expr₀ → ∀ c, expr.kind.target? = some c →
    Unplaced w e c ∧ c.index < e.package.decls.size

/-- As long as the registered declarations are the same among the existing ones, a transcript stays one. -/
theorem ExprTranscript.mono (he : e.Orderly w) {expr₀ expr : Expr}
    (ht : ExprTranscript w e key tree expr₀ expr)
    (hkeyOf : ∀ {d : DeclId}, d.index < e.package.decls.size →
      e'.registry.keyOf? d = e.registry.keyOf? d)
    (hle : e.package.decls.size ≤ e'.package.decls.size) : ExprTranscript w e' key tree expr₀ expr where
  types := ht.types
  refers hbeyond :=
    (ht.refers hbeyond).mono fun hk => (hkeyOf (he.settled.sound.indexed.keyOf_lt hk)).trans hk
  unplaced hbeyond c hc :=
    have ⟨hunplaced, hlt⟩ := ht.unplaced hbeyond c hc
    ⟨⟨hunplaced.1, (hkeyOf hlt).trans hunplaced.2⟩, Nat.lt_of_lt_of_le hlt hle⟩

theorem ExprTranscript.later (he : e.Orderly w) (hv : Evolves w S e e') {expr₀ expr : Expr}
    (ht : ExprTranscript w e key tree expr₀ expr) : ExprTranscript w e' key tree expr₀ expr :=
  ht.mono he hv.keyOf hv.decls_le

/-- The slots of an instance are those of the template under the substitution. -/
structure Transcript (w : Setting) (e : Engine) (key : InstanceKey) (tree : Package.Subtree)
    (table : Remap) : Prop where
  decl : ∀ c ∈ tree.decls, ∃ decl₀ decl, w.package.decl? c = some decl₀ ∧
    e.package.decl? (table.decl c) = some decl ∧ decl.package = decl₀.package ∧
    decl.kind.types = decl₀.kind.types.map key.subst.apply
  expr : ∀ x ∈ tree.exprs, ∃ expr₀ expr, w.package.expr? x = some expr₀ ∧
    e.package.expr? (table.expr x) = some expr ∧ ExprTranscript w e key tree expr₀ expr

/-! ### Copies -/

/-- The members of an instance are registered. -/
theorem Drawn.keyOf_of_isMember (hp : w.package.Forest) (hd : Drawn w.package e key tree table) {c : DeclId}
    (hc : c ∈ tree.decls) (hne : c ≠ key.template) (hm : w.package.IsMember c) :
    e.registry.keyOf? (table.decl c) = some ⟨c, key.subst⟩ := by
  obtain ⟨decl, owner, ownerDecl, hdecl, hparent, howner, hmem⟩ := hm
  obtain ⟨decl', owner', hdecl', hparent', hin⟩ := hp.parent_mem hd.tree_eq hc hne
  obtain rfl := Option.some.inj (hdecl.symm.trans hdecl')
  obtain rfl := Option.some.inj (hparent.symm.trans hparent')
  exact hd.keyOf_member owner hin ownerDecl howner c hmem hc

theorem Drawn.reference_eq (hd : Drawn w.package e key tree table) (c : DeclId) :
    table.reference c = if c = key.template then c else table.decl c := by
  simp [Remap.reference, hd.pinned]

/-- What an instance refers to in place of a declaration of the package that is no mere part of the
template. -/
theorem Drawn.placed_reference (hp : w.package.Forest) (hd : Drawn w.package e key tree table) {c : DeclId}
    (hlt : c.index < w.package.decls.size)
    (hbeyond : c ∈ tree.decls → c ≠ key.template → w.package.IsMember c) :
    Placed w e key.subst c (table.reference c) := by
  refine ⟨hlt, ?_⟩
  rw [hd.reference_eq]
  split
  · exact .inl rfl
  · rename_i hne
    by_cases hmem : c ∈ tree.decls
    · exact .inr (hd.keyOf_of_isMember hp hmem hne (hbeyond hmem hne))
    · exact .inl (hd.outside c hmem)

/-- What an instance refers to in place of a mere part of the template. -/
theorem Draft.unplaced_reference {root : DeclId} {members : List InstanceKey}
    (hd : Draft w e key root members tree table e') {c : DeclId} (hc : c ∈ tree.decls)
    (hne : c ≠ key.template) (hpart : ¬ w.package.IsMember c) :
    Unplaced w e' (table.reference c) ∧ (table.reference c).index < e'.package.decls.size := by
  rw [hd.drawn.reference_eq, if_neg hne]
  obtain ⟨-, decl', -, hd', -⟩ := hd.drawn.decl c hc
  refine ⟨⟨Nat.not_lt.2 (hd.drawn.decl_ge c hc), ?_⟩, Package.lt_of_decl? hd'⟩
  cases hk : e'.registry.keyOf? (table.decl c) with
  | none => rfl
  | some k => exact absurd (hd.enlisted c hc hne k hk).1 hpart

/-- An expression form refers to what it names in the package, where its types are given. -/
theorem refers_of_rename {s : Subst} {expr : Expr}
    (htypes : ((expr.rename table).retype s.apply).types = expr.types.map s.apply)
    (hplaced : ∀ c, expr.kind.target? = some c → Placed w e s c (table.reference c)) :
    Run.Refers w e s (expr.retype s.apply).kind ((expr.rename table).retype s.apply).kind := by
  obtain ⟨kind, ty, span⟩ := expr
  cases kind with
  | ref c args =>
    have hform : Expr.rename ⟨.ref c args, ty, span⟩ table =
        ⟨.ref (table.reference c) (Ty.relabelAll table.relabeling args), ty.rename table, span⟩ := rfl
    rw [hform] at htypes ⊢
    rw [Expr.types_retype] at htypes
    have hargs : (Ty.relabelAll table.relabeling args : List Ty).map s.apply = args.map s.apply :=
      (List.cons.inj htypes).2
    simp only [Expr.retype, Expr.mapTypes, ExprKind.mapTypes, Id.run_bind, Id.run_pure, Id.run_mapM_pure]
    exact hargs ▸ .ref (hplaced c rfl) _
  | member base owner c args =>
    have hform : Expr.rename ⟨.member base owner c args, ty, span⟩ table =
        ⟨.member (base.map table.expr) (owner.rename table) (table.reference c)
          (Ty.relabelAll table.relabeling args), ty.rename table, span⟩ := by cases base <;> rfl
    rw [hform] at htypes ⊢
    rw [Expr.types_retype] at htypes
    obtain ⟨howner, hargs⟩ := List.cons.inj (List.cons.inj htypes).2
    simp only [Expr.retype, Expr.mapTypes, ExprKind.mapTypes, Id.run_bind, Id.run_pure, Id.run_mapM_pure]
    rw [howner]
    exact hargs ▸ .member (hplaced c rfl) _ _ _ _
  | lit | call | letVar | block | ret | binary | cond => exact .other rfl rfl

/-- The types of a template under the substitution of a key are types of the package. -/
theorem originals_of_typeName (hkey : w.Originals key.subst) {ts : List Ty}
    (hts : ∀ t ∈ ts, t.Applies w.package.TypeName) : ∀ t ∈ ts.map key.subst.apply, w.Original t := by
  rw [List.forall_mem_map]
  exact fun t ht => Subst.Applies.apply hkey (Setting.original_of_typeName (hts t ht))

/-! ### Drafts -/

/-- A draft is a transcript. -/
theorem Draft.transcript (h : Begins w b) (hl : Ledger w b e) {root : DeclId} {members : List InstanceKey}
    (hd : Draft w e key root members tree table e') : Transcript w e' key tree table where
  decl c hc := by
    obtain ⟨decl₀, decl, decl', hd₀, hdecl, hdecl', -, htypes⟩ :=
      hd.decl_of_faithful h.wellFormed (hl.orderly h) (hl.faithful h) hc
    rw [hl.decl_eq h (hd.drawn.lt_of_mem hc)] at hdecl
    obtain rfl := Option.some.inj (hd₀.symm.trans hdecl)
    obtain ⟨decl, decl'', hdecl, hdecl'', -, hcaption, -⟩ := hd.decl c hc
    rw [hl.decl_eq h (hd.drawn.lt_of_mem hc)] at hdecl
    obtain rfl := Option.some.inj (hd₀.symm.trans hdecl)
    obtain rfl := Option.some.inj (hdecl'.symm.trans hdecl'')
    exact ⟨decl₀, decl', hd₀, hdecl', congrArg (fun i => i.2.2.2.1) hcaption, htypes⟩
  expr x hx := by
    obtain ⟨expr₀, expr', hx₀, hx', htypes⟩ :=
      hd.expr_of_faithful h.wellFormed (hl.orderly h) (hl.faithful h) hx
    obtain ⟨expr, hexpr, hexpr'⟩ := hd.expr x hx
    obtain rfl := Option.some.inj (hx₀.symm.trans hexpr)
    obtain rfl := Option.some.inj (hx'.symm.trans hexpr')
    obtain ⟨c, -, hholds⟩ := (Package.mem_exprs_iff hd.drawn.tree_eq).1 hx
    rw [hl.expr_eq h (Package.Holds.lt hholds)] at hx₀
    refine ⟨expr₀, _, hx₀, hx', htypes, fun hbeyond => ?_, fun hpart c hc => ?_⟩
    · exact refers_of_rename htypes fun c hc =>
        hd.drawn.placed_reference h.tidy.forest (h.wellFormed.target hx₀ hc) (hbeyond c hc)
    · rw [Expr.target?_retype, Expr.target?_rename] at hc
      obtain ⟨c₀, hc₀, rfl⟩ := Option.map_eq_some_iff.1 hc
      have hnot : ¬ (c₀ ∈ tree.decls → c₀ ≠ key.template → w.package.IsMember c₀) := fun hall =>
        hpart fun c' hc' => by
          obtain rfl := Option.some.inj (hc₀.symm.trans hc')
          exact hall
      rw [Classical.not_imp, Classical.not_imp] at hnot
      exact hd.unplaced_reference hnot.1 hnot.2.1 hnot.2.2

/-- While other instances are made, a transcript stays one. -/
theorem Transcript.later (hw : w.Tidy) (he : e.Orderly w) (hv : Evolves w .empty e e')
    (ht : Transcript w e key tree table) : Transcript w e' key tree table where
  decl c hc := by
    obtain ⟨decl₀, decl, hd₀, hd, hkept⟩ := ht.decl c hc
    exact ⟨decl₀, decl, hd₀, (hv.decl_eq hw he (Package.lt_of_decl? hd) id id).trans hd, hkept⟩
  expr x hx := by
    obtain ⟨expr₀, expr, hx₀, hexpr, htranscript⟩ := ht.expr x hx
    exact ⟨expr₀, expr, hx₀, (hv.expr_eq hw he (Package.lt_of_expr? hexpr) id).trans hexpr,
      htranscript.later he hv⟩

/-- It makes no difference where its declarations belong. -/
theorem Transcript.of_parent (he : e.Orderly w) (ht : Transcript w e key tree table) {d : DeclId}
    {decl : Decl}
    (hd : e.package.decl? d = some decl) (owner : DeclId) :
    Transcript w { e with package := e.package.setDecl d { decl with parent := some owner } }
      key tree table where
  decl c hc := by
    obtain ⟨decl₀, decl', hd₀, hd', hpackage, htypes⟩ := ht.decl c hc
    by_cases hcd : table.decl c = d
    · subst hcd
      obtain rfl := Option.some.inj (hd.symm.trans hd')
      exact ⟨decl₀, _, hd₀, Package.decl?_setDecl_self (Package.lt_of_decl? hd) _, hpackage, htypes⟩
    · exact ⟨decl₀, decl', hd₀, (Package.decl?_setDecl_of_ne hcd _).trans hd', hpackage, htypes⟩
  expr x hx := by
    obtain ⟨expr₀, expr, hx₀, hexpr, htranscript⟩ := ht.expr x hx
    exact ⟨expr₀, expr, hx₀, hexpr, htranscript.mono he (fun _ => rfl)
      (Nat.le_of_eq (Package.size_decls_setDecl _ _ _).symm)⟩

/-- What the slots of a template call for under a key. -/
def slotKeys (b : Engine) (package : String) (key : InstanceKey) (tree : Package.Subtree) : Set InstanceKey :=
  {k | ∃ c ∈ tree.decls, ∃ decl, b.package.decl? c = some decl ∧
    k ∈ b.typesKeys package (decl.kind.types.map key.subst.apply)} ∪
  {k | ∃ x ∈ tree.exprs, ∃ expr, b.package.expr? x = some expr ∧ k ∈ b.exprKeys package key tree expr}

end Engine

namespace Run

open Engine (Begins Ledger Drawn Transcript ExprTranscript Rearranged originals_of_typeName)

variable {w : Setting} {b e : Engine} {make : Instantiator} {fuel : Nat} {site : Site}

section Slots

variable (hm : Makes w make) (hf : Furnishes w b make) (h : Begins w b)
include h

/-- A declaration that does not belong to the package gets other types. -/
theorem supplies_retype (hl : Ledger w b e) {d : DeclId} {decl : Decl} {kind : DeclKind}
    (hd : e.package.decl? d = some decl) (hge : w.package.decls.size ≤ d.index)
    (hs : kind.skeleton = decl.kind.skeleton)
    (ht : List.Forall₂ (e.Rewords w) decl.kind.types kind.types) :
    (modifyDecl d fun decl => { decl with kind := kind }).Supplies w b (.ofDecls [d]) ∅ e
      fun _ _ => True := by
  refine .of_undisturbed h hl ⟨fun c hc => ?_, fun _ => False.elim, fun _ => id⟩
    ((works_retype hd (S := .ofDecls [d]) List.mem_cons_self hs ht).mono fun _ _ _ _ => trivial) ?_
  · obtain rfl := List.mem_singleton.1 hc
    exact hge
  · exact meets_modifyDecl (fun _ _ => ⟨fun _ => rfl, rfl, rfl, rfl⟩) trivial

/-- An expression that does not belong to the package gets other types and another target. -/
theorem supplies_reexpress (hl : Ledger w b e) {x : ExprId} {expr expr' : Expr}
    (hx : e.package.expr? x = some expr) (hge : w.package.exprs.size ≤ x.index)
    (hs : expr'.skeleton = expr.skeleton) (ht : List.Forall₂ (e.Rewords w) expr.types expr'.types)
    (hr : Engine.Retargets e expr expr') :
    (modifyPackage (·.setExpr x expr')).Supplies w b (.ofExprs [x]) ∅ e fun _ _ => True := by
  refine .of_undisturbed h hl ⟨fun _ => False.elim, fun y hy => ?_, fun _ => id⟩
    ((works_reexpress hx (S := .ofExprs [x]) List.mem_cons_self hs ht hr).mono fun _ _ _ _ => trivial) ?_
  · obtain rfl := List.mem_singleton.1 hy
    exact hge
  · exact meets_modify.2 ⟨fun _ => rfl, rfl, rfl, rfl⟩

include hm hf

/-- Rearranging the declarations of a transcript supplies what their types call for. -/
theorem supplies_rearrangeDecls {key : InstanceKey} (hkey : w.Originals key.subst) (f : DeclId → DeclId)
    {cs : List DeclId} (hnodup : (cs.map f).Nodup) (hge : ∀ c ∈ cs, w.package.decls.size ≤ (f c).index)
    (hl : Ledger w b e) (hslots : ∀ c ∈ cs, ∃ decl₀ decl, w.package.decl? c = some decl₀ ∧
      e.package.decl? (f c) = some decl ∧ decl.kind.types = decl₀.kind.types.map key.subst.apply) :
    Sweep.Supplies w b (.ofDecls (cs.map f)) {k | ∃ c ∈ cs, ∃ decl, w.package.decl? c = some decl ∧
      k ∈ b.typesKeys site.package (decl.kind.types.map key.subst.apply)}
      (rearrangeDecls make site (cs.map f)) e fun _ _ => True := by
  induction cs generalizing e with
  | nil =>
    refine .of_forall_notMem ?_ (.pure hl trivial)
    rintro k ⟨c, hc, -⟩
    exact absurd hc List.not_mem_nil
  | cons c rest ih =>
    have he := hl.orderly h
    rw [List.map_cons, List.nodup_cons] at hnodup
    rw [List.forall_mem_cons] at hge hslots
    obtain ⟨⟨decl₀, decl, hd₀, hd, htypes⟩, hslots⟩ := hslots
    have hkeys : {k | ∃ c' ∈ c :: rest, ∃ decl, w.package.decl? c' = some decl ∧
        k ∈ b.typesKeys site.package (decl.kind.types.map key.subst.apply)} =
        b.typesKeys site.package (decl₀.kind.types.map key.subst.apply) ∪
          {k | ∃ c ∈ rest, ∃ decl, w.package.decl? c = some decl ∧
            k ∈ b.typesKeys site.package (decl.kind.types.map key.subst.apply)} := by
      ext k
      simp [hd₀]
    rw [hkeys]
    refine .query_bind fun decl' hd' => ?_
    obtain rfl := Option.some.inj (hd.symm.trans hd')
    have horiginal : ∀ t ∈ decl.kind.types, w.Original t :=
      htypes ▸ originals_of_typeName hkey (h.wellFormed.declTypes hd₀)
    have hkind := ((supplies_rearrangeKind hm hf h hl horiginal).and
      ((works_rearrangeKind h.tidy hm he (he.declTypes hd)).returns
        (DeclKind.skeleton_mapTypes (rearrangeTy make site) decl.kind))).mono
          fun kind e₁ hp₁ _ _ h₁ => And.intro h₁ fun (d : DeclId) (hlt : d.index < e.package.decls.size) =>
            hp₁.evolves.decl_eq h.tidy he hlt id id
    rw [← htypes]
    refine .bind h hl hkind.of_empty fun kind e₁ hl₁ hp₁ ⟨⟨_, hrewords, hskeleton⟩, hsame₁⟩ => ?_
    have hlt := Package.lt_of_decl? hd
    have hretype := (supplies_retype h hl₁ ((hsame₁ _ hlt).trans hd) hge.1 hskeleton
      (hrewords.imp fun _ _ => Rearranged.toRewords)).mono fun _ e₂ hp₂ _ _ _ (d : DeclId)
        (hlt : d.index < e₁.package.decls.size) (hne : d ≠ f c) =>
          hp₂.evolves.decl_eq h.tidy (hl₁.orderly h) hlt (fun hmem => hne (List.mem_singleton.1 hmem)) id
    refine .bind_of_empty h hl₁ (.lift (hretype.within ⟨fun d hd => ?_, fun _ => id, fun _ => id⟩))
      fun _ e₂ hl₂ hp₂ hsame₂ => ?_
    · exact List.mem_singleton.1 hd ▸ List.mem_cons_self
    · refine .within (ih hnodup.2 hge.2 hl₂ fun c' hc' => ?_)
        ⟨fun _ => List.mem_cons_of_mem _, fun _ => id, fun _ => id⟩
      -- The slots that are still to be rearranged have not been touched.
      obtain ⟨decl₁, decl₂, hd₁, hd₂, htypes₂⟩ := hslots c' hc'
      have hlt₂ := Package.lt_of_decl? hd₂
      have hne : f c' ≠ f c := fun heq => hnodup.1 (heq ▸ List.mem_map_of_mem hc')
      refine ⟨decl₁, decl₂, hd₁, ?_, htypes₂⟩
      rw [hsame₂ _ (Nat.lt_of_lt_of_le hlt₂ hp₁.evolves.decls_le) hne, hsame₁ _ hlt₂, hd₂]

/-- Rearranging the expressions of a transcript supplies what they ask for. -/
theorem supplies_rearrangeExprs {key : InstanceKey} (hkey : w.Originals key.subst)
    (hsite : site.subst = key.subst) (tree : Package.Subtree) (f : ExprId → ExprId) {xs : List ExprId}
    (hnodup : (xs.map f).Nodup) (hge : ∀ x ∈ xs, w.package.exprs.size ≤ (f x).index)
    (hl : Ledger w b e) (hslots : ∀ x ∈ xs, ∃ expr₀ expr, w.package.expr? x = some expr₀ ∧
      e.package.expr? (f x) = some expr ∧ ExprTranscript w e key tree expr₀ expr) :
    Sweep.Supplies w b (.ofExprs (xs.map f)) {k | ∃ x ∈ xs, ∃ expr, w.package.expr? x = some expr ∧
      k ∈ b.exprKeys site.package key tree expr} (rearrangeExprs make fuel site (xs.map f)) e
      fun _ _ => True := by
  induction xs generalizing e with
  | nil =>
    refine .of_forall_notMem ?_ (.pure hl trivial)
    rintro k ⟨x, hx, -⟩
    exact absurd hx List.not_mem_nil
  | cons x rest ih =>
    have he := hl.orderly h
    rw [List.map_cons, List.nodup_cons] at hnodup
    rw [List.forall_mem_cons] at hge hslots
    obtain ⟨⟨expr₀, expr, hx₀, hx, htranscript⟩, hslots⟩ := hslots
    have hkeys : {k | ∃ x' ∈ x :: rest, ∃ expr, w.package.expr? x' = some expr ∧
        k ∈ b.exprKeys site.package key tree expr} = b.exprKeys site.package key tree expr₀ ∪
          {k | ∃ x ∈ rest, ∃ expr, w.package.expr? x = some expr ∧
            k ∈ b.exprKeys site.package key tree expr} := by
      ext k
      simp [hx₀]
    rw [hkeys]
    refine .query_bind fun expr' hx' => ?_
    obtain rfl := Option.some.inj (hx.symm.trans hx')
    have horiginal : ∀ t ∈ expr.types, w.Original t :=
      htranscript.types ▸ originals_of_typeName hkey (h.wellFormed.exprTypes hx₀)
    have hkeys₀ : b.exprKeys site.package key tree expr₀ = b.typesKeys site.package expr.types ∪
        {k | w.package.RefersBeyond key.template tree expr₀ ∧
          k ∈ b.targetKeys site.package site.subst (expr₀.retype key.subst.apply).kind} := by
      rw [Engine.exprKeys, h.package_eq, htranscript.types, hsite]
    rw [hkeys₀]
    have hsiteOriginals : w.Originals site.subst := hsite ▸ hkey
    have hexpr := ((supplies_rearrangeExpr hm hf h hsiteOriginals hl horiginal
      (fun hbeyond => by rw [hsite]; exact htranscript.refers hbeyond) htranscript.unplaced).and
      ((works_rearrangeExpr h.tidy hm (fun q v hv => (hsiteOriginals q v hv).names) he (he.exprTypes hx)
        fun c hc => he.target hx hc).returns (skeleton_rearrangeExpr make fuel site expr))).mono
          fun expr' e₁ hp₁ _ _ h₁ => And.intro h₁ fun (x : ExprId) (hlt : x.index < e.package.exprs.size) =>
            hp₁.evolves.expr_eq h.tidy he hlt id
    refine .bind h hl hexpr.of_empty
      fun expr' e₁ hl₁ hp₁ ⟨⟨_, ⟨hrewords, hretargets⟩, hskeleton⟩, hsame₁⟩ => ?_
    have hlt := Package.lt_of_expr? hx
    have hreexpress := (supplies_reexpress h hl₁ ((hsame₁ _ hlt).trans hx) hge.1 hskeleton
      (hrewords.imp fun _ _ => Rearranged.toRewords) hretargets).mono fun _ e₂ hp₂ _ _ _ (x' : ExprId)
        (hlt : x'.index < e₁.package.exprs.size) (hne : x' ≠ f x) =>
          hp₂.evolves.expr_eq h.tidy (hl₁.orderly h) hlt fun hmem => hne (List.mem_singleton.1 hmem)
    refine .bind_of_empty h hl₁ (.lift (hreexpress.within ⟨fun _ => id, fun x hx => ?_, fun _ => id⟩))
      fun _ e₂ hl₂ hp₂ hsame₂ => ?_
    · exact List.mem_singleton.1 hx ▸ List.mem_cons_self
    · refine .within (ih hnodup.2 hge.2 hl₂ fun x' hx' => ?_)
        ⟨fun _ => id, fun _ => List.mem_cons_of_mem _, fun _ => id⟩
      obtain ⟨expr₁, expr₂, hx₁, hx₂, htranscript₂⟩ := hslots x' hx'
      have hlt₂ := Package.lt_of_expr? hx₂
      have hne : f x' ≠ f x := fun heq => hnodup.1 (heq ▸ List.mem_map_of_mem hx')
      refine ⟨expr₁, expr₂, hx₁, ?_, (htranscript₂.later he hp₁.evolves).later (hl₁.orderly h) hp₂.evolves⟩
      rw [hsame₂ _ (Nat.lt_of_lt_of_le hlt₂ hp₁.evolves.exprs_le) hne, hsame₁ _ hlt₂, hx₂]

/-- Rearranging a transcript supplies what its slots call for. -/
theorem supplies_rearrange (hl : Ledger w b e) {key : InstanceKey} {tree : Package.Subtree} {table : Remap}
    (hd : Drawn w.package e key tree table) (ht : Transcript w e key tree table) {root₀ : Decl}
    (hroot : w.package.decl? key.template = some root₀) :
    (rearrange make fuel (table.decl key.template)).Supplies w b
      (.ofTree { tree with decls := tree.decls.map table.decl, exprs := tree.exprs.map table.expr })
      (b.slotKeys root₀.package key tree) e fun _ _ => True := by
  have he := hl.orderly h
  have hkey := hl.originals hd.keyOf_root
  obtain ⟨t, t', ht₀, -, -, htree, hdecls, hexprs⟩ :=
    hd.exists_templateSubtree h.tidy.forest he.rooted.underlies hd.mem_root
  rw [Package.templateSubtree?_eq, hd.tree_eq] at ht₀
  obtain rfl := Option.some.inj ht₀
  have hslots : ∀ root, e.package.decl? (table.decl key.template) = some root → Sweep.Supplies w b
      (.ofTree { tree with decls := tree.decls.map table.decl, exprs := tree.exprs.map table.expr })
      (b.slotKeys root₀.package key tree) (do
        rearrangeDecls make ⟨e.substOf (table.decl key.template), root.package⟩ t'.decls
        rearrangeExprs make fuel ⟨e.substOf (table.decl key.template), root.package⟩ t'.exprs) e
      fun _ _ => True := by
    intro root hroot'
    obtain ⟨decl₀, decl, hd₀, hdecl, hpackage, -⟩ := ht.decl key.template hd.mem_root
    obtain rfl := Option.some.inj (hroot.symm.trans hd₀)
    obtain rfl := Option.some.inj (hroot'.symm.trans hdecl)
    have hsubst : e.substOf (table.decl key.template) = key.subst := by
      rw [Engine.substOf, hd.keyOf_root]
    rw [hsubst, hpackage, hdecls, hexprs, Engine.slotKeys, h.package_eq]
    have hnodup := (h.tidy.forest.nodup_decls hd.tree_eq).map_on hd.decl_inj
    have hnodup' := (h.tidy.forest.nodup_exprs hd.tree_eq).map_on hd.expr_inj
    have htypes : ∀ c ∈ tree.decls, ∃ decl₀ decl, w.package.decl? c = some decl₀ ∧
        e.package.decl? (table.decl c) = some decl ∧
          decl.kind.types = decl₀.kind.types.map key.subst.apply := by
      intro c hc
      obtain ⟨decl₀, decl, hd₀, hdecl, -, htypes⟩ := ht.decl c hc
      exact ⟨decl₀, decl, hd₀, hdecl, htypes⟩
    have hrearranged : Sweep.Supplies w b _ _
        (rearrangeDecls make ⟨key.subst, root₀.package⟩ (tree.decls.map table.decl)) e
        fun _ e₁ => e.Evolves w _ e₁ :=
      (supplies_rearrangeDecls hm hf h hkey table.decl hnodup hd.decl_ge hl htypes).mono
        fun _ _ hp₁ _ _ _ => hp₁.evolves
    refine .bind h hl (hrearranged.within ⟨fun _ => id, fun _ => False.elim, fun _ => id⟩)
      fun _ e₁ hl₁ _ hv => ?_
    refine .within (supplies_rearrangeExprs hm hf h hkey rfl tree table.expr hnodup' hd.expr_ge hl₁
      fun x hx => ?_) ⟨fun _ => False.elim, fun _ => id, fun _ => id⟩
    obtain ⟨expr₀, expr, hx₀, hexpr, htranscript⟩ := ht.expr x hx
    exact ⟨expr₀, expr, hx₀, (hv.expr_eq h.tidy he (Package.lt_of_expr? hexpr) id).trans hexpr,
      htranscript.later he hv⟩
  refine (works_rearrange_of_slots h.tidy he htree hslots).mono ?_
  rintro _ _ - ⟨_, _, hdone⟩
  exact hdone

end Slots

end Run

end Monomorph
