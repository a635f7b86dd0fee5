import Monomorph.Proofs.Instances.Extending

/-!
# Types and the keys that they call for

Rearranging a type of the package supplies the keys that the applications in it ask for, from the inside
out. What an application has been replaced by means the same, so the applications around it ask for what
they would have asked for in the package.

## Main results

* `Run.supplies_rearrangeTy`: rearranging a type supplies what it calls for.
* `Run.supplies_rearrangeKind`, `Run.supplies_rearrangeExprTypes`: so does rearranging the types of a
  declaration or of an expression.
-/

namespace Monomorph

variable {α : Type}

namespace Subst

theorem ofArgs_map {params : List ParamId} {args : List Ty} {s : Subst} (f : Ty → Ty)
    (h : ofArgs params args = .ok s) : ofArgs params (args.map f) = .ok (s.mapValues f) := by
  rw [ofArgs, ofArgs?_map, ofArgs_eq_ok h]
  rfl

end Subst

namespace Engine

variable {w : Setting} {b e : Engine} {package : String}

theorem typesKeys_append (b : Engine) (package : String) (ts us : List Ty) :
    b.typesKeys package (ts ++ us) = b.typesKeys package ts ∪ b.typesKeys package us := by
  induction ts with
  | nil => rw [typesKeys, List.nil_append, Set.empty_union]
  | cons t ts ih => rw [List.cons_append, typesKeys, typesKeys, ih, Set.union_assoc]

namespace Ledger

variable (h : Begins w b) (hl : Ledger w b e)
include h hl

theorem decls_le : w.package.decls.size ≤ e.package.decls.size :=
  (hl.orderly h).rooted.underlies.decls_le

theorem fits {t : Ty} (ht : w.Original t) : t.Applies (w.Fits e.package.decls.size) :=
  ht.grow (hl.decls_le h)

/-- What a type of the package has become means the type. -/
theorem canonical_of_rearranged {t t' : Ty} (ht : w.Original t) (hr : Rearranged w package e t t') :
    e.canonical t' = t := by
  rw [hr.toRewords.canonical (Setting.legal_of_fits h.strict ht), hl.canonical_of_original h ht]

theorem map_canonical_of_rearranged {ts ts' : List Ty} (hts : ∀ t ∈ ts, w.Original t)
    (hr : List.Forall₂ (Rearranged w package e) ts ts') : ts'.map e.canonical = ts := by
  induction hr with
  | nil => rfl
  | cons ht _ ih =>
    rw [List.forall_mem_cons] at hts
    rw [List.map_cons, hl.canonical_of_rearranged h hts.1 ht, ih hts.2]

end Ledger

end Engine

namespace Run

open Engine (Begins Ledger Supplied Rearranged)

variable {w : Setting} {b e : Engine} {make : Instantiator} {site : Site}

section Types

variable (hm : Makes w make) (hf : Furnishes w b make) (h : Begins w b)

include hf h in
/-- An application asks for the key that it would ask for in the package. -/
theorem supplies_rearrangeNamed (hl : Ledger w b e) {d : DeclId} {args args₀ : List Ty}
    (hd : d.index < w.package.decls.size) (hcanonical : args.map e.canonical = args₀)
    (hargs₀ : ∀ a ∈ args₀, w.Original a) (hargs : ∀ a ∈ args, a.Applies w.Names)
    (hall : args.all Ty.isConcrete = args₀.all Ty.isConcrete) :
    Sweep.Supplies w b .empty (b.namedKeys site.package d args₀) (rearrangeNamed make site d args) e
      fun _ _ => True := by
  have he := hl.orderly h
  have hnil : args = [] ↔ args₀ = [] := by rw [← hcanonical, List.map_eq_nil_iff]
  unfold rearrangeNamed
  split
  · rename_i hopen
    refine .of_forall_notMem ?_ (.pure hl trivial)
    rintro k ⟨hne, hconcrete, -⟩
    rw [Bool.or_eq_true, List.isEmpty_iff, List.any_eq_true] at hopen
    obtain hn | ⟨a, ha, hnot⟩ := hopen
    · exact hne (hnil.1 hn)
    · have := List.all_eq_true.1 (hall.trans (List.all_eq_true.2 hconcrete)) a ha
      rw [this] at hnot
      cases hnot
  · rename_i hcalls
    rw [Bool.or_eq_true, List.isEmpty_iff, List.any_eq_true, not_or] at hcalls
    have hconcrete : ∀ a ∈ args₀, a.isConcrete = true := List.all_eq_true.1 (hall.symm.trans
      (List.all_eq_true.2 fun a ha => by
        by_contra hnot
        exact hcalls.2 ⟨a, ha, by rw [Bool.eq_false_iff.2 hnot]; rfl⟩))
    refine .query_bind fun access haccess => ?_
    rw [hl.accessible?_eq h hd] at haccess
    cases access with
    | false =>
      exact .of_forall_notMem (fun _ hk => by cases haccess.symm.trans hk.2.2.1) (.pure hl trivial)
    | true =>
      refine .query_bind fun decl hdecl => .ofInternal_bind fun s hs => .get_bind ?_
      rw [hl.decl_eq h hd] at hdecl
      have hs₀ : Subst.ofArgs decl.ownParams args₀ = .ok (s.mapValues e.canonical) :=
        hcanonical ▸ Subst.ofArgs_map e.canonical hs
      have hkeys : b.namedKeys site.package d args₀ = b.requestKeys d (s.mapValues e.canonical) :=
        h.namedKeys_eq hdecl (fun hne => hcalls.1 (hnil.2 hne)) hconcrete haccess hs₀
      have hmake : (make d s).unlessBroken.Supplies w b .empty
          (b.requestKeys d (s.mapValues e.canonical)) e fun inst _ => ∃ d', inst = some d' :=
        .unlessBroken ((hf.original h hl hd (Subst.Applies.ofArgs hargs hs)
          (Subst.Applies.ofArgs hargs₀ hs₀)).mono fun d' _ _ _ _ _ => ⟨d', rfl⟩)
      rw [he.templateOf_original hd, he.keyOf_original hd, hkeys]
      refine .bind_empty h hl (.lift hmake) fun inst e₁ hl₁ _ hinst => ?_
      obtain ⟨d', rfl⟩ := hinst
      exact .bind_empty h hl₁ (R := fun _ _ => True) (.markChanged hl₁ trivial)
        fun _ _ hl₂ _ _ => .pure hl₂ trivial

mutual

/-- Rearranging a type of the package supplies what it calls for. -/
theorem supplies_rearrangeTy (hm : Makes w make) (hf : Furnishes w b make) (h : Begins w b) :
    ∀ {t : Ty} {e : Engine}, Ledger w b e → w.Original t →
      Sweep.Supplies w b .empty (b.typeKeys site.package t) (rearrangeTy make site t) e fun t' e' =>
        Rearranged w site.package e' t t'
  | .named d args, e, hl, ht => by
    have hkeys : Sweep.Supplies w b .empty (b.typeKeys site.package (.named d args))
        (rearrangeTy make site (.named d args)) e fun _ _ => True := by
      rw [rearrangeTy, Engine.typeKeys]
      have hargs₀ := Ty.allApply_iff.1 ht.2
      refine .bind h hl (supplies_rearrangeTys hm hf h hl ht.2) fun args' e₁ hl₁ _ hargs => ?_
      have hwords := hargs.imp fun _ _ => Rearranged.toRewords
      exact supplies_rearrangeNamed hf h hl₁ ht.1.2 (hl₁.map_canonical_of_rearranged h hargs₀ hargs)
        hargs₀ (fun a ha => (Engine.Rewords.forall_fits hwords a ha).names)
        (Engine.Rewords.all_isConcrete hwords)
    exact (hkeys.and (works_rearrangeTy h.tidy hm (hl.orderly h) (hl.fits h ht))).mono
      fun _ _ _ _ _ h => h.2
  | .tuple items, e, hl, ht => by
    rw [rearrangeTy, Engine.typeKeys]
    refine .bind_empty h hl (supplies_rearrangeTys hm hf h hl ht) fun items' e₁ hl₁ _ hitems => ?_
    exact .pure hl₁ ((hl₁.orderly h).rearranged_tuple hitems)
  | .func params ret, e, hl, ht => by
    rw [rearrangeTy, Engine.typeKeys]
    refine .bind h hl (supplies_rearrangeTys hm hf h hl ht.1) fun params' e₁ hl₁ hp₁ hparams => ?_
    refine .bind_empty h hl₁ (supplies_rearrangeTy hm hf h hl₁ ht.2) fun ret' e₂ hl₂ hp₂ hret =>
      .pure hl₂ ((hl₂.orderly h).rearranged_func ?_ hret)
    exact Rearranged.forall_mono h.tidy (hl₁.orderly h) hp₂.evolves hparams fun t hmem =>
      hl₁.fits h (Ty.allApply_iff.1 ht.1 t hmem)
  | .prim p, e, hl, ht => by
    rw [rearrangeTy, Engine.typeKeys]
    exact .pure hl ⟨.refl trivial, fun _ _ => trivial⟩
  | .param p, e, hl, ht => by
    rw [rearrangeTy, Engine.typeKeys]
    exact .pure hl ⟨.refl trivial, fun _ _ => trivial⟩
  | .invalid, e, hl, ht => by
    rw [rearrangeTy, Engine.typeKeys]
    exact .pure hl ⟨.refl trivial, fun _ _ => trivial⟩

/-- Rearranging several types supplies what they call for. -/
theorem supplies_rearrangeTys (hm : Makes w make) (hf : Furnishes w b make) (h : Begins w b) :
    ∀ {ts : List Ty} {e : Engine}, Ledger w b e → Ty.AllApply (w.Fits w.package.decls.size) ts →
      Sweep.Supplies w b .empty (b.typesKeys site.package ts) (rearrangeTys make site ts) e fun ts' e' =>
        List.Forall₂ (Rearranged w site.package e') ts ts'
  | [], e, hl, _ => by
    rw [rearrangeTys, Engine.typesKeys]
    exact .pure hl .nil
  | t :: ts, e, hl, hts => by
    rw [rearrangeTys, Engine.typesKeys]
    refine .bind h hl (supplies_rearrangeTy hm hf h hl hts.1) fun t' e₁ hl₁ hp₁ ht => ?_
    refine .bind_empty h hl₁ (supplies_rearrangeTys hm hf h hl₁ hts.2) fun ts' e₂ hl₂ hp₂ hts' => ?_
    exact .pure hl₂ (.cons (ht.mono h.tidy (hl₁.orderly h) hp₂.evolves (hl₁.fits h hts.1)) hts')

end

/-! ### The slots of code -/

include hm hf h

theorem supplies_mapM_rearrangeTy (hl : Ledger w b e) {ts : List Ty} (hts : ∀ t ∈ ts, w.Original t) :
    Sweep.Supplies w b .empty (b.typesKeys site.package ts) (ts.mapM (rearrangeTy make site)) e
      fun ts' e' => List.Forall₂ (Rearranged w site.package e') ts ts' := by
  induction ts generalizing e with
  | nil =>
    rw [Engine.typesKeys]
    exact .pure hl .nil
  | cons t ts ih =>
    rw [List.forall_mem_cons] at hts
    rw [List.mapM_cons, Engine.typesKeys]
    refine .bind h hl (supplies_rearrangeTy hm hf h hl hts.1) fun t' e₁ hl₁ hp₁ ht => ?_
    refine .bind_empty h hl₁ (ih hl₁ hts.2) fun ts' e₂ hl₂ hp₂ hts' => ?_
    exact .pure hl₂ (.cons (ht.mono h.tidy (hl₁.orderly h) hp₂.evolves (hl₁.fits h hts.1)) hts')

theorem supplies_mapBounds_rearrangeTy (hl : Ledger w b e) {bounds : List Bound}
    (hts : ∀ t ∈ bounds.map (·.interface), w.Original t) :
    Sweep.Supplies w b .empty (b.typesKeys site.package (bounds.map (·.interface)))
      (DeclKind.mapBounds (rearrangeTy make site) bounds) e fun _ _ => True := by
  induction bounds generalizing e with
  | nil =>
    rw [List.map_nil, Engine.typesKeys]
    exact .pure hl trivial
  | cons bound bounds ih =>
    rw [List.map_cons, List.forall_mem_cons] at hts
    rw [List.map_cons, Engine.typesKeys]
    refine .bind h hl (supplies_rearrangeTy hm hf h hl hts.1) fun t' e₁ hl₁ hp₁ ht => ?_
    exact .bind_empty h hl₁ (ih hl₁ hts.2) fun bounds' e₂ hl₂ _ _ => .pure hl₂ trivial

/-- Rearranging the types of a declaration supplies what they call for. -/
theorem supplies_rearrangeKind (hl : Ledger w b e) {kind : DeclKind}
    (hts : ∀ t ∈ kind.types, w.Original t) :
    Sweep.Supplies w b .empty (b.typesKeys site.package kind.types)
      (kind.mapTypes (rearrangeTy make site)) e fun _ _ => True := by
  cases kind with
  | func params ret body =>
    rw [DeclKind.types, Engine.typesKeys, Engine.typesKeys, Set.union_empty]
    exact .bind_empty h hl (supplies_rearrangeTy hm hf h hl (hts ret List.mem_cons_self))
      fun _ _ hl₁ _ _ => .pure hl₁ trivial
  | type kind supers members | interface supers members =>
    exact .bind_empty h hl (supplies_mapM_rearrangeTy hm hf h hl hts) fun _ _ hl₁ _ _ => .pure hl₁ trivial
  | extension extended interfaces bounds members =>
    rw [DeclKind.types, List.forall_mem_cons, List.forall_mem_append] at hts
    rw [DeclKind.types, Engine.typesKeys, Engine.typesKeys_append]
    refine .bind h hl (supplies_rearrangeTy hm hf h hl hts.1) fun _ _ hl₁ _ _ => ?_
    refine .bind h hl₁ (supplies_mapM_rearrangeTy hm hf h hl₁ hts.2.1) fun _ _ hl₂ _ _ => ?_
    exact .bind_empty h hl₂ (supplies_mapBounds_rearrangeTy hm hf h hl₂ hts.2.2)
      fun _ _ hl₃ _ _ => .pure hl₃ trivial
  | var kind ty init =>
    rw [DeclKind.types, Engine.typesKeys, Engine.typesKeys, Set.union_empty]
    exact .bind_empty h hl (supplies_rearrangeTy hm hf h hl (hts ty List.mem_cons_self))
      fun _ _ hl₁ _ _ => .pure hl₁ trivial
  | placeholder =>
    rw [DeclKind.types, Engine.typesKeys]
    exact .pure hl trivial

/-- Rearranging the types of an expression form supplies what they call for. In canonical form it is what it
was. -/
theorem supplies_rearrangeExprKind (hl : Ledger w b e) {kind : ExprKind}
    (hts : ∀ t ∈ kind.types, w.Original t) :
    Sweep.Supplies w b .empty (b.typesKeys site.package kind.types)
      (kind.mapTypes (rearrangeTy make site)) e fun kind' e' =>
        Id.run (kind'.mapTypes fun t => pure (e'.canonical t)) = kind := by
  cases kind with
  | ref target typeArgs =>
    refine .bind_empty h hl (supplies_mapM_rearrangeTy hm hf h hl hts) fun args _ hl₁ _ hargs =>
      .pure hl₁ ?_
    simp [ExprKind.mapTypes, ExprKind.types, hl₁.map_canonical_of_rearranged h hts hargs]
  | member base owner target typeArgs =>
    rw [ExprKind.types, List.forall_mem_cons] at hts
    rw [ExprKind.types, Engine.typesKeys]
    refine .bind h hl (supplies_rearrangeTy hm hf h hl hts.1) fun owner' e₁ hl₁ _ howner => ?_
    refine .bind_empty h hl₁ (supplies_mapM_rearrangeTy hm hf h hl₁ hts.2) fun args e₂ hl₂ hp₂ hargs =>
      .pure hl₂ ?_
    have howner' := howner.mono h.tidy (hl₁.orderly h) hp₂.evolves (hl₁.fits h hts.1)
    simp [ExprKind.mapTypes, hl₂.map_canonical_of_rearranged h hts.2 hargs,
      hl₂.canonical_of_rearranged h hts.1 howner']
  | lit | call | letVar | block | ret | binary | cond =>
    have hnone : b.typesKeys site.package [] = ∅ := by rw [Engine.typesKeys]
    exact hnone ▸ .pure hl rfl

/-- Rearranging the types of an expression supplies what they call for. In canonical form it is what it
was. -/
theorem supplies_rearrangeExprTypes (hl : Ledger w b e) {expr : Expr}
    (hts : ∀ t ∈ expr.types, w.Original t) :
    Sweep.Supplies w b .empty (b.typesKeys site.package expr.types)
      (expr.mapTypes (rearrangeTy make site)) e fun expr' e' => expr'.retype e'.canonical = expr := by
  rw [Expr.types, List.forall_mem_cons] at hts
  rw [Expr.types, Engine.typesKeys]
  refine .bind h hl (supplies_rearrangeTy hm hf h hl hts.1) fun ty e₁ hl₁ _ hty => ?_
  refine .bind_empty h hl₁ (supplies_rearrangeExprKind hm hf h hl₁ hts.2) fun kind e₂ hl₂ hp₂ hkind =>
    .pure hl₂ ?_
  have hty' := hty.mono h.tidy (hl₁.orderly h) hp₂.evolves (hl₁.fits h hts.1)
  rw [Expr.retype, Expr.mapTypes]
  simp only [Id.run_bind, Id.run_pure, hkind, hl₂.canonical_of_rearranged h hts.1 hty']

end Types

end Run

end Monomorph
