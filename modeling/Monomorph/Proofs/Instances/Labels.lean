import Monomorph.Proofs.Instances.Naming

/-!
# Names of registered instances

An instance is registered for a declaration that leads or for a member that its owner lists, and it bears
the name of its key. The key of a member is named while other members are still being named, but what the
key mentions has been there before, so the name is the one that the key has ever after. As long as a key
mentions declarations of the package only, this name is told by the package.

## Main definitions

* `Engine.Labelled`: what is registered, and under which names.

## Main results

* `Engine.Evolves.labelled`: instances bear the names of their keys in the course of every run.
* `Engine.Evolves.mangle?_eq`: keys are named in the same way.
-/

namespace Monomorph

/-- Renaming declarations does not change how type parameters are shown. -/
theorem Package.Renamed.paramName_eq {p p' : Package} (h : p.Renamed p') (q : ParamId) :
    p'.paramName q = p.paramName q := by
  suffices hfind : ((p'.decl? q.owner).bind fun d => d.typeParams.find? fun r => r.id = q) =
      (p.decl? q.owner).bind fun d => d.typeParams.find? fun r => r.id = q by
    simp only [paramName, hfind]
  have hdecl := h.decl q.owner
  cases hd : p.decl? q.owner with
  | none =>
    rw [hd, Option.map_none, Option.map_eq_none_iff] at hdecl
    rw [hdecl]
  | some decl =>
    obtain ⟨decl', hd', hunnamed⟩ := h.exists_decl hd
    have hparams : decl'.unnamed.typeParams = decl.unnamed.typeParams := by rw [hunnamed]
    change decl'.typeParams = decl.typeParams at hparams
    rw [hd', Option.bind_some, Option.bind_some, hparams]

namespace Engine

variable {w : Setting} {S : Patch} {n m : Nat} {e e' : Engine} {key : InstanceKey}

/-- Every registered declaration is the instance of a leading declaration or of a member, and bears the
name of its key. -/
def Labelled (w : Setting) (e : Engine) : Prop :=
  ∀ {d key}, e.registry.keyOf? d = some key →
    (w.package.Leads key.template ∨ w.package.IsMember key.template) ∧
      ∃ decl name, e.package.decl? d = some decl ∧ decl.mangled = some name ∧
        key.mangle? e.package = some name

theorem labelled_start (w : Setting) (config : Config) (access : AccessRule) :
    Labelled w (start w.package config access .reserved) := fun hk => nomatch hk

section Steps

variable (hw : w.Tidy) (he : e.Orderly w)
include hw he

/-- A new member bears the name of its key. -/
theorem Draft.member_named {root : DeclId} {members : List InstanceKey} {tree : Package.Subtree}
    {table : Remap} (h : Draft w e key root members tree table e') (he' : e'.Orderly w) {c : DeclId}
    (hc : c ∈ tree.decls) (hne : c ≠ key.template) {k : InstanceKey}
    (hk : e'.registry.keyOf? (table.decl c) = some k) : w.package.IsMember k.template ∧
      ∃ decl name, e'.package.decl? (table.decl c) = some decl ∧ decl.mangled = some name ∧
        k.mangle? e'.package = some name := by
  obtain ⟨hmember, q, name, decl, hq, hold, hname, hd, hmangled⟩ := h.enlisted c hc hne k hk
  obtain rfl := h.drawn.keyOf c hc k hk
  refine ⟨hmember, decl, name, hd, hmangled, ?_⟩
  obtain ⟨name₀, -, hname₀, -⟩ := h.named
  have hhandles := (he.settled.settledKey_of_asked h.asked hname₀).handles
  obtain ⟨way, hway⟩ := hw.forest.way (h.drawn.lt_of_mem hc)
  have hnow := he'.rooted.underlies.enclosing?_eq hway
  rw [← hname]
  have hthen : q.enclosing? c = some way := hq.enclosing?_eq hnow
  symm
  refine InstanceKey.mangle?_congr hnow hthen (fun b hb => ?_) fun v hv =>
    Package.showTy?_congr hq.paramName_eq ((hhandles v hv).mono fun d hd => ?_)
  · -- The way leads through declarations of the package only.
    have hlt := Package.lt_of_mem_enclosingWithin hway hb
    obtain ⟨decl, hd⟩ := Package.decl?_eq_some_iff_lt.2 (Package.lt_of_mem_enclosingWithin hnow hb)
    exact ⟨decl, decl, hd,
      (hold (Nat.lt_of_lt_of_le hlt he.rooted.underlies.decls_le)).trans hd, rfl, rfl⟩
  · rw [Package.displayName?, Package.displayName?, hold hd]

theorem Step.labelled (h : Step w S n m e e') (hlabelled : Labelled w e) : Labelled w e' := by
  intro d key hk
  have he' := h.orderly hw he
  by_cases hlt : d.index < e.package.decls.size
  · rw [h.keyOf hlt] at hk
    obtain ⟨hkind, decl, name, hd, hmangled, hname⟩ := hlabelled hk
    obtain ⟨decl', hd', hrevised⟩ := h.decl hw he hd
    have himprint := hrevised.imprint
    simp only [Decl.imprint, Prod.mk.injEq] at himprint
    refine ⟨hkind, decl', name, hd', himprint.2.2.2.2.2.1.trans hmangled, ?_⟩
    rw [h.mangle?_eq hw he (he.rooted.template_lt hk) (he.settled.key hk).handles, hname]
  · obtain ⟨key', root, members, tree, table, hdraft, c, hc, rfl⟩ :=
      h.drafted_decl hw he hlt (he'.settled.sound.indexed.keyOf_lt hk)
    by_cases hne : c = key'.template
    · subst hne
      rw [hdraft.root_eq] at hk ⊢
      have hroot := hdraft.drawn.keyOf_root
      rw [hdraft.root_eq] at hroot
      obtain rfl := Option.some.inj (hroot.symm.trans hk)
      obtain ⟨name, decl, hname, hd, hmangled⟩ := hdraft.named
      refine ⟨.inl hdraft.drawn.leads, decl, name, hd, hmangled, ?_⟩
      rw [h.mangle?_eq hw he (he'.rooted.template_lt hk)
        (he.settled.settledKey_of_asked hdraft.asked hname).handles, hname]
    · obtain ⟨hmember, hnamed⟩ := hdraft.member_named hw he he' hc hne hk
      exact ⟨.inr hmember, hnamed⟩

/-- Instances bear the names of their keys in the course of a run. -/
theorem Evolves.labelled (h : Evolves w S e e') (hlabelled : Labelled w e) : Labelled w e' := by
  induction h with
  | refl => exact hlabelled
  | tail hsteps hstep ih => exact hstep.labelled hw (Evolves.orderly hw he hsteps) ih

/-- A key that mentions existing declarations has the same name ever after. -/
theorem Evolves.mangle?_eq (h : Evolves w S e e')
    (htemplate : key.template.index < w.package.decls.size)
    (hvalues : ∀ v ∈ key.subst.values, v.Handles fun d => d.index < e.package.decls.size) :
    key.mangle? e'.package = key.mangle? e.package := by
  induction h with
  | refl => rfl
  | tail hsteps hstep ih =>
    refine (hstep.mangle?_eq hw (Evolves.orderly hw he hsteps) htemplate fun v hv => ?_).trans ih
    exact (hvalues v hv).mono fun d hd => Nat.lt_of_lt_of_le hd (Evolves.decls_le hsteps)

end Steps

end Engine

end Monomorph
