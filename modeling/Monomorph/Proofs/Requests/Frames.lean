import Monomorph.Proofs.Package.Grafting
import Monomorph.Proofs.Requests.Creating

/-!
# Requests leave existing code alone

A request adds code: the copies of templates go to new slots, and the root of an instance to the handle
that its key has left behind, if it was withdrawn before. Whatever the request writes to afterwards, to
substitute types, to house a member, to replace references or to mark broken code, has been added by the
same request. So no slot that existed before is changed, except for the handles of withdrawn keys.

## Main definitions

* `Engine.Vacated`, `Engine.Handle`: the handles that withdrawn keys have left behind, and all handles.
* `Engine.Grafts`: code has been added, in new slots and in vacated ones.
* `Engine.Frames`: a passage that only adds code.

## Main results

* `Run.frames_instantiate`: requests only add code, whatever comes of them.
-/

namespace Monomorph

open Run (Reserved Copied Drafted Joined templateOptions reservedRoot_templateOptions abandonRoot
  stampRoot)

namespace Engine

variable {e e' e'' e₁ : Engine} {W W' : DeclId → Prop} {key : InstanceKey} {root : DeclId}

/-- The declaration is the handle that a withdrawn key has left behind. -/
def Vacated (e : Engine) (d : DeclId) : Prop := ∃ k, e.registry.tombstone? k = some d

/-- The declaration is an instance, or has been one. -/
def Handle (e : Engine) (d : DeclId) : Prop := (∃ k, e.registry.keyOf? d = some k) ∨ e.Vacated d

/-- Code has been added to a state, in new slots and in the vacated ones of `W`. -/
structure Grafts (W : DeclId → Prop) (e e' : Engine) : Prop where
  package : e.package.Grafted e.Vacated W e'.package
  vacated : ∀ {d}, e'.Vacated d → e.Vacated d
  handle : ∀ {d}, e'.Handle d → e.Handle d ∨ e.package.decls.size ≤ d.index

/-- A passage from a sound state that only adds code. -/
def Frames (e e' : Engine) : Prop := e.Sound → e'.Sound ∧ ∃ W, Grafts W e e'

namespace Grafts

theorem trans (h : Grafts W e e') (h' : Grafts W' e' e'') :
    Grafts (fun d => W d ∨ W' d) e e'' where
  package := h.package.trans h'.package fun _ hd _ => h.vacated hd
  vacated hd := h.vacated (h'.vacated hd)
  handle hd := (h'.handle hd).elim h.handle fun hlt => .inr (Nat.le_trans h.package.decls_le hlt)

theorem of_registry (h : Grafts W e e') (hp : e''.package = e'.package)
    (hv : ∀ {d}, e''.Vacated d → e'.Vacated d) (hh : ∀ {d}, e''.Handle d → e'.Handle d) :
    Grafts W e e'' :=
  ⟨hp ▸ h.package, fun hd => h.vacated (hv hd), fun hd => h.handle (hh hd)⟩

theorem of_alike (h : Grafts W e e') (ha : Alike e' e'') : Grafts W e e'' := by
  have hv : ∀ {d}, e''.Vacated d → e'.Vacated d := fun ⟨k, hk⟩ =>
    ⟨k, by unfold Registry.tombstone? at hk ⊢; exact ha.tombstones ▸ hk⟩
  refine h.of_registry ha.package hv fun hd => hd.imp (fun ⟨k, hk⟩ => ⟨k, ?_⟩) hv
  unfold Registry.keyOf? at hk ⊢
  exact ha.keys ▸ hk

theorem refl (e : Engine) : Grafts (fun _ => False) e e := ⟨.refl _ _, id, .inl⟩

/-- Changes to the code that has been added. -/
theorem of_package (h : Grafts W e e') {p : Package} (hp : e.package.Grafted e.Vacated W' p) :
    Grafts W' e { e' with package := p } := ⟨hp, h.vacated, h.handle⟩

/-! ### Stages of an instance -/

/-- A slot is set aside. -/
theorem reserved (hr : Reserved key root e e₁) : Grafts (fun _ => False) e e₁ where
  package := by
    rcases hr.slot with ⟨-, hp⟩ | ⟨-, -, hp⟩
    · exact hp ▸ .refl _ _
    · exact hp ▸ .push _ _
  vacated := by
    rintro d ⟨k, hk⟩
    rw [hr.registry, Registry.tombstone_enter] at hk
    split at hk
    · cases hk
    · exact ⟨k, hk⟩
  handle := by
    rintro d (⟨k, hk⟩ | ⟨k, hk⟩)
    · rw [hr.registry, Registry.keyOf_enter] at hk
      split at hk
      · rename_i heq
        subst heq
        rcases hr.slot with ⟨ht, -⟩ | ⟨-, rfl, -⟩
        · exact .inl (.inr ⟨key, ht⟩)
        · exact .inr (Nat.le_refl _)
      · exact .inl (.inl ⟨k, hk⟩)
    · rw [hr.registry, Registry.tombstone_enter] at hk
      split at hk
      · cases hk
      · exact .inl (.inr ⟨k, hk⟩)

end Grafts

end Engine

/-- The slot that is set aside is new or vacated. -/
theorem Run.Reserved.root_cases {e e₁ : Engine} {key : InstanceKey} {root : DeclId}
    (hr : Reserved key root e e₁) : e.package.decls.size ≤ root.index ∨ e.Vacated root := by
  rcases hr.slot with ⟨ht, -⟩ | ⟨-, rfl, -⟩
  · exact .inr ⟨key, ht⟩
  · exact .inl (Nat.le_refl _)

namespace Engine.Grafts

variable {e e' e₁ : Engine} {key : InstanceKey} {root : DeclId}

/-- The instance of a broken template is left empty. -/
theorem abandoned (hr : Reserved key root e e₁) {name : String} {decl : Decl}
    (hroot : e₁.package.decl? root = some decl) : Grafts (fun _ => False) e
      { e₁ with package := e₁.package.setDecl root (abandonRoot key name decl) } := by
  have h := reserved hr
  refine h.of_package ?_
  rcases hr.root_cases with hnew | hvacated
  · exact h.package.setDecl (.inl hnew) hroot rfl
  · exact h.package.setDecl_vacated hvacated hroot rfl rfl

/-- The template is copied. -/
theorem copied (hr : Reserved key root e e₁) {copy : Copy} {p : Package}
    (hc : Copied key root e₁ copy p) : ∃ W, Grafts W e { e₁ with package := p } ∧
      (∀ pair ∈ copy.decls, e.package.New W pair.2) ∧
      ∀ pair ∈ copy.decls.drop 1, e.package.decls.size ≤ pair.2.index := by
  have h := reserved hr
  obtain ⟨tree, hcopy⟩ := hc.isCopy
  obtain ⟨p₁, hp₁, hp₂⟩ := hc.subst
  have hgraft := h.package.trans (hcopy.grafted rfl) fun d hd hlt =>
    hr.root_cases.elim (fun hle => absurd hlt (reservedRoot_templateOptions hd ▸ Nat.not_lt.2 hle))
      fun hv => reservedRoot_templateOptions hd ▸ hv
  have hnew : ∀ pair ∈ copy.decls, e.package.New
      (fun d => False ∨ (templateOptions e₁.placement root).reservedRoot = some d) pair.2 := by
    intro pair hpair
    rw [hcopy.decls_eq] at hpair
    obtain ⟨c, hc, rfl⟩ := List.mem_map.1 hpair
    exact (Package.decl_copyTable hc).imp (Nat.le_trans h.package.decls_le) fun hd => .inr hd.1
  refine ⟨_, h.of_package ((hgraft.substDecls hp₁ hnew).substExprs hp₂ fun pair hpair => ?_), hnew,
    fun pair hpair => Nat.le_trans h.package.decls_le (hcopy.fresh hpair)⟩
  rw [hcopy.exprs_eq] at hpair
  obtain ⟨x, hx, rfl⟩ := List.mem_map.1 hpair
  exact Nat.le_trans h.package.exprs_le (Package.expr_copyTable hx)

/-- The copy becomes an instance, and its members are registered. -/
theorem drafted {copy : Copy} (hd : Drafted key root copy e e') :
    ∃ W, Grafts W e e' ∧ e.package.New W root := by
  obtain ⟨name, e₁, p, decl, -, hr, hc, hdecl, hj⟩ := hd.steps
  obtain ⟨W, h, hnew, hfresh⟩ := copied hr hc
  have hroot : e.package.New W root := by
    obtain ⟨tree, rest, hcopy, -, hrest, -⟩ := hc.exists_tree
    refine hnew (key.template, root) ?_
    rw [hcopy.decls_eq, hrest]
    exact List.mem_cons.2 (.inl (Prod.ext rfl (hd.root_eq.symm.trans hcopy.root_eq)))
  have hstamp : e.package.Grafted e.Vacated W (p.setDecl root (stampRoot key name decl)) :=
    h.package.setDecl hroot hdecl rfl
  have hstamped := h.of_package hstamp
  refine ⟨W, ⟨?_, fun ⟨k, hk⟩ => hstamped.vacated ⟨k, hj.tombstone hk⟩, ?_⟩, hroot⟩
  · refine hstamped.package.renamed hj.renamed fun d hd => hj.decl fun pair hpair heq => hd ?_
    exact heq ▸ hnew pair (List.mem_of_mem_drop hpair)
  · rintro d (⟨k, hk⟩ | ⟨k, hk⟩)
    · rcases hj.keyOf hk with hk | ⟨pair, hpair, rfl, -⟩
      · exact hstamped.handle (.inl ⟨k, hk⟩)
      · exact .inr (hfresh pair hpair)
    · exact hstamped.handle (.inr ⟨k, hj.tombstone hk⟩)

end Engine.Grafts

/-! ### Connecting an instance -/

theorem Engine.Frames.of_alike {e e' : Engine} (ha : Engine.Alike e e') : Engine.Frames e e' :=
  fun hs => ⟨(Engine.Grows.of_alike ha hs).sound, _, (Engine.Grafts.refl e).of_alike ha⟩

/-- The slots of added code. -/
def Patch.added (p : Package) (W : DeclId → Prop) : Patch where
  decl := p.New W
  expr x := p.exprs.size ≤ x.index
  note _ := False

namespace Engine

variable {e₀ e e' : Engine} {W₀ W : DeclId → Prop}

/-- More code has been added to `e₀`, at least in the slots of `W`. -/
def Extends (e₀ : Engine) (W : DeclId → Prop) (e : Engine) : Prop :=
  e.Sound ∧ ∃ W', (∀ d, W d → W' d) ∧ Grafts W' e₀ e

/-- A passage that adds more code to `e₀`, where code has already been added in the slots of `W₀`. -/
def Tends (e₀ : Engine) (W₀ : DeclId → Prop) (e e' : Engine) : Prop :=
  ∀ W, (∀ d, W₀ d → W d) → e.Sound → Grafts W e₀ e → Extends e₀ W e'

theorem Extends.tends (h : Extends e₀ W₀ e) (ht : Tends e₀ W₀ e e') : Extends e₀ W₀ e' := by
  obtain ⟨hs, W, hW, hg⟩ := h
  obtain ⟨hs', W', hW', hg'⟩ := ht W hW hs hg
  exact ⟨hs', W', fun d hd => hW' d (hW d hd), hg'⟩

theorem Tends.of_frames (h : Frames e e') : Tends e₀ W₀ e e' := by
  intro W _ hs hg
  obtain ⟨hs', W', hg'⟩ := h hs
  exact ⟨hs', _, fun _ => .inl, hg.trans hg'⟩

/-- Changes to added code. -/
theorem Tends.of_package (h : Tends e₀ W₀ e e') {p : Package}
    (hsize : e'.package.decls.size ≤ p.decls.size)
    (hp : ∀ W W', (∀ d, W₀ d → W d) → (∀ d, W d → W' d) → Grafts W e₀ e → Grafts W' e₀ e' →
      e₀.package.Grafted e₀.Vacated W' p) : Tends e₀ W₀ e { e' with package := p } := by
  intro W hW hs hg
  obtain ⟨hs', W', hW', hg'⟩ := h W hW hs hg
  exact ⟨hs'.of_eq rfl rfl rfl rfl hsize, W', hW', hg'.of_package (hp W W' hW hW' hg hg')⟩

theorem passage_tends (e₀ : Engine) (W₀ : DeclId → Prop) : Passage (Tends e₀ W₀) := by
  refine .of_trans (fun h h' W hW hs hg => ?_) fun ha W _ hs hg => ?_
  · obtain ⟨hs', W', hW', hg'⟩ := h W hW hs hg
    obtain ⟨hs'', W'', hW'', hg''⟩ := h' W' (fun d hd => hW' d (hW d hd)) hs' hg'
    exact ⟨hs'', W'', fun d hd => hW'' d (hW' d hd), hg''⟩
  · exact ⟨(Grows.of_alike ha hs).sound, W, fun _ => id, hg.of_alike ha⟩

theorem tabular_tends (e₀ : Engine) (W₀ : DeclId → Prop) : Tabular (Tends e₀ W₀) :=
  .of_trans (passage_tends e₀ W₀).trans fun ha => .of_frames (.of_alike ha)

/-- Rewriting added code adds code. -/
theorem rewriting_tends (e₀ : Engine) (W₀ : DeclId → Prop) :
    Rewriting (Tends e₀ W₀) (fun _ => Tends e₀ W₀) (.added e₀.package W₀) where
  toPassage := passage_tends e₀ W₀
  retype hd h hdecl _ hk :=
    h.of_package (Nat.le_of_eq (Package.size_decls_setDecl _ _ _).symm)
      fun _ _ hW hW' hg hg' => hg'.package.setDecl_of_lists
        (Package.Grafted.new_mono (fun d hd => hW' d (hW d hd)) hd)
        (((hg.package.lists_decl (Package.Grafted.new_mono hW hd) hdecl).mono
          (fun _ => Package.Grafted.kept_mono hW') fun _ => id).of_skeleton hk)
  reexpress hx h hexpr hk :=
    h.of_package (Nat.le_refl _) fun _ _ _ hW' hg hg' => hg'.package.setExpr_of_lists hx
      (((hg.package.lists_expr hx hexpr).mono (fun _ => Package.Grafted.kept_mono hW')
        fun _ => id).of_skeleton hk)
  flag hd hdecl :=
    ((passage_tends e₀ W₀).refl _).of_package (Nat.le_of_eq (Package.size_decls_setDecl _ _ _).symm)
      fun _ _ hW hW' _ hg' => hg'.package.setDecl
        (Package.Grafted.new_mono (fun d hd => hW' d (hW d hd)) hd) hdecl rfl
  annotate _ hd := hd.elim

end Engine

namespace Run

open Engine (Grows Grown Making Grafts Frames Extends Tends)

variable {make : Instantiator} {fuel : Nat} {e : Engine} {key : InstanceKey} {root : DeclId}
  {W : DeclId → Prop}

section Connecting

variable (hg : ∀ d s, Keeps Grows (make d s)) (hm : ∀ d s, Keeps Frames (make d s))
include hg hm

theorem extends_adopt (he : e.Sound) {members : List InstanceKey} {e₂ : Engine}
    (hroot : e.package.New W root) (h₂ : Extends e W e₂) (h : Making e key root members e₂) :
    (adopt make key root).Meets e₂ (fun _ e₃ => Extends e W e₃ ∧ Making e key root members e₃)
      fun _ e₃ => Extends e W e₃ := by
  refine meets_bind.2 (meets_decl (fun template _ => ?_) h₂)
  cases template.parent with
  | none => exact ⟨h₂, h⟩
  | some parent =>
    refine meets_bind.2 (meets_query (fun scope _ => ?_) h₂)
    have htends : ∀ d s, Keeps (Tends e W) (make d s) := fun d s e₃ =>
      (hm d s).meets (fun _ _ => .of_frames) fun _ _ => .of_frames
    refine meets_bind.2 (Keeps.meets (Keeps.and
      (Keeps.unlessBroken (Engine.passage_tends e W) (htends _ _))
      (Keeps.unlessBroken Engine.passage_grows (hg _ _))) (fun owner e₃ h₃ => ?_)
      fun _ _ h₃ => h₂.tends h₃.1)
    have hwrite : ∀ {decl decl' : Decl}, e₃.package.decl? root = some decl →
        decl'.kind = decl.kind →
        Extends e W { e₃ with package := e₃.package.setDecl root decl' } ∧
          Making e key root members { e₃ with package := e₃.package.setDecl root decl' } := by
      intro decl decl' hdecl hkind
      have hsize := Nat.le_of_eq (Package.size_decls_setDecl e₃.package root decl').symm
      refine ⟨(h₂.tends h₃.1).tends ?_, (h.grows h₃.2 he).of_package he hsize⟩
      exact ((Engine.passage_tends e W).refl e₃).of_package hsize fun _ _ hW hW' _ hg₂ =>
        hg₂.package.setDecl (Package.Grafted.new_mono (fun d hd => hW' d (hW d hd)) hroot) hdecl
          (congrArg _ hkind)
    cases owner with
    | some owner => exact meets_modifyDecl (fun decl hdecl => hwrite hdecl rfl) (h₂.tends h₃.1)
    | none => exact meets_modifyDecl (fun decl hdecl => hwrite hdecl rfl) (h₂.tends h₃.1)

/-- Rearranging an instance changes added code only. -/
theorem extends_rearrange (hroot : e.package.New W root) {e₃ : Engine} (h₃ : Extends e W e₃) :
    (rearrange make fuel root).Meets e₃ (fun _ e₄ => Extends e W e₄ ∧ Grows e₃ e₄)
      fun _ e₄ => Extends e W e₄ := by
  obtain ⟨hs, W', hW, hgraft⟩ := h₃
  have htends : ∀ d s, Keeps (Tends e W') (make d s) := fun d s e₃ =>
    (hm d s).meets (fun _ _ => .of_frames) fun _ _ => .of_frames
  have hcover : ∀ tree, e₃.package.templateSubtree? root = some tree →
      (Patch.added e.package W').Covers tree := fun tree ht =>
    hgraft.package.covers (Package.Grafted.new_mono hW hroot) ht
  have hextends : ∀ {e₄}, Tends e W' e₃ e₄ → Extends e W e₄ := fun ht => by
    obtain ⟨hs₄, W'', hW'', hg''⟩ := ht W' (fun _ => id) hs hgraft
    exact ⟨hs₄, W'', fun d hd => hW'' d (hW d hd), hg''⟩
  exact ((meets_rearrange (Engine.rewriting_tends e W') htends hcover).and
    (keeps_rearrange Engine.rewriting_grows hg root e₃)).mono
    (fun _ _ h₄ => ⟨hextends h₄.1, h₄.2⟩) fun _ _ h₄ => hextends h₄.1

theorem extends_connect (he : e.Sound) {members : List InstanceKey} {skipped : List DeclId}
    {e₂ : Engine} (hroot : e.package.New W root) (h₂ : Extends e W e₂)
    (h : Making e key root members e₂) :
    (connect make fuel key root skipped members).Meets e₂ (fun _ e' => Extends e W e')
      fun _ e' => Extends e W e' := by
  have htends : ∀ d s, Keeps (Tends e W) (make d s) := fun d s e₃ =>
    (hm d s).meets (fun _ _ => .of_frames) fun _ _ => .of_frames
  refine meets_connect he (extends_adopt hg hm he hroot h₂ h)
    (fun ha h₃ => h₃.tends ((Engine.passage_tends e W).of_level ha)) (extends_rearrange hg hm hroot)
    (fun h₄ hgrown => ?_) fun {e₅} h₅ => ?_
  · obtain ⟨-, W', hW, hgraft⟩ := h₄
    exact ⟨hgrown.sound, W', hW, hgraft.of_registry rfl id id⟩
  · exact (keeps_settle (Engine.passage_tends e W) (Engine.tabular_tends e W) htends root).meets
      (fun _ _ => h₅.tends) fun _ _ => h₅.tends

theorem frames_makeInstance (he : e.Sound) (hk : e.Asked key) :
    (makeInstance make fuel key).Meets e (fun _ e' => Frames e e') fun _ e' => Frames e e' := by
  have hframes : ∀ {W e'}, Extends e W e' → Frames e e' := fun ⟨hs, W', _, hgraft⟩ _ =>
    ⟨hs, W', hgraft⟩
  refine meets_makeInstance_of_drafted he hk ?_ (fun name root e₁ _ hr => ⟨?_, fun decl broken hroot _ => ?_⟩)
    (fun name root e₁ copy p _ hr hc _ _ => ?_) (fun root copy e₂ hd _ _ => ?_)
    fun root copy members e₂ hd h _ => ?_
  · exact fun _ => ⟨he, _, .refl e⟩
  · exact fun _ => ⟨(Making.of_reserved he hr).sound, _, .reserved hr⟩
  · have hmaking := (Making.of_reserved he hr).of_package he
      (Nat.le_of_eq (Package.size_decls_setDecl e₁.package root (abandonRoot key name decl)).symm)
    have hc := meets_completeAll hmaking.nodup hmaking.instantiating
    refine meets_bind.2 ((meets_bind.1 hc).mono ?_ fun _ _ hF => hF.elim)
    rintro - e₂ ⟨slots, rfl, hf⟩
    exact fun _ => ⟨(hmaking.finish hf).sound, _, (Grafts.abandoned hr hroot).of_registry rfl id id⟩
  · obtain ⟨W, hgraft, -⟩ := Grafts.copied hr hc
    exact fun _ => ⟨((Making.of_reserved he hr).of_package he hc.decls_le).sound, W, hgraft⟩
  · obtain ⟨W, hgraft, -⟩ := Grafts.drafted hd
    obtain ⟨members, hmaking⟩ := hd.making
    exact fun _ => ⟨hmaking.sound, W, hgraft⟩
  · obtain ⟨W, hgraft, hroot⟩ := Grafts.drafted hd
    exact (extends_connect hg hm he hroot ⟨h.sound, W, fun _ => id, hgraft⟩ h).mono
      (fun _ _ => hframes) fun _ _ => hframes

end Connecting

theorem passage_frames : Engine.Passage Frames := by
  refine .of_trans (fun h h' hs => ?_) Frames.of_alike
  obtain ⟨hs', W, hg⟩ := h hs
  obtain ⟨hs'', W', hg'⟩ := h' hs'
  exact ⟨hs'', _, hg.trans hg'⟩

/-- Requests only add code, whatever comes of them. -/
theorem frames_instantiate (n : Nat) (d : DeclId) (s : Subst) : Keeps Frames (instantiate n d s) :=
  keeps_instantiate_of_make passage_frames
    (fun hs => ⟨fun h => absurd h hs, fun _ h => absurd h hs⟩)
    (fun n _ _ ih he hk => frames_makeInstance (grows_instantiate n) ih he hk) n d s

end Run

end Monomorph
