import Monomorph.Proofs.Instances.Shapes
import Monomorph.Proofs.Instances.Transcripts

/-!
# Names and shapes told by the package

If a key mentions declarations of the package only, then the name and the shape of its instance can be told
from the package and the key. Whatever else has been instantiated, and when, does not show in them.

## Main definitions

* `Engine.likeness?`: the shape of the instance of a key, as the package tells it.

## Main results

* `Engine.Ledger.mangled_eq`: an instance bears the name that the package tells.
* `Engine.Ledger.shape?_eq`: an instance has the shape that the package tells.
-/

namespace Monomorph

namespace Engine

/-- The text of a parameter of a function in an instance. A parameter with type parameters of its own is
left as it is. -/
def paramText? (b : Engine) (s : Subst) (q : DeclId) : Option String :=
  b.shapeParam? (if b.package.declaresParams q then {} else s) q

/-- The shape of the instance of a key, as the package tells it. -/
def likeness? (b : Engine) (key : InstanceKey) : Option String := do
  let name ← key.mangle? b.package
  let decl ← b.package.decl? key.template
  let members := decl.kind.members.filter fun m => !b.package.declaresParams m
  return "; ".intercalate
    (name :: (← members.mapM (b.signatureWith? (b.paramText? key.subst) key.subst)))

variable {w : Setting} {b e : Engine} {key : InstanceKey} {s : Subst} {c d : DeclId} (h : Begins w b)
  (hl : Ledger w b e)
include h hl

/-! ### Texts -/

/-- Types of the package have the same text in every state. -/
theorem Ledger.showTy?_eq {t : Ty} (ht : w.Original t) : e.package.showTy? t = b.package.showTy? t := by
  refine Package.showTy?_congr (fun q => ?_) (ht.lt.mono fun d hd => ?_)
  · rw [(hl.orderly h).paramName_eq h.tidy, h.orderly.paramName_eq h.tidy]
  · rw [Package.displayName?, Package.displayName?, hl.decl_eq h hd, h.package_eq]

theorem Ledger.shapeTy?_eq (hs : w.Originals s) {t : Ty} (ht : t.Applies w.package.TypeName) :
    e.shapeTy? s t = b.shapeTy? s t := by
  have horiginal := Subst.Applies.apply hs (Setting.original_of_typeName ht)
  rw [shapeTy?, shapeTy?, hl.canonical_of_original h horiginal, h.canonical, hl.showTy?_eq h horiginal]

theorem Ledger.shapeParam?_eq (hs : w.Originals s) (hc : c.index < w.package.decls.size) :
    e.shapeParam? s c = b.shapeParam? s c := by
  obtain ⟨decl, hd⟩ := Package.decl?_eq_some_iff_lt.2 hc
  simp only [shapeParam?, (hl.decl_eq h hc).trans hd, h.package_eq.symm ▸ hd, Option.bind_eq_bind,
    Option.bind_some]
  split
  · rename_i ty _ hkind
    exact hl.shapeTy?_eq h hs (h.wellFormed.declTypes hd ty (by rw [hkind]; exact List.mem_cons_self))
  · rfl

theorem Ledger.signatureWith?_eq (hs : w.Originals s) (text : DeclId → Option String)
    (hc : c.index < w.package.decls.size) : e.signatureWith? text s c = b.signatureWith? text s c := by
  obtain ⟨decl, hd⟩ := Package.decl?_eq_some_iff_lt.2 hc
  simp only [signatureWith?, (hl.decl_eq h hc).trans hd, h.package_eq.symm ▸ hd, Option.bind_eq_bind,
    Option.bind_some]
  split
  · rename_i ret _ hkind
    rw [hl.shapeTy?_eq h hs (h.wellFormed.declTypes hd ret (by rw [hkind]; exact List.mem_cons_self))]
  · rename_i ty _ hkind
    rw [hl.shapeTy?_eq h hs (h.wellFormed.declTypes hd ty (by rw [hkind]; exact List.mem_cons_self))]
  · rfl

/-! ### Portraits -/

theorem Ledger.pictured : Pictured w e := by
  obtain ⟨config, access, rfl⟩ := h.started
  exact hl.evolves.pictured h.wellFormed h.orderly (pictured_start h.wellFormed config access)

/-- Every instance, be it of a member, is part of a drawing that consists of portraits. -/
theorem Ledger.exists_portrait (hk : e.registry.keyOf? d = some key) : ∃ root tree table,
    Drawn w.package e root tree table ∧ key.template ∈ tree.decls ∧ table.decl key.template = d ∧
      key.subst = root.subst ∧ ∀ c ∈ tree.decls, ∀ decl₀ decl, w.package.decl? c = some decl₀ →
        e.package.decl? (table.decl c) = some decl → Portrayed w e root.subst decl₀ decl := by
  have he := hl.orderly h
  by_cases hleads : w.package.Leads key.template
  · obtain ⟨tree, table, hdrawn, hroot, hportrait⟩ := (hl.pictured h).portrait hk hleads
    exact ⟨key, tree, table, hdrawn, hdrawn.mem_root, hroot, rfl, hportrait⟩
  · have hmember := (hl.labelled h hk).1.resolve_left hleads
    obtain ⟨root, tree, table, hdrawn, hmem, -, hsubst⟩ := he.drawn hk
    obtain ⟨tree', table', hdrawn', -, hportrait⟩ := (hl.pictured h).portrait hdrawn.keyOf_root hdrawn.leads
    obtain rfl := Option.some.inj (hdrawn.tree_eq.symm.trans hdrawn'.tree_eq)
    refine ⟨root, tree, table', hdrawn', hmem, ?_, hsubst, hportrait⟩
    -- There is one instance of a key only.
    have hne : key.template ≠ root.template := fun heq => hleads (heq ▸ hdrawn.leads)
    have hk' := hdrawn'.keyOf_of_isMember h.tidy.forest hmem hne hmember
    rw [← hsubst] at hk'
    obtain ⟨slot, hslot, rfl⟩ := he.settled.sound.indexed.slot_keyOf hk
    obtain ⟨slot', hslot', heq⟩ := he.settled.sound.indexed.slot_keyOf hk'
    rw [← heq, Option.some.inj (hslot.symm.trans hslot')]

/-! ### Shapes -/

section Drawings

variable {root : InstanceKey} {tree : Package.Subtree} {table : Remap}
  (hdrawn : Drawn w.package e root tree table) (hs : w.Originals root.subst)
  (hportrait : ∀ c ∈ tree.decls, ∀ decl₀ decl, w.package.decl? c = some decl₀ →
    e.package.decl? (table.decl c) = some decl → Portrayed w e root.subst decl₀ decl)
include hdrawn

/-- What has been drawn has a signature. -/
theorem Ledger.exists_memberShape? (hc : c ∈ tree.decls) :
    ∃ text, e.memberShape? {} (table.decl c) = some text := by
  have he := hl.orderly h
  obtain ⟨decl₀, decl, hd₀, hd, hdraw⟩ := hdrawn.decl c hc
  obtain ⟨children, hch, -, hall⟩ := h.wellFormed.children (hdrawn.lt_of_mem hc)
  refine he.exists_memberShape? (fun _ hv => nomatch hv) hd fun q hq => ?_
  rw [DeclKind.params_eq_of_skeleton hdraw.skeleton, DeclKind.params_carry] at hq
  obtain ⟨q, hparam, rfl⟩ := List.mem_map.1 hq
  by_cases hmem : q ∈ tree.decls
  · obtain ⟨-, _, -, hdq, -⟩ := hdrawn.decl q hmem
    exact Package.lt_of_decl? hdq
  · obtain ⟨_, hdq, -⟩ := hall q (Package.mem_children_of_mem_append hd₀ hch (List.mem_append_right _ hparam))
    rw [hdrawn.outside q hmem]
    exact Nat.lt_of_lt_of_le (Package.lt_of_decl? hdq) he.rooted.underlies.decls_le

include hs hportrait

/-- The members of an instance have the signatures that the package tells. -/
theorem Ledger.memberShape?_eq (hc : c ∈ tree.decls) : e.memberShape? {} (table.decl c) =
    b.signatureWith? (b.paramText? root.subst) root.subst c := by
  have he := hl.orderly h
  have hpictured := hl.pictured h
  have hlegal : ∀ v ∈ root.subst.values, w.Legal v := fun v hv =>
    Setting.legal_of_fits h.strict (Subst.applies_iff_values.1 hs v hv)
  obtain ⟨decl, decl', hd, hd', hname, hkind⟩ :=
    hpictured.exists_retype_eq he hdrawn hlegal hportrait hc
  have hlt := hdrawn.lt_of_mem hc
  have hd₀ := (hl.decl_eq h hlt).symm.trans hd
  obtain ⟨children, hch, -, hall⟩ := h.wellFormed.children hlt
  rw [← hl.signatureWith?_eq h hs _ hlt]
  refine Engine.memberShape?_eq hd hd' hkind hname fun q hq => ?_
  have hchild := Package.mem_children_of_mem_append hd₀ hch (List.mem_append_right _ hq)
  obtain ⟨declq₀, hq₀, -⟩ := hall q hchild
  have hltq := Package.lt_of_decl? hq₀
  rw [paramText?, h.package_eq]
  cases hparams : w.package.declaresParams q with
  | false =>
    obtain ⟨declq, declq', hdq, hdq', -, hkindq⟩ := hpictured.exists_retype_eq he hdrawn hlegal hportrait
      ((hdrawn.mem_decls_iff h.tidy.forest hc hch hchild).2 hparams)
    rw [Engine.shapeParam?_eq hdq hdq' hkindq, if_neg Bool.false_ne_true]
    exact hl.shapeParam?_eq h hs hltq
  | true =>
    have hout : q ∉ tree.decls := fun hmem => by
      rw [(hdrawn.mem_decls_iff h.tidy.forest hc hch hchild).1 hmem] at hparams
      cases hparams
    rw [hdrawn.outside q hout, if_pos rfl]
    exact hl.shapeParam?_eq h w.originals_empty hltq

end Drawings

/-- An instance bears the name that the package tells. -/
theorem Ledger.mangled_eq (hk : e.registry.keyOf? d = some key) :
    ∃ decl name, e.package.decl? d = some decl ∧ decl.mangled = some name ∧
      key.mangle? b.package = some name := by
  obtain ⟨-, decl, name, hd, hmangled, hname⟩ := hl.labelled h hk
  refine ⟨decl, name, hd, hmangled, ?_⟩
  rw [← hname]
  refine (hl.evolves.mangle?_eq h.tidy h.orderly ((hl.orderly h).rooted.template_lt hk) fun v hv => ?_).symm
  rw [h.package_eq]
  exact (Subst.applies_iff_values.1 (hl.originals hk) v hv).lt

/-- An instance has the shape that the package tells. -/
theorem Ledger.shape?_eq (hk : e.registry.keyOf? d = some key) :
    ∃ shape, e.shape? d = some shape ∧ b.likeness? key = some shape := by
  obtain ⟨root, tree, table, hdrawn, hc, rfl, hsubst, hportrait⟩ := hl.exists_portrait h hk
  obtain ⟨decl, name, hd, hmangled, hname⟩ := hl.mangled_eq h hk
  obtain ⟨decl₀, decl', hd₀, hd', hdraw⟩ := hdrawn.decl key.template hc
  obtain rfl := Option.some.inj (hd.symm.trans hd')
  have hs : w.Originals root.subst := hl.originals hdrawn.keyOf_root
  -- The members without type parameters of their own are part of the drawing.
  let kept := decl₀.kind.members.filter fun m => !w.package.declaresParams m
  have hmem : ∀ m ∈ kept, m ∈ tree.decls := by
    intro m hm
    obtain ⟨hm, hkeep⟩ := List.mem_filter.1 hm
    obtain ⟨children, hch, -⟩ := h.wellFormed.children (hdrawn.lt_of_mem hc)
    exact (hdrawn.mem_decls_iff h.tidy.forest hc hch (Package.mem_children_of_mem_members hd₀ hch hm)).2
      (by simpa using hkeep)
  have hmembers : decl.kind.members = kept.map table.decl := by
    rw [DeclKind.members_eq_of_skeleton hdraw.skeleton, DeclKind.members_carry]
  obtain ⟨texts, htexts⟩ := exists_mapM_eq_some (l := kept) fun m hm =>
    hl.exists_memberShape? h hdrawn (hmem m hm)
  have hshapes : decl.kind.members.mapM (e.memberShape? {}) = some texts := by
    rw [hmembers, List.mapM_map]
    exact htexts
  have htold : kept.mapM (b.signatureWith? (b.paramText? key.subst) key.subst) = some texts := by
    rw [← htexts, hsubst]
    exact mapM_congr_of_mem fun m hm => (hl.memberShape?_eq h hdrawn hs hportrait (hmem m hm)).symm
  rw [h.package_eq] at hname
  refine ⟨"; ".intercalate (name :: texts), ?_, ?_⟩
  · simp only [shape?, hd, hshapes, Decl.displayName, hmangled, Option.bind_eq_bind, Option.bind_some,
      Option.getD_some, Option.pure_def]
  · simp only [likeness?, h.package_eq, hname, hd₀, Option.bind_eq_bind, Option.bind_some,
      show (decl₀.kind.members.filter _).mapM _ = _ from htold, Option.pure_def]

end Engine

end Monomorph
