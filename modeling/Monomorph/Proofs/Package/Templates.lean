import Monomorph.Proofs.Package.WellFormed

/-!
# Leading declarations

Instances are made for declarations that have type parameters of their own or stand at the top; all
other declarations are copied with the leading declaration that they belong to. Every declaration
belongs to one leading declaration at most.

## Main definitions

* `Package.Leads`: a declaration that instances are made for.
* `Package.IsMember`: a member of another declaration.

## Main results

* `Package.Forest.parent_mem`: the subtree of a declaration contains the parents of its nodes.
* `Package.Forest.eq_of_leads`: the subtrees of leading declarations do not overlap.
-/

namespace Monomorph

namespace Package

variable {p : Package} {root : DeclId} {skip : DeclId → Bool}

/-- A declaration with type parameters of its own, or one that stands at the top. -/
def Leads (p : Package) (d : DeclId) : Prop :=
  ∃ decl, p.decl? d = some decl ∧ (decl.hasTypeParams = true ∨ decl.parent = none)

/-- A declaration that its parent lists as a member. -/
def IsMember (p : Package) (d : DeclId) : Prop :=
  ∃ decl c owner, p.decl? d = some decl ∧ decl.parent = some c ∧ p.decl? c = some owner ∧
    d ∈ owner.kind.members

theorem declaresParams_of_decl? {d : DeclId} {decl : Decl} (hd : p.decl? d = some decl) :
    p.declaresParams d = decl.hasTypeParams := by
  rw [declaresParams, hd]

theorem typeParams_eq_nil_of_declaresParams {d : DeclId} {decl : Decl} (hd : p.decl? d = some decl)
    (h : p.declaresParams d = false) : decl.typeParams = [] := by
  rw [declaresParams_of_decl? hd, Decl.hasTypeParams] at h
  simpa using h

theorem Generic.lt {d : DeclId} (h : p.Generic d) : d.index < p.decls.size := by
  cases h with
  | own hd _ => exact lt_of_decl? hd
  | inner hd _ _ => exact lt_of_decl? hd

theorem Holds.lt {d : DeclId} {x : ExprId} (h : p.Holds d x) : x.index < p.exprs.size := by
  obtain ⟨decl, code, -, hcode, hx⟩ := h
  obtain ⟨expr, hexpr⟩ := exists_expr?_of_mem_code? hcode hx
  exact lt_of_expr? hexpr

/-- Members and parameters are children. -/
theorem mem_children_of_mem_append {d c : DeclId} {decl : Decl} {children : List DeclId}
    (hd : p.decl? d = some decl) (hch : p.children? d = some children)
    (hc : c ∈ decl.kind.members ++ decl.kind.params) : c ∈ children := by
  simp only [children?, hd, Option.bind_eq_bind, Option.bind_some, Option.bind_eq_some_iff,
    Option.pure_def, Option.some.injEq] at hch
  obtain ⟨-, -, locals, -, rfl⟩ := hch
  exact List.mem_append_left _ hc

theorem mem_children_of_mem_members {d c : DeclId} {decl : Decl} {children : List DeclId}
    (hd : p.decl? d = some decl) (hch : p.children? d = some children)
    (hc : c ∈ decl.kind.members) : c ∈ children :=
  mem_children_of_mem_append hd hch (List.mem_append_left _ hc)

/-- A visited declaration is the first one, or a child of a visited one. -/
theorem eq_or_child_of_mem {n : Nat} {d c : DeclId} {tree : Subtree}
    (h : p.treeWithin root skip n d = some tree) (hc : c ∈ tree.decls) :
    c = d ∨ ∃ b ∈ tree.decls, ∃ children, p.children? b = some children ∧ c ∈ children := by
  induction n generalizing d tree with
  | zero => cases h
  | succ n ih =>
    obtain ⟨m, hm, ⟨-, rfl⟩ | ⟨-, decl, code, children, forest, -, -, hch, hf, rfl⟩⟩ :=
      treeWithin_eq_some h
    · cases hc
    · obtain rfl := Nat.succ.inj hm
      rcases List.mem_cons.1 hc with rfl | hc
      · exact .inl rfl
      · obtain ⟨t, ht, hct⟩ := List.mem_flatMap.1 hc
        obtain ⟨a, ha, hat⟩ := mem_of_mapM_eq_some hf ht
        rcases ih hat hct with rfl | ⟨b, hb, hchild⟩
        · exact .inr ⟨d, List.mem_cons_self, children, hch, ha⟩
        · exact .inr ⟨b, List.mem_cons_of_mem _ (List.mem_flatMap.2 ⟨t, ht, hb⟩), hchild⟩

namespace Forest

variable {n : Nat} {c : DeclId} {tree : Subtree}

/-- The subtree of a declaration contains the parents of its nodes. -/
theorem parent_mem (hp : p.Forest) (h : p.treeWithin root skip n root = some tree)
    (hc : c ∈ tree.decls) (hne : c ≠ root) :
    ∃ decl b, p.decl? c = some decl ∧ decl.parent = some b ∧ b ∈ tree.decls := by
  rcases eq_or_child_of_mem h hc with rfl | ⟨b, hb, children, hch, hmem⟩
  · exact absurd rfl hne
  · obtain ⟨decl, hd, hparent⟩ := hp.parent_of_mem hch hmem
    exact ⟨decl, b, hd, hparent, hb⟩

/-- What is copied together with a declaration does not lead. -/
theorem not_leads_of_mem (hp : p.Forest) (h : p.treeWithin root p.declaresParams n root = some tree)
    (hc : c ∈ tree.decls) (hne : c ≠ root) : ¬ p.Leads c := by
  rintro ⟨decl, hd, hleads⟩
  rcases hleads with hparams | htop
  · have hskip := skip_eq_false_of_mem h hc hne
    rw [declaresParams_of_decl? hd, hparams] at hskip
    cases hskip
  · obtain ⟨b, hb⟩ := hp.parent_of_mem_tail h hc hne hd
    rw [htop] at hb
    cases hb

/-- Every declaration belongs to one leading declaration at most. -/
theorem eq_of_leads (hp : p.Forest) {g g' : DeclId} (hg : p.Leads g) (hg' : p.Leads g')
    {m : Nat} {tree' : Subtree} (h : p.treeWithin g p.declaresParams n g = some tree)
    (h' : p.treeWithin g' p.declaresParams m g' = some tree') (hc : c ∈ tree.decls)
    (hc' : c ∈ tree'.decls) : g = g' := by
  obtain ⟨way, hway⟩ := hp.way (lt_of_mem_treeWithin h hc)
  -- The two leading declarations are met at the same place on the way outwards.
  induction way generalizing c with
  | nil =>
    obtain ⟨m, decl, -, -, hcase⟩ := enclosingWithin_eq_some hway
    cases hparent : decl.parent with
    | none =>
      rw [hparent] at hcase
      cases hcase
    | some b =>
      rw [hparent] at hcase
      obtain ⟨rest, -, hrest⟩ := hcase
      cases hrest
  | cons a rest ih =>
    by_cases hcg : c = g
    · by_cases hcg' : c = g'
      · exact hcg.symm.trans hcg'
      · exact absurd (hcg ▸ hg) (hp.not_leads_of_mem h' hc' hcg')
    · have hcg' : c ≠ g' := fun he => hp.not_leads_of_mem h hc hcg (he ▸ hg')
      obtain ⟨decl, b, hd, hparent, hb⟩ := hp.parent_mem h hc hcg
      obtain ⟨decl', b', hd', hparent', hb'⟩ := hp.parent_mem h' hc' hcg'
      obtain rfl := Option.some.inj (hd.symm.trans hd')
      obtain rfl := Option.some.inj (hparent.symm.trans hparent')
      obtain ⟨rest', hrest', heq⟩ := enclosing?_of_parent hway hd hparent
      rw [(List.cons.inj heq).2] at ih
      exact ih hb hb' hrest'

end Forest

end Package

end Monomorph
