import Monomorph.Engine.Shape
import Monomorph.Proofs.Instances.Candidates
import Monomorph.Proofs.Instances.Portraits

/-!
# Shapes of instances

The shape of an instance is a text with its name and the signatures of its members. The shape that it
ought to have is made from the template and the substitution alone. In a package as the checker leaves it,
the two are the same in every state that requests lead to, whether or not the instance has parameters left:
an instance is a portrait of its template, and canonical forms undo whatever copying and rearranging have
done to its types.

The checker lets types mention declarations at the top only. If a template has a type inside of it, an
instance has its own copy of this type, under another name, and a member that mentions it has another shape
than the template calls for (`Engine.shape_of_box_inner`).

## Main results

* `Engine.Pictured.memberShape?_eq`: the members of an instance have the signatures that they ought to have.
* `Engine.shape_eq_expectedShape`: an instance has the shape that it ought to have.
-/

namespace Monomorph

/-- The parameters of functions have no type parameters of their own. -/
def Package.PlainParams (p : Package) : Prop :=
  ∀ {d decl}, p.decl? d = some decl → ∀ c ∈ decl.kind.params, p.declaresParams c = false

theorem Package.filterDecls?_eq_filter {p : Package} {keep : Decl → Bool} {f : DeclId → Bool}
    {ds : List DeclId} (h : ∀ d ∈ ds, ∃ decl, p.decl? d = some decl ∧ keep decl = f d) :
    p.filterDecls? keep ds = some (ds.filter f) := by
  induction ds with
  | nil => rfl
  | cons d ds ih =>
    rw [List.forall_mem_cons] at h
    obtain ⟨⟨decl, hd, hkeep⟩, hrest⟩ := h
    simp only [filterDecls?, hd, hkeep, ih hrest, Option.bind_eq_bind, Option.bind_some,
      List.filter_cons]
    rfl

namespace Engine

variable {w : Setting} {e : Engine} {s : Subst} {c c' : DeclId} {decl₀ decl decl' : Decl}

/-! ### Signatures -/

/-- The signature of a member under a substitution, with other texts for the parameters of functions. -/
def signatureWith? (e : Engine) (text : DeclId → Option String) (s : Subst) (member : DeclId) :
    Option String := do
  let decl ← e.package.decl? member
  match decl.kind with
  | .func params ret _ =>
    return "func " ++ decl.name ++ "(" ++ ", ".intercalate (← params.mapM text) ++ ") -> " ++
      (← e.shapeTy? s ret)
  | .var _ ty _ => return "var " ++ decl.name ++ ": " ++ (← e.shapeTy? s ty)
  | kind => return kind.label ++ " " ++ decl.name

theorem signatureWith?_shapeParam? (e : Engine) (s : Subst) (member : DeclId) :
    e.signatureWith? (e.shapeParam? s) s member = e.memberShape? s member := rfl

/-- The text of a type is that of its canonical form. -/
theorem shapeTy?_eq {t t' : Ty} (h : e.canonical t' = e.canonical (s.apply t)) :
    e.shapeTy? {} t' = e.shapeTy? s t := by
  unfold shapeTy?
  rw [← h]
  exact congrArg (fun u => e.package.showTy? (e.canonical u)) (Subst.empty_apply t')

section Texts

variable {f : DeclId → DeclId} {g : ExprId → ExprId} {keep : DeclId → Bool}
  (hd : e.package.decl? c = some decl) (hd' : e.package.decl? c' = some decl')
  (hkind : decl'.kind.retype e.canonical =
    (decl.kind.carry f g keep).retype fun t => e.canonical (s.apply t))
include hd hd' hkind

theorem shapeParam?_eq : e.shapeParam? {} c' = e.shapeParam? s c := by
  obtain ⟨name, kind⟩ := decl
  obtain ⟨name', kind'⟩ := decl'
  simp only [shapeParam?, hd, hd', Option.bind_eq_bind, Option.bind_some]
  cases kind with
  | var sort ty init =>
    cases kind' with
    | var sort' ty' init' =>
      exact shapeTy?_eq (DeclKind.var.inj hkind).2.1
    | func | type | interface | extension | placeholder =>
      simp [DeclKind.retype, DeclKind.mapTypes, DeclKind.carry] at hkind
  | func | type | interface | extension | placeholder =>
    cases kind' with
    | var => simp [DeclKind.retype, DeclKind.mapTypes, DeclKind.carry] at hkind
    | func | type | interface | extension | placeholder => rfl

theorem memberShape?_eq (hname : decl'.name = decl.name) {text : DeclId → Option String}
    (hparams : ∀ q ∈ decl.kind.params, e.shapeParam? {} (f q) = text q) :
    e.memberShape? {} c' = e.signatureWith? text s c := by
  obtain ⟨name, kind⟩ := decl
  obtain ⟨name', kind'⟩ := decl'
  obtain rfl : name' = name := hname
  simp only [memberShape?, signatureWith?, hd, hd', Option.bind_eq_bind, Option.bind_some]
  cases kind with
  | func params ret body =>
    cases kind' with
    | func params' ret' body' =>
      obtain ⟨rfl, hret, -⟩ := DeclKind.func.inj hkind
      have hsame : (params.map f).mapM (e.shapeParam? {}) = params.mapM text := by
        rw [List.mapM_map]
        exact mapM_congr_of_mem hparams
      simp only [hsame, shapeTy?_eq hret]
    | type | interface | extension | var | placeholder =>
      simp [DeclKind.retype, DeclKind.mapTypes, DeclKind.carry] at hkind
  | var sort ty init =>
    cases kind' with
    | var sort' ty' init' =>
      simp only [shapeTy?_eq (DeclKind.var.inj hkind).2.1]
    | func | type | interface | extension | placeholder =>
      simp [DeclKind.retype, DeclKind.mapTypes, DeclKind.carry] at hkind
  | type | interface | extension | placeholder =>
    cases kind' <;> first | rfl | simp [DeclKind.retype, DeclKind.mapTypes, DeclKind.carry] at hkind

end Texts

/-- Types of the arena have texts. -/
theorem Settled.exists_shapeTy? (he : e.Settled) {t : Ty}
    (hs : ∀ v ∈ s.values, v.Handles fun d => d.index < e.package.decls.size)
    (ht : t.Handles fun d => d.index < e.package.decls.size) : ∃ text, e.shapeTy? s t = some text := by
  refine Package.exists_showTy? (he.handles_canonical (Ty.applies_iff_handles.1 ?_))
  exact Subst.Applies.apply (Subst.applies_iff_values.2 fun v hv => (hs v hv).applies) ht.applies

/-- Members have signatures. -/
theorem Orderly.exists_memberShape? (he : e.Orderly w)
    (hs : ∀ v ∈ s.values, v.Handles fun d => d.index < e.package.decls.size)
    (hd : e.package.decl? c = some decl)
    (hparams : ∀ q ∈ decl.kind.params, q.index < e.package.decls.size) :
    ∃ text, e.memberShape? s c = some text := by
  have htype : ∀ {d : DeclId} {decl : Decl}, e.package.decl? d = some decl → ∀ t ∈ decl.kind.types,
      ∃ text, e.shapeTy? s t = some text := fun hd t ht =>
    he.settled.exists_shapeTy? hs (he.declTypes hd t ht).lt
  have hparam : ∀ q ∈ decl.kind.params, ∃ text, e.shapeParam? s q = some text := by
    intro q hq
    obtain ⟨declq, hdq⟩ := Package.decl?_eq_some_iff_lt.2 (hparams q hq)
    simp only [shapeParam?, hdq, Option.bind_eq_bind, Option.bind_some]
    split
    · rename_i kind ty init hk
      exact htype hdq ty (by rw [hk]; exact List.mem_cons_self)
    · exact ⟨"", rfl⟩
  simp only [memberShape?, hd, Option.bind_eq_bind, Option.bind_some]
  split
  · rename_i params ret body hk
    obtain ⟨texts, htexts⟩ := exists_mapM_eq_some (l := params) fun q hq =>
      hparam q (by rw [hk]; exact hq)
    obtain ⟨text, htext⟩ := htype hd ret (by rw [hk]; exact List.mem_cons_self)
    exact ⟨_, by rw [htexts, htext]; rfl⟩
  · rename_i kind ty init hk
    obtain ⟨text, htext⟩ := htype hd ty (by rw [hk]; exact List.mem_cons_self)
    exact ⟨_, by rw [htext]; rfl⟩
  · exact ⟨_, rfl⟩

/-! ### Instances -/

/-- A child of what has been drawn is drawn as well, unless it has type parameters of its own. -/
theorem Drawn.mem_decls_iff {p : Package} {key : InstanceKey} {tree : Package.Subtree} {table : Remap}
    (h : Drawn p e key tree table) (hp : p.Forest) (hc : c ∈ tree.decls) {children : List DeclId}
    (hch : p.children? c = some children) {m : DeclId} (hm : m ∈ children) :
    m ∈ tree.decls ↔ p.declaresParams m = false := by
  have hplace := Package.mem_of_mem_children h.tree_eq hc hch hm
  constructor
  · intro hmem
    by_contra hparams
    obtain ⟨_, hdecl⟩ := Package.decl?_eq_some_iff_lt.2 (h.lt_of_mem hmem)
    rw [Bool.not_eq_false, Package.declaresParams_of_decl? hdecl] at hparams
    have hne : m ≠ key.template := fun heq => hp.root_not_mem_children h.tree_eq hc hch (heq ▸ hm)
    exact hp.not_leads_of_mem h.tree_eq hmem hne ⟨_, hdecl, .inl hparams⟩
  · intro hparams
    rwa [if_neg fun hskip => Bool.false_ne_true (hparams.symm.trans hskip.2)] at hplace

section Drawings

variable {key : InstanceKey} {tree : Package.Subtree} {table : Remap} (hp : w.package.WellFormed)
  (he : e.Orderly w) (hpictured : Pictured w e) (hdrawn : Drawn w.package e key tree table)
  (hlegal : ∀ v ∈ key.subst.values, w.Legal v)
  (hportrait : ∀ c ∈ tree.decls, ∀ decl₀ decl, w.package.decl? c = some decl₀ →
    e.package.decl? (table.decl c) = some decl → Portrayed w e key.subst decl₀ decl)
include he hpictured hdrawn hlegal hportrait

include hp

/-- The members of an instance have the signatures that they ought to have. -/
theorem Pictured.memberShape?_eq (hplain : w.package.PlainParams) (hc : c ∈ tree.decls) :
    ∃ text, e.memberShape? {} (table.decl c) = some text ∧ e.memberShape? key.subst c = some text := by
  obtain ⟨decl₀, -, hd₀, -⟩ := hdrawn.decl c hc
  obtain ⟨decl, decl', hd, hd', hname, hkind⟩ :=
    hpictured.exists_retype_eq he hdrawn hlegal hportrait hc
  obtain ⟨_, hd'', ho⟩ := he.rooted.underlies.decl hd₀
  obtain rfl := Option.some.inj (hd.symm.trans hd'')
  have hparams : ∀ q ∈ decl.kind.params, q ∈ tree.decls := by
    intro q hq
    rw [DeclKind.params_eq_of_skeleton (Decl.skeleton_eq_of_outline ho)] at hq
    obtain ⟨children, hch, -⟩ := hp.children (Package.lt_of_decl? hd₀)
    exact (hdrawn.mem_decls_iff hp.toForest hc hch
      (Package.mem_children_of_mem_append hd₀ hch (List.mem_append_right _ hq))).2 (hplain hd₀ q hq)
  have hsame := Engine.memberShape?_eq hd hd' hkind hname fun q hq => by
    obtain ⟨declq, declq', hdq, hdq', -, hkindq⟩ :=
      hpictured.exists_retype_eq he hdrawn hlegal hportrait (hparams q hq)
    exact shapeParam?_eq hdq hdq' hkindq
  rw [signatureWith?_shapeParam?] at hsame
  obtain ⟨text, htext⟩ := he.exists_memberShape? (s := key.subst)
    (he.settled.key hdrawn.keyOf_root).handles hd fun q hq =>
      Nat.lt_of_lt_of_le (hdrawn.lt_of_mem (hparams q hq)) he.rooted.underlies.decls_le
  exact ⟨text, hsame.trans htext, htext⟩

end Drawings

/-- An instance that was made in its own right has the shape that it ought to have. -/
theorem Pictured.shape_eq (hp : w.package.WellFormed) (hplain : w.package.PlainParams)
    (he : e.Orderly w) (hpictured : Pictured w e) {d : DeclId} {key : InstanceKey}
    (hk : e.registry.keyOf? d = some key) (hleads : w.package.Leads key.template)
    (hlegal : ∀ v ∈ key.subst.values, w.Legal v) :
    ∃ text, e.shape? d = some text ∧ e.expectedShape? key = some text := by
  obtain ⟨tree, table, hdrawn, rfl, hportrait⟩ := hpictured.portrait hk hleads
  obtain ⟨decl, name, hd, hmangled, hname⟩ := hpictured.named hk hleads
  obtain ⟨decl₀, _, hd₀, hd', hdraw⟩ := hdrawn.decl key.template hdrawn.mem_root
  obtain rfl := Option.some.inj (hd.symm.trans hd')
  obtain ⟨template, htemplate, ho⟩ := he.rooted.underlies.decl hd₀
  -- The members without type parameters of their own are part of the drawing.
  let kept := decl₀.kind.members.filter fun m => !w.package.declaresParams m
  have hmem : ∀ c ∈ kept, c ∈ tree.decls := by
    intro c hc
    obtain ⟨hc, hkeep⟩ := List.mem_filter.1 hc
    obtain ⟨children, hch, -⟩ := hp.children (Package.lt_of_decl? hd₀)
    exact (hdrawn.mem_decls_iff hp.toForest hdrawn.mem_root hch
      (Package.mem_children_of_mem_members hd₀ hch hc)).2 (by simpa using hkeep)
  have hmembers : decl.kind.members = kept.map table.decl := by
    rw [DeclKind.members_eq_of_skeleton hdraw.skeleton, DeclKind.members_carry]
  have hfilter : e.package.filterDecls? (!·.hasTypeParams) template.kind.members = some kept := by
    rw [DeclKind.members_eq_of_skeleton (Decl.skeleton_eq_of_outline ho)]
    refine Package.filterDecls?_eq_filter fun c hc => ?_
    obtain ⟨children, hch, -, hall⟩ := hp.children (Package.lt_of_decl? hd₀)
    obtain ⟨declc₀, hc₀, -⟩ := hall c (Package.mem_children_of_mem_members hd₀ hch hc)
    obtain ⟨declc, hdc, hoc⟩ := he.rooted.underlies.decl hc₀
    refine ⟨declc, hdc, congrArg Bool.not ?_⟩
    rw [Package.declaresParams_of_decl? hc₀, Decl.hasTypeParams, Decl.hasTypeParams,
      Decl.typeParams_eq_of_outline hoc]
  have hshapes : ∀ c ∈ kept, ∃ text, e.memberShape? {} (table.decl c) = some text ∧
      e.memberShape? key.subst c = some text := fun c hc =>
    hpictured.memberShape?_eq hp he hdrawn hlegal hportrait hplain (hmem c hc)
  obtain ⟨texts, htexts⟩ := exists_mapM_eq_some (l := kept) fun c hc =>
    (hshapes c hc).imp fun _ h => h.2
  have htexts' : decl.kind.members.mapM (e.memberShape? {}) = some texts := by
    rw [hmembers, List.mapM_map, ← htexts]
    refine mapM_congr_of_mem fun c hc => ?_
    obtain ⟨text, htext, htext'⟩ := hshapes c hc
    exact htext.trans htext'.symm
  refine ⟨"; ".intercalate (name :: texts), ?_, ?_⟩
  · simp only [shape?, hd, htexts', Decl.displayName, hmangled, Option.bind_eq_bind, Option.bind_some,
      Option.getD_some, Option.pure_def]
  · simp only [expectedShape?, hname, htemplate, hfilter, htexts, Option.bind_eq_bind,
      Option.bind_some, Option.pure_def]

/-- In a package as the checker leaves it, an instance has the shape that it ought to have, in every state
that requests lead to. So a template that has not changed passes for unchanged. -/
theorem shape_eq_expectedShape {p : Package} (hp : p.WellFormed) (hplain : p.PlainParams)
    (config : Config) (access : AccessRule) {ops : List Operation} (hops : ∀ op ∈ ops, op.IsRequest)
    (he : e = (start p config access .reserved).afterAll ops) {d : DeclId} {key : InstanceKey}
    (hk : e.registry.keyOf? d = some key) (hleads : p.Leads key.template)
    (hlegal : ∀ v ∈ key.subst.values, v.Applies fun d n => n ≠ 0 → p.TopType d) :
    ∃ text, e.shape? d = some text ∧ e.expectedShape? key = some text := by
  have hw := hp.tidy false
  have hstart := orderly_start hw config access
  have hevolves : Evolves ⟨p, false⟩ .full _ e := he ▸ evolves_afterAll hw hstart fun op hop =>
    Operation.serves_run hw (hops op hop) fun t _ => Setting.applies_names ⟨p, false⟩ rfl t
  exact (hevolves.pictured (w := ⟨p, false⟩) hp hstart (pictured_start hp config access)).shape_eq hp
    hplain (hevolves.orderly hw hstart) hk hleads hlegal

/-! ### Types inside of a template -/

/-- A package with a class `Box<T>` that has a class `Inner` inside of it and a field of this type. -/
def boxInnerPackage : Package where
  name := "demo"
  decls := #[
    { name := "Box", kind := .type .classKind [] [⟨1⟩, ⟨2⟩], package := "demo",
      typeParams := [{ id := ⟨⟨0⟩, 0⟩, name := "T" }] },
    { name := "Inner", kind := .type .classKind [] [], package := "demo", parent := some ⟨0⟩ },
    { name := "x", kind := .var .field (.named ⟨1⟩ []) none, package := "demo", parent := some ⟨0⟩ }]
  topLevel := [⟨0⟩]

/-- The field of `Box<Int64>` has the class inside of `Box<Int64>` as its type, and the template calls for
a field of the class inside of `Box`. An instance that has just been made passes for changed. -/
theorem shape_of_box_inner :
    let key : InstanceKey := ⟨⟨0⟩, .ofList [(⟨⟨0⟩, 0⟩, .prim .int64)]⟩
    let e := (start boxInnerPackage {} .visible .reserved).afterAll [.instantiate key.template key.subst]
    e.registry.keyOf? ⟨3⟩ = some key ∧
      e.shape? ⟨3⟩ = some "Box<Int64>; type Inner; var x: Box<Int64>::Inner" ∧
      e.expectedShape? key = some "Box<Int64>; type Inner; var x: Inner" := by
  decide +kernel

end Engine

end Monomorph
