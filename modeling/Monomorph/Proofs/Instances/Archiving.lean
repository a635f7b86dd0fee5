import Monomorph.Proofs.Instances.Substitution
import Monomorph.Proofs.Registry.Decoding
import Monomorph.Proofs.Registry.Encoding

/-!
# What archives mention

An entry of an archive is the subtree of an instance with the arguments of the instance. The table of
symbols has one symbol for each declaration that is mentioned outside of its own subtree, and the symbol
of an instance mentions earlier symbols only. So the symbols of an archive can be read one after the
other, and all handles in an entry are positions in it or symbols.

The arguments of an entry are to be read before the entry has any declarations, so they have to consist
of symbols. This is the case if they mention nothing in the subtree of the instance. The subtree can
contain a nested template of the package, though, and an argument can mention the same template.

## Main definitions

* `Engine.Archives`: an instance and its entry.
* `ArchivedInstance.Closed`: the handles of an entry stand for something.

## Main results

* `Engine.archive_founded`: what archives mention, in any state.
* `Engine.Archives.isSymbol_of_young`: when the arguments of an entry consist of symbols.
* `Engine.symbols_founded`: in a state that operations lead to, arguments of arguments come to an end.
* `Engine.argument_in_subtree`: an entry with a position among its arguments.
-/

namespace Monomorph

open Engine (positions)

/-! ### Positions -/

section Positions

variable {α : Type} [DecidableEq α] {xs : List α} {x : α}

theorem lt_of_get?_positions {i : Nat} (h : (positions xs).get? x = some i) : i < xs.length := by
  have hmem := (Assoc.mem_of_get?_foldl_insert h).resolve_right nofun
  exact (List.getElem?_eq_some_iff.1 (List.mem_zipIdx_iff_getElem?.1 hmem)).1

theorem get?_positions_eq_none_iff : (positions xs).get? x = none ↔ x ∉ xs := by
  have hlookup : (positions xs).get? x = (Assoc.lookup x xs.zipIdx.reverse).or none :=
    Assoc.get?_foldl_insert _ _ _
  rw [hlookup, Option.or_none, Assoc.lookup_eq_none_iff, List.map_reverse, List.mem_reverse,
    List.zipIdx_map_fst]

end Positions

/-- Writes the handles of the nodes of a subtree. -/
def SymbolTable.treeWriter (t : SymbolTable) (n : Nat) (tree : Package.Subtree) : Relabeling Option :=
  t.writer n (positions tree.decls) (positions tree.exprs)

/-! ### Entries -/

namespace Engine

/-- The entry of an instance is its subtree and its arguments, written as the table says. -/
structure Archives (e : Engine) (t : SymbolTable) (n : Nat) (root : DeclId) (key : InstanceKey)
    (tree : Package.Subtree) (entry : ArchivedInstance) : Prop where
  keyOf : e.registry.keyOf? root = some key
  fullSubtree : e.package.fullSubtree? root = some tree
  template : e.package.stablePath? key.template = some entry.template
  subst : key.subst.relabel (t.treeWriter n tree) = some entry.subst
  mangled : e.package.displayName? root = some entry.mangled
  decls : tree.decls.mapM (fun d => (e.package.decl? d).bind (·.relabel (t.treeWriter n tree))) =
    some entry.decls
  exprs : tree.exprs.mapM (fun x => (e.package.expr? x).bind (·.relabel (t.treeWriter n tree))) =
    some entry.exprs
  lazyMembers : (e.lazyMembersOf root).mapM e.package.stablePath? = some entry.lazyMembers
  shape : e.shape? root = some entry.shape

variable {e : Engine} {root : DeclId} {key : InstanceKey}

theorem writes_persistInstance (hk : e.registry.keyOf? root = some key) :
    Encoding.Writes e (fun _ => True) (e.persistInstance root key)
      fun t n entry => ∃ tree, e.Archives t n root key tree entry := by
  refine .lift_bind fun tree htree => ?_
  have hwithin : e.package.treeWithin root (fun _ => false) e.package.decls.size root = some tree :=
    (Package.fullSubtree?_eq _ _).symm.trans htree
  have hpositions : ∀ x ∈ tree.exprs, (positions tree.exprs).get? x ≠ none :=
    fun x hx hnone => get?_positions_eq_none_iff.1 hnone hx
  have hr := records_subtreeEncoder (e := e) (positions tree.decls) (positions tree.exprs)
  have hdecl : ∀ d ∈ tree.decls, Encoding.Writes e (fun _ => True)
      (do (← e.package.decl? d).relabel (e.subtreeEncoder (positions tree.decls) (positions tree.exprs)))
      fun t n b => (e.package.decl? d).bind (·.relabel (t.treeWriter n tree)) = some b := by
    refine fun d hd => .lift_bind fun decl hdecl => ?_
    rw [hdecl]
    exact Decl.writes_relabel hr
      ((Package.lists_of_mem_decls hwithin hd hdecl).mono (fun _ h => h) hpositions)
  have hexpr : ∀ x ∈ tree.exprs, Encoding.Writes e (fun _ => True)
      (do (← e.package.expr? x).relabel (e.subtreeEncoder (positions tree.decls) (positions tree.exprs)))
      fun t n b => (e.package.expr? x).bind (·.relabel (t.treeWriter n tree)) = some b := by
    refine fun x hx => .lift_bind fun expr hexpr => ?_
    rw [hexpr]
    exact Expr.writes_relabel hr
      ((Package.lists_of_mem_exprs hwithin hx hexpr).mono (fun _ h => h) hpositions)
  have hpath : ∀ m ∈ e.lazyMembersOf root, Encoding.Writes e (fun _ => True)
      (liftM (e.package.stablePath? m)) fun _ _ path => e.package.stablePath? m = some path :=
    fun m _ => .lift fun path hpath _ _ => hpath
  refine .bind (.list hdecl) fun decls => .bind (.list hexpr) fun exprs =>
    .bind (Subst.writes_relabel hr fun _ _ => trivial) fun s => ?_
  refine .lift_bind fun template htemplate => .lift_bind fun mangled hmangled =>
    .bind (.list hpath) fun members => .lift_bind fun shape hshape =>
      .pure fun t n hmembers hs hexprs hdecls => ⟨tree, ?_⟩
  exact ⟨hk, htree, htemplate, hs, hmangled, hdecls, hexprs, hmembers, hshape⟩

theorem writes_persistInstances (roots : List DeclId) :
    Encoding.Writes e (fun _ => True) (e.persistInstances roots)
      fun t n entries => ∀ entry ∈ entries, ∃ root key tree, e.Archives t n root key tree entry := by
  induction roots with
  | nil => exact .pure fun _ _ => nofun
  | cons root rest ih =>
    unfold persistInstances
    split
    · exact ih
    · rename_i key hk
      refine .lift_bind fun decl _ => ?_
      split
      · exact ih
      · refine .bind (writes_persistInstance hk) fun entry => .bind ih fun entries =>
          .pure fun t n hentries hentry => ?_
        exact List.forall_mem_cons.2 ⟨⟨root, key, hentry⟩, hentries⟩

/-- Archives are written as a sound table says that contains all their symbols. -/
theorem archives_of_persist? {archive : Archive} (h : e.persist? = some archive) :
    ∃ t : SymbolTable, t.Sound e ∧ t.symbols = archive.symbols ∧
      ∀ entry ∈ archive.instances, ∃ root key tree, e.Archives t t.symbols.length root key tree entry := by
  obtain ⟨⟨entries, t⟩, hrun, h⟩ := Option.bind_eq_some_iff.1 h
  obtain rfl := Option.some.inj h
  obtain ⟨hgrows, hentries⟩ := writes_persistInstances _ (SymbolTable.sound_empty e) hrun
  exact ⟨t, hgrows.sound, rfl, hentries t _ (.refl t) le_rfl⟩

end Engine

/-! ### Handles in an archive -/

/-- The handle is one of the first `n` symbols. -/
def Archive.IsSymbol (n : Nat) (d : DeclId) : Prop := ∃ i < n, d = Archive.symbol i

instance (n : Nat) (d : DeclId) : Decidable (Archive.IsSymbol n d) :=
  inferInstanceAs (Decidable (∃ i < n, d = Archive.symbol i))

/-- Accepts the positions in an entry of `n` declarations and `m` expressions, and the first `k`
symbols. -/
def Relabeling.archived (n m k : Nat) : Relabeling Option :=
  .writing (fun d => if d.index < n ∨ Archive.IsSymbol k d then some d else none)
    fun x => if x.index < m then some x else none

/-- All handles in the entry are positions in it or one of the first `k` symbols. -/
structure ArchivedInstance.Closed (k : Nat) (entry : ArchivedInstance) : Prop where
  decl : ∀ d ∈ entry.decls,
    d.relabel (.archived entry.decls.length entry.exprs.length k) = some d
  expr : ∀ x ∈ entry.exprs,
    x.relabel (.archived entry.decls.length entry.exprs.length k) = some x
  subst : ∀ c ∈ entry.subst.refs, c.index < entry.decls.length ∨ Archive.IsSymbol k c

theorem Relabeling.leads_writing {f f' : DeclId → Option DeclId} {g g' : ExprId → Option ExprId}
    (hf : ∀ {a b}, f a = some b → f' b = some b) (hg : ∀ {a b}, g a = some b → g' b = some b) :
    (writing f g).Leads
      (.uniform (fun d => (f d).getD d) (fun x => (g x).getD x)
        fun q => { q with owner := (f q.owner).getD q.owner })
      (writing f' g') where
  decl d b hd := ⟨congrArg (Option.getD · d) hd, hf hd⟩
  expr x y hx := ⟨congrArg (Option.getD · x) hx, hg hx⟩
  param q q' hq := by
    obtain ⟨owner, howner, rfl⟩ := Option.map_eq_some_iff.1 hq
    refine ⟨?_, ?_⟩
    · change ParamId.mk ((f q.owner).getD q.owner) q.index = _
      rw [howner]
      rfl
    · change (f' owner).map _ = _
      rw [hf howner]
      rfl
  reference d b hd := ⟨congrArg (Option.getD · d) hd, hf hd⟩

theorem length_eq_of_mapM_eq_some {α β : Type} {f : α → Option β} {l : List α} {l' : List β}
    (h : l.mapM f = some l') : l'.length = l.length := by
  induction l generalizing l' with
  | nil =>
    obtain rfl := Option.some.inj h
    rfl
  | cons a l ih =>
    rw [List.mapM_cons] at h
    obtain ⟨b, -, h⟩ := Option.bind_eq_some_iff.1 h
    obtain ⟨rest, hrest, h⟩ := Option.bind_eq_some_iff.1 h
    obtain rfl := Option.some.inj h
    rw [List.length_cons, List.length_cons, ih hrest]

namespace SymbolTable

variable {e : Engine} {t : SymbolTable} {n : Nat} {tree : Package.Subtree} {d b : DeclId}

theorem isSymbol_of_symbolBelow? (h : t.symbolBelow? n d = some b) : Archive.IsSymbol n b := by
  obtain ⟨i, hi, -, rfl⟩ := symbolBelow?_eq_some_iff.1 h
  exact ⟨i, hi, rfl⟩

/-- A declaration outside of the subtree is written as a symbol. -/
theorem isSymbol_of_treeWriter (h : (t.treeWriter n tree).decl d = some b) (hd : d ∉ tree.decls) :
    Archive.IsSymbol n b := by
  change t.decl? n (positions tree.decls) d = some b at h
  rw [decl?, get?_positions_eq_none_iff.2 hd] at h
  exact isSymbol_of_symbolBelow? h

theorem leads_treeWriter (t : SymbolTable) (n : Nat) (tree : Package.Subtree) :
    ∃ s, (t.treeWriter n tree).Leads s (.archived tree.decls.length tree.exprs.length n) := by
  refine ⟨_, Relabeling.leads_writing (fun {d b} h => if_pos ?_) fun {x y} h => if_pos ?_⟩
  · by_cases hd : d ∈ tree.decls
    · obtain ⟨i, hi⟩ := Option.ne_none_iff_exists'.1 fun hnone => get?_positions_eq_none_iff.1 hnone hd
      rw [decl?, hi] at h
      obtain rfl := Option.some.inj h
      exact .inl (lt_of_get?_positions hi)
    · exact .inr (isSymbol_of_treeWriter h hd)
  · obtain ⟨i, hi, rfl⟩ := Option.map_eq_some_iff.1 h
    exact lt_of_get?_positions hi

/-- The substitution of a symbol mentions earlier symbols only. -/
theorem Sound.isSymbol_of_mem_refs (h : t.Sound e) {i : Nat} {path : String} {s : Subst}
    (hi : t.symbols[i]? = some (.instanceOf path s)) : ∀ c ∈ s.refs, Archive.IsSymbol i c := by
  intro b hb
  obtain ⟨d, -, key, -, -, hs⟩ := h.symbolizes hi
  obtain ⟨c, -, hc⟩ := Subst.exists_of_mem_refs_written hs hb
  exact isSymbol_of_symbolBelow? hc

end SymbolTable

namespace Engine

variable {e : Engine} {t : SymbolTable} {n : Nat} {root : DeclId} {key : InstanceKey}
  {tree : Package.Subtree} {entry : ArchivedInstance}

/-- Entries are closed. -/
theorem Archives.closed (h : e.Archives t n root key tree entry) : entry.Closed n := by
  obtain ⟨s, hleads⟩ := t.leads_treeWriter n tree
  have hdecls := length_eq_of_mapM_eq_some h.decls
  have hexprs := length_eq_of_mapM_eq_some h.exprs
  rw [← hdecls, ← hexprs] at hleads
  refine ⟨fun d hd => ?_, fun x hx => ?_, fun b hb => ?_⟩
  · obtain ⟨c, -, hc⟩ := mem_of_mapM_eq_some h.decls hd
    obtain ⟨decl, -, hdecl⟩ := Option.bind_eq_some_iff.1 hc
    exact (Decl.lands_relabel hleads hdecl).2
  · obtain ⟨y, -, hy⟩ := mem_of_mapM_eq_some h.exprs hx
    obtain ⟨expr, -, hexpr⟩ := Option.bind_eq_some_iff.1 hy
    exact (Expr.lands_relabel hleads hexpr).2
  · obtain ⟨c, -, hc⟩ := Subst.exists_of_mem_refs_written h.subst hb
    by_contra hnot
    have hacc := (hleads.decl hc).2
    change (if _ then some b else none) = some b at hacc
    rw [if_neg hnot] at hacc
    cases hacc

/-- The substitution of an entry mentions symbols only, if the arguments of the instance mention nothing
in its subtree. -/
theorem Archives.isSymbol_of_mem_refs (h : e.Archives t n root key tree entry)
    (hout : ∀ c ∈ key.subst.refs, c ∉ tree.decls) : ∀ c ∈ entry.subst.refs, Archive.IsSymbol n c := by
  intro b hb
  obtain ⟨c, hc, hcb⟩ := Subst.exists_of_mem_refs_written h.subst hb
  exact SymbolTable.isSymbol_of_treeWriter hcb (hout c hc)

/-- So it is if the subtree consists of what was made with the instance, and the type parameters in the
arguments belong to older templates. -/
theorem Archives.isSymbol_of_young (h : e.Archives t n root key tree entry) (he : e.Ordered)
    (hyoung : ∀ c ∈ tree.decls, root.index ≤ c.index)
    (howners : ∀ x ∈ key.subst.entries, ∀ q ∈ x.1 :: x.2.params, q.owner.index < root.index) :
    ∀ c ∈ entry.subst.refs, Archive.IsSymbol n c := by
  refine h.isSymbol_of_mem_refs fun c hc hmem => Nat.not_lt.2 (hyoung c hmem) ?_
  exact he.forall_mem_refs h.keyOf (fun _ => id) howners c hc

/-- The symbols of an archive correspond to the declarations that have one, and a symbol mentions earlier
symbols only. Entries mention their own nodes and symbols, and their arguments mention symbols only, unless
something that these mention is in the subtree of the instance. -/
theorem archive_founded {archive : Archive} (h : e.persist? = some archive) :
    ∃ t : SymbolTable, t.Sound e ∧ t.symbols = archive.symbols ∧
      (∀ i path s, archive.symbols[i]? = some (.instanceOf path s) →
        ∀ c ∈ s.refs, Archive.IsSymbol i c) ∧
      ∀ entry ∈ archive.instances, entry.Closed archive.symbols.length ∧
        ∃ root key tree, e.Archives t archive.symbols.length root key tree entry ∧
          ((∀ c ∈ key.subst.refs, c ∉ tree.decls) →
            ∀ c ∈ entry.subst.refs, Archive.IsSymbol archive.symbols.length c) := by
  obtain ⟨t, hsound, hsymbols, hentries⟩ := archives_of_persist? h
  rw [← hsymbols]
  refine ⟨t, hsound, rfl, fun i path s => hsound.isSymbol_of_mem_refs, fun entry hentry => ?_⟩
  obtain ⟨root, key, tree, harchives⟩ := hentries entry hentry
  exact ⟨harchives.closed, root, key, tree, harchives, harchives.isSymbol_of_mem_refs⟩

/-- In every state that operations lead to, symbols are given out by a recursion over the arguments of
instances, as long as type parameters belong to templates there; and every declaration gets its symbol, if
all of them have paths. -/
theorem symbols_founded (p : Package) (config : Config) (access : AccessRule)
    (placement : RootPlacement) (ops : List Operation) :
    let e := (start p config access placement).afterAll ops
    (∀ {d key}, e.registry.keyOf? d = some key → ∀ x ∈ key.subst.entries, ∀ q ∈ x.1 :: x.2.params,
      q.owner.index < e.package.decls.size ∧ e.registry.keyOf? q.owner = none) →
    (∀ d (t : SymbolTable), e.encodeSymbol d t =
      match t.index.get? d with
      | some i => some (Archive.symbol i, t)
      | none => (e.symbolRef e.encodeSymbol d t).map
        fun x => (Archive.symbol x.2.symbols.length, x.2.add d x.1)) ∧
      ((∀ d, d.index < e.package.decls.size → e.package.stablePath? d ≠ none) →
        ∀ d, d.index < e.package.decls.size → Encoding.Total (e.encodeSymbol d)) := by
  intro e hparams
  have he : e.Ordered := ordered_afterAll p config access placement ops
  have hdescends : e.Descends :=
    he.descends fun hk x hx q hq => (hparams hk x hx q hq).2
  refine ⟨hdescends.encodeSymbol_eq, fun hpath d hd => ?_⟩
  refine hdescends.total_encodeSymbol (S := fun c => c.index < e.package.decls.size) ?_ ?_ hd
  · rintro c d ⟨key, hk, hc⟩ hd
    exact he.forall_mem_refs hk (fun _ hlt => Nat.lt_trans hlt hd)
      (fun x hx q hq => (hparams hk x hx q hq).1) c hc
  · intro d hd
    refine hpath _ ?_
    unfold templateOf
    split
    · rename_i key hk
      exact Nat.lt_trans (he.key hk).template_lt hd
    · exact hd

/-- A package with a function `f<T>` that has a local variable `v` with a type parameter `U`. -/
def genericLocalPackage : Package where
  name := "demo"
  decls := #[
    { name := "f", kind := .func [] .unit (some ⟨0⟩), package := "demo",
      typeParams := [{ id := ⟨⟨0⟩, 0⟩, name := "T" }] },
    { name := "v", kind := .var .local (.param ⟨⟨1⟩, 0⟩) none, package := "demo",
      parent := some ⟨0⟩, typeParams := [{ id := ⟨⟨1⟩, 0⟩, name := "U" }] }]
  exprs := #[{ kind := .letVar ⟨1⟩, ty := .unit }]
  topLevel := [⟨0⟩]

/-- The package is well-formed, and the instance `f<U>` is archived with the position of `v` as the owner
of its argument, because the code of the instance still declares the `v` of the package. The next build
does not take over the entry. -/
theorem argument_in_subtree :
    let s : Subst := .ofList [(⟨⟨0⟩, 0⟩, .param ⟨⟨1⟩, 0⟩)]
    let e := start genericLocalPackage {} .visible .reserved
    genericLocalPackage.WellFormed ∧
      (e.afterAll [.instantiate ⟨0⟩ s]).persist?.map (fun archive =>
        (archive.instances.map (·.subst), archive.symbols,
          (e.afterAll [.restore ["demo::f"] archive]).registry.roots)) =
      some ([.ofList [(⟨Archive.symbol 0, 0⟩, .param ⟨⟨1⟩, 0⟩)]], [.plain "demo::f"], []) := by
  decide +kernel

end Engine

end Monomorph
