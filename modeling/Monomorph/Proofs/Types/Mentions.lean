import Monomorph.Proofs.Package.Subtrees
import Monomorph.Proofs.Types.Concrete
import Monomorph.Proofs.Types.Substitutions

/-!
# Declarations that types mention

A type mentions the declarations of named types and the owners of type parameters, and a substitution
mentions the owners of the parameters that it maps as well. What happens to a type that is carried
elsewhere depends on these only, and the result mentions what they are carried to.

## Main definitions

* `Ty.refs`, `Subst.refs`: the declarations that a type or a substitution mentions.
* `Relabeling.writing`: writes declarations and the owners of type parameters alike.

## Main results

* `Subst.relabel_congr`: only what is mentioned matters.
* `Subst.exists_of_mem_refs`, `Subst.exists_of_mem_refs_written`: what a substitution mentions before it
  is written and afterwards.
-/

namespace Monomorph

/-! ### Declarations that are mentioned -/

mutual

/-- The declarations that a type mentions: those of named types and the owners of type parameters. -/
def Ty.refs : Ty → List DeclId
  | .named d args => d :: Ty.refsAll args
  | .param q => [q.owner]
  | .tuple items => Ty.refsAll items
  | .func params ret => Ty.refsAll params ++ ret.refs
  | .prim _ | .invalid => []

/-- The declarations that several types mention. -/
def Ty.refsAll : List Ty → List DeclId
  | [] => []
  | t :: ts => t.refs ++ Ty.refsAll ts

end

/-- The declarations that a substitution mentions, on either side. -/
def Subst.refs (s : Subst) : List DeclId := s.entries.flatMap fun x => x.1.owner :: x.2.refs

mutual

/-- A type mentions its named types and the owners of its parameters. -/
theorem Ty.forall_mem_refs {P : DeclId → Prop} : ∀ {t : Ty} {seen : List ParamId}, t.Handles P →
    (∀ q ∈ t.collectParams seen, P q.owner) → ∀ c ∈ t.refs, P c
  | .prim _, _, _, _ | .invalid, _, _, _ => nofun
  | .param q, seen, _, hq => by
    rw [Ty.refs, List.forall_mem_singleton]
    refine hq q ?_
    rw [collectParams]
    split
    · assumption
    · exact List.mem_append_right _ (List.mem_singleton_self q)
  | .tuple _, _, ht, hq => Ty.forall_mem_refsAll ht hq
  | .func params ret, seen, ht, hq => by
    rw [Ty.refs, List.forall_mem_append]
    exact ⟨Ty.forall_mem_refsAll ht.1 fun q hmem => hq q (subset_collectParams ret _ hmem),
      Ty.forall_mem_refs ht.2 hq⟩
  | .named _ _, _, ht, hq => by
    rw [Ty.refs, List.forall_mem_cons]
    exact ⟨ht.1, Ty.forall_mem_refsAll ht.2 hq⟩

theorem Ty.forall_mem_refsAll {P : DeclId → Prop} : ∀ {ts : List Ty} {seen : List ParamId},
    Ty.AllHandles P ts → (∀ q ∈ Ty.collectParamsAll ts seen, P q.owner) → ∀ c ∈ Ty.refsAll ts, P c
  | [], _, _, _ => nofun
  | t :: ts, seen, ht, hq => by
    rw [Ty.refsAll, List.forall_mem_append]
    exact ⟨Ty.forall_mem_refs ht.1 fun q hmem => hq q (subset_collectParamsAll ts _ hmem),
      Ty.forall_mem_refsAll ht.2 hq⟩

end

/-! ### Carrying types along -/

section Agrees

variable {m : Type → Type} [Monad m] {r r' : Relabeling m}

/-- Types that mention the declaration are treated alike. -/
def Relabeling.Agrees (r r' : Relabeling m) (c : DeclId) : Prop :=
  r.reference c = r'.reference c ∧ ∀ i, r.param ⟨c, i⟩ = r'.param ⟨c, i⟩

mutual

theorem Ty.relabel_congr : ∀ {t : Ty}, (∀ c ∈ t.refs, r.Agrees r' c) → t.relabel r = t.relabel r'
  | .prim _, _ | .invalid, _ => rfl
  | .param q, h => by rw [relabel, relabel, (h _ List.mem_cons_self).2 q.index]
  | .tuple items, h => by rw [relabel, relabel, Ty.relabelAll_congr h]
  | .func params ret, h => by
    rw [Ty.refs, List.forall_mem_append] at h
    rw [relabel, relabel, Ty.relabelAll_congr h.1, Ty.relabel_congr h.2]
  | .named d args, h => by
    rw [Ty.refs, List.forall_mem_cons] at h
    rw [relabel, relabel, h.1.1, Ty.relabelAll_congr h.2]

theorem Ty.relabelAll_congr : ∀ {ts : List Ty}, (∀ c ∈ Ty.refsAll ts, r.Agrees r' c) →
    Ty.relabelAll r ts = Ty.relabelAll r' ts
  | [], _ => rfl
  | t :: ts, h => by
    rw [Ty.refsAll, List.forall_mem_append] at h
    rw [relabelAll, relabelAll, Ty.relabel_congr h.1, Ty.relabelAll_congr h.2]

end

theorem Subst.relabel_congr [LawfulMonad m] {s : Subst} (h : ∀ c ∈ s.refs, r.Agrees r' c) :
    s.relabel r = s.relabel r' := by
  have hentries : ∀ l : List (ParamId × Ty), (∀ x ∈ l, ∀ c ∈ x.1.owner :: x.2.refs, r.Agrees r' c) →
      l.mapM (relabelEntry r) = l.mapM (relabelEntry r') := by
    intro l hl
    induction l with
    | nil => rfl
    | cons x l ih =>
      rw [List.forall_mem_cons, List.forall_mem_cons] at hl
      have hentry : relabelEntry r x = relabelEntry r' x := by
        rw [relabelEntry, relabelEntry, Ty.relabel_congr hl.1.2, hl.1.1.2 x.1.index]
      rw [List.mapM_cons, List.mapM_cons, hentry, ih hl.2]
  rw [relabel, relabel, hentries _ fun x hx c hc => h c (List.mem_flatMap.2 ⟨x, hx, hc⟩)]

end Agrees

/-- Writes declarations and the owners of type parameters by `f`, and expressions by `g`. -/
def Relabeling.writing (f : DeclId → Option DeclId) (g : ExprId → Option ExprId) :
    Relabeling Option :=
  .uniform f g fun q => (f q.owner).map fun owner => { q with owner := owner }

section Writing

variable {f f' : DeclId → Option DeclId} {g g' : ExprId → Option ExprId}

mutual

/-- A written type mentions what its declarations are written as. -/
theorem Ty.refs_of_relabel : ∀ {t t' : Ty}, t.relabel (.writing f g) = some t' →
    t.refs.mapM f = some t'.refs
  | .prim _, t', h | .invalid, t', h => by
    obtain rfl := Option.some.inj h
    rfl
  | .param q, t', h => by
    obtain ⟨q', hq, h⟩ := Option.bind_eq_some_iff.1 h
    obtain rfl := Option.some.inj h
    obtain ⟨owner, howner, rfl⟩ := Option.map_eq_some_iff.1 hq
    rw [Ty.refs, List.mapM_cons, howner]
    rfl
  | .tuple items, t', h => by
    obtain ⟨items', hitems, h⟩ := Option.bind_eq_some_iff.1 h
    obtain rfl := Option.some.inj h
    exact Ty.refsAll_of_relabelAll hitems
  | .func params ret, t', h => by
    obtain ⟨params', hparams, h⟩ := Option.bind_eq_some_iff.1 h
    obtain ⟨ret', hret, h⟩ := Option.bind_eq_some_iff.1 h
    obtain rfl := Option.some.inj h
    rw [Ty.refs, List.mapM_append, Ty.refsAll_of_relabelAll hparams, Ty.refs_of_relabel hret]
    rfl
  | .named d args, t', h => by
    obtain ⟨d', hd, h⟩ := Option.bind_eq_some_iff.1 h
    obtain ⟨args', hargs, h⟩ := Option.bind_eq_some_iff.1 h
    obtain rfl := Option.some.inj h
    rw [Ty.refs, List.mapM_cons, Ty.refsAll_of_relabelAll hargs]
    change (f d).bind _ = _
    rw [show f d = some d' from hd]
    rfl

theorem Ty.refsAll_of_relabelAll : ∀ {ts ts' : List Ty}, Ty.relabelAll (.writing f g) ts = some ts' →
    (Ty.refsAll ts).mapM f = some (Ty.refsAll ts')
  | [], ts', h => by
    obtain rfl := Option.some.inj h
    rfl
  | _ :: _, ts', h => by
    obtain ⟨t', ht, h⟩ := Option.bind_eq_some_iff.1 h
    obtain ⟨rest', hrest, h⟩ := Option.bind_eq_some_iff.1 h
    obtain rfl := Option.some.inj h
    rw [Ty.refsAll, List.mapM_append, Ty.refs_of_relabel ht, Ty.refsAll_of_relabelAll hrest]
    rfl

end

namespace Subst

variable {s s' : Subst}

theorem refs_of_relabelEntry {x y : ParamId × Ty} (h : relabelEntry (.writing f g) x = some y) :
    (x.1.owner :: x.2.refs).mapM f = some (y.1.owner :: y.2.refs) := by
  obtain ⟨t, ht, h⟩ := Option.bind_eq_some_iff.1 h
  obtain ⟨q, hq, h⟩ := Option.bind_eq_some_iff.1 h
  obtain rfl := Option.some.inj h
  obtain ⟨owner, howner, rfl⟩ := Option.map_eq_some_iff.1 hq
  rw [List.mapM_cons, howner, Ty.refs_of_relabel ht]
  rfl

/-- All declarations that a written substitution had mentioned were written. -/
theorem exists_of_mem_refs (h : s.relabel (.writing f g) = some s') {c : DeclId} (hc : c ∈ s.refs) :
    ∃ b, f c = some b := by
  obtain ⟨pairs, hpairs, -⟩ := Option.bind_eq_some_iff.1 h
  obtain ⟨x, hx, hc⟩ := List.mem_flatMap.1 hc
  obtain ⟨y, hy, -⟩ := exists_mem_of_mapM_eq_some hpairs hx
  obtain ⟨b, hb, -⟩ := exists_mem_of_mapM_eq_some (refs_of_relabelEntry hy) hc
  exact ⟨b, hb⟩

/-- A written substitution mentions what declarations were written as. -/
theorem exists_of_mem_refs_written (h : s.relabel (.writing f g) = some s') {b : DeclId}
    (hb : b ∈ s'.refs) : ∃ c ∈ s.refs, f c = some b := by
  obtain ⟨pairs, hpairs, h⟩ := Option.bind_eq_some_iff.1 h
  obtain rfl := Option.some.inj h
  obtain ⟨⟨q, t⟩, hy, hb⟩ := List.mem_flatMap.1 hb
  have hmem : (q, t) ∈ pairs := by
    rw [← get?_eq_some_iff, get?_ofList] at hy
    exact List.mem_reverse.1 (Assoc.mem_of_lookup hy)
  obtain ⟨x, hx, hxy⟩ := mem_of_mapM_eq_some hpairs hmem
  obtain ⟨c, hc, hcb⟩ := mem_of_mapM_eq_some (refs_of_relabelEntry hxy) hb
  exact ⟨c, List.mem_flatMap.2 ⟨x, hx, hc⟩, hcb⟩

/-- Whoever writes more declarations writes a substitution in the same way. -/
theorem relabel_writing_mono (h : s.relabel (.writing f g) = some s')
    (hf : ∀ {c b}, f c = some b → f' c = some b) : s.relabel (.writing f' g') = some s' := by
  rw [← h]
  refine relabel_congr fun c hc => ?_
  obtain ⟨b, hb⟩ := exists_of_mem_refs h hc
  have heq : f' c = f c := (hf hb).trans hb.symm
  refine ⟨heq, fun i => ?_⟩
  change (f' c).map _ = (f c).map _
  rw [heq]

end Subst

end Writing

end Monomorph
