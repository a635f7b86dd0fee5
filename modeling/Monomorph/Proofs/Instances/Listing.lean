import Monomorph.Proofs.Instances.Attachments
import Monomorph.Proofs.Instances.Portraits
import Monomorph.Proofs.Instances.Vouching

/-!
# The interfaces that are listed for a type

An extension that is attached to a type of the package applies to it, in the sense of the package, and its
instance adds the interfaces that the extension adds under the binding. So what is listed as an interface
of a named type is an interface that the type implements. For primitive types this is not so: extensions
are attached to them, but they implement only what they do out of the box
(`Engine.int64_show_listed`).

## Main definitions

* `Engine.Grounded`: a record of an attached extension that is right by the package.

## Main results

* `Engine.Evolves.grounded`: all records of a run are.
* `Engine.grants_of_listed`: what is listed is granted.
* `Engine.satisfies_of_listed`: what is listed, the engine says of the type.
-/

namespace Monomorph

namespace Package

variable {p : Package} {d : DeclId} {decl : Decl} {scope : List ParamId}

/-- The type parameters of a declaration are in scope of it. -/
theorem ownParams_subset_scope (hd : p.decl? d = some decl) (hscope : p.scopeParams? d = some scope) :
    decl.ownParams ⊆ scope := by
  have hwithin : p.scopeWithin p.decls.size d = some scope := hscope
  obtain ⟨m, decl', -, hd', ⟨-, rfl⟩ | ⟨c, outer, -, -, rfl⟩⟩ := scopeWithin_eq_some hwithin
  · rw [Option.some.inj (hd.symm.trans hd')]
    exact List.Subset.refl _
  · rw [Option.some.inj (hd.symm.trans hd')]
    exact List.subset_append_right _ _

end Package

namespace Engine

variable {w : Setting} {S : Patch} {e e' : Engine} {ext inst : DeclId} {canon : Ty} {b : Subst}

/-! ### Records of extensions -/

/-- A binding of parameters in scope is not changed when a request is brought into normal form, but for
parameters that stand for themselves. -/
theorem Canonized.value_arguments (hb : Canonized e b) {scope : List ParamId}
    (hscope : ∀ q, (b.get? q).isSome = true → q ∈ scope) (q : ParamId) :
    (e.arguments b scope).value q = b.value q := by
  rw [Subst.value, Subst.value, get?_arguments]
  cases hq : b.get? q with
  | none => split <;> rfl
  | some v =>
    rw [if_pos (hscope q (by rw [hq]; rfl)), Option.map_some, hb q v hq]
    by_cases hself : v = .param q
    · simp [Option.filter, hself]
    · simp [Option.filter, hself]

/-- The extension applies to the type under a binding, by the package, and the declaration is the
extension itself, if the binding replaces nothing, or its instance for the binding. -/
def Grounded (w : Setting) (e : Engine) (ext : DeclId) (canon : Ty) (inst : DeclId) : Prop :=
  ∃ decl b, w.package.decl? ext = some decl ∧
    decl.Admits (w.package.Grants w.package.Extends) canon b ∧
    (inst = ext ∧ b.value = .param ∨ ∃ key, e.registry.keyOf? inst = some key ∧ key.template = ext ∧
      w.package.Leads ext ∧ key.subst.value = b.value)

theorem Grounded.mono (h : Grounded w e ext canon inst) (hp : e.Precedes e')
    (hinst : inst.index < e.package.decls.size) : Grounded w e' ext canon inst := by
  obtain ⟨decl, b, hd, hadmits, hans⟩ := h
  refine ⟨decl, b, hd, hadmits, hans.imp_right ?_⟩
  exact fun ⟨key, hk, hkey⟩ => ⟨key, (hp.keyOf hinst).trans hk, hkey⟩

section Records

variable (hp : w.package.WellFormed) (htop : ∀ d ∈ w.package.topLevel, d.index < w.package.decls.size)
  (he : e.Orderly w) (hi : Informed w e) (hext : ext ∈ w.package.topLevel)
  (hcanon : canon.Applies w.package.TypeName)
include hp htop he hi hext hcanon

/-- What is newly attached to a type is so by right. -/
theorem Fastens.grounded (h : Fastens w e ext canon inst) : Grounded w e ext canon inst := by
  obtain ⟨e₀, b, target, he₀, henlarges, haccepts, hn, hf⟩ := h.bound
  have hlow := htop ext hext
  obtain ⟨decl, hd⟩ := Package.decl?_eq_some_iff_lt.2 hlow
  have hadmits := henlarges.admits he₀ hp he hi htop haccepts hd hcanon
  have hcanonized : Canonized e₀ b := fun q v hq => he₀.canonical_of_originals
    ((hadmits.applies hcanon q v hq).handles fun _ _ hc => Package.lt_of_topType hc.topType)
  obtain ⟨scope, hscope, hcase⟩ := normalize?_eq_some hn
  have hrequested : e₀.requested ext b = b := by rw [requested, he₀.keyOf_original hlow]
  rw [he₀.templateOf_original hlow] at hscope hcase
  rw [hrequested] at hcase
  obtain ⟨decl', hd', ho⟩ := he₀.rooted.underlies.decl hd
  have hown : decl'.ownParams = decl.ownParams := Decl.ownParams_eq_of_outline ho
  have hvalue : (e₀.arguments b scope).value = b.value := funext fun q =>
    hcanonized.value_arguments (fun q hq => Package.ownParams_subset_scope hd' hscope
      (hown ▸ (hadmits.isOver q).1 hq)) q
  refine ⟨decl, b, hd, hadmits, ?_⟩
  rcases hcase with ⟨rfl, rfl⟩ | ⟨-, hempty, rfl⟩ | ⟨-, hne, rfl⟩
  · obtain ⟨rfl, -⟩ := hf
    refine .inl ⟨rfl, hvalue ▸ funext fun q => ?_⟩
    rw [Subst.value, get?_arguments, if_neg List.not_mem_nil, Option.getD_none]
  · obtain ⟨rfl, -⟩ := hf
    refine .inl ⟨rfl, hvalue ▸ funext fun q => ?_⟩
    rw [Subst.value, Subst.isEmpty_iff.1 hempty q, Option.getD_none]
  · obtain ⟨⟨slot, hslot, rfl⟩, -⟩ := hf
    refine .inr ⟨_, henlarges.toLater.settled.sound.indexed.keyOf_slot hslot, rfl, ?_, hvalue⟩
    -- An extension that is instantiated has type parameters.
    obtain ⟨q, v, hq⟩ := Subst.exists_get?_of_not_isEmpty (s := e₀.arguments b scope) (by simp [hne])
    have hmem : q ∈ decl.ownParams := by
      rw [get?_arguments] at hq
      split at hq
      · obtain ⟨v₀, hq₀, -⟩ := Option.map_eq_some_iff.1 (Option.filter_eq_some_iff.1 hq).1
        exact (hadmits.isOver q).1 (by rw [hq₀]; rfl)
      · cases hq
    refine ⟨decl, hd, .inl ?_⟩
    obtain ⟨param, hparam, -⟩ := List.mem_map.1 hmem
    simpa [Decl.hasTypeParams] using List.ne_nil_of_mem hparam

/-- All records of a computation that begins without records are right by the package. -/
theorem Evolves.grounded (h : Evolves w S e e')
    (hnone : e.extensions.attached.get? (ext, canon) = none)
    (ha : e'.extensions.attached.get? (ext, canon) = some inst) : Grounded w e' ext canon inst := by
  induction h with
  | refl =>
    rw [hnone] at ha
    cases ha
  | tail hsteps hstep ih =>
    have he' := orderly (hp.tidy w.strict) he hsteps
    rcases hstep.attached ha with hknown | hfastens
    · exact (ih hknown).mono hstep.precedes (he'.attached hknown).2.1
    · exact (hfastens.grounded hp htop he' (informed hp htop he hsteps hi) hext hcanon).mono
        hstep.precedes hfastens.inst_lt

end Records

/-- The interfaces that an instance adds are those that the extension adds under the binding. -/
theorem Grounded.canonical_interfaces (hp : w.package.WellFormed) (he : e.Orderly w)
    (hpictured : Pictured w e) (hcanon : canon.Applies w.package.TypeName)
    (h : Grounded w e ext canon inst) {decl' : Decl} (hinst : e.package.decl? inst = some decl') :
    ∃ decl b, w.package.decl? ext = some decl ∧
      decl.Admits (w.package.Grants w.package.Extends) canon b ∧
      decl'.kind.interfaces.map e.canonical = decl.kind.interfaces.map b.apply := by
  obtain ⟨decl, b, hd, hadmits, hans⟩ := h
  refine ⟨decl, b, hd, hadmits, ?_⟩
  rcases hans with ⟨rfl, hvalue⟩ | ⟨key, hk, rfl, hleads, hvalue⟩
  · have hretype := congrArg DeclKind.interfaces
      (he.retype_canonical hp hpictured.toConserves hd hinst)
    rw [DeclKind.interfaces_retype] at hretype
    rw [hretype]
    refine (List.map_id _).symm.trans (List.map_congr_left fun t _ => ?_)
    rw [Subst.apply, hvalue, Ty.bind_param, id]
  · obtain ⟨tree, table, hdrawn, rfl, hportrait⟩ := hpictured.portrait hk hleads
    have hb := hadmits.applies hcanon
    have hlegal : ∀ v ∈ key.subst.values, w.Legal v := by
      intro v hv
      obtain ⟨q, hq⟩ := Subst.mem_values.1 hv
      have hself : key.subst.value q = v := by rw [Subst.value, hq, Option.getD_some]
      rw [← hself, hvalue]
      exact Setting.legal_of_typeName (hb.value q)
    obtain ⟨decl₁, decl₂, hd₁, hd₂, -, hkind⟩ :=
      hpictured.exists_retype_eq he hdrawn hlegal hportrait hdrawn.mem_root
    obtain rfl := Option.some.inj (hinst.symm.trans hd₂)
    have hinterfaces := congrArg DeclKind.interfaces hkind
    have hretype := congrArg DeclKind.interfaces
      (he.retype_eq hpictured.toConserves hd hd₁ key.subst)
    rw [DeclKind.interfaces_retype, DeclKind.interfaces_retype, DeclKind.interfaces_carry]
      at hinterfaces
    rw [DeclKind.interfaces_retype, DeclKind.interfaces_retype] at hretype
    rw [hinterfaces, hretype]
    refine List.map_congr_left fun t ht => ?_
    rw [Subst.apply, hvalue]
    exact he.canonical_of_originals ((hb.apply (hp.declTypes hd t
      (DeclKind.mem_types_of_mem_interfaces ht))).handles fun _ _ hc =>
        Package.lt_of_topType hc.topType)

/-- The interface comes with the type: it is the type itself or one of its base types. -/
def Supplies (e : Engine) (t i : Ty) : Prop :=
  i.namedDecl? ≠ none ∧ (e.canonical t = i ∨ Relation.TransGen e.Derives (e.canonical t) i)

/-- The interface comes with one that the extension instance adds. -/
def Brings (e : Engine) (inst : DeclId) (i : Ty) : Prop :=
  ∃ decl, e.package.decl? inst = some decl ∧ ∃ added ∈ decl.kind.interfaces, e.Supplies added i

theorem namedDecl?_of_isInterfaceTy? {t : Ty} (h : e.isInterfaceTy? t = some true) :
    t.namedDecl? ≠ none := by
  cases t with
  | named d args => exact Option.some_ne_none d
  | prim | param | tuple | func | invalid => simp [isInterfaceTy?, Ty.namedDecl?] at h

end Engine

/-! ### Lists of interfaces -/

namespace Run

variable {e : Engine} {make : Instantiator} {fuel : Nat}

theorem meets_addInterfaces (found ts : List Ty) : (addInterfaces found ts).Meets e
    (fun found' e' => e' = e ∧ ∀ i ∈ found', i ∈ found ∨ i ∈ ts ∧ i.namedDecl? ≠ none)
    fun _ _ => True := by
  induction ts generalizing found with
  | nil => exact ⟨rfl, fun i hi => .inl hi⟩
  | cons t ts ih =>
    refine meets_bind.2 (meets_query (fun holds hholds => ?_) trivial)
    have hskip : ∀ i, i ∈ found ∨ i ∈ ts ∧ i.namedDecl? ≠ none →
        i ∈ found ∨ i ∈ t :: ts ∧ i.namedDecl? ≠ none := fun i =>
      Or.imp_right (And.imp_left (List.mem_cons_of_mem t))
    split
    · rename_i hnew
      rw [Bool.and_eq_true] at hnew
      refine (ih _).mono (fun found' e' ⟨he, hall⟩ => ⟨he, fun i hi => ?_⟩) fun _ _ => id
      rcases hall i hi with hi | hi
      · rcases List.mem_append.1 hi with hi | hi
        · exact .inl hi
        · obtain rfl := List.mem_singleton.1 hi
          exact .inr ⟨List.mem_cons_self, Engine.namedDecl?_of_isInterfaceTy? (hnew.1 ▸ hholds)⟩
      · exact hskip i (.inr hi)
    · exact (ih _).mono (fun found' e' ⟨he, hall⟩ => ⟨he, fun i hi => hskip i (hall i hi)⟩) fun _ _ => id

theorem meets_superTypes (fuel : Nat) (t : Ty) : (superTypes fuel t).Meets e
    (fun supers e' => e' = e ∧ ∀ u ∈ supers, Relation.TransGen e.Derives (e.canonical t) u)
    fun _ _ => True := by
  refine meets_bind.2 (meets_get.2 ?_)
  cases hsupers : e.superTypes fuel t with
  | error f => trivial
  | ok supers =>
    exact ⟨rfl, fun u hu => Engine.inherits_iff_transGen.1
      (Engine.inherits_of_mem_superTypes hsupers u hu)⟩

theorem meets_addProvided (he : e.Settled) (found ts : List Ty) : (addProvided fuel found ts).Meets e
    (fun found' e' => e' = e ∧ ∀ i ∈ found', i ∈ found ∨ ∃ t ∈ ts, e.Supplies t i)
    fun _ _ => True := by
  induction ts generalizing found with
  | nil => exact ⟨rfl, fun i hi => .inl hi⟩
  | cons t ts ih =>
    refine meets_bind.2 (meets_canonical.2 (meets_bind.2 ((meets_superTypes fuel _).mono ?_
      fun _ _ => id)))
    rintro supers e' ⟨rfl, hsupers⟩
    rw [he.canonical_self] at hsupers
    refine meets_bind.2 ((meets_addInterfaces found _).mono ?_ fun _ _ => id)
    rintro found' e' ⟨rfl, hfound⟩
    refine (ih found').mono (fun found'' e' ⟨he', hall⟩ => ⟨he', fun i hi => ?_⟩) fun _ _ => id
    rcases hall i hi with hi | ⟨u, hu, hi⟩
    · refine (hfound i hi).imp_right fun ⟨hmem, hnamed⟩ => ⟨t, List.mem_cons_self, hnamed, ?_⟩
      exact (List.mem_cons.1 hmem).imp Eq.symm (hsupers i)
    · exact .inr ⟨u, List.mem_cons_of_mem t hu, hi⟩

theorem meets_addExtensionInterfaces (he : e.Settled) (found : List Ty) (insts : List DeclId) :
    (addExtensionInterfaces fuel found insts).Meets e
      (fun found' e' => e' = e ∧ ∀ i ∈ found', i ∈ found ∨ ∃ inst ∈ insts, e.Brings inst i)
      fun _ _ => True := by
  induction insts generalizing found with
  | nil => exact ⟨rfl, fun i hi => .inl hi⟩
  | cons inst insts ih =>
    refine meets_bind.2 (meets_decl (fun decl hd => ?_) trivial)
    refine meets_bind.2 ((meets_addProvided he found _).mono ?_ fun _ _ => id)
    rintro found' e' ⟨rfl, hfound⟩
    refine (ih found').mono (fun found'' e' ⟨he', hall⟩ => ⟨he', fun i hi => ?_⟩) fun _ _ => id
    rcases hall i hi with hi | ⟨c, hc, hi⟩
    · exact (hfound i hi).imp_right fun hsupplies => ⟨inst, List.mem_cons_self, decl, hd, hsupplies⟩
    · exact .inr ⟨c, List.mem_cons_of_mem inst hc, hi⟩

/-- What is listed as an interface of a type is a base type of it, or it comes with an extension that is
attached to the type. -/
theorem meets_implementedInterfaces {w : Setting} (hw : w.Tidy) (hm : Makes w make)
    (hr : ∀ d s, Keeps (Engine.Retaining fun _ => False) (make d s)) (he : e.Orderly w) {t : Ty}
    (ht : t.Applies w.Names) : (implementedInterfaces make fuel t).Meets e
      (fun found e' => ∀ i ∈ found,
        i.namedDecl? ≠ none ∧ Relation.TransGen e.Derives (e.canonical t) i ∨
        ∃ insts, e'.Lists (e.canonical t) insts ∧ ∃ inst ∈ insts, e'.Brings inst i)
      fun _ _ => True := by
  refine meets_bind.2 ((meets_superTypes fuel t).mono ?_ fun _ _ => id)
  rintro supers e' ⟨rfl, hsupers⟩
  refine meets_bind.2 ((meets_addInterfaces [] supers).mono ?_ fun _ _ => id)
  rintro found e' ⟨rfl, hfound⟩
  refine meets_bind.2 (((lists_ensureExtensions hw hm hr ht he).and
    (serves_ensureExtensions hw hm ht e' he)).mono ?_ fun _ _ _ => trivial)
  rintro insts e₁ ⟨hlists, hprogress, -⟩
  have hsettled := (hprogress.evolves.orderly hw he).settled
  refine (meets_addExtensionInterfaces hsettled found insts).mono ?_ fun _ _ => id
  rintro found' e₂ ⟨rfl, hall⟩ i hi
  rcases hall i hi with hi | hbrings
  · obtain ⟨hmem, hnamed⟩ := (hfound i hi).resolve_left List.not_mem_nil
    exact .inl ⟨hnamed, hsupers i hmem⟩
  · exact .inr ⟨insts, hlists, hbrings⟩

end Run

/-- A named type of the package implements types of the package only. -/
theorem Package.Grants.applies {p : Package} (hp : p.WellFormed) {t i : Ty}
    (h : p.Grants p.Extends t i) (ht : t.Applies p.TypeName) (hnamed : t.namedDecl? ≠ none) :
    i.Applies p.TypeName := by
  cases h with
  | builtin => exact absurd rfl hnamed
  | inherits _ h => exact applies_of_transGen hp h ht
  | extension _ _ hd hk _ hmatch _ _ hadded hprovides =>
    have hb := Ty.applies_of_matchPattern Subst.applies_empty ht hmatch
    have happlies := hb.apply (hp.declTypes hd _ (by
      rw [hk]
      exact List.mem_cons_of_mem _ (List.mem_append_left _ hadded)))
    rcases hprovides with rfl | h
    · exact happlies
    · exact applies_of_transGen hp h happlies

namespace Engine

/-! ### What is listed is granted -/

theorem Attaches.exists_attached {e : Engine} {canon : Ty} {exts insts : List DeclId} {inst : DeclId}
    (h : e.Attaches canon exts insts) (hinst : inst ∈ insts) :
    ∃ ext ∈ exts, e.extensions.attached.get? (ext, canon) = some inst := by
  induction h with
  | nil => cases hinst
  | @cons ext inst' exts insts hd _ ih =>
    rcases List.mem_append.1 hinst with hmem | hmem
    · obtain rfl := Option.mem_toList.1 hmem
      exact ⟨ext, List.mem_cons_self, hd⟩
    · obtain ⟨ext', hext', ha⟩ := ih hmem
      exact ⟨ext', List.mem_cons_of_mem ext hext', ha⟩

variable {w : Setting} {e e' : Engine} {t u i : Ty}

/-- An interface that comes with an extension attached to a named type, the type implements. -/
theorem Grounded.grants (hp : w.package.WellFormed) (he : e.Orderly w) (hpictured : Pictured w e)
    {ext inst c : DeclId} {args : List Ty} (h : Grounded w e ext (.named c args) inst)
    (hcandidate : w.package.Candidate ext) (ht : (Ty.named c args).Applies w.package.TypeName)
    (hbrings : e.Brings inst i) : w.package.Grants w.package.Extends (.named c args) i := by
  obtain ⟨decl', hd', added, hadded, hnamed, hsupplies⟩ := hbrings
  obtain ⟨decl, b, hd, hadmits, hinterfaces⟩ := h.canonical_interfaces hp he hpictured ht hd'
  have hmem := List.mem_map_of_mem (f := e.canonical) hadded
  rw [hinterfaces] at hmem
  obtain ⟨added₀, hadded₀, hself⟩ := List.mem_map.1 hmem
  have happlies := (hadmits.applies ht).apply
    (hp.declTypes hd added₀ (DeclKind.mem_types_of_mem_interfaces hadded₀))
  rw [← hself] at hsupplies
  exact .of_admits hcandidate hd hadmits hadded₀ (hsupplies.imp_right
    (he.transGen_derives_iff hp hpictured.toConserves happlies i).1) hnamed

variable {p : Package}

/-- In every state that requests lead to, what is listed as an interface of a named type of the package is
an interface that the type implements, by the package. -/
theorem grants_of_listed (hp : p.WellFormed) (htop : ∀ d ∈ p.topLevel, d.index < p.decls.size)
    (config : Config) (access : AccessRule) {ops : List Operation} (hops : ∀ op ∈ ops, op.IsRequest)
    (he : e = (start p config access .reserved).afterAll ops)
    (ht : (e.canonical t).Applies p.TypeName) (hnamed : (e.canonical t).namedDecl? ≠ none)
    {interfaces : List Ty}
    (hrun : (Run.request fun make fuel => Run.implementedInterfaces make fuel t) e =
      .ok interfaces e') (hi : i ∈ interfaces) : p.Grants p.Extends (e.canonical t) i := by
  have hw := hp.tidy false
  have happlies := Setting.applies_names ⟨p, false⟩ rfl
  have hstart := orderly_start hw config access
  have hevolves : Evolves ⟨p, false⟩ .full _ e := he ▸ evolves_afterAll hw hstart fun op hop =>
    Operation.serves_run hw (hops op hop) fun t _ => happlies t
  have horderly := hevolves.orderly hw hstart
  have hinformed : Informed ⟨p, false⟩ (start p config access .reserved) :=
    informed_start hp config access
  have hm := Run.makes_instantiate hw Run.budget
  have hlisted := (Run.meets_implementedInterfaces hw hm
    (Run.retaining_instantiate (fun _ => False) Run.budget) horderly (happlies t)).of_ok hrun i hi
  have hall : Evolves ⟨p, false⟩ .full _ e' := hevolves.trans
    (((Run.serves_implementedInterfaces hw hm (happlies t) e horderly).of_ok hrun).1.evolves.within
      (Patch.empty_within _))
  cases hcanonical : e.canonical t with
  | named c args =>
    rw [hcanonical] at ht hlisted
    rcases hlisted with ⟨hinterface, hinherits⟩ | ⟨insts, hlists, inst, hinst, hbrings⟩
    · have hconserves := hevolves.conserves hw hstart hinformed.toConserves
      exact .inherits hinterface
        ((horderly.transGen_derives_iff (w := ⟨p, false⟩) hp hconserves ht i).1 hinherits)
    · have horderly' := hall.orderly hw hstart
      have hinformed' := hall.informed (w := ⟨p, false⟩) hp htop hstart hinformed
      have hpictured := hall.pictured (w := ⟨p, false⟩) hp hstart (pictured_start hp config access)
      rcases hlists with ⟨-, rfl⟩ | ⟨-, exts, hexts, hattaches⟩
      · cases hinst
      · obtain ⟨ext, hext, ha⟩ := hattaches.exists_attached hinst
        have hcandidate := (Enlarges.refl horderly'.settled).candidate_of_matching
          (w := ⟨p, false⟩) horderly' hp horderly' hinformed' htop (hinformed'.candidates hexts) hext
        exact (hall.grounded (w := ⟨p, false⟩) hp htop hstart hinformed hcandidate.1 ht rfl ha).grants
          hp horderly' hpictured hcandidate ht hbrings
  | prim | param | tuple | func | invalid =>
    rw [hcanonical] at hnamed
    exact absurd rfl hnamed

/-- What is listed as an interface of a named type of the package, the engine says of the type in all
states that requests lead to, in whatever spelling, provided that types have finitely many base types. -/
theorem satisfies_of_listed (hp : p.WellFormed) (htop : ∀ d ∈ p.topLevel, d.index < p.decls.size)
    (hfinite : ∀ u, u.Applies p.TypeName → {v | Relation.TransGen p.Extends u v}.Finite)
    (config : Config) (access : AccessRule) {ops ops' : List Operation}
    (hops : ∀ op ∈ ops, op.IsRequest) (hops' : ∀ op ∈ ops', op.IsRequest)
    (he : e = (start p config access .reserved).afterAll ops)
    (ht : (e.canonical t).Applies p.TypeName) (hnamed : (e.canonical t).namedDecl? ≠ none)
    {interfaces : List Ty}
    (hrun : (Run.request fun make fuel => Run.implementedInterfaces make fuel t) e =
      .ok interfaces e') (hi : i ∈ interfaces) (hu : (e'.afterAll ops').canonical u = e.canonical t) :
    ∃ n, ∀ fuel, n ≤ fuel → ∃ e'', Run.satisfies fuel u i (e'.afterAll ops') = .ok true e'' ∧
      Inquired (e'.afterAll ops') e'' := by
  have hgrants := grants_of_listed hp htop config access hops he ht hnamed hrun hi
  have hafter : (Operation.implementedInterfaces t).after e = e' := by
    have hop : (Operation.implementedInterfaces t).run e = .ok () e' :=
      Run.Meets.eq_ok (Run.meets_map.2 (Run.meets_of_eq_ok hrun ⟨rfl, rfl⟩))
    rw [Operation.after, hop]
  have he' : e'.afterAll ops' =
      (start p config access .reserved).afterAll (ops ++ .implementedInterfaces t :: ops') := by
    rw [afterAll_append, ← he, ← hafter]
    rfl
  have hrequests : ∀ op ∈ ops ++ .implementedInterfaces t :: ops', op.IsRequest :=
    List.forall_mem_append.2 ⟨hops, List.forall_mem_cons.2 ⟨trivial, hops'⟩⟩
  have hself : (e'.afterAll ops').canonical i = i :=
    (inquiring_afterAll hp htop config access hrequests he').1.canonical_of_originals
      ((hgrants.applies hp ht hnamed).handles fun _ _ hc => Package.lt_of_topType hc.topType)
  obtain ⟨n, hn⟩ :=
    satisfies_decides_package hp htop hfinite config access hrequests he' (hu ▸ ht) i
  rw [hu, hself] at hn
  refine ⟨n, fun fuel hfuel => ?_⟩
  obtain ⟨holds, e'', hsatisfies, hinquired, hholds⟩ := hn fuel hfuel
  exact ⟨e'', hholds.2 hgrants ▸ hsatisfies, hinquired⟩

/-! ### Extensions of primitive types -/

/-- A package with an interface `Show` and an extension of `Int64` that adds `Show`. -/
def primShowPackage : Package where
  name := "demo"
  decls := #[
    { name := "Show", kind := .interface [] [], package := "demo" },
    { name := "extend", kind := .extension (.prim .int64) [.named ⟨0⟩ []] [] [], package := "demo" }]
  topLevel := [⟨0⟩, ⟨1⟩]

/-- The interfaces of a type, as the engine answers. -/
def interfacesOf (e : Engine) (t : Ty) : Except Failure (List Ty) :=
  (Run.request fun make fuel => Run.implementedInterfaces make fuel t).outcome e

/-- The extension is attached to `Int64`, and `Show` is listed as an interface of `Int64`. Whether `Int64`
implements `Show` is asked of the types that do so out of the box only. -/
theorem int64_show_listed :
    let show_ := Ty.named ⟨0⟩ []
    let e := start primShowPackage {} .visible .reserved
    let e' := e.afterAll [.implementedInterfaces (.prim .int64)]
    primShowPackage.WellFormed ∧ e.interfacesOf (.prim .int64) = .ok [show_] ∧
      e'.interfacesOf (.prim .int64) = .ok [show_] ∧
      e'.extensions.attached.get? (⟨1⟩, .prim .int64) = some ⟨1⟩ ∧
      e'.saysImplements (.prim .int64) show_ = .ok false := by
  decide +kernel

end Engine

end Monomorph
