import Monomorph.Proofs.Instances.Runs
import Monomorph.Proofs.Requests.Records

/-!
# Dispatch tables

The dispatch table of a type is built from its base types and interfaces. Each of them is resolved to a
declaration, and each of the methods of that declaration gets an entry, unless it has one already. The
instances that have to be made on the way leave everything alone that existed before, so what was found
out about a method still holds when the table is complete.

## Main definitions

* `Engine.Abides`: a state that differs in what has been added only.
* `Engine.Designates`: the declaration that a type is known to stand for.
* `Engine.Implemented`, `Engine.Listed`, `Engine.Justified`: what an entry says.
* `Engine.Covers`: all methods of what a type stands for have entries.
* `Engine.Fills`: a state in which a table has got more entries.
* `Run.Adds`: computations that change nothing that exists.

## Main results

* `Run.adds_resolveImplementation`: what is found for a method implements it.
* `Run.fills_enterMethods`, `Run.fills_enterProviders`: the entries that are made.
* `Engine.dispatch_complete`: a table that is built now is complete, and its entries are right.
* `Engine.table_outdated`: a table that was built before the package was rearranged.
-/

namespace Monomorph

/-! ### Lists -/

theorem Package.filterDecls?_mono {p q : Package} (hpq : ∀ {d decl}, p.decl? d = some decl →
    q.decl? d = some decl) {keep : Decl → Bool} {ds kept : List DeclId}
    (h : p.filterDecls? keep ds = some kept) : q.filterDecls? keep ds = some kept := by
  induction ds generalizing kept with
  | nil => exact h
  | cons d ds ih =>
    simp only [filterDecls?, Option.bind_eq_bind, Option.bind_eq_some_iff, Option.pure_def] at h ⊢
    obtain ⟨decl, hd, rest, hrest, h⟩ := h
    exact ⟨decl, hpq hd, rest, ih hrest, h⟩

namespace Engine

variable {w : Setting} {e e' e'' : Engine}

theorem mem_or_mem_addNew {found ts : List Ty} {t : Ty} (h : t ∈ ts) :
    t ∈ found ∨ t ∈ addNew found ts := by
  induction ts generalizing found with
  | nil => exact nomatch h
  | cons u ts ih =>
    unfold addNew
    split
    · rename_i hu
      rcases List.mem_cons.1 h with rfl | h
      · exact .inl hu
      · exact ih h
    · rcases List.mem_cons.1 h with rfl | h
      · exact .inr List.mem_cons_self
      · rcases @ih (found ++ [u]) h with hmem | hmem
        · rcases List.mem_append.1 hmem with hmem | hmem
          · exact .inl hmem
          · exact .inr (List.mem_cons.2 (.inl (List.mem_singleton.1 hmem)))
        · exact .inr (List.mem_cons_of_mem _ hmem)

/-! ### What stays the same -/

/-- A computation that changes nothing that existed has led from `e` to `e'`. -/
structure Abides (w : Setting) (e e' : Engine) : Prop where
  progress : Progress w .empty e e'
  grows : Grows e e'

namespace Abides

theorem refl (w : Setting) (e : Engine) : Abides w e e := ⟨.refl w .empty e, passage_grows.refl e⟩

theorem trans (h : Abides w e e') (h' : Abides w e' e'') : Abides w e e'' :=
  ⟨h.progress.trans h'.progress, passage_grows.trans h.grows h'.grows⟩

/-- Only dispatch tables have changed. -/
theorem of_dispatch (w : Setting) (e : Engine) (t : DispatchTable) :
    Abides w e { e with dispatch := t } :=
  have ha : Alike e { e with dispatch := t } := ⟨rfl, rfl, rfl, rfl, rfl, rfl, rfl, rfl⟩
  ⟨.note ha (fun hk => .inl hk) (.of_eq rfl), .of_alike ha⟩

variable (hw : w.Tidy) (he : e.Orderly w) (h : Abides w e e')
include hw he h

theorem orderly : e'.Orderly w := h.progress.evolves.orderly hw he

theorem later : Later e e' := h.progress.evolves.later hw he

theorem decl?_eq_some {d : DeclId} {decl : Decl} (hd : e.package.decl? d = some decl) :
    e'.package.decl? d = some decl := by
  rw [h.progress.evolves.decl_eq hw he (Package.lt_of_decl? hd) id id, hd]

theorem canonical_eq {t : Ty} (ht : t.Handles fun d => d.index < e.package.decls.size) :
    e'.canonical t = e.canonical t :=
  h.progress.evolves.canonical_eq hw he ht

/-- The signature of a function stays the same. -/
theorem signature?_eq_some {d : DeclId} {s : Signature} (hs : e.signature? d = some s) :
    e'.signature? d = some s := by
  have hparam : ∀ {c t}, e.paramTy? c = some t → e'.paramTy? c = some t := by
    intro c t hc
    unfold paramTy? at hc ⊢
    rw [Option.bind_eq_bind, Option.bind_eq_some_iff] at hc ⊢
    obtain ⟨decl, hdecl, hc⟩ := hc
    refine ⟨decl, h.decl?_eq_some hw he hdecl, ?_⟩
    split at hc
    · rename_i ty init hk
      rw [← hc, h.canonical_eq hw he (he.declTypes hdecl ty (hk ▸ List.mem_cons_self)).lt]
    · exact hc
  unfold signature? at hs ⊢
  rw [Option.bind_eq_bind, Option.bind_eq_some_iff] at hs ⊢
  obtain ⟨decl, hdecl, hs⟩ := hs
  refine ⟨decl, h.decl?_eq_some hw he hdecl, ?_⟩
  split at hs
  · rename_i params ret body hk
    rw [Option.bind_eq_bind, Option.bind_eq_some_iff] at hs ⊢
    obtain ⟨ts, hts, hs⟩ := hs
    refine ⟨ts, mapM_congr_some (fun _ _ _ => hparam) hts, ?_⟩
    rw [← hs, h.canonical_eq hw he (he.declTypes hdecl ret (hk ▸ List.mem_cons_self)).lt]
  · exact hs

end Abides

/-! ### What entries say -/

/-- The function `impl` has a body and the name and the canonical signature of `method`. -/
def Implemented (e : Engine) (method impl : DeclId) : Prop :=
  ∃ m decl params ret body signature, e.package.decl? method = some m ∧
    e.package.decl? impl = some decl ∧ decl.kind = .func params ret (some body) ∧
    decl.name = m.name ∧ e.signature? method = some signature ∧ e.signature? impl = some signature

/-- What an implementation of `method` is compared with. -/
structure Wanted (e : Engine) (method : DeclId) (m : Decl) (signature : Signature) : Prop where
  decl : e.package.decl? method = some m
  signature : e.signature? method = some signature

/-- The method has the given position among the methods of `provider` that have entries. -/
def Listed (e : Engine) (provider : DeclId) (slot : Nat) (method : DeclId) : Prop :=
  ∃ methods, Run.dispatchedMethods provider e = .ok methods e ∧ methods[slot]? = some method

/-- The declaration that a type is known to stand for: a template with arguments stands for a registered
instance. -/
def Designates (e : Engine) : Ty → Option DeclId → Prop
  | .named d [], found => found = some d
  | .named d (arg :: args), found => ∃ decl s target c, found = some c ∧
      e.package.decl? d = some decl ∧ Subst.ofArgs decl.ownParams (arg :: args) = .ok s ∧
      e.normalize? d s = some target ∧ e.Fulfills target c e
  | _, found => found = none

theorem Wanted.implemented {method impl : DeclId} {m : Decl} {signature : Signature}
    (hm : e.Wanted method m signature)
    (h : e.implements? method m.name signature impl = some true) : e.Implemented method impl := by
  unfold implements? at h
  split at h
  · cases h
  · rw [Option.bind_eq_bind, Option.bind_eq_some_iff] at h
    obtain ⟨decl, hd, h⟩ := h
    split at h
    · rename_i hshape
      obtain ⟨hname, hfunc, -, habstract⟩ := hshape
      rw [Option.bind_eq_bind, Option.bind_eq_some_iff] at h
      obtain ⟨signature', hs', h⟩ := h
      have hsame : signature' = signature := by simpa using h
      obtain ⟨params, ret, body, hk⟩ : ∃ params ret body, decl.kind = .func params ret (some body) := by
        cases hk : decl.kind with
        | func params ret body =>
          cases body with
          | some body => exact ⟨params, ret, body, rfl⟩
          | none => simp [Decl.isAbstractFunc, hk] at habstract
        | type | interface | extension | var | placeholder => simp [Decl.isFunc, hk] at hfunc
      exact ⟨m, decl, params, ret, body, signature, hm.decl, hd, hk, hname, hm.signature, hsame ▸ hs'⟩
    · cases h

section Later

variable (hw : w.Tidy) (he : e.Orderly w) (h : Abides w e e')
include hw he h

theorem Wanted.abides {method : DeclId} {m : Decl} {signature : Signature}
    (hm : e.Wanted method m signature) : e'.Wanted method m signature :=
  ⟨h.decl?_eq_some hw he hm.decl, h.signature?_eq_some hw he hm.signature⟩

theorem Implemented.abides {method impl : DeclId} (hi : e.Implemented method impl) :
    e'.Implemented method impl := by
  obtain ⟨m, decl, params, ret, body, signature, hm, hd, hk, hname, hs, hs'⟩ := hi
  exact ⟨m, decl, params, ret, body, signature, h.decl?_eq_some hw he hm, h.decl?_eq_some hw he hd, hk,
    hname, h.signature?_eq_some hw he hs, h.signature?_eq_some hw he hs'⟩

theorem Abides.dispatchedMethods {provider : DeclId} {methods : List DeclId}
    (hm : Run.dispatchedMethods provider e = .ok methods e) :
    Run.dispatchedMethods provider e' = .ok methods e' := by
  have hmeets : (Run.dispatchedMethods provider).Meets e' (fun ms e₁ => ms = methods ∧ e₁ = e')
      fun _ _ => False := by
    have hread : (Run.dispatchedMethods provider).Meets e (fun ms _ => ∃ decl,
        e.package.decl? provider = some decl ∧ e.package.filterDecls? (fun m => m.isFunc &&
          !m.hasTypeParams && (decl.kind.isInterface || m.isAbstractFunc)) decl.kind.members =
            some ms) fun _ _ => True :=
      Run.meets_bind.2 (Run.meets_decl (fun decl hd => Run.meets_query (fun ms hms => ⟨decl, hd, hms⟩)
        trivial) trivial)
    obtain ⟨decl, hd, hms⟩ := hread.of_ok hm
    refine Run.meets_bind.2 (Run.meets_decl_of_eq_some (h.decl?_eq_some hw he hd) ?_)
    exact Run.meets_query_of_eq_some
      (Package.filterDecls?_mono (fun hd => h.decl?_eq_some hw he hd) hms) ⟨rfl, rfl⟩
  exact hmeets.eq_ok

theorem Listed.abides {provider method : DeclId} {slot : Nat} (hl : e.Listed provider slot method) :
    e'.Listed provider slot method := by
  obtain ⟨methods, hm, hslot⟩ := hl
  exact ⟨methods, h.dispatchedMethods hw he hm, hslot⟩

/-- In an orderly state nothing is broken, so what has answered a request is still its answer. -/
theorem Fulfills.abides {d c : DeclId} {s : Subst} {target : Target} {e₁ : Engine}
    (hlt : d.index < e₁.package.decls.size) (he₁ : e₁.Settled) (hl : Later e₁ e)
    (hn : e₁.normalize? d s = some target) (hf : e₁.Fulfills target c e) :
    e'.normalize? d s = some target ∧ e'.Fulfills target c e' := by
  have hunbroken : ∀ b, ¬ e'.IsBroken b := by
    rintro b ⟨decl, hd, hb⟩
    rw [(h.orderly hw he).unbroken hd] at hb
    cases hb
  refine ⟨Later.normalize?_of_fulfills he₁ hl (h.later hw he) hlt hn hf, ?_⟩
  cases target with
  | itself c' =>
    obtain ⟨rfl, hc, -⟩ := hf
    exact ⟨rfl, Nat.lt_of_lt_of_le hc (Nat.le_trans hl.decls_le (h.later hw he).decls_le), hunbroken _⟩
  | instanceOf key =>
    obtain ⟨⟨slot, hs, rfl⟩, -⟩ := hf
    exact ⟨⟨slot, (h.grows he.settled.sound).slots hs, rfl⟩, hunbroken _, fun _ _ _ => hunbroken _⟩

theorem Designates.abides {t : Ty} {found : Option DeclId} (hf : e.Designates t found) :
    e'.Designates t found := by
  cases t with
  | named d args =>
    cases args with
    | nil => exact hf
    | cons arg args =>
      obtain ⟨decl, s, target, c, rfl, hd, hs, hn, hc⟩ := hf
      obtain ⟨hn', hc'⟩ := hc.abides hw he h (Package.lt_of_decl? hd) he.settled (.refl he.settled) hn
      exact ⟨decl, s, target, c, rfl, h.decl?_eq_some hw he hd, hs, hn', hc'⟩
  | prim | param | tuple | func | invalid => exact hf

end Later

/-- The entry is for a method of the declaration that one of the `providers` stands for, and what it
says is right. -/
structure Justified (e : Engine) (providers : List Ty) (entry : DispatchEntry) : Prop where
  provided : ∃ t ∈ providers, e.Designates t (some entry.interface)
  listed : e.Listed entry.interface entry.slot entry.abstractMethod
  implemented : e.Implemented entry.abstractMethod entry.implementation

/-- All methods of the declaration that `t` stands for have entries in the table of `ty`. -/
def Covers (e : Engine) (ty : DeclId) (t : Ty) : Prop :=
  ∃ found, e.Designates t found ∧ ∀ d, found = some d → ∃ methods,
    Run.dispatchedMethods d e = .ok methods e ∧
      ∀ m ∈ methods, ∃ entry, e.dispatch.entries.get? (ty, m) = some entry

/-- A computation has entered methods of what the `providers` stand for in the table of `ty`, and has
changed nothing that existed. -/
structure Fills (w : Setting) (ty : DeclId) (providers : List Ty) (e e' : Engine) : Prop where
  abides : Abides w e e'
  kept : ∀ {method entry}, e.dispatch.entries.get? (ty, method) = some entry →
    e'.dispatch.entries.get? (ty, method) = some entry
  made : ∀ {method entry}, e'.dispatch.entries.get? (ty, method) = some entry →
    e.dispatch.entries.get? (ty, method) = some entry ∨ e'.Justified providers entry

theorem Justified.abides (hw : w.Tidy) (he : e.Orderly w) (h : Abides w e e') {providers : List Ty}
    {entry : DispatchEntry} (hj : e.Justified providers entry) : e'.Justified providers entry :=
  have ⟨t, ht, hentry⟩ := hj.provided
  ⟨⟨t, ht, hentry.abides hw he h⟩, hj.listed.abides hw he h, hj.implemented.abides hw he h⟩

namespace Fills

variable {ty : DeclId} {providers providers' : List Ty}

theorem refl (w : Setting) (ty : DeclId) (providers : List Ty) (e : Engine) :
    Fills w ty providers e e :=
  ⟨.refl w e, id, .inl⟩

/-- Whatever leaves the table alone. -/
theorem of_retains (hty : ty.index < e.package.decls.size) (ha : Abides w e e')
    (hr : Retains (fun _ => True) e e') : Fills w ty providers e e' :=
  ⟨ha, fun hk => (hr.table _ trivial hty).trans hk,
    fun hk => .inl ((hr.table _ trivial hty).symm.trans hk)⟩

theorem mono (h : Fills w ty providers e e') (hsub : ∀ t ∈ providers, t ∈ providers') :
    Fills w ty providers' e e' := by
  refine ⟨h.abides, h.kept, fun hk => (h.made hk).imp_right fun hj => ?_⟩
  obtain ⟨t, ht, hentry⟩ := hj.provided
  exact ⟨⟨t, hsub t ht, hentry⟩, hj.listed, hj.implemented⟩

theorem trans (hw : w.Tidy) (he : e.Orderly w) (h : Fills w ty providers e e')
    (h' : Fills w ty providers e' e'') : Fills w ty providers e e'' := by
  refine ⟨h.abides.trans h'.abides, fun hk => h'.kept (h.kept hk), fun hk => ?_⟩
  rcases h'.made hk with hk | hj
  · exact (h.made hk).imp_right fun hj => hj.abides hw (h.abides.orderly hw he) h'.abides
  · exact .inr hj

/-- A new entry. -/
theorem enter (hw : w.Tidy) (he : e.Orderly w) (entry : DispatchEntry)
    (hnew : e.dispatch.entries.get? (ty, entry.abstractMethod) = none)
    (hj : e.Justified providers entry) :
    Fills w ty providers e { e with dispatch :=
      { e.dispatch with entries := e.dispatch.entries.insert (ty, entry.abstractMethod) entry } } := by
  have ha := Abides.of_dispatch w e
    { e.dispatch with entries := e.dispatch.entries.insert (ty, entry.abstractMethod) entry }
  refine ⟨ha, fun {method other} hk => ?_, fun {method other} hk => ?_⟩
  · refine (Assoc.get?_insert _ _ _ _).trans ?_
    split
    · rename_i heq
      rw [heq, hnew] at hk
      cases hk
    · exact hk
  · rw [Assoc.get?_insert] at hk
    split at hk
    · exact .inr (Option.some.inj hk ▸ hj.abides hw he ha)
    · exact .inl hk

end Fills

theorem Covers.fills (hw : w.Tidy) (he : e.Orderly w) {ty : DeclId} {providers : List Ty}
    (h : Fills w ty providers e e') {t : Ty} (hc : e.Covers ty t) : e'.Covers ty t := by
  obtain ⟨found, hfound, hmethods⟩ := hc
  refine ⟨found, hfound.abides hw he h.abides, fun d hd => ?_⟩
  obtain ⟨methods, hm, hentries⟩ := hmethods d hd
  refine ⟨methods, h.abides.dispatchedMethods hw he hm, fun m hmem => ?_⟩
  obtain ⟨entry, hk⟩ := hentries m hmem
  exact ⟨entry, h.kept hk⟩

end Engine

/-! ### Building tables -/

open Engine (Abides Retains Retaining Grows Implemented Listed Designates Fills Covers)

namespace Run

variable {w : Setting} {e : Engine} {make : Instantiator} {fuel : Nat}

/-- In the state `e`, `x` leaves everything alone that exists, tables included, and its result
satisfies `Q`. -/
def Adds (w : Setting) (x : Run α) (e : Engine) (Q : α → Engine → Prop) : Prop :=
  x.Meets e (fun a e' => Abides w e e' ∧ Retains (fun _ => True) e e' ∧ Q a e') fun _ _ => True

namespace Adds

variable {Q : α → Engine → Prop}

theorem of_works {x : Run α} (he : e.Orderly w) (hx : x.Works w .empty e Q)
    (hg : Keeps Grows x) (hr : Keeps (Retaining fun _ => True) x) : x.Adds w e Q :=
  (hx.and ((hg e).and (hr e))).mono
    (fun _ _ ⟨⟨hp, hq⟩, hg, hr⟩ => ⟨⟨hp, hg⟩, (hr he.settled).2, hq⟩) fun _ _ _ => trivial

theorem of_read {x : Run α} (hx : x.Meets e (fun a e' => e' = e ∧ Q a e) fun _ _ => True) :
    x.Adds w e Q :=
  hx.mono (by rintro a _ ⟨rfl, hq⟩; exact ⟨.refl w _, .refl _ _, hq⟩) fun _ _ _ => trivial

theorem pure {a : α} (h : Q a e) : (pure a : Run α).Adds w e Q := ⟨.refl w e, .refl _ e, h⟩

theorem bind {x : Run β} {f : β → Run α} {P : β → Engine → Prop} (hw : w.Tidy) (he : e.Orderly w)
    (hx : x.Adds w e P)
    (hf : ∀ b e', e'.Orderly w → Abides w e e' → P b e' → (f b).Adds w e' Q) :
    (x >>= f).Adds w e Q := by
  refine meets_bind.2 (Meets.mono hx ?_ fun _ _ h => h)
  rintro b e' ⟨ha, hr, hb⟩
  refine Meets.mono (hf b e' (ha.orderly hw he) ha hb) ?_ fun _ _ h => h
  exact fun a e'' ⟨ha', hr', hq⟩ => ⟨ha.trans ha', hr.trans hr', hq⟩

theorem query_bind {q : Engine → Option β} {f : β → Run α}
    (hf : ∀ b, q e = some b → (f b).Adds w e Q) : (query q >>= f).Adds w e Q :=
  meets_bind.2 (meets_query hf trivial)

theorem decl_bind {d : DeclId} {f : Decl → Run α}
    (hf : ∀ decl, e.package.decl? d = some decl → (f decl).Adds w e Q) :
    (decl d >>= f).Adds w e Q :=
  query_bind hf

end Adds

/-- What is picked among the candidates implements the method. -/
theorem adds_pickCandidate {ty method : DeclId} {m : Decl} {wanted : Signature}
    (hm : e.Wanted method m wanted) (layer : List DeclId) :
    (pickCandidate ty method m.name wanted layer).Adds w e
      fun found e' => ∀ impl, found = some impl → e'.Implemented method impl := by
  have hfilter : ∀ l acc : List DeclId,
      (∀ c ∈ acc, e.implements? method m.name wanted c = some true) →
      (List.filterAuxM (fun c => query (·.implements? method m.name wanted c)) l acc).Meets e
        (fun fitting e' => e' = e ∧ ∀ c ∈ fitting, e.implements? method m.name wanted c = some true)
        fun _ _ => True := by
    intro l
    induction l with
    | nil => exact fun acc hacc => ⟨rfl, hacc⟩
    | cons c l ih =>
      refine fun acc hacc => meets_bind.2 (meets_query (fun fits hfits => ?_) trivial)
      cases fits with
      | true => exact ih (c :: acc) (List.forall_mem_cons.2 ⟨hfits, hacc⟩)
      | false => exact ih acc hacc
  refine .of_read (meets_bind.2 (meets_bind.2 ((hfilter layer [] fun _ hc => nomatch hc).mono ?_
    fun _ _ h => h)))
  rintro fitting e' ⟨rfl, hfitting⟩
  have hall : ∀ c ∈ fitting.reverse, e'.implements? method m.name wanted c = some true := fun c hc =>
    hfitting c (List.mem_reverse.1 hc)
  refine (meets_pure _).2 ?_
  split
  · exact ⟨rfl, nofun⟩
  · rename_i one hone
    refine ⟨rfl, fun impl himpl => ?_⟩
    obtain rfl := Option.some.inj himpl
    exact hm.implemented (hall one (hone ▸ List.mem_singleton_self one))
  · refine meets_bind.2 (meets_query (fun _ _ => meets_bind.2 ?_) trivial)
    have hnames := Keeps.mapM Engine.passage_grows
      (fun m => Keeps.query Engine.passage_grows (·.package.displayName? m)) fitting.reverse e'
    exact hnames.mono (fun _ _ _ => trivial) fun _ _ _ => trivial

section Implementations

variable (hw : w.Tidy) (hm : Makes w make) (hg : ∀ d s, Keeps Grows (make d s))
  (hr : ∀ d s, Keeps (Retaining fun _ => True) (make d s))

include hw hm hg hr

theorem adds_resolveTypeDecl (he : e.Orderly w) {t : Ty} (ht : t.Applies w.Names) :
    (resolveTypeDecl make t).Adds w e fun found e' => e'.Designates t found := by
  cases t with
  | named d args =>
    cases args with
    | nil => exact .pure rfl
    | cons arg args =>
      refine .decl_bind fun decl hd => meets_bind.2 (meets_ofInternal (fun s hs => ?_) fun _ => trivial)
      have happlies := Subst.Applies.ofArgs (Ty.allApply_iff.1 ht.2) hs
      have hmake : (make d s).Adds w e fun c e' => ∃ target, e.normalize? d s = some target ∧
          e.Fulfills target c e' :=
        .of_works he (hm d s happlies e he) (hg d s) (hr d s)
      refine meets_bind.2 (Meets.mono hmake ?_ fun _ _ => id)
      rintro c e' ⟨ha, hretains, target, hn, hc⟩
      have he' := ha.orderly hw he
      obtain ⟨hn', hc'⟩ := hc.abides hw he' (.refl w e') (Package.lt_of_decl? hd) he.settled
        (ha.later hw he) hn
      exact ⟨ha, hretains, decl, s, target, c, rfl, ha.decl?_eq_some hw he hd, hs, hn', hc'⟩
  | prim | param | tuple | func | invalid => exact .pure rfl

theorem adds_pickInherited (he : e.Orderly w) {ty method : DeclId} {m : Decl} {wanted : Signature}
    (h : e.Wanted method m wanted) {supers : List Ty} (hsupers : ∀ t ∈ supers, t.Applies w.Names) :
    (pickInherited make ty method m.name wanted supers).Adds w e
      fun found e' => ∀ impl, found = some impl → e'.Implemented method impl := by
  induction supers generalizing e with
  | nil => exact .pure nofun
  | cons super rest ih =>
    rw [List.forall_mem_cons] at hsupers
    refine .query_bind fun interface _ => ?_
    split
    · exact ih he h hsupers.2
    · refine .bind hw he (adds_resolveTypeDecl hw hm hg hr he hsupers.1) fun found e₁ he₁ ha₁ _ => ?_
      have h₁ := h.abides hw he ha₁
      cases found with
      | none => exact ih he₁ h₁ hsupers.2
      | some d =>
        refine .decl_bind fun decl _ => ?_
        refine .bind hw he₁ (adds_pickCandidate h₁ _) fun picked e₂ he₂ ha₂ hpicked => ?_
        cases picked with
        | some impl => exact .pure hpicked
        | none => exact ih he₂ (h₁.abides hw he₁ ha₂) hsupers.2

/-- What is found for a method implements it. -/
theorem adds_resolveImplementation (he : e.Orderly w) (ty method : DeclId) :
    (resolveImplementation make fuel ty method).Adds w e
      fun impl e' => e'.Implemented method impl := by
  have hself : (Ty.named ty []).Applies w.Names := ⟨w.names_zero ty, trivial⟩
  refine .decl_bind fun m hmethod => .query_bind fun wanted hs => .decl_bind fun decl _ => ?_
  have h : e.Wanted method m wanted := ⟨hmethod, hs⟩
  refine .bind hw he (adds_pickCandidate h _) fun own e₁ he₁ ha₁ hown => ?_
  have h₁ := h.abides hw he ha₁
  cases own with
  | some impl => exact .pure (hown impl rfl)
  | none =>
    refine .bind hw he₁ (.of_works he₁ (serves_ensureExtensions hw hm hself e₁ he₁)
      (keeps_ensureExtensions Engine.passage_grows hg _)
      (keeps_ensureExtensions (Engine.passage_retaining _) hr _)) fun exts e₂ he₂ ha₂ _ => ?_
    have hmembers := Adds.of_works he₂ (serves_membersAll (S := .empty) hw exts e₂ he₂)
      (keeps_membersAll Engine.passage_grows exts) (keeps_membersAll (Engine.passage_retaining _) exts)
    refine .bind hw he₂ hmembers fun extended e₃ he₃ ha₃ _ => ?_
    have h₃ := h₁.abides hw he₁ (ha₂.trans ha₃)
    refine .bind hw he₃ (adds_pickCandidate h₃ extended) fun found e₄ he₄ ha₄ hfound => ?_
    cases found with
    | some impl => exact .pure (hfound impl rfl)
    | none =>
      have hsupers := Adds.of_works he₄ (serves_superTypes (S := .empty) fuel hself e₄ he₄)
        (keeps_superTypes Engine.passage_grows fuel _)
        (keeps_superTypes (Engine.passage_retaining _) fuel _)
      refine .bind hw he₄ hsupers fun supers e₅ he₅ ha₅ hsupers => ?_
      have h₅ := h₃.abides hw he₃ (ha₄.trans ha₅)
      refine .bind hw he₅ (adds_pickInherited hw hm hg hr he₅ h₅ hsupers)
        fun inherited e₆ he₆ ha₆ hinherited => ?_
      cases inherited with
      | some impl => exact .pure (hinherited impl rfl)
      | none =>
        have h₆ := h₅.abides hw he₅ ha₆
        refine .decl_bind fun m' hm' => ?_
        obtain rfl := Option.some.inj (h₆.decl.symm.trans hm')
        split
        · rename_i params ret body hk
          exact .pure ⟨m, m, params, ret, body, wanted, h₆.decl, h₆.decl, hk, rfl, h₆.signature,
            h₆.signature⟩
        · exact meets_bind.2 (meets_query (fun _ _ => trivial) trivial)

/-- All of the given methods get entries; the first one has the position `slot`. -/
theorem fills_enterMethods {ty provider : DeclId} {t : Ty} {all methods : List DeclId} {slot : Nat}
    (he : e.Orderly w) (hty : ty.index < e.package.decls.size) (ht : e.Designates t (some provider))
    (hall : dispatchedMethods provider e = .ok all e) (hmethods : all.drop slot = methods) :
    (enterMethods make fuel ty provider slot methods).Meets e
      (fun _ e' => Fills w ty [t] e e' ∧
        ∀ m ∈ methods, ∃ entry, e'.dispatch.entries.get? (ty, m) = some entry) fun _ _ => True := by
  induction methods generalizing slot e with
  | nil => exact ⟨.refl w ty [t] e, fun m hm => nomatch hm⟩
  | cons method rest ih =>
    have hslot : all[slot]? = some method := by
      rw [← List.head?_drop, hmethods, List.head?_cons]
    have hrest : all.drop (slot + 1) = rest := by
      rw [← List.tail_drop, hmethods, List.tail_cons]
    -- once the method has an entry, the others get theirs
    have hnext : ∀ {e₁ : Engine}, Fills w ty [t] e e₁ →
        (∃ entry, e₁.dispatch.entries.get? (ty, method) = some entry) →
        (enterMethods make fuel ty provider (slot + 1) rest).Meets e₁
          (fun _ e' => Fills w ty [t] e e' ∧ ∀ m ∈ method :: rest, ∃ entry,
            e'.dispatch.entries.get? (ty, m) = some entry) fun _ _ => True := by
      rintro e₁ hf ⟨entry, hk⟩
      refine (ih (hf.abides.orderly hw he)
        (Nat.lt_of_lt_of_le hty (hf.abides.later hw he).decls_le) (ht.abides hw he hf.abides)
        (hf.abides.dispatchedMethods hw he hall) hrest).mono ?_ fun _ _ => id
      rintro - e₂ ⟨hf', hentries⟩
      exact ⟨hf.trans hw he hf', List.forall_mem_cons.2 ⟨⟨entry, hf'.kept hk⟩, hentries⟩⟩
    refine meets_bind.2 (meets_get.2 ?_)
    split
    · rename_i hnew
      refine meets_bind.2 (Meets.mono (adds_resolveImplementation hw hm hg hr he ty method) ?_
        fun _ _ => id)
      rintro impl e₁ ⟨ha, hretains, himpl⟩
      have he₁ := ha.orderly hw he
      refine meets_bind.2 (meets_modify.2 (hnext ?_ ⟨_, Assoc.get?_insert_self _ _ _⟩))
      refine (Fills.of_retains hty ha hretains).trans hw he 
        (.enter hw he₁ ⟨ty, provider, method, impl, slot⟩ ?_ ⟨?_, ?_, himpl⟩)
      · rw [hretains.table method trivial hty]
        exact Assoc.get?_eq_none_of_contains (Bool.not_eq_true' _ ▸ hnew)
      · exact ⟨t, List.mem_singleton_self t, ht.abides hw he ha⟩
      · exact ⟨all, ha.dispatchedMethods hw he hall, hslot⟩
    · rename_i hold
      rw [Bool.not_eq_true, Bool.not_eq_false'] at hold
      exact hnext (.refl w ty [t] e) (Option.isSome_iff_exists.1 hold)

theorem fills_enterProviders {ty : DeclId} {providers : List Ty} (he : e.Orderly w)
    (hty : ty.index < e.package.decls.size) (hproviders : ∀ t ∈ providers, t.Applies w.Names) :
    (enterProviders make fuel ty providers).Meets e
      (fun _ e' => Fills w ty providers e e' ∧ ∀ t ∈ providers, e'.Covers ty t) fun _ _ => True := by
  induction providers generalizing e with
  | nil => exact ⟨.refl w ty [] e, fun t ht => nomatch ht⟩
  | cons t rest ih =>
    rw [List.forall_mem_cons] at hproviders
    -- once the methods of the first have entries, the others get theirs
    have hnext : ∀ {e₁ : Engine}, Fills w ty [t] e e₁ → e₁.Covers ty t →
        (enterProviders make fuel ty rest).Meets e₁ (fun _ e' => Fills w ty (t :: rest) e e' ∧
          ∀ t' ∈ t :: rest, e'.Covers ty t') fun _ _ => True := by
      intro e₁ hf hc
      have he₁ := hf.abides.orderly hw he
      refine (ih he₁ (Nat.lt_of_lt_of_le hty (hf.abides.later hw he).decls_le) hproviders.2).mono ?_
        fun _ _ => id
      rintro - e₂ ⟨hf', hcovers⟩
      refine ⟨(hf.mono ?_).trans hw he (hf'.mono fun t ht => List.mem_cons_of_mem _ ht),
        List.forall_mem_cons.2 ⟨hc.fills hw he₁ hf', hcovers⟩⟩
      exact List.forall_mem_singleton.2 List.mem_cons_self
    refine meets_bind.2 (Meets.mono (adds_resolveTypeDecl hw hm hg hr he hproviders.1) ?_ fun _ _ => id)
    rintro found e₁ ⟨ha, hretains, hfound⟩
    have he₁ := ha.orderly hw he
    have hf₁ : Fills w ty [t] e e₁ := .of_retains hty ha hretains
    cases found with
    | none => exact hnext hf₁ ⟨none, hfound, nofun⟩
    | some d =>
      refine meets_bind.2 ?_
      have hread : (dispatchedMethods d).Meets e₁ (fun _ e₂ => e₂ = e₁) fun _ _ => True :=
        meets_bind.2 (meets_decl (fun _ _ => meets_query (fun _ _ => rfl) trivial) trivial)
      refine hread.result.mono ?_ fun _ _ => id
      rintro methods e₂ ⟨hmethods, rfl⟩
      refine meets_bind.2 ((fills_enterMethods hw hm hg hr he₁
        (Nat.lt_of_lt_of_le hty (ha.later hw he).decls_le) hfound hmethods rfl).mono ?_ fun _ _ => id)
      rintro - e₂ ⟨hf₂, hentries⟩
      refine hnext (hf₁.trans hw he hf₂) ⟨some d, hfound.abides hw he₁ hf₂.abides, ?_⟩
      intro d' hd'
      obtain rfl := Option.some.inj hd'
      exact ⟨methods, hf₂.abides.dispatchedMethods hw he₁ hmethods, hentries⟩

/-- A table that is built now has entries for all methods of the base types and interfaces. -/
theorem fills_buildDispatch {ty : DeclId} (he : e.Orderly w) (hnew : ty ∉ e.dispatch.built) :
    (buildDispatch make fuel ty).Meets e (fun table e' => ∃ supers interfaces e₁,
      e.superTypes fuel (.named ty []) = .ok supers ∧
      implementedInterfaces make fuel (.named ty []) e = .ok interfaces e₁ ∧
      table = e'.dispatch.ofType ty ∧ Fills w ty (supers ++ interfaces) e e' ∧
      ∀ t ∈ supers ++ interfaces, e'.Covers ty t) fun _ _ => True := by
  have hself : (Ty.named ty []).Applies w.Names := ⟨w.names_zero ty, trivial⟩
  refine meets_bind.2 (meets_requireDecl (fun hty => ?_) fun _ => trivial)
  refine meets_bind.2 (meets_get.2 ?_)
  rw [if_neg hnew]
  refine meets_bind.2 (meets_bind.2 (meets_get.2 (meets_ofExcept (fun supers hsupers => ?_)
    fun _ => trivial)))
  have happlies := he.applies_superTypes hself hsupers
  have hinterfaces : (implementedInterfaces make fuel (.named ty [])).Adds w e
      fun ts _ => ∀ t ∈ ts, t.Applies w.Names :=
    .of_works he (serves_implementedInterfaces hw hm hself e he)
      (keeps_implementedInterfaces Engine.passage_grows hg _)
      (keeps_implementedInterfaces (Engine.passage_retaining _) hr _)
  refine meets_bind.2 ((Meets.result hinterfaces).mono ?_ fun _ _ => id)
  rintro interfaces e₁ ⟨hrun, ha, hretains, hnames⟩
  have he₁ := ha.orderly hw he
  have hproviders : ∀ t ∈ supers ++ Engine.addNew supers interfaces, t.Applies w.Names :=
    List.forall_mem_append.2 ⟨happlies, fun t ht => hnames t (Engine.mem_of_mem_addNew ht)⟩
  refine meets_bind.2 ((fills_enterProviders hw hm hg hr he₁
    (Nat.lt_of_lt_of_le hty (ha.later hw he).decls_le) hproviders).mono ?_ fun _ _ => id)
  rintro - e₂ ⟨hf, hcovers⟩
  have hf' : Fills w ty (supers ++ interfaces) e e₂ := by
    refine (Fills.of_retains hty ha hretains).trans hw he (hf.mono fun t ht => ?_)
    exact (List.mem_append.1 ht).elim (List.mem_append_left _)
      fun h => List.mem_append_right _ (Engine.mem_of_mem_addNew h)
  have he₂ := hf'.abides.orderly hw he
  let built : DispatchTable := { e₂.dispatch with built := ty :: e₂.dispatch.built }
  have hbuilt : Fills w ty (supers ++ interfaces) e₂ { e₂ with dispatch := built } :=
    ⟨.of_dispatch w e₂ built, id, .inl⟩
  refine ⟨supers, interfaces, e₁, hsupers, hrun, rfl, hf'.trans hw he hbuilt, fun t ht => ?_⟩
  refine (hcovers t ?_).fills hw he₂ hbuilt
  rcases List.mem_append.1 ht with ht | ht
  · exact List.mem_append_left _ ht
  · exact List.mem_append.2 (Engine.mem_or_mem_addNew ht)

end Implementations

end Run

namespace Engine

/-- The declaration that a type stands for, as the engine answers. -/
def declOf (e : Engine) (t : Ty) : Except Failure (Option DeclId) :=
  (Run.request fun make _ => Run.resolveTypeDecl make t).outcome e

/-- What a type is known to stand for is what the engine answers. -/
theorem Designates.declOf_eq {w : Setting} {e : Engine} (he : e.Orderly w) {t : Ty}
    {found : Option DeclId} (hf : e.Designates t found) : e.declOf t = .ok found := by
  cases t with
  | named d args =>
    cases args with
    | nil =>
      obtain rfl : found = some d := hf
      rfl
    | cons arg args =>
      obtain ⟨decl, s, target, c, rfl, hd, hs, hn, hc⟩ := hf
      have hrun := Later.repeated he.settled (.refl he.settled) (.refl he.settled)
        (passage_grows.refl e he.settled.sound) (passage_grows.refl e he.settled.sound)
        (Package.lt_of_decl? hd) hn hc (Run.budget - 1)
      refine Run.outcome_eq_ok (Run.meets_bind.2 (Run.meets_decl_of_eq_some hd (Run.meets_bind.2 ?_)))
      rw [hs]
      refine Run.meets_bind.2 (hrun.mono ?_ ?_)
      · rintro d' e₁ ⟨rfl, -⟩
        rfl
      · rintro f e₁ ⟨-, b, -, -, ⟨decl', hd', hb⟩, -⟩
        rw [he.unbroken hd'] at hb
        cases hb
  | prim | param | tuple | func | invalid =>
    obtain rfl : found = none := hf
    rfl

/-- The dispatch table of a type, as the engine answers. -/
def tableOf (e : Engine) (ty : DeclId) : Except Failure (List DispatchEntry) :=
  (Run.request fun make fuel => Run.buildDispatch make fuel ty).outcome e

/-- In a package as the checker leaves it, a dispatch table that is built now is complete: a base type
or an interface that stands for a declaration stands for it afterwards too, and each of the methods of
the declaration has one entry. All entries, apart from those that an earlier attempt has left, belong to
such methods, tell their positions, and name functions that implement them. -/
theorem dispatch_complete {p : Package} (hp : (Setting.mk p false).Tidy) (config : Config)
    (access : AccessRule) {ops : List Operation} (hops : ∀ op ∈ ops, op.IsRequest) {e e' : Engine}
    {ty : DeclId} {table : List DispatchEntry}
    (he : e = (start p config access .reserved).afterAll ops) (hnew : ty ∉ e.dispatch.built)
    (hrun : (Run.request fun make fuel => Run.buildDispatch make fuel ty) e = .ok table e') :
    ∃ supers interfaces e₁, e.superTypes Run.budget (.named ty []) = .ok supers ∧
      (Run.request fun make fuel => Run.implementedInterfaces make fuel (.named ty [])) e =
        .ok interfaces e₁ ∧
      (∀ t ∈ supers ++ interfaces, ∃ found, e'.declOf t = .ok found ∧ ∀ d, found = some d →
        ∃ methods, Run.dispatchedMethods d e' = .ok methods e' ∧ ∀ m ∈ methods, ∃ entry,
          table.filter (fun entry => entry.abstractMethod = m) = [entry]) ∧
      ∀ entry ∈ table, entry ∈ e.dispatch.ofType ty ∨
        (∃ t ∈ supers ++ interfaces, e'.declOf t = .ok (some entry.interface)) ∧
        e'.Listed entry.interface entry.slot entry.abstractMethod ∧
        e'.Implemented entry.abstractMethod entry.implementation := by
  have happlies := Setting.applies_names ⟨p, false⟩ rfl
  have hstart := orderly_start hp config access
  have horderly : e.Orderly ⟨p, false⟩ :=
    he ▸ (evolves_afterAll hp hstart fun op hop =>
      Operation.serves_run hp (hops op hop) fun t _ => happlies t).orderly hp hstart
  have hm := Run.makes_instantiate hp Run.budget
  have hretaining := Run.retaining_instantiate
  obtain ⟨supers, interfaces, e₁, hsupers, hinterfaces, rfl, hf, hcovers⟩ :=
    (Run.fills_buildDispatch hp hm (Run.grows_instantiate _) (hretaining _ _) horderly hnew).of_ok hrun
  have horderly' := hf.abides.orderly hp horderly
  have hkeyed : e.dispatch.Keyed :=
    he ▸ (retains_afterAll hstart.settled hops).keyed fun key entry hk => nomatch hk
  have hkeyed' : e'.dispatch.Keyed :=
    ((Run.keeps_buildDispatch (passage_retaining _) tabular_retaining (hretaining _ _) ty).of_ok hrun
      horderly.settled).2.keyed hkeyed
  refine ⟨supers, interfaces, e₁, hsupers, hinterfaces, fun t ht => ?_, fun entry hentry => ?_⟩
  · obtain ⟨found, hfound, hmethods⟩ := hcovers t ht
    refine ⟨found, hfound.declOf_eq horderly', fun d hd => ?_⟩
    obtain ⟨methods, hread, hentries⟩ := hmethods d hd
    refine ⟨methods, hread, fun m hmem => ?_⟩
    obtain ⟨entry, hk⟩ := hentries m hmem
    exact ⟨entry, hkeyed'.filter_ofType hk⟩
  · obtain ⟨hty, hk⟩ := hkeyed'.mem_ofType_iff.1 hentry
    refine (hf.made hk).imp (fun hk => hkeyed.mem_ofType_iff.2 ⟨hty, hk⟩) fun hj => ?_
    obtain ⟨t, ht, hprovider⟩ := hj.provided
    exact ⟨⟨t, ht, hprovider.declOf_eq horderly'⟩, hj.listed, hj.implemented⟩

/-- A package with a generic class `N<U>` inside of a class, a generic interface with a method, and a
class that implements the interface for `N<Int64>`. -/
def nestedArgumentPackage : Package where
  name := "demo"
  decls := #[
    { name := "C", kind := .type .classKind [] [⟨1⟩], package := "demo" },
    { name := "N", kind := .type .classKind [] [], package := "demo", parent := some ⟨0⟩,
      typeParams := [{ id := ⟨⟨1⟩, 0⟩, name := "U" }] },
    { name := "I", kind := .interface [] [⟨3⟩], package := "demo",
      typeParams := [{ id := ⟨⟨2⟩, 0⟩, name := "T" }] },
    { name := "m", kind := .func [] .unit none, package := "demo", parent := some ⟨2⟩ },
    { name := "A", kind := .type .classKind [.named ⟨2⟩ [.named ⟨1⟩ [.prim .int64]]] [⟨5⟩],
      package := "demo" },
    { name := "m", kind := .func [] .unit (some ⟨0⟩), package := "demo", parent := some ⟨4⟩ }]
  exprs := #[{ kind := .lit (.int 0), ty := .prim .int64 }]
  topLevel := [⟨0⟩, ⟨2⟩, ⟨4⟩]

/-- When the package has been rearranged, the class says that it implements the interface for the
instance of `N`, whose canonical form is another one, and so it stands for another instance of the
interface. The table still has the entry for the old one and none for the method of the new one. -/
theorem table_outdated :
    let e := (start nestedArgumentPackage {} .visible .reserved).afterAll
      [.buildDispatch ⟨4⟩, .instantiatePackage]
    let key : InstanceKey := { template := ⟨2⟩, subst := .ofList [(⟨⟨2⟩, 0⟩, .named ⟨8⟩ [])] }
    e.superTypes Run.budget (.named ⟨4⟩ []) = .ok [.named ⟨2⟩ [.named ⟨8⟩ []]] ∧
      e.normalize? ⟨2⟩ key.subst = some (.instanceOf key) ∧ e.registry.lookup? key = some ⟨9⟩ ∧
      (Run.dispatchedMethods ⟨9⟩).outcome e = .ok [⟨10⟩] ∧
      e.tableOf ⟨4⟩ = .ok [
        { ty := ⟨4⟩, interface := ⟨6⟩, abstractMethod := ⟨7⟩, implementation := ⟨5⟩, slot := 0 }] := by
  decide +kernel

end Engine

end Monomorph
