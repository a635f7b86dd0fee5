import Monomorph.Proofs.Instances.Inheritance

/-!
# When the walk through base types ends

The walk through the base types of a type visits every one of them once, and it gives back a list that
is closed under base types. So it ends if and only if there are finitely many. Nothing in the shape of a
package sees to that: a class that lists itself with a larger argument has infinitely many base types, and
the walk runs out of any number of steps. In a package whose declarations list base types of lower rank
only, the walk comes to an end.

## Main definitions

* `Package.Grows`: a declaration lists itself with a larger argument.
* `Package.Ranked`: declarations list declarations of lower rank.

## Main results

* `Engine.Orderly.superTypes_ends_iff`: the walk ends where there are finitely many base types.
* `Engine.superTypes_endless`: the walk from a growing declaration does not end.
* `Engine.superTypes_ends`: the walk ends in ranked packages.
-/

namespace Monomorph

/-! ### Base types in a package -/

namespace Package

variable {p : Package} {d : DeclId} {t u : Ty}

/-- The declaration has one parameter and lists itself with an argument that is larger than what is put
in the place of the parameter. -/
def Grows (p : Package) (d : DeclId) : Prop :=
  p.TypeName d 1 ∧ ∃ decl s, p.decl? d = some decl ∧ .named d [s] ∈ decl.kind.supers ∧
    ∀ a : Ty, sizeOf a < sizeOf ((Engine.argSubst decl.ownParams [a]).apply s)

/-- Every declaration lists applications of declarations of lower rank. -/
def Ranked (p : Package) (rank : DeclId → Nat) : Prop :=
  ∀ d decl, p.decl? d = some decl → ∀ s ∈ decl.kind.supers, ∃ c args, s = .named c args ∧ rank c < rank d

/-- What grows, grows beyond every bound. -/
theorem Grows.exists_large (h : p.Grows d) (a : Ty) (n : Nat) :
    ∃ b, n ≤ sizeOf b ∧ Relation.TransGen p.Extends (.named d [a]) (.named d [b]) := by
  obtain ⟨hname, decl, s, hd, hs, hlarge⟩ := h
  have hstep : ∀ b, p.Extends (.named d [b])
      ((Engine.argSubst decl.ownParams [b]).apply (.named d [s])) :=
    fun _ => .base hd hname hs
  induction n with
  | zero => exact ⟨_, Nat.zero_le _, .single (hstep a)⟩
  | succ n ih =>
    obtain ⟨b, hb, hway⟩ := ih
    exact ⟨_, Nat.succ_le_of_lt (Nat.lt_of_le_of_lt hb (hlarge b)), hway.tail (hstep b)⟩

/-- A growing declaration has infinitely many base types. -/
theorem Grows.infinite (h : p.Grows d) (a : Ty) :
    {u | Relation.TransGen p.Extends (.named d [a]) u}.Infinite := by
  intro hfinite
  obtain ⟨m, hm⟩ := (hfinite.image sizeOf).bddAbove
  obtain ⟨b, hb, hway⟩ := h.exists_large a m
  have hle := hm ⟨_, hway, rfl⟩
  simp only [Ty.named.sizeOf_spec, List.cons.sizeOf_spec, List.nil.sizeOf_spec] at hle
  omega

/-- A type lists finitely many base types. -/
theorem finite_extends (p : Package) (t : Ty) : {u | p.Extends t u}.Finite := by
  cases t with
  | named d args =>
    cases hd : p.decl? d with
    | none =>
      refine Set.finite_empty.subset ?_
      rintro _ ⟨hd', -, -⟩
      rw [hd] at hd'
      cases hd'
    | some decl =>
      refine (decl.kind.supers.map (Engine.argSubst decl.ownParams args).apply).finite_toSet.subset ?_
      rintro _ ⟨hd', -, hsup⟩
      obtain rfl := Option.some.inj (hd.symm.trans hd')
      exact List.mem_map_of_mem hsup
  | prim | param | tuple | func | invalid => exact Set.finite_empty.subset nofun

/-- What a type inherits is what it lists and what that inherits. -/
theorem finite_of_forall_extends (h : ∀ u, p.Extends t u →
    {v | Relation.TransGen p.Extends u v}.Finite) : {v | Relation.TransGen p.Extends t v}.Finite := by
  refine ((p.finite_extends t).biUnion fun u hu => (h u hu).insert u).subset fun v hv => ?_
  obtain ⟨u, hu, hway⟩ := Relation.TransGen.head'_iff.1 hv
  refine Set.mem_biUnion hu ?_
  rcases Relation.reflTransGen_iff_eq_or_transGen.1 hway with rfl | hway
  · exact .inl rfl
  · exact .inr hway

/-- In a ranked package there are finitely many base types. -/
theorem Ranked.finite {rank : DeclId → Nat} (h : p.Ranked rank) (t : Ty) :
    {u | Relation.TransGen p.Extends t u}.Finite := by
  have hnamed : ∀ n d args, rank d < n →
      {u | Relation.TransGen p.Extends (.named d args) u}.Finite := by
    intro n
    induction n with
    | zero => exact fun _ _ hn => absurd hn (Nat.not_lt_zero _)
    | succ n ih =>
      intro d args hn
      refine finite_of_forall_extends ?_
      rintro _ ⟨hd, -, hsup⟩
      obtain ⟨c, args', rfl, hlt⟩ := h d _ hd _ hsup
      exact ih c _ (by omega)
  cases t with
  | named d args => exact hnamed _ d args (Nat.lt_succ_self _)
  | prim | param | tuple | func | invalid => exact finite_of_forall_extends nofun

end Package

namespace Engine

variable {w : Setting} {p : Package} {e : Engine} {t u : Ty}

/-! ### What the walk gives back -/

/-- The types that the walk gives back are closed under base types, if this holds of what is found
before, apart from the types that are still to be visited. -/
theorem closed_of_superTypesFrom {n : Nat} {queue found out : List Ty}
    (h : e.superTypesFrom n queue found = .ok out)
    (hfound : ∀ u ∈ found, u ∈ queue ∨ ∀ v, e.Derives u v → v ∈ found) :
    (∀ u ∈ found, u ∈ out) ∧ (∀ u ∈ queue, ∀ v, e.Derives u v → v ∈ out) ∧
      ∀ u ∈ out, ∀ v, e.Derives u v → v ∈ out := by
  induction n generalizing queue found with
  | zero =>
    cases queue with
    | nil =>
      obtain rfl := Except.ok.inj h
      exact ⟨fun _ => id, nofun, fun u hu => (hfound u hu).resolve_left List.not_mem_nil⟩
    | cons => cases h
  | succ n ih =>
    cases queue with
    | nil =>
      obtain rfl := Except.ok.inj h
      exact ⟨fun _ => id, nofun, fun u hu => (hfound u hu).resolve_left List.not_mem_nil⟩
    | cons t queue =>
      rw [superTypesFrom] at h
      cases hsupers : e.directSupers t with
      | error => rw [hsupers] at h; cases h
      | ok supers =>
        rw [hsupers] at h
        have hvisited : ∀ v, e.Derives t v → v ∈ found ++ addNew found supers := fun v hv =>
          mem_append_addNew.2 (.inr ((derives_iff hsupers).1 hv))
        -- The visited type leaves the queue and has its base types among what is found.
        obtain ⟨hmem, hqueue, hclosed⟩ := ih h fun u hu => by
          rcases List.mem_append.1 hu with hu | hu
          · rcases hfound u hu with hu | hu
            · rcases List.mem_cons.1 hu with rfl | hu
              · exact .inr hvisited
              · exact .inl (List.mem_append_left _ hu)
            · exact .inr fun v hv => List.mem_append_left _ (hu v hv)
          · exact .inl (List.mem_append_right _ hu)
        refine ⟨fun u hu => hmem u (List.mem_append_left _ hu), fun u hu v hv => ?_, hclosed⟩
        rcases List.mem_cons.1 hu with rfl | hu
        · exact hmem v (hvisited v hv)
        · exact hqueue u (List.mem_append_left _ hu) v hv

/-- When the walk ends, all base types have been found. -/
theorem mem_of_superTypes_ok {fuel : Nat} {supers : List Ty} (h : e.superTypes fuel t = .ok supers)
    (hu : Relation.TransGen e.Derives (e.canonical t) u) : u ∈ supers := by
  obtain ⟨-, hstart, hclosed⟩ := closed_of_superTypesFrom h (List.forall_mem_nil _)
  induction hu with
  | single hv => exact hstart _ (List.mem_singleton_self _) _ hv
  | tail _ hv ih => exact hclosed _ ih _ hv

/-- The walk through types of the arena ends or runs out of steps. -/
theorem Orderly.superTypesFrom_cases (he : e.Orderly w) {n : Nat} {queue found : List Ty}
    (hqueue : ∀ u ∈ queue, u.Handles fun d => d.index < e.package.decls.size) :
    (∃ out, e.superTypesFrom n queue found = .ok out) ∨
      e.superTypesFrom n queue found = .error .outOfFuel := by
  induction n generalizing queue found with
  | zero =>
    cases queue with
    | nil => exact .inl ⟨found, rfl⟩
    | cons => exact .inr rfl
  | succ n ih =>
    cases queue with
    | nil => exact .inl ⟨found, rfl⟩
    | cons t queue =>
      obtain ⟨supers, hsupers, hall⟩ := he.exists_directSupers (hqueue t List.mem_cons_self)
      rw [superTypesFrom, hsupers]
      refine ih fun u hu => ?_
      rcases List.mem_append.1 hu with hu | hu
      · exact hqueue u (List.mem_cons_of_mem _ hu)
      · exact hall u (mem_of_mem_addNew hu)

/-! ### When it ends -/

section Ends

variable (he : e.Orderly w) (ht : t.Handles fun d => d.index < e.package.decls.size)
include he ht

/-- The walk ends if and only if there are finitely many base types. -/
theorem Orderly.superTypes_ends_iff : (∃ fuel supers, e.superTypes fuel t = .ok supers) ↔
    {u | Relation.TransGen e.Derives (e.canonical t) u}.Finite := by
  constructor
  · rintro ⟨fuel, supers, h⟩
    exact supers.finite_toSet.subset fun u hu => mem_of_superTypes_ok h hu
  · intro hfinite
    obtain ⟨supers, -, hrun⟩ := he.exists_superTypes ht hfinite
    exact ⟨supers.length + 1, supers, hrun _ (Nat.lt_succ_self _)⟩

/-- Otherwise it runs out of any number of steps. -/
theorem Orderly.superTypes_outOfFuel
    (hinfinite : {u | Relation.TransGen e.Derives (e.canonical t) u}.Infinite) (fuel : Nat) :
    e.superTypes fuel t = .error .outOfFuel := by
  have hqueue : ∀ u ∈ [e.canonical t], u.Handles fun d => d.index < e.package.decls.size :=
    List.forall_mem_singleton.2 (he.settled.handles_canonical ht)
  refine (he.superTypesFrom_cases hqueue).resolve_left fun ⟨supers, h⟩ => hinfinite ?_
  exact (he.superTypes_ends_iff ht).1 ⟨fuel, supers, h⟩

end Ends

section Runs

variable (hp : p.WellFormed) (config : Config) (access : AccessRule) {ops : List Operation}
  (hops : ∀ op ∈ ops, op.IsRequest) (he : e = (start p config access .reserved).afterAll ops)
include hp hops he

/-- In every state that requests lead to, the walk from a growing declaration runs out of any number of
steps. -/
theorem superTypes_endless {d : DeclId} (hgrows : p.Grows d) {a : Ty} (ha : a.Applies p.TypeName)
    (fuel : Nat) : Run.superTypes fuel (.named d [a]) e = .error .outOfFuel e := by
  have hw := hp.tidy false
  have hstart := orderly_start hw config access
  obtain ⟨hevolves, horderly⟩ := evolves_requests hw config access hops he
  have hconserves : Conserves ⟨p, false⟩ e :=
    hevolves.conserves hw hstart (conserves_start hp config access)
  have hname : (Ty.named d [a]).Applies p.TypeName := ⟨hgrows.1, ha, trivial⟩
  have horiginal : (Ty.named d [a]).Handles fun c => c.index < p.decls.size :=
    hname.handles fun _ _ hd => Package.lt_of_topType hd.topType
  have hcanonical : e.canonical (.named d [a]) = .named d [a] :=
    horderly.canonical_of_originals horiginal
  have hinfinite : {u | Relation.TransGen e.Derives (e.canonical (.named d [a])) u}.Infinite := by
    rw [hcanonical]
    refine (hgrows.infinite a).mono fun u hu => ?_
    exact (horderly.transGen_derives_iff (w := ⟨p, false⟩) hp hconserves hname u).2 hu
  have hrun := horderly.superTypes_outOfFuel
    (horiginal.mono fun _ hlt => Nat.lt_of_lt_of_le hlt horderly.rooted.underlies.decls_le) hinfinite fuel
  change Run.ofExcept (e.superTypes fuel (.named d [a])) e = _
  rw [hrun]
  rfl

/-- In every state that requests lead to, the walk from a type of a ranked package ends. -/
theorem superTypes_ends {rank : DeclId → Nat} (hrank : p.Ranked rank) {t : Ty}
    (ht : t.Handles fun d => d.index < e.package.decls.size)
    (hname : (e.canonical t).Applies p.TypeName) :
    ∃ supers, ∀ fuel, supers.length < fuel → Run.superTypes fuel t e = .ok supers e := by
  obtain ⟨supers, -, hrun, -⟩ :=
    superTypes_collects_package hp config access hops he ht hname (hrank.finite _)
  exact ⟨supers, hrun⟩

end Runs

/-- A package with classes `Left<T>` and `Right<T>` and a class `Grow<T>` that inherits from
`Grow<Left<T>>` and from `Grow<Right<T>>`. -/
def growPackage : Package where
  name := "demo"
  decls := #[
    { name := "Left", kind := .type .classKind [] [], package := "demo",
      typeParams := [{ id := ⟨⟨0⟩, 0⟩, name := "T" }] },
    { name := "Right", kind := .type .classKind [] [], package := "demo",
      typeParams := [{ id := ⟨⟨1⟩, 0⟩, name := "T" }] },
    { name := "Grow", kind := .type .classKind [.named ⟨2⟩ [.named ⟨0⟩ [.param ⟨⟨2⟩, 0⟩]],
        .named ⟨2⟩ [.named ⟨1⟩ [.param ⟨⟨2⟩, 0⟩]]] [], package := "demo",
      typeParams := [{ id := ⟨⟨2⟩, 0⟩, name := "T" }] }]
  topLevel := [⟨0⟩, ⟨1⟩, ⟨2⟩]

/-- The package is well-formed, and the walk through the base types of `Grow<Int64>` runs out of any
number of steps. -/
theorem superTypes_endless_grow : growPackage.WellFormed ∧ growPackage.Grows ⟨2⟩ ∧
    ∀ fuel, Run.superTypes fuel (.named ⟨2⟩ [.prim .int64])
        (start growPackage {} .visible .reserved) =
      .error .outOfFuel (start growPackage {} .visible .reserved) := by
  have hp : growPackage.WellFormed := by decide +kernel
  have hgrows : growPackage.Grows ⟨2⟩ := by
    refine ⟨by decide +kernel, _, .named ⟨0⟩ [.param ⟨⟨2⟩, 0⟩], rfl, List.mem_cons_self, fun a => ?_⟩
    have happly : (argSubst [⟨⟨2⟩, 0⟩] [a]).apply (.named ⟨0⟩ [.param ⟨⟨2⟩, 0⟩]) = .named ⟨0⟩ [a] := rfl
    change _ < sizeOf ((argSubst [⟨⟨2⟩, 0⟩] [a]).apply (.named ⟨0⟩ [.param ⟨⟨2⟩, 0⟩]))
    rw [happly]
    simp only [Ty.named.sizeOf_spec, List.cons.sizeOf_spec, List.nil.sizeOf_spec]
    omega
  have hops : ∀ op ∈ ([] : List Operation), op.IsRequest := nofun
  have hint : (Ty.prim .int64).Applies growPackage.TypeName := trivial
  exact ⟨hp, hgrows, superTypes_endless hp {} .visible hops rfl hgrows hint⟩

end Engine

end Monomorph
