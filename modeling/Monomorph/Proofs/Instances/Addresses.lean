import Monomorph.Proofs.Instances.ReadOnly
import Monomorph.Proofs.Package.Paths

/-!
# Paths last

Templates and plain code stay in their places and keep their names, whatever is asked of an engine, and
instances are listed nowhere. So the paths of a package and the index of these paths are the same in
all states that can be reached without restoring instances, and what a later build looks up by a path is
the declaration that the path was written down for.

## Main definitions

* `Decl.title`: what a declaration is called.
* `Engine.Titled`: a state that has sprung from a package and calls its declarations as it does.

## Main results

* `Engine.titled_afterAll`: all states that can be reached without restoring call declarations alike.
* `Engine.Titled.samePlaces`: these states have the declarations in their places.
* `Engine.stablePath_identifies`: a path tells its declaration, in the package and ever after.
-/

namespace Monomorph

/-- What a declaration is called: its name and that of its package. -/
def Decl.title (decl : Decl) : String × String := (decl.name, decl.package)

namespace Package

variable {p q : Package}

/-- The children of a declaration are the same as long as skeletons are. -/
theorem Underlies.children?_eq (h : p.Underlies q) {d : DeclId} {children : List DeclId}
    (hch : p.children? d = some children) : q.children? d = some children := by
  obtain ⟨decl, code, locals, hd, hcode, -, -⟩ := children?_eq_some hch
  obtain ⟨decl', hd', ho⟩ := h.decl hd
  refine (children?_congr hd hd' (Decl.skeleton_eq_of_outline ho) hcode hch (fun x _ expr hx => ?_)
    h.exprs_le).2
  obtain ⟨expr', hx', hs⟩ := h.expr hx
  exact ⟨expr', hx', congrArg Expr.kind hs⟩

end Package

namespace Engine

variable {p : Package} {e e' : Engine}

/-- A state that has sprung from the package `p` and in which its declarations are called as there. -/
structure Titled (p : Package) (e : Engine) : Prop extends Sprung p e where
  title : ∀ {d decl}, p.decl? d = some decl →
    ∃ decl', e.package.decl? d = some decl' ∧ decl'.title = decl.title

namespace Titled

theorem start (p : Package) (config : Config) (access : AccessRule) (placement : RootPlacement) :
    (start p config access placement).Titled p :=
  ⟨.start p config access placement, fun hd => ⟨_, hd, rfl⟩⟩

/-- The originals may be changed in everything but what they are called. -/
theorem of_title (h : e.Titled p) (hs : e'.Sprung p)
    (ht : ∀ {d decl}, d.index < p.decls.size → e.package.decl? d = some decl →
      ∃ decl', e'.package.decl? d = some decl' ∧ decl'.title = decl.title) : e'.Titled p := by
  refine ⟨hs, fun {d decl} hd => ?_⟩
  obtain ⟨decl', hd', ht'⟩ := h.title hd
  obtain ⟨decl'', hd'', ht''⟩ := ht (Package.lt_of_decl? hd) hd'
  exact ⟨decl'', hd'', ht''.trans ht'⟩

theorem setDecl (h : e.Titled p) {d : DeclId} {decl decl' : Decl} (hd : e.package.decl? d = some decl)
    (ht : decl'.title = decl.title)
    (hs : Sprung p { e with package := e.package.setDecl d decl' }) :
    Titled p { e with package := e.package.setDecl d decl' } := by
  refine h.of_title hs fun {c declC} _ hc => ?_
  by_cases hcd : c = d
  · subst hcd
    obtain rfl := Option.some.inj (hd.symm.trans hc)
    exact ⟨decl', Package.decl?_setDecl_self (Package.lt_of_decl? hd) _, ht⟩
  · exact ⟨declC, (Package.decl?_setDecl_of_ne hcd _).trans hc, rfl⟩

/-- What is called the same and stands in the same place. -/
theorem samePlaces (h : e.Titled p) : p.SamePlaces e.package where
  decls_le := h.underlies.decls_le
  topLevel := h.topLevel
  decl {d decl} hd := by
    obtain ⟨decl', hd', ht⟩ := h.title hd
    obtain ⟨decl'', hd'', ho⟩ := h.underlies.decl hd
    obtain rfl := Option.some.inj (hd'.symm.trans hd'')
    exact ⟨decl', hd', congrArg Prod.fst ht, congrArg Prod.snd ht,
      Decl.parent_eq_of_outline ho⟩
  children := h.underlies.children?_eq

end Titled

/-! ### What keeps the titles -/

/-- A passage between states in which the declarations of the package are called alike. -/
def KeepsTitles (p : Package) (e e' : Engine) : Prop := e.Titled p → e'.Titled p

theorem KeepsTitles.of_frames (h : Frames e e') : KeepsTitles p e e' := fun ht => by
  obtain ⟨hs, W, hg⟩ := h ht.sound
  refine ht.of_title (ht.toSprung.of_grafts hs hg) fun {d decl} hlt hd => ⟨decl, ?_, rfl⟩
  exact (hg.package.decl (Package.lt_of_decl? hd) (ht.not_vacated hlt)).trans hd

theorem KeepsTitles.of_alike (ha : Alike e e') : KeepsTitles p e e' :=
  .of_frames (.of_alike ha)

theorem rewriting_keepsTitles (p : Package) : Rewriting (KeepsTitles p) where
  toPassage := .of_trans (fun h h' ht => h' (h ht)) KeepsTitles.of_alike
  retype hS h hd hd' hk ht :=
    (h ht).setDecl hd' rfl
      ((rewriting_springs p).retype hS (fun _ => (h ht).toSprung) hd hd' hk ht.toSprung)
  reexpress hS h hx hk ht :=
    (h ht).of_title ((rewriting_springs p).reexpress hS (fun _ => (h ht).toSprung) hx hk ht.toSprung)
      fun _ hd => ⟨_, hd, rfl⟩
  flag hS hd ht := ht.setDecl hd rfl ((rewriting_springs p).flag hS hd ht.toSprung)
  annotate notes hS hd ht := ht.setDecl hd rfl ((rewriting_springs p).annotate notes hS hd ht.toSprung)

theorem keepsTitles_instantiate (p : Package) (n : Nat) (d : DeclId) (s : Subst) :
    Run.Keeps (KeepsTitles p) (Run.instantiate n d s) := fun e =>
  (Run.frames_instantiate n d s e).mono (fun _ _ => .of_frames) fun _ _ => .of_frames

theorem keepsTitles_invalidate (p : Package) (inst : DeclId) :
    Run.Keeps (KeepsTitles p) (Run.invalidate inst) := by
  intro e
  have hkeeps : ∀ {e'}, Springs p e e' → e'.package = e.package → KeepsTitles p e e' := fun hs hp ht =>
    ht.of_title (hs ht.toSprung) fun _ hd => ⟨_, by rw [hp, hd], rfl⟩
  exact ((springs_invalidate p inst e).and (package_invalidate inst e)).mono
    (fun _ _ h => hkeeps h.1 h.2) fun _ _ h => hkeeps h.1 h.2

theorem keepsTitles_run (p : Package) {op : Operation} (hop : ¬ op.Restores) :
    Run.Keeps (KeepsTitles p) op.run := by
  by_cases hrequest : op.IsRequest
  · exact Operation.keeps_run (rewriting_keepsTitles p)
      (.of_trans (rewriting_keepsTitles p).trans KeepsTitles.of_alike)
      (keepsTitles_instantiate p Run.budget) hrequest
  · cases op with
    | invalidate inst => exact .discard (keepsTitles_invalidate p inst)
    | restore => exact absurd trivial hop
    | _ => exact absurd trivial hrequest

/-- All states that can be reached without restoring instances call the declarations alike. -/
theorem titled_afterAll (h : e.Titled p) {ops : List Operation} (hops : ∀ op ∈ ops, ¬ op.Restores) :
    (e.afterAll ops).Titled p :=
  rel_afterAll (rewriting_keepsTitles p).toPassage (fun op hop => keepsTitles_run p (hops op hop)) e h

/-! ### Paths -/

/-- In a package in which every declaration below the top level has one place, and in whose names no
separator occurs, every such declaration has a path, different ones have different paths, and the index
maps the paths of these declarations to them and has nothing else. The paths and the index stay the same,
whatever is asked for and whatever comes of it, unless instances are restored. -/
theorem stablePath_identifies (hp : p.Planted) (hn : p.PlainNames) :
    (∀ d, p.Reachable d → ∃ path, p.stablePath? d = some path) ∧
    (∀ d d' path, p.Reachable d → p.Reachable d' → p.stablePath? d = some path →
      p.stablePath? d' = some path → d = d') ∧
    ∃ index, p.pathIndex? = some index ∧
      (∀ path d, index.get? path = some d ↔ p.Reachable d ∧ p.stablePath? d = some path) ∧
      ∀ config access placement ops, (∀ op ∈ ops, ¬ op.Restores) →
        let e := (start p config access placement).afterAll ops
        e.package.pathIndex? = some index ∧
          ∀ d path, p.stablePath? d = some path → e.package.stablePath? d = some path := by
  obtain ⟨index, hindex, hget⟩ := hp.exists_pathIndex? hn
  refine ⟨fun d hr => hp.exists_stablePath? hr, fun d d' path hr hr' h h' => ?_,
    index, hindex, hget, fun config access placement ops hops => ?_⟩
  · exact hp.stablePathWithin_inj hn hr hr' h h'
  · have ht := titled_afterAll (.start p config access placement) hops
    exact ⟨ht.samePlaces.pathIndex?_eq hindex, fun d path => ht.samePlaces.stablePath?_eq⟩

/-- A package with a class `Box<T>`, two methods `get`, of which the first has a parameter and a local
variable of one name, and two extensions, which have no names of their own; the second one has a method
`get` as well. -/
def overloadPackage : Package where
  name := "demo"
  decls := #[
    { name := "Box", kind := .type .classKind [] [⟨1⟩, ⟨2⟩], package := "demo",
      typeParams := [{ id := ⟨⟨0⟩, 0⟩, name := "T" }] },
    { name := "get", kind := .func [⟨3⟩] .unit (some ⟨0⟩), package := "demo", parent := some ⟨0⟩ },
    { name := "get", kind := .func [] .unit none, package := "demo", parent := some ⟨0⟩ },
    { name := "value", kind := .var .param (.param ⟨⟨0⟩, 0⟩) none, package := "demo",
      parent := some ⟨1⟩ },
    { name := "value", kind := .var .local (.prim .int64) none, package := "demo",
      parent := some ⟨1⟩ },
    { name := "extend", kind := .extension .unit [] [] [], package := "demo" },
    { name := "extend", kind := .extension .unit [] [] [⟨7⟩], package := "demo" },
    { name := "get", kind := .func [] .unit none, package := "demo", parent := some ⟨6⟩ }]
  exprs := #[{ kind := .block [⟨1⟩], ty := .unit }, { kind := .letVar ⟨4⟩, ty := .unit }]
  topLevel := [⟨0⟩, ⟨5⟩, ⟨6⟩]

/-- The local variable of the first `get` and the `get` of the second extension are found by their paths
in the package, and so they are after `Box<Int64>` has been made and the package has been rearranged. -/
theorem stablePath_identifies_overloads :
    let e := (start overloadPackage {} .visible .reserved).afterAll
      [.instantiate ⟨0⟩ boxSubst, .instantiatePackage]
    overloadPackage.Planted ∧ overloadPackage.PlainNames ∧ e.package.decls.size = 13 ∧
      overloadPackage.Reachable ⟨4⟩ ∧ overloadPackage.Reachable ⟨7⟩ ∧
      ∃ index, overloadPackage.pathIndex? = some index ∧ e.package.pathIndex? = some index ∧
        index.get? "demo::Box::get::value#1" = some ⟨4⟩ ∧
        index.get? "demo::extend#1::get" = some ⟨7⟩ := by
  have hp : overloadPackage.Planted :=
    Package.Forest.planted (by decide +kernel) (by decide) (by decide)
  have hn : overloadPackage.PlainNames := by decide +kernel
  have hmembers : overloadPackage.children? ⟨0⟩ = some [⟨1⟩, ⟨2⟩] := by decide +kernel
  have hlocals : overloadPackage.children? ⟨1⟩ = some [⟨3⟩, ⟨4⟩] := by decide +kernel
  have hmethods : overloadPackage.children? ⟨6⟩ = some [⟨7⟩] := by decide +kernel
  have hget : overloadPackage.Reachable ⟨1⟩ := .child (.top (by decide)) hmembers (by decide)
  have hvalue : overloadPackage.Reachable ⟨4⟩ := .child hget hlocals (by decide)
  have hother : overloadPackage.Reachable ⟨7⟩ := .child (.top (by decide)) hmethods (by decide)
  have hops : ∀ op ∈ [Operation.instantiate ⟨0⟩ boxSubst, .instantiatePackage], ¬ op.Restores := by
    simp [Operation.Restores]
  obtain ⟨-, -, index, hindex, hmem, hlater⟩ := stablePath_identifies hp hn
  exact ⟨hp, hn, by decide +kernel, hvalue, hother, index, hindex,
    (hlater {} .visible .reserved _ hops).1, (hmem _ _).2 ⟨hvalue, by decide +kernel⟩,
    (hmem _ _).2 ⟨hother, by decide +kernel⟩⟩

end Engine

end Monomorph
