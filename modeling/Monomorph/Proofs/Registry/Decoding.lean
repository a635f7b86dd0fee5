import Mathlib
import Monomorph.Engine.Restore
import Monomorph.Proofs.Package.Slots
import Monomorph.Proofs.Run.Operations

/-!
# Archived handles read back

The handles of an archived node are positions in its subtree or symbols. A strict reading fails at a
handle that stands for nothing, a lenient one keeps it. Where the strict reading succeeds the two
agree, and the node that is read mentions slots of the arenas only. Plans are written with the
lenient reading, so what an archive leaves undefined gets into the arenas as it stands.

## Main definitions

* `Relabeling.within`: accepts the handles of arenas of given sizes.
* `Package.Contained`: no slot mentions a handle outside of the arenas.
* `ArchivedInstance.Decodable`: all handles of an entry stand for something.

## Main results

* `Decoder.relabel_decl`, `Decoder.relabel_expr`: the two readings of a node that can be decoded.
* `Run.contained_restorePlans`: decodable entries leave no handle outside of the arenas.
* `Engine.stray_reference_restored`: an entry that is not decodable is restored nevertheless.
-/

namespace Monomorph

/-! ### Carrying nodes along -/

/-- Wherever `f` has a value, `g` has the same and `h` accepts it. -/
def Lands {α : Type} (f : α → Option α) (g : α → Id α) (h : α → Option α) : Prop :=
  ∀ ⦃a b⦄, f a = some b → g a = b ∧ h b = some b

namespace Relabeling

/-- Accepts the handles of arenas of given sizes. -/
def within (decls exprs : Nat) : Relabeling Option :=
  .uniform (fun d => if d.index < decls then some d else none)
    (fun x => if x.index < exprs then some x else none)
    fun p => if p.owner.index < decls then some p else none

/-- Wherever `r` gives a handle, `s` gives the same and `t` accepts it. -/
structure Leads (r : Relabeling Option) (s : Relabeling Id) (t : Relabeling Option) : Prop where
  decl : Lands r.decl s.decl t.decl
  expr : Lands r.expr s.expr t.expr
  param : Lands r.param s.param t.param
  reference : Lands r.reference s.reference t.reference

end Relabeling

section Lands

variable {α : Type} {f h : α → Option α} {g : α → Id α}

theorem Lands.list (hl : Lands f g h) : Lands (List.mapM f) (List.mapM g) (List.mapM h) := by
  intro xs
  induction xs with
  | nil =>
    intro ys hys
    obtain rfl := Option.some.inj hys
    exact ⟨rfl, rfl⟩
  | cons x xs ih =>
    intro ys hys
    rw [List.mapM_cons] at hys
    obtain ⟨y, hy, hys⟩ := Option.bind_eq_some_iff.1 hys
    obtain ⟨ys, hrest, hys⟩ := Option.bind_eq_some_iff.1 hys
    obtain rfl := Option.some.inj hys
    obtain ⟨hg, hh⟩ := hl hy
    obtain ⟨hgs, hhs⟩ := ih hrest
    rw [List.mapM_cons, List.mapM_cons, hg, hh, hgs, hhs]
    exact ⟨rfl, rfl⟩

theorem Lands.option (hl : Lands f g h) : Lands (Option.mapM f) (Option.mapM g) (Option.mapM h) := by
  intro o b hb
  cases o with
  | none =>
    obtain rfl := Option.some.inj hb
    exact ⟨rfl, rfl⟩
  | some a =>
    change (f a).map some = some b at hb
    obtain ⟨a', ha, rfl⟩ := Option.map_eq_some_iff.1 hb
    obtain ⟨hg, hh⟩ := hl ha
    refine ⟨congrArg some hg, ?_⟩
    change (h a').map some = some (some a')
    rw [hh, Option.map_some]

end Lands

variable {r t : Relabeling Option} {s : Relabeling Id}

namespace Ty

mutual

theorem lands_relabel (hr : r.Leads s t) : ∀ ⦃a b : Ty⦄, a.relabel r = some b →
    a.relabel s = b ∧ b.relabel t = some b
  | .prim _, b, h | .invalid, b, h => by
    obtain rfl := Option.some.inj h
    exact ⟨rfl, rfl⟩
  | .param p, b, h => by
    obtain ⟨q, hq, h⟩ := Option.bind_eq_some_iff.1 h
    obtain rfl := Option.some.inj h
    obtain ⟨hs, ht⟩ := hr.param hq
    exact ⟨congrArg Ty.param hs, by rw [relabel, ht]; rfl⟩
  | .tuple items, b, h => by
    rw [relabel] at h
    obtain ⟨items', hi, h⟩ := Option.bind_eq_some_iff.1 h
    obtain rfl := Option.some.inj h
    obtain ⟨hs, ht⟩ := lands_relabelAll hr hi
    rw [relabel, relabel, hs, ht]
    exact ⟨rfl, rfl⟩
  | .func params ret, b, h => by
    rw [relabel] at h
    obtain ⟨params', hp, h⟩ := Option.bind_eq_some_iff.1 h
    obtain ⟨ret', hret, h⟩ := Option.bind_eq_some_iff.1 h
    obtain rfl := Option.some.inj h
    obtain ⟨hs, ht⟩ := lands_relabelAll hr hp
    obtain ⟨hs', ht'⟩ := lands_relabel hr hret
    rw [relabel, relabel, hs, ht, hs', ht']
    exact ⟨rfl, rfl⟩
  | .named d args, b, h => by
    rw [relabel] at h
    obtain ⟨d', hd, h⟩ := Option.bind_eq_some_iff.1 h
    obtain ⟨args', ha, h⟩ := Option.bind_eq_some_iff.1 h
    obtain rfl := Option.some.inj h
    obtain ⟨hs, ht⟩ := hr.reference hd
    obtain ⟨hs', ht'⟩ := lands_relabelAll hr ha
    rw [relabel, relabel, hs, ht, hs', ht']
    exact ⟨rfl, rfl⟩

theorem lands_relabelAll (hr : r.Leads s t) : ∀ ⦃as bs : List Ty⦄, relabelAll r as = some bs →
    relabelAll s as = bs ∧ relabelAll t bs = some bs
  | [], bs, h => by
    obtain rfl := Option.some.inj h
    exact ⟨rfl, rfl⟩
  | a :: as, bs, h => by
    rw [relabelAll] at h
    obtain ⟨b, hb, h⟩ := Option.bind_eq_some_iff.1 h
    obtain ⟨bs', hbs, h⟩ := Option.bind_eq_some_iff.1 h
    obtain rfl := Option.some.inj h
    obtain ⟨hs, ht⟩ := lands_relabel hr hb
    obtain ⟨hs', ht'⟩ := lands_relabelAll hr hbs
    rw [relabelAll, relabelAll, hs, ht, hs', ht']
    exact ⟨rfl, rfl⟩

end

end Ty

namespace DeclKind

theorem lands_relabelBound (hr : r.Leads s t) :
    Lands (relabelBound r) (relabelBound s) (relabelBound t) := by
  intro b b' h
  obtain ⟨p, hp, h⟩ := Option.bind_eq_some_iff.1 h
  obtain ⟨i, hi, h⟩ := Option.bind_eq_some_iff.1 h
  obtain rfl := Option.some.inj h
  obtain ⟨hs, ht⟩ := hr.param hp
  obtain ⟨hs', ht'⟩ := Ty.lands_relabel hr hi
  rw [relabelBound, relabelBound, hs, ht, hs', ht']
  exact ⟨rfl, rfl⟩

theorem lands_relabel (hr : r.Leads s t) : Lands (relabel r) (relabel s) (relabel t) := by
  intro k k' h
  cases k with
  | func params ret body =>
    obtain ⟨params', hp, h⟩ := Option.bind_eq_some_iff.1 h
    obtain ⟨ret', hret, h⟩ := Option.bind_eq_some_iff.1 h
    obtain ⟨body', hbody, h⟩ := Option.bind_eq_some_iff.1 h
    obtain rfl := Option.some.inj h
    obtain ⟨h₁, h₁'⟩ := hr.decl.list hp
    obtain ⟨h₂, h₂'⟩ := Ty.lands_relabel hr hret
    obtain ⟨h₃, h₃'⟩ := hr.expr.option hbody
    simp only [relabel, h₁, h₁', h₂, h₂', h₃, h₃']
    exact ⟨rfl, rfl⟩
  | type kind supers members =>
    obtain ⟨supers', hsupers, h⟩ := Option.bind_eq_some_iff.1 h
    obtain ⟨members', hmembers, h⟩ := Option.bind_eq_some_iff.1 h
    obtain rfl := Option.some.inj h
    obtain ⟨h₁, h₁'⟩ := Ty.lands_relabelAll hr hsupers
    obtain ⟨h₂, h₂'⟩ := hr.decl.list hmembers
    simp only [relabel, h₁, h₁', h₂, h₂']
    exact ⟨rfl, rfl⟩
  | interface supers members =>
    obtain ⟨supers', hsupers, h⟩ := Option.bind_eq_some_iff.1 h
    obtain ⟨members', hmembers, h⟩ := Option.bind_eq_some_iff.1 h
    obtain rfl := Option.some.inj h
    obtain ⟨h₁, h₁'⟩ := Ty.lands_relabelAll hr hsupers
    obtain ⟨h₂, h₂'⟩ := hr.decl.list hmembers
    simp only [relabel, h₁, h₁', h₂, h₂']
    exact ⟨rfl, rfl⟩
  | extension extended interfaces bounds members =>
    obtain ⟨extended', hextended, h⟩ := Option.bind_eq_some_iff.1 h
    obtain ⟨interfaces', hinterfaces, h⟩ := Option.bind_eq_some_iff.1 h
    obtain ⟨bounds', hbounds, h⟩ := Option.bind_eq_some_iff.1 h
    obtain ⟨members', hmembers, h⟩ := Option.bind_eq_some_iff.1 h
    obtain rfl := Option.some.inj h
    obtain ⟨h₁, h₁'⟩ := Ty.lands_relabel hr hextended
    obtain ⟨h₂, h₂'⟩ := Ty.lands_relabelAll hr hinterfaces
    obtain ⟨h₃, h₃'⟩ := (lands_relabelBound hr).list hbounds
    obtain ⟨h₄, h₄'⟩ := hr.decl.list hmembers
    simp only [relabel, h₁, h₁', h₂, h₂', h₃, h₃', h₄, h₄']
    exact ⟨rfl, rfl⟩
  | var kind ty init =>
    obtain ⟨ty', hty, h⟩ := Option.bind_eq_some_iff.1 h
    obtain ⟨init', hinit, h⟩ := Option.bind_eq_some_iff.1 h
    obtain rfl := Option.some.inj h
    obtain ⟨h₁, h₁'⟩ := Ty.lands_relabel hr hty
    obtain ⟨h₂, h₂'⟩ := hr.expr.option hinit
    simp only [relabel, h₁, h₁', h₂, h₂']
    exact ⟨rfl, rfl⟩
  | placeholder =>
    obtain rfl := Option.some.inj h
    exact ⟨rfl, rfl⟩

end DeclKind

namespace Decl

theorem lands_relabelParam (hr : r.Leads s t) :
    Lands (relabelParam r) (relabelParam s) (relabelParam t) := by
  intro p p' h
  obtain ⟨id, hid, h⟩ := Option.bind_eq_some_iff.1 h
  obtain rfl := Option.some.inj h
  obtain ⟨hs, ht⟩ := hr.param hid
  rw [relabelParam, relabelParam, hs, ht]
  exact ⟨rfl, rfl⟩

theorem lands_relabel (hr : r.Leads s t) : Lands (relabel r) (relabel s) (relabel t) := by
  intro d d' h
  obtain ⟨kind, hkind, h⟩ := Option.bind_eq_some_iff.1 h
  obtain ⟨parent, hparent, h⟩ := Option.bind_eq_some_iff.1 h
  obtain ⟨origin, horigin, h⟩ := Option.bind_eq_some_iff.1 h
  obtain ⟨typeParams, hparams, h⟩ := Option.bind_eq_some_iff.1 h
  obtain rfl := Option.some.inj h
  obtain ⟨h₁, h₁'⟩ := DeclKind.lands_relabel hr hkind
  obtain ⟨h₂, h₂'⟩ := hr.decl.option hparent
  obtain ⟨h₃, h₃'⟩ := hr.decl.option horigin
  obtain ⟨h₄, h₄'⟩ := (lands_relabelParam hr).list hparams
  simp only [relabel, h₁, h₁', h₂, h₂', h₃, h₃', h₄, h₄']
  exact ⟨rfl, rfl⟩

end Decl

namespace ExprKind

theorem lands_relabel (hr : r.Leads s t) : Lands (relabel r) (relabel s) (relabel t) := by
  intro k k' h
  cases k with
  | lit value =>
    obtain rfl := Option.some.inj h
    exact ⟨rfl, rfl⟩
  | ref target typeArgs =>
    obtain ⟨target', htarget, h⟩ := Option.bind_eq_some_iff.1 h
    obtain ⟨typeArgs', hargs, h⟩ := Option.bind_eq_some_iff.1 h
    obtain rfl := Option.some.inj h
    obtain ⟨h₁, h₁'⟩ := hr.reference htarget
    obtain ⟨h₂, h₂'⟩ := Ty.lands_relabelAll hr hargs
    simp only [relabel, h₁, h₁', h₂, h₂']
    exact ⟨rfl, rfl⟩
  | member base owner target typeArgs =>
    obtain ⟨base', hbase, h⟩ := Option.bind_eq_some_iff.1 h
    obtain ⟨owner', howner, h⟩ := Option.bind_eq_some_iff.1 h
    obtain ⟨target', htarget, h⟩ := Option.bind_eq_some_iff.1 h
    obtain ⟨typeArgs', hargs, h⟩ := Option.bind_eq_some_iff.1 h
    obtain rfl := Option.some.inj h
    obtain ⟨h₁, h₁'⟩ := hr.expr.option hbase
    obtain ⟨h₂, h₂'⟩ := Ty.lands_relabel hr howner
    obtain ⟨h₃, h₃'⟩ := hr.reference htarget
    obtain ⟨h₄, h₄'⟩ := Ty.lands_relabelAll hr hargs
    simp only [relabel, h₁, h₁', h₂, h₂', h₃, h₃', h₄, h₄']
    exact ⟨rfl, rfl⟩
  | call callee args =>
    obtain ⟨callee', hcallee, h⟩ := Option.bind_eq_some_iff.1 h
    obtain ⟨args', hargs, h⟩ := Option.bind_eq_some_iff.1 h
    obtain rfl := Option.some.inj h
    obtain ⟨h₁, h₁'⟩ := hr.expr hcallee
    obtain ⟨h₂, h₂'⟩ := hr.expr.list hargs
    simp only [relabel, h₁, h₁', h₂, h₂']
    exact ⟨rfl, rfl⟩
  | letVar var =>
    obtain ⟨var', hvar, h⟩ := Option.bind_eq_some_iff.1 h
    obtain rfl := Option.some.inj h
    obtain ⟨h₁, h₁'⟩ := hr.decl hvar
    simp only [relabel, h₁, h₁']
    exact ⟨rfl, rfl⟩
  | block items =>
    obtain ⟨items', hitems, h⟩ := Option.bind_eq_some_iff.1 h
    obtain rfl := Option.some.inj h
    obtain ⟨h₁, h₁'⟩ := hr.expr.list hitems
    simp only [relabel, h₁, h₁']
    exact ⟨rfl, rfl⟩
  | ret value =>
    obtain ⟨value', hvalue, h⟩ := Option.bind_eq_some_iff.1 h
    obtain rfl := Option.some.inj h
    obtain ⟨h₁, h₁'⟩ := hr.expr.option hvalue
    simp only [relabel, h₁, h₁']
    exact ⟨rfl, rfl⟩
  | binary op lhs rhs =>
    obtain ⟨lhs', hlhs, h⟩ := Option.bind_eq_some_iff.1 h
    obtain ⟨rhs', hrhs, h⟩ := Option.bind_eq_some_iff.1 h
    obtain rfl := Option.some.inj h
    obtain ⟨h₁, h₁'⟩ := hr.expr hlhs
    obtain ⟨h₂, h₂'⟩ := hr.expr hrhs
    simp only [relabel, h₁, h₁', h₂, h₂']
    exact ⟨rfl, rfl⟩
  | cond test onTrue onFalse =>
    obtain ⟨test', htest, h⟩ := Option.bind_eq_some_iff.1 h
    obtain ⟨onTrue', htrue, h⟩ := Option.bind_eq_some_iff.1 h
    obtain ⟨onFalse', hfalse, h⟩ := Option.bind_eq_some_iff.1 h
    obtain rfl := Option.some.inj h
    obtain ⟨h₁, h₁'⟩ := hr.expr htest
    obtain ⟨h₂, h₂'⟩ := hr.expr htrue
    obtain ⟨h₃, h₃'⟩ := hr.expr.option hfalse
    simp only [relabel, h₁, h₁', h₂, h₂', h₃, h₃']
    exact ⟨rfl, rfl⟩

end ExprKind

theorem Expr.lands_relabel (hr : r.Leads s t) : Lands (relabel r) (relabel s) (relabel t) := by
  intro x x' h
  obtain ⟨ty, hty, h⟩ := Option.bind_eq_some_iff.1 h
  obtain ⟨kind, hkind, h⟩ := Option.bind_eq_some_iff.1 h
  obtain rfl := Option.some.inj h
  obtain ⟨h₁, h₁'⟩ := Ty.lands_relabel hr hty
  obtain ⟨h₂, h₂'⟩ := ExprKind.lands_relabel hr hkind
  simp only [relabel, h₁, h₁', h₂, h₂']
  exact ⟨rfl, rfl⟩

/-! ### Handles inside the arenas -/

/-- All handles of the declaration lie in arenas of the given sizes. -/
def Decl.Within (n m : Nat) (d : Decl) : Prop := d.relabel (.within n m) = some d

/-- All handles of the expression lie in arenas of the given sizes. -/
def Expr.Within (n m : Nat) (x : Expr) : Prop := x.relabel (.within n m) = some x

/-- The arenas have the given sizes, and no slot mentions a handle outside of them. -/
structure Package.Contained (n m : Nat) (p : Package) : Prop where
  size_decls : p.decls.size = n
  size_exprs : p.exprs.size = m
  decl : ∀ {d decl}, p.decl? d = some decl → decl.Within n m
  expr : ∀ {x expr}, p.expr? x = some expr → expr.Within n m

namespace Package.Contained

variable {n m : Nat} {p : Package}

theorem setDecl (h : p.Contained n m) (d : DeclId) {decl : Decl} (hd : decl.Within n m) :
    (p.setDecl d decl).Contained n m where
  size_decls := by rw [size_decls_setDecl, h.size_decls]
  size_exprs := h.size_exprs
  decl := by
    intro d' decl' hd'
    rw [decl?_setDecl] at hd'
    split at hd'
    · obtain rfl := Option.some.inj hd'
      exact hd
    · exact h.decl hd'
  expr := h.expr

theorem setExpr (h : p.Contained n m) (x : ExprId) {expr : Expr} (hx : expr.Within n m) :
    (p.setExpr x expr).Contained n m where
  size_decls := h.size_decls
  size_exprs := by rw [size_exprs_setExpr, h.size_exprs]
  decl := h.decl
  expr := by
    intro x' expr' hx'
    rw [expr?_setExpr] at hx'
    split at hx'
    · obtain rfl := Option.some.inj hx'
      exact hx
    · exact h.expr hx'

end Package.Contained

/-! ### Decoding -/

namespace Decoder

variable {c : Decoder} {n m : Nat}

/-- What archived handles stand for lies in arenas of the given sizes. -/
structure PointsWithin (n m : Nat) (c : Decoder) : Prop where
  decls : ∀ d ∈ c.decls, d.index < n
  exprs : ∀ x ∈ c.exprs, x.index < m
  symbols : ∀ d, some d ∈ c.symbols → d.index < n

theorem PointsWithin.decl? (h : c.PointsWithin n m) {d d' : DeclId} (hd : c.decl? d = some d') :
    d'.index < n := by
  unfold Decoder.decl? at hd
  split at hd
  · rename_i i _
    rw [Array.getD_eq_getD_getElem?] at hd
    cases hi : c.symbols[i]? with
    | none =>
      rw [hi] at hd
      cases hd
    | some o =>
      rw [hi, Option.getD_some] at hd
      exact h.symbols d' (hd ▸ Array.mem_of_getElem? hi)
  · exact h.decls d' (Array.mem_of_getElem? hd)

/-- The lenient reading goes along with the strict one. -/
theorem PointsWithin.leads (h : c.PointsWithin n m) : c.strict.Leads c.lenient (.within n m) := by
  have hdecl : Lands c.strict.decl c.lenient.decl (Relabeling.within n m).decl := by
    intro d d' (hd : c.decl? d = some d')
    refine ⟨?_, if_pos (h.decl? hd)⟩
    change (c.decl? d).getD d = d'
    rw [hd, Option.getD_some]
  refine ⟨hdecl, ?_, ?_, hdecl⟩
  · intro x x' (hx : c.expr? x = some x')
    refine ⟨?_, if_pos (h.exprs x' (Array.mem_of_getElem? hx))⟩
    change (c.expr? x).getD x = x'
    rw [hx, Option.getD_some]
  · intro p p' hp
    obtain ⟨owner, howner, hp⟩ := Option.bind_eq_some_iff.1 hp
    obtain rfl := Option.some.inj hp
    refine ⟨?_, if_pos (h.decl? howner)⟩
    change { p with owner := (c.decl? p.owner).getD p.owner } = { p with owner := owner }
    rw [howner, Option.getD_some]

/-- Where the strict reading of a declaration succeeds, the lenient one agrees with it and mentions
the arenas only. -/
theorem relabel_decl (h : c.PointsWithin n m) {d d' : Decl} (hd : d.relabel c.strict = some d') :
    Id.run (d.relabel c.lenient) = d' ∧ d'.Within n m :=
  Decl.lands_relabel h.leads hd

/-- Where the strict reading of an expression succeeds, the lenient one agrees with it and mentions
the arenas only. -/
theorem relabel_expr (h : c.PointsWithin n m) {x x' : Expr} (hx : x.relabel c.strict = some x') :
    Id.run (x.relabel c.lenient) = x' ∧ x'.Within n m :=
  Expr.lands_relabel h.leads hx

end Decoder

/-- All handles of the entry stand for something. -/
def ArchivedInstance.Decodable (c : Decoder) (entry : ArchivedInstance) : Prop :=
  (∀ d ∈ entry.decls, (d.relabel c.strict).isSome) ∧ ∀ x ∈ entry.exprs, (x.relabel c.strict).isSome

/-- What the handles of the entry of a plan stand for. -/
def Plan.decoder (plan : Plan) (symbols : Array (Option DeclId)) : Decoder where
  decls := plan.decls
  exprs := plan.exprs
  symbols := symbols

namespace Run

variable {n m : Nat} {symbols : Array (Option DeclId)} {e : Engine}

/-- Writing a decodable entry leaves no handle outside of the arenas. -/
theorem contained_writePlan {plan : Plan} (hc : (plan.decoder symbols).PointsWithin n m)
    (hd : plan.entry.Decodable (plan.decoder symbols)) (h : e.package.Contained n m) :
    (writePlan symbols plan).Meets e (fun _ e' => e'.package.Contained n m) fun _ _ => False := by
  have hdecls : ∀ (l : List (DeclId × Decl)) (p : Package), p.Contained n m →
      (∀ x ∈ l, x.2 ∈ plan.entry.decls) → (l.foldl (fun p x => p.setDecl x.1
        (Id.run (x.2.relabel (plan.decoder symbols).lenient))) p).Contained n m := by
    intro l
    induction l with
    | nil => exact fun p hp _ => hp
    | cons x l ih =>
      intro p hp hl
      obtain ⟨d', hd'⟩ := Option.isSome_iff_exists.1 (hd.1 x.2 (hl x List.mem_cons_self))
      obtain ⟨heq, hwithin⟩ := Decoder.relabel_decl hc hd'
      exact ih _ (hp.setDecl x.1 (heq ▸ hwithin)) fun y hy => hl y (List.mem_cons_of_mem _ hy)
  have hexprs : ∀ (l : List (ExprId × Expr)) (p : Package), p.Contained n m →
      (∀ x ∈ l, x.2 ∈ plan.entry.exprs) → (l.foldl (fun p x => p.setExpr x.1
        (Id.run (x.2.relabel (plan.decoder symbols).lenient))) p).Contained n m := by
    intro l
    induction l with
    | nil => exact fun p hp _ => hp
    | cons x l ih =>
      intro p hp hl
      obtain ⟨x', hx'⟩ := Option.isSome_iff_exists.1 (hd.2 x.2 (hl x List.mem_cons_self))
      obtain ⟨heq, hwithin⟩ := Decoder.relabel_expr hc hx'
      exact ih _ (hp.setExpr x.1 (heq ▸ hwithin)) fun y hy => hl y (List.mem_cons_of_mem _ hy)
  exact hexprs _ _ (hdecls _ _ h fun x hx => (List.of_mem_zip hx).2) fun x hx =>
    (List.of_mem_zip hx).2

theorem contained_restoreMembers (root : DeclId) (members : List (InstanceKey × DeclId))
    (h : e.package.Contained n m) :
    (restoreMembers root members).Meets e (fun _ e' => e'.package.Contained n m)
      fun _ e' => e'.package.Contained n m := by
  induction members generalizing e with
  | nil => exact h
  | cons member rest ih =>
    exact meets_bind.2 (meets_register (fun r _ => ih h) fun _ => h)

/-- Writing and registering decodable entries leaves no handle outside of the arenas. -/
theorem contained_restorePlans {paths : Assoc String DeclId} {plans : List Plan}
    (hc : ∀ plan ∈ plans, (plan.decoder symbols).PointsWithin n m)
    (hd : ∀ plan ∈ plans, plan.entry.Decodable (plan.decoder symbols))
    (h : e.package.Contained n m) :
    (restorePlans paths symbols plans).Meets e (fun _ e' => e'.package.Contained n m)
      fun _ e' => e'.package.Contained n m := by
  induction plans generalizing e with
  | nil => exact h
  | cons plan rest ih =>
    rw [List.forall_mem_cons] at hc hd
    refine meets_bind.2 ((contained_writePlan hc.1 hd.1 h).mono (fun _ e₁ h₁ => ?_) fun _ _ => nofun)
    refine meets_bind.2 (meets_register (fun r _ => ?_) fun _ => h₁)
    refine meets_bind.2 ((contained_restoreMembers _ _ (e := { e₁ with registry := r }) h₁).mono
      (fun _ e₂ h₂ => ?_) fun _ _ => id)
    dsimp only
    split
    · exact meets_bind.2 (meets_modify.2 (ih hc.2 hd.2 h₂))
    · exact ih hc.2 hd.2 h₂

end Run

namespace Engine

/-- A package with a function `f<T>`. -/
def lonePackage : Package where
  name := "demo"
  decls := #[
    { name := "f", kind := .func [] .unit none, package := "demo",
      typeParams := [{ id := ⟨⟨0⟩, 0⟩, name := "T" }] }]
  topLevel := [⟨0⟩]

/-- An archive with `f<Int64>`, the body of which refers to the position 7 of a subtree that has only
one declaration. -/
def strayArchive : Archive where
  version := 1
  package := "demo"
  symbols := [.plain "demo::f"]
  instances := [{
    template := "demo::f"
    subst := .ofList [(⟨Archive.symbol 0, 0⟩, .prim .int64)]
    mangled := "f<Int64>"
    decls := [
      { name := "f", kind := .func [] .unit (some ⟨0⟩), package := "demo",
        origin := some (Archive.symbol 0), mangled := some "f<Int64>" }]
    exprs := [{ kind := .ref ⟨7⟩ [], ty := .unit }]
    lazyMembers := []
    shape := "f<Int64>" }]

/-- The entry cannot be decoded and is restored nevertheless: afterwards an expression refers to the
eighth declaration of an arena that has two. -/
theorem stray_reference_restored :
    (match Run.request (fun make fuel => Run.restore make fuel ["demo::f"] strayArchive)
        (start lonePackage {} .visible .reserved) with
      | .ok report e' => some (report, e'.package.decls.size, (e'.package.expr? ⟨0⟩).map (·.kind))
      | .error _ _ => none) =
      some ({ restored := [⟨1⟩] }, 2, some (.ref ⟨7⟩ [])) := by
  decide +kernel

end Engine

end Monomorph
