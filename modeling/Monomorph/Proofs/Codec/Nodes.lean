import Monomorph.Codec.Package
import Monomorph.Proofs.Codec.Types

/-!
# Declarations and expressions read back

Each kind of declarations and each form of expressions is a variant with fields of its own, and each
is taken out of its own description again, as long as its handles and integers are in range.
Floating-point literals are left out: their text is a rounding of the number.

## Main definitions

* `Decl.isStorable`, `Expr.isStorable`: declarations and expressions whose numbers are in range.

## Main results

* `DeclKind.reads`, `Decl.reads`: declarations are read back.
* `ExprKind.reads`, `Expr.reads`: expressions are read back.
-/

namespace Monomorph

open Source

/-! ### Parts of declarations -/

theorem Attributes.reads (a : Attributes) : Reads Attributes.read a.toData a := by
  have hpublic := (Reads.bool a.isPublic).required
  have hmutable := (Reads.bool a.isMutable).required
  have habstract := (Reads.bool a.isAbstract).required
  have hadded := (Reads.bool a.compilerAdded).required
  refine .record _ _ rfl (by decide) ⟨hpublic.printable, hmutable.printable, habstract.printable,
    hadded.printable, trivial⟩ fun n hn => ?_
  simp only [List.map_cons, List.map_nil, hpublic.value hn.1, hmutable.value hn.2.1,
    habstract.value hn.2.2.1, hadded.value hn.2.2.2.1]
  rfl

/-- A list of strings. -/
theorem Reads.strings (xs : List String) :
    Reads (fun n => listOf n fun _ => str?) (.ofList .str xs) xs :=
  .list fun s _ => .str s

theorem Annotation.reads (a : Annotation) : Reads Annotation.read a.toData a := by
  have hname := (Reads.str a.name).required
  have hargs := (Reads.strings a.args).required
  refine .record _ _ rfl (by decide) ⟨hname.printable, hargs.printable, trivial⟩ fun n hn => ?_
  simp only [List.map_cons, List.map_nil, hname.value hn.1, hargs.value hn.2.1]
  rfl

/-- The parameter is in range. -/
def TypeParam.isStorable (p : TypeParam) : Bool := p.id.isStorable

theorem TypeParam.reads {p : TypeParam} (h : p.isStorable) : Reads TypeParam.read p.toData p := by
  have hid := (ParamId.reads h).required
  have hname := (Reads.str p.name).required
  refine .record _ _ rfl (by decide) ⟨hid.printable, hname.printable, trivial⟩ fun n hn => ?_
  simp only [List.map_cons, List.map_nil, hid.value hn.1, hname.value hn.2.1]
  rfl

/-- All handles of the bound are in range. -/
def Bound.isStorable (b : Bound) : Bool := b.param.isStorable && b.interface.isStorable

theorem Bound.reads {b : Bound} (h : b.isStorable) : Reads Bound.read b.toData b := by
  rw [Bound.isStorable, Bool.and_eq_true] at h
  have hparam := (ParamId.reads h.1).required
  have hinterface := (Ty.reads h.2).required
  refine .record _ _ rfl (by decide) ⟨hparam.printable, hinterface.printable, trivial⟩ fun n hn => ?_
  simp only [List.map_cons, List.map_nil, hparam.value hn.1, hinterface.value hn.2.1]
  rfl

theorem TypeKind.reads (k : TypeKind) : Reads (fun _ => TypeKind.read) (.unitVariant k.dataName) k :=
  .oneOf (by cases k <;> decide) (by decide)

theorem VarKind.reads (k : VarKind) : Reads (fun _ => VarKind.read) (.unitVariant k.dataName) k :=
  .oneOf (by cases k <;> decide) (by decide)

/-! ### Lists of handles and types -/

theorem DeclId.reads_all {ds : List DeclId} (h : ds.all isStorable) :
    Reads readAll (.ofList toData ds) ds :=
  .list fun d hd => reads (List.all_eq_true.1 h d hd)

theorem ExprId.reads_all {es : List ExprId} (h : es.all isStorable) :
    Reads readAll (.ofList toData es) es :=
  .list fun e he => reads (List.all_eq_true.1 h e he)

theorem Ty.reads_ofList {ts : List Ty} (h : allStorable ts) :
    Reads readAll (.ofList toData ts) ts :=
  .list (reads_all h)

theorem DeclId.reads_optional {o : Option DeclId} (h : o.all isStorable) :
    ReadsField (fun _ => optional DeclId.read) (.option toData o) o :=
  Reads.optional (fun d hd => reads (Option.all_eq_true _ _ |>.1 h d hd)) fun _ _ => nofun

theorem ExprId.reads_optional {o : Option ExprId} (h : o.all isStorable) :
    ReadsField (fun _ => optional ExprId.read) (.option toData o) o :=
  Reads.optional (fun e he => reads (Option.all_eq_true _ _ |>.1 h e he)) fun _ _ => nofun

/-! ### Declarations -/

namespace DeclKind

/-- All handles are in range. -/
def isStorable : DeclKind → Bool
  | .func params ret body =>
    params.all DeclId.isStorable && ret.isStorable && body.all ExprId.isStorable
  | .type _ supers members => Ty.allStorable supers && members.all DeclId.isStorable
  | .interface supers members => Ty.allStorable supers && members.all DeclId.isStorable
  | .extension extended interfaces bounds members =>
    extended.isStorable && Ty.allStorable interfaces && bounds.all Bound.isStorable &&
      members.all DeclId.isStorable
  | .var _ ty init => ty.isStorable && init.all ExprId.isStorable
  | .placeholder => true

/-- A kind of declarations is read back. -/
theorem reads {k : DeclKind} (h : k.isStorable) : Reads read k.toData k := by
  cases k with
  | func params ret body =>
    simp only [isStorable, Bool.and_eq_true] at h
    have hparams := (DeclId.reads_all h.1.1).required
    have hret := (Ty.reads h.1.2).required
    have hbody := ExprId.reads_optional h.2
    refine .variant (.record "FuncDecl" ["params", "ret", "body"] rfl (by decide)
      ⟨hparams.printable, hret.printable, hbody.printable, trivial⟩ fun n hn => ?_) fun n j => by
        rw [read, Json.variant?_obj]
        rfl
    simp only [List.map_cons, List.map_nil, hparams.value hn.1, hret.value hn.2.1,
      hbody.value hn.2.2.1]
    rfl
  | type kind supers members =>
    simp only [isStorable, Bool.and_eq_true] at h
    have hkind := (TypeKind.reads kind).required
    have hsupers := (Ty.reads_ofList h.1).required
    have hmembers := (DeclId.reads_all h.2).required
    refine .variant (.record "TypeDecl" ["kind", "supers", "members"] rfl (by decide)
      ⟨hkind.printable, hsupers.printable, hmembers.printable, trivial⟩ fun n hn => ?_)
      fun n j => by
        rw [read, Json.variant?_obj]
        rfl
    simp only [List.map_cons, List.map_nil, hkind.value hn.1, hsupers.value hn.2.1,
      hmembers.value hn.2.2.1]
    rfl
  | interface supers members =>
    simp only [isStorable, Bool.and_eq_true] at h
    have hsupers := (Ty.reads_ofList h.1).required
    have hmembers := (DeclId.reads_all h.2).required
    refine .variant (.record "InterfaceDecl" ["supers", "members"] rfl (by decide)
      ⟨hsupers.printable, hmembers.printable, trivial⟩ fun n hn => ?_) fun n j => by
        rw [read, Json.variant?_obj]
        rfl
    simp only [List.map_cons, List.map_nil, hsupers.value hn.1, hmembers.value hn.2.1]
    rfl
  | extension extended interfaces bounds members =>
    simp only [isStorable, Bool.and_eq_true] at h
    have hextended := (Ty.reads h.1.1.1).required
    have hinterfaces := (Ty.reads_ofList h.1.1.2).required
    have hbounds := (Reads.list fun b hb => Bound.reads (List.all_eq_true.1 h.1.2 b hb)).required
    have hmembers := (DeclId.reads_all h.2).required
    refine .variant (.record "ExtendDecl" ["extended", "interfaces", "bounds", "members"] rfl (by decide)
      ⟨hextended.printable, hinterfaces.printable, hbounds.printable, hmembers.printable, trivial⟩
      fun n hn => ?_)
      fun n j => by
        rw [read, Json.variant?_obj]
        rfl
    simp only [List.map_cons, List.map_nil, hextended.value hn.1, hinterfaces.value hn.2.1,
      hbounds.value hn.2.2.1, hmembers.value hn.2.2.2.1]
    rfl
  | var kind ty init =>
    simp only [isStorable, Bool.and_eq_true] at h
    have hkind := (VarKind.reads kind).required
    have hty := (Ty.reads h.1).required
    have hinit := ExprId.reads_optional h.2
    refine .variant (.record "VarDecl" ["kind", "ty", "init"] rfl (by decide)
      ⟨hkind.printable, hty.printable, hinit.printable, trivial⟩ fun n hn => ?_) fun n j => by
        rw [read, Json.variant?_obj]
        rfl
    simp only [List.map_cons, List.map_nil, hkind.value hn.1, hty.value hn.2.1,
      hinit.value hn.2.2.1]
    rfl
  | placeholder => exact ⟨trivial, fun _ => rfl⟩

end DeclKind

namespace Decl

/-- All numbers of the declaration are in range. -/
def isStorable (d : Decl) : Bool :=
  d.kind.isStorable && d.typeParams.all TypeParam.isStorable && d.parent.all DeclId.isStorable &&
    d.origin.all DeclId.isStorable && d.span.isStorable

/-- A declaration is read back. -/
theorem reads {d : Decl} (h : d.isStorable) : Reads read d.toData d := by
  simp only [isStorable, Bool.and_eq_true] at h
  obtain ⟨⟨⟨⟨hk, htp⟩, hp⟩, ho⟩, hs⟩ := h
  have hname := (Reads.str d.name).required
  have hkind := (DeclKind.reads hk).required
  have hattrs := (Attributes.reads d.attrs).required
  have hannotations := (Reads.list fun a (_ : a ∈ d.annotations) => Annotation.reads a).required
  have htypeParams := (Reads.list fun p hp => TypeParam.reads (List.all_eq_true.1 htp p hp)).required
  have hparent := DeclId.reads_optional hp
  have hpackage := (Reads.str d.package).required
  have horigin := DeclId.reads_optional ho
  have hmangled : ReadsField (fun _ => optional str?) (.option .str d.mangled) d.mangled :=
    Reads.optional (fun s _ => Reads.str s) fun _ _ => nofun
  have hspan := (Span.reads hs).required
  have hbroken := (Reads.bool d.broken).required
  refine .record _ _ rfl (by decide) ⟨hname.printable, hkind.printable, hattrs.printable,
    hannotations.printable, htypeParams.printable, hparent.printable, hpackage.printable,
    horigin.printable, hmangled.printable, hspan.printable, hbroken.printable, trivial⟩
    fun n hn => ?_
  obtain ⟨h₁, h₂, h₃, h₄, h₅, h₆, h₇, h₈, h₉, h₁₀, h₁₁, -⟩ := hn
  simp only [List.map_cons, List.map_nil, hname.value h₁, hkind.value h₂, hattrs.value h₃,
    hannotations.value h₄, htypeParams.value h₅, hparent.value h₆, hpackage.value h₇,
    horigin.value h₈, hmangled.value h₉, hspan.value h₁₀, hbroken.value h₁₁]
  rfl

end Decl

/-! ### Expressions -/

/-- Integers fit in 64 bits; floating-point literals are left out. -/
def Literal.isStorable : Literal → Bool
  | .int value => -9223372036854775808 ≤ value && value ≤ 9223372036854775807
  | .float _ => false
  | .unit | .bool _ | .str _ => true

theorem Literal.reads {l : Literal} (h : l.isStorable) : Reads read l.toData l := by
  cases l with
  | unit => exact ⟨trivial, fun _ => rfl⟩
  | bool b =>
    exact .variant ((Reads.bool b).map Literal.bool) fun n j => by
      rw [read, Json.variant?_obj]
      rfl
  | int value =>
    simp only [isStorable, Bool.and_eq_true, decide_eq_true_eq] at h
    exact .variant ((Reads.int h.1 h.2).map Literal.int) fun n j => by
      rw [read, Json.variant?_obj]
      rfl
  | str s =>
    exact .variant ((Reads.str s).map Literal.str) fun n j => by
      rw [read, Json.variant?_obj]
      rfl
  | float bits => cases h

theorem BinOp.reads (op : BinOp) : Reads (fun _ => BinOp.read) (.unitVariant op.dataName) op :=
  .oneOf (by cases op <;> decide) (by decide)

namespace ExprKind

/-- All numbers are in range. -/
def isStorable : ExprKind → Bool
  | .lit value => value.isStorable
  | .ref target typeArgs => target.isStorable && Ty.allStorable typeArgs
  | .member base owner target typeArgs =>
    base.all ExprId.isStorable && owner.isStorable && target.isStorable && Ty.allStorable typeArgs
  | .call callee args => callee.isStorable && args.all ExprId.isStorable
  | .letVar var => var.isStorable
  | .block items => items.all ExprId.isStorable
  | .ret value => value.all ExprId.isStorable
  | .binary _ lhs rhs => lhs.isStorable && rhs.isStorable
  | .cond test onTrue onFalse =>
    test.isStorable && onTrue.isStorable && onFalse.all ExprId.isStorable

/-- A form of expressions is read back. -/
theorem reads {k : ExprKind} (h : k.isStorable) : Reads read k.toData k := by
  cases k with
  | lit value =>
    exact .variant ((Literal.reads h).map ExprKind.lit) fun n j => by
      rw [read, Json.variant?_obj]
      rfl
  | ref target typeArgs =>
    simp only [isStorable, Bool.and_eq_true] at h
    have htarget := (DeclId.reads h.1).required
    have htypeArgs := (Ty.reads_ofList h.2).required
    refine .recordVariant ["target", "type_args"] rfl (by decide)
      ⟨htarget.printable, htypeArgs.printable, trivial⟩ (fun n hn => ?_) fun n j => by
        rw [read, Json.variant?_obj]
        rfl
    simp only [List.map_cons, List.map_nil, htarget.value hn.1, htypeArgs.value hn.2.1]
    rfl
  | member base owner target typeArgs =>
    simp only [isStorable, Bool.and_eq_true] at h
    have hbase := ExprId.reads_optional h.1.1.1
    have howner := (Ty.reads h.1.1.2).required
    have htarget := (DeclId.reads h.1.2).required
    have htypeArgs := (Ty.reads_ofList h.2).required
    refine .recordVariant ["base", "owner", "member", "type_args"] rfl (by decide)
      ⟨hbase.printable, howner.printable, htarget.printable, htypeArgs.printable, trivial⟩
      (fun n hn => ?_) fun n j => by
        rw [read, Json.variant?_obj]
        rfl
    simp only [List.map_cons, List.map_nil, hbase.value hn.1, howner.value hn.2.1,
      htarget.value hn.2.2.1, htypeArgs.value hn.2.2.2.1]
    rfl
  | call callee args =>
    simp only [isStorable, Bool.and_eq_true] at h
    have hcallee := (ExprId.reads h.1).required
    have hargs := (ExprId.reads_all h.2).required
    refine .recordVariant ["callee", "args"] rfl (by decide)
      ⟨hcallee.printable, hargs.printable, trivial⟩ (fun n hn => ?_) fun n j => by
        rw [read, Json.variant?_obj]
        rfl
    simp only [List.map_cons, List.map_nil, hcallee.value hn.1, hargs.value hn.2.1]
    rfl
  | letVar var =>
    have hvar := (DeclId.reads h).required
    refine .recordVariant ["var"] rfl (by decide) ⟨hvar.printable, trivial⟩ (fun n hn => ?_)
      fun n j => by
        rw [read, Json.variant?_obj]
        rfl
    simp only [List.map_cons, List.map_nil, hvar.value hn.1]
    rfl
  | block items =>
    exact .variant ((ExprId.reads_all h).map ExprKind.block) fun n j => by
      rw [read, Json.variant?_obj]
      rfl
  | ret value =>
    exact .variant ((ExprId.reads_optional h).reads.map ExprKind.ret) fun n j => by
      rw [read, Json.variant?_obj]
      rfl
  | binary op lhs rhs =>
    simp only [isStorable, Bool.and_eq_true] at h
    have hop := (BinOp.reads op).required
    have hlhs := (ExprId.reads h.1).required
    have hrhs := (ExprId.reads h.2).required
    refine .recordVariant ["op", "lhs", "rhs"] rfl (by decide)
      ⟨hop.printable, hlhs.printable, hrhs.printable, trivial⟩ (fun n hn => ?_) fun n j => by
        rw [read, Json.variant?_obj]
        rfl
    simp only [List.map_cons, List.map_nil, hop.value hn.1, hlhs.value hn.2.1, hrhs.value hn.2.2.1]
    rfl
  | cond test onTrue onFalse =>
    simp only [isStorable, Bool.and_eq_true] at h
    have htest := (ExprId.reads h.1.1).required
    have htrue := (ExprId.reads h.1.2).required
    have hfalse := ExprId.reads_optional h.2
    refine .recordVariant ["cond", "then", "els"] rfl (by decide)
      ⟨htest.printable, htrue.printable, hfalse.printable, trivial⟩ (fun n hn => ?_) fun n j => by
        rw [read, Json.variant?_obj]
        rfl
    simp only [List.map_cons, List.map_nil, htest.value hn.1, htrue.value hn.2.1,
      hfalse.value hn.2.2.1]
    rfl

end ExprKind

namespace Expr

/-- All numbers of the expression are in range. -/
def isStorable (e : Expr) : Bool := e.kind.isStorable && e.ty.isStorable && e.span.isStorable

/-- An expression is read back. -/
theorem reads {e : Expr} (h : e.isStorable) : Reads read e.toData e := by
  simp only [isStorable, Bool.and_eq_true] at h
  have hkind := (ExprKind.reads h.1.1).required
  have hty := (Ty.reads h.1.2).required
  have hspan := (Span.reads h.2).required
  refine .record _ _ rfl (by decide) ⟨hkind.printable, hty.printable, hspan.printable, trivial⟩
    fun n hn => ?_
  simp only [List.map_cons, List.map_nil, hkind.value hn.1, hty.value hn.2.1, hspan.value hn.2.2.1]
  rfl

end Expr

end Monomorph
