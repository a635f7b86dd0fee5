import Monomorph.Engine.Persist
import Monomorph.Proofs.Package.Lists
import Monomorph.Proofs.Requests.Unfolding
import Monomorph.Proofs.Types.Mentions

/-!
# Giving out symbols

While nodes are archived, a table of symbols grows. What stands for a declaration once stands for it in
every later table, so a node is written as the final table says, whatever the order was in which its
symbols were given out. The symbol of an instance is added after those that the arguments in its key
mention; and it is added only once, because an instance whose arguments lead back to itself never gets
that far.

Arguments are nested no deeper than there are instances, provided that they mention older declarations
and declarations that are no instances. Then the bound on the depth of the recursion is never reached.

## Main definitions

* `SymbolTable.writer`: writing as a table says.
* `SymbolTable.Sound`: every symbol stands for one declaration and describes it.
* `SymbolTable.Grows`: what is added while some declarations are written.
* `Encoding.Writes`: computations that let the table grow and write as it says.
* `Encoding.Total`: computations that give a result.
* `Engine.Descends`: what arguments mention is older or no instance.

## Main results

* `Decl.writes_relabel`, `Expr.writes_relabel`, `Subst.writes_relabel`: nodes are written as the table
  says.
* `Engine.writes_encodeSymbol`: so are symbols, and the table stays sound.
* `Engine.Descends.encodeSymbol_eq`: the recursion comes to an end by itself.
* `Engine.Descends.total_encodeSymbol`: and with a result, if there are paths.
-/

namespace Monomorph

/-! ### Tables -/

namespace SymbolTable

/-- The handle that stands for a declaration, if it is one of the first `n` symbols. -/
def symbolBelow? (t : SymbolTable) (n : Nat) (d : DeclId) : Option DeclId :=
  ((t.index.get? d).filter fun i => decide (i < n)).map Archive.symbol

/-- Writes a declaration of a subtree by its position, and any other one by the first `n` symbols. -/
def decl? (t : SymbolTable) (n : Nat) (decls : Assoc DeclId Nat) (d : DeclId) : Option DeclId :=
  match decls.get? d with
  | some i => some ⟨i⟩
  | none => t.symbolBelow? n d

/-- Writes the handles of a node in a subtree. -/
def writer (t : SymbolTable) (n : Nat) (decls : Assoc DeclId Nat) (exprs : Assoc ExprId Nat) :
    Relabeling Option :=
  .writing (t.decl? n decls) fun x => (exprs.get? x).map ExprId.mk

/-- A later table: symbols are appended, and no declaration changes its symbol. -/
structure Extends (t t' : SymbolTable) : Prop where
  symbols : t.symbols <+: t'.symbols
  index : ∀ {d i}, t.index.get? d = some i → t'.index.get? d = some i

theorem Extends.refl (t : SymbolTable) : t.Extends t := ⟨List.prefix_refl _, id⟩

theorem Extends.trans {t t' t'' : SymbolTable} (h : t.Extends t') (h' : t'.Extends t'') :
    t.Extends t'' :=
  ⟨h.symbols.trans h'.symbols, fun hd => h'.index (h.index hd)⟩

theorem Extends.length_le {t t' : SymbolTable} (h : t.Extends t') :
    t.symbols.length ≤ t'.symbols.length :=
  h.symbols.length_le

end SymbolTable

/-- What a symbol says of a declaration, written with the first `n` symbols: a plain declaration is named
by its path, an instance by the path of its template and its arguments. -/
def Engine.Symbolizes (e : Engine) (t : SymbolTable) (n : Nat) (d : DeclId) : SymbolRef → Prop
  | .plain path => e.registry.keyOf? d = none ∧ e.package.stablePath? d = some path
  | .instanceOf path s => ∃ key, e.registry.keyOf? d = some key ∧
    e.package.stablePath? key.template = some path ∧ key.subst.relabel (t.writer n {} {}) = some s

/-- An instance mentions a declaration in its arguments. -/
def Engine.Mentions (e : Engine) (c d : DeclId) : Prop :=
  ∃ key, e.registry.keyOf? d = some key ∧ c ∈ key.subst.refs

/-- An instance without a symbol mentions a declaration in its arguments. -/
def Engine.Awaits (e : Engine) (t : SymbolTable) (c d : DeclId) : Prop :=
  t.index.get? d = none ∧ e.Mentions c d

namespace SymbolTable

/-- Symbols and declarations that have one correspond to each other, and every symbol describes its
declaration with earlier symbols. -/
structure Sound (e : Engine) (t : SymbolTable) : Prop where
  lt : ∀ {d i}, t.index.get? d = some i → i < t.symbols.length
  inj : ∀ {d d' i}, t.index.get? d = some i → t.index.get? d' = some i → d = d'
  symbolizes : ∀ {i ref}, t.symbols[i]? = some ref →
    ∃ d, t.index.get? d = some i ∧ e.Symbolizes t i d ref

theorem sound_empty (e : Engine) : Sound e {} := ⟨nofun, nofun, nofun⟩

/-- The table grows while declarations in `M` are written: the declarations that are added are in `M` or
mentioned by arguments that lead there, and their own arguments do not lead in circles. -/
structure Grows (e : Engine) (M : DeclId → Prop) (t t' : SymbolTable) : Prop extends
    t.Extends t' where
  sound : t'.Sound e
  acc : ∀ {d}, t'.index.get? d ≠ none → t.index.get? d ≠ none ∨ Acc (e.Awaits t) d
  leads : ∀ {d}, t'.index.get? d ≠ none →
    t.index.get? d ≠ none ∨ ∃ c, M c ∧ Relation.ReflTransGen (e.Awaits t) d c

section Grows

variable {e : Engine} {M M' : DeclId → Prop} {t t' t'' : SymbolTable}

theorem Grows.refl (h : t.Sound e) : t.Grows e M t := ⟨.refl t, h, .inl, .inl⟩

theorem Grows.mono (h : t.Grows e M t') (hM : ∀ c, M c → M' c) : t.Grows e M' t' :=
  { h with leads := fun hd => (h.leads hd).imp id fun ⟨c, hc, hlead⟩ => ⟨c, hM c hc, hlead⟩ }

/-- What an instance waits for, it has waited for before. -/
theorem Extends.awaits (h : t.Extends t') {c d : DeclId} (hd : e.Awaits t' c d) : e.Awaits t c d := by
  refine ⟨?_, hd.2⟩
  cases hi : t.index.get? d with
  | none => rfl
  | some i => exact absurd ((h.index hi).symm.trans hd.1) (Option.some_ne_none i)

/-- What has been added leads nowhere, so whatever leads nowhere in the later table has led nowhere
before. -/
theorem Grows.acc_of_acc (h : t.Grows e M t') {d : DeclId} (hd : Acc (e.Awaits t') d) :
    Acc (e.Awaits t) d := by
  induction hd with
  | intro d _ ih =>
    refine Acc.intro d fun c hc => ?_
    cases hi : t'.index.get? d with
    | none => exact ih c ⟨hi, hc.2⟩
    | some i =>
      have hacc := h.acc (d := d) (by rw [hi]; exact Option.some_ne_none i)
      exact (hacc.resolve_left fun hne => hne hc.1).inv hc

theorem Grows.trans (h : t.Grows e M t') (h' : t'.Grows e M t'') : t.Grows e M t'' where
  toExtends := h.toExtends.trans h'.toExtends
  sound := h'.sound
  acc hd := (h'.acc hd).elim h.acc fun hacc => .inr (h.acc_of_acc hacc)
  leads hd := by
    rcases h'.leads hd with hd | ⟨c, hc, hlead⟩
    · exact h.leads hd
    · exact .inr ⟨c, hc, Relation.ReflTransGen.mono (fun _ _ => h.toExtends.awaits) _ _ hlead⟩

end Grows

end SymbolTable

/-! ### Computations that write -/

section Writes

variable {e : Engine} {M M' : DeclId → Prop} {α β : Type}

/-- The computation lets the table grow while it writes declarations in `M`, and its result is as `G`
says of all later tables and the symbols given out so far. -/
def Encoding.Writes (e : Engine) (M : DeclId → Prop) (x : Encoding α)
    (G : SymbolTable → Nat → α → Prop) : Prop :=
  ∀ ⦃t a t'⦄, t.Sound e → x t = some (a, t') →
    t.Grows e M t' ∧ ∀ t'' n, t'.Extends t'' → t'.symbols.length ≤ n → G t'' n a

namespace Encoding.Writes

variable {x : Encoding α} {G : SymbolTable → Nat → α → Prop} {G' : SymbolTable → Nat → β → Prop}

theorem pure {a : α} (h : ∀ t n, G t n a) : Writes e M (pure a) G := by
  intro t b t' ht hb
  obtain ⟨rfl, rfl⟩ := Prod.mk.inj (Option.some.inj hb)
  exact ⟨.refl ht, fun t' n _ _ => h t' n⟩

theorem bind {f : α → Encoding β} (hx : Writes e M x G)
    (hf : ∀ a, Writes e M (f a) fun t n b => G t n a → G' t n b) : Writes e M (x >>= f) G' := by
  intro t b t₂ ht hb
  obtain ⟨⟨a, t₁⟩, ha, hb⟩ := Option.bind_eq_some_iff.1 hb
  obtain ⟨hgrows, hG⟩ := hx ht ha
  obtain ⟨hgrows', hG'⟩ := hf a hgrows.sound hb
  refine ⟨hgrows.trans hgrows', fun t' n hext hn => hG' t' n hext hn (hG t' n ?_ ?_)⟩
  · exact hgrows'.toExtends.trans hext
  · exact Nat.le_trans hgrows'.length_le hn

theorem mono {G' : SymbolTable → Nat → α → Prop} (hx : Writes e M x G) (hM : ∀ c, M c → M' c)
    (hG : ∀ t n a, G t n a → G' t n a) : Writes e M' x G' := by
  intro t a t' ht ha
  obtain ⟨hgrows, h⟩ := hx ht ha
  exact ⟨hgrows.mono hM, fun t'' n hext hn => hG t'' n a (h t'' n hext hn)⟩

/-- An answer of the package. -/
theorem lift {o : Option α} (h : ∀ a, o = some a → ∀ t n, G t n a) :
    Writes e M (liftM o : Encoding α) G := by
  intro t a t' ht ha
  obtain ⟨b, hb, ha⟩ := Option.bind_eq_some_iff.1 ha
  obtain ⟨rfl, rfl⟩ := Prod.mk.inj (Option.some.inj ha)
  exact ⟨.refl ht, fun t' n _ _ => h b hb t' n⟩

/-- What depends on an answer of the package. -/
theorem lift_bind {o : Option α} {f : α → Encoding β}
    (hf : ∀ a, o = some a → Writes e M (f a) G') : Writes e M (liftM o >>= f) G' := by
  intro t b t' ht hb
  obtain ⟨⟨a, t₁⟩, ha, hb⟩ := Option.bind_eq_some_iff.1 hb
  obtain ⟨c, hc, ha⟩ := Option.bind_eq_some_iff.1 ha
  obtain ⟨rfl, rfl⟩ := Prod.mk.inj (Option.some.inj ha)
  exact hf c hc ht hb

theorem list {f : α → Encoding β} {g : SymbolTable → Nat → α → Option β} {l : List α}
    (h : ∀ a ∈ l, Writes e M (f a) fun t n b => g t n a = some b) :
    Writes e M (l.mapM f) fun t n bs => l.mapM (g t n) = some bs := by
  induction l with
  | nil => exact .pure fun _ _ => rfl
  | cons a l ih =>
    rw [List.forall_mem_cons] at h
    rw [List.mapM_cons]
    refine .bind h.1 fun b => .bind (ih h.2) fun bs => .pure fun t n hbs hb => ?_
    rw [List.mapM_cons, hb, hbs]
    rfl

theorem option {f : α → Encoding β} {g : SymbolTable → Nat → α → Option β} {o : Option α}
    (h : ∀ a ∈ o, Writes e M (f a) fun t n b => g t n a = some b) :
    Writes e M (o.mapM f) fun t n b => o.mapM (g t n) = some b := by
  cases o with
  | none => exact .pure fun _ _ => rfl
  | some a =>
    refine .bind (h a rfl) fun b => .pure fun t n hb => ?_
    change (g t n a).map some = some (some b)
    rw [hb, Option.map_some]

end Encoding.Writes

/-! ### Nodes -/

/-- Declarations in `M` and expressions in `X` are written as the table says. -/
structure Relabeling.Records (e : Engine) (M : DeclId → Prop) (X : ExprId → Prop)
    (r : Relabeling Encoding) (w : SymbolTable → Nat → Relabeling Option) : Prop where
  decl : ∀ d, M d → Encoding.Writes e M (r.decl d) fun t n b => (w t n).decl d = some b
  expr : ∀ x, X x → Encoding.Writes e M (r.expr x) fun t n b => (w t n).expr x = some b
  param : ∀ q, M q.owner → Encoding.Writes e M (r.param q) fun t n b => (w t n).param q = some b
  reference : ∀ d, M d → Encoding.Writes e M (r.reference d) fun t n b => (w t n).reference d = some b

variable {X : ExprId → Prop} {r : Relabeling Encoding} {w : SymbolTable → Nat → Relabeling Option}

mutual

theorem Ty.writes_relabel (hr : r.Records e M X w) : ∀ {u : Ty}, (∀ c ∈ u.refs, M c) →
    Encoding.Writes e M (u.relabel r) fun t n b => u.relabel (w t n) = some b
  | .prim _, _ | .invalid, _ => .pure fun _ _ => rfl
  | .param q, hu => .bind (hr.param q (hu _ List.mem_cons_self)) fun q' => .pure fun t n hq => by
      rw [Ty.relabel, hq]
      rfl
  | .tuple items, hu => .bind (Ty.writes_relabelAll hr hu) fun items' => .pure fun t n hitems => by
      rw [Ty.relabel, hitems]
      rfl
  | .func params ret, hu => by
    rw [Ty.refs, List.forall_mem_append] at hu
    refine .bind (Ty.writes_relabelAll hr hu.1) fun params' =>
      .bind (Ty.writes_relabel hr hu.2) fun ret' => .pure fun t n hret hparams => ?_
    rw [Ty.relabel, hparams, hret]
    rfl
  | .named d args, hu => by
    rw [Ty.refs, List.forall_mem_cons] at hu
    refine .bind (hr.reference d hu.1) fun d' =>
      .bind (Ty.writes_relabelAll hr hu.2) fun args' => .pure fun t n hargs hd => ?_
    rw [Ty.relabel, hd, hargs]
    rfl

theorem Ty.writes_relabelAll (hr : r.Records e M X w) :
    ∀ {l : List Ty}, (∀ c ∈ Ty.refsAll l, M c) →
      Encoding.Writes e M (Ty.relabelAll r l) fun t n bs => Ty.relabelAll (w t n) l = some bs
  | [], _ => .pure fun _ _ => rfl
  | u :: us, hu => by
    rw [Ty.refsAll, List.forall_mem_append] at hu
    refine .bind (Ty.writes_relabel hr hu.1) fun u' =>
      .bind (Ty.writes_relabelAll hr hu.2) fun us' => .pure fun t n hus hu' => ?_
    rw [Ty.relabelAll, hu', hus]
    rfl

end

theorem Subst.writes_relabel (hr : r.Records e M X w) {s : Subst} (hs : ∀ c ∈ s.refs, M c) :
    Encoding.Writes e M (s.relabel r) fun t n b => s.relabel (w t n) = some b := by
  have hentry : ∀ x ∈ s.entries, Encoding.Writes e M (relabelEntry r x)
      fun t n b => relabelEntry (w t n) x = some b := by
    intro x hx
    have hx' : ∀ c ∈ x.1.owner :: x.2.refs, M c := fun c hc =>
      hs c (List.mem_flatMap.2 ⟨x, hx, hc⟩)
    rw [List.forall_mem_cons] at hx'
    refine .bind (Ty.writes_relabel hr hx'.2) fun v =>
      .bind (hr.param x.1 hx'.1) fun q => .pure fun t n hq hv => ?_
    rw [relabelEntry, hv]
    change ((w t n).param x.1).bind _ = _
    rw [hq]
    rfl
  refine .bind (.list hentry) fun entries => .pure fun t n hentries => ?_
  rw [relabel, hentries]
  rfl

section Everything

variable (hr : r.Records e (fun _ => True) X w)
include hr

theorem DeclKind.writes_relabel {k : DeclKind} (hk : ∀ x, k.rootExpr? = some x → X x) :
    Encoding.Writes e (fun _ => True) (k.relabel r) fun t n b => k.relabel (w t n) = some b := by
  have hty (u : Ty) := Ty.writes_relabel hr (u := u) fun _ _ => trivial
  have htys (l : List Ty) := Ty.writes_relabelAll hr (l := l) fun _ _ => trivial
  have hdecls (ds : List DeclId) := Encoding.Writes.list (l := ds) fun d _ => hr.decl d trivial
  cases k with
  | func params ret body =>
    refine .bind (hdecls params) fun _ => .bind (hty ret) fun _ =>
      .bind (.option fun x hx => hr.expr x (hk x hx)) fun _ => .pure fun t n hbody hret hparams => ?_
    simp only [relabel, hparams, hret, hbody]
    rfl
  | type kind supers members =>
    refine .bind (htys supers) fun _ => .bind (hdecls members) fun _ =>
      .pure fun t n hmembers hsupers => ?_
    simp only [relabel, hsupers, hmembers]
    rfl
  | interface supers members =>
    refine .bind (htys supers) fun _ => .bind (hdecls members) fun _ =>
      .pure fun t n hmembers hsupers => ?_
    simp only [relabel, hsupers, hmembers]
    rfl
  | extension extended interfaces bounds members =>
    have hbound (b : Bound) : Encoding.Writes e (fun _ => True) (relabelBound r b)
        fun t n b' => relabelBound (w t n) b = some b' := by
      refine .bind (hr.param b.param trivial) fun _ => .bind (hty b.interface) fun _ =>
        .pure fun t n hinterface hparam => ?_
      rw [relabelBound, hparam, hinterface]
      rfl
    refine .bind (hty extended) fun _ => .bind (htys interfaces) fun _ =>
      .bind (.list fun b _ => hbound b) fun _ => .bind (hdecls members) fun _ =>
        .pure fun t n hmembers hbounds hinterfaces hextended => ?_
    simp only [relabel, hextended, hinterfaces, hbounds, hmembers]
    rfl
  | var kind ty init =>
    refine .bind (hty ty) fun _ => .bind (.option fun x hx => hr.expr x (hk x hx)) fun _ =>
      .pure fun t n hinit hty => ?_
    simp only [relabel, hty, hinit]
    rfl
  | placeholder => exact .pure fun _ _ => rfl

theorem Decl.writes_relabel {K : DeclId → Prop} {d : Decl} (hd : d.Lists K X) :
    Encoding.Writes e (fun _ => True) (d.relabel r) fun t n b => d.relabel (w t n) = some b := by
  have hdecl (o : Option DeclId) := Encoding.Writes.option (o := o) fun d _ => hr.decl d trivial
  have hparam (q : TypeParam) : Encoding.Writes e (fun _ => True) (relabelParam r q)
      fun t n b => relabelParam (w t n) q = some b := by
    refine .bind (hr.param q.id trivial) fun _ => .pure fun t n hid => ?_
    rw [relabelParam, hid]
    rfl
  refine .bind (DeclKind.writes_relabel hr hd.code) fun _ => .bind (hdecl d.parent) fun _ =>
    .bind (hdecl d.origin) fun _ => .bind (.list fun q _ => hparam q) fun _ =>
      .pure fun t n hparams horigin hparent hkind => ?_
  simp only [relabel, hkind, hparent, horigin, hparams]
  rfl

theorem ExprKind.writes_relabel {k : ExprKind} (hk : ∀ x ∈ k.children, X x) :
    Encoding.Writes e (fun _ => True) (k.relabel r) fun t n b => k.relabel (w t n) = some b := by
  have hty (u : Ty) := Ty.writes_relabel hr (u := u) fun _ _ => trivial
  have htys (l : List Ty) := Ty.writes_relabelAll hr (l := l) fun _ _ => trivial
  have hexprs {xs : List ExprId} (hxs : ∀ x ∈ xs, X x) :=
    Encoding.Writes.list (l := xs) fun x hx => hr.expr x (hxs x hx)
  have hexpr {o : Option ExprId} (ho : ∀ x ∈ o.toList, X x) :=
    Encoding.Writes.option (o := o) fun x hx => hr.expr x (ho x (Option.mem_toList.2 hx))
  cases k with
  | lit value => exact .pure fun _ _ => rfl
  | ref target typeArgs =>
    refine .bind (hr.reference target trivial) fun _ => .bind (htys typeArgs) fun _ =>
      .pure fun t n hargs htarget => ?_
    simp only [relabel, htarget, hargs]
    rfl
  | member base owner target typeArgs =>
    refine .bind (hexpr hk) fun _ => .bind (hty owner) fun _ =>
      .bind (hr.reference target trivial) fun _ => .bind (htys typeArgs) fun _ =>
        .pure fun t n hargs htarget howner hbase => ?_
    simp only [relabel, hbase, howner, htarget, hargs]
    rfl
  | call callee args =>
    rw [children, List.forall_mem_cons] at hk
    refine .bind (hr.expr callee hk.1) fun _ => .bind (hexprs hk.2) fun _ =>
      .pure fun t n hargs hcallee => ?_
    simp only [relabel, hcallee, hargs]
    rfl
  | letVar var =>
    refine .bind (hr.decl var trivial) fun _ => .pure fun t n hvar => ?_
    simp only [relabel, hvar]
    rfl
  | block items =>
    refine .bind (hexprs hk) fun _ => .pure fun t n hitems => ?_
    simp only [relabel, hitems]
    rfl
  | ret value =>
    refine .bind (hexpr hk) fun _ => .pure fun t n hvalue => ?_
    simp only [relabel, hvalue]
    rfl
  | binary op lhs rhs =>
    rw [children, List.forall_mem_cons, List.forall_mem_singleton] at hk
    refine .bind (hr.expr lhs hk.1) fun _ => .bind (hr.expr rhs hk.2) fun _ =>
      .pure fun t n hrhs hlhs => ?_
    simp only [relabel, hlhs, hrhs]
    rfl
  | cond test onTrue onFalse =>
    rw [children, List.forall_mem_cons, List.forall_mem_cons] at hk
    refine .bind (hr.expr test hk.1) fun _ => .bind (hr.expr onTrue hk.2.1) fun _ =>
      .bind (hexpr hk.2.2) fun _ => .pure fun t n hfalse htrue htest => ?_
    simp only [relabel, htest, htrue, hfalse]
    rfl

theorem Expr.writes_relabel {K : DeclId → Prop} {x : Expr} (hx : x.Lists K X) :
    Encoding.Writes e (fun _ => True) (x.relabel r) fun t n b => x.relabel (w t n) = some b := by
  refine .bind (Ty.writes_relabel hr fun _ _ => trivial) fun _ =>
    .bind (ExprKind.writes_relabel hr hx.parts) fun _ => .pure fun t n hkind hty => ?_
  simp only [relabel, hty, hkind]
  rfl

end Everything

end Writes

/-! ### Computations that give a result -/

section Total

variable {α β : Type}

/-- The computation gives a result, whatever table it starts from. -/
def Encoding.Total (x : Encoding α) : Prop := ∀ t, ∃ result, x t = some result

namespace Encoding.Total

variable {x : Encoding α} {f : α → Encoding β}

theorem pure (a : α) : Total (pure a) := fun t => ⟨(a, t), rfl⟩

theorem bind (hx : Total x) (hf : ∀ a, Total (f a)) : Total (x >>= f) := by
  intro t
  obtain ⟨⟨a, t'⟩, ha⟩ := hx t
  obtain ⟨result, hb⟩ := hf a t'
  refine ⟨result, ?_⟩
  change (x t).bind _ = _
  rw [ha]
  exact hb

theorem lift {o : Option α} (h : o ≠ none) : Total (liftM o : Encoding α) := by
  intro t
  obtain ⟨a, rfl⟩ := Option.ne_none_iff_exists'.1 h
  exact ⟨(a, t), rfl⟩

theorem list {l : List α} (hf : ∀ a ∈ l, Total (f a)) : Total (l.mapM f) := by
  induction l with
  | nil => exact .pure []
  | cons a l ih =>
    rw [List.forall_mem_cons] at hf
    rw [List.mapM_cons]
    exact .bind hf.1 fun b => .bind (ih hf.2) fun bs => .pure (b :: bs)

end Encoding.Total

/-- Types that mention the declaration are written without fail. -/
def Relabeling.TotalAt (r : Relabeling Encoding) (c : DeclId) : Prop :=
  Encoding.Total (r.reference c) ∧ ∀ i, Encoding.Total (r.param ⟨c, i⟩)

variable {r : Relabeling Encoding}

mutual

theorem Ty.total_relabel : ∀ {u : Ty}, (∀ c ∈ u.refs, r.TotalAt c) → Encoding.Total (u.relabel r)
  | .prim p, _ => .pure _
  | .invalid, _ => .pure _
  | .param q, h => .bind ((h _ List.mem_cons_self).2 q.index) fun q' => .pure _
  | .tuple _, h => .bind (Ty.total_relabelAll h) fun items => .pure _
  | .func params ret, h => by
    rw [Ty.refs, List.forall_mem_append] at h
    exact .bind (Ty.total_relabelAll h.1) fun params' => .bind (Ty.total_relabel h.2) fun ret' =>
      .pure _
  | .named d args, h => by
    rw [Ty.refs, List.forall_mem_cons] at h
    exact .bind h.1.1 fun d' => .bind (Ty.total_relabelAll h.2) fun args' => .pure _

theorem Ty.total_relabelAll : ∀ {l : List Ty}, (∀ c ∈ Ty.refsAll l, r.TotalAt c) →
    Encoding.Total (Ty.relabelAll r l)
  | [], _ => .pure []
  | u :: us, h => by
    rw [Ty.refsAll, List.forall_mem_append] at h
    exact .bind (Ty.total_relabel h.1) fun u' => .bind (Ty.total_relabelAll h.2) fun us' =>
      .pure (u' :: us')

end

theorem Subst.total_relabel {s : Subst} (h : ∀ c ∈ s.refs, r.TotalAt c) :
    Encoding.Total (s.relabel r) := by
  refine .bind (.list fun x hx => ?_) fun entries => .pure (ofList entries)
  have hx' : ∀ c ∈ x.1.owner :: x.2.refs, r.TotalAt c := fun c hc =>
    h c (List.mem_flatMap.2 ⟨x, hx, hc⟩)
  rw [List.forall_mem_cons] at hx'
  exact .bind (Ty.total_relabel hx'.2) fun v => .bind (hx'.1.2 x.1.index) fun q => .pure (q, v)

end Total

/-! ### Symbols -/

namespace SymbolTable

variable {e : Engine} {t t' : SymbolTable} {c d b : DeclId} {ref : SymbolRef} {i n : Nat}

theorem symbolBelow?_eq_some_iff : t.symbolBelow? n d = some b ↔
    ∃ i < n, t.index.get? d = some i ∧ Archive.symbol i = b := by
  simp only [symbolBelow?, Option.map_eq_some_iff, Option.filter_eq_some_iff, decide_eq_true_eq]
  constructor
  · rintro ⟨i, ⟨hi, hlt⟩, hb⟩
    exact ⟨i, hlt, hi, hb⟩
  · rintro ⟨i, hlt, hi, hb⟩
    exact ⟨i, ⟨hi, hlt⟩, hb⟩

theorem Extends.symbolBelow? (h : t.Extends t') (hb : t.symbolBelow? n d = some b) :
    t'.symbolBelow? n d = some b := by
  rw [symbolBelow?_eq_some_iff] at hb ⊢
  obtain ⟨i, hlt, hi, rfl⟩ := hb
  exact ⟨i, hlt, h.index hi, rfl⟩

theorem Extends.symbolizes (h : t.Extends t') (href : e.Symbolizes t n d ref) :
    e.Symbolizes t' n d ref := by
  cases ref with
  | plain path => exact href
  | instanceOf path s =>
    obtain ⟨key, hk, hpath, hs⟩ := href
    exact ⟨key, hk, hpath, Subst.relabel_writing_mono hs h.symbolBelow?⟩

/-- Whatever the arguments of an instance mention has an earlier symbol. -/
theorem exists_symbol_of_mentions (href : e.Symbolizes t n d ref) (hc : e.Mentions c d) :
    ∃ i < n, t.index.get? c = some i := by
  obtain ⟨key, hk, hc⟩ := hc
  cases ref with
  | plain path => cases hk.symm.trans href.1
  | instanceOf path s =>
    obtain ⟨key', hk', -, hs⟩ := href
    obtain rfl := Option.some.inj (hk.symm.trans hk')
    obtain ⟨b, hb⟩ := Subst.exists_of_mem_refs hs hc
    obtain ⟨i, hlt, hi, -⟩ := symbolBelow?_eq_some_iff.1 (show t.symbolBelow? n c = some b from hb)
    exact ⟨i, hlt, hi⟩

section Add

theorem index_add (t : SymbolTable) (c d : DeclId) (ref : SymbolRef) :
    (t.add d ref).index.get? c = if c = d then some t.symbols.length else t.index.get? c :=
  Assoc.get?_insert t.index d c t.symbols.length

theorem length_lt_add (t : SymbolTable) (d : DeclId) (ref : SymbolRef) :
    t.symbols.length < (t.add d ref).symbols.length := by
  change _ < (t.symbols ++ [ref]).length
  rw [List.length_append]
  exact Nat.lt_succ_self _

variable (hd : t.index.get? d = none)
include hd

theorem extends_add : t.Extends (t.add d ref) where
  symbols := List.prefix_append _ _
  index {c i} hc := by
    rw [index_add, if_neg]
    · exact hc
    · rintro rfl
      cases hd.symm.trans hc

theorem Sound.add (h : t.Sound e) (href : e.Symbolizes (t.add d ref) t.symbols.length d ref) :
    (t.add d ref).Sound e where
  lt {c i} hc := by
    rw [index_add] at hc
    split at hc
    · obtain rfl := Option.some.inj hc
      exact length_lt_add t d ref
    · exact (h.lt hc).trans (length_lt_add t d ref)
  inj {c c' i} hc hc' := by
    rw [index_add] at hc hc'
    split at hc <;> split at hc'
    · rename_i hcd hcd'
      exact hcd.trans hcd'.symm
    · obtain rfl := Option.some.inj hc
      exact absurd (h.lt hc') (Nat.lt_irrefl _)
    · obtain rfl := Option.some.inj hc'
      exact absurd (h.lt hc) (Nat.lt_irrefl _)
    · exact h.inj hc hc'
  symbolizes {i ref'} hi := by
    change (t.symbols ++ [ref])[i]? = some ref' at hi
    by_cases hlt : i < t.symbols.length
    · rw [List.getElem?_append_left hlt] at hi
      obtain ⟨c, hc, hsym⟩ := h.symbolizes hi
      exact ⟨c, (extends_add hd).index hc, (extends_add hd).symbolizes hsym⟩
    · have hlast : i = t.symbols.length := by
        have hbound := (List.getElem?_eq_some_iff.1 hi).1
        rw [List.length_append, List.length_singleton] at hbound
        omega
      subst hlast
      rw [List.getElem?_concat_length] at hi
      obtain rfl := Option.some.inj hi
      exact ⟨d, by rw [index_add, if_pos rfl], href⟩

end Add

/-- The arguments of an instance have got their symbols, so the instance gets one. -/
theorem Grows.add (h : t.Grows e (e.Mentions · d) t') (hd : t.index.get? d = none)
    (href : ∀ t'', t'.Extends t'' → e.Symbolizes t'' t'.symbols.length d ref) :
    t'.index.get? d = none ∧ t.Grows e (· = d) (t'.add d ref) := by
  have hacc : Acc (e.Awaits t) d := by
    refine Acc.intro d fun c hc => ?_
    obtain ⟨i, -, hi⟩ := exists_symbol_of_mentions (href t' (.refl t')) hc.2
    rcases h.acc (d := c) (by rw [hi]; exact Option.some_ne_none i) with hold | hacc
    · exact Acc.intro c fun b hb => absurd hb.1 hold
    · exact hacc
  have hlead : ∀ {c}, t'.index.get? c ≠ none →
      t.index.get? c ≠ none ∨ Relation.TransGen (e.Awaits t) c d := fun hc =>
    (h.leads hc).imp id fun ⟨b, hb, hcb⟩ => Relation.TransGen.tail' hcb ⟨hd, hb⟩
  -- If the instance had got a symbol on the way, then its arguments would lead back to it.
  have hirrefl : ∀ c, Acc (Relation.TransGen (e.Awaits t)) c →
      ¬ Relation.TransGen (e.Awaits t) c c := by
    intro c hc
    induction hc with
    | intro c _ ih => exact fun hself => ih c hself hself
  have hfresh : t'.index.get? d = none := by
    by_contra hne
    rcases hlead hne with hold | hcycle
    · exact hold hd
    · exact hirrefl d hacc.transGen hcycle
  refine ⟨hfresh, h.toExtends.trans (extends_add hfresh), h.sound.add hfresh ?_, ?_, ?_⟩
  · exact href _ (extends_add hfresh)
  · intro c hc
    rw [index_add] at hc
    split at hc
    · rename_i hcd
      exact .inr (hcd ▸ hacc)
    · exact h.acc hc
  · intro c hc
    rw [index_add] at hc
    split at hc
    · rename_i hcd
      exact .inr ⟨d, rfl, hcd ▸ .refl⟩
    · exact (hlead hc).imp id fun hcd => ⟨d, rfl, hcd.to_reflTransGen⟩

end SymbolTable

namespace Engine

variable {e : Engine} {M : DeclId → Prop} {X : ExprId → Prop}

/-- Writing node by node is writing as the table says, if declarations are written as it says. -/
theorem records_encoder {write : DeclId → Encoding DeclId} {rename : ExprId → ExprId}
    {decls : Assoc DeclId Nat} {exprs : Assoc ExprId Nat}
    (hdecl : ∀ d, M d → Encoding.Writes e M (write d) fun t n b => t.decl? n decls d = some b)
    (hexpr : ∀ x, X x → (exprs.get? x).map ExprId.mk = some (rename x)) :
    Relabeling.Records e M X (encoder write rename) fun t n => t.writer n decls exprs where
  decl := hdecl
  expr x hx := .pure fun _ _ => hexpr x hx
  param q hq := .bind (hdecl q.owner hq) fun owner => .pure fun t n howner => by
    change (t.decl? n decls q.owner).map _ = _
    rw [howner]
    rfl
  reference := hdecl

theorem writes_symbolRef {write : DeclId → Encoding DeclId}
    (hw : ∀ c, Encoding.Writes e (· = c) (write c) fun t n b => t.symbolBelow? n c = some b)
    (d : DeclId) : Encoding.Writes e (e.Mentions · d) (e.symbolRef write d)
      fun t n ref => e.Symbolizes t n d ref := by
  unfold symbolRef
  split
  · rename_i key hk
    have hr : Relabeling.Records e (e.Mentions · d) (fun _ => False) (encoder write id)
        fun t n => t.writer n {} {} :=
      records_encoder (fun c hc => (hw c).mono (fun _ h => h ▸ hc) fun _ _ _ h => h) nofun
    refine .bind (Subst.writes_relabel hr fun c hc => ⟨key, hk, hc⟩) fun s => ?_
    exact .lift_bind fun path hpath => .pure fun t n hs => ⟨key, hk, hpath, hs⟩
  · rename_i hk
    exact .lift_bind fun path hpath => .pure fun t n => ⟨hk, hpath⟩

/-- A declaration that has a symbol keeps it. -/
theorem encodeSymbolWithin_of_some {t : SymbolTable} {d : DeclId} {i : Nat}
    (hi : t.index.get? d = some i) (k : Nat) :
    e.encodeSymbolWithin (k + 1) d t = some (Archive.symbol i, t) := by
  change (match t.index.get? d with
    | some i => (pure (Archive.symbol i) : Encoding DeclId)
    | none => _) t = _
  rw [hi]
  rfl

/-- The symbol of any other declaration is the next one after the symbols in its arguments. -/
theorem encodeSymbolWithin_of_none {t : SymbolTable} {d : DeclId} (hd : t.index.get? d = none)
    (k : Nat) : e.encodeSymbolWithin (k + 1) d t =
      (e.symbolRef (e.encodeSymbolWithin k) d t).map
        fun x => (Archive.symbol x.2.symbols.length, x.2.add d x.1) := by
  change (match t.index.get? d with
    | some i => (pure (Archive.symbol i) : Encoding DeclId)
    | none => _) t = _
  rw [hd]
  change (e.symbolRef (e.encodeSymbolWithin k) d t).bind _ = _
  cases e.symbolRef (e.encodeSymbolWithin k) d t <;> rfl

/-- The symbol of a declaration stands for it in all later tables. -/
theorem writes_encodeSymbolWithin (k : Nat) (d : DeclId) :
    Encoding.Writes e (· = d) (e.encodeSymbolWithin k d)
      fun t n b => t.symbolBelow? n d = some b := by
  induction k generalizing d with
  | zero => exact fun t b t' _ h => nomatch h
  | succ k ih =>
    intro t b t' ht h
    cases hd : t.index.get? d with
    | some i =>
      rw [encodeSymbolWithin_of_some hd] at h
      obtain ⟨rfl, rfl⟩ := Prod.mk.inj (Option.some.inj h)
      refine ⟨.refl ht, fun t' n hext hn => SymbolTable.symbolBelow?_eq_some_iff.2 ⟨i, ?_, ?_, rfl⟩⟩
      · exact Nat.lt_of_lt_of_le (ht.lt hd) hn
      · exact hext.index hd
    | none =>
      rw [encodeSymbolWithin_of_none hd] at h
      obtain ⟨⟨ref, t₁⟩, href, h⟩ := Option.map_eq_some_iff.1 h
      obtain ⟨rfl, rfl⟩ := Prod.mk.inj h
      obtain ⟨hgrows, hsym⟩ := writes_symbolRef ih d ht href
      obtain ⟨-, hgrows⟩ := hgrows.add hd fun t' hext => hsym t' _ hext le_rfl
      refine ⟨hgrows, fun t' n hext hn =>
        SymbolTable.symbolBelow?_eq_some_iff.2 ⟨t₁.symbols.length, ?_, ?_, rfl⟩⟩
      · exact Nat.lt_of_lt_of_le (SymbolTable.length_lt_add t₁ d ref) hn
      · exact hext.index (by rw [SymbolTable.index_add, if_pos rfl])

theorem writes_encodeSymbol (d : DeclId) : Encoding.Writes e (· = d) (e.encodeSymbol d)
    fun t n b => t.symbolBelow? n d = some b :=
  writes_encodeSymbolWithin _ d

/-! ### Nesting -/

/-- The arguments of instances mention older declarations and declarations that are no instances. -/
def Descends (e : Engine) : Prop :=
  ∀ {c d}, e.Mentions c d → c.index < d.index ∨ e.registry.keyOf? c = none

/-- What a key mentions is older than its instance or the owner of a type parameter. -/
theorem Ordered.forall_mem_refs (he : e.Ordered) {d : DeclId} {key : InstanceKey}
    (hk : e.registry.keyOf? d = some key) {P : DeclId → Prop} (hold : ∀ c, c.index < d.index → P c)
    (hparams : ∀ x ∈ key.subst.entries, ∀ q ∈ x.1 :: x.2.params, P q.owner) :
    ∀ c ∈ key.subst.refs, P c := by
  intro c hc
  obtain ⟨⟨q, v⟩, hx, hc⟩ := List.mem_flatMap.1 hc
  have howners := hparams _ hx
  rw [List.forall_mem_cons] at howners
  rcases List.mem_cons.1 hc with rfl | hc
  · exact howners.1
  · have hv : v ∈ key.subst.values := List.mem_map_of_mem (f := Prod.snd) hx
    exact Ty.forall_mem_refs (Ty.Handles.mono hold (he.values_below hk hv))
      (fun p (hp : p ∈ v.params) => howners.2 p hp) c hc

/-- As long as type parameters belong to templates, arguments are nested in the order in which instances
are made. -/
theorem Ordered.descends (he : e.Ordered)
    (hparams : ∀ {d key}, e.registry.keyOf? d = some key →
      ∀ x ∈ key.subst.entries, ∀ q ∈ x.1 :: x.2.params, e.registry.keyOf? q.owner = none) :
    e.Descends := by
  rintro c d ⟨key, hk, hc⟩
  exact he.forall_mem_refs hk (P := fun c => c.index < d.index ∨ e.registry.keyOf? c = none)
    (fun _ => .inl) (fun x hx q hq => .inr (hparams hk x hx q hq)) c hc

/-- How deep instances are nested in a declaration, at most. -/
def nesting (e : Engine) (d : DeclId) : Nat :=
  if e.registry.keyOf? d = none then 0 else e.instancesBelow d.index + 1

theorem nesting_le_size (e : Engine) (d : DeclId) : e.nesting d ≤ e.registry.keys.size := by
  unfold nesting
  split
  · exact Nat.zero_le _
  · rename_i hd
    obtain ⟨key, hk⟩ := Option.ne_none_iff_exists'.1 hd
    exact (instancesBelow_lt hk (Nat.lt_succ_self _)).trans_le (e.instancesBelow_le_size _)

theorem Descends.nesting_lt (he : e.Descends) {c d : DeclId} (h : e.Mentions c d) :
    e.nesting c < e.nesting d := by
  obtain ⟨key, hk, -⟩ := id h
  have hd : e.registry.keyOf? d ≠ none := by
    rw [hk]
    exact Option.some_ne_none key
  unfold nesting
  rw [if_neg hd]
  split
  · exact Nat.succ_pos _
  · rename_i hc
    obtain ⟨key', hk'⟩ := Option.ne_none_iff_exists'.1 hc
    exact Nat.succ_lt_succ (instancesBelow_lt hk' ((he h).resolve_right hc))

/-- The symbol of a declaration depends on how the declarations in its arguments are written. -/
theorem symbolRef_congr {write write' : DeclId → Encoding DeclId} {d : DeclId}
    (h : ∀ c, e.Mentions c d → write c = write' c) : e.symbolRef write d = e.symbolRef write' d := by
  have hagrees : ∀ c, e.Mentions c d → (encoder write id).Agrees (encoder write' id) c := by
    refine fun c hc => ⟨h c hc, fun i => ?_⟩
    change (write c >>= fun owner => pure { owner := owner, index := i : ParamId }) =
      write' c >>= fun owner => pure { owner := owner, index := i }
    rw [h c hc]
  unfold symbolRef
  split
  · rename_i key hk
    rw [Subst.relabel_congr fun c hc => hagrees c ⟨key, hk, hc⟩]
  · rfl

/-- More depth than instances are nested makes no difference. -/
theorem Descends.encodeSymbolWithin_succ (he : e.Descends) {k : Nat} {d : DeclId}
    (hk : e.nesting d < k) : e.encodeSymbolWithin (k + 1) d = e.encodeSymbolWithin k d := by
  induction k generalizing d with
  | zero => omega
  | succ k ih =>
    have hcongr : e.symbolRef (e.encodeSymbolWithin (k + 1)) d =
        e.symbolRef (e.encodeSymbolWithin k) d :=
      symbolRef_congr fun c hc => ih (Nat.lt_of_lt_of_le (he.nesting_lt hc) (Nat.le_of_lt_succ hk))
    funext t
    cases hd : t.index.get? d with
    | some i => rw [encodeSymbolWithin_of_some hd, encodeSymbolWithin_of_some hd]
    | none => rw [encodeSymbolWithin_of_none hd, encodeSymbolWithin_of_none hd, hcongr]

/-- Symbols are given out by a recursion over the arguments of instances, which comes to an end: the
bound on its depth is never reached. -/
theorem Descends.encodeSymbol_eq (he : e.Descends) (d : DeclId) (t : SymbolTable) :
    e.encodeSymbol d t =
      match t.index.get? d with
      | some i => some (Archive.symbol i, t)
      | none => (e.symbolRef e.encodeSymbol d t).map
        fun x => (Archive.symbol x.2.symbols.length, x.2.add d x.1) := by
  have hcongr : e.symbolRef e.encodeSymbol d =
      e.symbolRef (e.encodeSymbolWithin e.registry.keys.size) d :=
    symbolRef_congr fun c hc => he.encodeSymbolWithin_succ
      (Nat.lt_of_lt_of_le (he.nesting_lt hc) (e.nesting_le_size d))
  rw [hcongr]
  cases hd : t.index.get? d with
  | some i => exact encodeSymbolWithin_of_some hd _
  | none => exact encodeSymbolWithin_of_none hd _

theorem total_symbolRef {write : DeclId → Encoding DeclId} {d : DeclId}
    (hw : ∀ c, e.Mentions c d → Encoding.Total (write c))
    (hpath : e.package.stablePath? (e.templateOf d) ≠ none) :
    Encoding.Total (e.symbolRef write d) := by
  unfold symbolRef
  split
  · rename_i key hk
    rw [templateOf, hk] at hpath
    refine .bind (Subst.total_relabel fun c hc => ?_) fun s => .bind (.lift hpath) fun path =>
      .pure _
    have hc' := hw c ⟨key, hk, hc⟩
    exact ⟨hc', fun i => .bind hc' fun owner => .pure _⟩
  · rename_i hk
    rw [templateOf, hk] at hpath
    exact .bind (.lift hpath) fun path => .pure _

/-- Symbols are given out for all declarations of a set that have paths and mention declarations of the
set only. -/
theorem Descends.total_encodeSymbol (he : e.Descends) {S : DeclId → Prop}
    (hS : ∀ {c d}, e.Mentions c d → S d → S c)
    (hpath : ∀ {d}, S d → e.package.stablePath? (e.templateOf d) ≠ none) {d : DeclId} (hd : S d) :
    Encoding.Total (e.encodeSymbol d) := by
  have hwithin : ∀ k d, e.nesting d < k → S d → Encoding.Total (e.encodeSymbolWithin k d) := by
    intro k
    induction k with
    | zero => exact fun d hlt => absurd hlt (Nat.not_lt_zero _)
    | succ k ih =>
      intro d hlt hd t
      have hargs : ∀ c, e.Mentions c d → Encoding.Total (e.encodeSymbolWithin k c) := fun c hc =>
        ih c (Nat.lt_of_lt_of_le (he.nesting_lt hc) (Nat.le_of_lt_succ hlt)) (hS hc hd)
      cases hget : t.index.get? d with
      | some i => exact ⟨_, encodeSymbolWithin_of_some hget k⟩
      | none =>
        obtain ⟨result, href⟩ := total_symbolRef hargs (hpath hd) t
        rw [encodeSymbolWithin_of_none hget, href]
        exact ⟨_, rfl⟩
  exact hwithin _ d (Nat.lt_succ_of_le (e.nesting_le_size d)) hd

/-! ### Subtrees -/

/-- Nodes of a subtree are written as the table says. -/
theorem records_subtreeEncoder (decls : Assoc DeclId Nat) (exprs : Assoc ExprId Nat) :
    Relabeling.Records e (fun _ => True) (fun x => exprs.get? x ≠ none) (e.subtreeEncoder decls exprs)
      fun t n => t.writer n decls exprs := by
  refine records_encoder (fun d _ => ?_) fun x hx => ?_
  · cases hd : decls.get? d with
    | some i => 
      exact .pure fun t n => by rw [SymbolTable.decl?, hd]
    | none =>
      refine (writes_encodeSymbol d).mono (fun _ _ => trivial) fun t n b hb => ?_
      rw [SymbolTable.decl?, hd]
      exact hb
  · cases hx' : exprs.get? x with
    | some i => rfl
    | none => exact absurd hx' hx

end Engine

end Monomorph
