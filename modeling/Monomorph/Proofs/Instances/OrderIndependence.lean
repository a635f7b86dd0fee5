import Monomorph.Proofs.Instances.Accesses
import Monomorph.Proofs.Instances.Closure
import Monomorph.Proofs.Instances.Likenesses
import Monomorph.Proofs.Package.Deciding

/-!
# Requests in any order

Requests that succeed may be made in any order. In which state a key is instantiated depends on the order:
another instance may still be in the making, or an extension may have been attached before. But what the key
calls for does not, and neither does the name or the shape of its instance. So the same keys are registered
in the end, and the instances of a key look alike.

It is assumed that type arguments apply only types at the top to further arguments, as the checker has it.
If one applies a function, the function is instantiated when the type is rearranged, and the type mentions
this instance from then on. No canonical form undoes it, so the handle of the instance shows in the keys,
and handles do depend on the order (`Engine.order_shows_in_keys`).

## Main results

* `Engine.order_independent`: the order of requests shows neither in the keys nor in the names and shapes.
-/

namespace Monomorph

namespace Engine

/-- Keys are registered along with slots. -/
theorem Sound.mem_keySet_iff {e : Engine} (he : e.Sound) {key : InstanceKey} :
    key ∈ e.keySet ↔ (e.registry.slots.get? key).isSome = true := by
  rw [Option.isSome_iff_exists]
  constructor
  · rintro ⟨d, hk⟩
    obtain ⟨slot, hslot, -⟩ := he.indexed.slot_keyOf hk
    exact ⟨slot, hslot⟩
  · rintro ⟨slot, hslot⟩
    exact ⟨slot.decl, he.indexed.keyOf_slot hslot⟩

/-- Two lists of requests on declarations of the package that differ in the order only and that both
succeed lead to the same keys. The two instances of a key have the same name and the same shape.

It is part of well-formedness that every named type of the package names a type or an interface at the
top with exactly its number of arguments. No type is nested in another declaration, the arguments of the
requests apply types at the top, and the accessibility rule is `AccessRule.Firm`: its
verdict on a declaration rests on what instantiation does not change in it and in its parent. -/
theorem order_independent {p : Package} (hp : p.WellFormed) (hflat : p.FlatTypes)
    (htop : ∀ d ∈ p.topLevel, d.index < p.decls.size) (config : Config) {access : AccessRule}
    (hfirm : access.Firm) {reqs reqs' : List (DeclId × Subst)} (hperm : reqs.Perm reqs')
    (hreqs : ∀ r ∈ reqs, r.1.index < p.decls.size ∧
      ∀ v ∈ r.2.values, v.Applies fun d n => (n ≠ 0 → p.TopType d) ∧ d.index < p.decls.size)
    {b e e' : Engine} (hb : b = start p config access .reserved)
    (hok : b.Succeeds (reqs.map fun r => .instantiate r.1 r.2)) (he : e = b.afterRequests reqs)
    (hok' : b.Succeeds (reqs'.map fun r => .instantiate r.1 r.2)) (he' : e' = b.afterRequests reqs') :
    (∀ key, (e.registry.slots.get? key).isSome = (e'.registry.slots.get? key).isSome) ∧
      ∀ key slot slot', e.registry.slots.get? key = some slot → e'.registry.slots.get? key = some slot' →
        ∃ decl decl' name shape, e.package.decl? slot.decl = some decl ∧
          e'.package.decl? slot'.decl = some decl' ∧ decl.mangled = some name ∧
          decl'.mangled = some name ∧ e.shape? slot.decl = some shape ∧
          e'.shape? slot'.decl = some shape := by
  have h : Begins ⟨p, true⟩ b := ⟨hp, rfl, hflat, htop, hb ▸ hfirm, config, access, hb⟩
  have horiginal : ∀ r ∈ reqs, r.1.index < p.decls.size ∧ Setting.Originals ⟨p, true⟩ r.2 :=
    fun r hr => (hreqs r hr).imp_right fun hvalues => Subst.applies_iff_values.2 fun v hv =>
      (hvalues v hv).mono fun _ _ hname => hname.imp_left fun hn _ => hn
  have horiginal' : ∀ r ∈ reqs', r.1.index < p.decls.size ∧ Setting.Originals ⟨p, true⟩ r.2 :=
    fun r hr => horiginal r (hperm.mem_iff.2 hr)
  obtain ⟨hl, -⟩ := h.ledger.requests h horiginal hok
  obtain ⟨hl', -⟩ := h.ledger.requests h horiginal' hok'
  have hkeys : e.keySet = e'.keySet := by
    have hleast := h.isLeast_keySet horiginal hok
    rw [requestedKeys_perm b hperm] at hleast
    rw [he, he']
    exact hleast.unique (h.isLeast_keySet horiginal' hok')
  rw [← he] at hl
  rw [← he'] at hl'
  have hsound := (hl.orderly h).settled.sound
  have hsound' := (hl'.orderly h).settled.sound
  refine ⟨fun key => ?_, fun key slot slot' hslot hslot' => ?_⟩
  · rw [Bool.eq_iff_iff, ← hsound.mem_keySet_iff, ← hsound'.mem_keySet_iff, hkeys]
  · have hk := hsound.indexed.keyOf_slot hslot
    have hk' := hsound'.indexed.keyOf_slot hslot'
    obtain ⟨decl, name, hd, hmangled, hname⟩ := hl.mangled_eq h hk
    obtain ⟨decl', name', hd', hmangled', hname'⟩ := hl'.mangled_eq h hk'
    obtain ⟨shape, hshape, htold⟩ := hl.shape?_eq h hk
    obtain ⟨shape', hshape', htold'⟩ := hl'.shape?_eq h hk'
    obtain rfl := Option.some.inj (hname.symm.trans hname')
    obtain rfl := Option.some.inj (htold.symm.trans htold')
    exact ⟨decl, decl', name, shape, hd, hd', hmangled, hmangled', hshape, hshape'⟩

/-- The request for `Wrap<t>`. -/
def wrapRequest (t : Ty) : DeclId × Subst := (⟨1⟩, .ofList [(⟨⟨1⟩, 0⟩, t)])

/-- The request for `Box<t>`. -/
def boxRequest (t : Ty) : DeclId × Subst := (⟨0⟩, .ofList [(⟨⟨0⟩, 0⟩, t)])

/-- The state after several requests on this package. -/
def wrapState (reqs : List (DeclId × Subst)) : Engine :=
  (start wrapPackage {} .visible .reserved).afterRequests reqs

/-- `Box<Int64>`, which is made on the way to `Wrap<Int64>`, is another declaration if `Box<Bool>` has been
made before, with the same name and the same shape. -/
theorem order_independent_wrap_box :
    let wrap := wrapRequest (.prim .int64)
    let box := boxRequest (.prim .bool)
    let key : InstanceKey := ⟨⟨0⟩, (boxRequest (.prim .int64)).2⟩
    (∀ key, ((wrapState [wrap, box]).registry.slots.get? key).isSome =
        ((wrapState [box, wrap]).registry.slots.get? key).isSome) ∧
      ∃ slot slot' decl decl' name shape,
        (wrapState [wrap, box]).registry.slots.get? key = some slot ∧ slot.decl = ⟨6⟩ ∧
        (wrapState [box, wrap]).registry.slots.get? key = some slot' ∧ slot'.decl = ⟨7⟩ ∧
        (wrapState [wrap, box]).package.decl? slot.decl = some decl ∧
        (wrapState [box, wrap]).package.decl? slot'.decl = some decl' ∧
        decl.mangled = some name ∧ decl'.mangled = some name ∧
        (wrapState [wrap, box]).shape? slot.decl = some shape ∧
        (wrapState [box, wrap]).shape? slot'.decl = some shape := by
  intro wrap box key
  have hok : (start wrapPackage {} .visible .reserved).Succeeds
      ([wrapRequest (.prim .int64), boxRequest (.prim .bool)].map fun r => .instantiate r.1 r.2) := by
    decide +kernel
  have hok' : (start wrapPackage {} .visible .reserved).Succeeds
      ([boxRequest (.prim .bool), wrapRequest (.prim .int64)].map fun r => .instantiate r.1 r.2) := by
    decide +kernel
  obtain ⟨hkeys, halike⟩ := order_independent (by decide +kernel) (by decide +kernel) (by decide +kernel) {}
    AccessRule.firm_visible (List.Perm.swap box wrap []) (by decide +kernel) rfl hok
    (rfl : wrapState [wrap, box] = _) hok' (rfl : wrapState [box, wrap] = _)
  have hslot : ((wrapState [wrap, box]).registry.slots.get? key).map (·.decl) = some ⟨6⟩ := by
    decide +kernel
  have hslot' : ((wrapState [box, wrap]).registry.slots.get? key).map (·.decl) = some ⟨7⟩ := by
    decide +kernel
  obtain ⟨slot, hslot, hd⟩ := Option.map_eq_some_iff.1 hslot
  obtain ⟨slot', hslot', hd'⟩ := Option.map_eq_some_iff.1 hslot'
  obtain ⟨decl, decl', name, shape, hsame⟩ := halike key slot slot' hslot hslot'
  exact ⟨hkeys, slot, slot', decl, decl', name, shape, hslot, hd, hslot', hd', hsame⟩

/-- `Box<f<Int64>>` is registered with the instance of `f` as its type argument, which is another handle if
a `Box<Bool>` has been made before. -/
theorem order_shows_in_keys :
    let f : Ty := .named ⟨2⟩ [.prim .int64]
    let reqs := [wrapRequest f, boxRequest (.prim .bool)]
    let reqs' := [boxRequest (.prim .bool), wrapRequest f]
    let key : InstanceKey := ⟨⟨0⟩, (boxRequest (.named ⟨6⟩ [])).2⟩
    wrapPackage.WellFormed ∧ wrapPackage.FlatTypes ∧ reqs.Perm reqs' ∧
      (∀ r ∈ reqs, r.1.index < wrapPackage.decls.size ∧
        ∀ v ∈ r.2.values, v.Applies fun d _ => d.index < wrapPackage.decls.size) ∧
      (start wrapPackage {} .visible .reserved).Succeeds (reqs.map fun r => .instantiate r.1 r.2) ∧
      (start wrapPackage {} .visible .reserved).Succeeds (reqs'.map fun r => .instantiate r.1 r.2) ∧
      ((wrapState reqs).registry.slots.get? key).isSome = true ∧
      ((wrapState reqs').registry.slots.get? key).isSome = false :=
  ⟨by decide +kernel, by decide +kernel, .swap _ _ [], by decide +kernel, by decide +kernel,
    by decide +kernel, by decide +kernel, by decide +kernel⟩

end Engine

end Monomorph
