import Monomorph.Proofs.Requests.Stability

/-!
# What requests do to records

While a request is answered, extensions may be attached to types, and what has been found out about
them is noted. Nothing that was noted before is revised: the candidates for a type stay the same, an
extension stays attached to a type, and an extension that does not apply to a type is not attached to
it later. Dispatch tables are not built on the way, and the ones that are dropped belong to types that
did not exist before.

## Main definitions

* `DispatchTable.Keyed`: tables whose entries are found under their types and methods.
* `Engine.Retains`: records that have not been revised.
* `Engine.Retaining`: settled states lead to later states with the same records.

## Main results

* `Engine.creating_retaining`, `Run.retaining_instantiate`: requests do not revise records.
-/

namespace Monomorph

open Run (Drafted)

namespace Assoc

variable {α β : Type} [DecidableEq α]

theorem get?_filter_eq_some {m : Assoc α β} {keep : α → β → Bool} {k : α} {v : β} :
    (m.filter keep).get? k = some v ↔ m.get? k = some v ∧ keep k v = true := by
  rw [get?_eq_some_iff, get?_eq_some_iff]
  exact List.mem_filter

/-- Dropping other keys does not matter. -/
theorem get?_filter_of_forall {m : Assoc α β} {keep : α → β → Bool} {k : α}
    (h : ∀ v, keep k v = true) : (m.filter keep).get? k = m.get? k :=
  Option.ext fun v => get?_filter_eq_some.trans (and_iff_left (h v))

theorem get?_eq_none_of_contains {m : Assoc α β} {k : α} (h : m.contains k = false) :
    m.get? k = none :=
  Option.isSome_eq_false_iff.1 h |> Option.isNone_iff_eq_none.1

end Assoc

/-- A draft differs from the state before in code and registry only. -/
theorem Run.Drafted.rest {e e' : Engine} {key : InstanceKey} {root : DeclId} {copy : Copy}
    (hd : Drafted key root copy e e') : ∃ p r, e' = { e with package := p, registry := r } := by
  obtain ⟨name, e₁, q, stamped, -, hr, -, -, hj⟩ := hd.steps
  obtain ⟨p₁, r₁, rfl⟩ := hr.rest
  obtain ⟨p₂, r₂, rfl⟩ := hj.rest
  exact ⟨p₂, r₂, rfl⟩

/-- Every entry is found under its type and its method. -/
def DispatchTable.Keyed (t : DispatchTable) : Prop :=
  ∀ (key : DeclId × DeclId) (entry : DispatchEntry), t.entries.get? key = some entry →
    (entry.ty, entry.abstractMethod) = key

theorem DispatchTable.Keyed.insert {t : DispatchTable} (h : t.Keyed) (entry : DispatchEntry) :
    DispatchTable.Keyed
      { t with entries := t.entries.insert (entry.ty, entry.abstractMethod) entry } := by
  intro key entry' hk
  rw [Assoc.get?_insert] at hk
  split at hk
  · rename_i heq
    rw [← Option.some.inj hk, heq]
  · exact h key entry' hk

theorem DispatchTable.Keyed.forget {t : DispatchTable} (h : t.Keyed) (ty : DeclId) :
    (t.forget ty).Keyed := fun key entry hk =>
  h key entry (Assoc.get?_filter_eq_some.1 hk).1

/-- The entries of a type are the ones that are found under it. -/
theorem DispatchTable.Keyed.mem_ofType_iff {t : DispatchTable} (h : t.Keyed) {ty : DeclId}
    {entry : DispatchEntry} :
    entry ∈ t.ofType ty ↔ entry.ty = ty ∧ t.entries.get? (ty, entry.abstractMethod) = some entry := by
  unfold DispatchTable.ofType Assoc.values
  rw [List.mem_filter, decide_eq_true_eq, List.mem_map, and_comm]
  refine and_congr_right fun hty => ⟨?_, fun hk => ⟨_, (Assoc.get?_eq_some_iff _ _ _).1 hk, rfl⟩⟩
  rintro ⟨⟨key, entry'⟩, hmem, rfl⟩
  have hk := (Assoc.get?_eq_some_iff _ _ _).2 hmem
  rw [← hty, h _ _ hk]
  exact hk

/-- There is one entry for a method of a type at most. -/
theorem DispatchTable.Keyed.filter_ofType {t : DispatchTable} (h : t.Keyed) {ty method : DeclId}
    {entry : DispatchEntry} (hk : t.entries.get? (ty, method) = some entry) :
    ((t.ofType ty).filter fun e => e.abstractMethod = method) = [entry] := by
  have hvalues : t.entries.values.Nodup := by
    refine List.Nodup.map_on ?_ (t.entries.nodup.of_map _)
    rintro ⟨key, e⟩ hmem ⟨key', e'⟩ hmem' rfl
    have hkey := h _ _ ((Assoc.get?_eq_some_iff _ _ _).2 hmem)
    rw [← hkey, h _ _ ((Assoc.get?_eq_some_iff _ _ _).2 hmem')]
  have hlist := (hvalues.filter fun e => e.ty = ty).filter fun e => e.abstractMethod = method
  have hone : [entry].Nodup := List.nodup_singleton entry
  refine List.perm_singleton.1 ((List.perm_ext_iff_of_nodup hlist hone).2 fun e => ?_)
  rw [List.mem_singleton, List.mem_filter, ← DispatchTable.ofType, h.mem_ofType_iff, decide_eq_true_eq]
  constructor
  · rintro ⟨⟨-, hk'⟩, rfl⟩
    exact Option.some.inj (hk'.symm.trans hk)
  · rintro rfl
    have hkey := Prod.mk.inj (h _ _ hk)
    exact ⟨⟨hkey.1, hkey.2 ▸ hk⟩, hkey.2⟩

namespace Engine

variable {T : DeclId → Prop} {e e' e'' : Engine}

/-- Nothing that was noted at the time of `e` has been revised by the time of `e'`, and among the tables
of the types that existed, those of the types in `T` have been left alone. -/
structure Retains (T : DeclId → Prop) (e e' : Engine) : Prop where
  decls_le : e.package.decls.size ≤ e'.package.decls.size
  candidates : ∀ {t exts}, e.extensions.candidates.get? t = some exts →
    e'.extensions.candidates.get? t = some exts
  attached : ∀ {key inst}, e.extensions.attached.get? key = some inst →
    e'.extensions.attached.get? key = some inst
  rejected : ∀ {key}, key ∈ e.extensions.rejected → key ∈ e'.extensions.rejected
  withheld : ∀ {key}, key ∈ e.extensions.rejected → e.extensions.attached.get? key = none →
    e'.extensions.attached.get? key = none
  table : ∀ {ty : DeclId} (method : DeclId), T ty → ty.index < e.package.decls.size →
    e'.dispatch.entries.get? (ty, method) = e.dispatch.entries.get? (ty, method)
  keyed : e.dispatch.Keyed → e'.dispatch.Keyed

namespace Retains

theorem of_eq (hsize : e.package.decls.size ≤ e'.package.decls.size)
    (hcandidates : e'.extensions.candidates = e.extensions.candidates)
    (hattached : e'.extensions.attached = e.extensions.attached)
    (hrejected : e'.extensions.rejected = e.extensions.rejected)
    (hdispatch : e'.dispatch = e.dispatch) : Retains T e e' where
  decls_le := hsize
  candidates h := hcandidates ▸ h
  attached h := hattached ▸ h
  rejected h := hrejected ▸ h
  withheld _ h := hattached ▸ h
  table _ _ _ := by rw [hdispatch]
  keyed h := hdispatch ▸ h

theorem refl (T : DeclId → Prop) (e : Engine) : Retains T e e := of_eq (Nat.le_refl _) rfl rfl rfl rfl

theorem trans (h : Retains T e e') (h' : Retains T e' e'') : Retains T e e'' where
  decls_le := Nat.le_trans h.decls_le h'.decls_le
  candidates hk := h'.candidates (h.candidates hk)
  attached hk := h'.attached (h.attached hk)
  rejected hk := h'.rejected (h.rejected hk)
  withheld hk hfree := h'.withheld (h.rejected hk) (h.withheld hk hfree)
  table method hT hty :=
    (h'.table method hT (Nat.lt_of_lt_of_le hty h.decls_le)).trans (h.table method hT hty)
  keyed hk := h'.keyed (h.keyed hk)

/-- Changes to the code and to the registry. -/
theorem of_rest {p : Package} {r : Registry} (hsize : e.package.decls.size ≤ p.decls.size) :
    Retains T e { e with package := p, registry := r } :=
  of_eq hsize rfl rfl rfl rfl

/-- What was undecided in the beginning may be decided. -/
theorem notes (h : Retains T e e') (hn : Notes e e' e'') : Retains T e e'' := by
  cases hn with
  | candidates hnew exts =>
    refine ⟨h.decls_le, fun {t exts'} hk => ?_, h.attached, h.rejected, h.withheld, h.table, h.keyed⟩
    rw [Assoc.get?_insert]
    split
    · rename_i heq
      subst heq
      have hold := h.candidates hk
      rw [Assoc.get?_eq_none_of_contains hnew] at hold
      cases hold
    · exact h.candidates hk
  | @attached key hu hfree inst =>
    refine ⟨h.decls_le, h.candidates, fun {k d} hk => ?_, h.rejected, fun {k} hk hnone => ?_,
      h.table, h.keyed⟩
    · rw [Assoc.get?_insert]
      split
      · rename_i heq
        subst heq
        rw [hu.1] at hk
        cases hk
      · exact h.attached hk
    · have hne : k ≠ key := fun heq => hu.2 (heq ▸ hk)
      rw [Assoc.get?_insert, if_neg hne]
      exact h.withheld hk hnone
  | rejected hu =>
    refine ⟨h.decls_le, h.candidates, h.attached, fun {k} hk => ?_, h.withheld, h.table, h.keyed⟩
    dsimp only
    split
    · exact h.rejected hk
    · exact List.mem_append_left _ (h.rejected hk)

/-- The table of a type that did not exist is dropped. -/
theorem forget (h : Retains T e e') {ty : DeclId} (hty : e.package.decls.size ≤ ty.index) :
    Retains T e { e' with dispatch := e'.dispatch.forget ty } := by
  refine ⟨h.decls_le, h.candidates, h.attached, h.rejected, h.withheld, fun {c} method hT hc => ?_,
    fun hk => (h.keyed hk).forget ty⟩
  refine (Assoc.get?_filter_of_forall fun _ => ?_).trans (h.table method hT hc)
  rw [decide_eq_true_eq]
  rintro rfl
  exact Nat.lt_irrefl _ (Nat.lt_of_lt_of_le hc hty)

/-- If no tables have to be left alone, they do not matter. -/
theorem of_false (h : Retains (fun _ => False) e e') (hp : e''.package = e'.package)
    (hx : e''.extensions = e'.extensions) (hkeyed : e'.dispatch.Keyed → e''.dispatch.Keyed) :
    Retains (fun _ => False) e e'' where
  decls_le := by rw [hp]; exact h.decls_le
  candidates hk := by rw [hx]; exact h.candidates hk
  attached hk := by rw [hx]; exact h.attached hk
  rejected hk := by rw [hx]; exact h.rejected hk
  withheld hk hfree := by rw [hx]; exact h.withheld hk hfree
  table _ hT := hT.elim
  keyed hk := hkeyed (h.keyed hk)

theorem mono {T' : DeclId → Prop} (h : Retains T e e') (hT : ∀ d, T' d → T d) : Retains T' e e' :=
  ⟨h.decls_le, h.candidates, h.attached, h.rejected, h.withheld, fun m hm => h.table m (hT _ hm),
    h.keyed⟩

end Retains

theorem Bracket.retains_before {before after : Engine → Engine} (hb : Bracket e before after)
    (e' : Engine) : Retains T e' (before e') := by
  cases hb <;> exact .of_eq (Nat.le_refl _) rfl rfl rfl rfl

theorem Bracket.retains_after {before after : Engine → Engine} (hb : Bracket e before after)
    (e' : Engine) : Retains T e' (after e') := by
  cases hb <;> exact .of_eq (Nat.le_refl _) rfl rfl rfl rfl

/-- A settled state has led to a later one, and no records have been revised. -/
def Retaining (T : DeclId → Prop) (e e' : Engine) : Prop := e.Settled → Later e e' ∧ Retains T e e'

namespace Retaining

/-- A later state that differs in code and registry only. -/
theorem of_rest (hl : Settles e e') (hrest : ∃ p r, e' = { e with package := p, registry := r }) :
    Retaining T e e' := by
  intro he
  have hlater := hl he
  obtain ⟨p, r, rfl⟩ := hrest
  exact ⟨hlater, .of_rest hlater.decls_le⟩

theorem settles (h : Retaining T e e') : Settles e e' := fun he => (h he).1

/-- A change of the code or of the registry at the end. -/
theorem tail (h : Retaining T e e') (hl : Settles e e'')
    (hrest : ∃ p r, e'' = { e' with package := p, registry := r })
    (hsize : e'.package.decls.size ≤ e''.package.decls.size) : Retaining T e e'' := by
  intro he
  obtain ⟨p, r, rfl⟩ := hrest
  exact ⟨hl he, (h he).2.trans (.of_rest hsize)⟩

end Retaining

theorem passage_retaining (T : DeclId → Prop) : Passage (Retaining T) := by
  have hP := passage_settles
  have hbracket : ∀ {e e' : Engine} {before after : Engine → Engine}, Bracket e before after →
      Retaining T (before e) e' → Retaining T e (after e') := by
    intro e e' before after hb h he
    refine ⟨hP.bracket hb h.settles he, ?_⟩
    have hbefore := Settles.of_alike (hb.alike_before e) he
    exact ((hb.retains_before e).trans (h hbefore.settled).2).trans (hb.retains_after e')
  have htrans : ∀ {e e' e'' : Engine}, Retaining T e e' → Retaining T e' e'' → Retaining T e e'' := by
    intro e e' e'' h h' he
    obtain ⟨hl, hr⟩ := h he
    obtain ⟨hl', hr'⟩ := h' hl.settled
    exact ⟨hl.trans hl', hr.trans hr'⟩
  have hrefl : ∀ e : Engine, Retaining T e e := fun e he => ⟨.refl he, .refl T e⟩
  exact
    { trans := htrans
      of_level := fun h he => ⟨hP.of_level h he, .of_eq (Nat.le_of_eq (by rw [h.package]))
        (by rw [h.extensions]) (by rw [h.extensions]) (by rw [h.extensions]) h.dispatch⟩
      notes := fun h hn he => ⟨hP.notes h.settles hn he, (h he).2.notes hn⟩
      bracket := hbracket
      fail := htrans
      bracket_fail := hbracket
      stop := fun e _ _ => hrefl e
      blame := fun {e} _ _ => hrefl e
      resume := id }

theorem tabular_retaining : Tabular (Retaining fun _ => False) where
  entered entry h hnew he :=
    ⟨tabular_settles.entered entry h.settles hnew he,
      (h he).2.of_false rfl rfl fun hk => hk.insert entry⟩
  built e ty he := ⟨tabular_settles.built e ty he, (Retains.refl _ e).of_false rfl rfl id⟩
  forgotten e ty he := ⟨tabular_settles.forgotten e ty he,
    (Retains.refl _ e).of_false rfl rfl fun hk => hk.forget ty⟩
  reported e d he := ⟨tabular_settles.reported e d he, (Retains.refl _ e).of_false rfl rfl id⟩

theorem rewriting_retaining (T : DeclId → Prop) : Rewriting (Retaining T) where
  toPassage := passage_retaining T
  retype hS h hd hd' hk := h.tail (rewriting_settles.retype hS h.settles hd hd' hk) ⟨_, _, rfl⟩
    (Nat.le_of_eq (Package.size_decls_setDecl _ _ _).symm)
  reexpress hS h hx hk := h.tail (rewriting_settles.reexpress hS h.settles hx hk) ⟨_, _, rfl⟩
    (Nat.le_refl _)
  flag hS hd := .of_rest (rewriting_settles.flag hS hd) ⟨_, _, rfl⟩
  annotate annotations hS hd := .of_rest (rewriting_settles.annotate annotations hS hd) ⟨_, _, rfl⟩

/-- No stage of making an instance revises the records. -/
theorem creating_retaining (T : DeclId → Prop) : Creating (Retaining T) where
  toRewriting := rewriting_retaining T
  of_unsound hs he := absurd he.sound hs
  reserved he hk hname hr := .of_rest (creating_settles.reserved he hk hname hr) hr.rest
  abandoned he hk hname hr hroot := by
    refine .of_rest (creating_settles.abandoned he hk hname hr hroot) ?_
    obtain ⟨p, r, rfl⟩ := hr.rest
    exact ⟨_, r, rfl⟩
  copied he hk hname hr hc := by
    refine .of_rest (creating_settles.copied he hk hname hr hc) ?_
    obtain ⟨p, r, rfl⟩ := hr.rest
    exact ⟨_, r, rfl⟩
  drafted he hk hd := .of_rest (creating_settles.drafted he hk hd) hd.rest
  adopted {e e₂ e₃ key root copy template decl} he hk hd h hg ht hp hroot owner := by
    have hl := creating_settles.adopted he hk hd h.settles hg ht hp hroot owner
    have h₂ : Retaining T e e₂ := .of_rest (creating_settles.drafted he hk hd) hd.rest
    exact ((passage_retaining T).trans h₂ h).tail hl ⟨_, _, rfl⟩
      (Nat.le_of_eq (Package.size_decls_setDecl _ _ _).symm)
  completed h hg := h.tail (creating_settles.completed h.settles hg) ⟨_, _, rfl⟩ (Nat.le_refl _)
  forgotten hs hd h he := by
    refine ⟨creating_settles.forgotten hs hd h.settles he, (h he).2.forget ?_⟩
    rw [hd.root_eq_next (he.tombstone _)]
    exact Nat.le_refl _

end Engine

/-- Requests do not revise records, and they leave the tables of existing types alone. -/
theorem Run.retaining_instantiate (T : DeclId → Prop) (n : Nat) (d : DeclId) (s : Subst) :
    Run.Keeps (Engine.Retaining T) (Run.instantiate n d s) :=
  Run.keeps_instantiate (Engine.creating_retaining T) n d s

/-- Operations that neither withdraw nor restore instances do not revise records. -/
theorem Engine.retains_afterAll {e : Engine} (he : e.Settled) {ops : List Operation}
    (hops : ∀ op ∈ ops, op.IsRequest) : Retains (fun _ => False) e (e.afterAll ops) :=
  (rel_afterAll (passage_retaining _) (fun op hop => Operation.keeps_run (rewriting_retaining _)
    tabular_retaining (Run.retaining_instantiate _ Run.budget) (hops op hop)) e he).2

end Monomorph
