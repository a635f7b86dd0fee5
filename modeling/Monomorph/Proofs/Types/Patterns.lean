import Monomorph.Engine.Pattern

/-!
# What a pattern binds

Matching a pattern against a type solves an equation: the binding that is found makes the pattern
become the type, no other substitution of the same parameters does so, and a binding is found
whenever there is such a substitution.

## Main definitions

* `Subst.Extends`, `Subst.Over`: substitutions that agree with a binding, and those of exactly the
  given parameters.
* `Subst.OnlySolution`: a substitution that alone takes a pattern to a type.
* `Ty.Solves`: what is known of the parameters after a match.

## Main results

* `Ty.solves_of_matchPattern`: a match determines the substitutions that solve the equation.
* `Ty.exists_matchPattern`: if there is a solution, then there is a match.
* `Ty.matchPattern_covers_iff`: the bindings of all parameters that are found are the only solutions.
-/

namespace Monomorph

namespace Subst

variable {s b : Subst} {params : List ParamId}

/-- The substitution maps the parameters that are bound as the binding does. -/
def Extends (s b : Subst) : Prop :=
  ∀ q v, b.get? q = some v → s.get? q = some v

/-- The substitution maps the given parameters and no others. -/
def Over (s : Subst) (params : List ParamId) : Prop :=
  ∀ q, (s.get? q).isSome = true ↔ q ∈ params

/-- Among the substitutions of exactly the given parameters, this one and no other takes the pattern to
the type. -/
structure OnlySolution (b : Subst) (params : List ParamId) (pattern t : Ty) : Prop where
  isOver : b.Over params
  apply_eq : b.apply pattern = t
  eq : ∀ s : Subst, s.Over params → s.apply pattern = t → s = b

theorem Extends.empty (s : Subst) : s.Extends {} := nofun

theorem Extends.refl (s : Subst) : s.Extends s := fun _ _ => id

/-- A parameter that is not bound may have any value. -/
theorem Extends.insert {p : ParamId} (hext : s.Extends b) (hfree : b.get? p = none) (t : Ty) :
    (s.insert p t).Extends b := by
  intro q v hq
  rw [get?_insert, if_neg]
  · exact hext q v hq
  · rintro rfl
    rw [hfree] at hq
    cases hq

theorem extends_insert_iff {p : ParamId} {t : Ty} (hb : b.get? p = none) :
    s.Extends (b.insert p t) ↔ s.Extends b ∧ s.get? p = some t := by
  constructor
  · refine fun h => ⟨fun q v hq => h q v ((Extends.refl b).insert hb t q v hq), h p t ?_⟩
    rw [get?_insert, if_pos rfl]
  · rintro ⟨h, hp⟩ q v hq
    rw [get?_insert] at hq
    split at hq
    · rename_i heq
      rw [heq, hp, Option.some.inj hq]
    · exact h q v hq

theorem Over.value_eq_iff {p : ParamId} {t : Ty} (hs : s.Over params) (hp : p ∈ params) :
    s.value p = t ↔ s.get? p = some t := by
  obtain ⟨v, hv⟩ := Option.isSome_iff_exists.1 ((hs p).2 hp)
  rw [value, hv, Option.getD_some, Option.some_inj]

theorem Over.value_of_notMem {p : ParamId} (hs : s.Over params) (hp : p ∉ params) :
    s.value p = .param p := by
  rw [value, Option.not_isSome_iff_eq_none.1 fun h => hp ((hs p).1 h), Option.getD_none]

theorem Over.insert {p : ParamId} (hs : s.Over params) (hp : p ∈ params) (t : Ty) :
    (s.insert p t).Over params := by
  intro q
  rw [get?_insert, ← hs q]
  split
  · rename_i hq
    exact iff_of_true rfl (hq ▸ (hs p).2 hp)
  · rfl

/-- Substitutions of the same parameters are equal as soon as one extends the other. -/
theorem Over.eq_of_extends (hs : s.Over params) (hb : b.Over params) (h : s.Extends b) : s = b := by
  refine ext_get? fun q => ?_
  cases hq : b.get? q with
  | some v => exact h q v hq
  | none =>
    rw [← Option.not_isSome_iff_eq_none, hs q, ← hb q, hq]
    nofun

end Subst

namespace Ty

variable {params : List ParamId} {b b' : Subst}

/-- From the binding `b` to `b'`, the parameters have been given values such that the equation between
patterns and types, which `E` says of a substitution, holds for exactly those that extend `b'`. -/
structure Solves (params : List ParamId) (E : Subst → Prop) (b b' : Subst) : Prop where
  mem_params : ∀ q, (b'.get? q).isSome = true → (b.get? q).isSome = true ∨ q ∈ params
  extends_iff : ∀ s : Subst, s.Over params → (s.Extends b' ↔ s.Extends b ∧ E s)

namespace Solves

variable {E E' : Subst → Prop}

theorem same (h : ∀ s : Subst, s.Over params → s.Extends b → E s) : Solves params E b b where
  mem_params _ := .inl
  extends_iff s hs := ⟨fun hb => ⟨hb, h s hs hb⟩, And.left⟩

theorem trans {b₁ : Subst} (h : Solves params E b b₁) (h' : Solves params E' b₁ b') :
    Solves params (fun s => E s ∧ E' s) b b' where
  mem_params q hq := (h'.mem_params q hq).elim (h.mem_params q) .inr
  extends_iff s hs := by rw [h'.extends_iff s hs, h.extends_iff s hs, and_assoc]

theorem congr (h : Solves params E b b') (hE : ∀ s : Subst, E s ↔ E' s) : Solves params E' b b' where
  mem_params := h.mem_params
  extends_iff s hs := (h.extends_iff s hs).trans (and_congr_right fun _ => hE s)

/-- The last parameter gets its value. -/
theorem insert {p : ParamId} {t : Ty} (hp : p ∈ params) (hb : b.get? p = none) :
    Solves params (fun s => s.apply (.param p) = t) b (b.insert p t) where
  mem_params q hq := by
    rw [Subst.get?_insert] at hq
    split at hq
    · rename_i heq
      exact .inr (heq ▸ hp)
    · exact .inl hq
  extends_iff s hs := by
    rw [Subst.extends_insert_iff hb]
    exact and_congr_right fun _ => (hs.value_eq_iff hp).symm

end Solves

/-- What a match leaves open, for types and for lists of types. -/
private theorem solves_of_match (params : List ParamId) :
    (∀ pattern t b b', matchPattern params pattern t b = some b' →
      Solves params (fun s => s.apply pattern = t) b b') ∧
    ∀ patterns ts b b', matchPatterns params patterns ts b = some b' →
      Solves params (fun s => bindAll s.value patterns = ts) b b' := by
  refine matchPattern.mutual_induct params
    (fun pattern t b => ∀ b', pattern.matchPattern params t b = some b' →
      Solves params (fun s => s.apply pattern = t) b b')
    (fun patterns ts b => ∀ b', matchPatterns params patterns ts b = some b' →
      Solves params (fun s => bindAll s.value patterns = ts) b b')
    ?bound ?conflict ?fresh ?fixed ?unfixed ?prim ?otherPrim ?tuple ?func ?named ?otherDecl ?other
    ?nil ?cons ?otherLength
  case bound =>
    intro p b hp v hv b' h
    rw [matchPattern, if_pos hp, hv] at h
    obtain rfl := Option.some.inj ((if_pos rfl).symm.trans h)
    exact .same fun s hs hext => (hs.value_eq_iff hp).2 (hext p v hv)
  case conflict =>
    intro p t b hp v hv hne b' h
    simp [matchPattern, hp, hv, hne] at h
  case fresh =>
    intro p t b hp hb b' h
    rw [matchPattern, if_pos hp, hb] at h
    obtain rfl := Option.some.inj h
    exact .insert hp hb
  case fixed =>
    intro p b hp b' h
    rw [matchPattern, if_neg hp, if_pos rfl] at h
    obtain rfl := Option.some.inj h
    exact .same fun s hs _ => hs.value_of_notMem hp
  case unfixed =>
    intro p t b hp hne b' h
    simp [matchPattern, hp, hne] at h
  case prim =>
    intro q b b' h
    rw [matchPattern, if_pos rfl] at h
    obtain rfl := Option.some.inj h
    exact .same fun _ _ _ => rfl
  case otherPrim =>
    intro p q b hne b' h
    simp [matchPattern, hne] at h
  case tuple =>
    intro xs ys b ih b' h
    rw [matchPattern] at h
    exact (ih b' h).congr fun s => by simp [Subst.apply, bind]
  case func =>
    intro xs x ys y b ihs ih b' h
    rw [matchPattern, Option.bind_eq_bind, Option.bind_eq_some_iff] at h
    obtain ⟨b₁, h₁, h₂⟩ := h
    exact ((ihs b₁ h₁).trans (ih b₁ b' h₂)).congr fun s => by simp [Subst.apply, bind]
  case named =>
    intro xs d ys b ih b' h
    rw [matchPattern, if_pos rfl] at h
    exact (ih b' h).congr fun s => by simp [Subst.apply, bind]
  case otherDecl =>
    intro c xs d ys b hne b' h
    simp [matchPattern, hne] at h
  case other =>
    intro pattern t b hparam hprim htuple hfunc hnamed b' h
    unfold matchPattern at h
    split at h
    · exact absurd rfl (hparam _)
    · exact absurd rfl (hprim _ _ rfl)
    · exact absurd rfl (htuple _ _ rfl)
    · exact absurd rfl (hfunc _ _ _ _ rfl)
    · exact absurd rfl (hnamed _ _ _ _ rfl)
    · cases h
  case nil =>
    intro b b' h
    rw [matchPatterns] at h
    obtain rfl := Option.some.inj h
    exact .same fun _ _ _ => rfl
  case cons =>
    intro x xs y ys b ih ihs b' h
    rw [matchPatterns, Option.bind_eq_bind, Option.bind_eq_some_iff] at h
    obtain ⟨b₁, h₁, h₂⟩ := h
    exact ((ih b₁ h₁).trans (ihs b₁ b' h₂)).congr fun s => by simp [Subst.apply, bindAll]
  case otherLength =>
    intro xs ys b hnil hcons b' h
    unfold matchPatterns at h
    split at h
    · exact absurd rfl (hnil rfl)
    · exact absurd rfl (hcons _ _ _ _ rfl)
    · cases h

/-- A match determines the substitutions under which the pattern becomes the type. -/
theorem solves_of_matchPattern {pattern t : Ty} (h : pattern.matchPattern params t b = some b') :
    Solves params (fun s => s.apply pattern = t) b b' :=
  (solves_of_match params).1 pattern t b b' h

theorem solves_of_matchPatterns {patterns ts : List Ty}
    (h : matchPatterns params patterns ts b = some b') :
    Solves params (fun s => bindAll s.value patterns = ts) b b' :=
  (solves_of_match params).2 patterns ts b b' h

mutual

/-- If the pattern becomes the type under some substitution of the parameters, then they match. -/
theorem exists_matchPattern {s : Subst} (hs : s.Over params) : ∀ {pattern : Ty} {b : Subst},
    s.Extends b → pattern.containsInvalid = false →
      ∃ b', pattern.matchPattern params (s.apply pattern) b = some b'
  | .param p, b, hb, _ => by
    change ∃ b', matchPattern params (.param p) (s.value p) b = some b'
    rw [matchPattern]
    by_cases hp : p ∈ params
    · rw [if_pos hp]
      cases hbound : b.get? p with
      | none => exact ⟨_, rfl⟩
      | some v => exact ⟨b, if_pos ((hs.value_eq_iff hp).2 (hb p v hbound)).symm⟩
    · exact ⟨b, by rw [if_neg hp, if_pos (hs.value_of_notMem hp)]⟩
  | .prim p, b, _, _ => ⟨b, by simp [Subst.apply, bind, matchPattern]⟩
  | .tuple items, b, hb, hvalid => by
    rw [containsInvalid] at hvalid
    obtain ⟨b', h⟩ := exists_matchPatterns hs hb hvalid
    exact ⟨b', by simpa [Subst.apply, bind, matchPattern] using h⟩
  | .func xs x, b, hb, hvalid => by
    rw [containsInvalid, Bool.or_eq_false_iff] at hvalid
    obtain ⟨b₁, h₁⟩ := exists_matchPatterns hs hb hvalid.1
    have hext := ((solves_of_matchPatterns h₁).extends_iff s hs).2 ⟨hb, rfl⟩
    obtain ⟨b', h'⟩ := exists_matchPattern hs hext hvalid.2
    refine ⟨b', ?_⟩
    rw [Subst.apply, bind, matchPattern, h₁]
    exact h'
  | .named d args, b, hb, hvalid => by
    rw [containsInvalid] at hvalid
    obtain ⟨b', h⟩ := exists_matchPatterns hs hb hvalid
    exact ⟨b', by simpa [Subst.apply, bind, matchPattern] using h⟩
  | .invalid, _, _, hvalid => nomatch hvalid

theorem exists_matchPatterns {s : Subst} (hs : s.Over params) : ∀ {patterns : List Ty} {b : Subst},
    s.Extends b → anyInvalid patterns = false →
      ∃ b', matchPatterns params patterns (bindAll s.value patterns) b = some b'
  | [], b, _, _ => ⟨b, rfl⟩
  | pattern :: patterns, b, hb, hvalid => by
    rw [anyInvalid, Bool.or_eq_false_iff] at hvalid
    obtain ⟨b₁, h₁⟩ := exists_matchPattern hs hb hvalid.1
    have hext := ((solves_of_matchPattern h₁).extends_iff s hs).2 ⟨hb, rfl⟩
    obtain ⟨b', h'⟩ := exists_matchPatterns hs hext hvalid.2
    refine ⟨b', ?_⟩
    rw [bindAll, matchPatterns]
    change (matchPattern params pattern (s.apply pattern) b >>= _) = _
    rw [h₁]
    exact h'

end

/-- If all parameters are bound, then the binding is the only solution. -/
theorem onlySolution_of_matchPattern {pattern t : Ty}
    (h : pattern.matchPattern params t {} = some b) (hcovers : b.covers params = true) :
    b.OnlySolution params pattern t := by
  have hsolves := solves_of_matchPattern h
  have hover : b.Over params := fun q =>
    ⟨fun hq => (hsolves.mem_params q hq).resolve_left nofun, List.all_eq_true.1 hcovers q⟩
  refine ⟨hover, ((hsolves.extends_iff b hover).1 (.refl b)).2, fun s hs heq => ?_⟩
  exact hs.eq_of_extends hover ((hsolves.extends_iff s hs).2 ⟨.empty s, heq⟩)

/-- The bindings of all parameters that are found are the only solutions. -/
theorem matchPattern_covers_iff {pattern t : Ty} (hvalid : pattern.containsInvalid = false) :
    pattern.matchPattern params t {} = some b ∧ b.covers params = true ↔
      b.OnlySolution params pattern t := by
  refine ⟨fun ⟨h, hcovers⟩ => onlySolution_of_matchPattern h hcovers, fun ⟨hover, happly, heq⟩ => ?_⟩
  subst happly
  obtain ⟨b', h⟩ := exists_matchPattern hover (.empty b) hvalid
  have hsolves := solves_of_matchPattern h
  have hext := (hsolves.extends_iff b hover).2 ⟨.empty b, rfl⟩
  -- A parameter that is not bound could have another value in a solution.
  have hbound : ∀ q ∈ params, (b'.get? q).isSome = true := by
    intro q hq
    cases hfree : b'.get? q with
    | some v => rfl
    | none =>
      have hover' := hover.insert hq (.tuple [b.value q])
      have hext' := hext.insert hfree (.tuple [b.value q])
      have hsame := heq _ hover' ((hsolves.extends_iff _ hover').1 hext').2
      have hvalue := (Subst.get?_insert b q q (.tuple [b.value q])).trans (if_pos rfl)
      rw [hsame] at hvalue
      have hsize := congrArg sizeOf ((hover.value_eq_iff hq).2 hvalue)
      simp only [tuple.sizeOf_spec, List.cons.sizeOf_spec] at hsize
      omega
  have hover' : b'.Over params := fun q =>
    ⟨fun hq => (hsolves.mem_params q hq).resolve_left nofun, hbound q⟩
  obtain rfl := hover.eq_of_extends hover' hext
  exact ⟨h, List.all_eq_true.2 hbound⟩

end Ty

end Monomorph
