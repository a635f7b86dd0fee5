import Monomorph.Proofs.Requests.Records

/-!
# Requests report nothing

Problems that a user can act on are reported only when mocks are refused. Requests for instances and
rearranging never do so.

## Main definitions

* `Engine.Quiet`: nothing has been reported between two states.

## Main results

* `Run.quiet_instantiate`: requests for instances are quiet.
-/

namespace Monomorph

namespace Engine

variable {e e' e'' : Engine}

/-- A settled state has led to a later one, and nothing has been reported. -/
def Quiet (e e' : Engine) : Prop := e.Settled → Later e e' ∧ e'.diagnostics = e.diagnostics

namespace Quiet

theorem settles (h : Quiet e e') : Settles e e' := fun he => (h he).1

theorem trans (h : Quiet e e') (h' : Quiet e' e'') : Quiet e e'' := by
  intro he
  obtain ⟨hl, hd⟩ := h he
  obtain ⟨hl', hd'⟩ := h' hl.settled
  exact ⟨hl.trans hl', hd'.trans hd⟩

theorem of_eq (h : Settles e e') (hd : e'.diagnostics = e.diagnostics) : Quiet e e' :=
  fun he => ⟨h he, hd⟩

/-- Only the code and the registry have changed. -/
theorem of_rest (h : Settles e e') (hrest : ∃ p r, e' = { e with package := p, registry := r }) :
    Quiet e e' := by
  refine .of_eq h ?_
  obtain ⟨p, r, rfl⟩ := hrest
  rfl

/-- A change at the end. -/
theorem tail (h : Quiet e e') (h' : Settles e e'') (hd : e''.diagnostics = e'.diagnostics) :
    Quiet e e'' :=
  fun he => ⟨h' he, hd.trans (h he).2⟩

end Quiet

theorem Notes.diagnostics_eq (h : Notes e e' e'') : e''.diagnostics = e'.diagnostics := by
  cases h <;> rfl

theorem Bracket.diagnostics_eq {before after : Engine → Engine} (h : Bracket e before after) :
    (∀ e, (before e).diagnostics = e.diagnostics) ∧ ∀ e, (after e).diagnostics = e.diagnostics := by
  cases h <;> exact ⟨fun _ => rfl, fun _ => rfl⟩

theorem passage_quiet : Passage Quiet := by
  have hP := passage_settles
  have hbracket : ∀ {e e' : Engine} {before after : Engine → Engine}, Bracket e before after →
      Quiet (before e) e' → Quiet e (after e') := by
    intro e e' before after hb h he
    have hbefore := Settles.of_alike (hb.alike_before e) he
    refine ⟨hP.bracket hb h.settles he, (hb.diagnostics_eq.2 e').trans ?_⟩
    exact (h hbefore.settled).2.trans (hb.diagnostics_eq.1 e)
  have hrefl : ∀ e : Engine, Quiet e e := fun e he => ⟨.refl he, rfl⟩
  exact
    { trans := .trans
      of_level := fun h => .of_eq (hP.of_level h) h.diagnostics
      notes := fun h hn => h.tail (hP.notes h.settles hn) hn.diagnostics_eq
      bracket := hbracket
      fail := .trans
      bracket_fail := hbracket
      stop := fun e _ _ => hrefl e
      blame := fun {e} _ _ => hrefl e
      resume := id }

theorem rewriting_quiet : Rewriting Quiet where
  toPassage := passage_quiet
  retype hS h hd hd' hk := h.tail (rewriting_settles.retype hS h.settles hd hd' hk) rfl
  reexpress hS h hx hk := h.tail (rewriting_settles.reexpress hS h.settles hx hk) rfl
  flag hS hd := .of_eq (rewriting_settles.flag hS hd) rfl
  annotate annotations hS hd := .of_eq (rewriting_settles.annotate annotations hS hd) rfl

/-- No stage of making an instance reports anything. -/
theorem creating_quiet : Creating Quiet where
  toRewriting := rewriting_quiet
  of_unsound hs he := absurd he.sound hs
  reserved he hk hname hr := .of_rest (creating_settles.reserved he hk hname hr) hr.rest
  abandoned he hk hname hr hroot := by
    refine .of_rest (creating_settles.abandoned he hk hname hr hroot) ?_
    obtain ⟨p, r, rfl⟩ := hr.rest
    exact ⟨_, r, rfl⟩
  copied he hk hname hr hc := by
    refine .of_rest (creating_settles.copied he hk hname hr hc) ?_
    obtain ⟨p, r, rfl⟩ := hr.rest
    exact ⟨_, r, rfl⟩
  drafted he hk hd := .of_rest (creating_settles.drafted he hk hd) hd.rest
  adopted he hk hd h hg ht hp hroot owner := by
    have hdraft : Quiet _ _ := .of_rest (creating_settles.drafted he hk hd) hd.rest
    exact (hdraft.trans h).tail (creating_settles.adopted he hk hd h.settles hg ht hp hroot owner) rfl
  completed h hg := h.tail (creating_settles.completed h.settles hg) rfl
  forgotten hs hd h := h.tail (creating_settles.forgotten hs hd h.settles) rfl

end Engine

namespace Run

theorem quiet_instantiate (n : Nat) (d : DeclId) (s : Subst) :
    Keeps Engine.Quiet (instantiate n d s) :=
  keeps_instantiate Engine.creating_quiet n d s

end Run

end Monomorph
