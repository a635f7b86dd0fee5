import Monomorph.Codec.Archive
import Monomorph.Proofs.Codec.Nodes

/-!
# Archive files read back

An archive is written as JSON and read back unchanged, whatever types, declarations, expressions and
substitutions it holds. Only its format version decides whether it is accepted. How deep data may be
nested is a limit of the reader, not of the format: the result holds for every limit that the archive
keeps, such as the 127 levels of the program (`Archive.ofText_text`).

## Main definitions

* `Archive.isStorable`: archives without floating-point literals whose numbers are in range.

## Main results

* `Archive.reads`: archives are read back from their data.
* `Archive.ofText_text`: archives of at most 127 levels are read back by the program.
* `Archive.round_trip`: archives and substitutions are read back from their text.
-/

namespace Monomorph

open Source

/-! ### Symbols and instances -/

/-- All handles in the substitution of the symbol are in range. -/
def SymbolRef.isStorable : SymbolRef → Bool
  | .plain _ => true
  | .instanceOf _ subst => subst.isStorable

theorem SymbolRef.reads {s : SymbolRef} (h : s.isStorable) : Reads read s.toData s := by
  cases s with
  | plain path =>
    exact .variant ((Reads.str path).map SymbolRef.plain) fun n j => by
      rw [read, enter, Json.variant?_obj]
      rfl
  | instanceOf template subst =>
    have htemplate := (Reads.str template).required
    have hsubst := (Subst.reads h).required
    refine .recordVariant ["generic", "subst"] rfl (by decide)
      ⟨htemplate.printable, hsubst.printable, trivial⟩ (fun n hn => ?_) fun n j => by
        rw [read, enter, Json.variant?_obj]
        rfl
    simp only [List.map_cons, List.map_nil, htemplate.value hn.1, hsubst.value hn.2.1]
    rfl

namespace ArchivedInstance

/-- All numbers of the instance are in range, and no floating-point literals occur. -/
def isStorable (a : ArchivedInstance) : Bool :=
  a.subst.isStorable && a.decls.all Decl.isStorable && a.exprs.all Expr.isStorable

/-- An archived instance is read back. -/
theorem reads {a : ArchivedInstance} (h : a.isStorable) : Reads read a.toData a := by
  simp only [isStorable, Bool.and_eq_true, List.all_eq_true] at h
  have htemplate := (Reads.str a.template).required
  have hsubst := (Subst.reads h.1.1).required
  have hmangled := (Reads.str a.mangled).required
  have hdecls := (Reads.list fun d hd => Decl.reads (h.1.2 d hd)).required
  have hexprs := (Reads.list fun e he => Expr.reads (h.2 e he)).required
  have hlazy := (Reads.strings a.lazyMembers).required
  have hshape := (Reads.str a.shape).required
  refine .record _ _ rfl (by decide) ⟨htemplate.printable, hsubst.printable, hmangled.printable,
    hdecls.printable, hexprs.printable, hlazy.printable, hshape.printable, trivial⟩ fun n hn => ?_
  obtain ⟨h₁, h₂, h₃, h₄, h₅, h₆, h₇, -⟩ := hn
  simp only [List.map_cons, List.map_nil, htemplate.value h₁, hsubst.value h₂, hmangled.value h₃,
    hdecls.value h₄, hexprs.value h₅, hlazy.value h₆, hshape.value h₇]
  rfl

end ArchivedInstance

/-! ### Archives -/

namespace Archive

/-- All numbers of the archive are in range, and no floating-point literals occur. -/
def isStorable (a : Archive) : Bool :=
  a.version ≤ maxHandle && a.symbols.all SymbolRef.isStorable &&
    a.instances.all ArchivedInstance.isStorable

/-- An archive is read back. -/
theorem reads {a : Archive} (h : a.isStorable) : Reads read a.toData a := by
  simp only [isStorable, Bool.and_eq_true, decide_eq_true_eq, List.all_eq_true] at h
  have hversion := (Reads.nat h.1.1).required
  have hpackage := (Reads.str a.package).required
  have hsymbols := (Reads.list fun s hs => SymbolRef.reads (h.1.2 s hs)).required
  have hinstances := (Reads.list fun i hi => ArchivedInstance.reads (h.2 i hi)).required
  refine .record _ _ rfl (by decide) ⟨hversion.printable, hpackage.printable, hsymbols.printable,
    hinstances.printable, trivial⟩ fun n hn => ?_
  obtain ⟨h₁, h₂, h₃, h₄, -⟩ := hn
  simp only [List.map_cons, List.map_nil, hversion.value h₁, hpackage.value h₂, hsymbols.value h₃,
    hinstances.value h₄]
  rfl

end Archive

/-! ### Texts -/

/-- What is read from data is also read from the text of the data. -/
theorem Reads.text {α : Type} {read : Nat → Json → Option α} {d : Data} {a : α} (h : Reads read d a)
    {n : Nat} (hn : d.toJson.levels ≤ n) : (Json.read d.toJson.pretty).bind (read n) = some a := by
  rw [Json.read_pretty h.printable]
  exact h.value hn

namespace Archive

/-- An archive is read back from its text by a reader that goes as deep as the archive is nested, unless
the format version is another one; then the version is reported. -/
theorem ofTextWithin_text {a : Archive} (ha : a.isStorable) {depth : Nat}
    (hdepth : a.toData.toJson.levels ≤ depth) : ofTextWithin depth a.text =
      if a.version = formatVersion then .ok a else .error (.version a.version) := by
  unfold ofTextWithin text
  rw [(reads ha).text hdepth]

/-- The reader of the program goes 127 levels deep. Archives that are nested no deeper are read back by
it. -/
theorem ofText_text {a : Archive} (ha : a.isStorable) (hdepth : a.toData.toJson.levels ≤ maxDepth) :
    ofText a.text = if a.version = formatVersion then .ok a else .error (.version a.version) :=
  ofTextWithin_text ha hdepth

/-- Archives are read back from their text, unless the format version is another one; then the
version is reported. Substitutions are read back from the list of their pairs, and any list of pairs
is read as the substitution in which later pairs win. -/
theorem round_trip :
    (∀ a : Archive, a.isStorable → ∀ depth, a.toData.toJson.levels ≤ depth →
      ofTextWithin depth a.text =
        if a.version = formatVersion then .ok a else .error (.version a.version)) ∧
    (∀ s : Subst, s.isStorable → ∀ depth, s.toData.toJson.levels ≤ depth →
      (Json.read s.toData.toJson.pretty).bind (Subst.read depth) = some s) ∧
    ∀ pairs : List (ParamId × Ty), pairs.all Subst.isStorableEntry →
      ∀ depth, (Subst.pairsData pairs).toJson.levels ≤ depth →
      ∃ s, (Json.read (Subst.pairsData pairs).toJson.pretty).bind (Subst.read depth) = some s ∧
        ∀ p, s.get? p = Assoc.lookup p pairs.reverse := by
  refine ⟨fun a ha depth hdepth => ofTextWithin_text ha hdepth,
    fun s hs depth hdepth => (Subst.reads hs).text hdepth, fun pairs hpairs depth hdepth => ?_⟩
  exact ⟨.ofList pairs, (Subst.reads_pairs hpairs).text hdepth, Subst.get?_ofList pairs⟩

/-- A list of pairs in which a parameter occurs twice. -/
def repeatedPairs : List (ParamId × Ty) :=
  [(⟨⟨1⟩, 0⟩, .prim .int64), (⟨⟨1⟩, 0⟩, .named (symbol 0) [.named (symbol 0) [.prim .int64]])]

/-- A function archived with the type `Box<Box<Int64>>` for its parameter. -/
def boxArchive (version : Nat) : Archive where
  version := version
  package := "demo"
  symbols := [.plain "demo::Box", .instanceOf "demo::Box" (.ofList [(⟨symbol 0, 0⟩, .prim .int64)])]
  instances := [{
    template := "demo::f"
    subst := .ofList repeatedPairs
    mangled := "f<Box<Box<Int64>>>"
    decls := [{
      name := "f"
      kind := .func [⟨1⟩] (.tuple [.named (symbol 1) [], .func [.prim .bool] .unit]) (some ⟨0⟩)
      package := "demo"
      mangled := some "f<Box<Box<Int64>>>" }]
    exprs := [{ kind := .lit (.int (-7)), ty := .prim .int64 }]
    lazyMembers := []
    shape := "f" }]

theorem round_trip_boxArchive :
    ofText (boxArchive 1).text = .ok (boxArchive 1) ∧
    ofText (boxArchive 2).text = .error (.version 2) ∧
    (Json.read (Subst.ofList repeatedPairs).toData.toJson.pretty).bind (Subst.read maxDepth) =
      some (.ofList repeatedPairs) ∧
    ∃ s, (Json.read (Subst.pairsData repeatedPairs).toJson.pretty).bind (Subst.read maxDepth) =
        some s ∧
      s.get? ⟨⟨1⟩, 0⟩ = some (.named (symbol 0) [.named (symbol 0) [.prim .int64]]) := by
  obtain ⟨s, hread, hget⟩ := round_trip.2.2 repeatedPairs (by decide) maxDepth (by decide)
  refine ⟨?_, ?_, ?_, s, hread, (hget _).trans (by decide)⟩
  · exact round_trip.1 (boxArchive 1) (by decide) maxDepth (by decide)
  · exact round_trip.1 (boxArchive 2) (by decide) maxDepth (by decide)
  · exact round_trip.2.1 (.ofList repeatedPairs) (by decide) maxDepth (by decide)

end Archive

end Monomorph
