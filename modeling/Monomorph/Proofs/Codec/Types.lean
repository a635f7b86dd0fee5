import Monomorph.Proofs.Codec.Fields
import Monomorph.Proofs.Types.Substitutions

/-!
# Types and substitutions read back

Handles are stored as 32-bit numbers and positions in source files as 64-bit numbers. Whatever stays
within these ranges is taken out of its own description again. A substitution is stored as the list
of its pairs; of any list of pairs the last one for a parameter counts.

## Main definitions

* `Ty.isStorable`, `Subst.isStorable`: types and substitutions whose handles are in range.

## Main results

* `Ty.reads`: types are read back.
* `Subst.reads`: so are substitutions.
* `Subst.reads_pairs`: what is read from any list of pairs.
-/

namespace Monomorph

open Source

/-! ### Handles and positions -/

/-- The handle is in range. -/
def DeclId.isStorable (d : DeclId) : Bool := d.index ≤ maxHandle

/-- The handle is in range. -/
def ExprId.isStorable (e : ExprId) : Bool := e.index ≤ maxHandle

/-- Owner and position of the parameter are in range. -/
def ParamId.isStorable (p : ParamId) : Bool := p.owner.isStorable && p.index ≤ maxHandle

/-- The position is in range. -/
def Position.isStorable (p : Position) : Bool :=
  p.line ≤ maxWord && p.column ≤ maxWord && p.offset ≤ maxWord

/-- Both ends of the span are in range. -/
def Span.isStorable (s : Span) : Bool := s.start.isStorable && s.stop.isStorable

theorem DeclId.reads {d : DeclId} (h : d.isStorable) : Reads (fun _ => DeclId.read) d.toData d :=
  have hindex := (Reads.nat (of_decide_eq_true h)).map DeclId.mk
  ⟨hindex.printable, hindex.value⟩

theorem ExprId.reads {e : ExprId} (h : e.isStorable) : Reads (fun _ => ExprId.read) e.toData e :=
  have hindex := (Reads.nat (of_decide_eq_true h)).map ExprId.mk
  ⟨hindex.printable, hindex.value⟩

theorem ParamId.reads {p : ParamId} (h : p.isStorable) : Reads ParamId.read p.toData p := by
  rw [ParamId.isStorable, Bool.and_eq_true, decide_eq_true_eq] at h
  have howner := (DeclId.reads h.1).required
  have hindex := (Reads.nat h.2).required
  refine .record _ _ rfl (by decide) ⟨howner.printable, hindex.printable, trivial⟩ fun n hn => ?_
  simp only [List.map_cons, List.map_nil, howner.value hn.1, hindex.value hn.2.1]
  rfl

theorem Position.reads {p : Position} (h : p.isStorable) : Reads Position.read p.toData p := by
  simp only [Position.isStorable, Bool.and_eq_true, decide_eq_true_eq] at h
  have hline := (Reads.nat h.1.1).required
  have hcolumn := (Reads.nat h.1.2).required
  have hoffset := (Reads.nat h.2).required
  refine .record _ _ rfl (by decide) ⟨hline.printable, hcolumn.printable,
    hoffset.printable, trivial⟩ fun n hn => ?_
  simp only [List.map_cons, List.map_nil, hline.value hn.1, hcolumn.value hn.2.1,
    hoffset.value hn.2.2.1]
  rfl

theorem Span.reads {s : Span} (h : s.isStorable) : Reads Span.read s.toData s := by
  rw [Span.isStorable, Bool.and_eq_true] at h
  have hstart := (Position.reads h.1).required
  have hstop := (Position.reads h.2).required
  refine .record _ _ rfl (by decide) ⟨hstart.printable, hstop.printable, trivial⟩ fun n hn => ?_
  simp only [List.map_cons, List.map_nil, hstart.value hn.1, hstop.value hn.2.1]
  rfl

/-! ### Types -/

namespace Ty

mutual

/-- All handles of the type are in range. -/
def isStorable : Ty → Bool
  | .prim _ | .invalid => true
  | .param p => p.isStorable
  | .tuple items => allStorable items
  | .func params ret => allStorable params && ret.isStorable
  | .named d args => d.isStorable && allStorable args

/-- All handles of the types are in range. -/
def allStorable : List Ty → Bool
  | [] => true
  | t :: ts => t.isStorable && allStorable ts

end

theorem toDataAll_eq_map (ts : List Ty) : toDataAll ts = ts.map toData := by
  induction ts with
  | nil => rfl
  | cons t ts ih => rw [toDataAll, ih, List.map_cons]

end Ty

theorem Prim.reads (p : Prim) : Reads (fun _ => Prim.read) p.toData p :=
  .oneOf (by cases p <;> decide) (by decide)

namespace Ty

theorem readList_eq_listOf (n : Nat) (j : Json) : readList n j = listOf n read j := by
  cases n <;> rfl

/-- Types are read back from a list if each of them is. -/
theorem reads_list {ts : List Ty} (h : ∀ t ∈ ts, Reads read t.toData t) :
    Reads readList (.list (toDataAll ts)) ts := by
  have hlist := Reads.list h
  rw [Data.ofList, ← toDataAll_eq_map] at hlist
  exact ⟨hlist.printable, fun hn => (readList_eq_listOf _ _).trans (hlist.value hn)⟩

mutual

/-- A type is read back. -/
theorem reads : ∀ {t : Ty}, t.isStorable → Reads read t.toData t
  | .prim p, _ => .variant ((Prim.reads p).map Ty.prim) fun n j => by
    rw [read, Json.variant?_obj]
    rfl
  | .param p, h => .variant ((ParamId.reads h).map Ty.param) fun n j => by
    rw [read, Json.variant?_obj]
    rfl
  | .tuple items, h => .variant ((reads_list (reads_all h)).map Ty.tuple) fun n j => by
    rw [read, Json.variant?_obj]
    rfl
  | .func params ret, h => by
    rw [isStorable, Bool.and_eq_true] at h
    have hparams := reads_list (reads_all h.1)
    have hret := reads h.2
    refine .recordVariant ["params", "ret"] rfl (by decide)
      ⟨hparams.printable, hret.printable, trivial⟩ (fun n hn => ?_) fun n j => by
        rw [read, Json.variant?_obj]
        rfl
    simp only [List.map_cons, List.map_nil, hparams.value hn.1, hret.value hn.2.1]
    rfl
  | .named d args, h => by
    rw [isStorable, Bool.and_eq_true] at h
    have hd := DeclId.reads h.1
    have hargs := reads_list (reads_all h.2)
    refine .recordVariant ["decl", "args"] rfl (by decide)
      ⟨hd.printable, hargs.printable, trivial⟩ (fun n hn => ?_) fun n j => by
        rw [read, Json.variant?_obj]
        rfl
    simp only [List.map_cons, List.map_nil, hd.value hn.1, hargs.value hn.2.1]
    rfl
  | .invalid, _ => ⟨trivial, fun {n} _ => by
    cases n with
    | zero => rfl
    | succ n =>
      rw [read]
      rfl⟩

theorem reads_all : ∀ {ts : List Ty}, allStorable ts → ∀ t ∈ ts, Reads read t.toData t
  | [], _ => nofun
  | _ :: _, h => by
    rw [allStorable, Bool.and_eq_true] at h
    exact List.forall_mem_cons.2 ⟨reads h.1, reads_all h.2⟩

end

end Ty

/-! ### Substitutions -/

namespace Subst

/-- All handles of a pair are in range. -/
def isStorableEntry (e : ParamId × Ty) : Bool := e.1.isStorable && e.2.isStorable

/-- All handles of the substitution are in range. -/
def isStorable (s : Subst) : Bool := s.entries.all isStorableEntry

/-- The data of a list of pairs. -/
def pairsData (pairs : List (ParamId × Ty)) : Data :=
  .ofList (fun e => .tuple [e.1.toData, e.2.toData]) pairs

/-- What is read from a list of pairs is the substitution that they give. -/
theorem reads_pairs {pairs : List (ParamId × Ty)} (h : pairs.all isStorableEntry) :
    Reads read (pairsData pairs) (ofList pairs) := by
  have hpairs : Reads (fun n => listOf n fun n => pairOf n ParamId.read Ty.read)
      (pairsData pairs) pairs := by
    refine .list fun e he => ?_
    have hentry := List.all_eq_true.1 h e he
    rw [isStorableEntry, Bool.and_eq_true] at hentry
    exact .pair (ParamId.reads hentry.1) (Ty.reads hentry.2)
  refine ⟨hpairs.printable, fun {n} hn => ?_⟩
  rw [read, hpairs.value hn]
  rfl

/-- A substitution is read back. -/
theorem reads {s : Subst} (h : s.isStorable) : Reads read s.toData s := by
  have hpairs := reads_pairs h
  rwa [ofList_entries] at hpairs

end Subst

end Monomorph
