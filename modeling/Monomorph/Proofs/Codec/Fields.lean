import Monomorph.Codec.Ty
import Monomorph.Proofs.Text.Tokens
import Monomorph.Proofs.Text.Printing

/-!
# Reading what was described

A reader takes a value out of its own description, provided that it may go down as many levels as
the description is nested. The parts of descriptions are dealt with one by one: numbers and strings,
lists, optional values, records with their fields.

## Main definitions

* `Json.levels`: how deep a value is nested.
* `Data.FieldsWithin`: a bound on the nesting of fields.
* `Reads`: a reader takes a value out of a description.
* `ReadsField`: so does the reader of a field.

## Main results

* `Source.pick_map`: the fields of a record are found by their names.
* `Reads.list`, `Reads.optional`, `Reads.record`: readers of lists, optional values and records.
-/

namespace Monomorph

/-! ### Nesting -/

namespace Json

mutual

/-- How deep arrays and objects are nested in a value. -/
def levels : Json → Nat
  | .arr items => itemLevels items + 1
  | .obj fields => fieldLevels fields + 1
  | .null | .bool _ | .num _ | .str _ | .unpairedStr => 0

/-- How deep the items are nested. -/
def itemLevels : List Json → Nat
  | [] => 0
  | j :: rest => max j.levels (itemLevels rest)

/-- How deep the fields are nested. -/
def fieldLevels : List (String × Json) → Nat
  | [] => 0
  | (_, j) :: rest => max j.levels (fieldLevels rest)

end

theorem itemLevels_le {n : Nat} {items : List Json} :
    itemLevels items ≤ n ↔ ∀ j ∈ items, j.levels ≤ n := by
  induction items with
  | nil => simp [itemLevels]
  | cons j rest ih => simp [itemLevels, ih]

theorem allPrintable_iff {items : List Json} : AllPrintable items ↔ ∀ j ∈ items, j.IsPrintable := by
  induction items with
  | nil => simp [AllPrintable]
  | cons j rest ih => simp [AllPrintable, ih]

theorem variant?_obj (name : String) (j : Json) : Source.variant? (Json.obj [(name, j)]) = some name :=
  rfl

end Json

namespace Data

theorem toJsons_eq_map (items : List Data) : toJsons items = items.map toJson := by
  induction items with
  | nil => rfl
  | cons d rest ih => rw [toJsons, ih, List.map_cons]

theorem toFields_eq_map (fields : List (String × Data)) :
    toFields fields = fields.map fun e => (e.1, e.2.toJson) := by
  induction fields with
  | nil => rfl
  | cons e rest ih => rw [toFields, ih, List.map_cons]

/-- All fields are nested at most `n` levels. -/
def FieldsWithin (n : Nat) : List (String × Data) → Prop
  | [] => True
  | (_, d) :: rest => d.toJson.levels ≤ n ∧ FieldsWithin n rest

theorem fieldsWithin_iff {n : Nat} {fields : List (String × Data)} :
    FieldsWithin n fields ↔ Json.fieldLevels (toFields fields) ≤ n := by
  induction fields with
  | nil => simp [FieldsWithin, toFields, Json.fieldLevels]
  | cons e rest ih => simp [FieldsWithin, toFields, Json.fieldLevels, ih]

end Data

namespace Source

/-- The fields of a record are found by their names, if no name occurs twice. -/
theorem pick_map {α : Type} {fields : List (String × α)} (h : (fields.map Prod.fst).Nodup) :
    pick (fields.map Prod.fst) fields = some (fields.map fun e => some e.2) := by
  have hfound : ∀ e ∈ fields, fields.filter (fun e' => e'.1 = e.1) = [e] := by
    intro e he
    induction fields with
    | nil => cases he
    | cons d rest ih =>
      rw [List.map_cons, List.nodup_cons] at h
      rcases List.mem_cons.1 he with rfl | he
      · rw [List.filter_cons_of_pos (by simp), List.filter_eq_nil_iff.2]
        intro e' he' heq
        exact h.1 (List.mem_map.2 ⟨e', he', of_decide_eq_true heq⟩)
      · have hne : d.1 ≠ e.1 := fun heq => h.1 (List.mem_map.2 ⟨e, he, heq.symm⟩)
        rw [List.filter_cons_of_neg (by simpa using hne)]
        exact ih h.2 he
  have hall : ∀ es : List (String × α), (∀ e ∈ es, e ∈ fields) →
      pick (es.map Prod.fst) fields = some (es.map fun e => some e.2) := by
    intro es hes
    induction es with
    | nil => rfl
    | cons e es ih =>
      have hrest := ih fun e' he' => hes e' (List.mem_cons_of_mem _ he')
      unfold pick at hrest ⊢
      rw [List.map_cons, List.mapM_cons, hrest]
      simp only [hfound e (hes e List.mem_cons_self)]
      rfl
  exact hall fields fun _ he => he

end Source

open Source

variable {α β : Type}

/-! ### Readers -/

/-- A reader takes a value out of a description if it may go down as many levels as the description
is nested. The description can be told from its text. -/
structure Reads (read : Nat → Json → Option α) (d : Data) (a : α) : Prop where
  printable : d.toJson.IsPrintable
  value : ∀ {n}, d.toJson.levels ≤ n → read n d.toJson = some a

/-- The reader of a field takes a value out of a description, see `Reads`. -/
structure ReadsField (read : Nat → Option Json → Option α) (d : Data) (a : α) : Prop where
  printable : d.toJson.IsPrintable
  value : ∀ {n}, d.toJson.levels ≤ n → read n (some d.toJson) = some a

/-- What is there is read like a field. -/
theorem ReadsField.reads {read : Nat → Option Json → Option α} {d : Data} {a : α}
    (h : ReadsField read d a) : Reads (fun n v => read n (some v)) d a := ⟨h.printable, h.value⟩

namespace Reads

theorem bool (b : Bool) : Reads (fun _ => bool?) (.bool b) b := ⟨trivial, fun _ => rfl⟩

theorem str (s : String) : Reads (fun _ => str?) (.str s) s := ⟨trivial, fun _ => rfl⟩

theorem nat {limit n : Nat} (h : n ≤ limit) : Reads (fun _ => nat? limit) (.nat n) n :=
  ⟨Numeral.isPlain_ofNat n, fun _ => Numeral.toNat?_ofNat h⟩

theorem int {n : Int} (hlow : -9223372036854775808 ≤ n) (hhigh : n ≤ 9223372036854775807) :
    Reads (fun _ => int?) (.int n) n :=
  ⟨Numeral.isPlain_ofInt n, fun _ => Numeral.toInt?_ofInt hlow hhigh⟩

/-- One of several values that have different names. -/
theorem oneOf {name : α → String} {all : List α} {a : α} (ha : a ∈ all)
    (h : (all.map name).Nodup) : Reads (fun _ => Source.oneOf name all) (.unitVariant (name a)) a := by
  refine ⟨trivial, fun _ => ?_⟩
  change (all.find? fun b => name b = name a) = some a
  induction all with
  | nil => cases ha
  | cons b rest ih =>
    rw [List.map_cons, List.nodup_cons] at h
    rcases List.mem_cons.1 ha with rfl | ha
    · exact List.find?_cons_of_pos (by simp)
    · have hne : name b ≠ name a := fun heq => h.1 (List.mem_map.2 ⟨a, ha, heq.symm⟩)
      rw [List.find?_cons_of_neg (by simpa using hne)]
      exact ih ha h.2

section

variable {f : α → Data} {read : Nat → Json → Option α}

theorem list {xs : List α} (h : ∀ x ∈ xs, Reads read (f x) x) :
    Reads (fun n => listOf n read) (.ofList f xs) xs := by
  have hjson : (Data.ofList f xs).toJson = .arr (xs.map fun x => (f x).toJson) := by
    rw [Data.ofList, Data.toJson, Data.toJsons_eq_map, List.map_map]
    rfl
  constructor
  · rw [hjson, Json.IsPrintable, Json.allPrintable_iff]
    intro j hj
    obtain ⟨x, hx, rfl⟩ := List.mem_map.1 hj
    exact (h x hx).printable
  · intro n hn
    rw [hjson, Json.levels] at hn
    obtain ⟨n, rfl⟩ : ∃ m, n = m + 1 := ⟨n - 1, by omega⟩
    have hlevels := Json.itemLevels_le.1 (Nat.le_of_succ_le_succ hn)
    rw [hjson]
    change (xs.map fun x => (f x).toJson).mapM (read n) = some xs
    clear hn hjson
    induction xs with
    | nil => rfl
    | cons x xs ih =>
      rw [List.map_cons, List.forall_mem_cons] at hlevels
      rw [List.map_cons, List.mapM_cons, (h x List.mem_cons_self).value hlevels.1,
        ih (fun y hy => h y (List.mem_cons_of_mem _ hy)) hlevels.2]
      rfl

theorem pair {g : β → Data} {read' : Nat → Json → Option β} {a : α} {b : β}
    (ha : Reads read (f a) a) (hb : Reads read' (g b) b) :
    Reads (fun n => pairOf n read read') (.tuple [f a, g b]) (a, b) := by
  constructor
  · exact ⟨ha.printable, hb.printable, trivial⟩
  · intro n hn
    simp only [Data.toJson, Data.toJsons, Json.levels, Json.itemLevels] at hn
    obtain ⟨n, rfl⟩ : ∃ m, n = m + 1 := ⟨n - 1, by omega⟩
    change (do return (← read n (f a).toJson, ← read' n (g b).toJson)) = some (a, b)
    rw [ha.value (by omega), hb.value (by omega)]
    rfl

theorem map {d : Data} {a : α} (h : Reads read d a) (g : α → β) :
    Reads (fun n v => do return g (← read n v)) d (g a) := by
  refine ⟨h.printable, fun {n} hn => ?_⟩
  change (do return g (← read n d.toJson)) = some (g a)
  rw [h.value hn]
  rfl

/-- A variant that holds one value, one level down. -/
theorem variant {read' : Nat → Json → Option α} {name : String} {d : Data} {a : α}
    (h : Reads read' d a) (hread : ∀ n j, read (n + 1) (.obj [(name, j)]) = read' n j) :
    Reads read (.variant name d) a := by
  refine ⟨⟨h.printable, trivial⟩, fun {n} hn => ?_⟩
  simp only [Data.toJson, Json.levels, Json.fieldLevels] at hn
  obtain ⟨n, rfl⟩ : ∃ m, n = m + 1 := ⟨n - 1, by omega⟩
  exact (hread n _).trans (h.value (by omega))

/-- A field that must be present. -/
theorem required {d : Data} {a : α} (h : Reads read d a) :
    ReadsField (fun n => Source.required (read n)) d a := ⟨h.printable, h.value⟩

/-- A field that may be empty; what is there must not look like nothing. -/
theorem optional {o : Option α} (h : ∀ a ∈ o, Reads read (f a) a)
    (hnull : ∀ a ∈ o, (f a).toJson ≠ .null) :
    ReadsField (fun n => Source.optional (read n)) (.option f o) o := by
  cases o with
  | none => exact ⟨trivial, fun _ => rfl⟩
  | some a =>
    have ha := h a rfl
    refine ⟨ha.printable, fun {n} hn => ?_⟩
    have hpresent : Source.option? (f a).toJson = some (some (f a).toJson) := by
      have hne := hnull a rfl
      generalize (f a).toJson = j at hne
      cases j with
      | null => exact absurd rfl hne
      | _ => rfl
    change Source.optional (read n) (some (f a).toJson) = some (some a)
    simp only [Source.optional, hpresent]
    change (do return some (← read n (f a).toJson)) = some (some a)
    rw [ha.value hn]
    rfl

end

section

variable {fields : List (String × Data)} {a : α}

theorem fieldsOf {names : List String} (hnames : fields.map Prod.fst = names) (h : names.Nodup) :
    Json.fieldsOf? names (.obj (Data.toFields fields)) =
      some (fields.map fun e => some e.2.toJson) := by
  subst hnames
  have hfst : (fields.map fun e => (e.1, e.2.toJson)).map Prod.fst = fields.map Prod.fst := by
    rw [List.map_map]
    rfl
  rw [Json.fieldsOf?, Data.toFields_eq_map, ← hfst, pick_map (hfst ▸ h), List.map_map]
  rfl

/-- A record: its fields are read one level down. -/
theorem record {read : Nat → List (Option Json) → Option α} (name : String) (names : List String)
    (hnames : fields.map Prod.fst = names) (h : names.Nodup)
    (hprintable : Json.FieldsPrintable (Data.toFields fields))
    (hread : ∀ n, Data.FieldsWithin n fields →
      read n (fields.map fun e => some e.2.toJson) = some a) :
    Reads (fun n v => recordOf n name names v read) (.record fields) a := by
  refine ⟨hprintable, fun {n} hn => ?_⟩
  rw [Data.toJson, Json.levels] at hn
  obtain ⟨n, rfl⟩ : ∃ m, n = m + 1 := ⟨n - 1, by omega⟩
  change (Json.fieldsOf? names (.obj (Data.toFields fields))).bind (read n) = some a
  rw [fieldsOf hnames h]
  exact hread n (Data.fieldsWithin_iff.2 (Nat.le_of_succ_le_succ hn))

/-- A variant that holds fields, two levels down. -/
theorem recordVariant {read : Nat → Json → Option α} {read' : Nat → List (Option Json) → Option α}
    {name : String} (names : List String) (hnames : fields.map Prod.fst = names) (h : names.Nodup)
    (hprintable : Json.FieldsPrintable (Data.toFields fields))
    (hfields : ∀ n, Data.FieldsWithin n fields →
      read' n (fields.map fun e => some e.2.toJson) = some a)
    (hread : ∀ n j, read (n + 2) (.obj [(name, j)]) =
      (Source.fields? names (Json.obj [(name, j)])).bind (read' n)) :
    Reads read (.recordVariant name fields) a := by
  refine ⟨⟨hprintable, trivial⟩, fun {n} hn => ?_⟩
  simp only [Data.toJson, Json.levels, Json.fieldLevels] at hn
  obtain ⟨n, rfl⟩ : ∃ m, n = m + 2 := ⟨n - 2, by omega⟩
  refine (hread n _).trans ?_
  change (Json.fieldsOf? names (.obj (Data.toFields fields))).bind (read' n) = some a
  rw [fieldsOf hnames h]
  exact hfields n (Data.fieldsWithin_iff.2 (by omega))

end

end Reads

end Monomorph
