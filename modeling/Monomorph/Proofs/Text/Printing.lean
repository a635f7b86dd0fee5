import Monomorph.Proofs.Text.Tokens

/-!
# JSON read back

A JSON value whose numbers are integers is read back from the text that it is written as. The reader
carries a bound on its steps, and twice the length of the text is enough: every value, item and field
has a character of its own.

## Main definitions

* `Json.IsPrintable`: the values that can be told from their text.
* `Json.chars`: the characters of a value.

## Main results

* `Json.toList_pretty`: what is written.
* `Json.takeValue_chars`: a value is taken off the front of a text.
* `Json.read_pretty`: what is written is read back.
-/

namespace Monomorph

namespace Json

mutual

/-- The values that can be told from their text: all numbers are integers, and all strings are
complete. -/
def IsPrintable : Json → Prop
  | .num n => n.IsPlain
  | .arr items => AllPrintable items
  | .obj fields => FieldsPrintable fields
  | .unpairedStr => False
  | .null | .bool _ | .str _ => True

/-- All items can be told from their text. -/
def AllPrintable : List Json → Prop
  | [] => True
  | j :: rest => j.IsPrintable ∧ AllPrintable rest

/-- All fields can be told from their text. -/
def FieldsPrintable : List (String × Json) → Prop
  | [] => True
  | (_, j) :: rest => j.IsPrintable ∧ FieldsPrintable rest

end

/-! ### What is written -/

mutual

/-- The characters of a value over several lines. -/
def chars (level : Nat) : Json → List Char
  | .null | .unpairedStr => ['n', 'u', 'l', 'l']
  | .bool true => ['t', 'r', 'u', 'e']
  | .bool false => ['f', 'a', 'l', 's', 'e']
  | .num n => n.text.toList
  | .str s => (quote s).toList
  | .arr items =>
    match items with
    | [] => ['[', ']']
    | _ :: _ => '[' :: itemChars true (level + 1) items ++ ((newline level).toList ++ [']'])
  | .obj fields =>
    match fields with
    | [] => ['\x7b', '\x7d']
    | _ :: _ => '\x7b' :: fieldChars true (level + 1) fields ++ ((newline level).toList ++ ['\x7d'])

/-- The characters of items, each on its own line. -/
def itemChars (first : Bool) (level : Nat) : List Json → List Char
  | [] => []
  | j :: rest =>
    (if first then [] else [',']) ++
      ((newline level).toList ++ (chars level j ++ itemChars false level rest))

/-- The characters of fields, each on its own line. -/
def fieldChars (first : Bool) (level : Nat) : List (String × Json) → List Char
  | [] => []
  | (name, j) :: rest =>
    (if first then [] else [',']) ++ ((newline level).toList ++
      ((quote name).toList ++ (':' :: ' ' :: (chars level j ++ fieldChars false level rest))))

end

mutual

theorem toList_prettyTo (acc : String) (level : Nat) :
    ∀ j : Json, (prettyTo acc level j).toList = acc.toList ++ chars level j
  | .null | .unpairedStr | .bool true | .bool false | .num _ | .str _ => by
    simp [prettyTo, chars]
  | .arr [] => by simp [prettyTo, chars]
  | .arr (j :: rest) => by
    simp [prettyTo, chars, toList_prettyItems _ true (level + 1) (j :: rest)]
  | .obj [] => by simp [prettyTo, chars]
  | .obj (field :: rest) => by
    simp [prettyTo, chars, toList_prettyFields _ true (level + 1) (field :: rest)]

theorem toList_prettyItems (acc : String) (first : Bool) (level : Nat) :
    ∀ items : List Json,
      (prettyItems acc first level items).toList = acc.toList ++ itemChars first level items
  | [] => by simp [prettyItems, itemChars]
  | j :: rest => by
    simp only [prettyItems, itemChars, toList_prettyItems _ false level rest,
      toList_prettyTo _ level j]
    cases first <;> simp

theorem toList_prettyFields (acc : String) (first : Bool) (level : Nat) :
    ∀ fields : List (String × Json),
      (prettyFields acc first level fields).toList = acc.toList ++ fieldChars first level fields
  | [] => by simp [prettyFields, fieldChars]
  | (name, j) :: rest => by
    simp only [prettyFields, fieldChars, toList_prettyFields _ false level rest,
      toList_prettyTo _ level j]
    cases first <;> simp

end

/-- The characters of the text of a value. -/
theorem toList_pretty (j : Json) : j.pretty.toList = chars 0 j := by
  rw [pretty, toList_prettyTo]
  rfl

/-! ### Blanks -/

theorem toList_newline (level : Nat) :
    (newline level).toList = '\n' :: List.replicate (2 * level) ' ' := by
  simp [newline]

/-- Line breaks are passed over. -/
theorem skipBlanks_newline (level : Nat) (cs : List Char) :
    skipBlanks ((newline level).toList ++ cs) = skipBlanks cs := by
  unfold skipBlanks
  refine List.dropWhile_append_of_pos fun c hc => ?_
  rw [toList_newline, List.mem_cons, List.mem_replicate] at hc
  rcases hc with rfl | ⟨-, rfl⟩ <;> rfl

theorem skipBlanks_cons {c : Char} (hc : isBlank c = false) (cs : List Char) :
    skipBlanks (c :: cs) = c :: cs :=
  List.dropWhile_cons_of_neg (by simp [hc])

theorem stops_newline_append (level : Nat) (cs : List Char) :
    Stops ((newline level).toList ++ cs) := by
  rw [toList_newline]
  exact stops_newline _

theorem length_newline_pos (level : Nat) : 0 < (newline level).toList.length := by
  rw [toList_newline]
  exact Nat.zero_lt_succ _

/-- A string is no longer than what is written for it. -/
theorem length_lt_quote (s : String) : s.toList.length + 1 < (quote s).toList.length := by
  have hchars : ∀ cs : List Char, cs.length ≤ (cs.flatMap fun c => (escape c).toList).length := by
    intro cs
    induction cs with
    | nil => simp
    | cons c cs ih =>
      have hne : 0 < (escape c).toList.length := by
        unfold escape
        repeat' split
        all_goals simp
      rw [List.flatMap_cons, List.length_append, List.length_cons]
      omega
  rw [toList_quote]
  have := hchars s.toList
  simp only [List.cons_append, List.length_cons, List.length_append, List.length_nil]
  omega

/-! ### First characters -/

/-- How the text of a number begins. -/
theorem exists_text_cons {n : Numeral} (hn : n.IsPlain) :
    ∃ c cs, n.text.toList = c :: cs ∧ (c = '-' ∨ c.isDigit = true) := by
  obtain ⟨m, -, htext⟩ := hn.toList_text
  rw [htext]
  cases n.negative with
  | true => exact ⟨'-', _, rfl, .inl rfl⟩
  | false =>
    cases hds : Nat.toDigits 10 m with
    | nil => exact absurd hds Nat.toDigits_ne_nil
    | cons d ds =>
      refine ⟨d, ds, rfl, .inr ?_⟩
      exact Nat.isDigit_of_mem_toDigits (b := 10) (n := m) (by omega) (by omega)
        (hds ▸ List.mem_cons_self)

/-- A character that begins a number is none of those that begin another value. -/
theorem ne_of_begins_number {c : Char} (hc : c = '-' ∨ c.isDigit = true) :
    isBlank c = false ∧ c ≠ '[' ∧ c ≠ ']' ∧ c ≠ '\x7b' ∧ c ≠ '"' ∧ c ≠ 'n' ∧ c ≠ 't' ∧ c ≠ 'f' := by
  rcases hc with rfl | hc
  · decide
  · have hblank : isBlank c = false := by
      unfold isBlank
      simp only [Bool.or_eq_false_iff, decide_eq_false_iff_not]
      refine ⟨⟨⟨?_, ?_⟩, ?_⟩, ?_⟩ <;> rintro rfl <;> cases hc
    refine ⟨hblank, ?_, ?_, ?_, ?_, ?_, ?_, ?_⟩ <;> rintro rfl <;> cases hc

/-- The text of a value begins neither with a blank nor with a closing bracket. -/
theorem exists_chars_cons {j : Json} (hj : j.IsPrintable) (level : Nat) :
    ∃ c cs, chars level j = c :: cs ∧ isBlank c = false ∧ c ≠ ']' := by
  cases j with
  | num n =>
    obtain ⟨c, cs, htext, hc⟩ := exists_text_cons hj
    obtain ⟨hblank, -, hbracket, -⟩ := ne_of_begins_number hc
    exact ⟨c, cs, htext, hblank, hbracket⟩
  | str s => exact ⟨'"', _, toList_quote s, rfl, by decide⟩
  | bool b => cases b <;> exact ⟨_, _, rfl, rfl, by decide⟩
  | arr items => cases items <;> exact ⟨'[', _, rfl, rfl, by decide⟩
  | obj fields => cases fields <;> exact ⟨'\x7b', _, rfl, rfl, by decide⟩
  | null | unpairedStr => exact ⟨_, _, rfl, rfl, by decide⟩

/-! ### Taking values off -/

theorem takeValue_num {n : Numeral} (hn : n.IsPlain) (fuel : Nat) {cs : List Char} (hs : Stops cs) :
    takeValue (fuel + 1) (n.text.toList ++ cs) = some (.num n, cs) := by
  have htake := takeNumeral_text hn hs
  obtain ⟨c, rest, htext, hc⟩ := exists_text_cons hn
  obtain ⟨-, h₁, -, h₂, h₃, h₄, h₅, h₆⟩ := ne_of_begins_number hc
  rw [htext, List.cons_append] at htake ⊢
  rw [takeValue]
  simp only [if_neg h₁, if_neg h₂, if_neg h₃, if_neg h₄, if_neg h₅, if_neg h₆, htake]
  rfl

theorem takeValue_str (s : String) {fuel : Nat} (hfuel : s.toList.length < fuel) (cs : List Char) :
    takeValue (fuel + 1) ((quote s).toList ++ cs) = some (.str s, cs) := by
  have hrest : (quote s).toList ++ cs =
      '"' :: ((s.toList.flatMap fun c => (escape c).toList) ++ '"' :: cs) := by
    rw [toList_quote]
    simp
  rw [hrest, takeValue]
  simp only [takeString_quote s hfuel]
  rfl

/-- The name of a field, and the blank in front of its value, are taken off the front of a text. -/
theorem takeName_quote (s : String) {fuel : Nat} (hfuel : s.toList.length < fuel) {c : Char}
    (hc : isBlank c = false) (cs : List Char) :
    takeName fuel ((quote s).toList ++ ':' :: ' ' :: c :: cs) = some (s, c :: cs) := by
  have hrest : (quote s).toList ++ ':' :: ' ' :: c :: cs =
      '"' :: ((s.toList.flatMap fun c => (escape c).toList) ++ '"' :: ':' :: ' ' :: c :: cs) := by
    rw [toList_quote]
    simp
  have hblank : skipBlanks (' ' :: c :: cs) = c :: cs := skipBlanks_cons hc cs
  rw [hrest, takeName]
  simp only [takeString_quote s hfuel]
  rw [skipBlanks_cons (by rfl)]
  simp only [hblank]

/-- The items that follow an item. -/
theorem itemChars_rest (level : Nat) (j : Json) (rest : List Json) :
    itemChars false level (j :: rest) = ',' :: itemChars true level (j :: rest) := by
  simp [itemChars]

theorem fieldChars_rest (level : Nat) (field : String × Json) (rest : List (String × Json)) :
    fieldChars false level (field :: rest) = ',' :: fieldChars true level (field :: rest) := by
  simp [fieldChars]

/-! ### Steps of the reader -/

section Steps

variable {fuel level : Nat} {cs rest tail : List Char} {j : Json} {name : String}

theorem takeItems_last (acc : List Json)
    (hvalue : takeValue fuel cs = some (j, (newline level).toList ++ ']' :: tail)) :
    takeItems (fuel + 1) acc cs = some (.arr (acc.reverse ++ [j]), tail) := by
  rw [takeItems, hvalue]
  dsimp only
  rw [skipBlanks_newline, skipBlanks_cons (by rfl), ← List.reverse_cons]
  rfl

theorem takeItems_next (acc : List Json) (hvalue : takeValue fuel cs = some (j, ',' :: rest)) :
    takeItems (fuel + 1) acc cs = takeItems fuel (j :: acc) (skipBlanks rest) := by
  rw [takeItems, hvalue]
  dsimp only
  rw [skipBlanks_cons (by rfl)]
  rfl

theorem takeFields_last (acc : List (String × Json)) (hname : takeName fuel cs = some (name, rest))
    (hvalue : takeValue fuel rest = some (j, (newline level).toList ++ '\x7d' :: tail)) :
    takeFields (fuel + 1) acc cs = some (.obj (acc.reverse ++ [(name, j)]), tail) := by
  rw [takeFields, hname]
  dsimp only
  rw [hvalue]
  dsimp only
  rw [skipBlanks_newline, skipBlanks_cons (by rfl), ← List.reverse_cons]
  rfl

theorem takeFields_next (acc : List (String × Json)) (hname : takeName fuel cs = some (name, rest))
    (hvalue : takeValue fuel rest = some (j, ',' :: tail)) :
    takeFields (fuel + 1) acc cs = takeFields fuel ((name, j) :: acc) (skipBlanks tail) := by
  rw [takeFields, hname]
  dsimp only
  rw [hvalue]
  dsimp only
  rw [skipBlanks_cons (by rfl)]
  rfl

theorem takeValue_items (hne : (skipBlanks cs).head? ≠ some ']') :
    takeValue (fuel + 1) ('[' :: cs) = takeItems fuel [] (skipBlanks cs) := by
  rw [takeValue, if_pos rfl]
  split
  · rename_i heq
    exact absurd (congrArg List.head? heq) hne
  · rfl

theorem takeValue_fields (hne : (skipBlanks cs).head? ≠ some '\x7d') :
    takeValue (fuel + 1) ('\x7b' :: cs) = takeFields fuel [] (skipBlanks cs) := by
  rw [takeValue, if_neg (by decide), if_pos rfl]
  split
  · rename_i heq
    exact absurd (congrArg List.head? heq) hne
  · rfl

end Steps

/-- An item begins with the first character of its value. -/
theorem skipBlanks_itemChars (level : Nat) {j : Json} (hj : j.IsPrintable) (rest : List Json)
    (cs : List Char) :
    skipBlanks (itemChars true level (j :: rest) ++ cs) =
      chars level j ++ (itemChars false level rest ++ cs) := by
  obtain ⟨c, cs', hcons, hc, -⟩ := exists_chars_cons hj level
  simp only [itemChars, if_pos, List.nil_append, List.append_assoc]
  rw [skipBlanks_newline, hcons]
  exact skipBlanks_cons hc _

/-- A field begins with its quoted name. -/
theorem skipBlanks_fieldChars (level : Nat) (name : String) (j : Json) (rest : List (String × Json))
    (cs : List Char) :
    skipBlanks (fieldChars true level ((name, j) :: rest) ++ cs) =
      (quote name).toList ++
        ':' :: ' ' :: (chars level j ++ (fieldChars false level rest ++ cs)) := by
  simp only [fieldChars, if_pos, List.nil_append, List.append_assoc, List.cons_append]
  rw [skipBlanks_newline, toList_quote]
  exact skipBlanks_cons rfl _

mutual

/-- A value is taken off the front of a text. -/
theorem takeValue_chars (level : Nat) : ∀ {j : Json}, j.IsPrintable → ∀ {fuel : Nat},
    2 * (chars level j).length < fuel + 1 → ∀ {cs : List Char}, Stops cs →
    takeValue (fuel + 1) (chars level j ++ cs) = some (j, cs)
  | .null, _, _, _, _, _ => rfl
  | .bool true, _, _, _, _, _ => rfl
  | .bool false, _, _, _, _, _ => rfl
  | .num _, hn, fuel, _, _, hs => takeValue_num hn fuel hs
  | .str s, _, fuel, hfuel, cs, _ => takeValue_str s (by
      have := length_lt_quote s
      simp only [chars] at hfuel
      omega) cs
  | .arr [], _, _, _, _, _ => rfl
  | .obj [], _, _, _, _, _ => rfl
  | .arr (j :: rest), hj, fuel, hfuel, cs, _ => by
    obtain ⟨c, cs', hcons, -, hc⟩ := exists_chars_cons hj.1 (level + 1)
    simp only [chars, List.length_cons, List.length_append, List.length_nil] at hfuel
    simp only [chars, List.append_assoc, List.cons_append, List.nil_append]
    rw [takeValue_items, takeItems_chars (level + 1) hj (by simp) (by omega) _ [], List.reverse_nil,
      List.nil_append]
    rw [skipBlanks_itemChars _ hj.1, hcons]
    simpa using hc
  | .obj (field :: rest), hj, fuel, hfuel, cs, _ => by
    simp only [chars, List.length_cons, List.length_append, List.length_nil] at hfuel
    simp only [chars, List.append_assoc, List.cons_append, List.nil_append]
    rw [takeValue_fields, takeFields_chars (level + 1) hj (by simp) (by omega) _ [], List.reverse_nil,
      List.nil_append]
    rw [skipBlanks_fieldChars, toList_quote]
    simp

/-- Items are taken off up to the closing bracket. -/
theorem takeItems_chars (level : Nat) : ∀ {items : List Json}, AllPrintable items → items ≠ [] →
    ∀ {fuel : Nat}, 2 * (itemChars true level items).length ≤ fuel → ∀ (outer : Nat)
    (acc : List Json) {tail : List Char},
    takeItems fuel acc (skipBlanks
        (itemChars true level items ++ ((newline outer).toList ++ ']' :: tail))) =
      some (.arr (acc.reverse ++ items), tail)
  | j :: rest, hall, _, fuel, hfuel, outer, acc, tail => by
    have hline := length_newline_pos level
    rw [skipBlanks_itemChars _ hall.1]
    simp only [itemChars, if_pos, List.nil_append, List.length_append] at hfuel
    obtain ⟨fuel, rfl⟩ : ∃ n, fuel = n + 2 := ⟨fuel - 2, by omega⟩
    have hvalue {cs : List Char} (hs : Stops cs) :
        takeValue (fuel + 1) (chars level j ++ cs) = some (j, cs) :=
      takeValue_chars level hall.1 (by omega) hs
    cases hrest : rest with
    | nil => exact takeItems_last acc (hvalue (stops_newline_append _ _))
    | cons next others =>
      have htake (h : 2 * (itemChars true level rest).length ≤ fuel + 1) (acc' : List Json) :
          takeItems (fuel + 1) acc' (skipBlanks
              (itemChars true level rest ++ ((newline outer).toList ++ ']' :: tail))) =
            some (.arr (acc'.reverse ++ rest), tail) :=
        takeItems_chars level hall.2 (by simp [hrest]) h outer acc'
      rw [hrest, itemChars_rest, List.length_cons] at hfuel
      rw [hrest] at htake
      rw [itemChars_rest, List.cons_append, takeItems_next acc (hvalue (stops_comma _)),
        htake (by omega) (j :: acc), List.reverse_cons, List.append_assoc]
      rfl

/-- Fields are taken off up to the closing brace. -/
theorem takeFields_chars (level : Nat) : ∀ {fields : List (String × Json)},
    FieldsPrintable fields → fields ≠ [] → ∀ {fuel : Nat},
    2 * (fieldChars true level fields).length ≤ fuel → ∀ (outer : Nat)
    (acc : List (String × Json)) {tail : List Char},
    takeFields fuel acc (skipBlanks
        (fieldChars true level fields ++ ((newline outer).toList ++ '\x7d' :: tail))) =
      some (.obj (acc.reverse ++ fields), tail)
  | (name, j) :: rest, hall, _, fuel, hfuel, outer, acc, tail => by
    have hline := length_newline_pos level
    have hquote := length_lt_quote name
    obtain ⟨c, cs', hcons, hc, -⟩ := exists_chars_cons hall.1 level
    rw [skipBlanks_fieldChars]
    simp only [fieldChars, if_pos, List.nil_append, List.length_append, List.length_cons] at hfuel
    obtain ⟨fuel, rfl⟩ : ∃ n, fuel = n + 2 := ⟨fuel - 2, by omega⟩
    have hname (cs : List Char) :
        takeName (fuel + 1) ((quote name).toList ++ ':' :: ' ' :: (chars level j ++ cs)) =
          some (name, chars level j ++ cs) := by
      rw [hcons]
      exact takeName_quote name (by omega) hc _
    have hvalue {cs : List Char} (hs : Stops cs) :
        takeValue (fuel + 1) (chars level j ++ cs) = some (j, cs) :=
      takeValue_chars level hall.1 (by omega) hs
    cases hrest : rest with
    | nil => exact takeFields_last acc (hname _) (hvalue (stops_newline_append _ _))
    | cons next others =>
      have htake (h : 2 * (fieldChars true level rest).length ≤ fuel + 1)
          (acc' : List (String × Json)) :
          takeFields (fuel + 1) acc' (skipBlanks
              (fieldChars true level rest ++ ((newline outer).toList ++ '\x7d' :: tail))) =
            some (.obj (acc'.reverse ++ rest), tail) :=
        takeFields_chars level hall.2 (by simp [hrest]) h outer acc'
      rw [hrest, fieldChars_rest, List.length_cons] at hfuel
      rw [hrest] at htake
      rw [fieldChars_rest, List.cons_append, takeFields_next acc (hname _) (hvalue (stops_comma _)),
        htake (by omega) ((name, j) :: acc), List.reverse_cons, List.append_assoc]
      rfl

end

/-- What is written is read back. -/
theorem read_pretty {j : Json} (hj : j.IsPrintable) : read j.pretty = some j := by
  obtain ⟨c, cs, hcons, hc, -⟩ := exists_chars_cons hj 0
  have hskip : skipBlanks (chars 0 j) = chars 0 j := by
    rw [hcons]
    exact skipBlanks_cons hc cs
  have htake : takeValue (2 * (chars 0 j).length + 2) (chars 0 j ++ []) = some (j, []) :=
    takeValue_chars 0 hj (by omega) stops_nil
  rw [List.append_nil] at htake
  unfold read
  rw [toList_pretty, hskip]
  dsimp only
  rw [htake]
  rfl

end Json

end Monomorph
