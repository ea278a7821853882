import Dataflow.Json.Parser
import Dataflow.Json.Printer
import Mathlib.Data.List.TakeDrop

/-!
# Written values are read back

The compact text of a value in which every number is an integer is read back as that value, with
whatever follows it left over. So the text determines the value: no choice of strings, nested
however deeply, can imitate another one.

What may follow a value inside a text is a comma or a closing bracket (`Delimited`), and the reader
stops there. The allowance of the readers is measured by the length of the text.
-/

namespace Dataflow

/-! ### Hexadecimal digits -/

namespace Hex

theorem value?_digit {n : Nat} (h : n < 16) : value? (digit n) = some n := by
  have key : ∀ n < 16, value? (digit n) = some n := by decide
  exact key n h

/-- Two digits with two zeros before them are read as the byte they were written for. -/
theorem read?_byte {n : Nat} (h : n < 256) (rest : List Char) :
    read? 4 ('0' :: '0' :: (byte n ++ rest)) = some (n, rest) := by
  have hhigh : value? (digit (n / 16)) = some (n / 16) := value?_digit (by omega)
  have hlow : value? (digit (n % 16)) = some (n % 16) := value?_digit (by omega)
  have hzero : value? '0' = some 0 := rfl
  have hn : 16 * (n / 16) + n % 16 = n := Nat.div_add_mod n 16
  simp [read?, byte, hhigh, hlow, hzero, hn]

end Hex

namespace Json

/-! ### Strings -/

theorem readCodePoint?_byte {n : Nat} (h : n < 256) (rest : List Char) :
    readCodePoint? ('0' :: '0' :: (Hex.byte n ++ rest)) = some (Char.ofNat n, rest) := by
  have hlow : ¬0xD800 ≤ n := by omega
  have hhigh : ¬0xDC00 ≤ n := by omega
  simp [readCodePoint?, Hex.read?_byte h, hlow, hhigh]

/-- An escaped character is read in one step. -/
theorem readString?_escapeChar (fuel : Nat) (acc : List Char) (c : Char) (rest : List Char) :
    readString? (fuel + 1) acc (escapeChar c ++ rest) = readString? fuel (c :: acc) rest := by
  unfold escapeChar
  split
  case h_8 hquote hslash _ _ _ _ _ =>
    split
    next hcontrol =>
      show readString? (fuel + 1) acc ('\\' :: 'u' :: '0' :: '0' :: (Hex.byte c.toNat ++ rest)) = _
      rw [readString?, readCodePoint?_byte (by omega)]
      simp [Char.ofNat_toNat]
    next hcontrol =>
      simp only [List.cons_append, List.nil_append, readString?, hcontrol, if_false]
      rw [if_neg hquote, if_neg hslash]
  all_goals rfl

/-- The characters of a string up to its closing quote are read back. -/
theorem readString?_escaped {cs : List Char} {fuel : Nat} (h : cs.length < fuel)
    (acc rest : List Char) :
    readString? fuel acc (cs.flatMap escapeChar ++ '"' :: rest) =
      some (String.ofList (acc.reverse ++ cs), rest) := by
  induction cs generalizing fuel acc with
  | nil =>
    obtain ⟨fuel, rfl⟩ := Nat.exists_eq_add_one.2 h
    simp [readString?]
  | cons c cs ih =>
    obtain ⟨fuel, rfl⟩ := Nat.exists_eq_add_one.2 (Nat.zero_lt_of_lt h)
    rw [List.flatMap_cons, List.append_assoc, readString?_escapeChar,
      ih (Nat.lt_of_succ_lt_succ h), List.reverse_cons, List.append_assoc, List.singleton_append]

theorem length_le_length_escaped (cs : List Char) : cs.length ≤ (cs.flatMap escapeChar).length := by
  induction cs with
  | nil => exact Nat.le_refl _
  | cons c cs ih =>
    have hpos : 0 < (escapeChar c).length := by
      unfold escapeChar
      split <;> first | exact Nat.succ_pos _ | (split <;> exact Nat.succ_pos _)
    rw [List.length_cons, List.flatMap_cons, List.length_append]
    omega

/-- What stands between the quotes of a string is read back with the closing quote. -/
theorem readString?_quoted (s : String) {fuel : Nat}
    (h : (s.toList.flatMap escapeChar).length + 1 ≤ fuel) (rest : List Char) :
    readString? fuel [] (s.toList.flatMap escapeChar ++ '"' :: rest) = some (s, rest) := by
  rw [readString?_escaped (Nat.lt_of_le_of_lt (length_le_length_escaped _) h), List.reverse_nil,
    List.nil_append, String.ofList_toList]

/-! ### What may follow a value -/

/-- The text ends here, or goes on with a comma or a closing bracket. -/
def Delimited (cs : List Char) : Prop :=
  ∀ c ∈ cs.head?, c = ',' ∨ c = ']' ∨ c = '\x7d'

theorem delimited_cons {c : Char} (h : c = ',' ∨ c = ']' ∨ c = '\x7d') (cs : List Char) :
    Delimited (c :: cs) := by
  intro d hd
  exact Option.some.inj hd ▸ h

section Delimited

variable {cs : List Char} (h : Delimited cs)

include h

theorem skipBlanks_delimited : skipBlanks cs = cs := by
  cases cs with
  | nil => rfl
  | cons c cs => rcases h c rfl with rfl | rfl | rfl <;> rfl

theorem readDigits_append {ds : List Char} (hds : ∀ d ∈ ds, d.isDigit) :
    readDigits (ds ++ cs) = (ds, cs) := by
  have hstop : cs.takeWhile Char.isDigit = [] ∧ cs.dropWhile Char.isDigit = cs := by
    cases cs with
    | nil => exact ⟨rfl, rfl⟩
    | cons c cs => rcases h c rfl with rfl | rfl | rfl <;> exact ⟨rfl, rfl⟩
  rw [readDigits, List.span_eq_takeWhile_dropWhile, List.takeWhile_append_of_pos hds,
    List.dropWhile_append_of_pos hds, hstop.1, hstop.2, List.append_nil]

theorem readFraction?_delimited : readFraction? cs = some ([], cs) := by
  cases cs with
  | nil => rfl
  | cons c cs => rcases h c rfl with rfl | rfl | rfl <;> rfl

theorem readExponent?_delimited : readExponent? cs = some ([], cs) := by
  cases cs with
  | nil => rfl
  | cons c cs => rcases h c rfl with rfl | rfl | rfl <;> rfl

end Delimited

/-! ### Numbers -/

theorem digitsValue_toDigits (n : Nat) : digitsValue (Nat.toDigits 10 n) = n :=
  Nat.ofDigitChars_toDigits (by decide) (by decide)

theorem isDigit_of_mem_toDigits {n : Nat} {d : Char} (h : d ∈ Nat.toDigits 10 n) : d.isDigit :=
  Nat.isDigit_of_mem_toDigits (by decide) (by decide) h

theorem exists_toDigits_eq_cons (n : Nat) :
    ∃ d ds, Nat.toDigits 10 n = d :: ds ∧ d.isDigit := by
  obtain ⟨d, ds, hds⟩ := List.exists_cons_of_ne_nil (Nat.toDigits_ne_nil (n := n) (b := 10))
  exact ⟨d, ds, hds, isDigit_of_mem_toDigits (n := n) (hds ▸ List.mem_cons_self ..)⟩

/-- Only zero is written with a zero in front. -/
theorem head?_toDigits_ne {n : Nat} (h : n ≠ 0) : (Nat.toDigits 10 n).head? ≠ some '0' := by
  induction n using Nat.strongRecOn with
  | ind n ih =>
    by_cases hn : n < 10
    · rw [Nat.toDigits_of_lt_base hn]
      simpa using h
    · rw [Nat.toDigits_of_base_le (by decide) (Nat.le_of_not_lt hn), List.head?_append,
        Ne, Option.or_eq_some_iff, List.head?_eq_none_iff]
      rintro (hhead | ⟨hnil, -⟩)
      · exact ih (n / 10) (by omega) (by omega) hhead
      · exact Nat.toDigits_ne_nil hnil

/-- Digits are accepted where they are as `Nat.toDigits` writes them. -/
theorem toDigits_accepted (n : Nat) :
    ((Nat.toDigits 10 n).isEmpty ||
      (Nat.toDigits 10 n).length > 1 && (Nat.toDigits 10 n).head? == some '0') = false := by
  have hne : Nat.toDigits 10 n ≠ [] := Nat.toDigits_ne_nil
  by_cases h : n = 0
  · subst h; rfl
  · simp [hne, head?_toDigits_ne h]

theorem readNumber?_ofNat (n : Nat) {rest : List Char} (h : Delimited rest) :
    readNumber? (Nat.toDigits 10 n ++ rest) = some (.int n, rest) := by
  have hsign : ∀ r, Nat.toDigits 10 n ++ rest ≠ '-' :: r := fun r hr ↦ by
    obtain ⟨d, ds, hds, hd⟩ := exists_toDigits_eq_cons n
    rw [hds, List.cons_append] at hr
    obtain ⟨rfl, -⟩ := List.cons.inj hr
    cases hd
  unfold readNumber?
  split
  next negative cs hcs =>
    split at hcs
    next r hr => exact absurd hr (hsign r)
    next =>
      obtain ⟨rfl, rfl⟩ := Prod.mk.inj hcs
      simp [readDigits_append h fun _ ↦ isDigit_of_mem_toDigits, toDigits_accepted,
        readFraction?_delimited h, readExponent?_delimited h, digitsValue_toDigits]

theorem readNumber?_negSucc (n : Nat) {rest : List Char} (h : Delimited rest) :
    readNumber? ('-' :: (Nat.toDigits 10 (n + 1) ++ rest)) = some (.int (Int.negSucc n), rest) := by
  unfold readNumber?
  simp [readDigits_append h fun _ ↦ isDigit_of_mem_toDigits, toDigits_accepted,
    readFraction?_delimited h, readExponent?_delimited h, digitsValue_toDigits, Int.negSucc_eq]

/-! ### The text of a value -/

/-- Every number in the value is an integer. -/
inductive Whole : Json → Prop
  | null : Whole null
  | bool (b : Bool) : Whole (bool b)
  | int (i : Int) : Whole (int i)
  | str (s : String) : Whole (str s)
  | arr {items : List Json} (h : ∀ v ∈ items, Whole v) : Whole (arr items)
  | obj {fields : List (String × Json)} (h : ∀ f ∈ fields, Whole f.2) : Whole (obj fields)

/-- The characters of the compact text. -/
def text (v : Json) : List Char :=
  (compact v).toList

/-- The text of a field. -/
def fieldText (f : String × Json) : List Char :=
  (quote f.1).toList ++ ':' :: text f.2

/-- Texts with commas between them and a bracket after them. -/
def closed (bracket : Char) (texts : List (List Char)) : List Char :=
  [','].intercalate texts ++ [bracket]

theorem closed_singleton (bracket : Char) (t : List Char) :
    closed bracket [t] = t ++ [bracket] := by
  simp [closed, List.intercalate]

theorem closed_cons_cons (bracket : Char) (t u : List Char) (texts : List (List Char)) :
    closed bracket (t :: u :: texts) = t ++ ',' :: closed bracket (u :: texts) := by
  simp [closed, List.intercalate_cons_cons]

theorem toList_quote (s : String) :
    (quote s).toList = '"' :: (s.toList.flatMap escapeChar ++ ['"']) := by
  rw [quote, String.toList_ofList, List.cons_append]

theorem compactItems_eq_map (items : List Json) : compactItems items = items.map compact := by
  induction items with
  | nil => rw [compactItems, List.map_nil]
  | cons v items ih => rw [compactItems, ih, List.map_cons]

theorem compactFields_eq_map (fields : List (String × Json)) :
    compactFields fields = fields.map fun f ↦ quote f.1 ++ ":" ++ compact f.2 := by
  induction fields with
  | nil => rw [compactFields, List.map_nil]
  | cons f fields ih => rw [compactFields, ih, List.map_cons]

theorem text_str (s : String) : text (str s) = '"' :: (s.toList.flatMap escapeChar ++ ['"']) := by
  rw [text, compact, toList_quote]

theorem text_arr (items : List Json) : text (arr items) = '[' :: closed ']' (items.map text) := by
  rw [text, compact, compactItems_eq_map, String.toList_append, String.toList_append,
    String.toList_intercalate, List.map_map]
  rfl

theorem text_obj (fields : List (String × Json)) :
    text (obj fields) = '\x7b' :: closed '\x7d' (fields.map fieldText) := by
  have hfields : fields.map (fun f ↦ (quote f.1 ++ ":" ++ compact f.2).toList) =
      fields.map fieldText := by
    refine List.map_congr_left fun f _ ↦ ?_
    rw [String.toList_append, String.toList_append, List.append_assoc]
    rfl
  rw [text, compact, compactFields_eq_map, String.toList_append, String.toList_append,
    String.toList_intercalate, List.map_map, Function.comp_def, hfields]
  rfl

theorem text_ofNat (n : Nat) : text (int n) = Nat.toDigits 10 n := by
  rw [text, compact, Int.toString_eq_repr]
  exact congrArg String.toList Nat.repr_eq_ofList_toDigits |>.trans String.toList_ofList

theorem text_negSucc (n : Nat) : text (int (Int.negSucc n)) = '-' :: Nat.toDigits 10 (n + 1) := by
  simp [text, compact, Int.toString_eq_repr, Int.repr, Nat.repr_eq_ofList_toDigits]

/-- An integer is written with a sign or a digit in front. -/
theorem exists_text_int_eq_cons (i : Int) :
    ∃ c cs, text (int i) = c :: cs ∧ (c = '-' ∨ c.isDigit) := by
  cases i with
  | ofNat n =>
    obtain ⟨d, ds, hds, hd⟩ := exists_toDigits_eq_cons n
    exact ⟨d, ds, (text_ofNat n).trans hds, .inr hd⟩
  | negSucc n => exact ⟨'-', _, text_negSucc n, .inl rfl⟩

theorem readNumber?_text (i : Int) {rest : List Char} (h : Delimited rest) :
    readNumber? (text (int i) ++ rest) = some (int i, rest) := by
  cases i with
  | ofNat n => exact text_ofNat n ▸ readNumber?_ofNat n h
  | negSucc n => exact text_negSucc n ▸ readNumber?_negSucc n h

/-! ### How texts begin -/

/-- A character that the text of a value may begin with: no blank, and no bracket that closes. -/
def Opening (c : Char) : Prop :=
  c ∉ [' ', '\t', '\n', '\r', ']', '\x7d']

instance (c : Char) : Decidable (Opening c) :=
  inferInstanceAs (Decidable (¬_))

theorem opening_of_number {c : Char} (h : c = '-' ∨ c.isDigit) : Opening c := by
  intro hc
  simp only [List.mem_cons, List.not_mem_nil, or_false] at hc
  rcases hc with rfl | rfl | rfl | rfl | rfl | rfl <;> rcases h with h | h <;> cases h

theorem skipBlanks_cons {c : Char} (h : Opening c) (cs : List Char) :
    skipBlanks (c :: cs) = c :: cs := by
  simp only [Opening, List.mem_cons, List.not_mem_nil, not_or] at h
  simp [skipBlanks, h]

/-- The text of a value is not empty, and how it begins tells it from a blank or a bracket. -/
theorem Whole.exists_text_eq_cons {v : Json} (h : Whole v) :
    ∃ c cs, text v = c :: cs ∧ Opening c := by
  cases h with
  | null => exact ⟨'n', _, rfl, by decide⟩
  | bool b =>
    cases b with
    | true => exact ⟨'t', _, rfl, by decide⟩
    | false => exact ⟨'f', _, rfl, by decide⟩
  | int i =>
    obtain ⟨c, cs, hcs, hc⟩ := exists_text_int_eq_cons i
    exact ⟨c, cs, hcs, opening_of_number hc⟩
  | str s => exact ⟨'"', _, text_str s, by decide⟩
  | arr => exact ⟨'[', _, text_arr _, by decide⟩
  | obj => exact ⟨'\x7b', _, text_obj _, by decide⟩

theorem Opening.ne_bracket {c : Char} (h : Opening c) : c ≠ ']' :=
  fun hc ↦ h (by simp [hc])

theorem Whole.exists_closed_eq_cons {v : Json} (h : Whole v) (bracket : Char)
    (texts : List (List Char)) :
    ∃ c cs, closed bracket (text v :: texts) = c :: cs ∧ Opening c := by
  obtain ⟨c, cs, hcs, hc⟩ := h.exists_text_eq_cons
  cases texts with
  | nil => exact ⟨c, cs ++ [bracket], by rw [closed_singleton, hcs, List.cons_append], hc⟩
  | cons t texts => exact ⟨c, _, by rw [closed_cons_cons, hcs, List.cons_append], hc⟩

theorem exists_closed_fieldText_eq_cons (bracket : Char) (f : String × Json)
    (texts : List (List Char)) : ∃ cs, closed bracket (fieldText f :: texts) = '"' :: cs := by
  cases texts with
  | nil => exact ⟨_, by rw [closed_singleton, fieldText, toList_quote]; rfl⟩
  | cons t texts => exact ⟨_, by rw [closed_cons_cons, fieldText, toList_quote]; rfl⟩

/-! ### Values -/

/-- The text of the value is read back, whatever follows it, if the allowance covers its length. -/
def ReadsBack (v : Json) : Prop :=
  ∀ fuel rest, (text v).length ≤ fuel → Delimited rest →
    readValue? fuel (text v ++ rest) = some (v, rest)

/-- What begins with a sign or a digit is read as a number. -/
theorem readValue?_number {c : Char} (hc : c = '-' ∨ c.isDigit) (fuel : Nat) (cs : List Char) :
    readValue? (fuel + 1) (c :: cs) = readNumber? (c :: cs) := by
  rw [readValue?, skipBlanks_cons (opening_of_number hc)]
  split
  case h_7 => rfl
  all_goals
    rename_i heq
    obtain ⟨rfl, -⟩ := List.cons.inj heq
    rcases hc with hc | hc <;> cases hc

theorem readsBack_int (i : Int) : ReadsBack (int i) := by
  intro fuel rest hfuel hrest
  obtain ⟨c, cs, hcs, hc⟩ := exists_text_int_eq_cons i
  have hread := readNumber?_text i hrest
  rw [hcs] at hfuel hread ⊢
  obtain ⟨fuel, rfl⟩ := Nat.exists_eq_add_one.2 (Nat.zero_lt_of_lt hfuel)
  exact (readValue?_number hc fuel _).trans hread

theorem readsBack_str (s : String) : ReadsBack (str s) := by
  intro fuel rest hfuel _
  rw [text_str, List.length_cons, List.length_append, List.length_singleton] at hfuel
  obtain ⟨fuel, rfl⟩ := Nat.exists_eq_add_one.2 (Nat.zero_lt_of_lt hfuel)
  rw [text_str, List.cons_append, List.append_assoc, List.singleton_append, readValue?,
    skipBlanks_cons (by decide)]
  simp [readString?_quoted s (Nat.le_of_succ_le_succ hfuel)]

/-- What stands between two brackets is read back with the closing one, by a reader that after each
item goes on at a comma and stops at the bracket. By induction on the items; those that were read
before stand in `acc`. -/
theorem read_closed {α : Type} {read : Nat → List α → List Char → Option (List α × List Char)}
    {itemText : α → List Char} {bracket : Char} {items : List α} (hne : items ≠ [])
    (hcomma : ∀ v ∈ items, ∀ fuel acc rest, (itemText v).length ≤ fuel →
      read (fuel + 1) acc (itemText v ++ ',' :: rest) = read fuel (v :: acc) rest)
    (hbracket : ∀ v ∈ items, ∀ fuel acc rest, (itemText v).length ≤ fuel →
      read (fuel + 1) acc (itemText v ++ bracket :: rest) = some ((v :: acc).reverse, rest))
    {fuel : Nat} (hfuel : (closed bracket (items.map itemText)).length ≤ fuel) (acc : List α)
    (rest : List Char) :
    read fuel acc (closed bracket (items.map itemText) ++ rest) =
      some (acc.reverse ++ items, rest) := by
  induction items generalizing fuel acc with
  | nil => exact absurd rfl hne
  | cons v items ih =>
    obtain ⟨hv, hitems⟩ := List.forall_mem_cons.1 hcomma
    obtain ⟨hv', hitems'⟩ := List.forall_mem_cons.1 hbracket
    cases items with
    | nil =>
      rw [List.map_singleton, closed_singleton] at hfuel ⊢
      rw [List.length_append, List.length_singleton] at hfuel
      obtain ⟨fuel, rfl⟩ := Nat.exists_eq_add_one.2 (Nat.zero_lt_of_lt hfuel)
      rw [List.append_assoc, List.singleton_append, hv' fuel acc rest (by omega),
        List.reverse_cons]
    | cons w items =>
      rw [List.map_cons, List.map_cons, closed_cons_cons, ← List.map_cons] at hfuel ⊢
      rw [List.length_append, List.length_cons] at hfuel
      obtain ⟨fuel, rfl⟩ := Nat.exists_eq_add_one.2 (Nat.zero_lt_of_lt hfuel)
      rw [List.append_assoc, List.cons_append, hv fuel acc _ (by omega),
        ih (List.cons_ne_nil w items) hitems hitems' (by omega), List.reverse_cons,
        List.append_assoc, List.singleton_append]

/-- One item of an array is read, and what follows it decides how to go on. -/
theorem readItems?_text {v : Json} (hv : ReadsBack v) {fuel : Nat} (hfuel : (text v).length ≤ fuel)
    (acc : List Json) {rest : List Char} : Delimited rest →
    readItems? (fuel + 1) acc (text v ++ rest) =
      match rest with
      | ',' :: rest => readItems? fuel (v :: acc) rest
      | ']' :: rest => some ((v :: acc).reverse, rest)
      | _ => none := by
  intro hrest
  rw [readItems?, hv _ _ hfuel hrest, Option.bind_eq_bind, Option.bind_some]
  dsimp only
  rw [skipBlanks_delimited hrest]
  rfl

theorem readItems?_closed {items : List Json} (hne : items ≠ []) (h : ∀ v ∈ items, ReadsBack v)
    {fuel : Nat} (hfuel : (closed ']' (items.map text)).length ≤ fuel) (acc : List Json)
    (rest : List Char) :
    readItems? fuel acc (closed ']' (items.map text) ++ rest) =
      some (acc.reverse ++ items, rest) :=
  read_closed hne
    (fun v hv _ acc rest hlength ↦
      readItems?_text (h v hv) hlength acc (delimited_cons (.inl rfl) rest))
    (fun v hv _ acc rest hlength ↦
      readItems?_text (h v hv) hlength acc (delimited_cons (.inr (.inl rfl)) rest))
    hfuel acc rest

theorem readsBack_arr {items : List Json} (hwhole : ∀ v ∈ items, Whole v)
    (h : ∀ v ∈ items, ReadsBack v) : ReadsBack (arr items) := by
  intro fuel rest hfuel _
  rw [text_arr, List.length_cons] at hfuel
  obtain ⟨fuel, rfl⟩ := Nat.exists_eq_add_one.2 (Nat.zero_lt_of_lt hfuel)
  rw [text_arr, List.cons_append, readValue?, skipBlanks_cons (by decide)]
  cases items with
  | nil => rfl
  | cons v items =>
    have hread := readItems?_closed (List.cons_ne_nil v items) h (Nat.le_of_succ_le_succ hfuel) []
      rest
    obtain ⟨c, cs, hcs, hc⟩ := (hwhole v (List.mem_cons_self ..)).exists_closed_eq_cons ']'
      (items.map text)
    rw [List.map_cons, hcs, List.cons_append] at hread ⊢
    simp only [skipBlanks_cons hc]
    split
    next heq => exact absurd (List.cons.inj heq).1 hc.ne_bracket
    next => simp [hread]

/-- One field of an object is read, and what follows it decides how to go on. -/
theorem readFields?_fieldText {f : String × Json} (hv : ReadsBack f.2) {fuel : Nat}
    (hfuel : (fieldText f).length ≤ fuel) (acc : List (String × Json)) {rest : List Char} :
    Delimited rest →
    readFields? (fuel + 1) acc (fieldText f ++ rest) =
      match rest with
      | ',' :: rest => readFields? fuel (f :: acc) rest
      | '\x7d' :: rest => some ((f :: acc).reverse, rest)
      | _ => none := by
  intro hrest
  have htext : fieldText f ++ rest =
      '"' :: (f.1.toList.flatMap escapeChar ++ '"' :: ':' :: (text f.2 ++ rest)) := by
    simp [fieldText, toList_quote]
  have hlength : (fieldText f).length =
      (f.1.toList.flatMap escapeChar).length + (text f.2).length + 3 := by
    simp only [fieldText, toList_quote, List.length_append, List.length_cons, List.length_nil]
    omega
  rw [htext, readFields?, skipBlanks_cons (by decide)]
  have hname : (f.1.toList.flatMap escapeChar).length + 1 ≤ fuel := by omega
  simp only [readString?_quoted f.1 hname, Option.bind_eq_bind, Option.bind_some]
  rw [skipBlanks_cons (by decide)]
  simp only [hv fuel rest (by omega) hrest, Option.bind_some]
  rw [skipBlanks_delimited hrest]
  rfl

theorem readFields?_closed {fields : List (String × Json)} (hne : fields ≠ [])
    (h : ∀ f ∈ fields, ReadsBack f.2) {fuel : Nat}
    (hfuel : (closed '\x7d' (fields.map fieldText)).length ≤ fuel) (acc : List (String × Json))
    (rest : List Char) :
    readFields? fuel acc (closed '\x7d' (fields.map fieldText) ++ rest) =
      some (acc.reverse ++ fields, rest) :=
  read_closed hne
    (fun f hf _ acc rest hlength ↦
      readFields?_fieldText (h f hf) hlength acc (delimited_cons (.inl rfl) rest))
    (fun f hf _ acc rest hlength ↦
      readFields?_fieldText (h f hf) hlength acc (delimited_cons (.inr (.inr rfl)) rest))
    hfuel acc rest

theorem readsBack_obj {fields : List (String × Json)} (h : ∀ f ∈ fields, ReadsBack f.2) :
    ReadsBack (obj fields) := by
  intro fuel rest hfuel _
  rw [text_obj, List.length_cons] at hfuel
  obtain ⟨fuel, rfl⟩ := Nat.exists_eq_add_one.2 (Nat.zero_lt_of_lt hfuel)
  rw [text_obj, List.cons_append, readValue?, skipBlanks_cons (by decide)]
  cases fields with
  | nil => rfl
  | cons f fields =>
    have hread := readFields?_closed (List.cons_ne_nil f fields) h (Nat.le_of_succ_le_succ hfuel) []
      rest
    obtain ⟨cs, hcs⟩ := exists_closed_fieldText_eq_cons '\x7d' f (fields.map fieldText)
    rw [List.map_cons, hcs, List.cons_append] at hread ⊢
    simp only [skipBlanks_cons (show Opening '"' by decide)]
    simp [hread]

theorem readsBack_of_literal {v : Json} (hpos : 0 < (text v).length)
    (h : ∀ fuel rest, readValue? (fuel + 1) (text v ++ rest) = some (v, rest)) : ReadsBack v := by
  intro fuel rest hfuel _
  obtain ⟨fuel, rfl⟩ := Nat.exists_eq_add_one.2 (Nat.lt_of_lt_of_le hpos hfuel)
  exact h fuel rest

/-- By induction on the value; arrays and objects are read item by item. -/
theorem Whole.readsBack {v : Json} (h : Whole v) : ReadsBack v := by
  induction h with
  | null => exact readsBack_of_literal (by decide) fun _ _ ↦ rfl
  | bool b =>
    cases b with
    | true => exact readsBack_of_literal (by decide) fun _ _ ↦ rfl
    | false => exact readsBack_of_literal (by decide) fun _ _ ↦ rfl
  | int i => exact readsBack_int i
  | str s => exact readsBack_str s
  | arr hitems ih => exact readsBack_arr hitems ih
  | obj _ ih => exact readsBack_obj ih

/-- **Written values are read back.** -/
theorem Whole.parse?_compact {v : Json} (h : Whole v) : parse? (compact v) = some v := by
  have hdelimited : Delimited [] := nofun
  have hread := h.readsBack (2 * (text v).length + 2) [] (by omega) hdelimited
  rw [List.append_nil, text] at hread
  simp only [parse?, hread, Option.bind_eq_bind, Option.bind_some]
  rfl

/-- **The compact text determines the value.** -/
theorem Whole.compact_inj {v w : Json} (hv : Whole v) (hw : Whole w) :
    compact v = compact w ↔ v = w := by
  constructor
  · intro h
    have hread := hv.parse?_compact
    rw [h, hw.parse?_compact] at hread
    exact (Option.some.inj hread).symm
  · exact congrArg compact

end Json

end Dataflow
