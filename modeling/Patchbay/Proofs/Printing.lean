import Mathlib.Data.List.DropRight
import Patchbay.Json.Decode
import Patchbay.Proofs.Numeral

/-!
# Documents that are written read back

A tree without parts that have no value, with whole numbers of 64 bits and nested no deeper than a reader
goes, is read out of its own text as it was, except that a double that is not finite reads back as `null`.
So a decoder meets the tree that was written, with these exceptions.
-/

namespace Patchbay.Json

section Quoted

theorem hexUnit?_hexDigit :
    ∀ n < 0x20, hexUnit? '0' '0' (hexDigit (n / 16)) (hexDigit (n % 16)) = some n := by
  decide

/-- A unit that is not half a surrogate pair is a character, whatever follows. -/
theorem joinPieces_unit {n : Nat} (h : n < 0x20) (pieces : List Piece) :
    joinPieces (.unit n :: pieces) = (joinPieces pieces).map (Char.ofNat n :: ·) := by
  have hhigh : isHighSurrogate n = false := by
    simp only [isHighSurrogate, Bool.and_eq_false_imp, decide_eq_true_eq]
    omega
  have hlow : isLowSurrogate n = false := by
    simp only [isLowSurrogate, Bool.and_eq_false_imp, decide_eq_true_eq]
    omega
  cases pieces with
  | nil => simp [joinPieces, hhigh, hlow]
  | cons piece rest => cases piece <;> simp [joinPieces, hhigh, hlow]

/-- A character is scanned out of its escape as one piece that makes the character. -/
theorem scanText_escapedChar (c : Char) (rest : List Char) :
    ∃ piece, (∀ pieces, joinPieces (piece :: pieces) = (joinPieces pieces).map (c :: ·)) ∧
      scanText (escapedChar c ++ rest) =
        (scanText rest).map fun (pieces, rest) => (piece :: pieces, rest) := by
  have hshort (e : Char) (he : shortEscape? e = some c) (hu : e ≠ 'u') :
      scanText ('\\' :: e :: rest) =
        (scanText rest).map fun (pieces, rest) => (.char c :: pieces, rest) := by
    rw [scanText, he]
    · cases scanText rest <;> rfl
    · exact fun _ _ _ _ _ h => absurd h hu
  simp only [escapedChar]
  split_ifs with hself hback htab hnew hfeed hreturn hcontrol
  · refine ⟨.char c, fun _ => rfl, hshort c ?_ ?_⟩ <;> rcases hself with rfl | rfl <;> decide
  · exact ⟨.char c, fun _ => rfl, hshort 'b' (hback ▸ rfl) (by decide)⟩
  · exact ⟨.char c, fun _ => rfl, hshort 't' (htab ▸ rfl) (by decide)⟩
  · exact ⟨.char c, fun _ => rfl, hshort 'n' (hnew ▸ rfl) (by decide)⟩
  · exact ⟨.char c, fun _ => rfl, hshort 'f' (hfeed ▸ rfl) (by decide)⟩
  · exact ⟨.char c, fun _ => rfl, hshort 'r' (hreturn ▸ rfl) (by decide)⟩
  · refine ⟨.unit c.toNat, fun pieces => ?_, ?_⟩
    · rw [joinPieces_unit hcontrol, Char.ofNat_toNat]
    · simp only [List.cons_append, List.nil_append, scanText, hexUnit?_hexDigit c.toNat hcontrol]
      cases scanText rest <;> rfl
  · refine ⟨.char c, fun _ => rfl, ?_⟩
    rw [not_or] at hself
    simp only [List.cons_append, List.nil_append]
    rw [scanText]
    · simp only [hcontrol, hself.2, or_self, if_false]
    · exact hself.1
    · exact fun _ _ _ _ _ h => absurd h hself.2
    · exact fun _ _ h => absurd h hself.2

theorem scanText_escaped (cs rest : List Char) :
    ∃ pieces, scanText (cs.flatMap escapedChar ++ '"' :: rest) = some (pieces, rest) ∧
      joinPieces pieces = some cs := by
  induction cs with
  | nil => exact ⟨[], rfl, rfl⟩
  | cons c cs ih =>
    obtain ⟨pieces, hscan, hjoin⟩ := ih
    obtain ⟨piece, hpiece, hc⟩ := scanText_escapedChar c (cs.flatMap escapedChar ++ '"' :: rest)
    refine ⟨piece :: pieces, ?_, ?_⟩
    · rw [List.flatMap_cons, List.append_assoc, hc, hscan]
      rfl
    · rw [hpiece, hjoin]
      rfl

end Quoted

mutual

/-- A tree as it is found again once it was written. -/
def written : Json → Json
  | double d => if d.isFinite then double d else null
  | array items => array (writtenItems items)
  | object fields => object (writtenFields fields)
  | j => j

def writtenItems : List Json → List Json
  | [] => []
  | j :: rest => j.written :: writtenItems rest

def writtenFields : List (String × Json) → List (String × Json)
  | [] => []
  | (key, j) :: rest => (key, j.written) :: writtenFields rest

end

theorem writtenItems_eq (items : List Json) : writtenItems items = items.map written := by
  induction items with
  | nil => rfl
  | cons j rest ih => rw [writtenItems, ih, List.map_cons]

theorem writtenFields_eq (fields : List (String × Json)) :
    writtenFields fields = fields.map fun (key, j) => (key, j.written) := by
  induction fields with
  | nil => rfl
  | cons f rest ih =>
    obtain ⟨key, j⟩ := f
    rw [writtenFields, ih, List.map_cons]

@[simp] theorem written_array (items : List Json) :
    (array items).written = array (items.map written) := by
  rw [written, writtenItems_eq]

@[simp] theorem written_object (fields : List (String × Json)) :
    (object fields).written = object (fields.map fun (key, j) => (key, j.written)) := by
  rw [written, writtenFields_eq]

@[simp] theorem written_text (s : String) : (text s).written = text s := rfl

@[simp] theorem written_int (n : Int) : (int n).written = int n := rfl

theorem written_double (d : Double) : (double d).written = if d.isFinite then double d else null := rfl

/-- What can be written so that a reader that goes `depth` deep can take it up. -/
inductive Plain : Nat → Json → Prop
  | null (depth : Nat) : Plain depth null
  | bool (depth : Nat) (b : Bool) : Plain depth (bool b)
  | int (depth : Nat) {n : Int} (low : -(2 ^ 63) ≤ n) (high : n < 2 ^ 64) : Plain depth (int n)
  | double (depth : Nat) (d : Double) : Plain depth (double d)
  | text (depth : Nat) (s : String) : Plain depth (text s)
  | array {depth : Nat} {items : List Json} (plain : ∀ j ∈ items, Plain depth j) :
    Plain (depth + 1) (array items)
  | object {depth : Nat} {fields : List (String × Json)} (plain : ∀ f ∈ fields, Plain depth f.2) :
    Plain (depth + 1) (object fields)

section Printed
variable (level : Nat)

@[simp] theorem prettyText_null : null.prettyText level = ['n', 'u', 'l', 'l'] := rfl

@[simp] theorem prettyText_int (n : Int) : (int n).prettyText level = (toString n).toList := rfl

@[simp] theorem prettyText_double (d : Double) : (double d).prettyText level = doubleText d := rfl

@[simp] theorem prettyText_text (s : String) : (text s).prettyText level = quotedText s := rfl

@[simp] theorem prettyText_array_nil : (array []).prettyText level = ['[', ']'] := rfl

@[simp] theorem prettyText_array_cons (j : Json) (items : List Json) :
    (array (j :: items)).prettyText level =
      '[' :: (prettyItems (level + 1) (j :: items) ++ newline level ++ [']']) := rfl

@[simp] theorem prettyText_object_nil : (object []).prettyText level = ['\x7b', '\x7d'] := rfl

@[simp] theorem prettyText_object_cons (f : String × Json) (fields : List (String × Json)) :
    (object (f :: fields)).prettyText level =
      '\x7b' :: (prettyFields (level + 1) (f :: fields) ++ newline level ++ ['\x7d']) := rfl

@[simp] theorem prettyItems_singleton (j : Json) :
    prettyItems level [j] = newline level ++ j.prettyText level := rfl

@[simp] theorem prettyItems_cons_cons (j k : Json) (rest : List Json) :
    prettyItems level (j :: k :: rest) =
      newline level ++ j.prettyText level ++ ',' :: prettyItems level (k :: rest) := rfl

@[simp] theorem prettyFields_singleton (key : String) (j : Json) :
    prettyFields level [(key, j)] =
      newline level ++ quotedText key ++ ':' :: ' ' :: j.prettyText level := rfl

@[simp] theorem prettyFields_cons_cons (key : String) (j : Json) (f : String × Json)
    (rest : List (String × Json)) :
    prettyFields level ((key, j) :: f :: rest) =
      newline level ++ quotedText key ++ ':' :: ' ' :: (j.prettyText level ++
        ',' :: prettyFields level (f :: rest)) := rfl

end Printed

section Blanks
variable {cs rest : List Char}

theorem skipBlanks_of_head (h : ∀ c ∈ cs.head?, isBlank c = false) : skipBlanks cs = cs := by
  cases cs with
  | nil => rfl
  | cons c cs => exact List.dropWhile_cons_of_neg (by rw [h c rfl]; decide)

theorem length_newline (level : Nat) : (newline level).length = 2 * level + 1 := by
  rw [newline, List.length_cons, List.length_replicate]

theorem skipBlanks_newline (level : Nat) (cs : List Char) :
    skipBlanks (newline level ++ cs) = skipBlanks cs := by
  refine List.dropWhile_append_of_pos fun c hc => ?_
  rcases List.mem_cons.mp hc with rfl | hc
  · rfl
  · rw [List.eq_of_mem_replicate hc]
    rfl

theorem skipBlanks_comma (cs : List Char) : skipBlanks (',' :: cs) = ',' :: cs := rfl

theorem skipBlanks_colon (cs : List Char) : skipBlanks (':' :: cs) = ':' :: cs := rfl

theorem skipBlanks_skipBlanks (cs : List Char) : skipBlanks (skipBlanks cs) = skipBlanks cs :=
  List.dropWhile_idempotent _ _

theorem stops_newline (level : Nat) (cs : List Char) : Stops (newline level ++ cs) := by
  rintro _ ⟨⟩
  decide

theorem stops_comma (cs : List Char) : Stops (',' :: cs) := by
  rintro _ ⟨⟩
  decide

theorem stops_nil : Stops [] := by
  rintro _ ⟨⟩

end Blanks

section Reader
variable {fuel depth : Nat} {cs rest : List Char}

theorem readValue_quote :
    readValue (fuel + 1) depth ('"' :: cs) =
      match scanText cs with
      | none => (broken, none)
      | some (pieces, rest) =>
        match joinPieces pieces with
        | some cs => (text (String.ofList cs), some rest)
        | none => (unreadable, some rest) := rfl

theorem readValue_bracket :
    readValue (fuel + 1) depth ('[' :: cs) =
      match skipBlanks cs with
      | ']' :: rest => (contain depth (some rest) (array []), some rest)
      | rest =>
        (contain depth (readItems fuel (depth - 1) rest).2 (array (readItems fuel (depth - 1) rest).1),
          (readItems fuel (depth - 1) rest).2) := rfl

theorem readValue_brace :
    readValue (fuel + 1) depth ('\x7b' :: cs) =
      match skipBlanks cs with
      | '\x7d' :: rest => (contain depth (some rest) (object []), some rest)
      | rest =>
        (contain depth (readFields fuel (depth - 1) rest).2 (object (readFields fuel (depth - 1) rest).1),
          (readFields fuel (depth - 1) rest).2) := rfl

theorem readValue_skipBlanks (fuel depth : Nat) (cs : List Char) :
    readValue fuel depth (skipBlanks cs) = readValue fuel depth cs := by
  cases fuel with
  | zero => rfl
  | succ fuel => simp only [readValue, skipBlanks_skipBlanks]

theorem readItems_skipBlanks (fuel depth : Nat) (cs : List Char) :
    readItems fuel depth (skipBlanks cs) = readItems fuel depth cs := by
  cases fuel with
  | zero => rfl
  | succ fuel => simp only [readItems, readValue_skipBlanks]

theorem readFields_skipBlanks (fuel depth : Nat) (cs : List Char) :
    readFields fuel depth (skipBlanks cs) = readFields fuel depth cs := by
  cases fuel with
  | zero => rfl
  | succ fuel => simp only [readFields, readKey, skipBlanks_skipBlanks]

theorem readValue_newline (level : Nat) :
    readValue fuel depth (newline level ++ cs) = readValue fuel depth cs := by
  rw [← readValue_skipBlanks, skipBlanks_newline, readValue_skipBlanks]

theorem readValue_blank : readValue fuel depth (' ' :: cs) = readValue fuel depth cs := by
  have hskip : skipBlanks (' ' :: cs) = skipBlanks cs := rfl
  rw [← readValue_skipBlanks, hskip, readValue_skipBlanks]

theorem readValue_array (hcs : (skipBlanks cs).head? ≠ some ']') :
    readValue (fuel + 1) depth ('[' :: cs) =
      (contain depth (readItems fuel (depth - 1) cs).2 (array (readItems fuel (depth - 1) cs).1),
        (readItems fuel (depth - 1) cs).2) := by
  rw [readValue_bracket]
  split
  · rename_i heq
    rw [heq] at hcs
    exact absurd rfl hcs
  · rw [readItems_skipBlanks]

theorem readValue_object (hcs : (skipBlanks cs).head? ≠ some '\x7d') :
    readValue (fuel + 1) depth ('\x7b' :: cs) =
      (contain depth (readFields fuel (depth - 1) cs).2 (object (readFields fuel (depth - 1) cs).1),
        (readFields fuel (depth - 1) cs).2) := by
  rw [readValue_brace]
  split
  · rename_i heq
    rw [heq] at hcs
    exact absurd rfl hcs
  · rw [readFields_skipBlanks]

theorem readValue_text (s : String) :
    readValue (fuel + 1) depth (quotedText s ++ rest) = (text s, some rest) := by
  obtain ⟨pieces, hscan, hjoin⟩ := scanText_escaped s.toList rest
  have hquoted : quotedText s ++ rest = '"' :: (s.toList.flatMap escapedChar ++ '"' :: rest) := by
    simp only [quotedText, List.cons_append, List.append_assoc, List.nil_append]
  rw [hquoted, readValue_quote, hscan]
  simp only [hjoin, String.ofList_toList]

theorem isBlank_of_numeral {c : Char} (h : c.isDigit = true ∨ c = '-') : isBlank c = false := by
  cases hblank : isBlank c with
  | false => rfl
  | true =>
    simp only [isBlank, Bool.or_eq_true, beq_iff_eq] at hblank
    rcases hblank with ((rfl | rfl) | rfl) | rfl <;> exact absurd h (by decide)

theorem readValue_numeral {n : Numeral} (hcs : ∀ c ∈ cs.head?, c.isDigit = true ∨ c = '-')
    (hscan : scanNumeral cs = some (n, rest)) :
    readValue (fuel + 1) depth cs = (n.value, some rest) := by
  rw [readValue, skipBlanks_of_head fun c hc => isBlank_of_numeral (hcs c hc)]
  split
  · exact absurd (hcs '"' rfl) (by decide)
  · exact absurd (hcs '[' rfl) (by decide)
  · exact absurd (hcs '\x7b' rfl) (by decide)
  · exact absurd (hcs 'n' rfl) (by decide)
  · exact absurd (hcs 't' rfl) (by decide)
  · exact absurd (hcs 'f' rfl) (by decide)
  · rw [hscan]

theorem readKey_quotedText (key : String) (level : Nat) :
    readKey (newline level ++ (quotedText key ++ ':' :: rest)) = some (some key, rest) := by
  obtain ⟨pieces, hscan, hjoin⟩ := scanText_escaped key.toList (':' :: rest)
  have hquoted : quotedText key ++ ':' :: rest =
      '"' :: (key.toList.flatMap escapedChar ++ '"' :: ':' :: rest) := by
    simp only [quotedText, List.cons_append, List.append_assoc, List.nil_append]
  rw [readKey, skipBlanks_newline, hquoted, skipBlanks_of_head (by rintro _ ⟨⟩; decide)]
  simp only [hscan, skipBlanks_colon, hjoin, Option.map_some, String.ofList_toList]

/-- A tree is found again in its own text, at whatever level of indentation, by a reader that has as much
fuel as the text has characters. -/
def ReadsBack (depth : Nat) (j : Json) : Prop :=
  ∀ level fuel rest, (j.prettyText level).length ≤ fuel → Stops rest →
    readValue fuel depth (j.prettyText level ++ rest) = (j.written, some rest)

theorem readItems_prettyItems {level : Nat} {items : List Json} (hne : items ≠ [])
    (hitems : ∀ j ∈ items, ReadsBack depth j) {fuel : Nat}
    (hfuel : (prettyItems level items).length ≤ fuel) (below : Nat) (rest : List Char) :
    readItems fuel depth (prettyItems level items ++ (newline below ++ ']' :: rest)) =
      (items.map written, some rest) := by
  induction items generalizing fuel with
  | nil => exact absurd rfl hne
  | cons j others ih =>
    obtain ⟨hj, hothers⟩ := List.forall_mem_cons.mp hitems
    -- the last item is followed by the bracket, each other one by a comma
    cases others with
    | nil =>
      simp only [prettyItems_singleton, List.length_append, length_newline] at hfuel
      obtain ⟨fuel, rfl⟩ := Nat.exists_eq_add_one_of_ne_zero (show fuel ≠ 0 by omega)
      simp only [prettyItems_singleton, List.append_assoc, readItems, readValue_newline]
      rw [hj level fuel _ (by omega) (stops_newline below _)]
      simp only [skipBlanks_newline]
      rfl
    | cons k others =>
      simp only [prettyItems_cons_cons, List.length_append, List.length_cons, length_newline] at hfuel
      obtain ⟨fuel, rfl⟩ := Nat.exists_eq_add_one_of_ne_zero (show fuel ≠ 0 by omega)
      have hsmaller : (prettyItems level (k :: others)).length ≤ fuel := by omega
      simp only [prettyItems_cons_cons, List.append_assoc, List.cons_append, readItems, readValue_newline]
      rw [hj level fuel _ (by omega) (stops_comma _)]
      simp only [skipBlanks_comma, ih (List.cons_ne_nil _ _) hothers hsmaller]
      rfl

theorem readFields_prettyFields {level : Nat} {fields : List (String × Json)} (hne : fields ≠ [])
    (hfields : ∀ f ∈ fields, ReadsBack depth f.2) {fuel : Nat}
    (hfuel : (prettyFields level fields).length ≤ fuel) (below : Nat) (rest : List Char) :
    readFields fuel depth (prettyFields level fields ++ (newline below ++ '\x7d' :: rest)) =
      (fields.map fun (key, j) => (key, j.written), some rest) := by
  induction fields generalizing fuel with
  | nil => exact absurd rfl hne
  | cons f others ih =>
    obtain ⟨key, j⟩ := f
    obtain ⟨(hj : ReadsBack depth j), hothers⟩ := List.forall_mem_cons.mp hfields
    cases others with
    | nil =>
      simp only [prettyFields_singleton, List.length_append, List.length_cons, length_newline] at hfuel
      obtain ⟨fuel, rfl⟩ := Nat.exists_eq_add_one_of_ne_zero (show fuel ≠ 0 by omega)
      simp only [prettyFields_singleton, List.append_assoc, List.cons_append, readFields, readKey_quotedText,
        readValue_blank]
      rw [hj level fuel _ (by omega) (stops_newline below _)]
      simp only [skipBlanks_newline]
      rfl
    | cons g others =>
      simp only [prettyFields_cons_cons, List.length_append, List.length_cons, length_newline] at hfuel
      obtain ⟨fuel, rfl⟩ := Nat.exists_eq_add_one_of_ne_zero (show fuel ≠ 0 by omega)
      have hsmaller : (prettyFields level (g :: others)).length ≤ fuel := by omega
      simp only [prettyFields_cons_cons, List.append_assoc, List.cons_append, readFields, readKey_quotedText,
        readValue_blank]
      rw [hj level fuel _ (by omega) (stops_comma _)]
      simp only [skipBlanks_comma, ih (List.cons_ne_nil _ _) hothers hsmaller]
      rfl

end Reader

section Plain
variable {depth : Nat} {j : Json}

theorem Numeral.Proper.exists_text {n : Numeral} (h : n.Proper) :
    ∃ c cs, n.text = c :: cs ∧ (c.isDigit = true ∨ c = '-') := by
  obtain ⟨c, cs, hcs⟩ := List.exists_cons_of_ne_nil h.nonempty
  have hc := h.digits c (hcs ▸ List.mem_cons_self)
  cases hnegative : n.negative with
  | true => exact ⟨'-', n.unsignedText, by simp only [text, hnegative, if_true], .inr rfl⟩
  | false =>
    refine ⟨c, cs ++ (fractionText n.fraction ++ exponentText n.exponent), ?_, .inl hc⟩
    simp only [text, hnegative, Bool.false_eq_true, if_false, unsignedText, hcs, List.cons_append]

theorem readValue_text_numeral {n : Numeral} (h : n.Proper) {fuel : Nat} (hfuel : n.text.length ≤ fuel)
    {rest : List Char} (hrest : Stops rest) :
    readValue fuel depth (n.text ++ rest) = (n.value, some rest) := by
  obtain ⟨c, cs, hcs, hc⟩ := h.exists_text
  obtain ⟨fuel, rfl⟩ : ∃ n, fuel = n + 1 := ⟨fuel - 1, by rw [hcs, List.length_cons] at hfuel; omega⟩
  have hhead : ∀ c ∈ (n.text ++ rest).head?, c.isDigit = true ∨ c = '-' := by
    rw [hcs]
    rintro _ ⟨⟩
    exact hc
  exact readValue_numeral hhead (h.scan hrest)

/-- The text of a plain tree starts with something that is neither blank nor the end of an array. -/
theorem Plain.exists_prettyText (h : Plain depth j) (level : Nat) :
    ∃ c cs, j.prettyText level = c :: cs ∧ isBlank c = false ∧ c ≠ ']' := by
  have hnumeral {n : Numeral} (hn : n.Proper) :
      ∃ c cs, n.text = c :: cs ∧ isBlank c = false ∧ c ≠ ']' := by
    obtain ⟨c, cs, hcs, hc⟩ := hn.exists_text
    refine ⟨c, cs, hcs, isBlank_of_numeral hc, ?_⟩
    rintro rfl
    exact absurd hc (by decide)
  cases h with
  | null => exact ⟨'n', _, rfl, rfl, by decide⟩
  | bool _ b => cases b <;> exact ⟨_, _, rfl, rfl, by decide⟩
  | int =>
    simp only [prettyText_int, ← Numeral.text_ofInt]
    exact hnumeral (Numeral.proper_ofInt _)
  | double _ d =>
    simp only [prettyText_double]
    cases hd : d.isFinite with
    | true =>
      obtain ⟨n, hn, htext, -⟩ := Numeral.exists_of_double hd
      rw [← htext]
      exact hnumeral hn
    | false =>
      simp only [doubleText, hd, Bool.false_eq_true, if_false]
      exact ⟨'n', _, rfl, rfl, by decide⟩
  | text => exact ⟨'"', _, rfl, rfl, by decide⟩
  | @array _ items => cases items <;> exact ⟨'[', _, rfl, rfl, by decide⟩
  | @object _ fields => cases fields <;> exact ⟨'\x7b', _, rfl, rfl, by decide⟩

theorem exists_prettyItems (level : Nat) (j : Json) (others : List Json) :
    ∃ tail, prettyItems level (j :: others) = newline level ++ (j.prettyText level ++ tail) := by
  cases others with
  | nil => exact ⟨[], by rw [List.append_nil]; rfl⟩
  | cons k others => exact ⟨',' :: prettyItems level (k :: others), List.append_assoc ..⟩

theorem exists_prettyFields (level : Nat) (f : String × Json) (others : List (String × Json)) :
    ∃ tail, prettyFields level (f :: others) = newline level ++ '"' :: tail := by
  obtain ⟨key, j⟩ := f
  cases others with
  | nil => exact ⟨_, List.append_assoc ..⟩
  | cons g others => exact ⟨_, List.append_assoc ..⟩

theorem readsBack_array {items : List Json} (hplain : ∀ j ∈ items, Plain depth j)
    (hitems : ∀ j ∈ items, ReadsBack depth j) : ReadsBack (depth + 1) (array items) := by
  intro level fuel rest hfuel hrest
  cases items with
  | nil =>
    obtain ⟨fuel, rfl⟩ : ∃ n, fuel = n + 1 := ⟨fuel - 1, by simp at hfuel; omega⟩
    rfl
  | cons j others =>
    simp only [prettyText_array_cons, List.length_cons, List.length_append] at hfuel
    obtain ⟨fuel, rfl⟩ := Nat.exists_eq_add_one_of_ne_zero (show fuel ≠ 0 by omega)
    simp only [prettyText_array_cons, List.cons_append, List.append_assoc, List.nil_append]
    have hopen : (skipBlanks (prettyItems (level + 1) (j :: others) ++
        (newline level ++ ']' :: rest))).head? ≠ some ']' := by
      obtain ⟨tail, htail⟩ := exists_prettyItems (level + 1) j others
      obtain ⟨c, cs, hcs, hblank, hc⟩ := (hplain j List.mem_cons_self).exists_prettyText (level + 1)
      rw [htail, List.append_assoc, skipBlanks_newline, hcs, skipBlanks_of_head]
      · simpa using hc
      · rintro _ ⟨⟩
        exact hblank
    rw [readValue_array hopen, Nat.add_sub_cancel,
      readItems_prettyItems (List.cons_ne_nil _ _) hitems (by omega) level rest, written_array]
    rfl

theorem readsBack_object {fields : List (String × Json)}
    (hfields : ∀ f ∈ fields, ReadsBack depth f.2) : ReadsBack (depth + 1) (object fields) := by
  intro level fuel rest hfuel hrest
  cases fields with
  | nil =>
    obtain ⟨fuel, rfl⟩ : ∃ n, fuel = n + 1 := ⟨fuel - 1, by simp at hfuel; omega⟩
    rfl
  | cons f others =>
    simp only [prettyText_object_cons, List.length_cons, List.length_append] at hfuel
    obtain ⟨fuel, rfl⟩ := Nat.exists_eq_add_one_of_ne_zero (show fuel ≠ 0 by omega)
    simp only [prettyText_object_cons, List.cons_append, List.append_assoc, List.nil_append]
    have hopen : (skipBlanks (prettyFields (level + 1) (f :: others) ++
        (newline level ++ '\x7d' :: rest))).head? ≠ some '\x7d' := by
      obtain ⟨tail, htail⟩ := exists_prettyFields (level + 1) f others
      rw [htail, List.append_assoc, skipBlanks_newline]
      exact fun h => absurd (Option.some.inj h) (by decide)
    rw [readValue_object hopen, Nat.add_sub_cancel,
      readFields_prettyFields (List.cons_ne_nil _ _) hfields (by omega) level rest, written_object]
    rfl

theorem readsBack_null (depth : Nat) : ReadsBack depth null := by
  intro level fuel rest hfuel hrest
  obtain ⟨fuel, rfl⟩ : ∃ n, fuel = n + 1 := ⟨fuel - 1, by simp at hfuel; omega⟩
  rfl

theorem readsBack_bool (depth : Nat) (b : Bool) : ReadsBack depth (bool b) := by
  intro level fuel rest hfuel hrest
  have hpos : 0 < ((bool b).prettyText level).length := by cases b <;> exact Nat.succ_pos _
  obtain ⟨fuel, rfl⟩ := Nat.exists_eq_add_one_of_ne_zero (show fuel ≠ 0 by omega)
  cases b <;> rfl

theorem readsBack_int (depth : Nat) {n : Int} (hlow : -(2 ^ 63) ≤ n) (hhigh : n < 2 ^ 64) :
    ReadsBack depth (int n) := by
  intro level fuel rest hfuel hrest
  simp only [prettyText_int, ← Numeral.text_ofInt] at hfuel ⊢
  rw [readValue_text_numeral (Numeral.proper_ofInt n) hfuel hrest, Numeral.value_ofInt hlow hhigh,
    written_int]

theorem readsBack_double (depth : Nat) (d : Double) : ReadsBack depth (double d) := by
  intro level fuel rest hfuel hrest
  simp only [prettyText_double] at hfuel ⊢
  cases hd : d.isFinite with
  | true =>
    obtain ⟨n, hn, htext, hvalue⟩ := Numeral.exists_of_double hd
    rw [← htext] at hfuel ⊢
    rw [readValue_text_numeral hn hfuel hrest, hvalue, written_double, hd, if_pos rfl]
  | false =>
    have hnull : doubleText d = (null).prettyText level := by
      simp only [doubleText, hd, Bool.false_eq_true, if_false, prettyText_null]
    rw [hnull] at hfuel ⊢
    rw [readsBack_null depth level fuel rest hfuel hrest, written_double, hd]
    rfl

theorem readsBack_text (depth : Nat) (s : String) : ReadsBack depth (text s) := by
  intro level fuel rest hfuel hrest
  obtain ⟨fuel, rfl⟩ : ∃ n, fuel = n + 1 :=
    ⟨fuel - 1, by simp [quotedText] at hfuel; omega⟩
  exact readValue_text s

/-- A plain tree reads back, as the items and fields of a container do one level down. -/
theorem Plain.readsBack (h : Plain depth j) : ReadsBack depth j := by
  induction h with
  | null depth => exact readsBack_null depth
  | bool depth b => exact readsBack_bool depth b
  | int depth low high => exact readsBack_int depth low high
  | double depth d => exact readsBack_double depth d
  | text depth s => exact readsBack_text depth s
  | array plain ih => exact readsBack_array plain ih
  | object plain ih => exact readsBack_object ih

theorem every_array {p : Json → Bool} {items : List Json} :
    (array items).every p = true ↔ ∀ j ∈ items, j.every p = true := by
  rw [every]
  induction items with
  | nil => simp [everyItem]
  | cons j rest ih => rw [everyItem, Bool.and_eq_true, ih, List.forall_mem_cons]

theorem every_object {p : Json → Bool} {fields : List (String × Json)} :
    (object fields).every p = true ↔ ∀ f ∈ fields, f.2.every p = true := by
  rw [every]
  induction fields with
  | nil => simp [everyField]
  | cons f rest ih =>
    obtain ⟨key, j⟩ := f
    rw [everyField, Bool.and_eq_true, ih, List.forall_mem_cons]

theorem Plain.isReadable_written (h : Plain depth j) : j.written.isReadable = true := by
  induction h with
  | null depth => rfl
  | bool depth b => rfl
  | int depth low high => rfl
  | double depth d => cases hd : d.isFinite <;> rw [written_double, hd] <;> rfl
  | text depth s => rfl
  | array plain ih =>
    rw [written_array, isReadable, every_array, List.forall_mem_map]
    exact ih
  | object plain ih =>
    rw [written_object, isReadable, every_object, List.forall_mem_map]
    exact ih

theorem isMisnamed_of_isReadable (h : j.isReadable = true) : j.isMisnamed = false := by
  cases j with
  | misnamed => exact absurd h (by decide)
  | _ => rfl

/-- A decoder meets the tree that was written, and nothing after it. -/
theorem Plain.decode_pretty {α : Type} (h : Plain maxDepth j) (decoder : Decoder α) :
    decode decoder j.pretty = decoder j.written := by
  have hread : read j.pretty.toList = (j.written, some []) := by
    have hall := h.readsBack 0 (2 * (j.prettyText 0).length + 2) [] (by omega) stops_nil
    rw [List.append_nil] at hall
    simp only [read, pretty, String.toList_ofList, hall]
  simp only [decode, hread, Option.any_some, List.all_nil, if_true]
  cases decoder j.written <;> rfl

end Plain

end Patchbay.Json
