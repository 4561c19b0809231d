import PointsTo.Json
import PointsTo.Proofs.Decimal
import PointsTo.Yaml.Scalar

/-!
The texts that spell a JSON value, after RFC 8259. A value has many spellings, but a text
spells one value at most, and the text that is written for a value is one of its spellings.
Numbers are whole here, as in the values themselves.
-/

namespace PointsTo
namespace Json

open Yaml (radixValue?)

section Grammar

def isBlank (c : Char) : Bool :=
  [' ', '\t', '\n', '\r'].contains c

def shortEscapes : List (Char × Char) :=
  [('"', '"'), ('\\', '\\'), ('/', '/'), ('b', '\x08'), ('f', '\x0c'), ('n', '\n'), ('r', '\r'),
    ('t', '\t')]

def joinSurrogates (high low : Nat) : Nat :=
  0x10000 + (high - 0xD800) * 0x400 + (low - 0xDC00)

inductive SpellsChar : Char → List Char → Prop where
  | plain {ch : Char} : 0x20 ≤ ch.toNat → ch ≠ '"' → ch ≠ '\\' → SpellsChar ch [ch]
  | short {ch mark : Char} : (mark, ch) ∈ shortEscapes → SpellsChar ch ['\\', mark]
  | code {ch a b c d : Char} : radixValue? 16 [a, b, c, d] = some ch.toNat →
      SpellsChar ch ['\\', 'u', a, b, c, d]
  | pair {ch a b c d e f g h : Char} {high low : Nat} : radixValue? 16 [a, b, c, d] = some high →
      radixValue? 16 [e, f, g, h] = some low → 0xD800 ≤ high ∧ high < 0xDC00 →
      0xDC00 ≤ low ∧ low < 0xE000 → ch.toNat = joinSurrogates high low →
      SpellsChar ch ['\\', 'u', a, b, c, d, '\\', 'u', e, f, g, h]

inductive SpellsChars : List Char → List Char → Prop where
  | nil : SpellsChars [] []
  | cons {ch : Char} {s cs ds : List Char} : SpellsChar ch cs → SpellsChars s ds →
      SpellsChars (ch :: s) (cs ++ ds)

inductive SpellsString : String → List Char → Prop where
  | quoted {s : String} {cs : List Char} : SpellsChars s.toList cs →
      SpellsString s ('"' :: (cs ++ ['"']))

inductive SpellsNumber : Int → List Char → Prop where
  | natural (n : Nat) : SpellsNumber n (Decimal.digits n)
  | negative (n : Nat) : SpellsNumber (-n) ('-' :: Decimal.digits n)

/-- What a stretch of a text can spell: a value, or the insides of an array or object that
has any. -/
inductive Part where
  | value (j : Json)
  | items (js : List Json)
  | members (ms : List (String × Json))

def Blanks (cs : List Char) : Prop :=
  ∀ c ∈ cs, isBlank c = true

inductive Spells : Part → List Char → Prop where
  | null : Spells (.value .null) "null".toList
  | true : Spells (.value (.bool true)) "true".toList
  | false : Spells (.value (.bool false)) "false".toList
  | number {n : Int} {cs : List Char} : SpellsNumber n cs → Spells (.value (.number n)) cs
  | string {s : String} {cs : List Char} : SpellsString s cs → Spells (.value (.string s)) cs
  | emptyArray {a : List Char} : Blanks a → Spells (.value (.array [])) ('[' :: (a ++ [']']))
  | array {js : List Json} {cs : List Char} : Spells (.items js) cs →
      Spells (.value (.array js)) ('[' :: (cs ++ [']']))
  | emptyObject {a : List Char} : Blanks a →
      Spells (.value (.object [])) ('\x7b' :: (a ++ ['\x7d']))
  | object {ms : List (String × Json)} {cs : List Char} : Spells (.members ms) cs →
      Spells (.value (.object ms)) ('\x7b' :: (cs ++ ['\x7d']))
  | lastItem {j : Json} {a cs b : List Char} : Blanks a → Blanks b → Spells (.value j) cs →
      Spells (.items [j]) (a ++ (cs ++ b))
  | item {j : Json} {js : List Json} {a cs b ds : List Char} : Blanks a → Blanks b →
      Spells (.value j) cs → Spells (.items js) ds →
      Spells (.items (j :: js)) (a ++ (cs ++ (b ++ ',' :: ds)))
  | lastMember {name : String} {j : Json} {a cs b c ds d : List Char} : Blanks a → Blanks b →
      Blanks c → Blanks d → SpellsString name cs → Spells (.value j) ds →
      Spells (.members [(name, j)]) (a ++ (cs ++ (b ++ ':' :: (c ++ (ds ++ d)))))
  | member {name : String} {j : Json} {ms : List (String × Json)} {a cs b c ds d es : List Char} :
      Blanks a → Blanks b → Blanks c → Blanks d → SpellsString name cs → Spells (.value j) ds →
      Spells (.members ms) es →
      Spells (.members ((name, j) :: ms))
        (a ++ (cs ++ (b ++ ':' :: (c ++ (ds ++ (d ++ ',' :: es))))))

def Document (j : Json) (text : List Char) : Prop :=
  ∃ a cs b, Blanks a ∧ Spells (.value j) cs ∧ Blanks b ∧ text = a ++ (cs ++ b)

end Grammar

section Printer

variable {cs ds : List Char}

theorem spellsChar_charText (ch : Char) : SpellsChar ch (charText ch) := by
  unfold charText
  split
  · exact .short (by decide)
  · exact .short (by decide)
  · exact .short (by decide)
  · exact .short (by decide)
  · exact .short (by decide)
  · exact .short (by decide)
  · exact .short (by decide)
  · next hquote hslash _ _ _ _ _ =>
    split
    · next hlow =>
      refine .code ?_
      have hall : ∀ n < 0x20, radixValue? 16 ['0', '0', Nat.digitChar (n / 16), Nat.digitChar (n % 16)] =
          some n := by
        decide
      exact hall ch.toNat hlow
    · next hhigh => exact .plain (Nat.not_lt.1 hhigh) hquote hslash

theorem spellsChars_flatMap (s : List Char) : SpellsChars s (s.flatMap charText) := by
  induction s with
  | nil => exact .nil
  | cons ch s ih => exact .cons (spellsChar_charText ch) ih

theorem spellsString_stringText (s : String) : SpellsString s (stringText s) :=
  .quoted (spellsChars_flatMap s.toList)

theorem spellsNumber_signedText (n : Int) : SpellsNumber n (Decimal.signedText n).toList := by
  cases n with
  | ofNat n =>
      have htext : (Decimal.signedText (.ofNat n)).toList = Decimal.digits n := by
        rw [Decimal.signedText, if_neg (Int.not_lt.2 (show 0 ≤ Int.ofNat n from Int.natCast_nonneg n)),
          Decimal.text, String.toList_ofList]
        rfl
      rw [htext]
      exact .natural n
  | negSucc n =>
      have htext : (Decimal.signedText (.negSucc n)).toList = '-' :: Decimal.digits (n + 1) := by
        simp [Decimal.signedText, Decimal.text]
      rw [htext]
      exact .negative (n + 1)

theorem blanks_nil : Blanks [] :=
  fun _ h => absurd h List.not_mem_nil

theorem blanks_newLine (level : Nat) : Blanks (newLine level) := by
  intro c hc
  rcases List.mem_cons.1 hc with rfl | hc
  · decide
  · rw [List.eq_of_mem_replicate hc]
    decide

theorem blanks_space : Blanks [' '] :=
  List.forall_mem_singleton.2 (by decide)

mutual

theorem spells_textAt (level : Nat) : (j : Json) → Spells (.value j) (j.textAt level)
  | .null => by rw [textAt]; exact .null
  | .bool true => by rw [textAt]; exact .true
  | .bool false => by rw [textAt]; exact .false
  | .number n => by rw [textAt]; exact .number (spellsNumber_signedText n)
  | .string s => by rw [textAt]; exact .string (spellsString_stringText s)
  | .array [] => by rw [textAt]; exact .emptyArray blanks_nil
  | .array (item :: items) => by
    have hitems := spells_itemsText (level + 1) (blanks_newLine level) items
      (spells_textAt (level + 1) item)
    simpa [textAt] using Spells.array hitems
  | .object [] => by rw [textAt]; exact .emptyObject blanks_nil
  | .object ((name, value) :: members) => by
    have hmembers := spells_membersText (level + 1) (blanks_newLine level) members name
      (spells_textAt (level + 1) value)
    simpa [textAt] using Spells.object hmembers

theorem spells_itemsText (level : Nat) {b : List Char} (hb : Blanks b) :
    (items : List Json) → ∀ {item : Json} {cs : List Char}, Spells (.value item) cs →
      Spells (.items (item :: items)) (newLine level ++ (cs ++ (itemsText level items ++ b)))
  | [], _, _, h => by
    simpa [itemsText] using Spells.lastItem (blanks_newLine level) hb h
  | next :: items, _, _, h => by
    have hrest := spells_itemsText level hb items (spells_textAt level next)
    simpa [itemsText] using Spells.item (blanks_newLine level) blanks_nil h hrest

theorem spells_membersText (level : Nat) {b : List Char} (hb : Blanks b) :
    (members : List (String × Json)) → ∀ (name : String) {value : Json} {cs : List Char},
      Spells (.value value) cs →
      Spells (.members ((name, value) :: members))
        (newLine level ++ (stringText name ++ (':' :: ' ' :: (cs ++ (membersText level members ++ b)))))
  | [], name, _, _, h => by
    simpa [membersText] using Spells.lastMember (blanks_newLine level) blanks_nil blanks_space hb
      (spellsString_stringText name) h
  | (next, value) :: members, name, _, _, h => by
    have hrest := spells_membersText level hb members next (spells_textAt level value)
    simpa [membersText] using Spells.member (blanks_newLine level) blanks_nil blanks_space blanks_nil
      (spellsString_stringText name) h hrest

end

theorem document_text (j : Json) : Document j j.text.toList :=
  ⟨[], j.textAt 0, [], blanks_nil, spells_textAt 0 j, blanks_nil, by simp [text]⟩

end Printer

section Reader

def readUnit? : List Char → Option (Nat × List Char)
  | a :: b :: c :: d :: rest => (radixValue? 16 [a, b, c, d]).map (·, rest)
  | _ => none

/-- What stands behind a backslash and a `u`. A number that is no code point is the first of
two surrogates. -/
def readCode? (cs : List Char) : Option (Char × List Char) := do
  let (n, rest) ← readUnit? cs
  if n.isValidChar then some (Char.ofNat n, rest)
  else
    let (low, rest) ← readUnit? (rest.drop 2)
    some (Char.ofNat (joinSurrogates n low), rest)

def readChar? : List Char → Option (Char × List Char)
  | [] => none
  | c :: rest =>
    if c ≠ '\\' then some (c, rest)
    else match rest with
      | [] => none
      | mark :: rest =>
        if mark = 'u' then readCode? rest else (shortEscapes.lookup mark).map (·, rest)

def readChars? : Nat → List Char → Option (List Char × List Char)
  | 0, _ => none
  | fuel + 1, cs =>
    if cs.head? = some '"' then some ([], cs.tail)
    else do
      let (c, rest) ← readChar? cs
      let (s, rest) ← readChars? fuel rest
      some (c :: s, rest)

def readString? (cs : List Char) : Option (String × List Char) :=
  (readChars? cs.length cs.tail).map fun (s, rest) => (String.ofList s, rest)

def readNumber (cs : List Char) : Int × List Char :=
  if cs.head? = some '-' then
    (-(Decimal.value (cs.tail.takeWhile Char.isDigit) : Int), cs.tail.dropWhile Char.isDigit)
  else (Decimal.value (cs.takeWhile Char.isDigit), cs.dropWhile Char.isDigit)

def skipBlanks (cs : List Char) : List Char :=
  cs.dropWhile isBlank

def readName? (name : String) (j : Json) (cs : List Char) : Option (Json × List Char) :=
  if name.toList.isPrefixOf cs then some (j, cs.drop name.toList.length) else none

mutual

def readValue? : Nat → List Char → Option (Json × List Char)
  | 0, _ => none
  | fuel + 1, cs =>
    match cs with
    | [] => none
    | c :: rest =>
      if c = '"' then (readString? cs).map fun (s, rest) => (.string s, rest)
      else if c = '[' then
        if (skipBlanks rest).head? = some ']' then some (.array [], (skipBlanks rest).tail)
        else (readItems? fuel rest).map fun (js, rest) => (.array js, rest)
      else if c = '\x7b' then
        if (skipBlanks rest).head? = some '\x7d' then some (.object [], (skipBlanks rest).tail)
        else (readMembers? fuel rest).map fun (ms, rest) => (.object ms, rest)
      else if c = 'n' then readName? "null" .null cs
      else if c = 't' then readName? "true" (.bool true) cs
      else if c = 'f' then readName? "false" (.bool false) cs
      else some (.number (readNumber cs).1, (readNumber cs).2)

def readItems? : Nat → List Char → Option (List Json × List Char)
  | 0, _ => none
  | fuel + 1, cs => do
    let (j, rest) ← readValue? fuel (skipBlanks cs)
    let rest := skipBlanks rest
    if rest.head? = some ',' then
      let (js, rest) ← readItems? fuel rest.tail
      some (j :: js, rest)
    else some ([j], rest.tail)

def readMembers? : Nat → List Char → Option (List (String × Json) × List Char)
  | 0, _ => none
  | fuel + 1, cs => do
    let (name, rest) ← readString? (skipBlanks cs)
    let (j, rest) ← readValue? fuel (skipBlanks (skipBlanks rest).tail)
    let rest := skipBlanks rest
    if rest.head? = some ',' then
      let (ms, rest) ← readMembers? fuel rest.tail
      some ((name, j) :: ms, rest)
    else some ([(name, j)], rest.tail)

end

variable {ch : Char} {s : String} {n : Int} {cs rest : List Char}

theorem lookup_shortEscapes {mark : Char} (h : (mark, ch) ∈ shortEscapes) :
    mark ≠ 'u' ∧ shortEscapes.lookup mark = some ch := by
  have hall : shortEscapes.all fun (m, c) => m ≠ 'u' && shortEscapes.lookup m = some c := by decide
  simpa using List.all_eq_true.1 hall (mark, ch) h

theorem SpellsChar.read (h : SpellsChar ch cs) :
    (cs ++ rest).head? ≠ some '"' ∧ readChar? (cs ++ rest) = some (ch, rest) := by
  cases h with
  | plain hlow hquote hslash => simp [readChar?, hquote, hslash]
  | short hmark =>
      obtain ⟨hne, hlookup⟩ := lookup_shortEscapes hmark
      simp [readChar?, hne, hlookup]
  | code hvalue =>
      have hvalid : ch.toNat.isValidChar := ch.valid
      simp [readChar?, readCode?, readUnit?, hvalue, hvalid]
  | @pair a b c d e f g h high low hhigh hlow hh hl hch =>
      have hinvalid : ¬ high.isValidChar := by
        intro hvalid
        unfold Nat.isValidChar at hvalid
        omega
      have hjoined : Char.ofNat (joinSurrogates high low) = ch := by
        rw [← hch, Char.ofNat_toNat]
      simp [readChar?, readCode?, readUnit?, hhigh, hlow, hinvalid, hjoined]

theorem SpellsChar.length_pos (h : SpellsChar ch cs) : 0 < cs.length := by
  cases h <;> exact Nat.zero_lt_succ _

theorem SpellsChars.length_le {s : List Char} (h : SpellsChars s cs) : s.length ≤ cs.length := by
  induction h with
  | nil => exact Nat.le_refl 0
  | cons hch _ ih =>
      have hpos := hch.length_pos
      simp
      omega

theorem SpellsChars.read {s : List Char} {fuel : Nat} (h : SpellsChars s cs) (hfuel : s.length < fuel) :
    readChars? fuel (cs ++ '"' :: rest) = some (s, rest) := by
  induction h generalizing fuel with
  | nil =>
      obtain ⟨fuel, rfl⟩ := Nat.exists_eq_add_of_lt hfuel
      rfl
  | cons hch _ ih =>
      obtain ⟨fuel, rfl⟩ : ∃ n, fuel = n + 1 := ⟨fuel - 1, by omega⟩
      obtain ⟨hquote, hread⟩ := hch.read
      rw [readChars?, List.append_assoc, if_neg hquote, hread]
      simp [ih (Nat.lt_of_succ_lt_succ hfuel)]

theorem SpellsString.read (h : SpellsString s cs) : readString? (cs ++ rest) = some (s, rest) := by
  cases h with
  | quoted h =>
      have hle := h.length_le
      rw [readString?, List.cons_append, List.append_assoc, List.tail_cons, List.singleton_append,
        h.read (by simp; omega)]
      simp

theorem SpellsNumber.read (h : SpellsNumber n cs) (hrest : ∀ c ∈ rest.head?, c.isDigit = false) :
    readNumber (cs ++ rest) = (n, rest) := by
  have hdigits := fun k => Decimal.span_isDigit (Decimal.digits k) rest
    (fun _ => Decimal.isDigit_of_mem_digits) hrest
  cases h with
  | natural k =>
      have hsign : (Decimal.digits k ++ rest).head? ≠ some '-' := by
        obtain ⟨c, cs, hcs, hc⟩ := Decimal.exists_digits_eq_cons k
        rw [hcs, List.cons_append, List.head?_cons]
        rintro ⟨rfl⟩
        exact absurd hc (by decide)
      rw [readNumber, if_neg hsign, (hdigits k).1, (hdigits k).2, Decimal.value_digits]
  | negative k =>
      rw [readNumber, List.cons_append, List.head?_cons, if_pos rfl, List.tail_cons, (hdigits k).1,
        (hdigits k).2, Decimal.value_digits]

theorem skipBlanks_append {a : List Char} (ha : Blanks a)
    (hrest : ∀ c ∈ rest.head?, isBlank c = false) : skipBlanks (a ++ rest) = rest := by
  rw [skipBlanks, List.dropWhile_append_of_pos ha]
  cases rest with
  | nil => rfl
  | cons c rest => simp [hrest c rfl]

theorem skipBlanks_mark {a : List Char} {c : Char} (ha : Blanks a) (hc : isBlank c = false) :
    skipBlanks (a ++ c :: rest) = c :: rest :=
  skipBlanks_append ha fun d hd => by cases hd; exact hc

/-- A value starts with a character that no blank and no mark between values is. -/
def Opens (cs : List Char) : Prop :=
  ∃ c tail, cs = c :: tail ∧ (c.isDigit || ['"', '[', '\x7b', 'n', 't', 'f', '-'].contains c) = true

theorem Opens.head (h : Opens cs) : (∀ c ∈ (cs ++ rest).head?, isBlank c = false) ∧
    (cs ++ rest).head? ≠ some ']' ∧ (cs ++ rest).head? ≠ some '\x7d' := by
  obtain ⟨c, tail, rfl, hc⟩ := h
  have hne : c ∉ [' ', '\t', '\n', '\r', ']', '\x7d'] := by
    intro hmem
    have hall : [' ', '\t', '\n', '\r', ']', '\x7d'].all (fun c => !(c.isDigit ||
        ['"', '[', '\x7b', 'n', 't', 'f', '-'].contains c)) = true := by
      decide
    have hnot := List.all_eq_true.1 hall c hmem
    rw [hc] at hnot
    exact absurd hnot (by decide)
  simp at hne
  simp [isBlank, hne]

theorem SpellsString.head (h : SpellsString s cs) : ∃ tail, cs = '"' :: tail := by
  cases h
  exact ⟨_, rfl⟩

theorem SpellsString.opens (h : SpellsString s cs) : Opens cs := by
  obtain ⟨tail, rfl⟩ := h.head
  exact ⟨_, _, rfl, rfl⟩

theorem SpellsNumber.opens (h : SpellsNumber n cs) : Opens cs := by
  cases h with
  | natural k =>
      obtain ⟨c, tail, hcs, hc⟩ := Decimal.exists_digits_eq_cons k
      exact ⟨c, tail, hcs, by rw [hc]; rfl⟩
  | negative k => exact ⟨'-', _, rfl, rfl⟩

/-- The reader finds what a part of a text spells, and stops behind it. -/
def Found : Part → List Char → Prop
  | .value j, cs => Opens cs ∧ ∃ n, ∀ fuel, n ≤ fuel → ∀ rest,
      (∀ c ∈ rest.head?, c.isDigit = false) → readValue? fuel (cs ++ rest) = some (j, rest)
  | .items js, cs => (∀ rest, (skipBlanks (cs ++ rest)).head? ≠ some ']') ∧
      ∃ n, ∀ fuel, n ≤ fuel → ∀ rest, readItems? fuel (cs ++ ']' :: rest) = some (js, rest)
  | .members ms, cs => (∀ rest, (skipBlanks (cs ++ rest)).head? ≠ some '\x7d') ∧
      ∃ n, ∀ fuel, n ≤ fuel → ∀ rest, readMembers? fuel (cs ++ '\x7d' :: rest) = some (ms, rest)

theorem readName?_append (name : String) (j : Json) :
    readName? name j (name.toList ++ rest) = some (j, rest) := by
  simp [readName?]

theorem SpellsNumber.readValue? {fuel : Nat} (h : SpellsNumber n cs)
    (hrest : ∀ c ∈ rest.head?, c.isDigit = false) :
    Json.readValue? (fuel + 1) (cs ++ rest) = some (.number n, rest) := by
  have hread := h.read hrest
  obtain ⟨c, tail, rfl, hc⟩ : ∃ c tail, cs = c :: tail ∧ (c.isDigit || c = '-') = true := by
    cases h with
    | natural k =>
        obtain ⟨c, tail, hcs, hc⟩ := Decimal.exists_digits_eq_cons k
        exact ⟨c, tail, hcs, by rw [hc]; rfl⟩
    | negative k => exact ⟨'-', _, rfl, rfl⟩
  have hne : c ∉ ['"', '[', '\x7b', 'n', 't', 'f'] := by
    intro hmem
    have hall : ['"', '[', '\x7b', 'n', 't', 'f'].all (fun c => !(c.isDigit || c = '-')) = true := by
      decide
    have hnot := List.all_eq_true.1 hall c hmem
    rw [hc] at hnot
    exact absurd hnot (by decide)
  simp at hne hread
  simp [Json.readValue?, hne, hread]

theorem isDigit_head_blanks {a : List Char} (ha : Blanks a)
    (hrest : ∀ d ∈ rest.head?, d.isDigit = false) : ∀ d ∈ (a ++ rest).head?, d.isDigit = false := by
  intro d hd
  cases a with
  | nil => exact hrest d hd
  | cons b a =>
      cases hd
      have hblank : d ∈ [' ', '\t', '\n', '\r'] := by simpa [isBlank] using ha d List.mem_cons_self
      have hall : [' ', '\t', '\n', '\r'].all (fun c => !c.isDigit) = true := by decide
      simpa using List.all_eq_true.1 hall d hblank

/-- A name and its colon, with blanks around the name. -/
theorem SpellsString.between {a b : List Char} (h : SpellsString s cs) (ha : Blanks a)
    (hb : Blanks b) (rest : List Char) :
    readString? (skipBlanks (a ++ (cs ++ (b ++ ':' :: rest)))) = some (s, b ++ ':' :: rest) ∧
      (skipBlanks (b ++ ':' :: rest)).tail = rest := by
  rw [skipBlanks_append ha h.opens.head.1, skipBlanks_mark hb rfl]
  exact ⟨h.read, rfl⟩

/-- A value between blanks, with a mark behind it. -/
theorem Found.between {j : Json} {a b : List Char} (h : Found (.value j) cs) (ha : Blanks a)
    (hb : Blanks b) (mark : Char) (hmark : isBlank mark = false) (hdigit : mark.isDigit = false) :
    ∃ n, ∀ fuel, n ≤ fuel → ∀ rest,
      readValue? fuel (skipBlanks (a ++ (cs ++ (b ++ mark :: rest)))) =
        some (j, b ++ mark :: rest) ∧
      skipBlanks (b ++ mark :: rest) = mark :: rest := by
  obtain ⟨hopens, n, hread⟩ := h
  refine ⟨n, fun fuel hfuel rest => ⟨?_, skipBlanks_mark hb hmark⟩⟩
  rw [skipBlanks_append ha hopens.head.1]
  exact hread fuel hfuel _ (isDigit_head_blanks hb fun d hd => by cases hd; exact hdigit)

/-- A value that is read in one step. -/
theorem found_of_readValue? {j : Json} (hopens : Opens cs)
    (hread : ∀ fuel rest, (∀ c ∈ rest.head?, c.isDigit = false) →
      readValue? (fuel + 1) (cs ++ rest) = some (j, rest)) : Found (.value j) cs := by
  refine ⟨hopens, 1, fun fuel hfuel rest hrest => ?_⟩
  obtain ⟨fuel, rfl⟩ := Nat.exists_eq_add_of_le' hfuel
  exact hread fuel rest hrest

theorem SpellsString.readValue? {fuel : Nat} (h : SpellsString s cs) :
    Json.readValue? (fuel + 1) (cs ++ rest) = some (.string s, rest) := by
  have hread : readString? (cs ++ rest) = some (s, rest) := h.read
  obtain ⟨tail, rfl⟩ := h.head
  rw [List.cons_append] at hread ⊢
  simp [Json.readValue?, hread]

theorem Opens.behind_blanks {a : List Char} (h : Opens cs) (ha : Blanks a) :
    (skipBlanks (a ++ (cs ++ rest))).head? ≠ some ']' ∧
      (skipBlanks (a ++ (cs ++ rest))).head? ≠ some '\x7d' := by
  rw [skipBlanks_append ha h.head.1]
  exact h.head.2

section Found

variable {j : Json} {js : List Json} {ms : List (String × Json)} {name : String}
  {a b c d ds es : List Char}

theorem Found.array (h : Found (.items js) cs) :
    Found (.value (.array js)) ('[' :: (cs ++ [']'])) := by
  obtain ⟨hskip, n, hread⟩ := h
  refine ⟨⟨_, _, rfl, rfl⟩, n + 1, fun fuel hfuel rest _ => ?_⟩
  obtain ⟨fuel, rfl⟩ : ∃ k, fuel = k + 1 := ⟨fuel - 1, by omega⟩
  simp [readValue?, hskip, hread fuel (by omega)]

theorem Found.object (h : Found (.members ms) cs) :
    Found (.value (.object ms)) ('\x7b' :: (cs ++ ['\x7d'])) := by
  obtain ⟨hskip, n, hread⟩ := h
  refine ⟨⟨_, _, rfl, rfl⟩, n + 1, fun fuel hfuel rest _ => ?_⟩
  obtain ⟨fuel, rfl⟩ : ∃ k, fuel = k + 1 := ⟨fuel - 1, by omega⟩
  simp [readValue?, hskip, hread fuel (by omega)]

theorem Found.lastItem (h : Found (.value j) cs) (ha : Blanks a) (hb : Blanks b) :
    Found (.items [j]) (a ++ (cs ++ b)) := by
  obtain ⟨n, hread⟩ := h.between ha hb ']' rfl rfl
  refine ⟨fun rest => ?_, n + 1, fun fuel hfuel rest => ?_⟩
  · rw [List.append_assoc, List.append_assoc]
    exact (h.1.behind_blanks ha).1
  · obtain ⟨fuel, rfl⟩ : ∃ k, fuel = k + 1 := ⟨fuel - 1, by omega⟩
    obtain ⟨hvalue, hskip⟩ := hread fuel (by omega) rest
    simp [readItems?, hvalue, hskip]

theorem Found.item (h : Found (.value j) cs) (hs : Found (.items js) ds) (ha : Blanks a)
    (hb : Blanks b) : Found (.items (j :: js)) (a ++ (cs ++ (b ++ ',' :: ds))) := by
  obtain ⟨n, hread⟩ := h.between ha hb ',' rfl rfl
  obtain ⟨-, m, hreads⟩ := hs
  refine ⟨fun rest => ?_, max n m + 1, fun fuel hfuel rest => ?_⟩
  · rw [List.append_assoc, List.append_assoc]
    exact (h.1.behind_blanks ha).1
  · obtain ⟨fuel, rfl⟩ : ∃ k, fuel = k + 1 := ⟨fuel - 1, by omega⟩
    obtain ⟨hvalue, hskip⟩ := hread fuel (by omega) (ds ++ ']' :: rest)
    simp [readItems?, hvalue, hskip, hreads fuel (by omega)]

theorem Found.lastMember (h : Found (.value j) ds) (hname : SpellsString name cs) (ha : Blanks a)
    (hb : Blanks b) (hc : Blanks c) (hd : Blanks d) :
    Found (.members [(name, j)]) (a ++ (cs ++ (b ++ ':' :: (c ++ (ds ++ d))))) := by
  obtain ⟨n, hread⟩ := h.between hc hd '\x7d' rfl rfl
  refine ⟨fun rest => ?_, n + 1, fun fuel hfuel rest => ?_⟩
  · rw [List.append_assoc, List.append_assoc]
    exact (hname.opens.behind_blanks ha).2
  · obtain ⟨fuel, rfl⟩ : ∃ k, fuel = k + 1 := ⟨fuel - 1, by omega⟩
    obtain ⟨hvalue, hskip⟩ := hread fuel (by omega) rest
    obtain ⟨hstring, hcolon⟩ := hname.between ha hb (c ++ (ds ++ (d ++ '\x7d' :: rest)))
    simp [readMembers?, hstring, hcolon, hvalue, hskip]

theorem Found.member (h : Found (.value j) ds) (hs : Found (.members ms) es)
    (hname : SpellsString name cs) (ha : Blanks a) (hb : Blanks b) (hc : Blanks c)
    (hd : Blanks d) :
    Found (.members ((name, j) :: ms))
      (a ++ (cs ++ (b ++ ':' :: (c ++ (ds ++ (d ++ ',' :: es)))))) := by
  obtain ⟨n, hread⟩ := h.between hc hd ',' rfl rfl
  obtain ⟨-, m, hreads⟩ := hs
  refine ⟨fun rest => ?_, max n m + 1, fun fuel hfuel rest => ?_⟩
  · rw [List.append_assoc, List.append_assoc]
    exact (hname.opens.behind_blanks ha).2
  · obtain ⟨fuel, rfl⟩ : ∃ k, fuel = k + 1 := ⟨fuel - 1, by omega⟩
    obtain ⟨hvalue, hskip⟩ := hread fuel (by omega) (es ++ '\x7d' :: rest)
    obtain ⟨hstring, hcolon⟩ :=
      hname.between ha hb (c ++ (ds ++ (d ++ ',' :: (es ++ '\x7d' :: rest))))
    simp [readMembers?, hstring, hcolon, hvalue, hskip, hreads fuel (by omega)]

end Found

theorem Spells.found {p : Part} (h : Spells p cs) : Found p cs := by
  induction h with
  | null =>
      exact found_of_readValue? ⟨_, _, rfl, rfl⟩ fun _ _ _ => readName?_append "null" .null
  | true => exact found_of_readValue? ⟨_, _, rfl, rfl⟩ fun _ _ _ => readName?_append "true" _
  | false => exact found_of_readValue? ⟨_, _, rfl, rfl⟩ fun _ _ _ => readName?_append "false" _
  | number h => exact found_of_readValue? h.opens fun _ _ hrest => h.readValue? hrest
  | string h => exact found_of_readValue? h.opens fun _ _ _ => h.readValue?
  | emptyArray ha =>
      refine found_of_readValue? ⟨_, _, rfl, rfl⟩ fun fuel rest _ => ?_
      simp [readValue?, skipBlanks_mark ha (show isBlank ']' = Bool.false from rfl)]
  | emptyObject ha =>
      refine found_of_readValue? ⟨_, _, rfl, rfl⟩ fun fuel rest _ => ?_
      simp [readValue?, skipBlanks_mark ha (show isBlank '\x7d' = Bool.false from rfl)]
  | array _ ih => exact ih.array
  | object _ ih => exact ih.object
  | lastItem ha hb _ ih => exact ih.lastItem ha hb
  | item ha hb _ _ ih ihs => exact ih.item ihs ha hb
  | lastMember ha hb hc hd hname _ ih => exact ih.lastMember hname ha hb hc hd
  | member ha hb hc hd hname _ _ ih ihs => exact ih.member ihs hname ha hb hc hd

end Reader

/-- A text spells one value at most. -/
theorem Document.unique {j j' : Json} {text : List Char} (h : Document j text)
    (h' : Document j' text) : j = j' := by
  have hread : ∀ {j}, Document j text →
      ∃ n, ∀ fuel, n ≤ fuel → ((readValue? fuel (skipBlanks text)).map Prod.fst) = some j := by
    rintro j ⟨a, cs, b, ha, hcs, hb, rfl⟩
    obtain ⟨hopens, n, hvalue⟩ := hcs.found
    refine ⟨n, fun fuel hfuel => ?_⟩
    have hend : ∀ d ∈ (b ++ []).head?, d.isDigit = false :=
      isDigit_head_blanks hb fun _ hd => by cases hd
    rw [List.append_nil] at hend
    rw [skipBlanks_append ha hopens.head.1, hvalue fuel hfuel b hend, Option.map_some]
  obtain ⟨n, hn⟩ := hread h
  obtain ⟨m, hm⟩ := hread h'
  exact Option.some.inj ((hn (max n m) (Nat.le_max_left n m)).symm.trans
    (hm (max n m) (Nat.le_max_right n m)))

end Json
end PointsTo
