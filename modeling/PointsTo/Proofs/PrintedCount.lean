import Mathlib.Data.List.Basic
import PointsTo.Proofs.PathCount
import PointsTo.Proofs.Text

/-!
The path count in the bytes that a process prints, said on the bytes themselves. The
lossy text shows every ASCII byte as its character and all else as other characters, so
that reading it neither makes nor loses anything of the label or of a number.
-/

namespace PointsTo
namespace PathCount

open Text (Begins Broken Cuts)
open String (utf8EncodeChar)

def labelBytes : Bytes :=
  [0x70, 0x61, 0x74, 0x68, 0x73, 0x20, 0x3D, 0x20]

def isDigitByte (b : UInt8) : Bool :=
  0x30 ≤ b && b ≤ 0x39

def byteValue (digits : Bytes) : Nat :=
  digits.foldl (fun n b => 10 * n + (b.toNat - 0x30)) 0

/-- After `before` stand the label and, right after it, `digits` and no further digit. -/
def PrintedAt (bytes before digits : Bytes) : Prop :=
  ∃ rest, bytes = before ++ labelBytes ++ digits ++ rest ∧ digits ≠ [] ∧
    (∀ b ∈ digits, isDigitByte b = true) ∧ ∀ b ∈ rest.head?, isDigitByte b = false

def FirstPrinted (bytes digits : Bytes) : Prop :=
  ∃ before, PrintedAt bytes before digits ∧
    ∀ before' digits', PrintedAt bytes before' digits' → before.length ≤ before'.length

inductive Reported (bytes : Bytes) : Except Failure PathCount → Prop where
  | absent : (∀ before digits, ¬ PrintedAt bytes before digits) → Reported bytes (.ok .absent)
  | found {digits : Bytes} {n : UInt64} : FirstPrinted bytes digits →
      byteValue digits = n.toNat → Reported bytes (.ok (.found n))
  | bound {digits : Bytes} {text : String} : FirstPrinted bytes digits →
      2 ^ 64 ≤ byteValue digits → Text.encode text = digits → Reported bytes (.error (.bound text))

section Latin

def charOf (b : UInt8) : Char :=
  Char.ofNat b.toNat

variable {b : UInt8} {bytes before digits : Bytes}

theorem toNat_charOf (b : UInt8) : (charOf b).toNat = b.toNat :=
  Text.toNat_val_ofNat (Or.inl (Nat.lt_of_lt_of_le b.toNat_lt (by decide)))

theorem charOf_injective : Function.Injective charOf := by
  intro a b h
  rw [← UInt8.toNat_inj, ← toNat_charOf, h, toNat_charOf]

theorem map_labelBytes : labelBytes.map charOf = label := by decide

theorem isDigit_charOf (b : UInt8) : (charOf b).isDigit = isDigitByte b := by
  have hchar : (charOf b).isDigit = decide (48 ≤ (charOf b).toNat ∧ (charOf b).toNat ≤ 57) := by
    rw [Char.isDigit, Bool.decide_and]
    rfl
  have hbyte : isDigitByte b = decide (48 ≤ b.toNat ∧ b.toNat ≤ 57) := by
    rw [isDigitByte, Bool.decide_and]
    rfl
  rw [hchar, hbyte, toNat_charOf]

theorem value_map (digits : Bytes) : Decimal.value (digits.map charOf) = byteValue digits := by
  rw [Decimal.value, Nat.ofDigitChars_eq_foldl, List.foldl_map, byteValue]
  simp only [toNat_charOf]
  rfl

theorem encoding_charOf (h : b.toNat < 0x80) : utf8EncodeChar (charOf b) = [b] := by
  have hfirst : Text.Decoder.first b = (some (charOf b), .start) := by
    rw [Text.Decoder.first, if_pos h]
    rfl
  exact (Text.Decoder.first_some hfirst).2

theorem toNat_lt_of_isDigitByte (h : isDigitByte b = true) : b.toNat < 0x80 := by
  rw [isDigitByte, Bool.and_eq_true, decide_eq_true_eq, decide_eq_true_eq] at h
  exact Nat.lt_of_le_of_lt h.2 (by decide)

theorem encode_map (h : ∀ b ∈ digits, isDigitByte b = true) :
    Text.encode (String.ofList (digits.map charOf)) = digits := by
  rw [Text.encode, String.toList_ofList, Text.encodeChars, List.flatMap_map]
  induction digits with
  | nil => rfl
  | cons b digits ih =>
      rw [List.forall_mem_cons] at h
      rw [List.flatMap_cons, encoding_charOf (toNat_lt_of_isDigitByte h.1), ih h.2]
      rfl

/-- A count among the characters is one among the bytes. -/
theorem countsAt_map_iff {before' digits' : List Char} :
    CountsAt (bytes.map charOf) before' digits' ↔
      ∃ before digits, before.map charOf = before' ∧ digits.map charOf = digits' ∧
        PrintedAt bytes before digits := by
  constructor
  · rintro ⟨rest', htext, hne, hdigits, hrest⟩
    obtain ⟨upto, rest, rfl, hupto, rfl⟩ := List.map_eq_append_iff.1 htext
    obtain ⟨opened, digits, rfl, hopened, rfl⟩ := List.map_eq_append_iff.1 hupto
    obtain ⟨before, word, rfl, rfl, hword⟩ := List.map_eq_append_iff.1 hopened
    rw [← map_labelBytes, charOf_injective.list_map.eq_iff] at hword
    refine ⟨before, digits, rfl, rfl, rest, by rw [hword], by simpa using hne, ?_, ?_⟩
    · simpa [isDigit_charOf] using hdigits
    · simpa [isDigit_charOf] using hrest
  · rintro ⟨before, digits, rfl, rfl, rest, rfl, hne, hdigits, hrest⟩
    refine ⟨rest.map charOf, by simp [map_labelBytes], by simpa using hne, ?_, ?_⟩
    · simpa [isDigit_charOf] using hdigits
    · simpa [isDigit_charOf] using hrest

theorem firstCount_map (h : FirstPrinted bytes digits) :
    FirstCount (bytes.map charOf) (digits.map charOf) := by
  obtain ⟨before, hat, hfirst⟩ := h
  refine ⟨before.map charOf, countsAt_map_iff.2 ⟨before, digits, rfl, rfl, hat⟩, ?_⟩
  intro before' digits' hcount
  obtain ⟨before', digits', rfl, rfl, hat'⟩ := countsAt_map_iff.1 hcount
  simpa using hfirst before' digits' hat'

/-- There is a leftmost count where there is one at all. -/
theorem exists_firstPrinted (h : PrintedAt bytes before digits) :
    ∃ digits, FirstPrinted bytes digits := by
  induction hn : before.length using Nat.strongRecOn generalizing before digits with
  | _ n ih =>
      by_cases hfirst : ∀ before' digits', PrintedAt bytes before' digits' →
          before.length ≤ before'.length
      · exact ⟨digits, before, h, hfirst⟩
      · push Not at hfirst
        obtain ⟨before', digits', hat', hlt⟩ := hfirst
        exact ih before'.length (by omega) hat' rfl

end Latin

/-- The same characters but for runs without ASCII characters, for which other such runs
may stand. -/
inductive Blurs : List Char → List Char → Prop where
  | nil : Blurs [] []
  | same {s t : List Char} (c : Char) : Blurs s t → Blurs (c :: s) (c :: t)
  | other {x y s t : List Char} : x ≠ [] → y ≠ [] → (∀ c ∈ x, 0x80 ≤ c.toNat) →
      (∀ c ∈ y, 0x80 ≤ c.toNat) → Blurs s t → Blurs (x ++ s) (y ++ t)

section Blurs

variable {s t word rest digits : List Char} {c : Char}

theorem Blurs.symm (h : Blurs s t) : Blurs t s := by
  induction h with
  | nil => exact .nil
  | same c _ ih => exact .same c ih
  | other hx hy hxs hys _ ih => exact .other hy hx hys hxs ih

/-- The first character, if it is an ASCII one. -/
theorem Blurs.tail (h : Blurs (c :: s) t) (hc : c.toNat < 0x80) :
    ∃ t', t = c :: t' ∧ Blurs s t' := by
  generalize hs : c :: s = text at h
  cases h with
  | nil => cases hs
  | same c h =>
      cases hs
      exact ⟨_, rfl, h⟩
  | @other x y _ _ hx _ hxs _ _ =>
      obtain ⟨c', x, rfl⟩ := List.exists_cons_of_ne_nil hx
      cases hs
      have hlow := hxs c (List.mem_cons_self ..)
      omega

theorem Blurs.split (h : Blurs (word ++ rest) t) (hword : ∀ c ∈ word, c.toNat < 0x80) :
    ∃ rest', t = word ++ rest' ∧ Blurs rest rest' := by
  induction word generalizing t with
  | nil => exact ⟨t, rfl, h⟩
  | cons c word ih =>
      rw [List.forall_mem_cons] at hword
      obtain ⟨t', rfl, h'⟩ := h.tail hword.1
      obtain ⟨rest', rfl, hrest⟩ := ih h' hword.2
      exact ⟨rest', rfl, hrest⟩

theorem toNat_lt_of_isDigit (h : c.isDigit = true) : c.toNat < 0x80 := by
  rw [Char.isDigit, Bool.and_eq_true, decide_eq_true_eq, decide_eq_true_eq] at h
  exact Nat.lt_of_le_of_lt h.2 (by decide)

theorem toNat_lt_of_mem_label (h : c ∈ label) : c.toNat < 0x80 := by
  have hall : label.all (·.toNat < 0x80) = true := by decide
  simpa using List.all_eq_true.1 hall c h

theorem Blurs.countsAt (h : Blurs s t) (hs : CountsAt s [] digits) : CountsAt t [] digits := by
  obtain ⟨rest, rfl, hne, hdigits, hrest⟩ := hs
  have hword : ∀ c ∈ [] ++ label ++ digits, c.toNat < 0x80 := by
    intro c hc
    rcases List.mem_append.1 hc with hc | hc
    · exact toNat_lt_of_mem_label hc
    · exact toNat_lt_of_isDigit (hdigits c hc)
  obtain ⟨rest', rfl, hblurs⟩ := h.split hword
  refine ⟨rest', rfl, hne, hdigits, fun c hc => ?_⟩
  obtain ⟨more, rfl⟩ := List.head?_eq_some_iff.1 hc
  cases hdigit : c.isDigit with
  | false => rfl
  | true =>
      obtain ⟨_, rfl, _⟩ := hblurs.symm.tail (toNat_lt_of_isDigit hdigit)
      exact hdigit.symm.trans (hrest c rfl)

/-- In front of a run without ASCII characters no count starts. -/
theorem digits?_append (h : ∀ c ∈ word, 0x80 ≤ c.toNat) (rest : List Char) :
    digits? (word ++ rest) = digits? rest := by
  induction word with
  | nil => rfl
  | cons c word ih =>
      rw [List.forall_mem_cons] at h
      rw [List.cons_append, digits?_cons, ih h.2]
      rintro digits ⟨more, heq, _⟩
      obtain ⟨hc, _⟩ := List.cons.inj heq
      rw [hc] at h
      exact absurd h.1 (by decide)

theorem Blurs.digits?_eq (h : Blurs s t) : digits? s = digits? t := by
  induction h with
  | nil => rfl
  | @same s t c h ih =>
      by_cases hcount : ∃ digits, CountsAt (c :: s) [] digits
      · obtain ⟨digits, hat⟩ := hcount
        rw [digits?_of_countsAt hat, digits?_of_countsAt ((Blurs.same c h).countsAt hat)]
      · have hs : ∀ digits, ¬ CountsAt (c :: s) [] digits := fun digits hat => hcount ⟨digits, hat⟩
        have ht : ∀ digits, ¬ CountsAt (c :: t) [] digits := fun digits hat =>
          hcount ⟨digits, (Blurs.same c h).symm.countsAt hat⟩
        rw [digits?_cons hs, digits?_cons ht, ih]
  | other _ _ hxs hys _ ih => rw [digits?_append hxs, digits?_append hys, ih]

end Blurs

section Cuts

variable {bytes bs rest : Bytes} {found : List (Option Char)} {c : Char}

/-- A character is an ASCII byte, or neither it nor its bytes are ASCII. -/
theorem encoding_blurs (c : Char) :
    (∃ b, utf8EncodeChar c = [b] ∧ charOf b = c) ∨
      0x80 ≤ c.toNat ∧ ∀ b ∈ utf8EncodeChar c, 0x80 ≤ b.toNat := by
  by_cases hc : c.toNat < 0x80
  · left
    have hbyte : (UInt8.ofNat c.toNat).toNat = c.toNat := Text.toNat_ofNat_of_lt (by omega)
    have hchar : charOf (UInt8.ofNat c.toNat) = c := by
      rw [charOf, hbyte, Char.ofNat_toNat]
    have hencoding := encoding_charOf (by rwa [hbyte] : (UInt8.ofNat c.toNat).toNat < 0x80)
    rw [hchar] at hencoding
    exact ⟨_, hencoding, hchar⟩
  · right
    refine ⟨by omega, ?_⟩
    rcases Text.encoding_cases c with ⟨b, hb, hlow⟩ | ⟨b, next, rest, hb, hfirst, hrest⟩
    · have heq : c = charOf b :=
        Text.eq_of_encoding_prefix (hb.trans (encoding_charOf hlow).symm ▸ List.prefix_refl _)
      rw [heq, toNat_charOf] at hc
      exact absurd hlow hc
    · rw [hb, List.forall_mem_cons]
      refine ⟨?_, fun x hx => (hrest x hx).1⟩
      by_contra hlow
      obtain ⟨_, _, _, _, hfirst, _⟩ := hfirst
      rw [Text.Decoder.first, if_pos (by omega)] at hfirst
      cases hfirst

/-- An ASCII byte is a character, and so in no broken sequence. -/
theorem toNat_of_mem_broken (h : Broken bs rest) {b : UInt8} (hb : b ∈ bs) : 0x80 ≤ b.toNat := by
  by_contra hlow
  have hsingle : bs = [b] := by
    rcases h.short with ⟨c, hc⟩ | hone
    · rcases encoding_blurs c with ⟨x, hx, _⟩ | ⟨_, hbytes⟩
      · rw [hx] at hc
        obtain ⟨y, ys, rfl⟩ := List.exists_cons_of_ne_nil h.nonempty
        obtain rfl := List.prefix_nil.1 (List.cons_prefix_cons.1 hc).2
        rw [List.mem_singleton.1 hb]
      · exact absurd (hbytes b (hc.subset hb)) hlow
    · obtain ⟨y, rfl⟩ := List.length_eq_one_iff.1 hone
      rw [List.mem_singleton.1 hb]
  refine h.invalid (charOf b) ?_
  rw [encoding_charOf (by omega), hsingle]
  exact List.prefix_append [b] rest

theorem blurs_of_cuts (h : Cuts bytes found) :
    Blurs (found.map (·.getD '\ufffd')) (bytes.map charOf) := by
  induction h with
  | nil => exact .nil
  | char c _ ih =>
      rcases encoding_blurs c with ⟨b, hb, rfl⟩ | ⟨hc, hbytes⟩
      · rw [hb]
        exact .same _ ih
      · rw [List.map_append]
        refine @Blurs.other [c] _ _ _ nofun (by simp [String.utf8EncodeChar_ne_nil])
          (by simpa using hc) ?_ ih
        simpa [toNat_charOf] using hbytes
  | @broken bs rest found hbroken _ ih =>
      rw [List.map_append]
      refine @Blurs.other ['\ufffd'] _ _ _ nofun (by simpa using hbroken.nonempty)
        (List.forall_mem_singleton.2 (by decide)) ?_ ih
      simpa [toNat_charOf] using fun b hb => toNat_of_mem_broken hbroken hb

end Cuts

theorem scan_lossyChars (bytes : Bytes) :
    scan (Text.lossyChars bytes) = scan (bytes.map charOf) := by
  rw [scan, scan, Text.lossyChars, (blurs_of_cuts (Text.cuts_pieces bytes)).digits?_eq]

theorem scan_of_reported {bytes : Bytes} {r : Except Failure PathCount} (h : Reported bytes r) :
    scan (Text.lossyChars bytes) = r := by
  rw [scan_lossyChars]
  cases h with
  | absent hno =>
      refine scan_absent fun before' digits' hcount => ?_
      obtain ⟨before, digits, _, _, hat⟩ := countsAt_map_iff.1 hcount
      exact hno before digits hat
  | found hfirst hn => exact scan_found (firstCount_map hfirst) ((value_map _).trans hn)
  | @bound digits text hfirst hn htext =>
      have hbound := scan_bound (firstCount_map hfirst) (by rwa [value_map])
      obtain ⟨_, ⟨_, _, _, hdigits, _⟩, _⟩ := hfirst
      rw [hbound, Text.encode_inj (htext.trans (encode_map hdigits).symm)]

theorem exists_reported (bytes : Bytes) : ∃ r, Reported bytes r := by
  by_cases hany : ∃ before digits, PrintedAt bytes before digits
  · obtain ⟨before, digits, hat⟩ := hany
    obtain ⟨digits, hfirst⟩ := exists_firstPrinted hat
    by_cases hn : byteValue digits < 2 ^ 64
    · have hword : (UInt64.ofNat (byteValue digits)).toNat = byteValue digits :=
        UInt64.toNat_ofNat_of_lt' hn
      exact ⟨_, .found hfirst hword.symm⟩
    · obtain ⟨_, ⟨_, _, _, hdigits, _⟩, _⟩ := id hfirst
      exact ⟨_, .bound hfirst (by omega) (encode_map hdigits)⟩
  · exact ⟨_, .absent fun before digits hat => hany ⟨before, digits, hat⟩⟩

/-- The lossy text of what was printed shows one U+FFFD for each broken sequence, and its
scan comes to what the leftmost count among the bytes themselves comes to. -/
theorem scan_lossyChars_iff_reported (bytes : Bytes) (r : Except Failure PathCount) :
    (∃ found, Cuts bytes found ∧ Text.lossyChars bytes = found.map (·.getD '\ufffd')) ∧
      (scan (Text.lossyChars bytes) = r ↔ Reported bytes r) := by
  refine ⟨⟨Text.pieces bytes, Text.cuts_pieces bytes, rfl⟩, fun h => ?_, scan_of_reported⟩
  obtain ⟨r', hr'⟩ := exists_reported bytes
  rw [← h, scan_of_reported hr']
  exact hr'

end PathCount
end PointsTo
