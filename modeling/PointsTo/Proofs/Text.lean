import PointsTo.Text.Utf8

/-!
The readings of bytes as UTF-8, said without the machine that makes them. The bytes are
cut into encodings of characters and into broken sequences, each as long as it could still
have become a character. Where nothing is broken, the reading loses nothing.
-/

namespace PointsTo
namespace Text

open String (utf8EncodeChar)

def Begins (bs : Bytes) : Prop :=
  ∃ c, bs <+: utf8EncodeChar c

/-- What is given up in front of `rest`: no character stands here, and the bytes go as far
as they could still have become one, which is at least over the first byte. -/
structure Broken (bs rest : Bytes) : Prop where
  nonempty : bs ≠ []
  short : Begins bs ∨ bs.length = 1
  invalid : ∀ c, ¬ utf8EncodeChar c <+: bs ++ rest
  longest : ∀ b ∈ rest.head?, ¬ Begins (bs ++ [b])

/-- A byte string and what it is cut into, `none` for each broken sequence. -/
inductive Cuts : Bytes → List (Option Char) → Prop where
  | nil : Cuts [] []
  | char {bs : Bytes} {found : List (Option Char)} (c : Char) :
      Cuts bs found → Cuts (utf8EncodeChar c ++ bs) (some c :: found)
  | broken {bs rest : Bytes} {found : List (Option Char)} :
      Broken bs rest → Cuts rest found → Cuts (bs ++ rest) (none :: found)

section Encoding

theorem toNat_ofNat_of_lt {n : Nat} (h : n < 256) : (UInt8.ofNat n).toNat = n := by
  simp [UInt8.toNat_ofNat', Nat.mod_eq_of_lt h]

theorem continuing_range (n : Nat) :
    0x80 ≤ UInt8.ofNat (n % 64 + 128) ∧ UInt8.ofNat (n % 64 + 128) ≤ 0xBF := by
  have hn := toNat_ofNat_of_lt (show n % 64 + 128 < 256 by omega)
  rw [UInt8.le_iff_toNat_le, UInt8.le_iff_toNat_le, hn]
  exact ⟨Nat.le_add_left 128 _, show n % 64 + 128 ≤ 191 by omega⟩

/-- The byte `b` opens a character, and `next` is in the range that it asks for. -/
def Continues (b next : UInt8) : Prop :=
  ∃ owed low high value, Decoder.first b = (none, .inside owed low high value) ∧
    low ≤ next ∧ next ≤ high

theorem continues_two {v : Nat} (h : 0x7F < v) (h' : v ≤ 0x7FF) :
    Continues (UInt8.ofNat (v / 64 % 32 + 192)) (UInt8.ofNat (v % 64 + 128)) := by
  have hb := toNat_ofNat_of_lt (show v / 64 % 32 + 192 < 256 by omega)
  refine ⟨1, 0x80, 0xBF, v / 64 % 32 + 192 - 0xC0, ?_, continuing_range v⟩
  rw [Decoder.first, hb, if_neg (by omega), if_neg (by omega), if_pos (by omega)]

theorem continues_three {v : Nat} (h : 0x7FF < v) (h' : v ≤ 0xFFFF)
    (hv : v < 0xD800 ∨ 0xDFFF < v) :
    Continues (UInt8.ofNat (v / 4096 % 16 + 224)) (UInt8.ofNat (v / 64 % 64 + 128)) := by
  have hb := toNat_ofNat_of_lt (show v / 4096 % 16 + 224 < 256 by omega)
  have hnext := toNat_ofNat_of_lt (show v / 64 % 64 + 128 < 256 by omega)
  refine ⟨2, if v / 4096 % 16 + 224 = 0xE0 then 0xA0 else 0x80,
    if v / 4096 % 16 + 224 = 0xED then 0x9F else 0xBF, v / 4096 % 16 + 224 - 0xE0, ?_, ?_, ?_⟩
  · rw [Decoder.first, hb, if_neg (by omega), if_neg (by omega), if_neg (by omega),
      if_pos (by omega)]
  · rw [UInt8.le_iff_toNat_le, hnext]
    split
    · change 0xA0 ≤ _
      omega
    · change 0x80 ≤ _
      omega
  · rw [UInt8.le_iff_toNat_le, hnext]
    split
    · change _ ≤ 0x9F
      omega
    · change _ ≤ 0xBF
      omega

theorem continues_four {v : Nat} (h : 0xFFFF < v) (h' : v < 0x110000) :
    Continues (UInt8.ofNat (v / 262144 % 8 + 240)) (UInt8.ofNat (v / 4096 % 64 + 128)) := by
  have hb := toNat_ofNat_of_lt (show v / 262144 % 8 + 240 < 256 by omega)
  have hnext := toNat_ofNat_of_lt (show v / 4096 % 64 + 128 < 256 by omega)
  refine ⟨3, if v / 262144 % 8 + 240 = 0xF0 then 0x90 else 0x80,
    if v / 262144 % 8 + 240 = 0xF4 then 0x8F else 0xBF, v / 262144 % 8 + 240 - 0xF0, ?_, ?_, ?_⟩
  · rw [Decoder.first, hb, if_neg (by omega), if_neg (by omega), if_neg (by omega),
      if_neg (by omega), if_pos (by omega)]
  · rw [UInt8.le_iff_toNat_le, hnext]
    split
    · change 0x90 ≤ _
      omega
    · change 0x80 ≤ _
      omega
  · rw [UInt8.le_iff_toNat_le, hnext]
    split
    · change _ ≤ 0x8F
      omega
    · change _ ≤ 0xBF
      omega

/-- An encoding is one byte, or an opening byte and those that continue it. -/
theorem encoding_cases (c : Char) :
    (∃ b, utf8EncodeChar c = [b] ∧ b.toNat < 0x80) ∨
    ∃ b next rest, utf8EncodeChar c = b :: next :: rest ∧ Continues b next ∧
      ∀ x ∈ next :: rest, 0x80 ≤ x ∧ x ≤ 0xBF := by
  have hvalid : c.val.toNat < 0xD800 ∨ 0xDFFF < c.val.toNat ∧ c.val.toNat < 0x110000 := c.valid
  rw [utf8EncodeChar]
  generalize c.val.toNat = v at hvalid
  split
  · left
    exact ⟨_, rfl, by rw [toNat_ofNat_of_lt (by omega)]; omega⟩
  · right
    split
    · refine ⟨_, _, _, rfl, continues_two (by omega) (by omega), ?_⟩
      simp only [List.forall_mem_cons, continuing_range, List.not_mem_nil, and_self,
        false_implies, implies_true]
    split
    · refine ⟨_, _, _, rfl, continues_three (by omega) (by omega) (by omega), ?_⟩
      simp only [List.forall_mem_cons, continuing_range, List.not_mem_nil, and_self,
        false_implies, implies_true]
    · refine ⟨_, _, _, rfl, continues_four (by omega) (by omega), ?_⟩
      simp only [List.forall_mem_cons, continuing_range, List.not_mem_nil, and_self,
        false_implies, implies_true]

variable {bs rest : Bytes} {b : UInt8} {c c' : Char}

/-- No encoding starts another one. -/
theorem eq_of_encoding_prefix (h : utf8EncodeChar c <+: utf8EncodeChar c') : c = c' := by
  obtain ⟨rest, hrest⟩ := h
  have hc : ((utf8EncodeChar c).toByteArray ++ rest.toByteArray).utf8DecodeChar? 0 = some c :=
    ByteArray.utf8DecodeChar?_utf8EncodeChar_append
  have hc' : ((utf8EncodeChar c').toByteArray ++ ByteArray.empty).utf8DecodeChar? 0 = some c' :=
    ByteArray.utf8DecodeChar?_utf8EncodeChar_append
  rw [← List.toByteArray_append, hrest] at hc
  rw [ByteArray.append_empty, hc] at hc'
  exact Option.some.inj hc'

theorem Begins.before (h : Begins (bs ++ rest)) : Begins bs := by
  obtain ⟨c, hc⟩ := h
  exact ⟨c, (List.prefix_append bs rest).trans hc⟩

/-- A byte that is neither a character nor opens one begins no encoding. -/
theorem not_begins_of_first (h : Decoder.first b = (none, .start)) : ¬ Begins [b] := by
  rintro ⟨c, hc⟩
  rcases encoding_cases c with ⟨x, hx, hlow⟩ | ⟨x, next, rest, hx, ⟨_, _, _, _, hfirst, _⟩, _⟩
  · rw [hx, List.cons_prefix_cons] at hc
    rw [hc.1, Decoder.first, if_pos hlow] at h
    cases h
  · rw [hx, List.cons_prefix_cons] at hc
    rw [hc.1, hfirst] at h
    cases h

/-- After an opening byte an encoding goes on in the range that it asks for. -/
theorem range_of_first {owed value : Nat} {low high next : UInt8}
    (h : Decoder.first b = (none, .inside owed low high value)) (hb : Begins [b, next]) :
    low ≤ next ∧ next ≤ high := by
  obtain ⟨c, hc⟩ := hb
  rcases encoding_cases c with ⟨x, hx, _⟩ | ⟨x, next', rest, hx, ⟨_, _, _, _, hfirst, hrange⟩, _⟩
  · rw [hx] at hc
    have hlength := hc.length_le
    simp at hlength
  · rw [hx, List.cons_prefix_cons, List.cons_prefix_cons] at hc
    rw [hc.1, hfirst] at h
    cases h
    rw [hc.2.1]
    exact hrange

/-- After its first byte an encoding has continuing bytes only. -/
theorem range_of_begins (hne : bs ≠ []) (h : Begins (bs ++ [b])) : 0x80 ≤ b ∧ b ≤ 0xBF := by
  obtain ⟨x, bs, rfl⟩ := List.exists_cons_of_ne_nil hne
  obtain ⟨c, hc⟩ := h
  rcases encoding_cases c with ⟨y, hy, _⟩ | ⟨y, next, rest, hy, _, hrange⟩
  · rw [hy] at hc
    have hlength := hc.length_le
    simp at hlength
  · rw [hy, List.cons_append, List.cons_prefix_cons] at hc
    exact hrange b (hc.2.subset (by simp))

end Encoding

section Opens

theorem toNat_val_ofNat {v : Nat} (h : v.isValidChar) : (Char.ofNat v).val.toNat = v := by
  rw [Char.ofNat, dif_pos h]
  rfl

theorem eq_ofNat {b : UInt8} {n : Nat} (h : n = b.toNat) : UInt8.ofNat n = b := by
  rw [h, UInt8.ofNat_toNat]

/-- The bytes `bs` open a character: with `owed` more, the first of which lies between
`low` and `high`, they are its encoding. -/
def Opens : Nat → UInt8 → UInt8 → Nat → Bytes → Prop
  | 0, _, _, _, _ => False
  | 1, low, high, value, bs => ∀ b : UInt8, low ≤ b → b ≤ high →
    utf8EncodeChar (Char.ofNat (value * 64 + (b.toNat - 0x80))) = bs ++ [b]
  | owed + 2, low, high, value, bs => ∀ b : UInt8, low ≤ b → b ≤ high →
    Opens (owed + 1) 0x80 0xBF (value * 64 + (b.toNat - 0x80)) (bs ++ [b])

theorem Opens.owed_pos {owed value : Nat} {low high : UInt8} {bs : Bytes}
    (h : Opens owed low high value bs) : 0 < owed := by
  cases owed with
  | zero => exact h.elim
  | succ owed => omega

theorem opens_one {b : UInt8} (h : 0xC2 ≤ b.toNat) (h' : b.toNat < 0xE0) :
    Opens 1 0x80 0xBF (b.toNat - 0xC0) [b] := by
  intro c hlow hhigh
  have hc : 0x80 ≤ c.toNat := hlow
  have hc' : c.toNat ≤ 0xBF := hhigh
  rw [utf8EncodeChar, toNat_val_ofNat (Or.inl (by omega))]
  rw [if_neg (by omega), if_pos (by omega), eq_ofNat (b := b) (by omega),
    eq_ofNat (b := c) (by omega)]
  rfl

theorem opens_two {b low high : UInt8} (h : 0xE0 ≤ b.toNat) (h' : b.toNat < 0xF0)
    (hlow : low = if b.toNat = 0xE0 then 0xA0 else 0x80)
    (hhigh : high = if b.toNat = 0xED then 0x9F else 0xBF) :
    Opens 2 low high (b.toNat - 0xE0) [b] := by
  intro c hc hc' e he he'
  have hcl : low.toNat ≤ c.toNat := hc
  have hch : c.toNat ≤ high.toNat := hc'
  have hel : 0x80 ≤ e.toNat := he
  have heh : e.toNat ≤ 0xBF := he'
  have hl : low.toNat = if b.toNat = 0xE0 then 0xA0 else 0x80 := by
    rw [hlow]
    split <;> rfl
  have hh : high.toNat = if b.toNat = 0xED then 0x9F else 0xBF := by
    rw [hhigh]
    split <;> rfl
  have hmin : 0x20 ≤ (b.toNat - 0xE0) * 64 + (c.toNat - 0x80) := by split at hl <;> omega
  have hgap : (b.toNat - 0xE0) * 64 + (c.toNat - 0x80) < 0x360 ∨
      0x380 ≤ (b.toNat - 0xE0) * 64 + (c.toNat - 0x80) := by split at hh <;> omega
  have hcb : 0x80 ≤ c.toNat ∧ c.toNat ≤ 0xBF := by split at hl <;> split at hh <;> omega
  clear hl hh
  rw [utf8EncodeChar, toNat_val_ofNat (hgap.imp (by omega) fun _ => ⟨by omega, by omega⟩)]
  rw [if_neg (by omega), if_neg (by omega), if_pos (by omega), eq_ofNat (b := b) (by omega),
    eq_ofNat (b := c) (by omega), eq_ofNat (b := e) (by omega)]
  rfl

theorem opens_three {b low high : UInt8} (h : 0xF0 ≤ b.toNat) (h' : b.toNat < 0xF5)
    (hlow : low = if b.toNat = 0xF0 then 0x90 else 0x80)
    (hhigh : high = if b.toNat = 0xF4 then 0x8F else 0xBF) :
    Opens 3 low high (b.toNat - 0xF0) [b] := by
  intro c hc hc' e he he' f hf hf'
  have hcl : low.toNat ≤ c.toNat := hc
  have hch : c.toNat ≤ high.toNat := hc'
  have hel : 0x80 ≤ e.toNat := he
  have heh : e.toNat ≤ 0xBF := he'
  have hfl : 0x80 ≤ f.toNat := hf
  have hfh : f.toNat ≤ 0xBF := hf'
  have hl : low.toNat = if b.toNat = 0xF0 then 0x90 else 0x80 := by
    rw [hlow]
    split <;> rfl
  have hh : high.toNat = if b.toNat = 0xF4 then 0x8F else 0xBF := by
    rw [hhigh]
    split <;> rfl
  have hmin : 0x10 ≤ (b.toNat - 0xF0) * 64 + (c.toNat - 0x80) := by split at hl <;> omega
  have hmax : (b.toNat - 0xF0) * 64 + (c.toNat - 0x80) < 0x110 := by split at hh <;> omega
  have hcb : 0x80 ≤ c.toNat ∧ c.toNat ≤ 0xBF := by split at hl <;> split at hh <;> omega
  clear hl hh
  rw [utf8EncodeChar, toNat_val_ofNat (Or.inr ⟨by omega, by omega⟩)]
  rw [if_neg (by omega), if_neg (by omega), if_neg (by omega), eq_ofNat (b := b) (by omega),
    eq_ofNat (b := c) (by omega), eq_ofNat (b := e) (by omega), eq_ofNat (b := f) (by omega)]
  rfl

/-- What is open can be completed. -/
theorem Opens.exists_encoding {owed value : Nat} {low high : UInt8} {bs : Bytes}
    (h : Opens owed low high value bs) (hrange : low ≤ high) :
    ∃ c more, more ≠ [] ∧ utf8EncodeChar c = bs ++ more := by
  induction owed generalizing low high value bs with
  | zero => exact h.elim
  | succ owed ih =>
      cases owed with
      | zero => exact ⟨_, [low], nofun, h low UInt8.le_rfl hrange⟩
      | succ owed =>
          obtain ⟨c, more, _, hc⟩ := ih (h low UInt8.le_rfl hrange) (by decide)
          exact ⟨c, low :: more, nofun, by rw [hc, List.append_assoc]; rfl⟩

end Opens

namespace Decoder

/-- The bytes that the machine has read of a character that is still open. The range for
the next byte is exact. -/
def Awaits : Decoder → Bytes → Prop
  | start, bs => bs = []
  | inside owed low high value, bs =>
    Opens owed low high value bs ∧ low ≤ high ∧ bs ≠ [] ∧
      ∀ b, Begins (bs ++ [b]) → low ≤ b ∧ b ≤ high

def finds (d : Decoder) : Bytes → List (Option Char)
  | [] => d.finish
  | b :: bs => (d.step b).1 ++ (d.step b).2.finds bs

variable {d : Decoder} {bs rest bytes : Bytes} {b : UInt8}

theorem first_some {b : UInt8} {c : Char} {d : Decoder} (h : first b = (some c, d)) :
    d = start ∧ utf8EncodeChar c = [b] := by
  unfold first at h
  dsimp only at h
  split at h
  · next hb =>
    cases h
    refine ⟨rfl, ?_⟩
    rw [utf8EncodeChar, toNat_val_ofNat (Or.inl (by omega)), if_pos (by omega), eq_ofNat rfl]
  · repeat' split at h
    all_goals cases h

theorem first_none {b : UInt8} {owed value : Nat} {low high : UInt8}
    (h : first b = (none, inside owed low high value)) : Opens owed low high value [b] := by
  unfold first at h
  dsimp only at h
  split at h
  · cases h
  split at h
  · cases h
  split at h
  · cases h
    exact opens_one (by omega) (by omega)
  split at h
  · cases h
    exact opens_two (by omega) (by omega) rfl rfl
  split at h
  · cases h
    exact opens_three (by omega) (by omega) rfl rfl
  · cases h

theorem range_nonempty {owed value : Nat} {low high : UInt8}
    (h : first b = (none, inside owed low high value)) : low ≤ high := by
  unfold first at h
  dsimp only at h
  split at h
  · cases h
  split at h
  · cases h
  split at h
  · cases h
    decide
  split at h
  · cases h
    split
    · rw [if_neg (by omega)]
      decide
    · split <;> decide
  split at h
  · cases h
    split
    · rw [if_neg (by omega)]
      decide
    · split <;> decide
  · cases h

theorem awaits_of_first {owed value : Nat} {low high : UInt8}
    (h : first b = (none, inside owed low high value)) :
    (inside owed low high value).Awaits [b] :=
  ⟨first_none h, range_nonempty h, nofun, fun _ hb => range_of_first h hb⟩

theorem broken_of_first (h : first b = (none, start)) (rest : Bytes) : Broken [b] rest := by
  have hno := not_begins_of_first h
  refine ⟨nofun, Or.inr rfl, fun c hc => ?_, fun next _ hbegins => hno hbegins.before⟩
  obtain ⟨x, more, hx⟩ := List.exists_cons_of_ne_nil (String.utf8EncodeChar_ne_nil (c := c))
  rw [hx, List.singleton_append, List.cons_prefix_cons] at hc
  exact hno ⟨c, by rw [hx, hc.1]; exact List.prefix_append [b] more⟩

/-- An open character is given up where the next byte does not continue it. -/
theorem broken_of_awaits {owed value : Nat} {low high : UInt8}
    (h : (inside owed low high value).Awaits bs)
    (hnext : ∀ b ∈ rest.head?, ¬ (low ≤ b ∧ b ≤ high)) : Broken bs rest := by
  obtain ⟨hopens, hrange, hne, hexact⟩ := h
  obtain ⟨c, more, hmore, hc⟩ := hopens.exists_encoding hrange
  have hlongest : ∀ b ∈ rest.head?, ¬ Begins (bs ++ [b]) :=
    fun b hb hbegins => hnext b hb (hexact b hbegins)
  have hopen : ∀ c', ¬ utf8EncodeChar c' <+: bs := fun c' hc' => by
    have heq := eq_of_encoding_prefix (hc'.trans (hc ▸ List.prefix_append bs more))
    rw [heq, hc] at hc'
    have hlength := hc'.length_le
    rw [List.length_append] at hlength
    exact hmore (List.length_eq_zero_iff.1 (by omega))
  refine ⟨hne, Or.inl ⟨c, hc ▸ List.prefix_append bs more⟩, fun c' hc' => ?_, hlongest⟩
  -- a character that stood here would end in the open bytes or need the next one
  rcases List.prefix_or_prefix_of_prefix hc' (List.prefix_append bs rest) with hin | ⟨tail, htail⟩
  · exact hopen c' hin
  · cases tail with
    | nil => exact hopen c' ⟨[], by simpa using htail.symm⟩
    | cons b tail =>
        rw [← htail, List.prefix_append_right_inj] at hc'
        obtain ⟨rest', rfl⟩ := hc'
        refine hlongest b rfl ⟨c', ?_⟩
        rw [← htail]
        exact ⟨tail, by simp⟩

theorem awaits_of_step {owed value : Nat} {low high : UInt8}
    (h : (inside (owed + 2) low high value).Awaits bs) (hb : low ≤ b ∧ b ≤ high) :
    (inside (owed + 1) 0x80 0xBF (value * 64 + (b.toNat - 0x80))).Awaits (bs ++ [b]) :=
  ⟨h.1 b hb.1 hb.2, by decide, by simp, fun _ hnext => range_of_begins (by simp) hnext⟩

/-- A byte after which nothing is open from before. -/
theorem cuts_opening (b : UInt8)
    (hrest : ∀ {d : Decoder} {bs : Bytes}, d.Awaits bs → Cuts (bs ++ bytes) (d.finds bytes)) :
    Cuts (b :: bytes) (start.finds (b :: bytes)) := by
  have hstart : Cuts bytes (start.finds bytes) := @hrest start [] rfl
  rw [finds, step, opening]
  split
  · next c d' hfirst =>
    obtain ⟨rfl, hc⟩ := first_some hfirst
    have hcuts := Cuts.char c hstart
    rwa [hc] at hcuts
  · next hfirst => exact .broken (broken_of_first hfirst bytes) hstart
  · next d' hne hfirst =>
    cases d' with
    | start => exact absurd rfl hne
    | inside owed low high value => exact hrest (awaits_of_first hfirst)

/-- From every state the machine cuts what is open together with what is to come. -/
theorem cuts_finds (h : d.Awaits bs) (bytes : Bytes) : Cuts (bs ++ bytes) (d.finds bytes) := by
  induction bytes generalizing d bs with
  | nil =>
      cases d with
      | start =>
          obtain rfl : bs = [] := h
          exact .nil
      | inside owed low high value => exact .broken (broken_of_awaits h nofun) .nil
  | cons b bytes ih =>
      cases d with
      | start =>
          obtain rfl : bs = [] := h
          exact cuts_opening b ih
      | inside owed low high value =>
          simp only [finds, step]
          split
          · next hrange =>
            have hpos := h.1.owed_pos
            split
            · next howed =>
              obtain rfl : owed = 1 := by omega
              have hchar := h.1 b hrange.1 hrange.2
              generalize Char.ofNat (value * 64 + (b.toNat - 0x80)) = c at hchar ⊢
              have hcuts := Cuts.char c (@ih start [] rfl)
              rwa [hchar, List.append_assoc] at hcuts
            · next howed =>
              obtain ⟨k, rfl⟩ : ∃ k, owed = k + 2 := ⟨owed - 2, by omega⟩
              have hcuts := ih (awaits_of_step h hrange)
              rwa [List.append_assoc] at hcuts
          · next hrange =>
            refine .broken (broken_of_awaits h fun x hx => ?_) (cuts_opening b ih)
            cases hx
            exact hrange

end Decoder

theorem pieces_eq_finds (bytes : Bytes) : pieces bytes = Decoder.start.finds bytes := by
  have hfold : ∀ (out : List (Option Char)) (d : Decoder),
      let found := bytes.foldl
        (fun s b => ((s.2.step b).1.reverse ++ s.1, (s.2.step b).2)) (out, d)
      found.1.reverse ++ found.2.finish = out.reverse ++ d.finds bytes := by
    induction bytes with
    | nil => exact fun _ _ => rfl
    | cons b bytes ih =>
        intro out d
        refine (ih _ _).trans ?_
        rw [List.reverse_append, List.reverse_reverse, List.append_assoc]
        rfl
  exact hfold [] .start

theorem cuts_pieces (bytes : Bytes) : Cuts bytes (pieces bytes) := by
  have hstart : Decoder.start.Awaits [] := rfl
  rw [pieces_eq_finds]
  exact Decoder.cuts_finds hstart bytes

theorem encode_inj {a b : String} (h : encode a = encode b) : a = b := by
  have hbytes : (String.ofList a.toList).toByteArray = (String.ofList b.toList).toByteArray := by
    rw [String.toByteArray_ofList, String.toByteArray_ofList]
    exact congrArg List.toByteArray h
  rw [String.ofList_toList, String.ofList_toList] at hbytes
  exact String.toByteArray_inj.1 hbytes

theorem Cuts.encodeChars {bytes : Bytes} {found : List (Option Char)} (h : Cuts bytes found)
    (hall : found.all Option.isSome = true) : encodeChars (found.filterMap id) = bytes := by
  induction h with
  | nil => rfl
  | char c _ ih =>
      rw [List.all_cons, Bool.and_eq_true] at hall
      rw [← ih hall.2]
      simp [Text.encodeChars]
  | broken _ _ _ => simp at hall

theorem encode_of_decode? {bytes : Bytes} {text : String} (h : decode? bytes = some text) :
    encode text = bytes := by
  unfold decode? at h
  dsimp only at h
  split at h
  · next hall =>
    cases h
    rw [encode, String.toList_ofList]
    exact (cuts_pieces bytes).encodeChars hall
  · cases h

/-- The encodings of characters are read in one way only. -/
theorem Cuts.eq_map {cs : List Char} {found : List (Option Char)}
    (h : Cuts (Text.encodeChars cs) found) : found = cs.map some := by
  induction cs generalizing found with
  | nil =>
      generalize hbytes : Text.encodeChars [] = bytes at h
      cases h with
      | nil => rfl
      | char c _ => simp [Text.encodeChars, String.utf8EncodeChar_ne_nil] at hbytes
      | broken hbroken _ => simp [Text.encodeChars, hbroken.nonempty] at hbytes
  | cons c cs ih =>
      have hcons : Text.encodeChars (c :: cs) = utf8EncodeChar c ++ Text.encodeChars cs := rfl
      generalize hbytes : Text.encodeChars (c :: cs) = bytes at h
      cases h with
      | nil => simp [hcons, String.utf8EncodeChar_ne_nil] at hbytes
      | broken hbroken _ =>
          exact absurd (hbytes ▸ hcons ▸ List.prefix_append _ _) (hbroken.invalid c)
      | @char bs found c' hrest =>
          rw [hcons] at hbytes
          have heq : c = c' := by
            rcases List.prefix_or_prefix_of_prefix (List.prefix_append (utf8EncodeChar c) _)
              (hbytes ▸ List.prefix_append (utf8EncodeChar c') bs) with hpre | hpre
            · exact eq_of_encoding_prefix hpre
            · exact Eq.symm <| eq_of_encoding_prefix hpre
          subst heq
          obtain rfl := List.append_cancel_left hbytes
          rw [ih hrest, List.map_cons]

theorem decode?_encodeChars (cs : List Char) :
    decode? (encodeChars cs) = some (String.ofList cs) := by
  rw [decode?, (cuts_pieces (encodeChars cs)).eq_map]
  simp

end Text
end PointsTo
