import PointsTo.Proofs.Lists
import PointsTo.Yaml.Node

/-!
YAML texts that consist of lines with a key and a value each. Such a text is cut into the
tokens of one block mapping, three tokens a line, and the mapping is built from them with
its pairs in the order of the lines.
-/

namespace PointsTo
namespace Yaml

/-- Characters that mean nothing to the format, wherever they stand. -/
def isOrdinary (c : Char) : Bool :=
  c.isAlphanum || c = '_' || (0x80 ≤ c.toNat && isAllowed c && !isBreak c && c ≠ '\ufeff')

section Ordinary

variable {c d : Char}

theorem ne_of_isOrdinary (h : isOrdinary c = true) (hd : isOrdinary d = false) : c ≠ d := by
  rintro rfl
  simp [h] at hd

theorem not_mem_of_isOrdinary (h : isOrdinary c = true) (marks : List Char)
    (hmarks : marks.all (fun d => !isOrdinary d) = true) : c ∉ marks := by
  intro hc
  simpa [h] using List.all_eq_true.1 hmarks c hc

theorem isBreak_eq_false (h : isOrdinary c = true) : isBreak c = false := by
  have hnot := not_mem_of_isOrdinary h ['\n', '\r', '\u0085', '\u2028', '\u2029'] (by decide)
  simpa [isBreak, and_assoc] using hnot

theorem isSpacing_eq_false (h : isOrdinary c = true) : isSpacing c = false := by
  have hnot := not_mem_of_isOrdinary h [' ', '\t'] (by decide)
  simpa [isSpacing] using hnot

theorem endsWord_eq_false (h : isOrdinary c = true) : endsWord (some c) = false := by
  rw [endsWord, isSpacing_eq_false h, isBreak_eq_false h]
  rfl

theorem isAllowed_of_isOrdinary (h : isOrdinary c = true) : isAllowed c = true := by
  unfold isOrdinary at h
  simp only [Bool.or_eq_true, Bool.and_eq_true] at h
  rcases h with (h | h) | h
  · have hrange : ' ' ≤ c ∧ c ≤ '~' := by
      change ((decide (65 ≤ c.val ∧ c.val ≤ 90) || (decide (97 ≤ c.val) && decide (c.val ≤ 122))) ||
        (decide (48 ≤ c.val) && decide (c.val ≤ 57))) = true at h
      simp only [Bool.or_eq_true, Bool.and_eq_true, decide_eq_true_eq,
        UInt32.le_iff_toNat_le] at h
      simp only [Char.le_def, UInt32.le_iff_toNat_le]
      change ((65 ≤ c.toNat ∧ c.toNat ≤ 90) ∨ (97 ≤ c.toNat ∧ c.toNat ≤ 122)) ∨
        (48 ≤ c.toNat ∧ c.toNat ≤ 57) at h
      change 32 ≤ c.toNat ∧ c.toNat ≤ 126
      omega
    simp [isAllowed, hrange]
  · simp at h
    subst h
    decide
  · exact h.1.1.2

theorem isIndicator_eq_false (h : isOrdinary c = true) : Scanner.isIndicator c = false := by
  rw [Scanner.isIndicator, ← Bool.not_eq_true, List.contains_iff_mem]
  exact not_mem_of_isOrdinary h _ (by decide)

end Ordinary

structure Word where
  chars : List Char
  nonempty : chars ≠ []
  ordinary : ∀ c ∈ chars, isOrdinary c = true

namespace Word

def text (w : Word) : String :=
  String.ofList w.chars

def ofText (s : String) (h : (s.toList ≠ [] && s.toList.all isOrdinary) = true) : Word where
  chars := s.toList
  nonempty := by simp_all
  ordinary := by simp_all

@[simp] theorem text_ofText (s : String) (h : (s.toList ≠ [] && s.toList.all isOrdinary) = true) :
    (ofText s h).text = s :=
  String.ofList_toList

theorem exists_cons (w : Word) (after : List Char) :
    ∃ c cs, w.chars ++ after = c :: cs ∧ isOrdinary c = true := by
  obtain ⟨c, cs, hw⟩ := List.exists_cons_of_ne_nil w.nonempty
  exact ⟨c, cs ++ after, by rw [hw]; rfl, w.ordinary c (by simp [hw])⟩

end Word

section Plain

variable {w : Word} {c : Cursor} {after : List Char} {indent : Nat}

theorem plainWord_append {cs : List Char} (hcs : ∀ c ∈ cs, isOrdinary c = true)
    (hafter : plainWord false after = .ok []) : plainWord false (cs ++ after) = .ok cs := by
  induction cs with
  | nil => exact hafter
  | cons c cs ih =>
      have hc := hcs c List.mem_cons_self
      have hcolon := ne_of_isOrdinary hc (d := ':') (by decide)
      rw [List.cons_append, plainWord, ih fun d hd => hcs d (List.mem_cons_of_mem _ hd)]
      simp [isSpacing_eq_false hc, isBreak_eq_false hc, hcolon]
      rfl

theorem atDocumentMark_eq_false {ch : Char} {cs : List Char} (h : c.rest = ch :: cs)
    (hch : isOrdinary ch = true) : c.atDocumentMark = false := by
  have hnot := not_mem_of_isOrdinary hch ['-', '.'] (by decide)
  simp at hnot
  simp [Cursor.atDocumentMark, h, List.isPrefixOf, Ne.symm hnot.1, Ne.symm hnot.2]

theorem peek_ne_of_isOrdinary {ch d : Char} {cs : List Char} (h : c.rest = ch :: cs)
    (hch : isOrdinary ch = true) (hd : isOrdinary d = false) : c.peek ≠ some d := by
  simpa [Cursor.peek, h] using ne_of_isOrdinary hch hd

/-- The first word of a plain text, and what is done behind it. -/
theorem plainWords_word {fuel : Nat} (h : c.rest = w.chars ++ after)
    (hafter : plainWord false after = .ok []) :
    plainWords false indent (fuel + 1) c Gap.none [] =
      if (c.skip w.chars.length).rest.isEmpty || !endsWord (c.skip w.chars.length).peek then
        .ok (w.chars, Gap.none, c.skip w.chars.length)
      else Gap.read indent (c.skip w.chars.length).rest.length (c.skip w.chars.length) Gap.none >>=
        fun (gap, c) =>
          if c.column < indent then .ok (w.chars, gap, c)
          else plainWords false indent fuel c gap w.chars := by
  obtain ⟨ch, cs, hcs, hch⟩ := w.exists_cons after
  have hmark := atDocumentMark_eq_false (h.trans hcs) hch
  have hcomment := peek_ne_of_isOrdinary (h.trans hcs) hch (d := '#') (by decide)
  have hword : plainWord false c.rest = .ok w.chars := by
    rw [h]
    exact plainWord_append w.ordinary hafter
  rw [plainWords, hmark, hword]
  simp [hcomment, w.nonempty, Gap.text, Gap.none, Bind.bind, Except.bind]

theorem Gap.read_of_isOrdinary {fuel : Nat} {g : Gap}
    (h : ∀ ch ∈ c.rest.head?, isOrdinary ch = true) : Gap.read indent fuel c g = .ok (g, c) := by
  cases fuel with
  | zero => rfl
  | succ fuel =>
      rw [Gap.read]
      cases hrest : c.rest with
      | nil => rfl
      | cons ch cs =>
          have hch := h ch (by rw [hrest]; rfl)
          simp [isSpacing_eq_false hch, isBreak_eq_false hch]

theorem rest_skip (h : c.rest = w.chars ++ after) : (c.skip w.chars.length).rest = after := by
  simp [Cursor.skip, h]

/-- A word with which a plain text ends. -/
theorem plain_word (h : c.rest = w.chars ++ after) (hafter : plainWord false after = .ok [])
    (hend : after = [] ∨ endsWord after.head? = false) :
    plain false indent c = .ok (w.text, false, c.skip w.chars.length) := by
  have hstop : ((c.skip w.chars.length).rest.isEmpty ||
      !endsWord (c.skip w.chars.length).peek) = true := by
    rw [Cursor.peek, rest_skip h, ← List.head?_eq_getElem?]
    rcases hend with rfl | hend
    · rfl
    · simp [hend]
  rw [plain, plainWords_word h hafter, if_pos hstop]
  rfl

/-- A word at the end of a line. The next line starts further out, so it is not part of
the plain text. -/
theorem plain_line {more : List Char} (h : c.rest = w.chars ++ '\n' :: more)
    (hmore : ∀ ch ∈ more.head?, isOrdinary ch = true) (hindent : 0 < indent) :
    plain false indent c = .ok (w.text, true,
      ⟨more, c.index + w.chars.length + 1, c.line + 1, 0⟩) := by
  have hrest := rest_skip h
  have hgap : Gap.read indent (more.length + 1) (c.skip w.chars.length) Gap.none =
      .ok (⟨[], true, ['\n'], []⟩, ⟨more, c.index + w.chars.length + 1, c.line + 1, 0⟩) := by
    have hskip : (c.skip w.chars.length).skipBreak =
        ⟨more, c.index + w.chars.length + 1, c.line + 1, 0⟩ := by
      rw [Cursor.skipBreak, hrest]
      rfl
    have htext : (c.skip w.chars.length).breakText = ['\n'] := by
      rw [Cursor.breakText, hrest]
      rfl
    rw [Gap.read, hrest, hskip, htext]
    exact Gap.read_of_isOrdinary hmore
  have hgo : ((c.skip w.chars.length).rest.isEmpty ||
      !endsWord (c.skip w.chars.length).peek) = false := by
    rw [Cursor.peek, hrest]
    rfl
  rw [plain, plainWords_word h rfl, hgo, if_neg Bool.false_ne_true, hrest, List.length_cons, hgap]
  simp [Bind.bind, Except.bind, hindent, Word.text]

end Plain

namespace Scanner

variable {s : Scanner} {ch : Char} {cs : List Char}

theorem toNextToken_self {fuel : Nat} (h : s.cursor.rest = ch :: cs) (hspacing : isSpacing ch = false)
    (hbreak : isBreak ch = false) (hmark : ch ∉ ['#', '\ufeff']) :
    toNextToken (fuel + 1) s = s := by
  have hnot : ch ≠ '#' ∧ ch ≠ '\ufeff' := by simpa using hmark
  have hblank : ch ≠ ' ' ∧ ch ≠ '\t' := by simpa [isSpacing] using hspacing
  have hstay : toNextToken (fuel + 1) s = { s with cursor := { s.cursor with rest := ch :: cs } } := by
    simp [toNextToken, Cursor.peek, Cursor.skipWhile, Cursor.skip, h, hnot.1, hnot.2, hblank.1,
      hblank.2, hbreak]
  rw [hstay, ← h]

/-- A blank before something else is passed over. -/
theorem toNextToken_blank {fuel : Nat} (h : s.cursor.rest = ' ' :: ch :: cs)
    (hch : isOrdinary ch = true) :
    toNextToken (fuel + 1) s = { s with cursor := s.cursor.skip 1 } := by
  have hnot := not_mem_of_isOrdinary hch ['#', '\ufeff', ' ', '\t'] (by decide)
  simp only [List.mem_cons, List.not_mem_nil, or_false, not_or] at hnot
  simp [toNextToken, Cursor.peek, Cursor.skipWhile, Cursor.skip, h, hnot, isBreak_eq_false hch]

theorem closeBlocks_self {column : Nat} (h : s.indents = [] ∨ s.indents = [0]) :
    s.closeBlocks column = s := by
  have hnone : s.indents.takeWhile (column < ·) = [] := by
    rcases h with h | h <;> simp [h]
  simp [closeBlocks, hnone]

theorem fetch_ordinary (h : s.cursor.rest = ch :: cs) (hch : isOrdinary ch = true) :
    s.fetch = s.plainScalar := by
  have hmarks := not_mem_of_isOrdinary hch
    ['%', '[', ']', '\x7b', '\x7d', ',', '-', '?', ':', '*', '&', '!', '|', '>', '\'', '"'] (by decide)
  simp only [List.mem_cons, List.not_mem_nil, or_false, not_or] at hmarks
  have hstarts : s.startsPlain ch cs.head? = true := by
    simp [startsPlain, endsWord_eq_false hch, isIndicator_eq_false hch]
  simp [fetch, h, atDocumentMark_eq_false h hch, hmarks, hstarts]

theorem plainScalar_of_plain {text : String} {broken : Bool} {c : Cursor} (hkey : s.keyAllowed = false)
    (hflow : s.outer = [])
    (h : plain false ((s.indents.head?.map (· + 1)).getD 0) s.cursor = .ok (text, broken, c)) :
    s.plainScalar = .ok ({ s with cursor := c, keyAllowed := broken }.emit (.scalar text .plain)) := by
  simp [plainScalar, saveKey, hkey, inFlow, hflow, h, Bind.bind, Except.bind]

theorem run_succ {s' : Scanner} {fuel : Nat} (h : s.finished = false) (hstep : s.step = .ok s') :
    run (fuel + 1) s = run fuel s' := by
  rw [run, h, if_neg Bool.false_ne_true, hstep]
  rfl

theorem run_error {e : Error} {fuel : Nat} (h : s.finished = false) (hstep : s.step = .error e) :
    run (fuel + 1) s = .error e := by
  rw [run, h, if_neg Bool.false_ne_true, hstep]
  rfl

def atLine (cs : List Char) (index line : Nat) (tokens : List Token) (indents : List Nat) : Scanner :=
  ⟨⟨cs, index, line, 0⟩, tokens, indents, none, [], true, false⟩

def behindKey (key : Word) (cs : List Char) (index line : Nat) (tokens : List Token)
    (indents : List Nat) : Scanner :=
  ⟨⟨cs, index + key.chars.length, line, key.chars.length⟩, tokens ++ [.scalar key.text .plain],
    indents, some ⟨tokens.length, indents.head? = some 0, index, line, 0⟩, [], false, false⟩

def behindColon (cs : List Char) (index line column : Nat) (tokens : List Token) : Scanner :=
  ⟨⟨cs, index, line, column⟩, tokens, [0], none, [], false, false⟩

def opening (indents : List Nat) : List Token :=
  if indents = [] then [.blockMapping] else []

section Line

variable {key value : Word} {more : List Char} {index line : Nat} {tokens : List Token}
  {indents : List Nat}

theorem step_key (h : indents = [] ∨ indents = [0]) :
    (atLine (key.chars ++ ':' :: ' ' :: more) index line tokens indents).step =
      .ok (behindKey key (':' :: ' ' :: more) index line tokens indents) := by
  obtain ⟨ch, cs, hcs, hch⟩ := key.exists_cons (':' :: ' ' :: more)
  have hmark := not_mem_of_isOrdinary hch ['#', '\ufeff'] (by decide)
  rw [step, toNextToken_self hcs (isSpacing_eq_false hch) (isBreak_eq_false hch) hmark,
    closeBlocks_self h, fetch_ordinary hcs hch, plainScalar]
  have hsave : (atLine (key.chars ++ ':' :: ' ' :: more) index line tokens indents).saveKey =
      .ok { atLine (key.chars ++ ':' :: ' ' :: more) index line tokens indents with
        key := some ⟨tokens.length, indents.head? = some 0, index, line, 0⟩ } := by
    simp [saveKey, dropKey, atLine, inFlow, Bind.bind, Except.bind]
  have hplain : ∀ indent, plain false indent ⟨key.chars ++ ':' :: ' ' :: more, index, line, 0⟩ =
      .ok (key.text, false, ⟨':' :: ' ' :: more, index + key.chars.length, line,
        key.chars.length⟩) := by
    intro indent
    rw [plain_word rfl rfl (Or.inr rfl)]
    simp [Cursor.skip]
  rw [hsave]
  simp only [Bind.bind, Except.bind, atLine, inFlow, List.isEmpty_nil, Bool.not_true, hplain]
  rfl

theorem fetch_colon :
    (behindKey key (':' :: ' ' :: more) index line tokens indents).fetch =
      (behindKey key (':' :: ' ' :: more) index line tokens indents).value := by
  have hcolumn : key.chars.length ≠ 0 := by simp [key.nonempty]
  simp [fetch, behindKey, Cursor.atDocumentMark, hcolumn, inFlow, endsWord, isSpacing]

theorem step_colon (h : indents = [] ∨ indents = [0]) (hlength : key.chars.length ≤ keyLimit) :
    (behindKey key (':' :: ' ' :: more) index line tokens indents).step =
      .ok (behindColon (' ' :: more) (index + key.chars.length + 1) line (key.chars.length + 1)
        (tokens ++ opening indents ++ [.key, .scalar key.text .plain, .value])) := by
  rw [step, toNextToken_self rfl rfl rfl (by decide), closeBlocks_self h]
  have hkey : (behindKey key (':' :: ' ' :: more) index line tokens indents).currentKey =
      .ok (some ⟨tokens.length, indents.head? = some 0, index, line, 0⟩) := by
    simp [currentKey, behindKey, Nat.not_lt.2 hlength]
  rw [fetch_colon, value, hkey]
  rcases h with rfl | rfl
  all_goals simp [Bind.bind, Except.bind, behindKey, behindColon, openBlock, inFlow, allowKey, skip, emit,
    opening, Cursor.skip, insertIdx_length]

theorem step_value {column : Nat} {c : Cursor} {broken : Bool}
    (hplain : plain false 1 ⟨value.chars ++ more, index + 1, line, column + 1⟩ =
      .ok (value.text, broken, c)) :
    (behindColon (' ' :: (value.chars ++ more)) index line column tokens).step =
      .ok ⟨c, tokens ++ [.scalar value.text .plain], [0], none, [], broken, false⟩ := by
  obtain ⟨ch, cs, hcs, hch⟩ := value.exists_cons more
  let behindBlank := behindColon (value.chars ++ more) (index + 1) line (column + 1) tokens
  have hblank : ∀ fuel, toNextToken (fuel + 1)
      (behindColon (' ' :: (value.chars ++ more)) index line column tokens) = behindBlank := by
    intro fuel
    rw [toNextToken_blank (congrArg _ hcs) hch]
    rfl
  have hfetch : behindBlank.fetch = behindBlank.plainScalar := fetch_ordinary hcs hch
  rw [step, hblank, closeBlocks_self (Or.inr rfl), hfetch]
  exact plainScalar_of_plain rfl rfl hplain

/-- A key that is too long is none, so the colon behind it is out of place. -/
theorem step_longKey (hlong : keyLimit < key.chars.length) :
    (behindKey key (':' :: ' ' :: more) index line tokens []).step = .error .valuePlace := by
  have hkey : (behindKey key (':' :: ' ' :: more) index line tokens []).currentKey = .ok none := by
    simp [currentKey, behindKey, hlong]
  rw [step, toNextToken_self rfl rfl rfl (by decide), closeBlocks_self (Or.inl rfl),
    fetch_colon, value, hkey]
  rfl

/-- The three tokens of a line, the last of them up to where its plain text ends. -/
theorem run_line {fuel : Nat} {c : Cursor} {broken : Bool} (h : indents = [] ∨ indents = [0])
    (hlength : key.chars.length ≤ keyLimit)
    (hplain : plain false 1 ⟨value.chars ++ more, index + key.chars.length + 1 + 1, line,
      key.chars.length + 1 + 1⟩ = .ok (value.text, broken, c)) :
    run (fuel + 3) (atLine (key.chars ++ ':' :: ' ' :: (value.chars ++ more)) index line tokens
        indents) =
      run fuel ⟨c, tokens ++ (opening indents ++
        [.key, .scalar key.text .plain, .value, .scalar value.text .plain]), [0], none, [], broken,
        false⟩ := by
  rw [run_succ rfl (step_key h), run_succ rfl (step_colon h hlength), run_succ rfl (step_value hplain)]
  simp

end Line

theorem run_finished {fuel : Nat} (h : s.finished = true) : run fuel s = .ok s := by
  cases fuel with
  | zero => rfl
  | succ fuel => simp [run, h]

/-- Where nothing is left, an open block is closed. -/
theorem run_end (fuel : Nat) {c : Cursor} {tokens : List Token} {indents : List Nat} {allowed : Bool}
    (hrest : c.rest = []) (h : indents = [] ∨ indents = [0]) :
    ∃ s', run (fuel + 1) ⟨c, tokens, indents, none, [], allowed, false⟩ = .ok s' ∧
      s'.tokens = tokens ++ (indents.map fun _ => .blockEnd) ++ [.streamEnd] := by
  let s : Scanner := ⟨c, tokens, indents, none, [], allowed, false⟩
  have hstay : toNextToken 1 s = s := by
    obtain ⟨rest, index, line, column⟩ := c
    subst hrest
    simp [toNextToken, Cursor.peek, Cursor.skipWhile, Cursor.skip, s]
  have hstep : s.step = s.streamEnd := by
    rw [step, hrest, List.length_nil, hstay, closeBlocks_self h, fetch, hrest]
  refine ⟨_, (run_succ rfl hstep).trans (run_finished rfl), ?_⟩
  rfl

end Scanner

structure Line where
  key : Word
  value : Word
  fits : key.chars.length ≤ Scanner.keyLimit

namespace Line

def chars (l : Line) : List Char :=
  l.key.chars ++ ':' :: ' ' :: l.value.chars

def tokens (l : Line) : List Token :=
  [.key, .scalar l.key.text .plain, .value, .scalar l.value.text .plain]

def pair (l : Line) : Node × Node :=
  (.scalar ⟨l.key.text, .plain, none⟩, .scalar ⟨l.value.text, .plain, none⟩)

end Line

def linesText (final : Bool) : List Line → List Char
  | [] => []
  | l :: ls => l.chars ++ if ls.isEmpty && !final then [] else '\n' :: linesText final ls

theorem linesText_cons (final : Bool) (l : Line) (ls : List Line) :
    linesText final (l :: ls) = l.key.chars ++ ':' :: ' ' :: (l.value.chars ++
      if ls.isEmpty && !final then [] else '\n' :: linesText final ls) := by
  simp [linesText, Line.chars]

theorem isOrdinary_of_head_linesText {final : Bool} {ls : List Line} {ch : Char}
    (h : ch ∈ (linesText final ls).head?) : isOrdinary ch = true := by
  cases ls with
  | nil => cases h
  | cons l ls =>
      obtain ⟨c, cs, hcs, hc⟩ := l.key.exists_cons (':' :: ' ' :: (l.value.chars ++
        if ls.isEmpty && !final then [] else '\n' :: linesText final ls))
      rw [linesText_cons, hcs] at h
      cases h
      exact hc

def blockTokens (indents : List Nat) : List Line → List Token
  | [] => indents.map fun _ => .blockEnd
  | l :: ls => Scanner.opening indents ++ l.tokens ++ blockTokens [0] ls

theorem run_linesText (final : Bool) (index line : Nat) (before : List Token) {ls : List Line}
    {fuel : Nat} {indents : List Nat} (h : indents = [] ∨ indents = [0]) (hfuel : 3 * ls.length < fuel) :
    ∃ s', Scanner.run fuel (.atLine (linesText final ls) index line before indents) = .ok s' ∧
      s'.tokens = before ++ blockTokens indents ls ++ [.streamEnd] := by
  induction ls generalizing fuel index line before indents with
  | nil =>
      obtain ⟨fuel, rfl⟩ := Nat.exists_eq_add_of_lt hfuel
      exact Scanner.run_end _ rfl h
  | cons l ls ih =>
      obtain ⟨fuel, rfl⟩ : ∃ n, fuel = n + 1 + 3 := ⟨fuel - 4, by simp at hfuel; omega⟩
      rw [linesText_cons]
      split
      next hlast =>
        -- The text ends with this line.
        obtain ⟨hls, -⟩ : ls = [] ∧ final = false := by simpa using hlast
        rw [Scanner.run_line h l.fits (plain_word rfl rfl (Or.inl rfl))]
        obtain ⟨s', hrun, htokens⟩ := Scanner.run_end fuel
          (rest_skip (w := l.value) (c := ⟨_, _, _, _⟩) rfl) (Or.inr rfl)
        exact ⟨s', hrun, by simp [htokens, hls, blockTokens, Line.tokens]⟩
      next =>
        have hfuel' : 3 * ls.length < fuel + 1 := by simp at hfuel; omega
        rw [Scanner.run_line h l.fits
          (plain_line rfl (fun ch => isOrdinary_of_head_linesText) Nat.one_pos)]
        obtain ⟨s', hrun, htokens⟩ := ih _ _ _ (Or.inr rfl) hfuel'
        exact ⟨s', hrun, by simp [htokens, blockTokens, Line.tokens]⟩

theorem isAllowed_of_mem_linesText {final : Bool} {ls : List Line} {ch : Char}
    (h : ch ∈ linesText final ls) : isAllowed ch = true := by
  induction ls with
  | nil => cases h
  | cons l ls ih =>
      rw [linesText_cons] at h
      simp only [List.mem_append, List.mem_cons] at h
      rcases h with h | rfl | rfl | h | h
      · exact isAllowed_of_isOrdinary (l.key.ordinary ch h)
      · decide
      · decide
      · exact isAllowed_of_isOrdinary (l.value.ordinary ch h)
      · split at h
        next => cases h
        next =>
          rcases List.mem_cons.1 h with rfl | h
          · decide
          · exact ih h

theorem three_mul_length_le (final : Bool) (ls : List Line) :
    3 * ls.length ≤ (linesText final ls).length := by
  induction ls with
  | nil => exact Nat.le_refl 0
  | cons l ls ih =>
      have hkey : 0 < l.key.chars.length := List.length_pos_iff.2 l.key.nonempty
      rw [linesText_cons]
      split
      next hlast =>
        obtain ⟨hls, -⟩ : ls = [] ∧ final = false := by simpa using hlast
        simp [hls]
        omega
      next =>
        simp
        omega

theorem tokens_eq_run {text : List Char} (hallowed : text.all isAllowed = true)
    (hmark : text.head? ≠ some '\ufeff') :
    tokens text = (Scanner.run (text.length + 1) (.start text)).map Scanner.tokens := by
  rw [tokens, hallowed, if_neg (by decide), if_neg hmark]
  cases hrun : Scanner.run (text.length + 1) (.start text) <;>
    simp [hrun, Bind.bind, Except.bind, Except.map]

theorem tokens_linesText (final : Bool) (ls : List Line) :
    tokens (linesText final ls) = .ok (blockTokens [] ls ++ [.streamEnd]) := by
  have hallowed : (linesText final ls).all isAllowed = true :=
    List.all_eq_true.2 fun _ => isAllowed_of_mem_linesText
  have hmark : (linesText final ls).head? ≠ some '\ufeff' := by
    intro h
    exact absurd (isOrdinary_of_head_linesText h) (by decide)
  have hfuel := Nat.lt_succ_of_le (three_mul_length_le final ls)
  obtain ⟨s', hrun, htokens⟩ := run_linesText final 0 0 [] (Or.inl rfl) hfuel
  rw [tokens_eq_run hallowed hmark]
  exact (congrArg (Except.map Scanner.tokens) hrun).trans (congrArg Except.ok htokens)

section Build

variable {handles : List (String × String)} {fuel : Nat} {rest : List Token}
  {anchors : List (String × Option Node)}

theorem node_scalar {inBlock bare : Bool} {text : String} {style : Style} :
    node handles inBlock bare (fuel + 1) ⟨.scalar text style :: rest, anchors⟩ =
      .ok (.scalar ⟨text, style, none⟩, ⟨rest, anchors⟩) := by
  rw [node]
  rfl

/-- The pair of a line comes before those of the lines behind it. -/
theorem blockPairs_line {l : Line} :
    blockPairs handles (fuel + 2) ⟨l.tokens ++ rest, anchors⟩ =
      (blockPairs handles (fuel + 1) ⟨rest, anchors⟩).map fun (pairs, s) => (l.pair :: pairs, s) := by
  have hsees : ∀ text, [Token.key, .value, .blockEnd].contains (.scalar text .plain) = false := by
    intro text
    rfl
  rw [blockPairs]
  simp only [Line.tokens, Bind.bind, StateT.bind, Except.bind, Build.accept, Build.sees,
    List.cons_append, List.nil_append, List.head?_cons, List.drop_succ_cons, List.drop_zero,
    Option.any_some, if_pos, hsees, Bool.false_eq_true, if_false, node_scalar]
  cases blockPairs handles (fuel + 1) ⟨rest, anchors⟩ with
  | error e => rfl
  | ok a => rfl

theorem blockPairs_lines (ls : List Line) (hfuel : ls.length < fuel) :
    blockPairs handles fuel ⟨blockTokens [0] ls ++ rest, anchors⟩ =
      .ok (ls.map Line.pair, ⟨rest, anchors⟩) := by
  induction ls generalizing fuel with
  | nil =>
      obtain ⟨fuel, rfl⟩ := Nat.exists_eq_add_of_lt hfuel
      rw [blockPairs]
      rfl
  | cons l ls ih =>
      obtain ⟨fuel, rfl⟩ : ∃ n, fuel = n + 2 := ⟨fuel - 2, by simp at hfuel; omega⟩
      have hlength : ls.length < fuel + 1 := by simpa using hfuel
      have hpairs := ih hlength
      have htokens : blockTokens [0] (l :: ls) ++ rest =
          l.tokens ++ (blockTokens [0] ls ++ rest) := by
        simp [blockTokens, Scanner.opening]
      rw [htokens, blockPairs_line, hpairs]
      rfl

theorem length_le_blockTokens (ls : List Line) : ls.length ≤ (blockTokens [0] ls).length := by
  induction ls with
  | nil => exact Nat.zero_le _
  | cons l ls ih =>
      simp [blockTokens, Scanner.opening, Line.tokens]
      omega

theorem node_blockMapping :
    node handles true false (fuel + 1) ⟨.blockMapping :: rest, anchors⟩ =
      (blockPairs handles fuel ⟨rest, anchors⟩).map fun (pairs, s) => (.mapping pairs, s) := by
  rw [node]
  simp only [Bind.bind, StateT.bind, Except.bind, Build.peek, Build.next, properties, named,
    List.head?_cons, List.drop_succ_cons, List.drop_zero, if_true]
  cases blockPairs handles fuel ⟨rest, anchors⟩ with
  | error e => rfl
  | ok a => rfl

theorem wholeNode_lines (ls : List Line) :
    wholeNode handles (.blockMapping :: (blockTokens [0] ls ++ rest)) =
      .ok (.mapping (ls.map Line.pair), rest) := by
  have hfuel : ls.length < 4 * (.blockMapping :: (blockTokens [0] ls ++ rest)).length + 3 := by
    have hle := length_le_blockTokens ls
    rw [List.length_cons, List.length_append]
    omega
  rw [wholeNode, StateT.run, node_blockMapping, blockPairs_lines ls hfuel]
  rfl

end Build

def linesNode (ls : List Line) : Option Node :=
  if ls.isEmpty then none else some (.mapping (ls.map Line.pair))

theorem document?_lines (ls : List Line) :
    document? (blockTokens [] ls ++ [.streamEnd]) = .ok (linesNode ls, [.streamEnd]) := by
  cases ls with
  | nil => rfl
  | cons l ls =>
      have htokens : blockTokens [] (l :: ls) ++ [Token.streamEnd] =
          .blockMapping :: (blockTokens [0] (l :: ls) ++ [Token.streamEnd]) := by
        simp [blockTokens, Scanner.opening]
      have hdocument : ∀ rest, document? (.blockMapping :: rest) =
          (wholeNode commonHandles (.blockMapping :: rest)).map fun x => (some x.1, x.2) := by
        intro rest
        cases hnode : wholeNode commonHandles (.blockMapping :: rest) <;>
          simp [document?, hnode, Bind.bind, Except.bind, Except.map]
      rw [htokens, hdocument, wholeNode_lines]
      rfl

/-- A text of lines, whatever their number and their words, is a document. -/
theorem parse_linesText (final : Bool) (ls : List Line) :
    parse (String.ofList (linesText final ls)) = .ok (linesNode ls) := by
  rw [parse, String.toList_ofList, tokens_linesText]
  simp [Bind.bind, Except.bind, document?_lines]

/-- A text whose first key is too long is no document. -/
theorem parse_longKey {key : Word} (more : List Char) (hlong : Scanner.keyLimit < key.chars.length)
    (hmore : more.all isAllowed = true) :
    parse (String.ofList (key.chars ++ ':' :: ' ' :: more)) = .error .valuePlace := by
  have hallowed : (key.chars ++ ':' :: ' ' :: more).all isAllowed = true := by
    have hkey : key.chars.all isAllowed = true :=
      List.all_eq_true.2 fun c hc => isAllowed_of_isOrdinary (key.ordinary c hc)
    rw [List.all_append, hkey, Bool.true_and]
    exact hmore
  have hmark : (key.chars ++ ':' :: ' ' :: more).head? ≠ some '\ufeff' := by
    obtain ⟨c, cs, hcs, hc⟩ := key.exists_cons (':' :: ' ' :: more)
    simpa [hcs] using ne_of_isOrdinary hc (by decide)
  have hrun : Scanner.run ((key.chars ++ ':' :: ' ' :: more).length + 1)
      (.start (key.chars ++ ':' :: ' ' :: more)) = .error .valuePlace := by
    have hlength : (key.chars ++ ':' :: ' ' :: more).length + 1 =
        key.chars.length + more.length + 1 + 1 + 1 := by
      simp
      omega
    rw [hlength]
    exact (Scanner.run_succ rfl (Scanner.step_key (Or.inl rfl))).trans
      (Scanner.run_error rfl (Scanner.step_longKey hlong))
  rw [parse, String.toList_ofList, tokens_eq_run hallowed hmark, hrun]
  rfl

end Yaml
end PointsTo
