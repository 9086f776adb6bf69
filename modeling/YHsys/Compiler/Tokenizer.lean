import Mathlib

/-!
# The tokenizer

`tokenize` (`frontend/lexer/tokenizer.py`) on the characters of a source text. Source positions
are left out, as in the syntax tree. Python's character classes know all of Unicode; a
`CharClass` is any of that kind, and only its ASCII part is fixed.

A text is a `Rendering` of tokens if they are written one after the other with gaps between
them; the tokenizer reads the tokens back (`tokenize_rendering`).
-/

namespace YHsys.Compiler

open String (ofList ofList_toList)
open List (append_assoc cons_append dropWhile_suffix flatMap_cons mem_cons not_mem_nil)

inductive TokenKind where
  | keyword
  | ident
  | int
  | string
  | symbol
  | eof
deriving DecidableEq, Repr

structure Token where
  kind : TokenKind
  value : String
deriving DecidableEq, Repr

/-- The `message` of a `LexError`. -/
structure LexError where
  message : String
deriving DecidableEq, Repr

/-- `str.isdigit`, `str.isalpha` and `str.isalnum` of a single character. -/
structure CharClass where
  isdigit : Char → Bool
  isalpha : Char → Bool
  isalnum : Char → Bool
  digit_ascii : ∀ c, c.toNat < 128 → isdigit c = c.isDigit
  alpha_ascii : ∀ c, c.toNat < 128 → isalpha c = c.isAlpha
  alnum_ascii : ∀ c, c.toNat < 128 → isalnum c = c.isAlphanum
  alnum_of_alpha : ∀ c, isalpha c = true → isalnum c = true

def CharClass.ascii : CharClass where
  isdigit := Char.isDigit
  isalpha := Char.isAlpha
  isalnum := Char.isAlphanum
  digit_ascii _ _ := rfl
  alpha_ascii _ _ := rfl
  alnum_ascii _ _ := rfl
  alnum_of_alpha c h := by simp [Char.isAlphanum, h]

def keywords : List String := ["int", "main", "if", "else", "while", "return"]

def threeCharOps : List String := []

def twoCharOps : List String :=
  ["==", "!=", "<=", ">=", "&&", "||", "+=", "-=", "*=", "/=", "%=", "++", "--", "<<", ">>"]

def oneCharSymbols : List Char := "()\x7b\x7d[];=,+-*/%<>!&|^~".toList

/-! ## Strings -/

/-- What stands behind a backslash, and what it means. -/
def escapes : List (Char × Char) :=
  [('n', '\n'), ('t', '\t'), ('r', '\r'), ('\\', '\\'), ('"', '"')]

/-- `_decode_string_literal` (`tokenizer.py:34`). -/
def decodeStringLiteral : List Char → Except LexError (List Char)
  | [] => .ok []
  | ['\\'] => .error ⟨"invalid escape at end of string literal"⟩
  | '\\' :: esc :: body =>
    match escapes.lookup esc with
    | some ch => (decodeStringLiteral body).map (ch :: ·)
    | none => .error ⟨"unsupported escape '\\" ++ esc.toString ++ "'"⟩
  | ch :: body => (decodeStringLiteral body).map (ch :: ·)

/-- The loop over a string literal: its body up to the closing quote, and what is left. -/
def scanString (escaped : Bool) : List Char → Except LexError (List Char × List Char)
  | [] => .error ⟨"unterminated string literal"⟩
  | c :: rest =>
    if c = '\n' ∧ escaped = false then .error ⟨"unterminated string literal"⟩
    else if escaped then (scanString false rest).map (·.map (c :: ·) id)
    else if c = '\\' then (scanString true rest).map (·.map (c :: ·) id)
    else if c = '"' then .ok ([], rest)
    else (scanString false rest).map (·.map (c :: ·) id)

theorem scanString_length (escaped : Bool) (source : List Char) {raw tail : List Char}
    (h : scanString escaped source = .ok (raw, tail)) : tail.length ≤ source.length := by
  -- the closing quote and what stands before it are dropped
  have hstep : ∀ {e : Bool} {c : Char} {rest raw tail : List Char},
      (∀ {raw tail : List Char}, scanString e rest = .ok (raw, tail) → tail.length ≤ rest.length) →
      (scanString e rest).map (·.map (c :: ·) id) = .ok (raw, tail) →
      tail.length ≤ (c :: rest).length := by
    intro e c rest raw tail ih hmap
    cases hr : scanString e rest with
    | error err =>
      rw [hr] at hmap
      cases hmap
    | ok r =>
      rw [hr] at hmap
      cases hmap
      exact Nat.le_succ_of_le (ih hr)
  induction source generalizing escaped raw tail with
  | nil => cases h
  | cons c rest ih =>
    unfold scanString at h
    split_ifs at h
    · exact hstep (ih false) h
    · exact hstep (ih true) h
    · cases h
      exact Nat.le_succ _
    · exact hstep (ih false) h

/-! ## The loop -/

/-- A character of an identifier, but for its first one. -/
def inWord (cls : CharClass) (c : Char) : Bool := cls.isalnum c || c = '_'

def wordKind (ident : String) : TokenKind := if ident ∈ keywords then .keyword else .ident

/-- The part of the loop's body that reads symbols, numbers and words. -/
def lexWord (cls : CharClass) (ch : Char) (rest : List Char) :
    Except LexError (Option Token × List Char) :=
  let source := ch :: rest
  let three := String.ofList (source.take 3)
  let two := String.ofList (source.take 2)
  if three ∈ threeCharOps then .ok (some ⟨.symbol, three⟩, source.drop 3)
  else if two ∈ twoCharOps then .ok (some ⟨.symbol, two⟩, source.drop 2)
  else if ch ∈ oneCharSymbols then .ok (some ⟨.symbol, String.ofList [ch]⟩, rest)
  else if cls.isdigit ch then
    .ok (some ⟨.int, String.ofList (source.takeWhile cls.isdigit)⟩, source.dropWhile cls.isdigit)
  else if cls.isalpha ch || ch = '_' then
    let ident := String.ofList (source.takeWhile (inWord cls))
    .ok (some ⟨wordKind ident, ident⟩, source.dropWhile (inWord cls))
  else .error ⟨"unexpected character '" ++ ch.toString ++ "'"⟩

/-- The body of the loop of `tokenize` (`tokenizer.py:73`): the token that is appended, if any,
and what is left. -/
def lexStep (cls : CharClass) (ch : Char) (rest : List Char) :
    Except LexError (Option Token × List Char) :=
  if ch ∈ [' ', '\t', '\r'] then .ok (none, rest)
  else if ch = '\n' then .ok (none, rest)
  else if ch = '/' ∧ rest.head? = some '/' then .ok (none, rest.dropWhile (· ≠ '\n'))
  else if ch = '#' then .ok (none, rest.dropWhile (· ≠ '\n'))
  else if ch = '"' then do
    let (raw, tail) ← scanString false rest
    let value ← decodeStringLiteral raw
    .ok (some ⟨.string, String.ofList value⟩, tail)
  else lexWord cls ch rest

variable {cls : CharClass} {ch : Char} {rest tail : List Char} {tok : Option Token}

theorem lexWord_length (h : lexWord cls ch rest = .ok (tok, tail)) :
    tail.length ≤ rest.length := by
  unfold lexWord at h
  simp only at h
  split_ifs at h with h3 h2 h1 hd ha
  · cases h3
  · cases h
    simp
  · cases h
    exact le_rfl
  · cases h
    rw [List.dropWhile_cons_of_pos hd]
    exact (dropWhile_suffix _).length_le
  · cases h
    have hin : inWord cls ch = true := by
      rcases Bool.or_eq_true_iff.mp ha with ha | ha
      · rw [inWord, cls.alnum_of_alpha ch ha, Bool.true_or]
      · rw [inWord, ha, Bool.or_true]
    rw [List.dropWhile_cons_of_pos hin]
    exact (dropWhile_suffix _).length_le

theorem lexStep_length (h : lexStep cls ch rest = .ok (tok, tail)) :
    tail.length ≤ rest.length := by
  unfold lexStep at h
  split_ifs at h
  · cases h
    exact le_rfl
  · cases h
    exact le_rfl
  · cases h
    exact (dropWhile_suffix _).length_le
  · cases h
    exact (dropWhile_suffix _).length_le
  · cases hs : scanString false rest with
    | error e =>
      rw [hs] at h
      cases h
    | ok r =>
      obtain ⟨raw, tail'⟩ := r
      have hle := scanString_length false rest hs
      rw [hs] at h
      cases hd : decodeStringLiteral raw with
      | error e => simp [bind, Except.bind, hd] at h
      | ok value =>
        simp only [bind, Except.bind, hd] at h
        cases h
        exact hle
  · exact lexWord_length h

/-- `tokenize` (`tokenizer.py:62`). -/
def tokenize (cls : CharClass) : List Char → Except LexError (List Token)
  | [] => .ok [⟨.eof, ""⟩]
  | ch :: rest =>
    match _h : lexStep cls ch rest with
    | .error e => .error e
    | .ok (tok, tail) => (tokenize cls tail).map (tok.toList ++ ·)
termination_by source => source.length
decreasing_by
  have := lexStep_length _h
  simp only [List.length_cons]
  omega

theorem tokenize_cons (h : lexStep cls ch rest = .ok (tok, tail)) :
    tokenize cls (ch :: rest) = (tokenize cls tail).map (tok.toList ++ ·) := by
  rw [tokenize]
  split
  · rename_i e he
    cases he.symm.trans h
  · rename_i tok' tail' he
    cases he.symm.trans h
    rfl

/-! ## Writing tokens -/

/-- A character of a string, as it is written in a literal. -/
def escape (c : Char) : List Char :=
  match escapes.find? (·.2 = c) with
  | some (esc, _) => ['\\', esc]
  | none => [c]

/-- A token as it is written. -/
def Token.write (tok : Token) : List Char :=
  match tok.kind with
  | .string => '"' :: (tok.value.toList.flatMap escape ++ ['"'])
  | _ => tok.value.toList

/-- The identifiers of the language: `[A-Za-z_][A-Za-z0-9_]*`. -/
def IsIdent (name : List Char) : Prop :=
  ∃ c cs, name = c :: cs ∧ (c.isAlpha = true ∨ c = '_') ∧
    ∀ d ∈ cs, d.isAlphanum = true ∨ d = '_'

/-- The tokens that can be written. -/
def Token.Writable (cls : CharClass) (tok : Token) : Prop :=
  match tok.kind with
  | .keyword => tok.value ∈ keywords
  | .ident => IsIdent tok.value.toList ∧ tok.value ∉ keywords
  | .int => tok.value ≠ "" ∧ ∀ c ∈ tok.value.toList, cls.isdigit c = true
  | .string => True
  | .symbol => tok.value ∈ twoCharOps ∨ ∃ c ∈ oneCharSymbols, tok.value = String.ofList [c]
  | .eof => False

def blanks : List Char := [' ', '\t', '\r', '\n']

/-- What may stand between tokens. A comment ends with its line. -/
inductive Piece where
  | blank (c : Char) (h : c ∈ blanks)
  | slashes (text : List Char) (h : '\n' ∉ text)
  | hash (text : List Char) (h : '\n' ∉ text)

def Piece.text : Piece → List Char
  | .blank c _ => [c]
  | .slashes text _ => '/' :: '/' :: (text ++ ['\n'])
  | .hash text _ => '#' :: (text ++ ['\n'])

/-- A mixture of blanks and comments that starts with a blank. -/
structure Gap where
  first : Char
  isBlank : first ∈ blanks
  rest : List Piece

def Gap.text (g : Gap) : List Char := g.first :: g.rest.flatMap Piece.text

/-- A text with these tokens in this order, and gaps between them. -/
inductive Rendering (cls : CharClass) : List Token → List Char → Prop
  | nil : Rendering cls [] []
  | last {tok : Token} : tok.Writable cls → Rendering cls [tok] tok.write
  | cons {tok : Token} {toks : List Token} {text : List Char} (gap : Gap) : tok.Writable cls →
      Rendering cls toks text → Rendering cls (tok :: toks) (tok.write ++ (gap.text ++ text))

/-! ## Gaps -/

theorem tokenize_skip (h : lexStep cls ch rest = .ok (none, tail)) :
    tokenize cls (ch :: rest) = tokenize cls tail := by
  rw [tokenize_cons h]
  cases tokenize cls tail <;> rfl

theorem tokenize_blank (h : ch ∈ blanks) : tokenize cls (ch :: rest) = tokenize cls rest := by
  apply tokenize_skip
  simp only [blanks, mem_cons, not_mem_nil, or_false] at h
  rcases h with rfl | rfl | rfl | rfl <;> rfl

theorem dropWhile_comment {text : List Char} (h : '\n' ∉ text) :
    (text ++ '\n' :: rest).dropWhile (· ≠ '\n') = '\n' :: rest := by
  induction text with
  | nil => rfl
  | cons c text ih =>
    rw [mem_cons, not_or] at h
    rw [cons_append, List.dropWhile_cons_of_pos (by simpa using Ne.symm h.1)]
    exact ih h.2

theorem tokenize_piece (p : Piece) : tokenize cls (p.text ++ rest) = tokenize cls rest := by
  cases p with
  | blank c h => exact tokenize_blank h
  | slashes text h =>
    have hstep : lexStep cls '/' ('/' :: (text ++ '\n' :: rest)) = .ok (none, '\n' :: rest) :=
      congrArg (fun tail => Except.ok (none, tail)) (dropWhile_comment h)
    simp only [Piece.text, cons_append, append_assoc, List.nil_append]
    rw [tokenize_skip hstep, tokenize_blank (by decide)]
  | hash text h =>
    have hstep : lexStep cls '#' (text ++ '\n' :: rest) = .ok (none, '\n' :: rest) :=
      congrArg (fun tail => Except.ok (none, tail)) (dropWhile_comment h)
    simp only [Piece.text, cons_append, append_assoc, List.nil_append]
    rw [tokenize_skip hstep, tokenize_blank (by decide)]

theorem tokenize_pieces (ps : List Piece) :
    tokenize cls (ps.flatMap Piece.text ++ rest) = tokenize cls rest := by
  induction ps with
  | nil => rfl
  | cons p ps ih => rw [flatMap_cons, append_assoc, tokenize_piece, ih]

/-! ## Tokens -/

/-- The end of a token: the end of the text, or a blank. -/
def Stops (rest : List Char) : Prop := ∀ c ∈ rest.head?, c ∈ blanks

/-- Characters that start something else than a symbol, a number or a word. -/
def specials : List Char := [' ', '\t', '\r', '\n', '#', '"']

theorem lexStep_word (hch : ch ∉ specials) (hslash : ch = '/' → rest.head? ≠ some '/') :
    lexStep cls ch rest = lexWord cls ch rest := by
  simp only [specials, mem_cons, not_mem_nil, or_false, not_or] at hch
  obtain ⟨h1, h2, h3, h4, h5, h6⟩ := hch
  unfold lexStep
  rw [if_neg (by simp [h1, h2, h3]), if_neg h4, if_neg fun h => hslash h.1 h.2, if_neg h5, if_neg h6]

theorem forall_mem_of_all {p : Char → Prop} [DecidablePred p] {l : List Char}
    (h : l.all (fun c => decide (p c)) = true) : ∀ c ∈ l, p c := by
  simpa using h

theorem specials_not_symbols : ∀ c ∈ oneCharSymbols, c ∉ specials :=
  forall_mem_of_all (by decide)

theorem two_char_op {op : String} (h : op ∈ twoCharOps) : ∃ a b, op.toList = [a, b] ∧
    a ∈ oneCharSymbols ∧ b ∉ blanks ∧ (a = '/' → b ≠ '/') := by
  simp only [twoCharOps, mem_cons, not_mem_nil, or_false] at h
  rcases h with rfl | rfl | rfl | rfl | rfl | rfl | rfl | rfl | rfl | rfl | rfl | rfl | rfl | rfl | rfl
  all_goals exact ⟨_, _, rfl, by decide, by decide, by decide⟩

theorem not_three (op : String) : op ∉ threeCharOps := not_mem_nil

variable (cls rest) in
theorem lexStep_two {op : String} (h : op ∈ twoCharOps) : ∃ a b, op.toList = [a, b] ∧
    lexStep cls a (b :: rest) = .ok (some ⟨.symbol, op⟩, rest) := by
  obtain ⟨a, b, hop, ha, -, hslash⟩ := two_char_op h
  have hofList : ofList [a, b] = op := by rw [← hop, ofList_toList]
  refine ⟨a, b, hop, ?_⟩
  rw [lexStep_word (specials_not_symbols a ha) (by simpa using hslash), ← hofList]
  unfold lexWord
  simp only
  rw [if_neg (not_three _), if_pos (show ofList ((a :: b :: rest).take 2) ∈ twoCharOps from hofList ▸ h)]
  rfl

theorem not_two (h : ch ∉ oneCharSymbols ∨ Stops rest) :
    ofList ((ch :: rest).take 2) ∉ twoCharOps := by
  intro htwo
  obtain ⟨a, b, hop, ha, hb, -⟩ := two_char_op htwo
  rw [String.toList_ofList] at hop
  cases rest with
  | nil => cases hop
  | cons c rest =>
    obtain ⟨rfl, rfl⟩ : ch = a ∧ c = b := by simpa using hop
    rcases h with h | h
    · exact h ha
    · exact hb (h c rfl)

theorem lexStep_one (h : ch ∈ oneCharSymbols) (hrest : Stops rest) :
    lexStep cls ch rest = .ok (some ⟨.symbol, ofList [ch]⟩, rest) := by
  rw [lexStep_word (specials_not_symbols ch h)]
  · unfold lexWord
    simp only
    rw [if_neg (not_three _), if_neg (not_two (.inr hrest)), if_pos h]
  · intro _ hhead
    exact absurd (hrest _ hhead) (by decide)

theorem lexStep_plain (hs : ch ∉ specials) (hone : ch ∉ oneCharSymbols) : lexStep cls ch rest =
    if cls.isdigit ch then
      .ok (some ⟨.int, ofList ((ch :: rest).takeWhile cls.isdigit)⟩,
        (ch :: rest).dropWhile cls.isdigit)
    else if cls.isalpha ch || ch = '_' then
      .ok (some ⟨wordKind (ofList ((ch :: rest).takeWhile (inWord cls))),
        ofList ((ch :: rest).takeWhile (inWord cls))⟩, (ch :: rest).dropWhile (inWord cls))
    else .error ⟨"unexpected character '" ++ ch.toString ++ "'"⟩ := by
  rw [lexStep_word hs fun h => absurd h fun he => hone (he ▸ by decide)]
  unfold lexWord
  simp only
  rw [if_neg (not_three _), if_neg (not_two (.inl hone)), if_neg hone]

theorem span_stops {p : Char → Bool} {cs : List Char} (hcs : ∀ c ∈ cs, p c = true)
    (hblank : ∀ c ∈ blanks, p c = false) (hrest : Stops rest) :
    (cs ++ rest).takeWhile p = cs ∧ (cs ++ rest).dropWhile p = rest := by
  have hstop : rest.takeWhile p = [] ∧ rest.dropWhile p = rest := by
    cases rest with
    | nil => exact ⟨rfl, rfl⟩
    | cons c rest =>
      have hc := hblank c (hrest c rfl)
      exact ⟨List.takeWhile_cons_of_neg (by simp [hc]), List.dropWhile_cons_of_neg (by simp [hc])⟩
  rw [List.takeWhile_append_of_pos hcs, List.dropWhile_append_of_pos hcs, hstop.1, hstop.2,
    List.append_nil]
  exact ⟨rfl, rfl⟩

theorem not_mem_of_class {p q : Char → Bool} (hpq : ∀ c, c.toNat < 128 → p c = q c)
    {others : List Char} (hothers : ∀ c ∈ others, c.toNat < 128 ∧ q c = false) (h : p ch = true) :
    ch ∉ others := by
  intro hmem
  obtain ⟨hlt, hq⟩ := hothers ch hmem
  rw [hpq ch hlt, hq] at h
  cases h

theorem lexStep_int {cs : List Char} (hcs : ∀ c ∈ ch :: cs, cls.isdigit c = true)
    (hrest : Stops rest) :
    lexStep cls ch (cs ++ rest) = .ok (some ⟨.int, ofList (ch :: cs)⟩, rest) := by
  have hch := hcs ch List.mem_cons_self
  have hblank : ∀ c ∈ blanks, cls.isdigit c = false := fun c hc => by
    rw [Bool.eq_false_iff]
    exact fun hd => not_mem_of_class cls.digit_ascii (forall_mem_of_all (by decide)) hd hc
  obtain ⟨htake, hdrop⟩ := span_stops hcs hblank hrest
  rw [lexStep_plain (not_mem_of_class cls.digit_ascii (forall_mem_of_all (by decide)) hch)
    (not_mem_of_class cls.digit_ascii (forall_mem_of_all (by decide)) hch), if_pos hch]
  rw [cons_append] at htake hdrop
  rw [htake, hdrop]

theorem ascii_of_alphanum {c : Char} (h : c.isAlphanum = true ∨ c = '_') : c.toNat < 128 := by
  rcases h with h | rfl
  · simp only [Char.isAlphanum, Char.isAlpha, Char.isUpper, Char.isLower, Char.isDigit,
      Bool.or_eq_true, Bool.and_eq_true, decide_eq_true_eq, UInt32.le_iff_toNat_le] at h
    change ((65 ≤ c.toNat ∧ c.toNat ≤ 90) ∨ (97 ≤ c.toNat ∧ c.toNat ≤ 122)) ∨
      (48 ≤ c.toNat ∧ c.toNat ≤ 57) at h
    omega
  · decide

theorem not_digit_of_alpha {c : Char} (h : c.isAlpha = true ∨ c = '_') : c.isDigit = false := by
  rcases h with h | rfl
  · simp only [Char.isAlpha, Char.isUpper, Char.isLower, Char.isDigit, Bool.or_eq_true,
      Bool.and_eq_true, decide_eq_true_eq, UInt32.le_iff_toNat_le, Bool.and_eq_false_iff,
      decide_eq_false_iff_not] at h ⊢
    change (65 ≤ c.toNat ∧ c.toNat ≤ 90) ∨ (97 ≤ c.toNat ∧ c.toNat ≤ 122) at h
    change ¬48 ≤ c.toNat ∨ ¬c.toNat ≤ 57
    omega
  · decide

variable (cls) in
theorem lexStep_ident {name : List Char} (hname : IsIdent name) (hrest : Stops rest) :
    ∃ c cs, name = c :: cs ∧ lexStep cls c (cs ++ rest) =
      .ok (some ⟨wordKind (ofList name), ofList name⟩, rest) := by
  obtain ⟨c, cs, rfl, hc, hcs⟩ := hname
  have hall : ∀ d ∈ c :: cs, d.isAlphanum = true ∨ d = '_' := by
    intro d hd
    rcases mem_cons.mp hd with rfl | hd
    · exact hc.imp_left fun h => by rw [Char.isAlphanum, h, Bool.true_or]
    · exact hcs d hd
  have hword : ∀ d ∈ c :: cs, inWord cls d = true := by
    intro d hd
    rw [inWord, cls.alnum_ascii d (ascii_of_alphanum (hall d hd))]
    simpa using hall d hd
  have hblank : ∀ d ∈ blanks, inWord cls d = false := by
    intro d hd
    have hlt : d.toNat < 128 ∧ d.isAlphanum = false ∧ d ≠ '_' :=
      forall_mem_of_all (p := fun d => d.toNat < 128 ∧ d.isAlphanum = false ∧ d ≠ '_') (by decide)
        d hd
    rw [inWord, cls.alnum_ascii d hlt.1, hlt.2.1]
    simpa using hlt.2.2
  obtain ⟨htake, hdrop⟩ := span_stops hword hblank hrest
  have hascii := ascii_of_alphanum (hall c List.mem_cons_self)
  -- a letter is no digit, and none of the characters with a meaning of their own
  have hother : ∀ others : List Char, (∀ d ∈ others, d.isAlpha = false ∧ d ≠ '_') → c ∉ others := by
    intro others hothers hmem
    obtain ⟨h1, h2⟩ := hothers c hmem
    rcases hc with hc | hc
    · rw [h1] at hc
      cases hc
    · exact h2 hc
  have hdigit : cls.isdigit c = false := by
    rw [cls.digit_ascii c hascii, not_digit_of_alpha hc]
  have hletter : (cls.isalpha c || c = '_') = true := by
    rw [cls.alpha_ascii c hascii]
    simpa using hc
  refine ⟨c, cs, rfl, ?_⟩
  rw [lexStep_plain (hother _ (forall_mem_of_all (by decide)))
    (hother _ (forall_mem_of_all (by decide))), if_neg (by simp [hdigit]),
    if_pos hletter]
  rw [cons_append] at htake hdrop
  rw [htake, hdrop]

/-! ## Strings are read back -/

theorem escape_cases (c : Char) : (∃ esc, escape c = ['\\', esc] ∧ escapes.lookup esc = some c ∧
    esc ≠ '\n') ∨ escape c = [c] ∧ c ≠ '\n' ∧ c ≠ '\\' ∧ c ≠ '"' := by
  by_cases h : c ∈ escapes.map Prod.snd
  · left
    simp only [escapes, List.map_cons, List.map_nil, mem_cons, not_mem_nil, or_false] at h
    rcases h with rfl | rfl | rfl | rfl | rfl
    all_goals exact ⟨_, rfl, rfl, by decide⟩
  · right
    have hnone : escapes.find? (·.2 = c) = none := by
      rw [List.find?_eq_none]
      intro e he hc
      exact h (List.mem_map.mpr ⟨e, he, of_decide_eq_true hc⟩)
    simp only [escapes, List.map_cons, List.map_nil, mem_cons, not_mem_nil, or_false,
      not_or] at h
    refine ⟨?_, h.1, h.2.2.2.1, h.2.2.2.2⟩
    rw [escape, hnone]

theorem scanString_escape (text : List Char) :
    scanString false (text.flatMap escape ++ '"' :: rest) = .ok (text.flatMap escape, rest) := by
  induction text with
  | nil => rfl
  | cons c text ih =>
    rw [flatMap_cons, append_assoc]
    rcases escape_cases c with ⟨esc, he, -, hnl⟩ | ⟨he, h1, h2, h3⟩
    · rw [he]
      simp [scanString, ih, Except.map, hnl]
    · rw [he]
      simp [scanString, ih, Except.map, h1, h2, h3]

theorem decode_escape (text : List Char) :
    decodeStringLiteral (text.flatMap escape) = .ok text := by
  induction text with
  | nil => rfl
  | cons c text ih =>
    rw [flatMap_cons]
    rcases escape_cases c with ⟨esc, he, hlook, -⟩ | ⟨he, -, hslash, -⟩
    · rw [he]
      simp [decodeStringLiteral, ih, Except.map, hlook]
    · rw [he]
      simp [decodeStringLiteral, ih, Except.map, hslash]

variable (cls rest) in
theorem lexStep_string (text : List Char) :
    lexStep cls '"' (text.flatMap escape ++ '"' :: rest) =
      .ok (some ⟨.string, ofList text⟩, rest) := by
  change (scanString false _).bind _ = _
  rw [scanString_escape]
  change (decodeStringLiteral _).bind _ = _
  rw [decode_escape]
  rfl

/-! ## The whole text -/

theorem keywords_ident : ∀ word ∈ keywords, IsIdent word.toList := by
  intro word h
  simp only [keywords, mem_cons, not_mem_nil, or_false] at h
  rcases h with rfl | rfl | rfl | rfl | rfl | rfl
  all_goals exact ⟨_, _, rfl, by decide, forall_mem_of_all (by decide)⟩

theorem lexStep_write {tok : Token} (h : tok.Writable cls) (hrest : Stops rest) :
    ∃ c cs, tok.write = c :: cs ∧ lexStep cls c (cs ++ rest) = .ok (some tok, rest) := by
  obtain ⟨kind, value⟩ := tok
  cases kind with
  | keyword =>
    obtain ⟨c, cs, hname, hstep⟩ := lexStep_ident cls (keywords_ident value h) hrest
    rw [ofList_toList, wordKind, if_pos (show value ∈ keywords from h)] at hstep
    exact ⟨c, cs, hname, hstep⟩
  | ident =>
    obtain ⟨c, cs, hname, hstep⟩ := lexStep_ident cls h.1 hrest
    rw [ofList_toList, wordKind, if_neg h.2] at hstep
    exact ⟨c, cs, hname, hstep⟩
  | int =>
    obtain ⟨hne, hdigits⟩ := h
    cases hvalue : value.toList with
    | nil => exact absurd (String.toList_eq_nil_iff.mp hvalue) hne
    | cons c cs =>
      have hstep := lexStep_int (hvalue ▸ hdigits) hrest
      rw [← hvalue, ofList_toList] at hstep
      exact ⟨c, cs, hvalue, hstep⟩
  | string =>
    refine ⟨'"', _, rfl, ?_⟩
    have hstep := lexStep_string cls rest value.toList
    rw [ofList_toList] at hstep
    rwa [append_assoc]
  | symbol =>
    rcases h with h | ⟨c, hc, rfl⟩
    · obtain ⟨a, b, hop, hstep⟩ := lexStep_two cls rest h
      exact ⟨a, [b], hop, hstep⟩
    · exact ⟨c, [], String.toList_ofList, lexStep_one hc hrest⟩
  | eof => exact h.elim

theorem tokenize_write {tok : Token} (h : tok.Writable cls) (hrest : Stops rest) :
    tokenize cls (tok.write ++ rest) = (tokenize cls rest).map (tok :: ·) := by
  obtain ⟨c, cs, hwrite, hstep⟩ := lexStep_write h hrest
  rw [hwrite, cons_append, tokenize_cons hstep]
  rfl

/-- The tokens of a text are read back, whatever stands between them. -/
theorem tokenize_rendering {toks : List Token} {text : List Char} (lead : List Piece)
    (h : Rendering cls toks text) :
    tokenize cls (lead.flatMap Piece.text ++ text) = .ok (toks ++ [⟨.eof, ""⟩]) := by
  rw [tokenize_pieces]
  induction h with
  | nil => rw [tokenize]; rfl
  | last htok =>
    have hwrite := tokenize_write htok (show Stops [] by simp [Stops])
    rw [List.append_nil] at hwrite
    rw [hwrite, tokenize]
    rfl
  | @cons tok toks text gap htok _ ih =>
    have hstops : Stops (gap.text ++ text) := by
      intro c hc
      cases hc
      exact gap.isBlank
    rw [tokenize_write htok hstops, Gap.text, List.cons_append, tokenize_blank gap.isBlank,
      tokenize_pieces, ih]
    rfl

/-- The text `int x //c` with a string in the next line. -/
theorem tokenize_rendering_string :
    tokenize .ascii "int x //c\n\"q\\n\"".toList =
      .ok [⟨.keyword, "int"⟩, ⟨.ident, "x"⟩, ⟨.string, "q\n"⟩, ⟨.eof, ""⟩] := by
  have hint : Token.Writable .ascii ⟨.keyword, "int"⟩ := show "int" ∈ keywords by decide
  have hx : Token.Writable .ascii ⟨.ident, "x"⟩ :=
    ⟨⟨'x', [], rfl, by decide, forall_mem_of_all (by decide)⟩, by decide⟩
  have hq : Token.Writable .ascii ⟨.string, "q\n"⟩ := trivial
  exact tokenize_rendering [] (.cons ⟨' ', by decide, []⟩ hint
    (.cons ⟨' ', by decide, [.slashes ['c'] (by decide)]⟩ hx (.last hq)))

end YHsys.Compiler
