/-
  File:      LsePc/Tools/Lexer.lean
  Subject:   The lexical analysis of ocd-as (sw/tools/ocd-as/lexer.mll).

  * `isIdent`, `isInteger`, `isDir`: the regular expressions, as properties of words;
  * `Rule`, `token`: the rules of `token` in their order; `scan`, `comment`, `lex`: the function.
    `lex` is called until the end of the file or an unknown character. A character is a byte,
    and where it is on its line is left out;
  * `Lexes`: what a text may look like for its lexemes, by its words, blanks and comments;
  * **result** (`lex_iff`): these are the texts with these lexemes.
-/
import LsePc.Lib.Munch
import LsePc.Tools.Source

namespace LsePc.Tools

open LsePc.Lib

/-! ## 1. Regular expressions -/

def isWhite (c : Char) : Bool := c == ' ' || c == '\t'

def isLetter (c : Char) : Bool := ('A' ≤ c && c ≤ 'Z') || ('a' ≤ c && c ≤ 'z')

def isDigit (c : Char) : Bool := '0' ≤ c && c ≤ '9'

def isBin (c : Char) : Bool := c == '0' || c == '1'

def isHex (c : Char) : Bool := isDigit c || ('A' ≤ c && c ≤ 'F') || ('a' ≤ c && c ≤ 'f')

def isIdentChar (c : Char) : Bool := isLetter c || isDigit c || c == '_'

/-- `p+`. -/
def plus (p : Char → Bool) (w : List Char) : Bool := !w.isEmpty && w.all p

def isIdent : List Char → Bool
  | [] => false
  | c :: cs => isLetter c && cs.all isIdentChar

def isInteger (w : List Char) : Bool :=
  plus isDigit w ||
  (match w with
    | '0' :: 'b' :: ds => plus isBin ds
    | '0' :: 'x' :: ds => plus isHex ds
    | _ => false)

def isDir : List Char → Bool
  | '.' :: cs => isIdent cs
  | _ => false

/-! ## 2. The rules -/

/-- The rules of `token`, apart from that of `eof`. -/
inductive Rule where
  | white | newline | comment | integer | sym | ident | dir | any
  deriving DecidableEq, Repr

def Rule.accepts : Rule → List Char → Bool
  | .white, w => match w with
    | [c] => isWhite c
    | _ => false
  | .newline, w => w == ['\n']
  | .comment, w => w == [';', ';']
  | .integer, w => isInteger w
  | .sym, w => w == [','] || w == [':']
  | .ident, w => isIdent w
  | .dir, w => isDir w
  | .any, w => w.length == 1

def token : List Rule := [.white, .newline, .comment, .integer, .sym, .ident, .dir, .any]

/-- A token; `INT` has its literal here, `int_of_string` is applied to it later. -/
inductive Lexeme where
  | int (l : Literal)
  | comma
  | colon
  | id (i : String)
  | dir (d : String)
  | eol

def digitValue (c : Char) : Nat :=
  if isDigit c then c.toNat - '0'.toNat
  else if 'A' ≤ c && c ≤ 'F' then c.toNat - 'A'.toNat + 10
  else c.toNat - 'a'.toNat + 10

/-- The literal of a word with `isInteger`. -/
def literal : List Char → Literal
  | '0' :: 'b' :: ds => ⟨.bin, ds.map fun c => Fin.ofNat 2 (digitValue c)⟩
  | '0' :: 'x' :: ds => ⟨.hex, ds.map fun c => Fin.ofNat 16 (digitValue c)⟩
  | ds => ⟨.dec, ds.map fun c => Fin.ofNat 10 (digitValue c)⟩

/-- The rule `comment`: the text after the end of the line, or the end of the file. -/
def comment : List Char → Option (List Char)
  | [] => none
  | c :: cs => if c = '\n' then some cs else comment cs

/-- What the action of a rule does: `token lexbuf` again, a token, or the end. -/
inductive Scanned where
  | again (rest : List Char)
  | token (x : Lexeme) (rest : List Char)
  | eof
  | unknown (c : Char)

def Rule.action (w rest : List Char) : Rule → Scanned
  | .white => .again rest
  | .newline => .token .eol rest
  | .comment => match Tools.comment rest with
    | some rest => .token .eol rest
    | none => .eof
  | .integer => .token (.int (literal w)) rest
  | .sym => .token (if w = [','] then .comma else .colon) rest
  | .ident => .token (.id (String.ofList w)) rest
  | .dir => .token (.dir (String.ofList w)) rest
  | .any => match w with
    | c :: _ => .unknown c
    | [] => .eof

/-- One match of `token`. -/
def scan (input : List Char) : Scanned :=
  match munch Rule.accepts token input with
  | some (r, w, rest) => r.action w rest
  | none => .eof

theorem comment_length {t rest : List Char} (h : comment t = some rest) :
    rest.length < t.length := by
  induction t with
  | nil => cases h
  | cons c t ih =>
    unfold comment at h
    split at h
    · cases h
      exact Nat.lt_succ_self _
    · exact Nat.lt_succ_of_lt (ih h)

/-- A match takes something. -/
theorem scan_length {input rest : List Char} (h : scan input = .again rest ∨
    ∃ x, scan input = .token x rest) : rest.length < input.length := by
  unfold scan at h
  cases hm : munch Rule.accepts token input with
  | none =>
    rw [hm] at h
    simp at h
  | some m =>
    obtain ⟨r, w, rest'⟩ := m
    rw [hm] at h
    obtain ⟨rfl, hw, -, -⟩ := (munch_iff _ _).mp hm
    have hlt : rest'.length < (w ++ rest').length := by
      rw [List.length_append]
      exact Nat.lt_add_of_pos_left (List.length_pos_iff.mpr hw)
    cases r with
    | comment =>
      cases hc : comment rest' with
      | none => simp [Rule.action, hc] at h
      | some t =>
        have ht : t = rest := by simpa [Rule.action, hc] using h
        exact ht ▸ Nat.lt_trans (comment_length hc) hlt
    | any =>
      cases w with
      | nil => exact absurd rfl hw
      | cons c w => simp [Rule.action] at h
    | white | newline | integer | sym | ident | dir =>
      have ht : rest' = rest := by simpa [Rule.action] using h
      exact ht ▸ hlt

/-- The tokens up to the end of the file, or up to a character that is unknown. -/
def lex (input : List Char) : List Lexeme × Option Char :=
  match _h : scan input with
  | .again rest => lex rest
  | .token x rest => (x :: (lex rest).1, (lex rest).2)
  | .eof => ([], none)
  | .unknown c => ([], some c)
termination_by input.length
decreasing_by
  · exact scan_length (.inl ‹_›)
  · exact scan_length (.inr ⟨x, ‹_›⟩)

theorem lex_again {input rest : List Char} (h : scan input = .again rest) :
    lex input = lex rest := by
  rw [lex]
  split <;> simp_all

theorem lex_token {input rest : List Char} {x : Lexeme} (h : scan input = .token x rest) :
    lex input = (x :: (lex rest).1, (lex rest).2) := by
  rw [lex]
  split <;> simp_all

theorem lex_token_inv {input rest : List Char} {x : Lexeme} {xs : List Lexeme}
    (h : scan input = .token x rest) (hlex : lex input = (xs, none)) :
    ∃ ys, xs = x :: ys ∧ lex rest = (ys, none) := by
  rw [lex_token h] at hlex
  exact ⟨(lex rest).1, (congrArg Prod.fst hlex).symm,
    Prod.ext rfl (congrArg (fun p => p.2) hlex)⟩

theorem lex_eof {input : List Char} (h : scan input = .eof) : lex input = ([], none) := by
  rw [lex]
  split <;> simp_all

theorem lex_unknown {input : List Char} {c : Char} (h : scan input = .unknown c) :
    lex input = ([], some c) := by
  rw [lex]
  split <;> simp_all

/-! ## 3. Texts -/

/-- The word of a lexeme. -/
inductive Spells : List Char → Lexeme → Prop where
  | int {w : List Char} (h : isInteger w = true) : Spells w (.int (literal w))
  | comma : Spells [','] .comma
  | colon : Spells [':'] .colon
  | id {w : List Char} (h : isIdent w = true) : Spells w (.id (String.ofList w))
  | dir {w : List Char} (h : isDir w = true) : Spells w (.dir (String.ofList w))

/-- The text after the word `w` of `x` does not go on with it. -/
def Stops (w rest : List Char) : Lexeme → Prop
  | .int _ => ∀ v, v ≠ [] → v <+: rest → isInteger (w ++ v) = false
  | .id _ | .dir _ => ∀ c ∈ rest.head?, isIdentChar c = false
  | _ => True

/-- **The text of some lexemes**: words with blanks between them where they are needed, ends of
    lines with or without a comment before them, and perhaps a comment at the end. -/
inductive Lexes : List Char → List Lexeme → Prop where
  | eof : Lexes [] []
  | white {c : Char} {t : List Char} {xs : List Lexeme} (hc : isWhite c = true) (h : Lexes t xs) :
      Lexes (c :: t) xs
  | newline {t : List Char} {xs : List Lexeme} (h : Lexes t xs) : Lexes ('\n' :: t) (.eol :: xs)
  | comment {w t : List Char} {xs : List Lexeme} (hw : '\n' ∉ w) (h : Lexes t xs) :
      Lexes (';' :: ';' :: (w ++ '\n' :: t)) (.eol :: xs)
  | last {w : List Char} (hw : '\n' ∉ w) : Lexes (';' :: ';' :: w) []
  | word {w t : List Char} {x : Lexeme} {xs : List Lexeme} (hw : Spells w x) (hs : Stops w t x)
      (h : Lexes t xs) : Lexes (w ++ t) (x :: xs)

/-! ## 4. The longest match -/

section
variable {c : Char} {w t rest : List Char} {x : Lexeme} {xs : List Lexeme}

theorem comment_iff : comment t = some rest ↔ ∃ w, '\n' ∉ w ∧ t = w ++ '\n' :: rest := by
  induction t with
  | nil => simp [comment]
  | cons c t ih =>
    unfold comment
    by_cases hc : c = '\n'
    · subst hc
      rw [if_pos rfl]
      constructor
      · intro h
        cases h
        exact ⟨[], List.not_mem_nil, rfl⟩
      · rintro ⟨w, hw, h⟩
        cases w with
        | nil =>
          cases h
          rfl
        | cons d w =>
          cases h
          exact absurd List.mem_cons_self hw
    · rw [if_neg hc, ih]
      constructor
      · rintro ⟨w, hw, rfl⟩
        exact ⟨c :: w, by simp [Ne.symm hc, hw], rfl⟩
      · rintro ⟨w, hw, h⟩
        cases w with
        | nil =>
          cases h
          exact absurd rfl hc
        | cons d w =>
          cases h
          exact ⟨w, fun h => hw (List.mem_cons_of_mem _ h), rfl⟩

theorem comment_none : comment t = none ↔ '\n' ∉ t := by
  induction t with
  | nil => simp [comment]
  | cons c t ih =>
    unfold comment
    by_cases hc : c = '\n'
    · simp [hc]
    · simp [hc, Ne.symm hc, ih]

/-- The rule for a word that begins with `c`, if it is not `_`. -/
def kind (c : Char) : Rule :=
  if isWhite c then .white
  else if c = '\n' then .newline
  else if c = ';' then .comment
  else if isDigit c then .integer
  else if c = ',' ∨ c = ':' then .sym
  else if isLetter c then .ident
  else if c = '.' then .dir
  else .any

theorem isDigit_of_isLetter (h : isLetter c = true) : isDigit c = false := by
  simp only [isLetter, isDigit, Bool.or_eq_true, Bool.and_eq_true, Bool.and_eq_false_iff,
    decide_eq_true_eq, decide_eq_false_iff_not, Char.le_def, UInt32.le_iff_toNat_le] at h ⊢
  have h9 : '9'.val.toNat = 57 := rfl
  have hA : 'A'.val.toNat = 65 := rfl
  have ha : 'a'.val.toNat = 97 := rfl
  omega

theorem kind_digit (h : isDigit c = true) : kind c = .integer := by
  have hwhite : isWhite c = false := by
    cases hw : isWhite c with
    | false => rfl
    | true =>
      simp [isWhite] at hw
      rcases hw with rfl | rfl
      · cases h
      · cases h
  have hnl : c ≠ '\n' := by
    rintro rfl
    cases h
  have hsemi : c ≠ ';' := by
    rintro rfl
    cases h
  simp [kind, hwhite, hnl, hsemi, h]

theorem kind_letter (h : isLetter c = true) : kind c = .ident := by
  have hwhite : isWhite c = false := by
    cases hw : isWhite c with
    | false => rfl
    | true =>
      simp [isWhite] at hw
      rcases hw with rfl | rfl
      · cases h
      · cases h
  have hno : ∀ d, isLetter d = false → c ≠ d := by
    rintro d hd rfl
    rw [h] at hd
    cases hd
  simp [kind, hwhite, hno '\n' rfl, hno ';' rfl, isDigit_of_isLetter h, hno ',' rfl, hno ':' rfl, h]

/-- **The first character decides** which rule a word belongs to. -/
theorem accepts_kind {r : Rule} (h : r.accepts (c :: w) = true) :
    r = kind c ∨ (r = .any ∧ w = []) := by
  cases r with
  | white =>
    cases w with
    | nil =>
      have h : isWhite c = true := h
      simp [kind, h]
    | cons d w => cases h
  | newline =>
    simp [Rule.accepts] at h
    obtain ⟨rfl, rfl⟩ := h
    exact .inl rfl
  | comment =>
    simp [Rule.accepts] at h
    obtain ⟨rfl, rfl⟩ := h
    exact .inl rfl
  | integer =>
    refine .inl (kind_digit ?_).symm
    have h : isInteger (c :: w) = true := h
    unfold isInteger at h
    rcases Bool.or_eq_true_iff.mp h with h | h
    · simp [plus] at h
      exact h.1
    · split at h
      · rename_i heq
        cases heq
        rfl
      · rename_i heq
        cases heq
        rfl
      · cases h
  | sym =>
    simp [Rule.accepts] at h
    rcases h with ⟨rfl, rfl⟩ | ⟨rfl, rfl⟩
    · exact .inl rfl
    · exact .inl rfl
  | ident =>
    simp [Rule.accepts, isIdent] at h
    exact .inl (kind_letter h.1).symm
  | dir =>
    have h : isDir (c :: w) = true := h
    unfold isDir at h
    split at h
    · rename_i heq
      cases heq
      exact .inl rfl
    · cases h
  | any =>
    simp [Rule.accepts] at h
    exact .inr ⟨rfl, h⟩

theorem find_kind (hany : kind c ≠ .any) (h : (kind c).accepts (c :: w) = true) :
    (token.find? fun r => r.accepts (c :: w)) = some (kind c) := by
  have hno : ∀ r, r ≠ kind c → r ≠ .any → r.accepts (c :: w) = false := by
    intro r hk hr
    cases hacc : r.accepts (c :: w) with
    | false => rfl
    | true =>
      rcases accepts_kind hacc with h | ⟨h, -⟩
      · exact absurd h hk
      · exact absurd h hr
  unfold token
  revert hany h hno
  generalize kind c = k
  intro hany h hno
  cases k <;> simp_all

/-- **A word is taken** where its rule takes no more. -/
theorem munch_kind (hany : kind c ≠ .any) (h : (kind c).accepts (c :: w) = true)
    (hmax : ∀ v, v ≠ [] → v <+: t → (kind c).accepts (c :: w ++ v) = false) :
    munch Rule.accepts token (c :: w ++ t) = some (kind c, c :: w, t) := by
  refine (munch_iff _ _).mpr ⟨rfl, List.cons_ne_nil _ _, find_kind hany h, ?_⟩
  intro v hv hpre r _
  cases hacc : r.accepts (c :: w ++ v) with
  | false => rfl
  | true =>
    rcases accepts_kind hacc with rfl | ⟨-, hnil⟩
    · rw [hmax v hv hpre] at hacc
      cases hacc
    · exact absurd (List.append_eq_nil_iff.mp hnil).2 hv

theorem isIdent_append {v : List Char} (hv : v ≠ []) (hpre : v <+: t)
    (hs : ∀ c ∈ t.head?, isIdentChar c = false) (hw : w ≠ []) : isIdent (w ++ v) = false := by
  obtain ⟨c, w, rfl⟩ := List.exists_cons_of_ne_nil hw
  obtain ⟨d, v, rfl⟩ := List.exists_cons_of_ne_nil hv
  obtain ⟨u, rfl⟩ := hpre
  have hd : isIdentChar d = false := hs d rfl
  simp [isIdent, hd]

/-- **A word that stops** is read. -/
theorem scan_word (h : Spells w x) (hs : Stops w t x) : scan (w ++ t) = .token x t := by
  have hread : ∀ {c : Char} {u : List Char} {r : Rule}, r ≠ .any →
      r.accepts (c :: u) = true → (∀ v, v ≠ [] → v <+: t → r.accepts (c :: u ++ v) = false) →
      scan (c :: u ++ t) = r.action (c :: u) t := by
    intro c u r hr hacc hmax
    obtain rfl : r = kind c := (accepts_kind hacc).resolve_right fun h => hr h.1
    unfold scan
    rw [munch_kind hr hacc hmax]
  cases h with
  | int h =>
    cases w with
    | nil => cases h
    | cons c w => exact hread (r := .integer) (by decide) h hs
  | comma =>
    refine hread (r := .sym) (by decide) rfl fun v hv _ => ?_
    cases v with
    | nil => exact absurd rfl hv
    | cons d v => simp [Rule.accepts]
  | colon =>
    refine hread (r := .sym) (by decide) rfl fun v hv _ => ?_
    cases v with
    | nil => exact absurd rfl hv
    | cons d v => simp [Rule.accepts]
  | id h =>
    cases w with
    | nil => cases h
    | cons c w =>
      exact hread (r := .ident) (by decide) h fun v hv hpre =>
        isIdent_append hv hpre hs (List.cons_ne_nil _ _)
  | dir h =>
    unfold isDir at h
    split at h
    · rename_i cs
      refine hread (r := .dir) (by decide) h fun v hv hpre => isIdent_append hv hpre hs ?_
      rintro rfl
      cases h
    · cases h

/-- What is not a word: a blank, the end of a line, a comment. -/
theorem scan_white (hc : isWhite c = true) : scan (c :: t) = .again t := by
  have hacc : Rule.white.accepts [c] = true := hc
  have hk : kind c = .white := by simp [kind, hc]
  have hm : munch Rule.accepts token ([c] ++ t) = some (kind c, [c], t) := by
    refine munch_kind (by simp [hk]) (by rw [hk]; exact hacc) fun v hv _ => ?_
    cases v with
    | nil => exact absurd rfl hv
    | cons d v => rw [hk]; rfl
  unfold scan
  rw [List.singleton_append, hk] at hm
  rw [hm]
  rfl

theorem scan_newline : scan ('\n' :: t) = .token .eol t := by
  have hm : munch Rule.accepts token (['\n'] ++ t) = some (.newline, ['\n'], t) := by
    refine munch_kind (by decide) rfl fun v hv _ => ?_
    cases v with
    | nil => exact absurd rfl hv
    | cons d v => exact beq_false_of_ne (by simp)
  unfold scan
  rw [List.singleton_append] at hm
  rw [hm]
  rfl

theorem scan_comment : scan (';' :: ';' :: t) = match comment t with
    | some rest => .token .eol rest
    | none => .eof := by
  have hm : munch Rule.accepts token ([';', ';'] ++ t) = some (.comment, [';', ';'], t) := by
    refine munch_kind (by decide) rfl fun v hv _ => ?_
    cases v with
    | nil => exact absurd rfl hv
    | cons d v => exact beq_false_of_ne (by simp)
  unfold scan
  have heq : [';', ';'] ++ t = ';' :: ';' :: t := rfl
  rw [heq] at hm
  rw [hm]
  rfl

/-- **Any layout** of the lexemes is read. -/
theorem lex_of_lexes (h : Lexes t xs) : lex t = (xs, none) := by
  induction h with
  | eof => exact lex_eof rfl
  | white hc _ ih => rw [lex_again (scan_white hc), ih]
  | newline _ ih => rw [lex_token scan_newline, ih]
  | @comment w t xs hw _ ih =>
    have hscan := scan_comment (t := w ++ '\n' :: t)
    rw [comment_iff.mpr ⟨w, hw, rfl⟩] at hscan
    rw [lex_token hscan, ih]
  | @last w hw =>
    have hscan := scan_comment (t := w)
    rw [comment_none.mpr hw] at hscan
    exact lex_eof hscan
  | word hw hs _ ih => rw [lex_token (scan_word hw hs), ih]

/-- A match, and what it says of the text. -/
theorem scan_cons (c : Char) (t : List Char) : ∃ (r : Rule) (w rest : List Char),
    c :: t = w ++ rest ∧ w ≠ [] ∧
    r.accepts w = true ∧ (∀ v, v ≠ [] → v <+: rest → r.accepts (w ++ v) = false) ∧
    scan (c :: t) = r.action w rest := by
  have hsome : ∃ m, munch Rule.accepts token ([c] ++ t) = some m :=
    munch_some _ _ (List.cons_ne_nil c []) (r := .any) (by decide) rfl
  obtain ⟨⟨r, w, rest⟩, hm⟩ := hsome
  obtain ⟨heq, hw, hfind, hmax⟩ := (munch_iff _ _).mp hm
  refine ⟨r, w, rest, heq, hw, List.find?_some (p := fun r : Rule => r.accepts w) hfind,
    fun v hv hpre => hmax v hv hpre r (List.mem_of_find?_eq_some hfind), ?_⟩
  unfold scan
  rw [List.singleton_append] at hm
  rw [hm]

theorem stops_of_isIdent (hw : isIdent w = true)
    (hmax : ∀ v, v ≠ [] → v <+: rest → isIdent (w ++ v) = false) :
    ∀ c ∈ rest.head?, isIdentChar c = false := by
  intro c hc
  obtain ⟨u, rfl⟩ := List.head?_eq_some_iff.mp hc
  have hno := hmax [c] (List.cons_ne_nil _ _) ⟨u, rfl⟩
  cases w with
  | nil => cases hw
  | cons d w =>
    simp only [isIdent, Bool.and_eq_true, List.cons_append, List.all_append, List.all_cons,
      List.all_nil, Bool.and_true] at hw hno
    simpa [hw.1, hw.2] using hno

/-- **A text that is read** is laid out. -/
theorem lexes_of_lex (t : List Char) : ∀ xs, lex t = (xs, none) → Lexes t xs := by
  induction h : t.length using Nat.strong_induction_on generalizing t with
  | _ n ih =>
    intro xs hlex
    subst h
    cases t with
    | nil =>
      rw [lex_eof rfl] at hlex
      cases hlex
      exact .eof
    | cons c t =>
      obtain ⟨r, w, rest, heq, hw, hacc, hmax, hscan⟩ := scan_cons c t
      have hshort : ∀ {t' : List Char}, t'.length ≤ rest.length → t'.length < (c :: t).length := by
        intro t' hle
        have hpos := List.length_pos_iff.mpr hw
        rw [heq, List.length_append]
        omega
      have hword : ∀ {x : Lexeme}, scan (c :: t) = .token x rest → Spells w x → Stops w rest x →
          Lexes (c :: t) xs := by
        intro x hx hsp hst
        obtain ⟨ys, rfl, hrest⟩ := lex_token_inv hx hlex
        rw [heq]
        exact .word hsp hst (ih _ (hshort (Nat.le_refl _)) rest rfl _ hrest)
      cases r with
      | white =>
        unfold Rule.accepts at hacc
        dsimp only at hacc
        split at hacc
        · rw [lex_again hscan] at hlex
          rw [heq]
          exact .white hacc (ih _ (hshort (Nat.le_refl _)) rest rfl _ hlex)
        · cases hacc
      | newline =>
        obtain rfl := beq_iff_eq.mp hacc
        obtain ⟨ys, rfl, hrest⟩ := lex_token_inv hscan hlex
        rw [heq]
        exact .newline (ih _ (hshort (Nat.le_refl _)) rest rfl _ hrest)
      | comment =>
        obtain rfl := beq_iff_eq.mp hacc
        rw [heq]
        cases hc : comment rest with
        | none =>
          have hscan : scan (c :: t) = .eof := by simpa [Rule.action, hc] using hscan
          rw [lex_eof hscan] at hlex
          cases hlex
          exact .last (comment_none.mp hc)
        | some rest' =>
          have hscan : scan (c :: t) = .token .eol rest' := by
            simpa [Rule.action, hc] using hscan
          obtain ⟨ys, rfl, hrest⟩ := lex_token_inv hscan hlex
          obtain ⟨w, hw, rfl⟩ := comment_iff.mp hc
          refine .comment hw (ih _ (hshort ?_) rest' rfl _ hrest)
          rw [List.length_append, List.length_cons]
          omega
      | integer => exact hword hscan (.int hacc) hmax
      | sym =>
        rcases Bool.or_eq_true_iff.mp hacc with h | h
        · obtain rfl := beq_iff_eq.mp h
          exact hword hscan .comma trivial
        · obtain rfl := beq_iff_eq.mp h
          exact hword hscan .colon trivial
      | ident => exact hword hscan (.id hacc) (stops_of_isIdent hacc hmax)
      | dir =>
        have hdir : isDir w = true := hacc
        have hspells := Spells.dir hdir
        unfold isDir at hdir
        split at hdir
        · exact hword hscan hspells (stops_of_isIdent hdir hmax)
        · cases hdir
      | any =>
        cases w with
        | nil => exact absurd rfl hw
        | cons d w =>
          rw [lex_unknown hscan] at hlex
          cases hlex

/-- **The texts of these lexemes.** -/
theorem lex_iff : lex t = (xs, none) ↔ Lexes t xs := ⟨lexes_of_lex t xs, lex_of_lexes⟩

end

end LsePc.Tools
