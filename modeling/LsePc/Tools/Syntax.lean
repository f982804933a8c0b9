/-
  File:      LsePc/Tools/Syntax.lean
  Subject:   The syntax of ocd-as (sw/tools/ocd-as/parser.mly), from the text to the statements.

  * `Derives...`: the productions of the grammar with their values. `%inline` makes no difference
    to them; `$startpos` is the number of the line here;
  * `Place`, `Reading`: where the parser is after some tokens. It asks for one token after the
    other, so the first token that cannot stand is an error, whatever comes after it;
  * `read`: `Parser.main Lexer.token` on a text, with the errors of both;
  * `Line.lexemes`: the lexemes of a line as it is written;
  * `layout`: a text for some lexemes, with a blank after each;
  * **results**: `source_read_iff`, a text is read exactly as the lines it is a layout of;
    `read_layout`, a source that is written down is read back.

  Menhir makes the parser from the grammar. The automaton here is not the one it makes; of it the
  results use `parseTokens_iff` only, that it accepts the sentences of the grammar.
-/
import LsePc.Tools.Lexer
import Mathlib.Data.List.Induction

namespace LsePc.Tools

open LsePc.Lib

/-! ## 1. Tokens -/

/-- The tokens but `EOF`, which is the end of the list. -/
inductive Token where
  | id (i : String)
  | dir (d : String)
  | int (i : Int)
  | comma
  | colon
  | eol
  deriving DecidableEq, Repr

/-- How the reading of a file ends early: `print_lexer_error`, the exception of `int_of_string`,
    `print_error`. -/
inductive SourceError where
  | unknown (c : Char)
  | failure (msg : String)
  | syntaxError
  deriving DecidableEq, Repr

def Lexeme.token : Lexeme → Except SourceError Token
  | .int l => match l.intOfString with
    | some i => .ok (.int i)
    | none => .error (.failure "int_of_string")
  | .comma => .ok .comma
  | .colon => .ok .colon
  | .id i => .ok (.id i)
  | .dir d => .ok (.dir d)
  | .eol => .ok .eol

/-! ## 2. The grammar -/

inductive DerivesOp : Token → Op → Prop where
  | int (i : Int) : DerivesOp (.int i) (.int i)
  | id (i : String) : DerivesOp (.id i) (.id i)

inductive DerivesLabel : List Token → Option String → Prop where
  | some (i : String) : DerivesLabel [.id i, .colon] (some i)
  | none : DerivesLabel [] none

inductive DerivesArgs : List Token → Op × Op → Prop where
  | two {t t' : Token} {d s : Op} (hd : DerivesOp t d) (hs : DerivesOp t' s) :
      DerivesArgs [t, .comma, t'] (d, s)
  | one {t : Token} {d : Op} (hd : DerivesOp t d) : DerivesArgs [t] (d, .noOp)
  | zero : DerivesArgs [] (.noOp, .noOp)

inductive DerivesInstr : List Token → String × Op × Op → Prop where
  | some (m : String) {ts : List Token} {a : Op × Op} (h : DerivesArgs ts a) :
      DerivesInstr (.id m :: ts) (m, a)
  | none : DerivesInstr [] ("", .noOp, .noOp)

/-- A statement on the line `n`. -/
inductive DerivesStatement (n : Nat) : List Token → Statement Nat → Prop where
  | instr {ts ts' : List Token} {l : Option String} {m : String} {d s : Op}
      (hl : DerivesLabel ts l) (hi : DerivesInstr ts' (m, d, s)) :
      DerivesStatement n (ts ++ ts' ++ [.eol])
        (.instr { label := l, mnem := m, d := d, s := s, loc := n })
  | directive (d : String) {ts : List Token} {args : List Op}
      (h : List.Forall₂ DerivesOp ts args) :
      DerivesStatement n (.dir d :: ts ++ [.eol]) (.directive { dir := d, args := args, loc := n })

/-- `main`, from the line `n` on. -/
inductive DerivesMain : Nat → List Token → List (Statement Nat) → Prop where
  | nil (n : Nat) : DerivesMain n [] []
  | cons {n : Nat} {ts ts' : List Token} {st : Statement Nat} {ast : List (Statement Nat)}
      (h : DerivesStatement n ts st) (h' : DerivesMain (n + 1) ts' ast) :
      DerivesMain n (ts ++ ts') (st :: ast)

/-! ## 3. The parser -/

/-- What has been read of a statement. -/
inductive Place where
  | start
  | ident (i : String)
  | label (l : String)
  | mnem (l m : String)
  | arg (l : Option String) (m : String) (d : Op)
  | comma (l : Option String) (m : String) (d : Op)
  | both (l : Option String) (m : String) (d s : Op)
  | dir (d : String) (args : List Op)
  deriving DecidableEq, Repr

def Token.op : Token → Option Op
  | .int i => some (.int i)
  | .id i => some (.id i)
  | _ => none

/-- The next token, but `EOL`; none where it cannot stand. -/
def Place.shift : Place → Token → Option Place
  | .start, .id i => some (.ident i)
  | .start, .dir d => some (.dir d [])
  | .ident i, .colon => some (.label i)
  | .ident m, t => t.op.map (.arg none m)
  | .label l, .id m => some (.mnem l m)
  | .mnem l m, t => t.op.map (.arg (some l) m)
  | .arg l m d, .comma => some (.comma l m d)
  | .comma l m d, t => t.op.map (.both l m d)
  | .dir d args, t => t.op.map fun o => .dir d (args ++ [o])
  | _, _ => none

/-- `EOL`. -/
def Place.statement (n : Nat) : Place → Option (Statement Nat)
  | .start => some (.instr { label := none, mnem := "", d := .noOp, s := .noOp, loc := n })
  | .ident m => some (.instr { label := none, mnem := m, d := .noOp, s := .noOp, loc := n })
  | .label l => some (.instr { label := l, mnem := "", d := .noOp, s := .noOp, loc := n })
  | .mnem l m => some (.instr { label := l, mnem := m, d := .noOp, s := .noOp, loc := n })
  | .arg l m d => some (.instr { label := l, mnem := m, d := d, s := .noOp, loc := n })
  | .comma _ _ _ => none
  | .both l m d s => some (.instr { label := l, mnem := m, d := d, s := s, loc := n })
  | .dir d args => some (.directive { dir := d, args := args, loc := n })

structure Reading where
  line : Nat
  place : Place
  ast : List (Statement Nat)

def Reading.shift (r : Reading) : Token → Option Reading
  | .eol => (r.place.statement r.line).map fun st =>
    { line := r.line + 1, place := .start, ast := r.ast ++ [st] }
  | t => (r.place.shift t).map fun p => { r with place := p }

/-- `EOF`. -/
def Reading.finish (r : Reading) : Option (List (Statement Nat)) :=
  if r.place = .start then some r.ast else none

def Reading.start : Reading := { line := 1, place := .start, ast := [] }

def parseTokens (ts : List Token) : Option (List (Statement Nat)) := do
  let r ← ts.foldlM Reading.shift .start
  r.finish

/-- A token is asked for when those before it are through. -/
def Reading.feed (r : Reading) (x : Lexeme) : Except SourceError Reading := do
  let t ← x.token
  match r.shift t with
  | some r => pure r
  | none => throw .syntaxError

/-- `Parser.main Lexer.token`. -/
def read (text : List Char) : Except SourceError (List (Statement Nat)) := do
  let r ← (lex text).1.foldlM Reading.feed .start
  match (lex text).2 with
  | some c => throw (.unknown c)
  | none => match r.finish with
    | some ast => pure ast
    | none => throw .syntaxError

/-! ## 4. The parser reads the grammar -/

section
variable {n : Nat} {t : Token} {ts ts' : List Token} {o : Op} {st : Statement Nat}
  {ast ast' : List (Statement Nat)} {r r' : Reading} {p p' : Place}

theorem op_iff : t.op = some o ↔ DerivesOp t o := by
  constructor
  · intro h
    cases t with
    | int i =>
      cases h
      exact .int i
    | id i =>
      cases h
      exact .id i
    | dir d => cases h
    | comma => cases h
    | colon => cases h
    | eol => cases h
  · intro h
    cases h with
    | int i => rfl
    | id i => rfl

theorem shift_ne_eol (h : t ≠ .eol) : r.shift t = (r.place.shift t).map fun p =>
    { r with place := p } := by
  cases t with
  | eol => exact absurd rfl h
  | _ => rfl

theorem DerivesOp.ne_eol (h : DerivesOp t o) : t ≠ .eol := by
  cases h <;> simp

/-- An operand. -/
theorem shift_op (h : DerivesOp t o) {f : Op → Place} (hp : r.place.shift t = t.op.map f) :
    r.shift t = some { r with place := f o } := by
  rw [shift_ne_eol h.ne_eol, hp, op_iff.mpr h]
  rfl

theorem shifts_ops {d : String} {ops : List Op} (h : List.Forall₂ DerivesOp ts ops) :
    ∀ args, ts.foldlM Reading.shift { line := n, place := .dir d args, ast := ast } =
      some { line := n, place := .dir d (args ++ ops), ast := ast } := by
  induction h with
  | nil =>
    intro args
    simp
  | @cons t o ts ops ho _ ih =>
    intro args
    have hshift := shift_op (r := { line := n, place := .dir d args, ast := ast }) ho
      (f := fun o => .dir d (args ++ [o])) (by cases ho <;> rfl)
    rw [List.foldlM_cons, hshift]
    have hrest := ih (args ++ [o])
    rw [List.append_assoc, List.singleton_append] at hrest
    exact hrest

/-- **A statement is read.** -/
theorem shifts_statement (h : DerivesStatement n ts st) :
    ts.foldlM Reading.shift { line := n, place := .start, ast := ast } =
      some { line := n + 1, place := .start, ast := ast ++ [st] } := by
  cases h with
  | @instr ts ts' l m d s hl hi =>
    cases hl with
    | none =>
      cases hi with
      | none => rfl
      | some m ha =>
        cases ha with
        | zero => rfl
        | one hd => cases hd <;> rfl
        | two hd hs => cases hd <;> cases hs <;> rfl
    | some l =>
      cases hi with
      | none => rfl
      | some m ha =>
        cases ha with
        | zero => rfl
        | one hd => cases hd <;> rfl
        | two hd hs => cases hd <;> cases hs <;> rfl
  | directive d h =>
    rw [List.cons_append, List.foldlM_cons]
    change (do
      let r ← (List.foldlM Reading.shift { line := n, place := .dir d [], ast := ast } _ : Option _)
      pure r) = _
    rw [List.foldlM_append, shifts_ops h]
    rfl

theorem shifts_main (h : DerivesMain n ts ast) : ∀ ast',
    ts.foldlM Reading.shift { line := n, place := .start, ast := ast' } =
      some { line := n + ast.length, place := .start, ast := ast' ++ ast } := by
  induction h with
  | nil n =>
    intro ast'
    simp
  | @cons n ts ts' st ast hst _ ih =>
    intro ast'
    rw [List.foldlM_append, shifts_statement hst]
    have hrest := ih (ast' ++ [st])
    rw [List.append_assoc, List.singleton_append] at hrest
    have hlen : n + (st :: ast).length = n + 1 + ast.length := by
      rw [List.length_cons]
      omega
    rw [hlen]
    exact hrest

/-- The tokens of an unfinished statement. -/
def Place.Pending : Place → List Token → Prop
  | .start, ts => ts = []
  | .ident i, ts => ts = [.id i]
  | .label l, ts => ts = [.id l, .colon]
  | .mnem l m, ts => ts = [.id l, .colon, .id m]
  | .arg l m d, ts => ∃ us t, DerivesLabel us l ∧ DerivesOp t d ∧ ts = us ++ [.id m, t]
  | .comma l m d, ts => ∃ us t, DerivesLabel us l ∧ DerivesOp t d ∧ ts = us ++ [.id m, t, .comma]
  | .both l m d s, ts => ∃ us t t', DerivesLabel us l ∧ DerivesOp t d ∧ DerivesOp t' s ∧
      ts = us ++ [.id m, t, .comma, t']
  | .dir d ops, ts => ∃ us, List.Forall₂ DerivesOp us ops ∧ ts = .dir d :: us

theorem map_op {f : Op → Place} (h : t.op.map f = some p') : ∃ o, DerivesOp t o ∧ p' = f o := by
  obtain ⟨o, ho, rfl⟩ := Option.map_eq_some_iff.mp h
  exact ⟨o, op_iff.mp ho, rfl⟩

theorem Place.Pending.shift (h : p.Pending ts) (hs : p.shift t = some p') :
    p'.Pending (ts ++ [t]) := by
  unfold Place.shift at hs
  split at hs
  · obtain rfl : ts = [] := h
    cases hs
    rfl
  · obtain rfl : ts = [] := h
    cases hs
    exact ⟨[], .nil, rfl⟩
  · obtain rfl : ts = _ := h
    cases hs
    rfl
  · obtain rfl : ts = _ := h
    obtain ⟨o, ho, rfl⟩ := map_op hs
    exact ⟨[], t, .none, ho, rfl⟩
  · obtain rfl : ts = _ := h
    cases hs
    rfl
  · obtain rfl : ts = _ := h
    obtain ⟨o, ho, rfl⟩ := map_op hs
    exact ⟨_, t, .some _, ho, rfl⟩
  · obtain ⟨us, t, hl, hd, rfl⟩ := h
    cases hs
    exact ⟨us, t, hl, hd, by simp⟩
  · obtain ⟨us, t', hl, hd, rfl⟩ := h
    obtain ⟨o, ho, rfl⟩ := map_op hs
    exact ⟨us, t', t, hl, hd, ho, by simp⟩
  · obtain ⟨us, hus, rfl⟩ := h
    obtain ⟨o, ho, rfl⟩ := map_op hs
    exact ⟨us ++ [t], List.rel_append hus (.cons ho .nil), rfl⟩
  · cases hs

theorem Place.Pending.statement (h : p.Pending ts) (hs : p.statement n = some st) :
    DerivesStatement n (ts ++ [.eol]) st := by
  cases p with
  | start =>
    obtain rfl : ts = [] := h
    cases hs
    exact .instr .none .none
  | ident m =>
    obtain rfl : ts = _ := h
    cases hs
    exact .instr .none (.some m .zero)
  | label l =>
    obtain rfl : ts = _ := h
    cases hs
    exact .instr (.some l) .none
  | mnem l m =>
    obtain rfl : ts = _ := h
    cases hs
    exact .instr (.some l) (.some m .zero)
  | arg l m d =>
    obtain ⟨us, t, hl, hd, rfl⟩ := h
    cases hs
    exact .instr hl (.some m (.one hd))
  | comma l m d => cases hs
  | both l m d s =>
    obtain ⟨us, t, t', hl, hd, hs', rfl⟩ := h
    cases hs
    exact .instr hl (.some m (.two hd hs'))
  | dir d ops =>
    obtain ⟨us, hus, rfl⟩ := h
    cases hs
    exact .directive d hus

theorem DerivesMain.concat (h : DerivesMain n ts ast)
    (hst : DerivesStatement (n + ast.length) ts' st) :
    DerivesMain n (ts ++ ts') (ast ++ [st]) := by
  induction h with
  | nil n =>
    have hone := DerivesMain.cons hst (.nil _)
    rwa [List.append_nil] at hone
  | @cons n us us' st' ast hst' _ ih =>
    rw [List.append_assoc]
    refine .cons hst' (ih ?_)
    have hlen : n + (st' :: ast).length = n + 1 + ast.length := by
      rw [List.length_cons]
      omega
    rwa [hlen] at hst

/-- **After some tokens**: the statements that are through, and one that is not. -/
theorem shifts_pending (h : ts.foldlM Reading.shift .start = some r) : ∃ us us', ts = us ++ us' ∧
    DerivesMain 1 us r.ast ∧ r.line = 1 + r.ast.length ∧ r.place.Pending us' := by
  induction ts using List.reverseRecOn generalizing r with
  | nil =>
    cases h
    exact ⟨[], [], rfl, .nil 1, rfl, rfl⟩
  | append_singleton ts t ih =>
    rw [List.foldlM_append] at h
    obtain ⟨r₀, h₀, h⟩ := Option.bind_eq_some_iff.mp h
    have ht : r₀.shift t = some r := by simpa using h
    obtain ⟨us, us', rfl, hmain, hline, hpend⟩ := ih h₀
    by_cases hne : t = .eol
    · subst hne
      obtain ⟨st, hst, rfl⟩ := Option.map_eq_some_iff.mp ht
      refine ⟨us ++ (us' ++ [.eol]), [], by simp, hmain.concat ?_, ?_, rfl⟩
      · rw [← hline]
        exact hpend.statement hst
      · rw [List.length_append, hline]
        rfl
    · rw [shift_ne_eol hne] at ht
      obtain ⟨p, hp, rfl⟩ := Option.map_eq_some_iff.mp ht
      exact ⟨us, us' ++ [t], by simp, hmain, hline, hpend.shift hp⟩

/-- **The parser accepts the sentences of the grammar**, with their statements. -/
theorem parseTokens_iff : parseTokens ts = some ast ↔ DerivesMain 1 ts ast := by
  constructor
  · intro h
    obtain ⟨r, hr, hfinish⟩ := Option.bind_eq_some_iff.mp h
    obtain ⟨us, us', rfl, hmain, -, hpend⟩ := shifts_pending hr
    unfold Reading.finish at hfinish
    split at hfinish
    · rename_i hp
      cases hfinish
      rw [hp] at hpend
      obtain rfl : us' = [] := hpend
      rwa [List.append_nil]
    · cases hfinish
  · intro h
    have hshifts := shifts_main h []
    unfold parseTokens
    change (List.foldlM Reading.shift .start ts).bind Reading.finish = _
    rw [Reading.start, hshifts]
    rfl

end

/-! ## 5. Lines -/

def Written.lexemes : Written → List Lexeme
  | .lit l => [.int l]
  | .id i => [.id i]
  | .noOp => []

/-- What stands behind the mnemonic. -/
def Written.both (d s : Written) : List Lexeme :=
  d.lexemes ++ match s with
    | .noOp => []
    | s => .comma :: s.lexemes

def Line.lexemes {L : Type} : Line L → List Lexeme
  | .instr label mnem d s _ =>
    (label.elim [] fun l => [.id l, .colon]) ++
      (if mnem = "" then [] else .id mnem :: d.both s) ++ [.eol]
  | .directive dir args _ => .dir dir :: args.flatMap Written.lexemes ++ [.eol]

def Line.loc {L : Type} : Line L → L
  | .instr _ _ _ _ loc => loc
  | .directive _ _ loc => loc

/-- No operands without a mnemonic, no second one without a first. -/
def Line.Formed {L : Type} : Line L → Prop
  | .instr _ mnem d s _ => (mnem = "" → d = .noOp) ∧ (d = .noOp → s = .noOp)
  | .directive _ args _ => .noOp ∉ args

/-- The places of the lines are their numbers. -/
def Numbered : Nat → List (Line Nat) → Prop
  | _, [] => True
  | n, line :: src => line.loc = n ∧ Numbered (n + 1) src

section
variable {n : Nat} {x : Lexeme} {t : Token} {xs : List Lexeme} {ts : List Token} {o : Op}
  {w d s : Written} {st : Statement Nat} {ast : List (Statement Nat)} {r r' : Reading}
  {line : Line Nat} {src : List (Line Nat)} {text : List Char}

/-- The lexeme of a token. -/
def Token.Of : Token → Lexeme → Prop
  | .int i, x => ∃ l, x = .int l ∧ l.intOfString = some i
  | .comma, x => x = .comma
  | .colon, x => x = .colon
  | .id i, x => x = .id i
  | .dir d, x => x = .dir d
  | .eol, x => x = .eol

theorem token_of (h : x.token = .ok t) : t.Of x := by
  cases x with
  | int l =>
    unfold Lexeme.token at h
    dsimp only at h
    split at h
    · rename_i i hi
      cases h
      exact ⟨l, rfl, hi⟩
    · cases h
  | _ =>
    cases h
    rfl

/-- The tokens of lexemes without a failure. -/
def Tokens (xs : List Lexeme) (ts : List Token) : Prop :=
  List.Forall₂ (fun x t => x.token = .ok t) xs ts

theorem Tokens.append {xs' : List Lexeme} {ts' : List Token} (h : Tokens xs ts)
    (h' : Tokens xs' ts') : Tokens (xs ++ xs') (ts ++ ts') := List.rel_append h h'

theorem tokens_split {ts' : List Token} (h : Tokens xs (ts ++ ts')) :
    ∃ ys ys', xs = ys ++ ys' ∧ Tokens ys ts ∧ Tokens ys' ts' :=
  ⟨xs.take ts.length, xs.drop ts.length, (List.take_append_drop _ _).symm,
    List.forall₂_take_append _ _ _ h, List.forall₂_drop_append _ _ _ h⟩

theorem tokens_one (h : Tokens xs [t]) : ∃ x, xs = [x] ∧ t.Of x := by
  cases h with
  | cons hx hnil =>
    cases hnil
    exact ⟨_, rfl, token_of hx⟩

theorem feed_iff : r.feed x = .ok r' ↔ ∃ t, x.token = .ok t ∧ r.shift t = some r' := by
  unfold Reading.feed
  rw [bind_ok]
  refine exists_congr fun t => and_congr_right fun _ => ?_
  cases r.shift t with
  | none => simp [throw, throwThe, MonadExceptOf.throw]
  | some r₁ => simp [pure, Except.pure]

theorem feeds_iff : xs.foldlM Reading.feed r = .ok r' ↔
    ∃ ts, Tokens xs ts ∧ ts.foldlM Reading.shift r = some r' := by
  induction xs generalizing r with
  | nil => simp [Tokens, pure, Except.pure]
  | cons x xs ih =>
    rw [List.foldlM_cons, bind_ok]
    constructor
    · rintro ⟨r₁, hx, hxs⟩
      obtain ⟨t, ht, hshift⟩ := feed_iff.mp hx
      obtain ⟨ts, hts, hrest⟩ := ih.mp hxs
      refine ⟨t :: ts, .cons ht hts, ?_⟩
      rw [List.foldlM_cons, hshift]
      exact hrest
    · rintro ⟨ts, hts, hshifts⟩
      cases hts with
      | @cons _ t _ ts ht hts =>
        rw [List.foldlM_cons] at hshifts
        obtain ⟨r₁, hshift, hrest⟩ := Option.bind_eq_some_iff.mp hshifts
        exact ⟨r₁, feed_iff.mpr ⟨t, ht, hshift⟩, ih.mpr ⟨ts, hts, hrest⟩⟩

/-- What is read, by its lexemes. -/
theorem read_lexes : read text = .ok ast ↔
    ∃ xs ts, Lexes text xs ∧ Tokens xs ts ∧ DerivesMain 1 ts ast := by
  unfold read
  rw [bind_ok]
  constructor
  · rintro ⟨r, hr, h⟩
    obtain ⟨ts, hts, hshifts⟩ := feeds_iff.mp hr
    split at h
    · cases h
    · rename_i hnone
      split at h
      · rename_i ast' hfinish
        cases h
        refine ⟨_, ts, lex_iff.mp (Prod.ext rfl hnone), hts, parseTokens_iff.mp ?_⟩
        exact Option.bind_eq_some_iff.mpr ⟨r, hshifts, hfinish⟩
      · cases h
  · rintro ⟨xs, ts, hlex, hts, hmain⟩
    have hlex := lex_iff.mpr hlex
    obtain ⟨r, hshifts, hfinish⟩ := Option.bind_eq_some_iff.mp (parseTokens_iff.mpr hmain)
    refine ⟨r, ?_, ?_⟩
    · rw [hlex]
      exact feeds_iff.mpr ⟨ts, hts, hshifts⟩
    · rw [hlex]
      dsimp only
      rw [hfinish]
      rfl

/-- An operand, written and read. -/
theorem written_derives (hw : w ≠ .noOp) (h : (w.token : Except (AsError Nat) Op) = .ok o) :
    ∃ t, Tokens w.lexemes [t] ∧ DerivesOp t o := by
  cases w with
  | lit l =>
    unfold Written.token at h
    dsimp only at h
    split at h
    · rename_i i hi
      cases h
      have ht : (Lexeme.int l).token = .ok (.int i) := by
        unfold Lexeme.token
        dsimp only
        rw [hi]
      exact ⟨.int i, .cons ht .nil, .int i⟩
    · cases h
  | id i =>
    cases h
    exact ⟨.id i, .cons rfl .nil, .id i⟩
  | noOp => exact absurd rfl hw

theorem derives_written (hx : x.token = .ok t) (ho : DerivesOp t o) :
    ∃ w : Written, w ≠ .noOp ∧ w.lexemes = [x] ∧ (w.token : Except (AsError Nat) Op) = .ok o := by
  cases ho with
  | int i =>
    obtain ⟨l, rfl, hi⟩ := token_of hx
    refine ⟨.lit l, by simp, rfl, ?_⟩
    unfold Written.token
    dsimp only
    rw [hi]
  | id i =>
    obtain rfl : x = .id i := token_of hx
    exact ⟨.id i, by simp, rfl, rfl⟩

theorem both_one : d.both .noOp = d.lexemes := List.append_nil _

theorem both_two (hs : s ≠ .noOp) : d.both s = d.lexemes ++ .comma :: s.lexemes := by
  unfold Written.both
  cases s with
  | noOp => exact absurd rfl hs
  | _ => rfl

/-- The operands of an instruction. -/
theorem args_derive (hform : d = .noOp → s = .noOp) {o o' : Op}
    (hd : (d.token : Except (AsError Nat) Op) = .ok o)
    (hs : (s.token : Except (AsError Nat) Op) = .ok o') :
    ∃ ts, Tokens (d.both s) ts ∧ DerivesArgs ts (o, o') := by
  by_cases hd0 : d = .noOp
  · obtain rfl := hform hd0
    subst hd0
    cases hd
    cases hs
    exact ⟨[], .nil, .zero⟩
  · obtain ⟨t, ht, hdo⟩ := written_derives hd0 hd
    by_cases hs0 : s = .noOp
    · subst hs0
      cases hs
      exact ⟨[t], both_one.symm ▸ ht, .one hdo⟩
    · obtain ⟨t', ht', hso⟩ := written_derives hs0 hs
      rw [both_two hs0]
      exact ⟨[t, .comma, t'], List.rel_append ht (.cons rfl ht'), .two hdo hso⟩

theorem args_written {a : Op × Op} (h : DerivesArgs ts a) (hxs : Tokens xs ts) :
    ∃ d s : Written, (d = .noOp → s = .noOp) ∧ d.both s = xs ∧
      (d.token : Except (AsError Nat) Op) = .ok a.1 ∧
      (s.token : Except (AsError Nat) Op) = .ok a.2 := by
  cases h with
  | zero =>
    cases hxs
    exact ⟨.noOp, .noOp, fun _ => rfl, rfl, rfl, rfl⟩
  | one hd =>
    cases hxs with
    | cons hx hnil =>
      cases hnil
      obtain ⟨w, hw, hlex, htok⟩ := derives_written hx hd
      exact ⟨w, .noOp, fun _ => rfl, both_one.trans hlex, htok, rfl⟩
  | two hd hs =>
    cases hxs with
    | @cons x₁ _ _ _ hx h =>
      cases h with
      | @cons x₂ _ _ _ hcomma h =>
        cases h with
        | @cons x₃ _ _ _ hx' hnil =>
          cases hnil
          obtain ⟨w, hw, hlex, htok⟩ := derives_written hx hd
          obtain ⟨w', hw', hlex', htok'⟩ := derives_written hx' hs
          obtain rfl : x₂ = .comma := token_of hcomma
          refine ⟨w, w', fun h => absurd h hw, ?_, htok, htok'⟩
          rw [both_two hw', hlex, hlex']
          rfl

/-- The arguments of a directive. -/
theorem ops_derive {args : List Written} (hform : .noOp ∉ args) {ops : List Op}
    (h : List.Forall₂ (fun w o => (w.token : Except (AsError Nat) Op) = .ok o) args ops) :
    ∃ ts, Tokens (args.flatMap Written.lexemes) ts ∧ List.Forall₂ DerivesOp ts ops := by
  induction h with
  | nil => exact ⟨[], .nil, .nil⟩
  | @cons w o args ops hw _ ih =>
    obtain ⟨hne, hargs⟩ := not_or.mp (List.mem_cons.not.mp hform)
    obtain ⟨t, ht, ho⟩ := written_derives (Ne.symm hne) hw
    obtain ⟨ts, hts, hops⟩ := ih hargs
    exact ⟨t :: ts, List.rel_append ht hts, .cons ho hops⟩

theorem ops_written {ops : List Op} (h : List.Forall₂ DerivesOp ts ops) (hxs : Tokens xs ts) :
    ∃ args : List Written, .noOp ∉ args ∧ args.flatMap Written.lexemes = xs ∧
      List.Forall₂ (fun w o => (w.token : Except (AsError Nat) Op) = .ok o) args ops := by
  induction h generalizing xs with
  | nil =>
    cases hxs
    exact ⟨[], List.not_mem_nil, rfl, .nil⟩
  | cons ho _ ih =>
    cases hxs with
    | cons hx hxs =>
      obtain ⟨w, hw, hlex, htok⟩ := derives_written hx ho
      obtain ⟨args, hform, hargs, htoks⟩ := ih hxs
      refine ⟨w :: args, by simp [Ne.symm hw, hform], ?_, .cons htok htoks⟩
      rw [List.flatMap_cons, hlex, hargs]
      rfl

/-- **A line is derived** as its statement. -/
theorem line_derives (hform : line.Formed) (h : line.parse = .ok st) :
    ∃ ts, Tokens line.lexemes ts ∧ DerivesStatement line.loc ts st := by
  cases line with
  | instr label mnem d s loc =>
    obtain ⟨o, hd, h⟩ := bind_ok.mp h
    obtain ⟨o', hs, h⟩ := bind_ok.mp h
    cases h
    obtain ⟨us, hus, hlabel⟩ : ∃ us, Tokens (label.elim [] fun l => [.id l, .colon]) us ∧
        DerivesLabel us label := by
      cases label with
      | none => exact ⟨[], .nil, .none⟩
      | some l => exact ⟨_, .cons rfl (.cons rfl .nil), .some l⟩
    obtain ⟨us', hus', hinstr⟩ : ∃ us',
        Tokens (if mnem = "" then [] else .id mnem :: d.both s) us' ∧
        DerivesInstr us' (mnem, o, o') := by
      by_cases hm : mnem = ""
      · subst hm
        obtain rfl := hform.1 rfl
        obtain rfl := hform.2 rfl
        cases hd
        cases hs
        exact ⟨[], .nil, .none⟩
      · obtain ⟨ts, hts, hargs⟩ := args_derive hform.2 hd hs
        rw [if_neg hm]
        exact ⟨.id mnem :: ts, .cons rfl hts, .some mnem hargs⟩
    exact ⟨us ++ us' ++ [.eol], (hus.append hus').append (.cons rfl .nil), .instr hlabel hinstr⟩
  | directive dir args loc =>
    obtain ⟨ops, hops, h⟩ := bind_ok.mp h
    cases h
    obtain ⟨ts, hts, hderive⟩ := ops_derive hform (mapM_ok.mp hops)
    have hdir : Tokens [.dir dir] [.dir dir] := .cons rfl .nil
    exact ⟨.dir dir :: ts ++ [.eol], (hdir.append hts).append (.cons rfl .nil),
      .directive dir hderive⟩

/-- **A statement is derived from a line.** -/
theorem line_written (h : DerivesStatement n ts st) (hxs : Tokens xs ts)
    (hid : .id "" ∉ xs) : ∃ line : Line Nat, line.Formed ∧ line.loc = n ∧ line.lexemes = xs ∧
      line.parse = .ok st := by
  cases h with
  | @instr us us' l m d s hl hi =>
    obtain ⟨xs₁, xs₂, rfl, hxs₁, heol⟩ := tokens_split hxs
    obtain ⟨ys, ys', rfl, hys, hys'⟩ := tokens_split hxs₁
    obtain ⟨_, rfl, rfl⟩ := tokens_one heol
    have hlabel : ys = l.elim [] fun l => [.id l, .colon] := by
      cases hl with
      | none =>
        cases hys
        rfl
      | some i =>
        cases hys with
        | cons hi hcolon =>
          obtain ⟨_, rfl, rfl⟩ := tokens_one hcolon
          exact congrArg (· :: _) (token_of hi)
    obtain ⟨d', s', hform, hinstr, hd, hs⟩ : ∃ d' s' : Written,
        ((m = "" → d' = .noOp) ∧ (d' = .noOp → s' = .noOp)) ∧
        (if m = "" then [] else .id m :: d'.both s') = ys' ∧
        (d'.token : Except (AsError Nat) Op) = .ok d ∧
        (s'.token : Except (AsError Nat) Op) = .ok s := by
      cases hi with
      | none =>
        cases hys'
        exact ⟨.noOp, .noOp, ⟨fun _ => rfl, fun _ => rfl⟩, rfl, rfl, rfl⟩
      | some m ha =>
        cases hys' with
        | @cons x _ _ _ hm hargs =>
          obtain rfl : x = .id m := token_of hm
          obtain ⟨d', s', hform, hboth, hd, hs⟩ := args_written ha hargs
          have hne : m ≠ "" := by
            rintro rfl
            exact hid (by simp)
          refine ⟨d', s', ⟨fun h => absurd h hne, hform⟩, ?_, hd, hs⟩
          rw [if_neg hne, hboth]
    refine ⟨.instr l m d' s' n, hform, rfl, ?_, ?_⟩
    · rw [Line.lexemes, hinstr, hlabel]
    · exact bind_ok.mpr ⟨d, hd, bind_ok.mpr ⟨s, hs, rfl⟩⟩
  | directive d h =>
    obtain ⟨xs₁, xs₂, rfl, hxs₁, heol⟩ := tokens_split hxs
    obtain ⟨_, rfl, rfl⟩ := tokens_one heol
    cases hxs₁ with
    | @cons x _ _ _ hdir hops =>
      obtain rfl : x = .dir d := token_of hdir
      obtain ⟨args, hform, hlex, htoks⟩ := ops_written h hops
      refine ⟨.directive d args n, hform, rfl, ?_, ?_⟩
      · rw [Line.lexemes, hlex]
      · exact bind_ok.mpr ⟨_, mapM_ok.mpr htoks, rfl⟩

/-- **A source is derived** as its statements. -/
theorem main_derives (hform : ∀ line ∈ src, line.Formed) (hnum : Numbered n src)
    (h : parse src = .ok ast) :
    ∃ ts, Tokens (src.flatMap Line.lexemes) ts ∧ DerivesMain n ts ast := by
  replace h := mapM_ok.mp h
  induction h generalizing n with
  | nil => exact ⟨[], .nil, .nil n⟩
  | @cons line st src ast hst _ ih =>
    obtain ⟨hline, hsrc⟩ := List.forall_mem_cons.mp hform
    obtain ⟨hloc, hrest⟩ := hnum
    obtain ⟨ts, hts, hstatement⟩ := line_derives hline hst
    obtain ⟨ts', hts', hmain⟩ := ih hsrc hrest
    rw [hloc] at hstatement
    exact ⟨ts ++ ts', hts.append hts', .cons hstatement hmain⟩

/-- **Statements are derived from a source.** -/
theorem main_written (h : DerivesMain n ts ast) (hxs : Tokens xs ts) (hid : .id "" ∉ xs) :
    ∃ src : List (Line Nat), (∀ line ∈ src, line.Formed) ∧ Numbered n src ∧
      src.flatMap Line.lexemes = xs ∧ parse src = .ok ast := by
  induction h generalizing xs with
  | nil n =>
    cases hxs
    exact ⟨[], by simp, trivial, rfl, rfl⟩
  | cons hst _ ih =>
    obtain ⟨ys, ys', rfl, hys, hys'⟩ := tokens_split hxs
    obtain ⟨line, hline, hloc, hlex, hparse⟩ := line_written hst hys
      fun h => hid (List.mem_append_left _ h)
    obtain ⟨src, hsrc, hnum, hrest, hast⟩ := ih hys' fun h => hid (List.mem_append_right _ h)
    refine ⟨line :: src, List.forall_mem_cons.mpr ⟨hline, hsrc⟩, ⟨hloc, hnum⟩, ?_,
      mapM_ok.mpr (.cons hparse (mapM_ok.mp hast))⟩
    rw [List.flatMap_cons, hlex, hrest]

/-- An identifier has a letter. -/
theorem Lexes.id_ne (h : Lexes text xs) : .id "" ∉ xs := by
  induction h with
  | eof => exact List.not_mem_nil
  | last hw => exact List.not_mem_nil
  | white _ _ ih => exact ih
  | newline _ ih => simpa using ih
  | comment _ _ ih => simpa using ih
  | @word w t x xs hw _ _ ih =>
    refine fun hmem => (List.mem_cons.mp hmem).elim (fun h => ?_) ih
    cases hw with
    | id hw =>
      cases w with
      | nil => cases hw
      | cons c w =>
        have hnil := congrArg String.toList (Lexeme.id.inj h)
        simp at hnil
    | int => cases h
    | comma => cases h
    | colon => cases h
    | dir => cases h

/-- **What is read**: exactly the layouts of lines that are well formed and numbered, as the
    statements of these lines. -/
theorem source_read_iff : read text = .ok ast ↔ ∃ src : List (Line Nat),
    (∀ line ∈ src, line.Formed) ∧ Numbered 1 src ∧
    Lexes text (src.flatMap Line.lexemes) ∧ parse src = .ok ast := by
  rw [read_lexes]
  constructor
  · rintro ⟨xs, ts, hlex, hts, hmain⟩
    obtain ⟨src, hform, hnum, rfl, hparse⟩ := main_written hmain hts hlex.id_ne
    exact ⟨src, hform, hnum, hlex, hparse⟩
  · rintro ⟨src, hform, hnum, hlex, hparse⟩
    obtain ⟨ts, hts, hmain⟩ := main_derives hform hnum hparse
    exact ⟨_, ts, hlex, hts, hmain⟩

end

/-! ## 6. A source as a text -/

def Radix.start : Radix → List Char
  | .dec => []
  | .bin => ['0', 'b']
  | .hex => ['0', 'x']

def Literal.word (l : Literal) : List Char :=
  l.radix.start ++ l.digits.map fun d => Nat.digitChar d.val

def Lexeme.word : Lexeme → List Char
  | .int l => l.word
  | .comma => [',']
  | .colon => [':']
  | .id i => i.toList
  | .dir d => d.toList
  | .eol => ['\n']

def layout (xs : List Lexeme) : List Char := xs.flatMap fun x => x.word ++ [' ']

/-- A literal with a digit, a name that is a word. -/
def Lexeme.Printable : Lexeme → Prop
  | .int l => l.digits ≠ []
  | .id i => isIdent i.toList = true
  | .dir d => isDir d.toList = true
  | _ => True

section
variable {c : Char} {w t : List Char} {x : Lexeme} {xs : List Lexeme} {l : Literal}
  {ast : List (Statement Nat)} {src : List (Line Nat)}

theorem digit_dec : ∀ d : Fin 10, isDigit (Nat.digitChar d) = true ∧
    Fin.ofNat 10 (digitValue (Nat.digitChar d)) = d := by decide

theorem digit_bin : ∀ d : Fin 2, isBin (Nat.digitChar d) = true ∧
    Fin.ofNat 2 (digitValue (Nat.digitChar d)) = d := by decide

theorem digit_hex : ∀ d : Fin 16, isHex (Nat.digitChar d) = true ∧
    Fin.ofNat 16 (digitValue (Nat.digitChar d)) = d := by decide

theorem plus_map {n : Nat} {p : Char → Bool} {f : Fin n → Char} {ds : List (Fin n)}
    (hf : ∀ d, p (f d) = true) (hds : ds ≠ []) : plus p (ds.map f) = true := by
  obtain ⟨d, ds, rfl⟩ := List.exists_cons_of_ne_nil hds
  simp [plus, hf]

theorem map_digits {n : Nat} {f : Fin n → Char} {g : Char → Fin n} (h : ∀ d, g (f d) = d)
    (ds : List (Fin n)) : (ds.map f).map g = ds := by
  rw [List.map_map]
  exact List.map_id'' h ds

theorem literal_dec (h : plus isDigit w = true) :
    literal w = ⟨.dec, w.map fun c => Fin.ofNat 10 (digitValue c)⟩ := by
  unfold literal
  split
  · simp [plus, isDigit] at h
  · simp [plus, isDigit] at h
  · rfl

/-- **A literal is spelled** by its word. -/
theorem spells_literal (h : l.digits ≠ []) : Spells l.word (.int l) := by
  obtain ⟨radix, digits⟩ := l
  have hspells : ∀ {w : List Char} {l : Literal}, isInteger w = true → literal w = l →
      Spells w (.int l) := by
    rintro w _ hw rfl
    exact .int hw
  cases radix with
  | dec =>
    have hplus := plus_map (p := isDigit) (fun d => (digit_dec d).1) h
    refine hspells (Bool.or_eq_true_iff.mpr (.inl hplus)) ?_
    exact (literal_dec hplus).trans
      (congrArg (Literal.mk .dec) (map_digits (fun d => (digit_dec d).2) digits))
  | bin =>
    have hplus := plus_map (p := isBin) (fun d => (digit_bin d).1) h
    exact hspells (Bool.or_eq_true_iff.mpr (.inr hplus))
      (congrArg (Literal.mk .bin) (map_digits (fun d => (digit_bin d).2) digits))
  | hex =>
    have hplus := plus_map (p := isHex) (fun d => (digit_hex d).1) h
    exact hspells (Bool.or_eq_true_iff.mpr (.inr hplus))
      (congrArg (Literal.mk .hex) (map_digits (fun d => (digit_hex d).2) digits))

theorem not_plus {p : Char → Bool} (hp : p c = false) (hc : c ∈ w) : plus p w = false := by
  refine Bool.and_eq_false_iff.mpr (.inr (List.all_eq_false.mpr ⟨c, hc, ?_⟩))
  rw [hp]
  exact Bool.false_ne_true

/-- A blank ends a literal. -/
theorem blank_stops : isInteger (w ++ ' ' :: t) = false := by
  have hmem : ' ' ∈ w ++ ' ' :: t := by simp
  refine Bool.or_eq_false_iff.mpr ⟨not_plus rfl hmem, ?_⟩
  split
  · rename_i ds heq
    rw [heq] at hmem
    exact not_plus (c := ' ') rfl (by simpa using hmem)
  · rename_i ds heq
    rw [heq] at hmem
    exact not_plus (c := ' ') rfl (by simpa using hmem)
  · rfl

theorem Spells.stops (h : Spells w x) : Stops w (' ' :: t) x := by
  have hblank : ∀ c ∈ (' ' :: t).head?, isIdentChar c = false := by
    intro c hc
    cases hc
    rfl
  cases x with
  | int l =>
    rintro v hv ⟨u, hu⟩
    obtain ⟨c, v, rfl⟩ := List.exists_cons_of_ne_nil hv
    obtain ⟨rfl, -⟩ := List.cons.inj hu
    exact blank_stops
  | id i => exact hblank
  | dir d => exact hblank
  | comma => trivial
  | colon => trivial
  | eol => trivial

theorem lexes_layout (h : ∀ x ∈ xs, x.Printable) : Lexes (layout xs) xs := by
  induction xs with
  | nil => exact .eof
  | cons x xs ih =>
    obtain ⟨hx, hxs⟩ := List.forall_mem_cons.mp h
    have hrest : Lexes (' ' :: layout xs) xs := .white rfl (ih hxs)
    have htext : layout (x :: xs) = x.word ++ ' ' :: layout xs := by
      unfold layout
      rw [List.flatMap_cons, List.append_assoc, List.singleton_append]
    rw [htext]
    have hword : Spells x.word x → Lexes (x.word ++ ' ' :: layout xs) (x :: xs) :=
      fun hs => .word hs hs.stops hrest
    cases x with
    | int l => exact hword (spells_literal hx)
    | comma => exact hword .comma
    | colon => exact hword .colon
    | id i =>
      refine hword ?_
      have hs := Spells.id hx
      rwa [String.ofList_toList] at hs
    | dir d =>
      refine hword ?_
      have hs := Spells.dir hx
      rwa [String.ofList_toList] at hs
    | eol => exact .newline hrest

/-- **A source that is written down is read back.** -/
theorem read_layout (hform : ∀ line ∈ src, line.Formed) (hnum : Numbered 1 src)
    (hprint : ∀ line ∈ src, ∀ x ∈ line.lexemes, x.Printable) (h : parse src = .ok ast) :
    read (layout (src.flatMap Line.lexemes)) = .ok ast := by
  have hlex := lexes_layout fun x hx =>
    let ⟨line, hline, hmem⟩ := List.mem_flatMap.mp hx
    hprint line hline x hmem
  obtain ⟨ts, hts, hmain⟩ := main_derives hform hnum h
  exact read_lexes.mpr ⟨_, ts, hlex, hts, hmain⟩

end

/-- `.org 2`, then `loop: LDI R0, 0x41`. -/
def loopSource : List (Line Nat) :=
  [.directive ".org" [.lit ⟨.dec, [⟨2, by decide⟩]⟩] 1,
    .instr (some "loop") "LDI" (.id "R0") (.lit ⟨.hex, [⟨4, by decide⟩, ⟨1, by decide⟩]⟩) 2]

theorem read_layout_loop : read (layout (loopSource.flatMap Line.lexemes)) =
    .ok [.directive { dir := ".org", args := [.int 2], loc := 1 },
      .instr { label := some "loop", mnem := "LDI", d := .id "R0", s := .int 65, loc := 2 }] := by
  refine read_layout ?_ ⟨rfl, rfl, trivial⟩ ?_ rfl
  · simp [loopSource, Line.Formed]
  · simp [loopSource, Line.lexemes, Written.both, Written.lexemes, Lexeme.Printable]
    decide

end LsePc.Tools
