/-
  File:      LsePc/Tools/Assembled.lean
  Subject:   What ocd-as assembles is what the On-Chip Debug unit executes.

  * `Placed`, `Fair`: an instruction of a function with the contexts the
    analysis meets it in, and the sources that are asked for (every instruction
    in a function, distinct names, `.org` only forwards, R0 to R15, LDI of words);
  * `Agrees`: the word of an instruction, read with the fields and wires of
    ocd.v, is the instruction;
  * the two passes: references, offsets, labels, words that are not written twice;
  * **result** (`assembled_agrees_iff`): every instruction of a fair source agrees
    exactly when none is a BNE, for which synth.ml emits the word of a BEQ.
-/
import LsePc.Tools.OcdAs
import LsePc.Bridge.OcdIsa

namespace LsePc.Tools

open LsePc.Lib LsePc.Bridge

/-! ## 1. What is asked for -/

/-- The text of a mnemonic: the name ocd.v gives its opcode. -/
def text : Mnem → String
  | .attach => "ATTACH" | .detach => "DETACH" | .exit => "EXIT"
  | .ldi => "LDI" | .mov => "MOV" | .ldd => "LDD" | .ldal => "LDAL" | .ldah => "LDAH"
  | .ldwr => "LDWR" | .lddc => "LDDC" | .ldmio => "LDMIO" | .ldcmp => "LDCMP"
  | .clr => "CLR" | .std => "STD"
  | .start => "START" | .reset => "RESET" | .waitads => "WAITADS" | .waitlock => "WAITLOCK"
  | .waitio => "WAITIO" | .ready => "READY" | .int => "INT" | .nmi => "NMI" | .hold => "HOLD"
  | .cmp => "CMP" | .ba => "BA" | .beq => "BEQ" | .bne => "BNE" | .nop => "NOP"

section
variable {L : Type}

/-- The operand that names the register an instruction reads. -/
def sourceOp (m : Mnem) (i : Instr L) : Option Op :=
  match m with
  | .mov => some i.s
  | .ldcmp | .std | .cmp => some i.d
  | _ => none

/-- The operand that names the register an instruction writes. -/
def destOp (m : Mnem) (i : Instr L) : Option Op :=
  match m with
  | .ldi | .mov | .ldd | .ldal | .ldah | .ldwr | .lddc | .ldmio | .clr => some i.d
  | _ => none

/-- The instructions whose operand is a label. -/
def IsJump (m : Mnem) : Prop := m = .ba ∨ m = .beq ∨ m = .bne

def Statement.func : Statement L → Option String
  | .directive ⟨".func", [.id f], _⟩ => some f
  | _ => none

def Statement.label : Statement L → Option String
  | .instr i => i.label
  | .directive _ => none

/-- The function of the statement after `l`, where `f` is that of the first. -/
def lastFunc (f : Option String) : List (Statement L) → Option String
  | [] => f
  | st :: l => lastFunc (st.func.or f) l

def funcNames (l : List (Statement L)) : List String := l.filterMap Statement.func

/-- The labels of the functions of a source, each with its function. -/
def labelled (f : Option String) : List (Statement L) → List (String × String)
  | [] => []
  | st :: l => (f.bind fun g => st.label.map (g, ·)).toList ++ labelled (st.func.or f) l

/-- The instruction `i` of the function `f` of a source, met by the analysis in `c`. -/
def Placed (ast : List (Statement L)) (f : String) (i : Instr L) (c : Contexts) : Prop :=
  ∃ pre post out, ast = pre ++ .instr i :: post ∧ lastFunc none pre = some f ∧
    analyse createContexts pre = .ok (c, out)

/-- What is asked of a statement, with the contexts the analysis meets it in: R0 to R15,
    LDI of a word, `.org` only forwards. -/
def FairAt (c : Contexts) : Statement L → Prop
  | .instr i =>
    (∀ m o v, text m = i.mnem → (sourceOp m i = some o ∨ destOp m i = some o) →
      getop c i.loc o = .ok v → 0 ≤ v ∧ v < 16) ∧
    (i.mnem = text .ldi → ∀ v, getop c i.loc i.s = .ok v → 0 ≤ v ∧ v < 65536)
  | .directive d => d.dir = ".org" → ∀ n, d.args = [.int n] → c.cur.cursor ≤ n

/-- The sources the result is about. -/
structure Fair (ast : List (Statement L)) : Prop where
  inFunc : ∀ pre i post, ast = pre ++ .instr i :: post → i.mnem ≠ "" → lastFunc none pre ≠ none
  funcs : (funcNames ast).Nodup
  labels : (labelled none ast).Nodup
  along : Along analyseStatement FairAt createContexts ast

/-! ## 2. What the unit makes of a word -/

/-- The register `do_fetch` addresses, of the words whose operand is a register. -/
def readReg (w : Word) : Option (BitVec 4) :=
  if memLoad w && !instrLdi w then some (s w) else none

/-- The register `do_exec` addresses, of the words that store. -/
def writtenReg (w : Word) : Option (BitVec 4) := if memStore w then some (d w) else none

theorem doFetch_readReg {w : Word} {r : BitVec 4} (h : readReg w = some r) (o : Ocd) :
    (doFetch o w).memAddress = Arch.regAddr r := by
  unfold readReg at h
  split at h
  · rename_i hw
    rw [Bool.and_eq_true, Bool.not_eq_true'] at hw
    have hop : op w ≠ Opc.ldi := by
      intro he
      have := hw.2
      rw [instrLdi, instrIs, he, beq_self_eq_true] at this
      cases this
    cases h
    simp only [doFetch, if_neg hop]
    rfl
  · cases h

theorem doExec_writtenReg {o : Ocd} {r : BitVec 4} (h : writtenReg o.instr = some r)
    {i : OcdIn} (hi : execWait o.instr i = false) (m : Word) :
    (doExec o i m).memAddress = Arch.regAddr r ∧ (doExec o i m).memWrite = true := by
  unfold writtenReg at h
  split at h
  · rename_i hw
    cases h
    simp [doExec, hi, hw, Arch.regAddr]
  · cases h

/-- A register of ocd.v is the value of an operand, or there is neither. -/
def RegIs (c : Contexts) (loc : L) (o : Option Op) (r : Option (BitVec 4)) : Prop :=
  Option.Rel (fun o r => getop c loc o = .ok (r.toNat : Int)) o r

/-- The word `w` of the function's context `x` is the instruction `i` with mnemonic `m`. -/
structure Encodes (ast : List (Statement L)) (f : String) (i : Instr L) (c : Contexts)
    (x : Context) (m : Mnem) (w : Word) : Prop where
  wires : ∀ m' : Mnem, m'.wire w = true ↔ m' = m
  source : RegIs c i.loc (sourceOp m i) (readReg w)
  dest : RegIs c i.loc (destOp m i) (writtenReg w)
  immediate : m = .ldi → ∃ v : Word, getop c i.loc i.s = .ok (v.toNat : Int) ∧
    x.read (c.cur.cursor + 1) = some (v.toNat : Int)
  target : IsJump m → ∀ l, i.d = .id l →
    (∃ j cj, Placed ast f j cj ∧ j.label = some l) ∧
    ∀ j cj, Placed ast f j cj → j.label = some l → cj.cur.cursor < 256 →
      ((addr w).toNat : Int) = cj.cur.cursor

/-- The assembled program `c'` holds the instruction where the analysis has put it. -/
def Agrees (ast : List (Statement L)) (c' : Contexts) (f : String) (i : Instr L)
    (c : Contexts) : Prop :=
  ∃ (x : Context) (m : Mnem) (w : Word), c'.func f = some x ∧ text m = i.mnem ∧
    x.read c.cur.cursor = some (w.toNat : Int) ∧ Encodes ast f i c x m w

/-! ## 3. The first pass -/

/-- The operation of a mnemonic, of any operands. -/
def Operation.mnem : Operation → Option Mnem
  | .attach => some .attach | .detach => some .detach | .exit => some .exit
  | .ldi _ _ => some .ldi | .mov _ _ => some .mov | .ldcmp _ => some .ldcmp
  | .ldd _ => some .ldd | .ldal _ => some .ldal | .ldah _ => some .ldah
  | .ldwr _ => some .ldwr | .lddc _ => some .lddc | .ldmio _ => some .ldmio
  | .clr _ => some .clr | .std _ => some .std
  | .start => some .start | .reset => some .reset | .waitads => some .waitads
  | .waitlock => some .waitlock | .waitio => some .waitio | .ready => some .ready
  | .hold => some .hold | .int => some .int | .nmi => some .nmi
  | .cmp _ => some .cmp | .beq => some .beq | .bne => some .bne | .ba => some .ba
  | .nop => some .nop | .ud => none

/-- The register an operation reads. -/
def Operation.src : Operation → Option Int
  | .mov _ v | .ldcmp v | .std v | .cmp v => some v
  | _ => none

/-- The register an operation writes. -/
def Operation.dst : Operation → Option Int
  | .ldi v _ | .mov v _ | .ldd v | .ldal v | .ldah v | .ldwr v | .lddc v | .ldmio v | .clr v =>
    some v
  | _ => none

/-- The operands of an operation are the values of those of the instruction. -/
structure Means (c : Contexts) (i : Instr L) (m : Mnem) (p : Operation) : Prop where
  mnem : p.mnem = some m
  text : text m = i.mnem
  src : Option.Rel (fun o v => getop c i.loc o = .ok v) (sourceOp m i) p.src
  dst : Option.Rel (fun o v => getop c i.loc o = .ok v) (destOp m i) p.dst
  imm : ∀ d v, p = .ldi d v → getop c i.loc i.s = .ok v

/-- **What `analyse_instr` makes of an instruction**: its mnemonic on its operands. -/
theorem operation_means {c : Contexts} {i : Instr L} {p : Operation}
    (h : operation c i = .ok p) : (i.mnem = "" ∧ p = .ud) ∨ ∃ m, Means c i m p := by
  unfold operation at h
  split at h <;> rename_i hm
  case h_30 => cases h
  case h_4 =>
    obtain ⟨s, hs, h⟩ := bind_ok.mp h
    obtain ⟨d, hd, h⟩ := bind_ok.mp h
    cases h
    exact .inr ⟨.ldi, rfl, hm.symm, .none, .some hd, fun _ _ e => by cases e; exact hs⟩
  case h_5 =>
    obtain ⟨s, hs, h⟩ := bind_ok.mp h
    obtain ⟨d, hd, h⟩ := bind_ok.mp h
    cases h
    exact .inr ⟨.mov, rfl, hm.symm, .some hs, .some hd, nofun⟩
  -- one operand, read or written, or none
  all_goals first
    | cases h; exact .inl ⟨hm, rfl⟩
    | cases h; exact .inr ⟨_, rfl, hm.symm, .none, .none, nofun⟩
    | obtain ⟨v, hv, h⟩ := bind_ok.mp h
      cases h
      first
        | exact .inr ⟨_, rfl, hm.symm, .some hv, .none, nofun⟩
        | exact .inr ⟨_, rfl, hm.symm, .none, .some hv, nofun⟩

/-- The context an instruction leaves. -/
def Context.after (x : Context) (i : Instr L) (p : Operation) : Context :=
  { labels := match i.label with
      | some l => x.labels.add l x.cursor
      | none => x.labels
    cursor := x.cursor + p.size
    progMem := x.progMem }

/-- **What the analysis of a statement can do.** -/
theorem analyseStatement_cases {c c' : Contexts} {st st' : Statement L}
    (h : analyseStatement c st = .ok (c', st')) :
    (∃ i p, st = .instr i ∧ operation c i = .ok p ∧
      st' = .instr { i with op := p, offset := c.cur.cursor } ∧
      c' = c.setCur (c.cur.after i p)) ∨
    (∃ d k, st = .directive d ∧ st.func = none ∧ st' = st ∧ c' = { c with const := k }) ∨
    (∃ d n, st = .directive d ∧ st.func = none ∧ d.dir = ".org" ∧ d.args = [.int n] ∧ st' = st ∧
      c' = c.setCur { c.cur with cursor := n }) ∨
    (∃ d f, st = .directive d ∧ st.func = some f ∧ st' = st ∧ c' = c.newFunc f) := by
  cases st with
  | instr i =>
    obtain ⟨⟨c₁, i₁⟩, hi, h⟩ := bind_ok.mp h
    obtain ⟨p, hp, hi⟩ := bind_ok.mp hi
    cases h
    cases hi
    refine .inl ⟨i, p, rfl, hp, rfl, ?_⟩
    cases hl : i.label <;> simp [Context.after, hl]
  | directive d =>
    obtain ⟨c₁, hd, h⟩ := bind_ok.mp h
    cases h
    obtain ⟨dir, args, loc⟩ := d
    unfold analyseDir at hd
    split at hd <;> rename_i hdir
    case h_4 => cases hd
    all_goals dsimp only at hdir hd; subst hdir
    · unfold dirDefine at hd
      split at hd
      · obtain ⟨v, -, hd⟩ := bind_ok.mp hd
        cases hd
        exact .inr (.inl ⟨_, _, rfl, by simp [Statement.func], rfl, rfl⟩)
      · cases hd
    · unfold dirOrg at hd
      split at hd
      · cases hd
        exact .inr (.inr (.inl ⟨_, _, rfl, by simp [Statement.func], rfl, rfl, rfl, rfl⟩))
      · cases hd
    · unfold dirFunc at hd
      split at hd
      · cases hd
        exact .inr (.inr (.inr ⟨_, _, rfl, rfl, rfl, rfl⟩))
      · cases hd

/-! ### Tables and references -/

theorem Hashtbl.find_add {α : Type} (t : Hashtbl α) (k k' : String) (v : α) :
    (t.add k v).find k' = if k' = k then some v else t.find k' := by
  unfold Hashtbl.find Hashtbl.add
  rw [List.lookup_cons]
  by_cases h : k' = k
  · simp [h]
  · rw [beq_false_of_ne h, if_neg h]

@[simp] theorem setCur_self (c : Contexts) (x : Context) : (c.setCur x).heap c.ctxt = x :=
  Function.update_self ..

theorem setCur_ne {c : Contexts} {r : Ref} (h : r ≠ c.ctxt) (x : Context) :
    (c.setCur x).heap r = c.heap r := Function.update_of_ne h ..

theorem newFunc_lt {c : Contexts} {r : Ref} (h : r < c.fresh) (f : String) :
    (c.newFunc f).heap r = c.heap r := Function.update_of_ne (Nat.ne_of_lt h) ..

theorem analyseStatement_func {c c' : Contexts} {st st' : Statement L}
    (h : analyseStatement c st = .ok (c', st')) : st'.func = st.func := by
  obtain ⟨i, p, rfl, -, rfl, -⟩ | ⟨d, k, -, -, rfl, -⟩ | ⟨d, n, -, -, -, -, rfl, -⟩ |
    ⟨d, f, -, -, rfl, -⟩ := analyseStatement_cases h
  all_goals rfl

theorem lastFunc_append (g : Option String) (l₁ l₂ : List (Statement L)) :
    lastFunc g (l₁ ++ l₂) = lastFunc (lastFunc g l₁) l₂ := by
  induction l₁ generalizing g with
  | nil => rfl
  | cons st l₁ ih => exact ih _

theorem mem_funcNames {g : Option String} {l : List (Statement L)} {f : String}
    (h : lastFunc g l = some f) : g = some f ∨ f ∈ funcNames l := by
  induction l generalizing g with
  | nil => exact .inl h
  | cons st l ih =>
    rcases ih h with hg | hl
    · rcases Option.or_eq_some_iff.mp hg with hs | ⟨-, hg⟩
      · exact .inr (List.mem_filterMap.mpr ⟨st, List.mem_cons_self, hs⟩)
      · exact .inl hg
    · right
      unfold funcNames at hl ⊢
      rw [List.filterMap_cons]
      split
      · exact hl
      · exact List.mem_cons_of_mem _ hl

theorem analyse_lastFunc {c c' : Contexts} {l out : List (Statement L)}
    (h : analyse c l = .ok (c', out)) (g : Option String) : lastFunc g out = lastFunc g l := by
  induction l generalizing c out g with
  | nil =>
    obtain ⟨-, rfl⟩ := annotate_nil.mp h
    rfl
  | cons st l ih =>
    obtain ⟨c₁, st', out₁, hst, hl, rfl⟩ := annotate_cons.mp h
    change lastFunc (st'.func.or g) out₁ = lastFunc (st.func.or g) l
    rw [analyseStatement_func hst]
    exact ih hl _

/-- The references of the functions, and the one the cursor stands in. -/
structure Sound (g : Option String) (c : Contexts) : Prop where
  lt : c.ctxt < c.fresh
  refs : ∀ f r, c.funcs.find f = some r → 0 < r ∧ r < c.fresh
  inj : ∀ f f' r, c.funcs.find f = some r → c.funcs.find f' = some r → f = f'
  here : ∀ f, g = some f → c.funcs.find f = some c.ctxt
  outside : g = none → c.ctxt = 0
  nonneg : ∀ r, 0 ≤ (c.heap r).cursor

theorem sound_init : Sound none createContexts :=
  ⟨Nat.zero_lt_one, nofun, nofun, nofun, fun _ => rfl, fun _ => Int.le_refl 0⟩

theorem Operation.size_nonneg (p : Operation) : 0 ≤ p.size := by
  cases p <;> simp [size]

theorem Sound.setCur {g : Option String} {c : Contexts} (h : Sound g c) {x : Context}
    (hx : 0 ≤ x.cursor) : Sound g (c.setCur x) := by
  refine ⟨h.lt, h.refs, h.inj, h.here, h.outside, fun r => ?_⟩
  by_cases hr : r = c.ctxt
  · rw [hr, setCur_self]
    exact hx
  · rw [setCur_ne hr]
    exact h.nonneg r

theorem Sound.newFunc {g : Option String} {c : Contexts} (h : Sound g c) (f : String) :
    Sound (some f) (c.newFunc f) := by
  have hf : ∀ f', (c.newFunc f).funcs.find f' = if f' = f then some c.fresh else c.funcs.find f' :=
    fun f' => Hashtbl.find_add ..
  refine ⟨Nat.lt_succ_self _, fun f' r hr => ?_, fun f₁ f₂ r h₁ h₂ => ?_, fun f' e => ?_, nofun,
    fun r => ?_⟩
  · change 0 < r ∧ r < c.fresh + 1
    rw [hf] at hr
    split at hr
    · cases hr
      exact ⟨Nat.zero_lt_of_lt h.lt, Nat.lt_succ_self _⟩
    · exact ⟨(h.refs f' r hr).1, Nat.lt_succ_of_lt (h.refs f' r hr).2⟩
  · rw [hf] at h₁ h₂
    split at h₁ <;> split at h₂
    · simp_all
    · cases h₁
      exact absurd (h.refs f₂ _ h₂).2 (Nat.lt_irrefl _)
    · cases h₂
      exact absurd (h.refs f₁ _ h₁).2 (Nat.lt_irrefl _)
    · exact h.inj f₁ f₂ r h₁ h₂
  · cases e
    rw [hf, if_pos rfl]
    rfl
  · change 0 ≤ (Function.update c.heap c.fresh createContext r).cursor
    rw [Function.update_apply]
    split
    · exact Int.le_refl 0
    · exact h.nonneg r

theorem Sound.step {g : Option String} {c c' : Contexts} {st st' : Statement L} (h : Sound g c)
    (hfair : FairAt c st) (hs : analyseStatement c st = .ok (c', st')) :
    Sound (st.func.or g) c' := by
  obtain ⟨i, p, rfl, -, -, rfl⟩ | ⟨d, k, rfl, hf, -, rfl⟩ | ⟨d, n, rfl, hf, hd, ha, -, rfl⟩ |
    ⟨d, f, rfl, hf, -, rfl⟩ := analyseStatement_cases hs
  · exact h.setCur (Int.add_nonneg (h.nonneg _) p.size_nonneg)
  · rw [hf]
    exact ⟨h.lt, h.refs, h.inj, h.here, h.outside, h.nonneg⟩
  · rw [hf]
    exact h.setCur (Int.le_trans (h.nonneg _) (hfair hd n ha))
  · rw [hf]
    exact h.newFunc f

theorem analyse_sound {ast pre post out : List (Statement L)} {c : Contexts}
    (hfair : Along analyseStatement FairAt createContexts ast) (hast : ast = pre ++ post)
    (h : analyse createContexts pre = .ok (c, out)) : Sound (lastFunc none pre) c := by
  refine annotate_history (R := fun l c => Sound (lastFunc none l) c) ?_ h sound_init
  intro l st l' c₁ c₂ st' out₁ hl hrun hst hR
  rw [hast, hl, List.append_assoc] at hfair
  rw [lastFunc_append]
  exact hR.step (hfair.of_append hrun).1 hst

/-- A name that is not declared again keeps its reference. -/
theorem analyse_find {c c' : Contexts} {l out : List (Statement L)} {f : String}
    (h : analyse c l = .ok (c', out)) (hf : f ∉ funcNames l) :
    c'.funcs.find f = c.funcs.find f := by
  refine (annotate_induct (R := fun l c₁ => f ∉ funcNames l ∧ c₁.funcs.find f = c.funcs.find f)
    ?_ h ⟨hf, rfl⟩).2
  intro st l c₁ c₂ st' hst h
  obtain ⟨hl, hR⟩ := h
  unfold funcNames at hl
  rw [List.filterMap_cons] at hl
  obtain ⟨i, p, rfl, -, -, rfl⟩ | ⟨d, k, rfl, hd, -, rfl⟩ | ⟨d, n, rfl, hd, -, -, -, rfl⟩ |
    ⟨d, f', rfl, hd, -, rfl⟩ := analyseStatement_cases hst
  · exact ⟨hl, hR⟩
  · rw [hd] at hl
    exact ⟨hl, hR⟩
  · rw [hd] at hl
    exact ⟨hl, hR⟩
  · rw [hd] at hl
    refine ⟨fun h => hl (List.mem_cons_of_mem _ h), ?_⟩
    change (c₁.funcs.add f' c₁.fresh).find f = _
    have hne : f ≠ f' := by
      intro he
      obtain rfl := he
      exact hl List.mem_cons_self
    rw [Hashtbl.find_add, if_neg hne, hR]

/-! ### Labels -/

theorem after_find (x : Context) (i : Instr L) (p : Operation) (l : String) :
    (x.after i p).labels.find l = if i.label = some l then some x.cursor else x.labels.find l := by
  unfold Context.after
  cases hl : i.label with
  | none => simp
  | some l' =>
    change (x.labels.add l' x.cursor).find l = _
    rw [Hashtbl.find_add]
    simp [eq_comm]

/-- A label that does not come again in its function keeps its value. -/
theorem analyse_label {c c' : Contexts} {l out : List (Statement L)} {g : Option String}
    {f x : String} {r : Ref} (h : analyse c l = .ok (c', out)) (hx : (f, x) ∉ labelled g l)
    (hr : r < c.fresh) (hg : c.ctxt = r → g = some f) :
    (c'.heap r).labels.find x = (c.heap r).labels.find x := by
  refine Exists.elim (annotate_induct
    (R := fun l c₁ => ∃ g, (f, x) ∉ labelled g l ∧ r < c₁.fresh ∧ (c₁.ctxt = r → g = some f) ∧
      (c₁.heap r).labels.find x = (c.heap r).labels.find x) ?_ h ⟨g, hx, hr, hg, rfl⟩)
    fun _ hR => hR.2.2.2
  intro st l c₁ c₂ st' hst h
  obtain ⟨g, hx, hr, hg, hR⟩ := h
  obtain ⟨i, p, rfl, -, -, rfl⟩ | ⟨d, k, rfl, hd, -, rfl⟩ | ⟨d, n, rfl, hd, -, -, -, rfl⟩ |
    ⟨d, f', rfl, hd, -, rfl⟩ := analyseStatement_cases hst
  · refine ⟨g, fun h => hx (List.mem_append_right _ h), hr, hg, ?_⟩
    by_cases hc : r = c₁.ctxt
    · subst hc
      have hl : i.label ≠ some x := by
        intro hl
        refine hx (List.mem_append_left _ ?_)
        simp [hg rfl, Statement.label, hl]
      rw [setCur_self, after_find, if_neg hl]
      exact hR
    · rw [setCur_ne hc]
      exact hR
  · refine ⟨g, fun h => hx (List.mem_append_right _ ?_), hr, hg, hR⟩
    rwa [hd]
  · refine ⟨g, fun h => hx (List.mem_append_right _ ?_), hr, hg, ?_⟩
    · rwa [hd]
    · by_cases hc : r = c₁.ctxt
      · subst hc
        rw [setCur_self]
        exact hR
      · rw [setCur_ne hc]
        exact hR
  · refine ⟨some f', fun h => hx (List.mem_append_right _ ?_), Nat.lt_succ_of_lt hr,
      fun e => absurd (e ▸ hr) (Nat.lt_irrefl _), ?_⟩
    · rwa [hd]
    · rw [newFunc_lt hr]
      exact hR

/-- Every label of a function's table stands at an instruction of the function. -/
theorem analyse_labels {ast out : List (Statement L)} {c : Contexts}
    (hfair : Along analyseStatement FairAt createContexts ast)
    (h : analyse createContexts ast = .ok (c, out)) {f x : String} {r : Ref} {v : Int}
    (hf : c.funcs.find f = some r) (hx : (c.heap r).labels.find x = some v) :
    ∃ j cj, Placed ast f j cj ∧ j.label = some x ∧ cj.cur.cursor = v := by
  refine annotate_history (R := fun _ c₁ => ∀ f r v, c₁.funcs.find f = some r →
    (c₁.heap r).labels.find x = some v →
    ∃ j cj, Placed ast f j cj ∧ j.label = some x ∧ cj.cur.cursor = v) ?_ h nofun f r v hf hx
  intro pre st post c₁ c₂ st' out₁ hl hrun hst hR f r v hf hx
  have hsound := analyse_sound hfair hl hrun
  obtain ⟨i, p, rfl, -, -, rfl⟩ | ⟨d, k, rfl, hd, -, rfl⟩ | ⟨d, n, rfl, hd, -, -, -, rfl⟩ |
    ⟨d, f', rfl, hd, -, rfl⟩ := analyseStatement_cases hst
  · by_cases hc : r = c₁.ctxt
    · subst hc
      rw [setCur_self, after_find] at hx
      split at hx
      · rename_i hi
        cases hx
        refine ⟨i, c₁, ⟨pre, post, out₁, hl, ?_, hrun⟩, hi, rfl⟩
        cases hlast : lastFunc none pre with
        | none =>
          have h0 := (hsound.refs f _ hf).1
          rw [hsound.outside hlast] at h0
          exact absurd h0 (Nat.lt_irrefl 0)
        | some g => rw [hsound.inj f g _ hf (hsound.here g hlast)]
      · exact hR f _ v hf hx
    · rw [setCur_ne hc] at hx
      exact hR f r v hf hx
  · exact hR f r v hf hx
  · by_cases hc : r = c₁.ctxt
    · subst hc
      rw [setCur_self] at hx
      exact hR f _ v hf hx
    · rw [setCur_ne hc] at hx
      exact hR f r v hf hx
  · change (c₁.funcs.add f' c₁.fresh).find f = _ at hf
    rw [Hashtbl.find_add] at hf
    split at hf
    · cases hf
      change (Function.update c₁.heap c₁.fresh createContext c₁.fresh).labels.find x = _ at hx
      rw [Function.update_self] at hx
      cases hx
    · rw [newFunc_lt (hsound.refs f r hf).2] at hx
      exact hR f r v hf hx

/-! ## 4. The second pass -/

/-! ### One word -/

theorem store_ok {x x' : Context} {i v : Int}
    (h : (x.store i v : Except (AsError L) Context) = .ok x') :
    x'.labels = x.labels ∧ ∀ k, x'.read k = if k = i then some v else x.read k := by
  unfold Context.store at h
  split at h
  case isFalse => cases h
  rename_i hi
  cases h
  refine ⟨rfl, fun k => ?_⟩
  unfold Context.read
  by_cases hk : 0 ≤ k ∧ k < 256
  · simp only [dif_pos hk, Vector.getElem_set]
    by_cases he : k = i
    · rw [if_pos he, if_pos (by rw [he])]
    · rw [if_neg he, if_neg (by omega)]
  · have he : k ≠ i := by
      intro he
      obtain rfl := he
      exact hk hi
    rw [dif_neg hk, dif_neg hk, if_neg he]

/-- The opcode `synth_instr` emits for an operation. -/
def Operation.code : Operation → Nat
  | .attach => opAttach | .detach => opDetach | .exit => opExit
  | .ldi _ _ => opLdi | .mov _ _ => opMov | .ldcmp _ => opLdcmp | .ldd _ => opLdd
  | .ldal _ => opLdal | .ldah _ => opLdah | .ldwr _ => opLdwr | .lddc _ => opLddc
  | .ldmio _ => opLdmio | .clr _ => opClr | .std _ => opStd
  | .start => opStart | .reset => opReset | .waitads => opWaitads | .waitlock => opWaitlock
  | .waitio => opWaitio | .ready => opReady | .hold => opHold | .int => opInt | .nmi => opNmi
  | .cmp _ => opCmp | .beq => opBeq | .bne => opBeq | .ba => opBa
  | .nop => opNop | .ud => 0

theorem Operation.code_lt (p : Operation) : p.code < 256 := by
  cases p <;> (simp only [code]; decide)

/-- The opcodes of synth.ml are those of ocd.v, in every row but one. -/
theorem Operation.code_eq {p : Operation} {m : Mnem} (h : p.mnem = some m) :
    BitVec.ofNat 8 p.code = if m = .bne then Mnem.beq.code else m.code := by
  cases p <;> cases h <;> (simp only [code]; decide)

/-- The word `synth_instr` stores at the offset of an instruction. -/
def Emits (x : Context) (i : Instr L) (n : Nat) : Prop :=
  match i.op with
  | .ba | .beq | .bne => ∃ a, getAddr x i.loc i.d = .ok a ∧ n = opcodeAddr i.op.code a
  | .nop => n = opcode opNop 0xFF 0xFF
  | p => n = opcode p.code (p.dst.getD 0) (p.src.getD 0)

/-- **What `synth_instr` does**: the word of the instruction, after the immediate of an LDI. -/
theorem synthInstr_ok {x x' : Context} {i : Instr L} (h : synthInstr x i = .ok x') :
    ∃ n x₁, Emits x i n ∧ (x₁.store i.offset n : Except (AsError L) Context) = .ok x' ∧
      ((x₁ = x ∧ i.op.mnem ≠ some .ldi) ∨
        ∃ d s, i.op = .ldi d s ∧
          (x.store (i.offset + 1) s : Except (AsError L) Context) = .ok x₁) := by
  unfold synthInstr at h
  unfold Emits
  cases hop : i.op <;> rw [hop] at h
  case ldi d s =>
    obtain ⟨x₁, hs, h⟩ := bind_ok.mp h
    exact ⟨_, x₁, rfl, h, .inr ⟨d, s, rfl, hs⟩⟩
  case ud => cases h
  case ba | beq | bne =>
    obtain ⟨a, ha, h⟩ := bind_ok.mp h
    exact ⟨_, x, ⟨a, ha, rfl⟩, h, .inl ⟨rfl, nofun⟩⟩
  all_goals exact ⟨_, x, rfl, h, .inl ⟨rfl, nofun⟩⟩

theorem low_lt (n : Nat) (v : Int) : low n v < 2 ^ n := by
  have hpos : (0 : Int) < 2 ^ n := Int.pow_pos (by omega)
  have h := Int.emod_lt_of_pos v hpos
  have h' := Int.emod_nonneg v (Int.ne_of_gt hpos)
  have hcast : ((2 ^ n : Nat) : Int) = 2 ^ n := by push_cast; rfl
  unfold low
  omega

theorem opcode_eq (i : Nat) (d s : Int) : opcode i d s = i * 256 + (low 4 s * 16 + low 4 d) := by
  have hd := low_lt 4 d
  have hs := low_lt 4 s
  have hlow : (low 4 s <<< 4) ||| low 4 d = low 4 s * 16 + low 4 d :=
    (Nat.shiftLeft_add_eq_or_of_lt hd _).symm.trans (by rw [Nat.shiftLeft_eq])
  unfold opcode
  rw [hlow, ← Nat.shiftLeft_add_eq_or_of_lt (by omega), Nat.shiftLeft_eq]

theorem opcodeAddr_eq (i : Nat) (a : Int) : opcodeAddr i a = i * 256 + low 8 a := by
  unfold opcodeAddr
  rw [← Nat.shiftLeft_add_eq_or_of_lt (low_lt 8 a), Nat.shiftLeft_eq]

/-- A word cut into the fields of ocd.v. -/
theorem fields_toNat (w : Word) : (op w).toNat = w.toNat / 256 ∧ (addr w).toNat = w.toNat % 256 ∧
    (s w).toNat = w.toNat / 16 % 16 ∧ (d w).toNat = w.toNat % 16 := by
  have hw := w.isLt
  simp only [op, addr, s, d, BitVec.extractLsb'_toNat, Nat.shiftRight_eq_div_pow]
  refine ⟨?_, ?_, trivial, ?_⟩ <;> omega

/-- **The word of an instruction, read with the fields of ocd.v.** -/
theorem Emits.fields {x : Context} {i : Instr L} {n : Nat} {m : Mnem} (h : Emits x i n)
    (hm : i.op.mnem = some m) :
    ∃ w : Word, n = w.toNat ∧ op w = BitVec.ofNat 8 i.op.code ∧
      (∀ v, i.op.src = some v → (s w).toNat = low 4 v) ∧
      (∀ v, i.op.dst = some v → (d w).toNat = low 4 v) ∧
      (IsJump m → ∃ a, getAddr x i.loc i.d = .ok a ∧ (addr w).toNat = low 8 a) := by
  have hc := i.op.code_lt
  have hop : ∀ v : Int, low 4 v < 16 := low_lt 4
  have hregs : ∀ dv sv : Int, n = opcode i.op.code dv sv → ∃ w : Word, n = w.toNat ∧
      op w = BitVec.ofNat 8 i.op.code ∧ (s w).toNat = low 4 sv ∧ (d w).toNat = low 4 dv := by
    intro dv sv hn
    have := hop dv
    have := hop sv
    rw [opcode_eq] at hn
    have hw : (BitVec.ofNat 16 n).toNat = n := by rw [BitVec.toNat_ofNat]; omega
    have hf := fields_toNat (BitVec.ofNat 16 n)
    rw [hw] at hf
    refine ⟨BitVec.ofNat 16 n, hw.symm, BitVec.eq_of_toNat_eq ?_, by omega, by omega⟩
    rw [BitVec.toNat_ofNat]
    omega
  have hjump : ∀ a : Int, n = opcodeAddr i.op.code a → ∃ w : Word, n = w.toNat ∧
      op w = BitVec.ofNat 8 i.op.code ∧ (addr w).toNat = low 8 a := by
    intro a hn
    have : low 8 a < 256 := low_lt 8 a
    rw [opcodeAddr_eq] at hn
    have hw : (BitVec.ofNat 16 n).toNat = n := by rw [BitVec.toNat_ofNat]; omega
    have hf := fields_toNat (BitVec.ofNat 16 n)
    rw [hw] at hf
    refine ⟨BitVec.ofNat 16 n, hw.symm, BitVec.eq_of_toNat_eq ?_, by omega⟩
    rw [BitVec.toNat_ofNat]
    omega
  unfold Emits at h
  generalize i.op = p at h hm hregs hjump ⊢
  cases p <;> cases hm <;> dsimp only at h
  case ba | beq | bne =>
    obtain ⟨a, ha, hn⟩ := h
    obtain ⟨w, hw, ho, hadr⟩ := hjump a hn
    exact ⟨w, hw, ho, nofun, nofun, fun _ => ⟨a, ha, hadr⟩⟩
  all_goals
    obtain ⟨w, hw, ho, hs, hd⟩ := hregs _ _ h
    refine ⟨w, hw, ho, fun v hv => ?_, fun v hv => ?_, fun hj => ?_⟩
    · first | (cases hv; exact hs) | cases hv
    · first | (cases hv; exact hd) | cases hv
    · rcases hj with hj | hj | hj <;> cases hj

/-! ### What a word makes the unit read and write -/

theorem mnem_wire {w : Word} {m : Mnem} (h : mnem w = some m) (m' : Mnem) :
    m'.wire w = decide (m' = m) := by
  rw [m'.wire_mnem, h, decide_eq_decide, Option.some.injEq, eq_comm]

/-- A word whose mnemonic has a source register, and no other, reads `R[s]`. -/
theorem readReg_eq {w : Word} {p : Operation} {m : Mnem} (hp : p.mnem = some m)
    (h : mnem w = some m) : readReg w = p.src.map fun _ => s w := by
  have hw := mnem_wire h
  have h₁ : instrLdi w = _ := hw .ldi
  have h₂ : instrMov w = _ := hw .mov
  have h₃ : instrLdcmp w = _ := hw .ldcmp
  have h₄ : instrCmp w = _ := hw .cmp
  have h₅ : instrStd w = _ := hw .std
  unfold readReg memLoad
  rw [h₁, h₂, h₃, h₄, h₅]
  cases p <;> cases hp <;> rfl

/-- A word whose mnemonic has a destination register, and no other, writes `R[d]`. -/
theorem writtenReg_eq {w : Word} {p : Operation} {m : Mnem} (hp : p.mnem = some m)
    (h : mnem w = some m) : writtenReg w = p.dst.map fun _ => d w := by
  have hw := mnem_wire h
  have h₁ : instrLdi w = _ := hw .ldi
  have h₂ : instrMov w = _ := hw .mov
  have h₃ : instrLdd w = _ := hw .ldd
  have h₄ : instrLdal w = _ := hw .ldal
  have h₅ : instrLdah w = _ := hw .ldah
  have h₆ : instrLdwr w = _ := hw .ldwr
  have h₇ : instrLddc w = _ := hw .lddc
  have h₈ : instrLdmio w = _ := hw .ldmio
  have h₉ : instrClr w = _ := hw .clr
  unfold writtenReg memStore
  rw [h₁, h₂, h₃, h₄, h₅, h₆, h₇, h₈, h₉]
  cases p <;> cases hp <;> rfl

/-- A register field that holds an operand below 16 is the operand. -/
theorem RegIs.of_field {c : Contexts} {loc : L} {o : Option Op} {v : Option Int} {r : BitVec 4}
    (h : Option.Rel (fun o v => getop c loc o = .ok v) o v)
    (hlt : ∀ o' v, o = some o' → getop c loc o' = .ok v → 0 ≤ v ∧ v < 16)
    (hr : ∀ u, v = some u → r.toNat = low 4 u) : RegIs c loc o (v.map fun _ => r) := by
  cases h with
  | none => exact .none
  | @some o u ho =>
    refine .some ?_
    have := hlt o u rfl ho
    rw [ho, hr u rfl, low]
    congr
    omega

/-! ### The pass -/

/-- **What the second pass can do with a statement.** -/
theorem synthStatement_cases {s s' : Contexts} {st : Statement L}
    (h : synthStatement s st = .ok s') :
    (∃ i x, st = .instr i ∧ i.op ≠ .ud ∧ synthInstr s.cur i = .ok x ∧ s' = s.setCur x) ∨
    (s' = s ∧ st.func = none ∧ ∀ i, st = .instr i → i.op = .ud) ∨
    ∃ f r, st.func = some f ∧ s.funcs.find f = some r ∧ s' = { s with ctxt := r } := by
  cases st with
  | instr i =>
    rw [synthStatement] at h
    split at h
    · rename_i hud
      obtain ⟨x, hx, h⟩ := bind_ok.mp h
      cases h
      exact .inl ⟨i, x, rfl, hud, hx, rfl⟩
    · rename_i hud
      cases h
      exact .inr (.inl ⟨rfl, rfl, fun j e => by cases e; exact not_not.mp hud⟩)
  | directive d =>
    obtain ⟨dir, args, loc⟩ := d
    rw [synthStatement] at h
    split at h
    · rename_i hdir
      dsimp only at hdir h
      subst hdir
      split at h
      · split at h
        · rename_i f _ r hr
          cases h
          exact .inr (.inr ⟨f, r, rfl, hr, rfl⟩)
        · cases h
      · cases h
    · rename_i hdir
      cases h
      refine .inr (.inl ⟨rfl, ?_, fun i e => by cases e⟩)
      unfold Statement.func
      split
      · rename_i e
        cases e
        exact absurd rfl hdir
      · rfl

theorem synthInstr_labels {x x' : Context} {i : Instr L} (h : synthInstr x i = .ok x') :
    x'.labels = x.labels := by
  obtain ⟨n, x₁, -, hst, ⟨rfl, -⟩ | ⟨d, v, -, himm⟩⟩ := synthInstr_ok h
  · exact (store_ok hst).1
  · exact (store_ok hst).1.trans (store_ok himm).1

/-- Nothing before the offset of an instruction is touched. -/
theorem synthInstr_read {x x' : Context} {i : Instr L} (h : synthInstr x i = .ok x') {k : Int}
    (hk : k < i.offset) : x'.read k = x.read k := by
  obtain ⟨n, x₁, -, hst, ⟨rfl, -⟩ | ⟨d, v, -, himm⟩⟩ := synthInstr_ok h
  · rw [(store_ok hst).2, if_neg (by omega)]
  · rw [(store_ok hst).2, if_neg (by omega), (store_ok himm).2, if_neg (by omega)]

theorem Operation.size_pos {p : Operation} {m : Mnem} (h : p.mnem = some m) : 0 < p.size := by
  cases p <;> first | cases h; done | simp [size]

/-- **The words of an instruction**, read with the fields of ocd.v. -/
theorem synthInstr_words {x x' : Context} {i : Instr L} {m : Mnem} (h : synthInstr x i = .ok x')
    (hm : i.op.mnem = some m) :
    ∃ w : Word, x'.read i.offset = some (w.toNat : Int) ∧ op w = BitVec.ofNat 8 i.op.code ∧
      (∀ v, i.op.src = some v → (s w).toNat = low 4 v) ∧
      (∀ v, i.op.dst = some v → (d w).toNat = low 4 v) ∧
      (IsJump m → ∃ a, getAddr x i.loc i.d = .ok a ∧ (addr w).toNat = low 8 a) ∧
      ∀ d v, i.op = .ldi d v → x'.read (i.offset + 1) = some v := by
  obtain ⟨n, x₁, hem, hst, himm⟩ := synthInstr_ok h
  obtain ⟨w, rfl, hop, hsrc, hdst, hjmp⟩ := hem.fields hm
  refine ⟨w, ?_, hop, hsrc, hdst, hjmp, fun d v he => ?_⟩
  · rw [(store_ok hst).2, if_pos rfl]
  · rw [(store_ok hst).2, if_neg (by omega)]
    obtain ⟨-, hn⟩ | ⟨d', v', he', himm⟩ := himm
    · rw [he] at hn
      exact absurd rfl hn
    · cases he.symm.trans he'
      rw [(store_ok himm).2, if_pos rfl]

/-- The second pass keeps the tables, and follows the functions. -/
theorem synth_keeps {s s' : Contexts} {l : List (Statement L)} {g : Option String}
    (h : synth s l = .ok s') (hg : ∀ f, g = some f → s.funcs.find f = some s.ctxt) :
    s'.funcs = s.funcs ∧ (∀ r, (s'.heap r).labels = (s.heap r).labels) ∧
      ∀ f, lastFunc g l = some f → s.funcs.find f = some s'.ctxt := by
  refine Exists.elim (foldlM_induct (R := fun l' s₁ => ∃ g', lastFunc g' l' = lastFunc g l ∧
    s₁.funcs = s.funcs ∧ (∀ r, (s₁.heap r).labels = (s.heap r).labels) ∧
    ∀ f, g' = some f → s.funcs.find f = some s₁.ctxt) ?_ h ⟨g, rfl, rfl, fun _ => rfl, hg⟩)
    fun g' ⟨e, hf, hl, hc⟩ => ⟨hf, hl, fun f hf => hc f (e.trans hf)⟩
  intro st l' s₁ s₂ hst h
  obtain ⟨g', hlast, hf, hl, hc⟩ := h
  obtain ⟨i, x, rfl, -, hx, rfl⟩ | ⟨rfl, hfunc, -⟩ | ⟨f, r, hfunc, hr, rfl⟩ :=
    synthStatement_cases hst
  · refine ⟨g', hlast, hf, fun r => ?_, hc⟩
    by_cases hr : r = s₁.ctxt
    · subst hr
      rw [setCur_self, synthInstr_labels hx]
      exact hl _
    · rw [setCur_ne hr]
      exact hl r
  · refine ⟨g', ?_, hf, hl, hc⟩
    rw [← hlast, lastFunc, hfunc, Option.none_or]
  · refine ⟨some f, ?_, hf, hl, fun f' e => ?_⟩
    · rw [← hlast, lastFunc, hfunc, Option.some_or]
    · cases e
      rw [← hf]
      exact hr

/-- **No word is written twice**: below the cursor of a context the second pass writes
    nothing, if it follows the first one. -/
theorem synth_read {c c' s s' : Contexts} {l out : List (Statement L)} {r : Ref} {k : Int}
    (h : analyse c l = .ok (c', out)) (hs : synth s out = .ok s')
    (hfair : Along analyseStatement FairAt c l) (hnd : (funcNames l).Nodup)
    (hctxt : s.ctxt = c.ctxt) (hfuncs : s.funcs = c'.funcs) (hr : r < c.fresh)
    (hk : k < (c.heap r).cursor) : (s'.heap r).read k = (s.heap r).read k := by
  refine (two_pass (R := fun l c₁ s₁ => Along analyseStatement FairAt c₁ l ∧
    (funcNames l).Nodup ∧ s₁.ctxt = c₁.ctxt ∧ s₁.funcs = c'.funcs ∧ r < c₁.fresh ∧
    k < (c₁.heap r).cursor ∧ (s₁.heap r).read k = (s.heap r).read k) ?_ h hs
    ⟨hfair, hnd, hctxt, hfuncs, hr, hk, rfl⟩).2.2.2.2.2.2
  intro st l c₁ s₁ c₂ s₂ st' out₁ hst hrest hsyn h
  obtain ⟨hfair, hnd, hctxt, hfuncs, hr, hk, hread⟩ := h
  have hfair' := hfair.2 _ hst
  have hat := hfair.1
  unfold funcNames at hnd
  rw [List.filterMap_cons] at hnd
  obtain ⟨i, p, rfl, hp, rfl, rfl⟩ | ⟨d, t, rfl, hd, rfl, rfl⟩ | ⟨d, n, rfl, hd, ho, ha, rfl, rfl⟩ |
    ⟨d, f, rfl, hd, rfl, rfl⟩ := analyseStatement_cases hst
  · -- an instruction: the cursor goes on, the word is stored at the old cursor
    have hcur : k < ((c₁.setCur (c₁.cur.after i p)).heap r).cursor := by
      by_cases hc : r = c₁.ctxt
      · subst hc
        rw [setCur_self]
        have := p.size_nonneg
        change k < (c₁.heap c₁.ctxt).cursor + p.size
        omega
      · rw [setCur_ne hc]
        exact hk
    obtain ⟨j, x, hj, -, hx, rfl⟩ | ⟨rfl, -, -⟩ | ⟨f, r, hf, -, -⟩ := synthStatement_cases hsyn
    · cases hj
      refine ⟨hfair', hnd, hctxt, hfuncs, hr, hcur, ?_⟩
      by_cases hc : r = s₁.ctxt
      · subst hc
        rw [setCur_self, synthInstr_read hx]
        · exact hread
        · rw [hctxt] at hk
          exact hk
      · rw [setCur_ne hc]
        exact hread
    · exact ⟨hfair', hnd, hctxt, hfuncs, hr, hcur, hread⟩
    · cases hf
  · obtain ⟨j, x, hj, -⟩ | ⟨rfl, -, -⟩ | ⟨f, r, hf, -, -⟩ := synthStatement_cases hsyn
    · cases hj
    · rw [hd] at hnd
      exact ⟨hfair', hnd, hctxt, hfuncs, hr, hk, hread⟩
    · cases hd.symm.trans hf
  · obtain ⟨j, x, hj, -⟩ | ⟨rfl, -, -⟩ | ⟨f, r, hf, -, -⟩ := synthStatement_cases hsyn
    · cases hj
    · rw [hd] at hnd
      refine ⟨hfair', hnd, hctxt, hfuncs, hr, ?_, hread⟩
      by_cases hc : r = c₁.ctxt
      · subst hc
        rw [setCur_self]
        exact Int.lt_of_lt_of_le hk (hat ho n ha)
      · rw [setCur_ne hc]
        exact hk
    · cases hd.symm.trans hf
  · -- a new function: the last table gives the reference made here
    rw [hd] at hnd
    obtain ⟨j, x, hj, -⟩ | ⟨-, hf, -⟩ | ⟨f', r', hf, hr', rfl⟩ := synthStatement_cases hsyn
    · cases hj
    · cases hd.symm.trans hf
    · cases hd.symm.trans hf
      rw [List.nodup_cons] at hnd
      have href : c'.funcs.find f = some c₁.fresh := by
        rw [analyse_find hrest hnd.1]
        exact (Hashtbl.find_add ..).trans (if_pos rfl)
      rw [hfuncs, href] at hr'
      cases hr'
      refine ⟨hfair', hnd.2, rfl, hfuncs, Nat.lt_succ_of_lt hr, ?_, hread⟩
      rw [newFunc_lt hr]
      exact hk

/-! ## 5. Whole programs -/

theorem labelled_append (g : Option String) (l₁ l₂ : List (Statement L)) :
    labelled g (l₁ ++ l₂) = labelled g l₁ ++ labelled (lastFunc g l₁) l₂ := by
  induction l₁ generalizing g with
  | nil => rfl
  | cons st l₁ ih =>
    rw [List.cons_append, labelled, labelled, ih, List.append_assoc]
    rfl

section
variable {ast out : List (Statement L)} {f : String} {i : Instr L} {c c₃ c' : Contexts}

/-- The first pass around an instruction. -/
theorem Placed.around (hp : Placed ast f i c) (hl : Fair ast)
    (h : analyse createContexts ast = .ok (c₃, out)) :
    ∃ pre post out₁ out₂ p, ast = pre ++ .instr i :: post ∧ lastFunc none pre = some f ∧
      analyse createContexts pre = .ok (c, out₁) ∧ operation c i = .ok p ∧
      analyse (c.setCur (c.cur.after i p)) post = .ok (c₃, out₂) ∧
      out = out₁ ++ .instr { i with op := p, offset := c.cur.cursor } :: out₂ ∧
      Sound (some f) c ∧ c₃.funcs.find f = some c.ctxt ∧ FairAt c (.instr i) ∧
      Along analyseStatement FairAt (c.setCur (c.cur.after i p)) post ∧
      (funcNames post).Nodup := by
  obtain ⟨pre, post, out₁, rfl, hlast, hpre⟩ := hp
  obtain ⟨c₁, c₂, st', out₁', out₂, hpre', hst, hpost, rfl⟩ := annotate_split h
  cases hpre.symm.trans hpre'
  have hsound := analyse_sound hl.along rfl hpre
  have hfair := hl.along.of_append hpre
  have hrest := hfair.2 _ hst
  obtain ⟨j, p, hj, hp, rfl, rfl⟩ | ⟨d, k, hj, -⟩ | ⟨d, n, hj, -⟩ | ⟨d, g, hj, -⟩ :=
    analyseStatement_cases hst
  case inr.inl | inr.inr.inl | inr.inr.inr => cases hj
  cases hj
  have hnd := hl.funcs
  unfold funcNames at hnd
  rw [List.filterMap_append, List.nodup_append] at hnd
  obtain ⟨-, hpnd, hdisj⟩ := hnd
  have hmem : f ∈ funcNames pre := (mem_funcNames hlast).resolve_left nofun
  have hf : f ∉ funcNames post := fun h' => hdisj f hmem f h' rfl
  refine ⟨pre, post, out₁, out₂, p, rfl, hlast, hpre, hp, hpost, rfl, hlast ▸ hsound, ?_, hfair.1,
    hrest, hpnd⟩
  rw [analyse_find hpost hf]
  exact hsound.here f hlast

theorem getAddr_id {x : Context} {loc : L} {l : String} {a : Int} :
    getAddr x loc (.id l) = .ok a ↔ x.labels.find l = some a := by
  rw [getAddr]
  cases x.labels.find l with
  | none => simp
  | some v => simp

/-- A label stands in the table of its function with the offset of its instruction. -/
theorem Placed.find_label (hp : Placed ast f i c) (hl : Fair ast)
    (h : analyse createContexts ast = .ok (c₃, out)) {x : String} (hx : i.label = some x) :
    (c₃.heap c.ctxt).labels.find x = some c.cur.cursor := by
  obtain ⟨pre, post, out₁, out₂, p, rfl, hlast, -, -, hpost, -, hs, -⟩ := hp.around hl h
  have hnd := hl.labels
  rw [labelled_append, hlast] at hnd
  have hcons : labelled (some f) (.instr i :: post) = (f, x) :: labelled (some f) post := by
    simp [labelled, Statement.label, Statement.func, hx]
  rw [hcons] at hnd
  have hnot := (List.nodup_cons.mp (List.nodup_append.mp hnd).2.1).1
  rw [analyse_label hpost hnot hs.lt (fun _ => rfl)]
  change ((c.setCur _).heap c.ctxt).labels.find x = _
  rw [setCur_self, after_find, if_pos hx]

/-- **An instruction in the assembled program**: at its offset the words its synthesis
    has stored there, over the labels of its function. -/
theorem Placed.synthesised (hp : Placed ast f i c) (hl : Fair ast) (hne : i.mnem ≠ "")
    (hok : assemble ast = .ok c') :
    ∃ c₃ out p m x x', analyse createContexts ast = .ok (c₃, out) ∧ Means c i m p ∧
      c₃.funcs.find f = some c.ctxt ∧ c'.func f = some (c'.heap c.ctxt) ∧
      x.labels = (c₃.heap c.ctxt).labels ∧
      synthInstr x { i with op := p, offset := c.cur.cursor } = .ok x' ∧
      ∀ k, k < c.cur.cursor + p.size → (c'.heap c.ctxt).read k = x'.read k := by
  obtain ⟨⟨c₃, out⟩, han, hsyn⟩ := bind_ok.mp hok
  obtain ⟨pre, post, out₁, out₂, p, rfl, hlast, hpre, hop, hpost, rfl, hs, hf, -, hfair, hnd⟩ :=
    hp.around hl han
  obtain ⟨hm, -⟩ | ⟨m, hm⟩ := operation_means hop
  · exact absurd hm hne
  obtain ⟨s₁, hs₁, hs₂⟩ := foldlM_append_ok.mp hsyn
  obtain ⟨s₂, hst, hs₃⟩ := foldlM_cons_ok.mp hs₂
  -- the second pass stands in the context the first one stood in
  obtain ⟨hfuncs, hlabels, hhere⟩ := synth_keeps (g := none) hs₁ nofun
  have hctxt : s₁.ctxt = c.ctxt := by
    have h₁ := hhere f ((analyse_lastFunc hpre none).trans hlast)
    exact (Option.some.inj (hf.symm.trans h₁)).symm
  obtain ⟨j, x, hj, -, hx, rfl⟩ | ⟨-, -, hud⟩ | ⟨g, r, hg, -, -⟩ := synthStatement_cases hst
  · cases hj
    refine ⟨c₃, _, p, m, s₁.cur, x, han, hm, hf, ?_, ?_, hx, fun k hk => ?_⟩
    · unfold Contexts.func
      rw [(synth_keeps (g := none) hsyn nofun).1, hf]
      rfl
    · rw [← hctxt]
      exact hlabels _
    · rw [synth_read hpost hs₃ hfair hnd hctxt hfuncs hs.lt (by rw [setCur_self]; exact hk),
        ← hctxt, setCur_self]
  · have hp : p = .ud := hud _ rfl
    rw [hp] at hm
    cases hm.mnem
  · cases hg

/-- The words of an instruction, decoded: everything the unit takes from them but the
    opcode is the instruction. -/
theorem Placed.word (hp : Placed ast f i c) (hl : Fair ast) (hne : i.mnem ≠ "")
    (hok : assemble ast = .ok c') :
    ∃ m, ∃ w : Word, text m = i.mnem ∧ c'.func f = some (c'.heap c.ctxt) ∧
      (c'.heap c.ctxt).read c.cur.cursor = some (w.toNat : Int) ∧
      op w = (if m = .bne then Mnem.beq.code else m.code) ∧
      (op w = m.code → Encodes ast f i c (c'.heap c.ctxt) m w) := by
  obtain ⟨c₃, out, p, m, x, x', han, hm, hf, hfunc, hlabels, hsyn, hread⟩ :=
    hp.synthesised hl hne hok
  obtain ⟨w, hw, hop, hsrc, hdst, hjmp, himm⟩ := synthInstr_words hsyn hm.mnem
  have hpos := Operation.size_pos hm.mnem
  obtain ⟨-, -, -, -, -, -, -, -, -, -, -, -, -, hfair, -⟩ := hp.around hl han
  refine ⟨m, w, hm.text, hfunc, ?_, hop.trans (Operation.code_eq hm.mnem), fun hcode => ?_⟩
  · rw [hread _ (by omega)]
    exact hw
  have hmw : mnem w = some m := mnem_eq_some.mpr hcode
  have hregs := fun o v h => hfair.1 m o v hm.text h
  refine ⟨fun m' => ?_, ?_, ?_, fun hldi => ?_, fun hj l hd => ?_⟩
  · rw [mnem_wire hmw, decide_eq_true_iff]
  · rw [readReg_eq hm.mnem hmw]
    exact .of_field hm.src (fun o v h => hregs o v (.inl h)) hsrc
  · rw [writtenReg_eq hm.mnem hmw]
    exact .of_field hm.dst (fun o v h => hregs o v (.inr h)) hdst
  · subst hldi
    cases p <;> cases hm.mnem
    rename_i dv v
    have hv := hm.imm dv v rfl
    obtain ⟨h₀, h₁⟩ := hfair.2 hm.text.symm v hv
    have hcast : (((BitVec.ofNat 16 v.toNat).toNat : Nat) : Int) = v := by
      rw [BitVec.toNat_ofNat]
      omega
    refine ⟨BitVec.ofNat 16 v.toNat, by rw [hcast]; exact hv, ?_⟩
    rw [hcast, hread _ (by simp [Operation.size])]
    exact himm dv v rfl
  · obtain ⟨a, ha, hadr⟩ := hjmp hj
    dsimp only at ha
    rw [hd, getAddr_id, hlabels] at ha
    obtain ⟨j, cj, hpj, hlj, -⟩ := analyse_labels hl.along han hf ha
    refine ⟨⟨j, cj, hpj, hlj⟩, fun j cj hpj hlj hlt => ?_⟩
    obtain ⟨-, -, -, -, -, -, -, -, -, -, -, hsj, hfj, -⟩ := hpj.around hl han
    have hfind := hpj.find_label hl han hlj
    rw [Option.some.inj (hfj.symm.trans hf), ha] at hfind
    have hnonneg : 0 ≤ cj.cur.cursor := hsj.nonneg cj.ctxt
    rw [Option.some.inj hfind] at hadr
    rw [hadr, low]
    omega

/-! ### Two sources -/

/-- A function that loads R1 for ever:
    `.func f`, `x: LDI 1, 5`, `BA x`. -/
def ldiProgram : List (Statement Nat) :=
  [.directive ⟨".func", [.id "f"], 1⟩,
    .instr { label := some "x", mnem := "LDI", d := .int 1, s := .int 5, loc := 2 },
    .instr { label := none, mnem := "BA", d := .id "x", s := .noOp, loc := 3 }]

/-- A function that jumps to itself: `.func f`, `x: BNE x`. -/
def bneProgram : List (Statement Nat) :=
  [.directive ⟨".func", [.id "f"], 1⟩,
    .instr { label := some "x", mnem := "BNE", d := .id "x", s := .noOp, loc := 2 }]

theorem lastFunc_some (f : String) (l : List (Statement L)) : lastFunc (some f) l ≠ none := by
  induction l generalizing f with
  | nil => exact Option.some_ne_none f
  | cons st l ih =>
    rw [lastFunc]
    cases st.func with
    | none => exact ih f
    | some g => exact ih g

/-- In a source that begins with a `.func` every instruction follows one. -/
theorem inFunc_of_head {f : String} {l pre post : List (Statement L)} {i : Instr L} {loc : L}
    (h : .directive ⟨".func", [.id f], loc⟩ :: l = pre ++ .instr i :: post) :
    lastFunc none pre ≠ none := by
  cases pre with
  | nil => cases h
  | cons st pre =>
    cases h
    exact lastFunc_some f pre

theorem fair_ldiProgram : Fair ldiProgram where
  inFunc pre i post h _ := inFunc_of_head h
  funcs := by decide
  labels := by decide
  along := by
    refine ⟨nofun, fun x hx => ?_⟩
    cases hx
    refine ⟨⟨fun m o v hm ho hv => ?_, fun _ v hv => ?_⟩, fun x hx => ?_⟩
    · cases m <;> simp [text] at hm
      simp only [sourceOp, destOp, reduceCtorEq, Option.some.injEq, false_or] at ho
      subst ho
      cases hv
      omega
    · cases hv
      omega
    cases hx
    refine ⟨⟨fun m o v hm ho _ => ?_, fun hm => ?_⟩, fun _ _ => trivial⟩
    · cases m <;> simp [text] at hm
      simp [sourceOp, destOp] at ho
    · simp [text] at hm

theorem fair_bneProgram : Fair bneProgram where
  inFunc pre i post h _ := inFunc_of_head h
  funcs := by decide
  labels := by decide
  along := by
    refine ⟨nofun, fun x hx => ?_⟩
    cases hx
    refine ⟨⟨fun m o v hm ho _ => ?_, fun hm => ?_⟩, fun _ _ => trivial⟩
    · cases m <;> simp [text] at hm
      simp [sourceOp, destOp] at ho
    · simp [text] at hm

/-! ### The result -/

/-- The word of a BNE is the word of a BEQ. -/
theorem Placed.not_agrees (hp : Placed ast f i c) (hl : Fair ast) (hbne : i.mnem = "BNE")
    (hok : assemble ast = .ok c') : ¬ Agrees ast c' f i c := by
  intro h
  obtain ⟨x, m, w, hx, htext, hw, henc⟩ := h
  obtain ⟨m', w', htext', hx', hw', hop, -⟩ := hp.word hl (by rw [hbne]; simp) hok
  have hm : ∀ m : Mnem, text m = i.mnem → m = .bne := by
    rw [hbne]
    intro m hm
    cases m <;> first | rfl | simp [text] at hm
  cases hx.symm.trans hx'
  rw [hw', Option.some.injEq, Int.natCast_inj] at hw
  cases BitVec.eq_of_toNat_eq hw
  rw [hm m' htext', if_pos rfl] at hop
  have hbeq := (henc.wires .beq).mp (by rw [Mnem.wire_eq, hop]; exact beq_self_eq_true _)
  rw [hm m htext] at hbeq
  cases hbeq

/-- **The assembler and the decoder agree, but for BNE**: of a fair source every
    instruction of every function is assembled to its words exactly when none is a BNE. -/
theorem assembled_agrees_iff (hok : assemble ast = .ok c') (hl : Fair ast) :
    (∀ f i c, Placed ast f i c → i.mnem ≠ "" → Agrees ast c' f i c) ↔
      ∀ i, .instr i ∈ ast → i.mnem ≠ "BNE" := by
  constructor
  · intro h i hi hbne
    obtain ⟨pre, post, hast⟩ := List.append_of_mem hi
    have hne : i.mnem ≠ "" := by rw [hbne]; simp
    obtain ⟨f, hf⟩ := Option.ne_none_iff_exists'.mp (hl.inFunc pre i post hast hne)
    obtain ⟨⟨c₃, out⟩, han, -⟩ := bind_ok.mp hok
    rw [hast] at han
    obtain ⟨c, c₂, st', out₁, out₂, hpre, -⟩ := annotate_split han
    have hp : Placed ast f i c := ⟨pre, post, out₁, hast, hf, hpre⟩
    exact hp.not_agrees hl hbne hok (h f i c hp hne)
  · intro h f i c hp hne
    obtain ⟨m, w, htext, hx, hw, hop, henc⟩ := hp.word hl hne hok
    have hm : m ≠ .bne := by
      intro he
      obtain rfl := he
      obtain ⟨pre, post, -, rfl, -⟩ := hp
      exact h i (by simp) htext.symm
    rw [if_neg hm] at hop
    exact ⟨_, m, w, hx, htext, hw, henc hop⟩

end

theorem assembled_agrees_loop : ∃ c', assemble ldiProgram = .ok c' ∧
    ((∀ f i c, Placed ldiProgram f i c → i.mnem ≠ "" → Agrees ldiProgram c' f i c) ↔
      ∀ i, .instr i ∈ ldiProgram → i.mnem ≠ "BNE") :=
  ⟨_, rfl, assembled_agrees_iff rfl fair_ldiProgram⟩

/-- One BNE breaks the agreement. -/
theorem bne_disagrees : ∃ c', assemble bneProgram = .ok c' ∧ Fair bneProgram ∧
    ¬ ∀ f i c, Placed bneProgram f i c → i.mnem ≠ "" → Agrees bneProgram c' f i c := by
  refine ⟨_, rfl, fair_bneProgram, fun h => ?_⟩
  have hp : Placed bneProgram "f" _ _ := ⟨[_], [], _, rfl, rfl, rfl⟩
  exact hp.not_agrees fair_bneProgram rfl rfl (h _ _ _ hp (by simp))

end

end LsePc.Tools
