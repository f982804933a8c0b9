/-
  File:      LsePc/Tools/Functions.lean
  Subject:   One function of an assembled program.

  * `prologue`, `upTo`, `bodyOf`, `restOf`: the statements before the first
    `.func`, those before the `.func` of `f`, those from there to the next, the others;
  * `Cut`: a source cut at the `.func` of `f`, and that the analysis respects it;
  * `Owns`: the reference of `f`, which the second pass leaves alone outside of `f`;
  * **result** (`Cut.assembled`): the memory of `f` is what its lines store, in a
    memory that the lines before the first `.func` have been stored in if `f` is the
    last function.
-/
import LsePc.Tools.Assembled
import Mathlib.Data.List.TakeWhile

namespace LsePc.Tools

open LsePc.Lib

section
variable {L : Type}

/-! ## 1. The parts of a source -/

def lines (l : List (Statement L)) : List (Instr L) :=
  l.filterMap fun | .instr i => some i | .directive _ => none

theorem lines_instr (i : Instr L) (l : List (Statement L)) :
    lines (.instr i :: l) = i :: lines l := rfl

theorem lines_directive (d : Directive L) (l : List (Statement L)) :
    lines (.directive d :: l) = lines l := rfl

/-- The statements before the first `.func`. -/
def prologue (l : List (Statement L)) : List (Statement L) := l.takeWhile (·.func.isNone)

/-- The statements before `.func f`. -/
def upTo (f : String) (l : List (Statement L)) : List (Statement L) :=
  l.takeWhile (·.func != some f)

/-- The statements after `.func f`. -/
def after (f : String) (l : List (Statement L)) : List (Statement L) :=
  (l.dropWhile (·.func != some f)).tail

/-- The body of `f`: the statements after `.func f`, up to the next `.func`. -/
def bodyOf (f : String) (l : List (Statement L)) : List (Statement L) :=
  (after f l).takeWhile (·.func.isNone)

def restOf (f : String) (l : List (Statement L)) : List (Statement L) :=
  (after f l).dropWhile (·.func.isNone)

/-- Empty, or a `.func` comes first. -/
def Opens (l : List (Statement L)) : Prop := ∀ st l', l = st :: l' → st.func ≠ none

theorem opens_dropWhile (l : List (Statement L)) : Opens (l.dropWhile (·.func.isNone)) := by
  intro st l' h
  have hne : l.dropWhile (·.func.isNone) ≠ [] := by rw [h]; exact List.cons_ne_nil _ _
  have hhead := List.head_dropWhile_not (fun st : Statement L => st.func.isNone) hne
  simp only [h, List.head_cons] at hhead
  intro hnone
  rw [hnone] at hhead
  cases hhead

theorem mem_names {f : String} {l : List (Statement L)} :
    f ∈ funcNames l ↔ ∃ st ∈ l, st.func = some f := List.mem_filterMap

theorem func_eq_some {st : Statement L} {f : String} (h : st.func = some f) :
    ∃ loc, st = .directive ⟨".func", [.id f], loc⟩ := by
  unfold Statement.func at h
  split at h
  · cases h
    exact ⟨_, rfl⟩
  · cases h

/-- A source cut at the `.func` of `f`. -/
structure Cut (f : String) (l pre body rest : List (Statement L)) (loc : L) : Prop where
  eq : l = pre ++ .directive ⟨".func", [.id f], loc⟩ :: (body ++ rest)
  pre : f ∉ funcNames pre
  body : funcNames body = []
  rest : Opens rest

theorem names_nil {l : List (Statement L)} : funcNames l = [] ↔ ∀ st ∈ l, st.func = none := by
  unfold funcNames
  rw [List.filterMap_eq_nil_iff]

theorem names_append (l₁ l₂ : List (Statement L)) :
    funcNames (l₁ ++ l₂) = funcNames l₁ ++ funcNames l₂ := List.filterMap_append

/-- A function that is declared once is not declared again. -/
theorem Cut.once {f : String} {l pre body rest : List (Statement L)} {loc : L}
    (h : Cut f l pre body rest loc) (hone : (funcNames l).count f = 1) : f ∉ funcNames rest := by
  have hnames : funcNames l = funcNames pre ++ f :: (funcNames body ++ funcNames rest) := by
    rw [h.eq, names_append, ← names_append body]
    rfl
  rw [hnames, List.count_append, List.count_cons_self, List.count_append] at hone
  exact List.count_eq_zero.mp (by omega)

theorem Cut.parts {f : String} {l pre body rest : List (Statement L)} {loc : L}
    (h : Cut f l pre body rest loc) :
    upTo f l = pre ∧ bodyOf f l = body ∧ restOf f l = rest := by
  have hpre : ∀ st ∈ pre, (st.func != some f) = true := fun st hst =>
    bne_iff_ne.mpr fun e => h.pre (mem_names.mpr ⟨st, hst, e⟩)
  have hbody : ∀ st ∈ body, st.func.isNone = true := fun st hst => by
    rw [names_nil.mp h.body st hst]
    rfl
  have hrest : rest.takeWhile (·.func.isNone) = [] ∧ rest.dropWhile (·.func.isNone) = rest := by
    cases hr : rest with
    | nil => exact ⟨rfl, rfl⟩
    | cons st l' =>
      have := h.rest st l' hr
      simp [this]
  have hself : ((Statement.directive ⟨".func", [.id f], loc⟩).func != some f) = false :=
    bne_self_eq_false (some f)
  have hafter : after f l = body ++ rest := by
    unfold after
    rw [h.eq, List.dropWhile_append_of_pos hpre, List.dropWhile_cons, hself]
    rfl
  refine ⟨?_, ?_, ?_⟩
  · unfold upTo
    rw [h.eq, List.takeWhile_append_of_pos hpre, List.takeWhile_cons, hself]
    exact List.append_nil _
  · unfold bodyOf
    rw [hafter, List.takeWhile_append_of_pos hbody, hrest.1, List.append_nil]
  · unfold restOf
    rw [hafter, List.dropWhile_append_of_pos hbody, hrest.2]

theorem cut_of_mem {f : String} {l : List (Statement L)} (h : f ∈ funcNames l) :
    ∃ loc, Cut f l (upTo f l) (bodyOf f l) (restOf f l) loc := by
  obtain ⟨st, hst, hf⟩ := mem_names.mp h
  have hne : l.dropWhile (·.func != some f) ≠ [] := by
    intro hnil
    have := List.dropWhile_eq_nil_iff.mp hnil st hst
    rw [hf, bne_self_eq_false] at this
    cases this
  obtain ⟨st', l', hl'⟩ := List.exists_cons_of_ne_nil hne
  have hhead := List.head_dropWhile_not (fun st : Statement L => st.func != some f) hne
  simp only [hl', List.head_cons, bne_eq_false_iff_eq] at hhead
  obtain ⟨loc, rfl⟩ := func_eq_some hhead
  refine ⟨loc, ?_, ?_, ?_, opens_dropWhile _⟩
  · have hafter : bodyOf f l ++ restOf f l = l' := by
      unfold bodyOf restOf after
      rw [hl', List.takeWhile_append_dropWhile]
      rfl
    rw [hafter, ← hl']
    exact List.takeWhile_append_dropWhile.symm
  · intro hmem
    obtain ⟨s, hs, hsf⟩ := mem_names.mp hmem
    have := List.mem_takeWhile_imp hs
    rw [hsf, bne_self_eq_false] at this
    cases this
  · refine names_nil.mpr fun s hs => Option.isNone_iff_eq_none.mp ?_
    exact List.mem_takeWhile_imp (p := fun st : Statement L => st.func.isNone) hs

/-! ## 2. The first pass -/

theorem analyse_names {c c' : Contexts} {l out : List (Statement L)}
    (h : analyse c l = .ok (c', out)) : out.map Statement.func = l.map Statement.func := by
  induction l generalizing c out with
  | nil =>
    obtain ⟨-, rfl⟩ := annotate_nil.mp h
    rfl
  | cons st l ih =>
    obtain ⟨c₁, st', out₁, hst, hl, rfl⟩ := annotate_cons.mp h
    rw [List.map_cons, List.map_cons, analyseStatement_func hst, ih hl]

theorem funcNames_congr {l l' : List (Statement L)}
    (h : l.map Statement.func = l'.map Statement.func) : funcNames l = funcNames l' := by
  unfold funcNames
  rw [← Function.id_comp Statement.func, ← List.filterMap_map, h, List.filterMap_map]

theorem Opens.congr {l l' : List (Statement L)}
    (h : l.map Statement.func = l'.map Statement.func) (ho : Opens l') : Opens l := by
  intro st l₁ he
  obtain rfl := he
  cases l' with
  | nil => cases h
  | cons st' l₁' =>
    rw [(List.cons.inj h).1]
    exact ho st' l₁' rfl

/-- The analysis respects a cut. -/
theorem Cut.analyse {f : String} {l pre body rest out : List (Statement L)} {loc : L}
    {c c' : Contexts} (hc : Cut f l pre body rest loc) (h : analyse c l = .ok (c', out)) :
    ∃ c₁ c₂ out₁ out₂ out₃, Tools.analyse c pre = .ok (c₁, out₁) ∧
      Tools.analyse (c₁.newFunc f) body = .ok (c₂, out₂) ∧
      Tools.analyse c₂ rest = .ok (c', out₃) ∧ Cut f out out₁ out₂ out₃ loc := by
  have heq := hc.eq
  subst heq
  obtain ⟨c₁, c₀, st', out₁, out', hpre, hst, hpost, rfl⟩ := annotate_split h
  obtain ⟨c₂, out₂, out₃, hbody, hrest, rfl⟩ := annotate_append.mp hpost
  cases hst
  refine ⟨c₁, c₂, out₁, out₂, out₃, hpre, hbody, hrest, rfl, ?_, ?_, ?_⟩
  · rw [funcNames_congr (analyse_names hpre)]
    exact hc.pre
  · rw [funcNames_congr (analyse_names hbody)]
    exact hc.body
  · exact hc.rest.congr (analyse_names hrest)

/-- A context the analysis has left stays as it is. -/
theorem analyse_left {c c' : Contexts} {l out : List (Statement L)} {r : Ref}
    (h : analyse c l = .ok (c', out)) (hr : r < c.fresh) (hne : c.ctxt ≠ r) :
    c'.heap r = c.heap r ∧ c'.ctxt ≠ r := by
  refine (annotate_induct (R := fun _ c₁ => r < c₁.fresh ∧ c₁.heap r = c.heap r ∧ c₁.ctxt ≠ r)
    ?_ h ⟨hr, rfl, hne⟩).2
  intro st l c₁ c₂ st' hst hR
  obtain ⟨hr, hheap, hne⟩ := hR
  obtain ⟨i, p, rfl, -, -, rfl⟩ | ⟨d, k, rfl, hd, -, rfl⟩ | ⟨d, n, rfl, hd, -, -, -, rfl⟩ |
    ⟨d, g, rfl, hd, -, rfl⟩ := analyseStatement_cases hst
  · exact ⟨hr, (setCur_ne (Ne.symm hne) _).trans hheap, hne⟩
  · exact ⟨hr, hheap, hne⟩
  · exact ⟨hr, (setCur_ne (Ne.symm hne) _).trans hheap, hne⟩
  · exact ⟨Nat.lt_succ_of_lt hr, (newFunc_lt hr g).trans hheap, Nat.ne_of_gt hr⟩

/-- The body of a function is analysed in its context. -/
theorem analyse_body {c c' : Contexts} {l out : List (Statement L)}
    (h : analyse c l = .ok (c', out)) (hl : funcNames l = []) :
    c'.ctxt = c.ctxt ∧ c'.funcs = c.funcs ∧ c'.fresh = c.fresh := by
  refine (annotate_induct (R := fun l c₁ => funcNames l = [] ∧ c₁.ctxt = c.ctxt ∧
    c₁.funcs = c.funcs ∧ c₁.fresh = c.fresh) ?_ h ⟨hl, rfl, rfl, rfl⟩).2
  intro st l c₁ c₂ st' hst hR
  obtain ⟨hl, hR⟩ := hR
  have hnone := names_nil.mp hl
  have hl' : funcNames l = [] := names_nil.mpr fun s hs => hnone s (List.mem_cons_of_mem _ hs)
  obtain ⟨i, p, rfl, -, -, rfl⟩ | ⟨d, k, rfl, -, -, rfl⟩ | ⟨d, n, rfl, -, -, -, -, rfl⟩ |
    ⟨d, g, rfl, hd, -, rfl⟩ := analyseStatement_cases hst
  · exact ⟨hl', hR⟩
  · exact ⟨hl', hR⟩
  · exact ⟨hl', hR⟩
  · cases hd.symm.trans (hnone _ List.mem_cons_self)

/-- After the body, the function's context is left for good, unless the source ends here. -/
theorem analyse_rest {c c' : Contexts} {l out : List (Statement L)} (ho : Opens l)
    (h : analyse c l = .ok (c', out)) (hlt : c.ctxt < c.fresh) :
    c'.heap c.ctxt = c.heap c.ctxt ∧ (c'.ctxt = c.ctxt ↔ out = []) := by
  cases l with
  | nil =>
    obtain ⟨rfl, rfl⟩ := annotate_nil.mp h
    exact ⟨rfl, iff_of_true rfl rfl⟩
  | cons st l =>
    obtain ⟨c₁, st', out₁, hst, hl, rfl⟩ := annotate_cons.mp h
    obtain ⟨g, hg⟩ := Option.ne_none_iff_exists'.mp (ho st l rfl)
    obtain ⟨loc, rfl⟩ := func_eq_some hg
    cases hst
    obtain ⟨hheap, hne⟩ := analyse_left hl (Nat.lt_succ_of_lt hlt) (Nat.ne_of_gt hlt)
    exact ⟨hheap.trans (newFunc_lt hlt g), iff_of_false hne (List.cons_ne_nil _ _)⟩

/-! ### The reference of a function -/

/-- The references that have been made. -/
structure Made (c : Contexts) : Prop where
  ctxt : c.ctxt < c.fresh
  funcs : ∀ g r, c.funcs.find g = some r → r < c.fresh

theorem find_newFunc (c : Contexts) (f g : String) :
    (c.newFunc f).funcs.find g = if g = f then some c.fresh else c.funcs.find g :=
  Hashtbl.find_add ..

theorem newFunc_cur (c : Contexts) (f : String) : (c.newFunc f).cur = createContext :=
  Function.update_self ..

theorem Made.newFunc {c : Contexts} (h : Made c) (f : String) : Made (c.newFunc f) := by
  refine ⟨Nat.lt_succ_self _, fun g r hr => ?_⟩
  rw [find_newFunc] at hr
  split at hr
  · cases hr
    exact Nat.lt_succ_self _
  · exact Nat.lt_succ_of_lt (h.funcs g r hr)

theorem made_init : Made createContexts := ⟨Nat.zero_lt_one, nofun⟩

theorem analyse_made {c c' : Contexts} {l out : List (Statement L)}
    (h : analyse c l = .ok (c', out)) (hm : Made c) : Made c' := by
  refine annotate_induct (R := fun _ c₁ => Made c₁) ?_ h hm
  intro st l c₁ c₂ st' hst hm
  obtain ⟨i, p, rfl, -, -, rfl⟩ | ⟨d, k, rfl, -, -, rfl⟩ | ⟨d, n, rfl, -, -, -, -, rfl⟩ |
    ⟨d, g, rfl, -, -, rfl⟩ := analyseStatement_cases hst
  · exact ⟨hm.ctxt, hm.funcs⟩
  · exact ⟨hm.ctxt, hm.funcs⟩
  · exact ⟨hm.ctxt, hm.funcs⟩
  · exact hm.newFunc g

/-- `r` is the reference of `f`, and of no other function. -/
def Owns (t : Hashtbl Ref) (f : String) (r : Ref) : Prop :=
  t.find f = some r ∧ ∀ g, t.find g = some r → g = f

theorem Made.owns {c : Contexts} (h : Made c) (f : String) :
    Owns (c.newFunc f).funcs f c.fresh := by
  refine ⟨(find_newFunc ..).trans (if_pos rfl), fun g hg => ?_⟩
  rw [find_newFunc] at hg
  split at hg
  · assumption
  · exact absurd (h.funcs g _ hg) (Nat.lt_irrefl _)

theorem analyse_owns {c c' : Contexts} {l out : List (Statement L)} {f : String} {r : Ref}
    (h : analyse c l = .ok (c', out)) (hf : f ∉ funcNames l) (hr : r < c.fresh)
    (ho : Owns c.funcs f r) : Owns c'.funcs f r := by
  refine ⟨(analyse_find h hf).trans ho.1, ?_⟩
  refine (annotate_induct (R := fun _ c₁ => r < c₁.fresh ∧ ∀ g, c₁.funcs.find g = some r → g = f)
    ?_ h ⟨hr, ho.2⟩).2
  intro st l c₁ c₂ st' hst hR
  obtain ⟨i, p, rfl, -, -, rfl⟩ | ⟨d, k, rfl, -, -, rfl⟩ | ⟨d, n, rfl, -, -, -, -, rfl⟩ |
    ⟨d, g, rfl, -, -, rfl⟩ := analyseStatement_cases hst
  · exact hR
  · exact hR
  · exact hR
  · refine ⟨Nat.lt_succ_of_lt hR.1, fun g' hg' => ?_⟩
    rw [find_newFunc] at hg'
    split at hg'
    · cases hg'
      exact absurd hR.1 (Nat.lt_irrefl _)
    · exact hR.2 g' hg'

/-! ## 3. The second pass -/

/-- `synth_statement` on a line, in the context of its function. -/
def synthLine (x : Context) (i : Instr L) : Except (AsError L) Context :=
  if i.op ≠ .ud then synthInstr x i else .ok x

theorem setCur_cur (c : Contexts) (x : Context) : (c.setCur x).cur = x := setCur_self c x

/-- Without a `.func`, the lines are stored in the context the pass stands in. -/
theorem synth_lines {c c' : Contexts} {l : List (Statement L)} (h : synth c l = .ok c')
    (hl : funcNames l = []) :
    ∃ x, (lines l).foldlM synthLine c.cur = .ok x ∧ c' = c.setCur x := by
  induction l generalizing c with
  | nil =>
    have hc := Except.ok.inj h
    subst hc
    refine ⟨c.cur, rfl, ?_⟩
    unfold Contexts.setCur Contexts.cur
    rw [Function.update_eq_self]
  | cons st l ih =>
    obtain ⟨c₁, hst, h⟩ := foldlM_cons_ok.mp h
    have hnone := names_nil.mp hl
    have hl' : funcNames l = [] := names_nil.mpr fun s hs => hnone s (List.mem_cons_of_mem _ hs)
    obtain ⟨x, hx, rfl⟩ := ih h hl'
    obtain ⟨i, y, rfl, hud, hy, rfl⟩ | ⟨rfl, -, hud⟩ | ⟨g, r, hg, -, -⟩ :=
      synthStatement_cases hst
    · refine ⟨x, foldlM_cons_ok.mpr ⟨y, (if_pos hud).trans hy, ?_⟩, ?_⟩
      · rwa [setCur_cur] at hx
      · unfold Contexts.setCur
        simp only [Function.update_idem]
    · refine ⟨x, ?_, rfl⟩
      cases st with
      | instr i => exact foldlM_cons_ok.mpr ⟨c₁.cur, if_neg (not_not.mpr (hud i rfl)), hx⟩
      | directive d => exact hx
    · cases hg.symm.trans (hnone st List.mem_cons_self)

/-- Outside of `f` the second pass leaves its context alone. -/
theorem synth_left {c c' : Contexts} {l : List (Statement L)} {f : String} {r : Ref}
    (h : synth c l = .ok c') (hf : f ∉ funcNames l) (ho : Owns c.funcs f r) (hne : c.ctxt ≠ r) :
    c'.heap r = c.heap r ∧ c'.ctxt ≠ r ∧ c'.funcs = c.funcs := by
  refine (foldlM_induct (R := fun l c₁ => f ∉ funcNames l ∧ c₁.heap r = c.heap r ∧
    c₁.ctxt ≠ r ∧ c₁.funcs = c.funcs) ?_ h ⟨hf, rfl, hne, rfl⟩).2
  intro st l c₁ c₂ hst hR
  obtain ⟨hf, hheap, hne, hfuncs⟩ := hR
  have hf' : f ∉ funcNames l := fun h => by
    obtain ⟨s, hs, hsf⟩ := mem_names.mp h
    exact hf (mem_names.mpr ⟨s, List.mem_cons_of_mem _ hs, hsf⟩)
  obtain ⟨i, x, rfl, -, -, rfl⟩ | ⟨rfl, -, -⟩ | ⟨g, r', hg, hr', rfl⟩ := synthStatement_cases hst
  · exact ⟨hf', (setCur_ne (Ne.symm hne) _).trans hheap, hne, hfuncs⟩
  · exact ⟨hf', hheap, hne, hfuncs⟩
  · refine ⟨hf', hheap, ?_, hfuncs⟩
    intro he
    obtain rfl := he
    rw [hfuncs] at hr'
    cases ho.2 g hr'
    exact hf (mem_names.mpr ⟨st, List.mem_cons_self, hg⟩)

/-- The same where another function comes first. -/
theorem synth_opens {c c' : Contexts} {l : List (Statement L)} {f : String} {r : Ref}
    (h : synth c l = .ok c') (hl : Opens l) (hf : f ∉ funcNames l) (ho : Owns c.funcs f r) :
    c'.heap r = c.heap r ∧ c'.funcs = c.funcs := by
  cases l with
  | nil =>
    cases h
    exact ⟨rfl, rfl⟩
  | cons st l =>
    obtain ⟨c₁, hst, h⟩ := foldlM_cons_ok.mp h
    obtain ⟨i, x, rfl, -, -, -⟩ | ⟨-, hnone, -⟩ | ⟨g, r', hg, hr', rfl⟩ := synthStatement_cases hst
    · exact absurd rfl (hl _ _ rfl)
    · exact absurd hnone (hl _ _ rfl)
    · have hne : r' ≠ r := by
        intro he
        obtain rfl := he
        cases ho.2 g hr'
        exact hf (mem_names.mpr ⟨st, List.mem_cons_self, hg⟩)
      have hf' : f ∉ funcNames l := fun h => by
        obtain ⟨s, hs, hsf⟩ := mem_names.mp h
        exact hf (mem_names.mpr ⟨s, List.mem_cons_of_mem _ hs, hsf⟩)
      obtain ⟨hheap, -, hfuncs⟩ := synth_left h hf' ho hne
      exact ⟨hheap, hfuncs⟩

/-! ## 4. Both passes -/

theorem prologue_append {pre l : List (Statement L)} {st : Statement L} (h : st.func ≠ none) :
    prologue (pre ++ st :: l) = prologue pre := by
  induction pre with
  | nil =>
    unfold prologue
    rw [List.nil_append, List.takeWhile_cons, if_neg (by simpa using h)]
    rfl
  | cons s pre ih =>
    unfold prologue at ih ⊢
    rw [List.cons_append, List.takeWhile_cons, List.takeWhile_cons, ih]

/-- The lines that are stored in the context of `f` before the second pass comes to `f`:
    those before the first `.func`, if `f` is the last function. -/
def strays (f : String) (l : List (Statement L)) : List (Instr L) :=
  if (restOf f l).isEmpty then lines (prologue l) else []

/-- **The second pass before `f`**: the context of `f` takes the lines before the first `.func`
    if the first pass has left it current, and else nothing. -/
theorem Cut.strays_stored {f : String} {out pre body rest : List (Statement L)} {loc : L}
    {c s : Contexts} {r : Ref} (hc : Cut f out pre body rest loc) (ho : Owns c.funcs f r)
    (hlast : c.ctxt = r ↔ rest = []) (hs : synth c pre = .ok s) :
    (strays f out).foldlM synthLine (c.heap r) = .ok (s.heap r) ∧ s.funcs = c.funcs := by
  obtain ⟨-, -, hrestOf⟩ := hc.parts
  unfold strays
  rw [hrestOf]
  cases hr : rest with
  | nil =>
    have hcur : c.cur = c.heap r := by
      unfold Contexts.cur
      rw [hlast.mpr hr]
    have hprologue : prologue out = prologue pre := by
      rw [hc.eq]
      exact prologue_append (Option.some_ne_none f)
    have hsplit : pre = prologue pre ++ pre.dropWhile (·.func.isNone) :=
      List.takeWhile_append_dropWhile.symm
    rw [hsplit] at hs
    obtain ⟨t, ht, hs⟩ := foldlM_append_ok.mp hs
    have hnone : funcNames (prologue pre) = [] := names_nil.mpr fun st hst =>
      Option.isNone_iff_eq_none.mp
        (List.mem_takeWhile_imp (p := fun st : Statement L => st.func.isNone) hst)
    have hnot : f ∉ funcNames (pre.dropWhile (·.func.isNone)) := fun hmem => by
      obtain ⟨st, hst, hsf⟩ := mem_names.mp hmem
      exact hc.pre (mem_names.mpr ⟨st, (List.dropWhile_sublist _).subset hst, hsf⟩)
    obtain ⟨x, hx, rfl⟩ := synth_lines ht hnone
    obtain ⟨hsame, hf⟩ := synth_opens hs (opens_dropWhile _) hnot ho
    refine ⟨?_, hf⟩
    have hx' : s.heap r = x := by
      rw [hsame, ← hlast.mpr hr]
      exact setCur_self c x
    rw [hprologue, ← hcur, hx']
    exact hx
  | cons st l =>
    have hne : c.ctxt ≠ r := fun e => by
      rw [hlast.mp e] at hr
      cases hr
    obtain ⟨hsame, -, hf⟩ := synth_left hs hc.pre ho hne
    rw [hsame]
    exact ⟨rfl, hf⟩

/-- **The second pass from `f` on**: the context of `f` takes the lines of its body. -/
theorem Cut.body_stored {f : String} {out pre body rest : List (Statement L)} {loc : L}
    {s s' : Contexts} {r : Ref} (hc : Cut f out pre body rest loc) (hone : f ∉ funcNames rest)
    (ho : Owns s.funcs f r)
    (hs : synth s (.directive ⟨".func", [.id f], loc⟩ :: (body ++ rest)) = .ok s') :
    ∃ x, (lines body).foldlM synthLine (s.heap r) = .ok x ∧ s'.func f = some x := by
  obtain ⟨s₂, hs₂, hs⟩ := foldlM_cons_ok.mp hs
  obtain ⟨s₃, hs₃, hs₄⟩ := foldlM_append_ok.mp hs
  have hs₂' : s₂ = { s with ctxt := r } := by
    obtain ⟨i, y, hi, -⟩ | ⟨-, hnone, -⟩ | ⟨g, r', hg, hr, rfl⟩ := synthStatement_cases hs₂
    · cases hi
    · cases hnone
    · cases hg
      rw [ho.1] at hr
      cases hr
      rfl
  subst hs₂'
  obtain ⟨x, hx, rfl⟩ := synth_lines hs₃ hc.body
  obtain ⟨hsame, hf⟩ := synth_opens hs₄ hc.rest hone ho
  refine ⟨x, hx, ?_⟩
  unfold Contexts.func
  rw [hf]
  change (s.funcs.find f).map _ = _
  rw [ho.1]
  refine congrArg some (hsame.trans ?_)
  exact setCur_self _ x

/-- **One function of an assembled program.** The context the analysis of its body has left
    is stored into by the lines before the first `.func`, if `f` is the last function, and
    by the lines of the body. -/
theorem Cut.assembled {f : String} {ast pre body rest out : List (Statement L)} {loc : L}
    {c c' : Contexts} (hc : Cut f ast pre body rest loc) (hone : f ∉ funcNames rest)
    (h : Tools.analyse createContexts ast = .ok (c, out)) (hs : synth c out = .ok c') :
    ∃ c₁ out₁ c₂ x x', Tools.analyse createContexts pre = .ok (c₁, out₁) ∧
      Tools.analyse (c₁.newFunc f) body = .ok (c₂, bodyOf f out) ∧ c.func f = some c₂.cur ∧
      (strays f out).foldlM synthLine c₂.cur = .ok x ∧
      (lines (bodyOf f out)).foldlM synthLine x = .ok x' ∧ c'.func f = some x' := by
  obtain ⟨c₁, c₂, out₁, out₂, out₃, hpre, hbody, hrest, hcut⟩ := hc.analyse h
  obtain ⟨-, hbodyOf, -⟩ := hcut.parts
  -- the reference of `f` after the first pass
  have hmade := analyse_made hpre made_init
  obtain ⟨hctxt, hfuncs, hfresh⟩ := analyse_body hbody hc.body
  have hlt : c₂.ctxt < c₂.fresh := by
    rw [hctxt, hfresh]
    exact Nat.lt_succ_self _
  have howns : Owns c.funcs f c₂.ctxt := by
    refine analyse_owns hrest hone hlt ?_
    rw [hfuncs, hctxt]
    exact hmade.owns f
  obtain ⟨hheap, hlast⟩ := analyse_rest hc.rest hrest hlt
  -- the second pass, up to `f` and from there on
  have hsyn := hs
  rw [hcut.eq] at hsyn
  obtain ⟨s₁, hs₁, hs₂⟩ := foldlM_append_ok.mp hsyn
  obtain ⟨hstrays, hf₁⟩ := hcut.strays_stored howns hlast hs₁
  have howns₁ : Owns s₁.funcs f c₂.ctxt := by rwa [hf₁]
  have hone₁ : f ∉ funcNames out₃ := by rwa [funcNames_congr (analyse_names hrest)]
  obtain ⟨x', hx', hfunc⟩ := hcut.body_stored hone₁ howns₁ hs₂
  rw [hheap] at hstrays
  refine ⟨c₁, out₁, c₂, _, x', hpre, ?_, ?_, hstrays, ?_, hfunc⟩
  · rw [hbodyOf]
    exact hbody
  · unfold Contexts.func
    rw [howns.1]
    exact congrArg some hheap
  · rw [hbodyOf]
    exact hx'

/-! ### What the lines of a function store -/

/-- The words a line occupies. -/
def Occupies (i : Instr L) (k : Int) : Prop := i.offset ≤ k ∧ k < i.offset + i.op.size

/-- A line stores `v` at `k`: the word of its instruction, or the immediate of an LDI. -/
def Stores (x : Context) (i : Instr L) (k v : Int) : Prop :=
  i.op ≠ .ud ∧ ((k = i.offset ∧ ∃ n : Nat, Emits x i n ∧ v = n) ∨
    (k = i.offset + 1 ∧ ∃ d, i.op = .ldi d v))

/-- `v` is what the last of the lines `is` that occupies `k` stores there. -/
def LastStore (x : Context) (is : List (Instr L)) (k v : Int) : Prop :=
  ∃ l i r, is = l ++ i :: r ∧ Stores x i k v ∧ ∀ j ∈ r, ¬ Occupies j k

theorem store_cursor {x x' : Context} {i v : Int}
    (h : (x.store i v : Except (AsError L) Context) = .ok x') : x'.cursor = x.cursor := by
  unfold Context.store at h
  split at h
  · cases h
    rfl
  · cases h

theorem getAddr_congr {x y : Context} (h : x.labels = y.labels) (loc : L) (o : Op) :
    getAddr x loc o = getAddr y loc o := by
  unfold getAddr
  rw [h]

theorem Emits.congr {x y : Context} {i : Instr L} {n : Nat} (h : x.labels = y.labels)
    (he : Emits x i n) : Emits y i n := by
  unfold Emits at he ⊢
  split at he
  case h_1 | h_2 | h_3 =>
    rw [getAddr_congr h] at he
    exact he
  all_goals exact he

theorem Emits.unique {x : Context} {i : Instr L} {n n' : Nat} (h : Emits x i n)
    (h' : Emits x i n') : n = n' := by
  unfold Emits at h h'
  generalize i.op = p at h h'
  cases p
  case ba | beq | bne =>
    obtain ⟨a, ha, rfl⟩ := h
    obtain ⟨a', ha', rfl⟩ := h'
    cases ha.symm.trans ha'
    rfl
  all_goals exact Eq.trans h (Eq.symm h')

theorem Stores.congr {x y : Context} {i : Instr L} {k v : Int} (h : x.labels = y.labels)
    (hs : Stores x i k v) : Stores y i k v := by
  obtain ⟨hud, ⟨hk, n, hn, hv⟩ | himm⟩ := hs
  · exact ⟨hud, .inl ⟨hk, n, hn.congr h, hv⟩⟩
  · exact ⟨hud, .inr himm⟩

theorem LastStore.congr {x y : Context} {is : List (Instr L)} {k v : Int}
    (h : x.labels = y.labels) (hs : LastStore x is k v) : LastStore y is k v := by
  obtain ⟨l, i, r, he, hi, hr⟩ := hs
  exact ⟨l, i, r, he, hi.congr h, hr⟩

theorem occupies_iff {i : Instr L} {k : Int} : Occupies i k ↔ i.op ≠ .ud ∧
    (k = i.offset ∨ k = i.offset + 1 ∧ ∃ d s, i.op = .ldi d s) := by
  unfold Occupies
  cases hop : i.op <;> simp [Operation.size] <;> omega

theorem Stores.occupies {x : Context} {i : Instr L} {k v : Int} (h : Stores x i k v) :
    Occupies i k := by
  obtain ⟨hud, ⟨hk, -⟩ | ⟨hk, d, hd⟩⟩ := h
  · exact occupies_iff.mpr ⟨hud, .inl hk⟩
  · exact occupies_iff.mpr ⟨hud, .inr ⟨hk, d, v, hd⟩⟩

/-- What `is`, stored in `x` one after the other, make of it. -/
structure Stored (x : Context) (is : List (Instr L)) (x' : Context) : Prop where
  labels : x'.labels = x.labels
  cursor : x'.cursor = x.cursor
  each : ∀ i ∈ is, ∀ k, Occupies i k → ∃ v, Stores x i k v
  last : ∀ k v, LastStore x is k v → x'.read k = some v
  covered : ∀ k, (∃ i ∈ is, Occupies i k) → ∃ v, LastStore x is k v
  kept : ∀ k, (∀ i ∈ is, ¬ Occupies i k) → x'.read k = x.read k

/-- One line. -/
theorem synthLine_stored {x x' : Context} {i : Instr L} (h : synthLine x i = .ok x') :
    x'.labels = x.labels ∧ x'.cursor = x.cursor ∧
      (∀ k v, Stores x i k v → x'.read k = some v) ∧
      (∀ k, Occupies i k → ∃ v, Stores x i k v) ∧
      ∀ k, ¬ Occupies i k → x'.read k = x.read k := by
  unfold synthLine at h
  split at h
  · rename_i hud
    obtain ⟨n, x₁, hem, hst, himm⟩ := synthInstr_ok h
    obtain ⟨hlabels, hread⟩ := store_ok hst
    obtain ⟨rfl, hldi⟩ | ⟨d, s, hop, himm⟩ := himm
    · refine ⟨hlabels, store_cursor hst, fun k v hs => ?_, fun k hk => ?_, fun k hk => ?_⟩
      · obtain ⟨-, ⟨rfl, n', hn', rfl⟩ | ⟨-, d, hd⟩⟩ := hs
        · rw [hread, if_pos rfl, hem.unique hn']
        · rw [hd] at hldi
          exact absurd rfl hldi
      · obtain ⟨-, rfl | ⟨-, d, s, hd⟩⟩ := occupies_iff.mp hk
        · exact ⟨n, hud, .inl ⟨rfl, n, hem, rfl⟩⟩
        · rw [hd] at hldi
          exact absurd rfl hldi
      · rw [hread, if_neg]
        intro he
        obtain rfl := he
        exact hk (occupies_iff.mpr ⟨hud, .inl rfl⟩)
    · obtain ⟨hlabels₁, hread₁⟩ := store_ok himm
      refine ⟨hlabels.trans hlabels₁, (store_cursor hst).trans (store_cursor himm),
        fun k v hs => ?_, fun k hk => ?_, fun k hk => ?_⟩
      · obtain ⟨-, ⟨rfl, n', hn', rfl⟩ | ⟨rfl, d', hd'⟩⟩ := hs
        · rw [hread, if_pos rfl, hem.unique hn']
        · cases hop.symm.trans hd'
          rw [hread, if_neg (by omega), hread₁, if_pos rfl]
      · obtain ⟨-, rfl | ⟨rfl, d', s', hd'⟩⟩ := occupies_iff.mp hk
        · exact ⟨n, hud, .inl ⟨rfl, n, hem, rfl⟩⟩
        · exact ⟨s', hud, .inr ⟨rfl, d', hd'⟩⟩
      · have hne : k ≠ i.offset ∧ k ≠ i.offset + 1 := by
          constructor <;> rintro rfl
          · exact hk (occupies_iff.mpr ⟨hud, .inl rfl⟩)
          · exact hk (occupies_iff.mpr ⟨hud, .inr ⟨rfl, d, s, hop⟩⟩)
        rw [hread, if_neg hne.1, hread₁, if_neg hne.2]
  · rename_i hud
    cases h
    have hsize : ∀ k, ¬ Occupies i k := fun k hk => hud (occupies_iff.mp hk).1
    exact ⟨rfl, rfl, fun k v hs => absurd hs.1 hud, fun k hk => absurd hk (hsize k),
      fun k _ => rfl⟩

theorem lastStore_cons {x : Context} {i : Instr L} {is : List (Instr L)} {k v : Int} :
    LastStore x (i :: is) k v ↔
      LastStore x is k v ∨ (Stores x i k v ∧ ∀ j ∈ is, ¬ Occupies j k) := by
  constructor
  · intro h
    obtain ⟨l, j, r, he, hj, hr⟩ := h
    cases l with
    | nil =>
      cases he
      exact .inr ⟨hj, hr⟩
    | cons i' l =>
      cases he
      exact .inl ⟨l, j, r, rfl, hj, hr⟩
  · intro h
    rcases h with ⟨l, j, r, rfl, hj, hr⟩ | ⟨hi, hr⟩
    · exact ⟨i :: l, j, r, rfl, hj, hr⟩
    · exact ⟨[], i, is, rfl, hi, hr⟩

/-- **What the lines of a function store.** -/
theorem foldlM_stored {is : List (Instr L)} {x x' : Context}
    (h : is.foldlM synthLine x = .ok x') : Stored x is x' := by
  induction is generalizing x with
  | nil =>
    cases h
    refine ⟨rfl, rfl, fun i hi => absurd hi List.not_mem_nil, fun k v hs => ?_, fun k hk => ?_,
      fun k _ => rfl⟩
    · obtain ⟨l, i, r, he, -⟩ := hs
      cases l <;> cases he
    · obtain ⟨i, hi, -⟩ := hk
      cases hi
  | cons i is ih =>
    obtain ⟨x₁, hi, h⟩ := foldlM_cons_ok.mp h
    obtain ⟨hlabels, hcursor, hstores, hexists, hkept⟩ := synthLine_stored hi
    have hrest := ih h
    refine ⟨hrest.labels.trans hlabels, hrest.cursor.trans hcursor, fun j hj k hk => ?_,
      fun k v hs => ?_, fun k hk => ?_, fun k hk => ?_⟩
    · rcases List.mem_cons.mp hj with rfl | hj
      · exact hexists k hk
      · obtain ⟨v, hv⟩ := hrest.each j hj k hk
        exact ⟨v, hv.congr hlabels⟩
    · obtain hs | ⟨hs, hnot⟩ := lastStore_cons.mp hs
      · exact hrest.last k v (hs.congr hlabels.symm)
      · rw [hrest.kept k hnot]
        exact hstores k v hs
    · by_cases hr : ∃ j ∈ is, Occupies j k
      · obtain ⟨v, hv⟩ := hrest.covered k hr
        exact ⟨v, lastStore_cons.mpr (.inl (hv.congr hlabels))⟩
      · have hnot : ∀ j ∈ is, ¬ Occupies j k := fun j hj ho => hr ⟨j, hj, ho⟩
        obtain ⟨j, hj, ho⟩ := hk
        rcases List.mem_cons.mp hj with rfl | hj
        · obtain ⟨v, hv⟩ := hexists k ho
          exact ⟨v, lastStore_cons.mpr (.inr ⟨hv, hnot⟩)⟩
        · exact absurd ho (hnot j hj)
    · rw [hrest.kept k fun j hj => hk j (List.mem_cons_of_mem _ hj)]
      exact hkept k (hk i List.mem_cons_self)

/-! ### What is written of a function -/

theorem read_of_lt (x : Context) {k : Nat} (h : k < 256) :
    x.read k = some x.progMem[k] := by
  unfold Context.read
  rw [dif_pos (by omega)]
  rfl

/-- The array of a function has a row for each word below the cursor. -/
theorem outputFunc_ok {x : Context} {rows : List (Nat × Nat)}
    (h : (outputFunc x : Except (AsError L) _) = .ok rows) :
    x.cursor ≤ 256 ∧ rows.length = x.cursor.toNat ∧
      ∀ (k : Nat) v, k < rows.length → x.read k = some v → rows[k]? = some (row v) := by
  unfold outputFunc at h
  rw [mapM_ok, List.forall₂_iff_get] at h
  simp only [List.length_range, List.get_eq_getElem, List.getElem_range] at h
  obtain ⟨hlen, h⟩ := h
  have hword : ∀ k : Nat, k < rows.length → ∃ hk : k < 256, rows[k]? = some (row x.progMem[k]) := by
    intro k hk
    have hrow := h k (by omega) hk
    split at hrow
    · rename_i hlt
      refine ⟨hlt, ?_⟩
      rw [List.getElem?_eq_getElem hk, ← Except.ok.inj hrow]
    · cases hrow
  refine ⟨?_, hlen.symm, fun k v hk hv => ?_⟩
  · by_contra hlt
    obtain ⟨hk, -⟩ := hword 256 (by omega)
    exact Nat.lt_irrefl _ hk
  · obtain ⟨hlt, hrow⟩ := hword k hk
    rw [read_of_lt x hlt] at hv
    cases hv
    exact hrow

theorem outputFunc_exists {x : Context} (h : x.cursor ≤ 256) :
    ∃ rows, (outputFunc x : Except (AsError L) _) = .ok rows := by
  refine ⟨(List.range x.cursor.toNat).map fun k => row (x.progMem.toList.getD k 0), ?_⟩
  unfold outputFunc
  rw [mapM_ok, List.forall₂_map_right_iff, List.forall₂_same]
  intro k hk
  have hlt : k < 256 := by
    have := List.mem_range.mp hk
    omega
  rw [dif_pos hlt]
  simp [hlt]

/-- The header has the array of every binding of `funcs`. -/
theorem outputCheader_ok {c : Contexts} {arrays : List (String × List (Nat × Nat))}
    (h : (outputCheader c : Except (AsError L) _) = .ok arrays) :
    arrays.map Prod.fst = c.funcs.map Prod.fst ∧ ∀ f rows, (f, rows) ∈ arrays →
      ∃ r, (f, r) ∈ c.funcs ∧ (outputFunc (c.heap r) : Except (AsError L) _) = .ok rows := by
  unfold outputCheader at h
  have hpairs := mapM_ok.mp h
  clear h
  generalize c.funcs = t at hpairs ⊢
  induction hpairs with
  | nil => exact ⟨rfl, fun f rows h => absurd h List.not_mem_nil⟩
  | cons he _ ih =>
    obtain ⟨rows, hrows, h⟩ := bind_ok.mp he
    cases h
    obtain ⟨hfst, hmem⟩ := ih
    refine ⟨by rw [List.map_cons, List.map_cons, hfst], fun f rows' h => ?_⟩
    rcases List.mem_cons.mp h with he | h
    · cases he
      exact ⟨_, List.mem_cons_self, hrows⟩
    · obtain ⟨r, hr, hout⟩ := hmem f rows' h
      exact ⟨r, List.mem_cons_of_mem _ hr, hout⟩

theorem outputCheader_exists {c : Contexts}
    (h : ∀ f r, (f, r) ∈ c.funcs → (c.heap r).cursor ≤ 256) :
    ∃ arrays, (outputCheader c : Except (AsError L) _) = .ok arrays := by
  unfold outputCheader
  generalize c.funcs = t at h
  induction t with
  | nil => exact ⟨[], rfl⟩
  | cons e t ih =>
    obtain ⟨rows, hr⟩ := outputFunc_exists (L := L) (h e.1 e.2 List.mem_cons_self)
    obtain ⟨arrays, ha⟩ := ih fun f r hf => h f r (List.mem_cons_of_mem _ hf)
    refine ⟨(e.1, rows) :: arrays, mapM_ok.mpr (.cons ?_ (mapM_ok.mp ha))⟩
    exact bind_ok.mpr ⟨rows, hr, rfl⟩

end

end LsePc.Tools
