/-
  File:      LsePc/Tools/Layout.lean
  Subject:   The two passes of ocd-as agree on the layout of a function.

  * `Forward`, `Laid`: the sources that are asked for (every instruction in a
    function, distinct names and labels, `.org` only forwards, 256 words);
  * `LaidOut`: the rows of an array are the lines of a function, each at its
    offset, zeros between them, branches to the lines of their labels;
  * the first pass over a body: offsets, labels;
  * **result** (`layout_agrees`): the header of such a source has the array of
    every function, laid out as the analysis has laid it out.
-/
import LsePc.Tools.Functions
import Mathlib.Data.List.Nodup

namespace LsePc.Tools

open LsePc.Lib

section
variable {L : Type}

/-! ## 1. What is asked for -/

/-- `.org` does not move the cursor backwards. -/
def Forward (c : Contexts) : Statement L → Prop
  | .instr _ => True
  | .directive d => d.dir = ".org" → ∀ n, d.args = [.int n] → c.cur.cursor ≤ n

/-- The sources the result is about. -/
structure Laid (ast : List (Statement L)) : Prop where
  inFunc : ∀ i ∈ lines (prologue ast), i.mnem = ""
  funcs : (funcNames ast).Nodup
  labels : ∀ f ∈ funcNames ast, ((lines (bodyOf f ast)).filterMap Instr.label).Nodup
  forward : Along analyseStatement Forward createContexts ast
  fits : ∀ c out, analyse createContexts ast = .ok (c, out) →
    ∀ f x, c.func f = some x → x.cursor ≤ 256

def Operation.IsBranch (p : Operation) : Prop := p = .ba ∨ p = .beq ∨ p = .bne

/-- The rows of a function with the lines `is`, where `x` is what the analysis has left. -/
structure LaidOut (x : Context) (is : List (Instr L)) (rows : List (Nat × Nat)) : Prop where
  length : (rows.length : Int) = x.cursor
  inside : ∀ i ∈ is, 0 ≤ i.offset ∧ i.offset + i.op.size ≤ x.cursor
  increase : is.Pairwise fun i j => i.op ≠ .ud → i.offset < j.offset
  disjoint : is.Pairwise fun i j => ∀ k, Occupies i k → ¬ Occupies j k
  word : ∀ i ∈ is, i.op ≠ .ud → ∃ n : Nat, Emits x i n ∧ rows[i.offset.toNat]? = some (row n)
  immediate : ∀ i ∈ is, ∀ d s, i.op = .ldi d s → rows[i.offset.toNat + 1]? = some (row s)
  gap : ∀ k : Nat, k < rows.length → (∀ i ∈ is, ¬ Occupies i k) → rows[k]? = some (row 0)
  target : ∀ i ∈ is, ∀ l, i.op.IsBranch → i.d = .id l → (∃ j ∈ is, j.label = some l) ∧
    ∀ j ∈ is, j.label = some l → ∃ r, rows[i.offset.toNat]? = some r ∧ r.1 = low 8 j.offset

/-! ## 2. The first pass over a body -/

/-- The lines the analysis returns are those it was given, with operation and offset. -/
theorem analyse_mem {c c' : Contexts} {l out : List (Statement L)}
    (h : analyse c l = .ok (c', out)) {j : Instr L} (hj : j ∈ lines out) :
    ∃ i ∈ lines l, ∃ c₁ p, operation c₁ i = .ok p ∧
      j = { i with op := p, offset := c₁.cur.cursor } := by
  induction l generalizing c out with
  | nil =>
    obtain ⟨-, rfl⟩ := annotate_nil.mp h
    cases hj
  | cons st l ih =>
    obtain ⟨c₁, st', out₁, hst, hl, rfl⟩ := annotate_cons.mp h
    obtain ⟨i, p, rfl, hp, rfl, -⟩ | ⟨d, k, rfl, -, rfl, -⟩ | ⟨d, n, rfl, -, -, -, rfl, -⟩ |
      ⟨d, g, rfl, -, rfl, -⟩ := analyseStatement_cases hst
    · rw [lines_instr] at hj ⊢
      rcases List.mem_cons.mp hj with rfl | hj
      · exact ⟨i, List.mem_cons_self, c, p, hp, rfl⟩
      · obtain ⟨i', hi', h⟩ := ih hl hj
        exact ⟨i', List.mem_cons_of_mem _ hi', h⟩
    all_goals
      rw [lines_directive] at hj ⊢
      exact ih hl hj

theorem analyse_carried {c c' : Contexts} {l out : List (Statement L)}
    (h : analyse c l = .ok (c', out)) :
    (lines out).filterMap Instr.label = (lines l).filterMap Instr.label := by
  induction l generalizing c out with
  | nil =>
    obtain ⟨-, rfl⟩ := annotate_nil.mp h
    rfl
  | cons st l ih =>
    obtain ⟨c₁, st', out₁, hst, hl, rfl⟩ := annotate_cons.mp h
    obtain ⟨i, p, rfl, hp, rfl, -⟩ | ⟨d, k, rfl, -, rfl, -⟩ | ⟨d, n, rfl, -, -, -, rfl, -⟩ |
      ⟨d, g, rfl, -, rfl, -⟩ := analyseStatement_cases hst
    · rw [lines_instr, lines_instr, List.filterMap_cons, List.filterMap_cons, ih hl]
    all_goals
      rw [lines_directive, lines_directive]
      exact ih hl

theorem analyse_prologue {c c' : Contexts} {l out : List (Statement L)}
    (h : analyse c l = .ok (c', out)) :
    ∃ c₁, analyse c (prologue l) = .ok (c₁, prologue out) := by
  induction l generalizing c out with
  | nil =>
    obtain ⟨rfl, rfl⟩ := annotate_nil.mp h
    exact ⟨c', rfl⟩
  | cons st l ih =>
    obtain ⟨c₁, st', out₁, hst, hl, rfl⟩ := annotate_cons.mp h
    unfold prologue
    rw [List.takeWhile_cons, List.takeWhile_cons, analyseStatement_func hst]
    split
    · obtain ⟨c₂, hc₂⟩ := ih hl
      exact ⟨c₂, annotate_cons.mpr ⟨c₁, st', _, hst, hc₂, rfl⟩⟩
    · exact ⟨c, rfl⟩

/-- The lines of a body: one after the other, from the cursor before to the cursor after. -/
structure InOrder (x x' : Context) (is : List (Instr L)) : Prop where
  inside : ∀ i ∈ is, x.cursor ≤ i.offset ∧ i.offset + i.op.size ≤ x'.cursor
  order : is.Pairwise fun i j => i.offset + i.op.size ≤ j.offset
  mono : x.cursor ≤ x'.cursor

/-- No word belongs to two lines. -/
theorem InOrder.disjoint {x x' : Context} {is : List (Instr L)} (h : InOrder x x' is) :
    is.Pairwise fun i j => ∀ k, Occupies i k → ¬ Occupies j k :=
  h.order.imp fun {i j} hij k hi hj => by
    have := hi.2
    have := hj.1
    omega

theorem InOrder.increase {x x' : Context} {is : List (Instr L)} (h : InOrder x x' is) :
    is.Pairwise fun i j => i.op ≠ .ud → i.offset < j.offset :=
  h.order.imp fun {i j} hij hud => by
    have hocc : Occupies i i.offset := occupies_iff.mpr ⟨hud, .inl rfl⟩
    have := hocc.2
    omega

theorem analyse_inOrder {c c' : Contexts} {l out : List (Statement L)}
    (h : analyse c l = .ok (c', out)) (hl : funcNames l = [])
    (hf : Along analyseStatement Forward c l) : InOrder c.cur c'.cur (lines out) := by
  induction l generalizing c out with
  | nil =>
    obtain ⟨rfl, rfl⟩ := annotate_nil.mp h
    exact ⟨fun i hi => absurd hi List.not_mem_nil, .nil, Int.le_refl _⟩
  | cons st l ih =>
    obtain ⟨c₁, st', out₁, hst, hrest, rfl⟩ := annotate_cons.mp h
    have hnone := names_nil.mp hl
    have hl' : funcNames l = [] := names_nil.mpr fun s hs => hnone s (List.mem_cons_of_mem _ hs)
    have hr := ih hrest hl' (hf.2 _ hst)
    obtain ⟨i, p, rfl, -, rfl, rfl⟩ | ⟨d, k, rfl, -, rfl, rfl⟩ | ⟨d, n, rfl, -, ho, ha, rfl, rfl⟩ |
      ⟨d, g, rfl, hg, -, -⟩ := analyseStatement_cases hst
    · have hcur : (c.setCur (c.cur.after i p)).cur.cursor = c.cur.cursor + p.size := by
        rw [setCur_cur]
        rfl
      have hpos := p.size_nonneg
      have hmono := hr.mono
      rw [hcur] at hmono
      refine ⟨fun j hj => ?_, List.pairwise_cons.mpr ⟨fun j hj => ?_, hr.order⟩, by omega⟩
      · rcases List.mem_cons.mp hj with rfl | hj
        · exact ⟨Int.le_refl _, hmono⟩
        · have := hr.inside j hj
          rw [hcur] at this
          omega
      · have := hr.inside j hj
        rw [hcur] at this
        exact this.1
    · rw [lines_directive]
      exact hr
    · have hcur : (c.setCur { c.cur with cursor := n }).cur.cursor = n := by rw [setCur_cur]
      have hn : c.cur.cursor ≤ n := hf.1 ho n ha
      have hmono := hr.mono
      rw [hcur] at hmono
      refine ⟨fun j hj => ?_, hr.order, by omega⟩
      have := hr.inside j hj
      rw [hcur] at this
      omega
    · cases hg.symm.trans (hnone _ List.mem_cons_self)

/-- What the analysis of a body leaves: the memory as it was, a label for every line that
    carries one. -/
structure Labelled (x x' : Context) (is : List (Instr L)) : Prop where
  memory : x'.progMem = x.progMem
  found : ∀ l v, x'.labels.find l = some v →
    x.labels.find l = some v ∨ ∃ j ∈ is, j.label = some l ∧ j.offset = v
  kept : ∀ l, l ∉ is.filterMap Instr.label → x'.labels.find l = x.labels.find l
  carried : (is.filterMap Instr.label).Nodup →
    ∀ j ∈ is, ∀ l, j.label = some l → x'.labels.find l = some j.offset

theorem analyse_labelled {c c' : Contexts} {l out : List (Statement L)}
    (h : analyse c l = .ok (c', out)) (hl : funcNames l = []) :
    Labelled c.cur c'.cur (lines out) := by
  induction l generalizing c out with
  | nil =>
    obtain ⟨rfl, rfl⟩ := annotate_nil.mp h
    exact ⟨rfl, fun x v hv => .inl hv, fun x _ => rfl, fun _ j hj => absurd hj List.not_mem_nil⟩
  | cons st l ih =>
    obtain ⟨c₁, st', out₁, hst, hrest, rfl⟩ := annotate_cons.mp h
    have hnone := names_nil.mp hl
    have hl' : funcNames l = [] := names_nil.mpr fun s hs => hnone s (List.mem_cons_of_mem _ hs)
    have hr := ih hrest hl'
    obtain ⟨i, p, rfl, -, rfl, rfl⟩ | ⟨d, k, rfl, -, rfl, rfl⟩ | ⟨d, n, rfl, -, -, -, rfl, rfl⟩ |
      ⟨d, g, rfl, hg, -, -⟩ := analyseStatement_cases hst
    · have hfind : ∀ x, (c.setCur (c.cur.after i p)).cur.labels.find x =
          if i.label = some x then some c.cur.cursor else c.cur.labels.find x := fun x => by
        rw [setCur_cur, after_find]
      refine ⟨?_, fun x v hv => ?_, fun x hx => ?_, fun hnd j hj x hjx => ?_⟩
      · rw [hr.memory, setCur_cur]
        rfl
      · obtain hv | ⟨j, hj, hjx⟩ := hr.found x v hv
        · rw [hfind] at hv
          split at hv
          · rename_i hi
            cases hv
            exact .inr ⟨_, List.mem_cons_self, hi, rfl⟩
          · exact .inl hv
        · exact .inr ⟨j, List.mem_cons_of_mem _ hj, hjx⟩
      · have hnot : i.label ≠ some x := fun hi => hx (List.mem_filterMap.mpr
          ⟨_, List.mem_cons_self, hi⟩)
        have hrest : x ∉ (lines out₁).filterMap Instr.label := fun hmem => by
          obtain ⟨j, hj, hjx⟩ := List.mem_filterMap.mp hmem
          exact hx (List.mem_filterMap.mpr ⟨j, List.mem_cons_of_mem _ hj, hjx⟩)
        rw [hr.kept x hrest, hfind, if_neg hnot]
      · change (((_ : Instr L) :: lines out₁).filterMap Instr.label).Nodup at hnd
        rw [List.filterMap_cons] at hnd
        rcases List.mem_cons.mp hj with rfl | hj
        · have hi : i.label = some x := hjx
          simp only [hi, List.nodup_cons] at hnd
          rw [hr.kept x hnd.1, hfind, if_pos hi]
        · refine hr.carried ?_ j hj x hjx
          split at hnd
          · exact hnd
          · exact (List.nodup_cons.mp hnd).2
    · rw [lines_directive]
      exact hr
    · have hcur : (c.setCur { c.cur with cursor := n }).cur = { c.cur with cursor := n } :=
        setCur_cur ..
      exact ⟨hr.memory.trans (by rw [hcur]), fun x v hv => by
        have := hr.found x v hv
        rwa [hcur] at this, fun x hx => (hr.kept x hx).trans (by rw [hcur]), hr.carried⟩
    · cases hg.symm.trans (hnone _ List.mem_cons_self)

/-! ## 3. The header -/

/-- The bindings of `funcs`, the newest first. -/
theorem analyse_bindings {c c' : Contexts} {l out : List (Statement L)}
    (h : analyse c l = .ok (c', out)) :
    c'.funcs.map Prod.fst = (funcNames l).reverse ++ c.funcs.map Prod.fst := by
  induction l generalizing c out with
  | nil =>
    obtain ⟨rfl, rfl⟩ := annotate_nil.mp h
    rfl
  | cons st l ih =>
    obtain ⟨c₁, st', out₁, hst, hl, rfl⟩ := annotate_cons.mp h
    rw [ih hl]
    unfold funcNames
    rw [List.filterMap_cons]
    obtain ⟨i, p, rfl, -, -, rfl⟩ | ⟨d, k, rfl, hd, -, rfl⟩ | ⟨d, n, rfl, hd, -, -, -, rfl⟩ |
      ⟨d, g, rfl, hd, -, rfl⟩ := analyseStatement_cases hst
    · rfl
    · rw [hd]
    · rw [hd]
      rfl
    · rw [hd]
      change _ = (g :: _).reverse ++ _
      rw [List.reverse_cons, List.append_assoc]
      rfl

theorem find_of_mem {α : Type} {t : Hashtbl α} {k : String} {v : α}
    (hnd : (t.map Prod.fst).Nodup) (h : (k, v) ∈ t) : t.find k = some v := by
  induction t with
  | nil => cases h
  | cons e t ih =>
    rw [List.map_cons, List.nodup_cons] at hnd
    refine (Hashtbl.find_add t e.1 k e.2).trans ?_
    rcases List.mem_cons.mp h with rfl | h
    · exact if_pos rfl
    · have hne : k ≠ e.1 := by
        intro he
        obtain rfl := he
        exact hnd.1 (List.mem_map.mpr ⟨_, h, rfl⟩)
      rw [if_neg hne]
      exact ih hnd.2 h

theorem low_opcodeAddr (i : Nat) (a : Int) : low 8 (opcodeAddr i a : Nat) = low 8 a := by
  have hlt := low_lt 8 a
  rw [opcodeAddr_eq]
  change (((i * 256 + low 8 a : Nat) : Int) % 256).toNat = low 8 a
  omega

section
variable {ast out : List (Statement L)} {c c' : Contexts} {f : String}

/-- No line before the first `.func` stores anything. -/
theorem Laid.strays_ud (hl : Laid ast) (han : analyse createContexts ast = .ok (c, out)) :
    ∀ i ∈ strays f out, i.op = .ud := by
  intro j hj
  unfold strays at hj
  split at hj
  · obtain ⟨c₁, hpro⟩ := analyse_prologue han
    obtain ⟨i, hi, c₂, p, hp, rfl⟩ := analyse_mem hpro hj
    obtain ⟨-, hud⟩ | ⟨m, hm⟩ := operation_means hp
    · exact hud
    · have htext := hm.text.trans (hl.inFunc i hi)
      cases m <;> simp [text] at htext
  · cases hj

theorem read_createContext {x : Context} (h : x.progMem = createContext.progMem) {k : Int}
    (h₀ : 0 ≤ k) (h₁ : k < 256) : x.read k = some 0 := by
  unfold Context.read
  rw [dif_pos ⟨h₀, h₁⟩, h]
  exact congrArg some (Vector.getElem_replicate _)

/-- A branch to a label is emitted with the offset the label has in its function. -/
theorem emits_branch {x : Context} {i : Instr L} {n : Nat} {l : String} (h : Emits x i n)
    (hbr : i.op.IsBranch) (hd : i.d = .id l) :
    ∃ a, x.labels.find l = some a ∧ n = opcodeAddr i.op.code a := by
  unfold Emits at h
  rcases hbr with hop | hop | hop <;>
  · rw [hop] at h ⊢
    obtain ⟨a, ha, hn⟩ := h
    rw [hd, getAddr_id] at ha
    exact ⟨a, ha, hn⟩

theorem Operation.IsBranch.ne_ud {p : Operation} (h : p.IsBranch) : p ≠ .ud := by
  intro he
  rw [he] at h
  rcases h with h | h | h <;> cases h

/-- One function of a source that is asked for. -/
theorem Laid.func (hl : Laid ast) (han : analyse createContexts ast = .ok (c, out))
    (hsyn : synth c out = .ok c') (hf : f ∈ funcNames ast) :
    ∃ x x', c.func f = some x ∧ c'.func f = some x' ∧ x'.cursor ≤ 256 ∧
      ∀ rows, (outputFunc x' : Except (AsError L) _) = .ok rows →
        LaidOut x (lines (bodyOf f out)) rows := by
  obtain ⟨loc, hcut⟩ := cut_of_mem hf
  have hone := hcut.once (List.count_eq_one_of_mem hl.funcs hf)
  obtain ⟨c₁, out₁, c₂, x, x', hpre, hbody, hfunc, hstrays, hlines, hfunc'⟩ :=
    hcut.assembled hone han hsyn
  -- the first pass over the body
  have halong : Along analyseStatement Forward (c₁.newFunc f) (bodyOf f ast) := by
    have h := hl.forward
    rw [hcut.eq] at h
    exact ((h.of_append hpre).2 _ rfl).take
  have horder := analyse_inOrder hbody hcut.body halong
  have hlab := analyse_labelled hbody hcut.body
  have hnd : ((lines (bodyOf f out)).filterMap Instr.label).Nodup := by
    rw [analyse_carried hbody]
    exact hl.labels f hf
  rw [newFunc_cur] at horder hlab
  generalize c₂.cur = y at *
  generalize lines (bodyOf f out) = is at *
  -- the second pass over the lines
  have hs := foldlM_stored hstrays
  have hb := foldlM_stored hlines
  have hpos : 0 ≤ y.cursor := horder.mono
  have hcursor : x'.cursor = y.cursor := hb.cursor.trans hs.cursor
  have hfits : y.cursor ≤ 256 := hl.fits c out han f y hfunc
  refine ⟨y, x', hfunc, hfunc', by omega, fun rows hrows => ?_⟩
  obtain ⟨-, hlen, hrow⟩ := outputFunc_ok hrows
  have hword : ∀ i ∈ is, ∀ k v, Stores y i k v → rows[k.toNat]? = some (row v) := by
    intro i hi k v hv
    obtain ⟨hk₀, hk₁⟩ := hv.occupies
    obtain ⟨hi₀, hi₁⟩ := horder.inside i hi
    have hi₀ : 0 ≤ i.offset := hi₀
    obtain ⟨l, r, rfl⟩ := List.append_of_mem hi
    have hlast : LastStore x (l ++ i :: r) k v := by
      refine ⟨l, i, r, rfl, hv.congr hs.labels.symm, fun j hj => ?_⟩
      have htail := (List.pairwise_append.mp horder.disjoint).2.1
      exact (List.pairwise_cons.mp htail).1 j hj k hv.occupies
    have hread := hb.last k v hlast
    have hcast : ((k.toNat : Nat) : Int) = k := Int.toNat_of_nonneg (by omega)
    exact hrow k.toNat v (by omega) (by rw [hcast]; exact hread)
  have hinstr : ∀ i ∈ is, i.op ≠ .ud →
      ∃ n : Nat, Emits y i n ∧ rows[i.offset.toNat]? = some (row n) := by
    intro i hi hud
    have hocc := occupies_iff.mpr ⟨hud, .inl rfl⟩
    obtain ⟨v, hv⟩ := hb.each i hi i.offset hocc
    have hrow := hword i hi i.offset v (hv.congr hs.labels)
    obtain ⟨-, ⟨-, n, hn, rfl⟩ | ⟨hk, -⟩⟩ := hv
    · exact ⟨n, hn.congr hs.labels, hrow⟩
    · omega
  refine ⟨by omega, horder.inside, horder.increase, horder.disjoint, hinstr,
    fun i hi d s hop => ?_, fun k hk hgap => ?_, fun i hi l hbr hd => ?_⟩
  · have hi₀ : 0 ≤ i.offset := (horder.inside i hi).1
    have := hword i hi (i.offset + 1) s ⟨by rw [hop]; exact nofun, .inr ⟨rfl, d, hop⟩⟩
    rwa [Int.toNat_add hi₀ (by omega)] at this
  · refine hrow k 0 hk ?_
    have hnot : ∀ i ∈ strays f out, ¬ Occupies i k := fun i hi ho =>
      (occupies_iff.mp ho).1 (hl.strays_ud han i hi)
    rw [hb.kept k hgap, hs.kept k hnot]
    exact read_createContext hlab.memory (by omega) (by omega)
  · obtain ⟨n, hn, hr⟩ := hinstr i hi (Operation.IsBranch.ne_ud hbr)
    obtain ⟨a, ha, rfl⟩ := emits_branch hn hbr hd
    refine ⟨?_, fun j hj hjl => ⟨_, hr, ?_⟩⟩
    · obtain hnone | ⟨j, hj, hjl, -⟩ := hlab.found l a ha
      · cases hnone
      · exact ⟨j, hj, hjl⟩
    · have hfind := hlab.carried hnd j hj l hjl
      cases ha.symm.trans hfind
      exact low_opcodeAddr _ _

/-- **The two passes agree on the layout**: of a source that is asked for, the header has
    the array of every function and no other, with as many rows as the analysis has moved
    the cursor, each instruction at the offset of its line, zeros in the gaps, and branches
    to the offsets of the labelled lines of their own function. -/
theorem layout_agrees (hl : Laid ast) (han : analyse createContexts ast = .ok (c, out))
    (hsyn : synth c out = .ok c') :
    ∃ arrays, (outputCheader c' : Except (AsError L) _) = .ok arrays ∧
      (arrays.map Prod.fst).Perm (funcNames ast) ∧
      ∀ f rows, (f, rows) ∈ arrays →
        ∃ x, c.func f = some x ∧ LaidOut x (lines (bodyOf f out)) rows := by
  have hfuncs : c'.funcs = c.funcs := (synth_keeps (g := none) hsyn nofun).1
  have hkeys : c'.funcs.map Prod.fst = (funcNames ast).reverse := by
    rw [hfuncs, analyse_bindings han]
    exact List.append_nil _
  have hnd : (c'.funcs.map Prod.fst).Nodup := by
    rw [hkeys]
    exact List.nodup_reverse.mpr hl.funcs
  have hmem : ∀ f r, (f, r) ∈ c'.funcs → f ∈ funcNames ast ∧ c'.func f = some (c'.heap r) := by
    intro f r hr
    refine ⟨?_, ?_⟩
    · rw [← List.mem_reverse, ← hkeys]
      exact List.mem_map.mpr ⟨_, hr, rfl⟩
    · unfold Contexts.func
      rw [find_of_mem hnd hr]
      rfl
  obtain ⟨arrays, harr⟩ := outputCheader_exists (L := L) (c := c') fun f r hr => by
    obtain ⟨hf, hx⟩ := hmem f r hr
    obtain ⟨x, x', -, hx', hfits, -⟩ := hl.func han hsyn hf
    cases hx.symm.trans hx'
    exact hfits
  obtain ⟨hfst, hrows⟩ := outputCheader_ok harr
  refine ⟨arrays, harr, ?_, fun f rows h => ?_⟩
  · rw [hfst, hkeys]
    exact List.reverse_perm _
  · obtain ⟨r, hr, hout⟩ := hrows f rows h
    obtain ⟨hf, hx⟩ := hmem f r hr
    obtain ⟨x, x', hfunc, hx', -, hlaid⟩ := hl.func han hsyn hf
    cases hx.symm.trans hx'
    exact ⟨x, hfunc, hlaid rows hout⟩

end

/-- Two functions with a label of the same name, a gap, an LDI and branches to and fro. -/
def gapProgram : List (Statement Nat) :=
  [.directive ⟨".func", [.id "f"], 1⟩,
    .instr { label := none, mnem := "BEQ", d := .id "x", s := .noOp, loc := 2 },
    .directive ⟨".org", [.int 3], 3⟩,
    .instr { label := some "x", mnem := "LDI", d := .int 1, s := .int 5, loc := 4 },
    .directive ⟨".func", [.id "g"], 5⟩,
    .instr { label := some "x", mnem := "", d := .noOp, s := .noOp, loc := 6 },
    .instr { label := none, mnem := "BA", d := .id "x", s := .noOp, loc := 7 }]

theorem laid_gapProgram : Laid gapProgram where
  inFunc := by decide
  funcs := by decide
  labels := by decide
  forward := by
    refine ⟨nofun, fun x hx => ?_⟩
    cases hx
    refine ⟨trivial, fun x hx => ?_⟩
    cases hx
    refine ⟨fun _ n hn => ?_, fun x hx => ?_⟩
    · cases hn
      decide
    cases hx
    refine ⟨trivial, fun x hx => ?_⟩
    cases hx
    refine ⟨nofun, fun x hx => ?_⟩
    cases hx
    refine ⟨trivial, fun x hx => ?_⟩
    cases hx
    exact ⟨trivial, fun _ _ => trivial⟩
  fits c out h f x hx := by
    cases h
    by_cases hg : f = "g"
    · subst hg
      cases hx
      decide
    by_cases hf : f = "f"
    · subst hf
      cases hx
      decide
    · have hnone : List.lookup f [("g", 2), ("f", 1)] = none := by
        simp [List.lookup_cons, beq_false_of_ne hg, beq_false_of_ne hf]
      change Option.map _ (List.lookup f [("g", 2), ("f", 1)]) = some x at hx
      rw [hnone] at hx
      cases hx

theorem layout_agrees_gap : ∃ c out c' arrays,
    analyse createContexts gapProgram = .ok (c, out) ∧ synth c out = .ok c' ∧
    (outputCheader c' : Except (AsError Nat) _) = .ok arrays ∧
      (arrays.map Prod.fst).Perm ["f", "g"] ∧
      ∀ f rows, (f, rows) ∈ arrays →
        ∃ x, c.func f = some x ∧ LaidOut x (lines (bodyOf f out)) rows := by
  obtain ⟨arrays, harr, hperm, hlaid⟩ := layout_agrees laid_gapProgram rfl rfl
  exact ⟨_, _, _, arrays, rfl, rfl, harr, hperm, hlaid⟩

end

end LsePc.Tools
