/-
  File:      LsePc/Tools/Independence.lean
  Subject:   What the words of a function depend on.

  * `erase`: a statement without the place it stands at;
  * `SameConst`: two sources define the same constants;
  * `Stray`: a word of a function that none of its lines occupies, and what the lines
    before the first `.func` leave there;
  * `Emitted`: the rows of a function, from its lines and those before the first `.func`;
  * **result** (`independent_iff`): two sources with the same body of `f`, reached with
    the same constants, emit the same words for `f` exactly when they leave the same
    words in the gaps of `f`.
-/
import LsePc.Tools.Layout

namespace LsePc.Tools

open LsePc.Lib

section
variable {L : Type}

/-! ## 1. Two sources -/

def Instr.erase (i : Instr L) : Instr Unit :=
  { label := i.label, mnem := i.mnem, d := i.d, s := i.s, offset := i.offset, op := i.op,
    loc := () }

/-- A statement without the place it stands at. -/
def Statement.erase : Statement L → Statement Unit
  | .instr i => .instr i.erase
  | .directive d => .directive { dir := d.dir, args := d.args, loc := () }

/-- The constants that are defined when the analysis has come so far. -/
def SameConst (pre₁ pre₂ : List (Statement L)) : Prop :=
  ∀ c₁ out₁ c₂ out₂, analyse createContexts pre₁ = .ok (c₁, out₁) →
    analyse createContexts pre₂ = .ok (c₂, out₂) → ∀ k, c₁.const.find k = c₂.const.find k

/-- `v` is what the lines `is` leave at `k` in an empty memory. -/
def Leaves (x : Context) (is : List (Instr L)) (k v : Int) : Prop :=
  LastStore x is k v ∨ (v = 0 ∧ ∀ i ∈ is, ¬ Occupies i k)

/-- The lines before the first `.func` leave `v` at the word `k` of `f`, and no line of `f`
    occupies this word. -/
def Stray (ast : List (Statement L)) (f : String) (k v : Int) : Prop :=
  ∃ c out x, analyse createContexts ast = .ok (c, out) ∧ c.func f = some x ∧
    0 ≤ k ∧ k < x.cursor ∧ (∀ i ∈ lines (bodyOf f out), ¬ Occupies i k) ∧
    Leaves x (strays f out) k v

/-! ## 2. The same body -/

/-- Contexts that a body cannot tell apart. -/
def Alike (c c' : Contexts) : Prop := c.cur = c'.cur ∧ ∀ k, c.const.find k = c'.const.find k

theorem getop_alike {c c' : Contexts} (h : Alike c c') {loc loc' : L} {o : Op} {v : Int}
    (hv : getop c loc o = .ok v) : getop c' loc' o = .ok v := by
  cases o with
  | int i => exact hv
  | id i =>
    have hconst := h.2 i
    unfold getop at hv ⊢
    dsimp only at hv ⊢
    rw [← hconst]
    split at hv
    · exact hv
    · cases hv
  | noOp => cases hv

theorem operation_alike {c c' : Contexts} (h : Alike c c') {i : Instr L} {p : Operation}
    (hp : operation c i = .ok p) (loc : L) : operation c' { i with loc := loc } = .ok p := by
  unfold operation at hp ⊢
  dsimp only
  split at hp
  case h_30 => cases hp
  case h_4 | h_5 =>
    obtain ⟨s, hs, hp⟩ := bind_ok.mp hp
    obtain ⟨d, hd, hp⟩ := bind_ok.mp hp
    exact bind_ok.mpr ⟨s, getop_alike h hs, bind_ok.mpr ⟨d, getop_alike h hd, hp⟩⟩
  all_goals first
    | exact hp
    | obtain ⟨v, hv, hp⟩ := bind_ok.mp hp
      exact bind_ok.mpr ⟨v, getop_alike h hv, hp⟩

theorem Alike.setCur {c c' : Contexts} (h : Alike c c') (x : Context) :
    Alike (c.setCur x) (c'.setCur x) :=
  ⟨by rw [setCur_cur, setCur_cur], h.2⟩

theorem analyseDir_alike {c c' c₁ c₁' : Contexts} (h : Alike c c') {d : Directive L} {loc : L}
    (hd : analyseDir c d = .ok c₁) (hd' : analyseDir c' { d with loc := loc } = .ok c₁')
    (hnone : (Statement.directive d).func = none) : Alike c₁ c₁' := by
  obtain ⟨dir, args, loc'⟩ := d
  unfold analyseDir at hd
  split at hd <;> rename_i hdir <;> dsimp only at hdir hd
  case h_4 => cases hd
  all_goals subst hdir
  · change dirDefine c' loc args = _ at hd'
    unfold dirDefine at hd hd'
    split at hd
    · obtain ⟨v, hv, hd⟩ := bind_ok.mp hd
      obtain ⟨v', hv', hd'⟩ := bind_ok.mp hd'
      cases (getop_alike h hv).symm.trans hv'
      cases hd
      cases hd'
      refine ⟨h.1, fun k => ?_⟩
      rw [Hashtbl.find_add, Hashtbl.find_add, h.2 k]
    · cases hd
  · change dirOrg c' loc args = _ at hd'
    unfold dirOrg at hd hd'
    split at hd
    · cases hd
      cases hd'
      rw [h.1]
      exact h.setCur _
    · cases hd
  · unfold dirFunc at hd
    split at hd
    · cases hnone
    · cases hd

theorem analyseStatement_alike {c c' c₁ c₁' : Contexts} {st st' b b' : Statement L}
    (h : Alike c c') (he : st.erase = st'.erase ∧ st.func = none)
    (hst : analyseStatement c st = .ok (c₁, b)) (hst' : analyseStatement c' st' = .ok (c₁', b')) :
    Alike c₁ c₁' ∧ b.erase = b'.erase := by
  obtain ⟨he, hnone⟩ := he
  cases st with
  | instr i =>
    cases st' with
    | directive d => cases he
    | instr i' =>
      obtain ⟨j, p, hj, hp, rfl, rfl⟩ | ⟨d, k, hj, -⟩ | ⟨d, n, hj, -⟩ | ⟨d, f, hj, -⟩ :=
        analyseStatement_cases hst
      case inr.inl | inr.inr.inl | inr.inr.inr => cases hj
      obtain ⟨j', p', hj', hp', rfl, rfl⟩ | ⟨d, k, hj', -⟩ | ⟨d, n, hj', -⟩ | ⟨d, f, hj', -⟩ :=
        analyseStatement_cases hst'
      case inr.inl | inr.inr.inl | inr.inr.inr => cases hj'
      cases hj
      cases hj'
      obtain ⟨label, mnem, d, s, offset, op, loc⟩ := i
      obtain ⟨label', mnem', d', s', offset', op', loc'⟩ := i'
      cases he
      cases (operation_alike h hp loc').symm.trans hp'
      rw [h.1]
      exact ⟨h.setCur _, rfl⟩
  | directive d =>
    cases st' with
    | instr i => cases he
    | directive d' =>
      obtain ⟨c₂, hd, hst⟩ := bind_ok.mp hst
      obtain ⟨c₂', hd', hst'⟩ := bind_ok.mp hst'
      cases hst
      cases hst'
      obtain ⟨dir, args, loc⟩ := d
      obtain ⟨dir', args', loc'⟩ := d'
      cases he
      exact ⟨analyseDir_alike h hd hd' hnone, rfl⟩

/-- **The same body, analysed twice**, leaves the same context and the same lines. -/
theorem analyse_alike {c₁ c₂ c₁' c₂' : Contexts} {l₁ l₂ out₁ out₂ : List (Statement L)}
    (h : Alike c₁ c₂) (he : l₁.map Statement.erase = l₂.map Statement.erase)
    (hl : funcNames l₁ = []) (h₁ : analyse c₁ l₁ = .ok (c₁', out₁))
    (h₂ : analyse c₂ l₂ = .ok (c₂', out₂)) :
    c₁'.cur = c₂'.cur ∧ out₁.map Statement.erase = out₂.map Statement.erase := by
  have hpairs : List.Forall₂ (fun st st' : Statement L => st.erase = st'.erase ∧ st.func = none)
      l₁ l₂ := by
    have hnone := names_nil.mp hl
    clear hl h₁ h₂
    induction l₁ generalizing l₂ with
    | nil =>
      cases l₂ with
      | nil => exact .nil
      | cons st' l₂ => cases he
    | cons st l₁ ih =>
      cases l₂ with
      | nil => cases he
      | cons st' l₂ =>
        rw [List.map_cons, List.map_cons, List.cons.injEq] at he
        exact .cons ⟨he.1, hnone st List.mem_cons_self⟩
          (ih he.2 fun s hs => hnone s (List.mem_cons_of_mem _ hs))
  obtain ⟨halike, hout⟩ : Alike c₁' c₂' ∧
      List.Forall₂ (fun b b' : Statement L => b.erase = b'.erase) out₁ out₂ :=
    annotate_rel (fun s t a a' s₁ t₁ b b' => analyseStatement_alike) hpairs h h₁ h₂
  refine ⟨halike.1, ?_⟩
  rw [← List.forall₂_eq_eq_eq, List.forall₂_map_left_iff, List.forall₂_map_right_iff]
  exact hout

theorem lines_erase (l : List (Statement L)) :
    (lines l).map Instr.erase = lines (l.map Statement.erase) := by
  induction l with
  | nil => rfl
  | cons st l ih =>
    cases st with
    | instr i => rw [List.map_cons, Statement.erase, lines_instr, lines_instr, List.map_cons, ih]
    | directive d => rw [List.map_cons, Statement.erase, lines_directive, lines_directive, ih]

theorem getAddr_erase {x : Context} {loc : L} {loc' : Unit} {o : Op} {a : Int} :
    getAddr x loc o = .ok a ↔ getAddr x loc' o = .ok a := by
  cases o with
  | int i => simp [getAddr]
  | id i => rw [getAddr_id, getAddr_id]
  | noOp => simp [getAddr]

theorem emits_erase {x : Context} {i : Instr L} {n : Nat} : Emits x i.erase n ↔ Emits x i n := by
  obtain ⟨label, mnem, d, s, offset, op, loc⟩ := i
  unfold Emits Instr.erase
  cases op
  case ba | beq | bne => exact exists_congr fun a => and_congr_left fun _ => getAddr_erase.symm
  all_goals exact Iff.rfl

theorem stores_erase {x : Context} {i : Instr L} {k v : Int} :
    Stores x i.erase k v ↔ Stores x i k v := by
  unfold Stores
  simp only [emits_erase]
  exact Iff.rfl

/-- What lines store does not depend on where they stand in the source. -/
theorem lastStore_erase {x : Context} {is is' : List (Instr L)} {k v : Int}
    (he : is.map Instr.erase = is'.map Instr.erase) (h : LastStore x is k v) :
    LastStore x is' k v := by
  obtain ⟨l, i, r, rfl, hi, hr⟩ := h
  rw [List.map_append, List.map_cons] at he
  obtain ⟨l', t, rfl, -, ht⟩ := List.map_eq_append_iff.mp he.symm
  obtain ⟨i', r', rfl, hi', hr'⟩ := List.map_eq_cons_iff.mp ht
  refine ⟨l', i', r', rfl, ?_, fun j hj ho => ?_⟩
  · rw [← stores_erase, hi', stores_erase]
    exact hi
  · have hmem : j.erase ∈ r.map Instr.erase := by
      rw [← hr']
      exact List.mem_map_of_mem hj
    obtain ⟨j', hj', he'⟩ := List.mem_map.mp hmem
    refine hr j' hj' ?_
    change Occupies j'.erase k
    rw [he']
    exact ho

theorem occupies_erase {is is' : List (Instr L)} {k : Int}
    (he : is.map Instr.erase = is'.map Instr.erase) (h : ∃ i ∈ is, Occupies i k) :
    ∃ i ∈ is', Occupies i k := by
  obtain ⟨i, hi, ho⟩ := h
  have hmem : i.erase ∈ is'.map Instr.erase := by
    rw [← he]
    exact List.mem_map_of_mem hi
  obtain ⟨j, hj, hj'⟩ := List.mem_map.mp hmem
  refine ⟨j, hj, ?_⟩
  change Occupies j.erase k
  rw [hj']
  exact ho

/-! ## 3. The words of one function -/

/-- The rows of a function: what the lines `is` have stored, in the words that `ss` left. -/
structure Emitted (y : Context) (is ss : List (Instr L)) (rows : List (Nat × Nat)) : Prop where
  length : rows.length = y.cursor.toNat
  word : ∀ k : Nat, k < rows.length → ∀ v, LastStore y is k v → rows[k]? = some (row v)
  covered : ∀ k, (∃ i ∈ is, Occupies i k) → ∃ v, LastStore y is k v
  gap : ∀ k : Nat, k < rows.length → (∀ i ∈ is, ¬ Occupies i k) → ∀ v, Leaves y ss k v →
    rows[k]? = some (row v)
  left : ∀ k, ∃ v, Leaves y ss k v

theorem lookup_array {c : Contexts} {arrays : List (String × List (Nat × Nat))} {f : String}
    {x : Context} (h : (outputCheader c : Except (AsError L) _) = .ok arrays)
    (hx : c.func f = some x) :
    ∃ rows, List.lookup f arrays = some rows ∧
      (outputFunc x : Except (AsError L) _) = .ok rows := by
  unfold Contexts.func Hashtbl.find at hx
  unfold outputCheader at h
  have hpairs := mapM_ok.mp h
  clear h
  generalize c.funcs = t at hpairs hx
  induction hpairs with
  | nil => cases hx
  | @cons e a t' as he _ ih =>
    obtain ⟨rows, hrows, h⟩ := bind_ok.mp he
    cases h
    rw [List.lookup_cons] at hx ⊢
    cases hk : f == e.1 with
    | true =>
      rw [hk] at hx
      cases hx
      exact ⟨rows, rfl, hrows⟩
    | false =>
      rw [hk] at hx
      exact ih hx

/-- **One function of a program that is accepted.** -/
theorem main_func {ast : List (Statement L)} {arrays : List (String × List (Nat × Nat))}
    {f : String} (h : main ast = .ok arrays) (hone : (funcNames ast).count f = 1) :
    ∃ c₁ out₁ c₂ c out rows, analyse createContexts (upTo f ast) = .ok (c₁, out₁) ∧
      analyse (c₁.newFunc f) (bodyOf f ast) = .ok (c₂, bodyOf f out) ∧
      analyse createContexts ast = .ok (c, out) ∧ c.func f = some c₂.cur ∧
      List.lookup f arrays = some rows ∧
      Emitted c₂.cur (lines (bodyOf f out)) (strays f out) rows := by
  obtain ⟨c', hok, hout⟩ := bind_ok.mp h
  obtain ⟨⟨c, out⟩, han, hsyn⟩ := bind_ok.mp hok
  have hf : f ∈ funcNames ast := List.count_pos_iff.mp (by omega)
  obtain ⟨loc, hcut⟩ := cut_of_mem hf
  obtain ⟨c₁, out₁, c₂, x, x', hpre, hbody, hfunc, hstrays, hlines, hfunc'⟩ :=
    hcut.assembled (hcut.once hone) han hsyn
  obtain ⟨rows, hlookup, hrows⟩ := lookup_array hout hfunc'
  refine ⟨c₁, out₁, c₂, c, out, rows, hpre, hbody, han, hfunc, hlookup, ?_⟩
  have hlab := analyse_labelled hbody hcut.body
  rw [newFunc_cur] at hlab
  have hs := foldlM_stored hstrays
  have hb := foldlM_stored hlines
  have hcursor : x'.cursor = c₂.cur.cursor := hb.cursor.trans hs.cursor
  obtain ⟨hfits, hlen, hrow⟩ := outputFunc_ok hrows
  refine ⟨by rw [hlen, hcursor], fun k hk v hv => ?_, fun k hk => ?_, fun k hk hgap v hv => ?_,
    fun k => ?_⟩
  · exact hrow k v hk (hb.last k v (hv.congr hs.labels.symm))
  · obtain ⟨v, hv⟩ := hb.covered k hk
    exact ⟨v, hv.congr hs.labels⟩
  · refine hrow k v hk ?_
    rw [hb.kept k hgap]
    obtain hv | ⟨rfl, hnot⟩ := hv
    · exact hs.last k v hv
    · rw [hs.kept k hnot]
      exact read_createContext hlab.memory (by omega) (by omega)
  · by_cases hk : ∃ i ∈ strays f out, Occupies i k
    · obtain ⟨v, hv⟩ := hs.covered k hk
      exact ⟨v, .inl hv⟩
    · exact ⟨0, .inr ⟨rfl, fun i hi ho => hk ⟨i, hi, ho⟩⟩⟩

/-! ## 4. Two programs -/

/-- In a program that is accepted the lines and the context are those of its analysis. -/
theorem stray_iff {ast out : List (Statement L)} {c : Contexts} {x : Context} {f : String}
    (han : analyse createContexts ast = .ok (c, out)) (hx : c.func f = some x) {k v : Int} :
    Stray ast f k v ↔ 0 ≤ k ∧ k < x.cursor ∧ (∀ i ∈ lines (bodyOf f out), ¬ Occupies i k) ∧
      Leaves x (strays f out) k v := by
  constructor
  · intro h
    obtain ⟨c', out', x', han', hx', h⟩ := h
    cases han.symm.trans han'
    cases hx.symm.trans hx'
    exact h
  · exact fun h => ⟨c, out, x, han, hx, h⟩

/-- **Two functions with the same lines are emitted alike** exactly when their gaps are. -/
theorem emitted_eq_iff {x : Context} {is₁ is₂ left₁ left₂ : List (Instr L)}
    {rows₁ rows₂ : List (Nat × Nat)} (h₁ : Emitted x is₁ left₁ rows₁)
    (h₂ : Emitted x is₂ left₂ rows₂) (hlines : is₁.map Instr.erase = is₂.map Instr.erase) :
    rows₁ = rows₂ ↔ ∀ k v₁ v₂ : Int, 0 ≤ k → k < x.cursor → (∀ i ∈ is₁, ¬ Occupies i k) →
      (∀ i ∈ is₂, ¬ Occupies i k) → Leaves x left₁ k v₁ → Leaves x left₂ k v₂ →
      row v₁ = row v₂ := by
  have hlen : rows₁.length = rows₂.length := h₁.length.trans h₂.length.symm
  constructor
  · intro he k v₁ v₂ h0 hlt hgap₁ hgap₂ hv₁ hv₂
    obtain rfl := he
    have hcast : ((k.toNat : Nat) : Int) = k := Int.toNat_of_nonneg h0
    have hk : k.toNat < rows₁.length := by
      rw [h₁.length]
      omega
    rw [← hcast] at hgap₁ hgap₂ hv₁ hv₂
    have hrow := (h₁.gap _ hk hgap₁ _ hv₁).symm.trans (h₂.gap _ hk hgap₂ _ hv₂)
    exact Option.some.inj hrow
  · intro h
    refine List.ext_getElem? fun k => ?_
    by_cases hk : k < rows₁.length
    · by_cases hocc : ∃ i ∈ is₁, Occupies i (k : Int)
      · obtain ⟨v, hv⟩ := h₁.covered k hocc
        rw [h₁.word k hk v hv, h₂.word k (hlen ▸ hk) v (lastStore_erase hlines hv)]
      · have hgap₁ : ∀ i ∈ is₁, ¬ Occupies i (k : Int) := fun i hi ho => hocc ⟨i, hi, ho⟩
        have hgap₂ : ∀ i ∈ is₂, ¬ Occupies i (k : Int) :=
          fun i hi ho => hocc (occupies_erase hlines.symm ⟨i, hi, ho⟩)
        obtain ⟨v₁, hv₁⟩ := h₁.left k
        obtain ⟨v₂, hv₂⟩ := h₂.left k
        have hlt : (k : Int) < x.cursor := by
          have := h₁.length
          omega
        rw [h₁.gap k hk hgap₁ v₁ hv₁, h₂.gap k (hlen ▸ hk) hgap₂ v₂ hv₂,
          h k v₁ v₂ (by omega) hlt hgap₁ hgap₂ hv₁ hv₂]
    · rw [List.getElem?_eq_none (by omega), List.getElem?_eq_none (by omega)]

section
variable {ast₁ ast₂ : List (Statement L)} {arrays₁ arrays₂ : List (String × List (Nat × Nat))}
  {f : String}

/-- **When functions are assembled independently**: the words of a function that two programs
    declare once, with the same body and the same constants, are the same exactly when the
    lines before the first `.func` leave the same words in its gaps. -/
theorem independent_iff (h₁ : main ast₁ = .ok arrays₁) (h₂ : main ast₂ = .ok arrays₂)
    (hone₁ : (funcNames ast₁).count f = 1) (hone₂ : (funcNames ast₂).count f = 1)
    (hbody : (bodyOf f ast₁).map Statement.erase = (bodyOf f ast₂).map Statement.erase)
    (hconst : SameConst (upTo f ast₁) (upTo f ast₂)) :
    List.lookup f arrays₁ = List.lookup f arrays₂ ↔
      ∀ k v₁ v₂, Stray ast₁ f k v₁ → Stray ast₂ f k v₂ → row v₁ = row v₂ := by
  obtain ⟨b₁, o₁, d₁, c₁, out₁, rows₁, hpre₁, hb₁, han₁, hf₁, hl₁, he₁⟩ := main_func h₁ hone₁
  obtain ⟨b₂, o₂, d₂, c₂, out₂, rows₂, hpre₂, hb₂, han₂, hf₂, hl₂, he₂⟩ := main_func h₂ hone₂
  obtain ⟨loc, hcut⟩ := cut_of_mem (f := f) (l := ast₁) (List.count_pos_iff.mp (by omega))
  have halike : Alike (b₁.newFunc f) (b₂.newFunc f) := by
    have hfind := hconst _ _ _ _ hpre₁ hpre₂
    exact ⟨by rw [newFunc_cur, newFunc_cur], hfind⟩
  obtain ⟨hcur, hout⟩ := analyse_alike halike hbody hcut.body hb₁ hb₂
  have hlines : (lines (bodyOf f out₁)).map Instr.erase =
      (lines (bodyOf f out₂)).map Instr.erase := by
    rw [lines_erase, lines_erase, hout]
  rw [← hcur] at he₂ hf₂
  rw [hl₁, hl₂, Option.some.injEq, emitted_eq_iff he₁ he₂ hlines]
  simp only [stray_iff han₁ hf₁, stray_iff han₂ hf₂]
  constructor
  · intro h k v₁ v₂ hs₁ hs₂
    obtain ⟨h0, hlt, hgap₁, hv₁⟩ := hs₁
    obtain ⟨-, -, hgap₂, hv₂⟩ := hs₂
    exact h k v₁ v₂ h0 hlt hgap₁ hgap₂ hv₁ hv₂
  · intro h k v₁ v₂ h0 hlt hgap₁ hgap₂ hv₁ hv₂
    exact h k v₁ v₂ ⟨h0, hlt, hgap₁, hv₁⟩ ⟨h0, hlt, hgap₂, hv₂⟩

end

/-- A function with a gap: `.func f`, `.org 1`, `NOP`. -/
def gapFunc : List (Statement Nat) :=
  [.directive ⟨".func", [.id "f"], 1⟩, .directive ⟨".org", [.int 1], 2⟩,
    .instr { label := none, mnem := "NOP", d := .noOp, s := .noOp, loc := 3 }]

/-- The same function, after an instruction outside of any function. -/
def strayFunc : List (Statement Nat) :=
  .instr { label := none, mnem := "NOP", d := .noOp, s := .noOp, loc := 0 } :: gapFunc

theorem sameConst_gapFunc : SameConst (upTo "f" gapFunc) (upTo "f" strayFunc) := by
  intro c₁ out₁ c₂ out₂ h₁ h₂ k
  cases h₁
  cases h₂
  rfl

theorem main_gapFunc : main gapFunc = .ok [("f", [(0, 0), (255, 255)])] := by rfl

theorem main_strayFunc : main strayFunc = .ok [("f", [(255, 255), (255, 255)])] := by rfl

/-- One function with the same body in both, and other words. -/
theorem stray_words : ∃ arrays₁ arrays₂, main gapFunc = .ok arrays₁ ∧ main strayFunc = .ok arrays₂ ∧
    (funcNames gapFunc).count "f" = 1 ∧ (funcNames strayFunc).count "f" = 1 ∧
    (bodyOf "f" gapFunc).map Statement.erase = (bodyOf "f" strayFunc).map Statement.erase ∧
    SameConst (upTo "f" gapFunc) (upTo "f" strayFunc) ∧
    List.lookup "f" arrays₁ ≠ List.lookup "f" arrays₂ :=
  ⟨_, _, main_gapFunc, main_strayFunc, by decide, by decide, rfl, sameConst_gapFunc, by decide⟩

theorem independent_gapFunc : ∃ arrays₁ arrays₂, main gapFunc = .ok arrays₁ ∧
    main strayFunc = .ok arrays₂ ∧
    (List.lookup "f" arrays₁ = List.lookup "f" arrays₂ ↔
      ∀ k v₁ v₂, Stray gapFunc "f" k v₁ → Stray strayFunc "f" k v₂ → row v₁ = row v₂) :=
  ⟨_, _, main_gapFunc, main_strayFunc, independent_iff main_gapFunc main_strayFunc (by decide)
    (by decide) rfl sameConst_gapFunc⟩

end

end LsePc.Tools
