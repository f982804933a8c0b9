/-
  File:      LsePc/Lib/Rules.lean
  Subject:   Rules of pre- and postconditions for programs, and the machines they talk to.

  This file names nothing of any particular program.

  * `Meets step I p s Q`: from `s` the program `p` keeps to the states `I`, and where it ends,
    result and state meet `Q`;
  * one rule for each way to put programs together: `Meets.ret`, `Meets.op`, `Meets.bind`,
    `Meets.each`;
  * `Leaves`: programs that may leave, with `Meets.andThen`; `whileLoop` with its invariant;
  * `Transducer`: a machine that is told something and replies at each step. `Talk` is
    a conversation with it, where `due` is what is to be said and `said` what has been;
  * `Talk.Prompt`, `Talk.Owes`: nothing is said that is not due, and before it is told more all
    that was; `Owes.say`, `Owes.told`: what a word and an answer leave of that.
-/
import LsePc.Lib.Prog

namespace LsePc.Lib

/-! ## 1. The rules -/

section
variable {σ ι : Type} {ο : ι → Type} {α β : Type} (step : σ → Event ι ο → σ → Prop) (I : σ → Prop)

structure Meets (p : Prog ι ο α) (s : σ) (Q : α → σ → Prop) : Prop where
  runs : ∀ {a s'}, Runs step p s a s' → Q a s'
  begins : ∀ {s'}, Begins step p s s' → I s'

variable {step I} {p : Prog ι ο α} {f : α → Prog ι ο β} {s : σ} {a : α}
  {Q Q' : α → σ → Prop} {Q₂ : β → σ → Prop}

theorem Meets.mono (h : Meets step I p s Q) (hQ : ∀ a u, I u → Q a u → Q' a u) :
    Meets step I p s Q' := by
  refine ⟨fun hr => ?_, h.begins⟩
  exact hQ _ _ (h.begins hr.begins) (h.runs hr)

theorem Meets.ret (hs : I s) (hQ : Q a s) : Meets step I (.ret a) s Q := by
  refine ⟨fun hr => ?_, fun hb => ?_⟩
  · obtain ⟨rfl, rfl⟩ := runs_ret.mp hr
    exact hQ
  · obtain rfl := begins_ret.mp hb
    exact hs

theorem Meets.more (hs : I s) : Meets step I (.more : Prog ι ο α) s Q := by
  refine ⟨fun hr => absurd hr not_runs_more, fun hb => ?_⟩
  obtain rfl := begins_more.mp hb
  exact hs

theorem Meets.op {i : ι} {k : ο i → Prog ι ο α} (hs : I s)
    (hk : ∀ o u, step s ⟨i, o⟩ u → Meets step I (k o) u Q) : Meets step I (.op i k) s Q := by
  refine ⟨fun hr => ?_, fun hb => ?_⟩
  · obtain ⟨o, u, hstep, hrun⟩ := runs_op.mp hr
    exact (hk o u hstep).runs hrun
  · rcases begins_op.mp hb with rfl | ⟨o, u, hstep, hrun⟩
    · exact hs
    · exact (hk o u hstep).begins hrun

theorem Meets.bind (h : Meets step I p s fun a u => Meets step I (f a) u Q₂) :
    Meets step I (p.bind f) s Q₂ := by
  refine ⟨fun hr => ?_, fun hb => ?_⟩
  · obtain ⟨a, u, h₁, h₂⟩ := runs_bind.mp hr
    exact (h.runs h₁).runs h₂
  · rcases begins_bind.mp hb with h₁ | ⟨a, u, h₁, h₂⟩
    · exact h.begins h₁
    · exact (h.runs h₁).begins h₂

theorem Meets.perform {i : ι} {Q : ο i → σ → Prop} (hs : I s)
    (hQ : ∀ o u, step s ⟨i, o⟩ u → I u ∧ Q o u) : Meets step I (.perform i) s Q :=
  .op hs fun o u hstep => .ret (hQ o u hstep).1 (hQ o u hstep).2

/-- **A loop over a list.** `P l` is the invariant before the items `l`. -/
theorem Meets.each {g : β → Prog ι ο Unit} {P : List β → σ → Prop} (hI : ∀ l s, P l s → I s)
    (hg : ∀ b l s, P (b :: l) s → Meets step I (g b) s fun _ => P l) {l : List β}
    (hs : P l s) : Meets step I (Prog.each g l) s fun _ => P [] := by
  induction l generalizing s with
  | nil => exact .ret (hI _ _ hs) hs
  | cons b l ih => exact .bind ((hg b l s hs).mono fun _ _ _ hu => ih hu)

end

/-! ## 2. Programs that leave -/

/-- A program that may leave what it is part of, with an `ε`. -/
abbrev Leaves (ι : Type) (ο : ι → Type) (ε α : Type) := ExceptT ε (Prog ι ο) α

section
variable {σ ι : Type} {ο : ι → Type} {ε α β : Type} {step : σ → Event ι ο → σ → Prop}
  {I : σ → Prop} {s : σ}

/-- The postcondition of a program that may leave: `E` where it does. -/
def Either (E : ε → σ → Prop) (Q : α → σ → Prop) : Except ε α → σ → Prop
  | .ok a, s => Q a s
  | .error e, s => E e s

variable {E : ε → σ → Prop} {Q : α → σ → Prop} {Q₂ : β → σ → Prop}

theorem Meets.pure {a : α} (hs : I s) (hQ : Q a s) :
    Meets step I (Pure.pure a : Leaves ι ο ε α).run s (Either E Q) := .ret hs hQ

theorem Meets.throw {e : ε} (hs : I s) (hE : E e s) :
    Meets step I (MonadExcept.throw e : Leaves ι ο ε α).run s (Either E Q) := .ret hs hE

/-- A program that does not leave. -/
theorem Meets.lift {p : Prog ι ο α} (h : Meets step I p s Q) :
    Meets step I (liftM p : Leaves ι ο ε α).run s (Either E Q) :=
  .bind (h.mono fun _ _ hu hq => .ret hu hq)

/-- **One after the other**, unless the first one leaves. -/
theorem Meets.andThen {p : Leaves ι ο ε α} {f : α → Leaves ι ο ε β}
    (h : Meets step I p.run s (Either E Q))
    (hf : ∀ a u, I u → Q a u → Meets step I (f a).run u (Either E Q₂)) :
    Meets step I (p >>= f).run s (Either E Q₂) := by
  refine Meets.bind (h.mono fun r u hu hr => ?_)
  cases r with
  | ok a => exact hf a u hu hr
  | error e => exact .ret hu hr

/-- `while (test) body`, up to so many turns. -/
def whileLoop (test : β → Bool) (body : β → Leaves ι ο ε β) : Nat → β → Leaves ι ο ε β
  | 0, _ => ExceptT.mk .more
  | n + 1, b => if test b then do
      let b ← body b
      whileLoop test body n b
    else pure b

/-- **A loop keeps its invariant** `P`. -/
theorem Meets.while {test : β → Bool} {body : β → Leaves ι ο ε β} (P : β → σ → Prop)
    (hI : ∀ b s, P b s → I s)
    (hbody : ∀ b s, P b s → test b = true → Meets step I (body b).run s (Either E P))
    (hend : ∀ b s, P b s → test b = false → Q₂ b s) {n : Nat} {b : β} (hs : P b s) :
    Meets step I (whileLoop test body n b).run s (Either E Q₂) := by
  induction n generalizing b s with
  | zero => exact .more (hI b s hs)
  | succ n ih =>
    unfold whileLoop
    split
    · rename_i ht
      exact .andThen (hbody b s hs ht) fun b' u _ hu => ih hu
    · rename_i ht
      exact .pure (hI b s hs) (hend b s hs (Bool.eq_false_iff.mpr ht))

end

/-! ## 3. Conversations -/

/-- A machine that is told a `κ`, and then has something to say. -/
structure Transducer (σ κ β : Type) where
  step : σ → κ → σ
  reply : σ → κ → List β

section
variable {σ κ β ι : Type} {ο : ι → Type} (M : Transducer σ κ β) (reads : Event ι ο → Option κ)
  (writes : Event ι ο → Option β)

namespace Transducer

def run : σ → List κ → σ := List.foldl M.step

/-- All it has to say. -/
def text : σ → List κ → List β
  | _, [] => []
  | x, k :: ks => M.reply x k ++ text (M.step x k) ks

@[simp] theorem run_nil (x : σ) : M.run x [] = x := rfl
@[simp] theorem run_cons (x : σ) (k : κ) (ks : List κ) :
    M.run x (k :: ks) = M.run (M.step x k) ks := rfl

theorem run_append (x : σ) (ks ks' : List κ) : M.run x (ks ++ ks') = M.run (M.run x ks) ks' :=
  List.foldl_append

theorem text_append (x : σ) (ks ks' : List κ) :
    M.text x (ks ++ ks') = M.text x ks ++ M.text (M.run x ks) ks' := by
  induction ks generalizing x with
  | nil => rfl
  | cons k ks ih => simp [text, ih]

end Transducer

/-- Where the machine is, what was to be said when it was last told something and since then,
    and what has been said. -/
structure Talk (σ β : Type) where
  now : σ
  asked : List β
  due : List β
  said : List β

/-- The conversation begins with `text` to be said. -/
def Talk.start (x : σ) (text : List β) : Talk σ β :=
  { now := x, asked := [], due := text, said := [] }

/-- An operation of a program is heard: it may tell the machine something, or say something. -/
def Talk.hear (t : Talk σ β) (e : Event ι ο) : Talk σ β :=
  match reads e with
  | some k => { t with now := M.step t.now k, asked := t.due, due := t.due ++ M.reply t.now k }
  | none => { t with said := t.said ++ (writes e).toList }

def Talks (t : Talk σ β) (e : Event ι ο) (t' : Talk σ β) : Prop := t' = t.hear M reads writes e

variable {M reads writes}

/-- The machine is at `x`, and `text` is to be said yet. -/
structure Talk.Owes (t : Talk σ β) (x : σ) (text : List β) : Prop where
  now : t.now = x
  due : t.due = t.said ++ text
  asked : t.asked <+: t.said

/-- Nothing is said before it is due, and all that was due is said when the machine is told
    something. -/
def Talk.Prompt (t : Talk σ β) : Prop := t.asked <+: t.said ∧ t.said <+: t.due

section
variable {t : Talk σ β} {x : σ} {text : List β} {b : β}

theorem Talk.owes_start : (Talk.start x text).Owes x text := ⟨rfl, rfl, List.nil_prefix⟩

theorem Talk.Owes.prompt (h : t.Owes x text) : t.Prompt := by
  rw [Talk.Prompt, h.due]
  exact ⟨h.asked, List.prefix_append _ _⟩

/-- What is said is not due any more. -/
theorem Talk.Owes.say {e : Event ι ο} (h : t.Owes x (b :: text)) (hr : reads e = none)
    (hw : writes e = some b) : (t.hear M reads writes e).Owes x text := by
  have hear : t.hear M reads writes e = { t with said := t.said ++ [b] } := by
    simp [Talk.hear, hr, hw]
  rw [hear]
  exact ⟨h.now, by simp [h.due], h.asked.trans (List.prefix_append _ _)⟩

/-- The machine is told something when nothing is due. -/
theorem Talk.Owes.told {e : Event ι ο} {k : κ} (h : t.Owes x []) (hr : reads e = some k) :
    (t.hear M reads writes e).Owes (M.step x k) (M.reply x k) := by
  have hear : t.hear M reads writes e =
      { t with now := M.step x k, asked := t.due, due := t.due ++ M.reply x k } := by
    simp [Talk.hear, hr, h.now]
  have hdue : t.due = t.said := h.due.trans (List.append_nil _)
  rw [hear]
  exact ⟨rfl, congrArg (· ++ _) hdue, hdue ▸ List.prefix_refl _⟩

/-- An operation that is no part of the conversation. -/
theorem Talk.hear_other {e : Event ι ο} (hr : reads e = none) (hw : writes e = none) :
    t.hear M reads writes e = t := by
  simp [Talk.hear, hr, hw]

end

/-- **Every trace is a conversation.** -/
theorem talks_path (hdisjoint : ∀ e, reads e ≠ none → writes e = none) (tr : List (Event ι ο))
    (t : Talk σ β) : ∃ t', Path (Talks M reads writes) t tr t' ∧
      t'.now = M.run t.now (tr.filterMap reads) ∧
      t'.due = t.due ++ M.text t.now (tr.filterMap reads) ∧
      t'.said = t.said ++ tr.filterMap writes ∧
      (tr.filterMap reads ≠ [] → t'.asked = t.due ++ M.text t.now (tr.filterMap reads).dropLast) ∧
      (tr.filterMap reads = [] → t'.asked = t.asked) := by
  induction tr generalizing t with
  | nil => exact ⟨t, .nil t, by simp [Transducer.text]⟩
  | cons e tr ih =>
    obtain ⟨t', hp, hnow, hdue, hsaid, hasked, hnone⟩ := ih (t.hear M reads writes e)
    refine ⟨t', .cons rfl hp, ?_⟩
    cases hr : reads e with
    | none =>
      have hear : t.hear M reads writes e = { t with said := t.said ++ (writes e).toList } := by
        simp [Talk.hear, hr]
      rw [hear] at hnow hdue hsaid hasked hnone
      rw [List.filterMap_cons_none hr]
      refine ⟨hnow, hdue, hsaid.trans ?_, hasked, hnone⟩
      cases hw : writes e with
      | none => simp [hw]
      | some b => simp [hw]
    | some k =>
      have hw := hdisjoint e (by simp [hr])
      have hear : t.hear M reads writes e =
          { t with now := M.step t.now k, asked := t.due, due := t.due ++ M.reply t.now k } := by
        simp [Talk.hear, hr]
      rw [hear] at hnow hdue hsaid hasked hnone
      rw [List.filterMap_cons_some hr, List.filterMap_cons_none hw]
      refine ⟨hnow, hdue.trans (List.append_assoc ..), hsaid, fun _ => ?_,
      fun h => absurd h (List.cons_ne_nil _ _)⟩
      by_cases hnil : tr.filterMap reads = []
      · rw [hnil]
        exact (hnone hnil).trans (List.append_nil _).symm
      · rw [hasked hnil, List.dropLast_cons_of_ne_nil hnil]
        exact List.append_assoc ..

end

end LsePc.Lib
