/-
  File:      LsePc/Bios/PrintfContract.lean
  Subject:   What `vprintf` reads, takes and returns, for every format.

  * `Piece`, `pieces`: a format as what it says: literals, conversions, `%%`, and the percent
    sign that is the last character;
  * **result** (`printf_honours_iff`): when `vprintf` takes the arguments of the conversions and
    no other, and returns the number of characters it has put.

  A format is what stands before its NUL. A conversion that is not in the table takes its
  argument too, and is put as it stands.
-/
import LsePc.Bios.Printf

namespace LsePc.Bios

open LsePc.Lib

/-! ## 1. Pieces -/

/-- What a format is made of. -/
inductive Piece where
  | lit (c : UInt8)
  | conv (c : UInt8)
  | percents
  | lone
  deriving DecidableEq, Repr

def pieces : List UInt8 → List Piece
  | [] => []
  | c :: format =>
    if c = percent then
      match format with
      | [] => [.lone]
      | fmt :: format => (if fmt = percent then .percents else .conv fmt) :: pieces format
    else .lit c :: pieces format

/-- The conversion a character stands for. -/
def convOf (c : UInt8) : Option Conv :=
  [Conv.d, .i, .u, .s, .c, .o, .x, .p].find? fun k => k.ch == c

/-- What is put for a conversion. One that is not supported is put as it stands. -/
def convOut (str : BitVec 32 → List UInt8) (c : UInt8) (v : BitVec 32) : List UInt8 :=
  match convOf c with
  | some k => k.render str v
  | none => [percent, c]

/-- **The characters of a format**, where every conversion has its own argument. -/
def produced (str : BitVec 32 → List UInt8) : List Piece → List (BitVec 32) → List UInt8
  | [], _ => []
  | .lit c :: ps, args => c :: produced str ps args
  | .percents :: ps, args => percent :: produced str ps args
  | .lone :: ps, args => percent :: produced str ps args
  | .conv _ :: _, [] => []
  | .conv c :: ps, arg :: args => convOut str c arg ++ produced str ps args

/-- The conversions of a format. -/
def conversions (format : List UInt8) : List UInt8 :=
  (pieces format).filterMap fun
    | .conv c => some c
    | _ => none

/-- The conversions that print a number. -/
def numeric : List UInt8 :=
  [Conv.d.ch, Conv.i.ch, Conv.u.ch, Conv.o.ch, Conv.x.ch, Conv.p.ch]

/-- A number other than 0. -/
def Miscounted (c : UInt8) (v : BitVec 32) : Prop := c ∈ numeric ∧ v ≠ 0

instance (c : UInt8) (v : BitVec 32) : Decidable (Miscounted c v) :=
  inferInstanceAs (Decidable (_ ∧ _))

section
variable (mem : BitVec 32 → Mem) (str : BitVec 32 → List UInt8) (n : Nat)

/-- The arguments suffice: there is one for each conversion, and those of `%s` point to
    strings. -/
structure Sufficient (format : List UInt8) (args : List (BitVec 32)) : Prop where
  length : (conversions format).length ≤ args.length
  strings : ∀ q ∈ (conversions format).zip args, q.1 = Conv.s.ch →
    IsStr (mem q.2) (str q.2) ∧ (str q.2).length < n

/-- **The contract**: nothing is read behind the NUL, the characters are put, the arguments of
    the conversions are taken and no other, and the number of characters is returned. -/
def Honours (format : List UInt8) (args : List (BitVec 32)) : Prop :=
  vprintfVa mem n format args = (do
    initBufferedOutput
    forM (produced str (pieces format) args) putc
    fflush
    pure (((produced str (pieces format) args).length : Int),
      args.drop (conversions format).length))

end

/-! ## 2. Conversions -/

section
variable {v : BitVec 32}

theorem ch_of_convOf {c : UInt8} {k : Conv} (h : convOf c = some k) : k.ch = c := by
  unfold convOf at h
  have hbeq := List.find?_some h
  exact beq_iff_eq.mp hbeq

theorem ch_ne_of_convOf {c : UInt8} (h : convOf c = none) (k : Conv) : k.ch ≠ c := by
  intro hc
  have hk : k ∈ [Conv.d, .i, .u, .s, .c, .o, .x, .p] := by
    cases k <;> decide
  exact List.find?_eq_none.mp h k hk (beq_iff_eq.mpr hc)

/-- The table has the conversions. -/
theorem formats_ch {mem : BitVec 32 → Mem} {n : Nat} {f : SFormat} (hf : f ∈ formats mem n) :
    ∃ k : Conv, k.ch = f.ch := by
  simp only [formats, List.mem_cons, List.not_mem_nil, or_false] at hf
  rcases hf with rfl | rfl | rfl | rfl | rfl | rfl | rfl | rfl
  · exact ⟨.d, rfl⟩
  · exact ⟨.i, rfl⟩
  · exact ⟨.u, rfl⟩
  · exact ⟨.s, rfl⟩
  · exact ⟨.c, rfl⟩
  · exact ⟨.o, rfl⟩
  · exact ⟨.x, rfl⟩
  · exact ⟨.p, rfl⟩

theorem numeric_ch {c : UInt8} (h : c ∈ numeric) : ∃ k : Conv, k.ch = c := by
  have hnumeric : numeric = [Conv.d, .i, .u, .o, .x, .p].map Conv.ch := rfl
  obtain ⟨k, -, hk⟩ := List.mem_map.mp (hnumeric ▸ h)
  exact ⟨k, hk⟩

/-- **One conversion.** -/
theorem specialChar_puts {mem : BitVec 32 → Mem} {str : BitVec 32 → List UInt8} {n : Nat}
    {c : UInt8} (hp : c ≠ percent)
    (hs : c = Conv.s.ch → IsStr (mem v) (str v) ∧ (str v).length < n) :
    Puts (specialChar mem n c v) (convOut str c v)
      ((convOut str c v).length - if Miscounted c v then 1 else 0) := by
  have hnum : c ∈ numeric →
      (if Miscounted c v then (1 : Int) else 0) = if v = 0 then 0 else 1 := by
    intro hc
    by_cases hv : v = 0
    · rw [if_pos hv, if_neg fun h => h.2 hv]
    · rw [if_neg hv, if_pos ⟨hc, hv⟩]
  unfold convOut
  cases hk : convOf c with
  | some k =>
    obtain rfl := ch_of_convOf hk
    cases k with
    | d => exact hnum (by decide) ▸ printInt_signed_puts
    | i => exact hnum (by decide) ▸ printInt_signed_puts
    | u => exact hnum (by decide) ▸ printInt_unsigned_puts
    | s =>
      rw [if_neg fun h => absurd h.1 (by decide), Int.sub_zero]
      exact printStr_puts (hs rfl).1 (hs rfl).2
    | c =>
      rw [if_neg fun h => absurd h.1 (by decide), Int.sub_zero]
      exact (putc_puts _).map fun _ => 1
    | o => exact hnum (by decide) ▸ printBase_puts (by decide) (by decide)
    | x => exact hnum (by decide) ▸ printBase_puts (by decide) (by decide)
    | p => exact hnum (by decide) ▸ printPtr_puts
  | none =>
    have hfind : (formats mem n).find? (fun f => f.ch == c) = none := by
      refine List.find?_eq_none.mpr fun f hf heq => ?_
      obtain ⟨k, hk'⟩ := formats_ch hf
      exact ch_ne_of_convOf hk k (hk'.trans (beq_iff_eq.mp heq))
    unfold specialChar
    rw [hfind]
    dsimp only
    rw [if_pos hp, if_neg]
    · exact (putc_puts percent).bind ((putc_puts c).map fun _ => 2)
    · rintro ⟨hc, -⟩
      obtain ⟨k, hk'⟩ := numeric_ch hc
      exact ch_ne_of_convOf hk k hk'

end

/-! ## 3. The format -/

section
variable {mem : BitVec 32 → Mem} {str : BitVec 32 → List UInt8} {n : Nat}

theorem pieces_lit {c : UInt8} (hc : c ≠ percent) (format : List UInt8) :
    pieces (c :: format) = .lit c :: pieces format := by
  conv_lhs => unfold pieces
  exact if_neg hc

theorem pieces_percent (fmt : UInt8) (format : List UInt8) :
    pieces (percent :: fmt :: format) =
      (if fmt = percent then .percents else .conv fmt) :: pieces format := by
  rw [pieces, if_pos rfl]

theorem conversions_lit {c : UInt8} (hc : c ≠ percent) (format : List UInt8) :
    conversions (c :: format) = conversions format := by
  unfold conversions
  rw [pieces_lit hc]
  rfl

theorem conversions_conv {fmt : UInt8} (hfmt : fmt ≠ percent) (format : List UInt8) :
    conversions (percent :: fmt :: format) = fmt :: conversions format := by
  unfold conversions
  rw [pieces_percent, if_neg hfmt]
  rfl

theorem conversions_percents (format : List UInt8) :
    conversions (percent :: percent :: format) = conversions format := by
  unfold conversions
  rw [pieces_percent, if_pos rfl]
  rfl

/-- How many of the conversions are miscounted. -/
def miscounted (format : List UInt8) (args : List (BitVec 32)) : Nat :=
  ((conversions format).zip args).countP fun q => decide (Miscounted q.1 q.2)

theorem miscounted_lit {c : UInt8} (hc : c ≠ percent) (format : List UInt8)
    (args : List (BitVec 32)) : miscounted (c :: format) args = miscounted format args := by
  unfold miscounted
  rw [conversions_lit hc]

theorem miscounted_conv {fmt : UInt8} (hfmt : fmt ≠ percent) (format : List UInt8)
    (arg : BitVec 32) (args : List (BitVec 32)) :
    miscounted (percent :: fmt :: format) (arg :: args) =
      miscounted format args + if Miscounted fmt arg then 1 else 0 := by
  unfold miscounted
  rw [conversions_conv hfmt, List.zip_cons_cons, List.countP_cons]
  simp only [decide_eq_true_eq]

theorem Sufficient.lit {c : UInt8} {format : List UInt8} {args : List (BitVec 32)}
    (hc : c ≠ percent) (h : Sufficient mem str n (c :: format) args) :
    Sufficient mem str n format args := by
  obtain ⟨hlen, hstr⟩ := h
  rw [conversions_lit hc] at hlen hstr
  exact ⟨hlen, hstr⟩

theorem Sufficient.tail {fmt : UInt8} {format : List UInt8} {arg : BitVec 32}
    {args : List (BitVec 32)} (hfmt : fmt ≠ percent)
    (h : Sufficient mem str n (percent :: fmt :: format) (arg :: args)) :
    (fmt = Conv.s.ch → IsStr (mem arg) (str arg) ∧ (str arg).length < n) ∧
      Sufficient mem str n format args := by
  obtain ⟨hlen, hstr⟩ := h
  rw [conversions_conv hfmt] at hlen hstr
  exact ⟨hstr (fmt, arg) List.mem_cons_self, Nat.le_of_succ_le_succ hlen,
    fun q hq => hstr q (List.mem_cons_of_mem _ hq)⟩

/-- **The loop over literals and conversions.** -/
theorem vprintfLoop_puts (format : List UInt8) : ∀ {args : List (BitVec 32)} (count : Int),
    .lone ∉ pieces format → .percents ∉ pieces format → Sufficient mem str n format args →
    Puts (vprintfLoop mem n format args count) (produced str (pieces format) args)
      (count + (produced str (pieces format) args).length - miscounted format args,
        args.drop (conversions format).length) := by
  induction format using pieces.induct with
  | case1 =>
    intro args count _ _ _
    refine (Puts.pure (count, args)).of_eq (Prod.ext ?_ rfl)
    change count = count + 0 - 0
    omega
  | case2 =>
    intro args count hlone
    exact absurd List.mem_cons_self hlone
  | case3 fmt format ih =>
    intro args count hlone hpercents hsuff
    have hfmt : fmt ≠ percent := by
      rintro rfl
      rw [pieces_percent, if_pos rfl] at hpercents
      exact hpercents List.mem_cons_self
    rw [pieces_percent, if_neg hfmt] at hlone hpercents ⊢
    cases args with
    | nil =>
      have hlen := hsuff.length
      rw [conversions_conv hfmt] at hlen
      exact absurd hlen (Nat.not_succ_le_zero _)
    | cons arg args =>
      obtain ⟨hstr, hsuff⟩ := hsuff.tail hfmt
      rw [vprintfLoop_conv, conversions_conv hfmt, miscounted_conv hfmt]
      have hput := (specialChar_puts hfmt hstr).bind
        (k := fun k => vprintfLoop mem n format args (count + k))
        (ih _ (fun h => hlone (List.mem_cons_of_mem _ h))
          (fun h => hpercents (List.mem_cons_of_mem _ h)) hsuff)
      refine hput.of_eq (Prod.ext ?_ rfl)
      dsimp only [produced]
      rw [List.length_append]
      split
      · omega
      · omega
  | case4 c format hc ih =>
    intro args count hlone hpercents hsuff
    rw [pieces_lit hc] at hlone hpercents ⊢
    rw [vprintfLoop_lit hc, conversions_lit hc, miscounted_lit hc]
    have hput := (putc_puts c).bind (k := fun _ => vprintfLoop mem n format args (count + 1))
      (ih (count + 1) (fun h => hlone (List.mem_cons_of_mem _ h))
        (fun h => hpercents (List.mem_cons_of_mem _ h)) (hsuff.lit hc))
    refine hput.of_eq (Prod.ext ?_ rfl)
    dsimp only [produced]
    rw [List.length_cons]
    omega

/-! ## 4. The arguments taken -/

/-- Where a program does not fail, its first part does not. -/
theorem bind_eq_some {σ α β : Type} {m : StateT σ Option α} {k : α → StateT σ Option β}
    {s : σ} {r : β × σ}
    (h : (m >>= k) s = some r) : ∃ a s', m s = some (a, s') ∧ k a s' = some r := by
  change (m s).bind (fun p => k p.1 p.2) = _ at h
  obtain ⟨⟨a, s'⟩, hm, hk⟩ := Option.bind_eq_some_iff.mp h
  exact ⟨a, s', hm, hk⟩

/-- **What the loop leaves**: it took an argument for each conversion and for each `%%`. -/
theorem vprintfLoop_taken (format : List UInt8) : ∀ {args rest : List (BitVec 32)}
    {count r : Int} {file file' : Stdout},
    vprintfLoop mem n format args count file = some ((r, rest), file') →
    .lone ∉ pieces format ∧ rest.length + (conversions format).length +
      (pieces format).count .percents = args.length := by
  induction format using pieces.induct with
  | case1 =>
    intro args rest count r file file' hrun
    obtain ⟨⟨-, rfl⟩, -⟩ := Prod.mk.inj (Option.some.inj hrun) |>.imp_left Prod.mk.inj
    exact ⟨List.not_mem_nil, rfl⟩
  | case2 =>
    intro args rest count r file file' hrun
    cases args with
    | nil => cases hrun
    | cons arg args => cases hrun
  | case3 fmt format ih =>
    intro args rest count r file file' hrun
    cases args with
    | nil => cases hrun
    | cons arg args =>
      rw [vprintfLoop_conv] at hrun
      obtain ⟨k, file₁, -, hrun⟩ := bind_eq_some hrun
      obtain ⟨hlone, hlen⟩ := ih hrun
      rw [pieces_percent]
      by_cases hfmt : fmt = percent
      · subst hfmt
        rw [conversions_percents, if_pos rfl, List.count_cons_self, List.length_cons]
        exact ⟨fun h => (List.mem_cons.mp h).elim nofun hlone, by omega⟩
      · have hne : Piece.conv fmt ≠ .percents := nofun
        rw [conversions_conv hfmt, if_neg hfmt, List.count_cons_of_ne hne, List.length_cons,
          List.length_cons]
        exact ⟨fun h => (List.mem_cons.mp h).elim nofun hlone, by omega⟩
  | case4 c format hc ih =>
    intro args rest count r file file' hrun
    rw [vprintfLoop_lit hc] at hrun
    obtain ⟨-, file₁, -, hrun⟩ := bind_eq_some hrun
    obtain ⟨hlone, hlen⟩ := ih hrun
    have hne : Piece.lit c ≠ .percents := nofun
    rw [conversions_lit hc, pieces_lit hc, List.count_cons_of_ne hne]
    exact ⟨fun h => (List.mem_cons.mp h).elim nofun hlone, hlen⟩

/-! ## 5. Programs that put characters do not fail -/

theorem uartWrite_nul {l : List UInt8} (h : 0 ∈ l) (com1 : List UInt8) :
    ∃ com1', uartWrite com1 l = some com1' := by
  induction l generalizing com1 with
  | nil => exact absurd h List.not_mem_nil
  | cons c l ih =>
    rw [uartWrite]
    split
    · exact ⟨com1, rfl⟩
    · rename_i hc
      exact ih ((List.mem_cons.mp h).resolve_left (Ne.symm hc)) _

theorem fflush_run {file : Stdout} (hpos : file.pos < BUF_SIZE + 1) :
    ∃ file', fflush file = some ((), file') ∧ file'.pos = 0 := by
  have hmem : 0 ∈ (file.buff.set file.pos 0 hpos).toList := by
    rw [Vector.toList_set]
    refine List.mem_set ?_ 0
    rw [Vector.length_toList]
    exact hpos
  obtain ⟨com1', hcom1⟩ := uartWrite_nul hmem file.com1
  unfold fflush
  rw [dif_pos hpos]
  dsimp only
  rw [hcom1]
  exact ⟨_, rfl, rfl⟩

theorem putc_run (c : UInt8) {file : Stdout} (hpos : file.pos < BUF_SIZE) :
    ∃ file', putc c file = some ((), file') ∧ file'.pos < BUF_SIZE := by
  unfold putc
  rw [dif_pos (Nat.lt_succ_of_lt hpos)]
  dsimp only
  split
  · obtain ⟨file', hrun, hpos'⟩ := @fflush_run ⟨file.buff.set file.pos c (Nat.lt_succ_of_lt hpos),
      file.pos + 1, file.com1⟩ (Nat.succ_lt_succ hpos)
    exact ⟨file', hrun, hpos' ▸ Nat.zero_lt_succ _⟩
  · rename_i hfull
    have hne : file.pos + 1 ≠ BUF_SIZE := hfull
    exact ⟨_, rfl, Nat.lt_of_le_of_ne hpos hne⟩

theorem forM_putc_run (l : List UInt8) {file : Stdout} (hpos : file.pos < BUF_SIZE) :
    ∃ file', forM l putc file = some ((), file') ∧ file'.pos < BUF_SIZE := by
  induction l generalizing file with
  | nil => exact ⟨file, rfl, hpos⟩
  | cons c l ih =>
    obtain ⟨file₁, hrun, hpos₁⟩ := putc_run c hpos
    rw [List.forM_cons, bind_run hrun]
    exact ih hpos₁

/-- What `vprintf` is for a loop that puts characters. -/
def putAll {α : Type} (l : List UInt8) (a : α) : Out α := do
  initBufferedOutput
  forM l putc
  fflush
  pure a

theorem putAll_run {α : Type} (l : List UInt8) (a : α) (file : Stdout) :
    ∃ file', putAll l a file = some (a, file') := by
  have h0 : ({ file with pos := 0 } : Stdout).pos < BUF_SIZE := Nat.zero_lt_succ _
  obtain ⟨file₁, hput, hpos⟩ := forM_putc_run l h0
  obtain ⟨file₂, hflush, -⟩ := fflush_run (Nat.lt_succ_of_lt hpos)
  unfold putAll
  rw [bind_run (show initBufferedOutput file = some ((), { file with pos := 0 }) from rfl),
    bind_run hput, bind_run hflush]
  exact ⟨file₂, rfl⟩

theorem vprintfVa_of_puts {format : List UInt8} {args : List (BitVec 32)} {l : List UInt8}
    {a : Int × List (BitVec 32)} (h : Puts (vprintfLoop mem n format args 0) l a) :
    vprintfVa mem n format args = putAll l a := by
  unfold vprintfVa putAll
  rw [h]
  simp only [bind_assoc, pure_bind]

/-- **`vprintf` honours its contract exactly where** the format has neither `%%` nor a percent
    sign at its end, and no number other than 0 is converted. -/
theorem printf_honours_iff (format : List UInt8) (args : List (BitVec 32))
    (h : Sufficient mem str n format args) :
    Honours mem str n format args ↔ .lone ∉ pieces format ∧ .percents ∉ pieces format ∧
      ∀ q ∈ (conversions format).zip args, ¬ Miscounted q.1 q.2 := by
  have hcount : (∀ q ∈ (conversions format).zip args, ¬ Miscounted q.1 q.2) ↔
      miscounted format args = 0 := by
    unfold miscounted
    rw [List.countP_eq_zero]
    simp only [decide_eq_true_eq]
  rw [hcount]
  constructor
  · intro hhon
    obtain ⟨file', hrun⟩ := putAll_run (produced str (pieces format) args)
      (((produced str (pieces format) args).length : Int),
        args.drop (conversions format).length) blankStdout
    have hva := (congrFun hhon blankStdout).trans hrun
    obtain ⟨-, file₁, -, hva'⟩ := bind_eq_some hva
    obtain ⟨⟨r, rest⟩, file₂, hloop, hva'⟩ := bind_eq_some hva'
    obtain ⟨-, file₃, -, hva'⟩ := bind_eq_some hva'
    obtain ⟨-, rfl⟩ := Prod.mk.inj (Prod.mk.inj (Option.some.inj hva')).1
    obtain ⟨hlone, hlen⟩ := vprintfLoop_taken format hloop
    have hpercents : .percents ∉ pieces format := by
      rw [List.length_drop] at hlen
      have hle := h.length
      exact List.count_eq_zero.mp (by omega)
    refine ⟨hlone, hpercents, ?_⟩
    rw [vprintfVa_of_puts (vprintfLoop_puts format 0 hlone hpercents h)] at hva
    obtain ⟨file₄, hrun'⟩ := putAll_run (produced str (pieces format) args)
      (0 + ((produced str (pieces format) args).length : Int) - miscounted format args,
        args.drop (conversions format).length) blankStdout
    have heq := (Prod.mk.inj (Prod.mk.inj (Option.some.inj (hrun'.symm.trans hva))).1).1
    omega
  · rintro ⟨hlone, hpercents, hmis⟩
    have hputs := vprintfLoop_puts format 0 hlone hpercents h
    rw [hmis, Int.zero_add] at hputs
    exact vprintfVa_of_puts (hputs.of_eq (Prod.ext (Int.sub_zero _) rfl))

/-- "a%d" with 0, and the string behind it. -/
theorem printf_honours_zero :
    Honours (fun _ => cstr [0x68, 0x69]) (fun _ => [0x68, 0x69]) 3
      [0x61, 0x25, 0x64, 0x25, 0x73] [0, 5] := by
  have hstr : IsStr (cstr [0x68, 0x69]) [0x68, 0x69] := ⟨by decide, holds_cstr _⟩
  have hsuff : Sufficient (fun _ => cstr [0x68, 0x69]) (fun _ => [0x68, 0x69]) 3
      [0x61, 0x25, 0x64, 0x25, 0x73] [0, 5] :=
    ⟨by decide, fun q _ _ => ⟨hstr, by decide⟩⟩
  have hzip : (conversions [0x61, 0x25, 0x64, 0x25, 0x73]).zip [0, 5] =
      [(0x64, (0 : BitVec 32)), (0x73, 5)] := rfl
  refine (printf_honours_iff _ _ hsuff).mpr ⟨by decide, by decide, fun q hq => ?_⟩
  rw [hzip] at hq
  rcases List.mem_cons.mp hq with rfl | hq
  · exact fun h => h.2 rfl
  · obtain rfl := List.mem_singleton.mp hq
    exact fun h => absurd h.1 (by decide)

/-- "%d" with 1 returns 0, "%%" takes an argument, and "%" is read on behind its NUL. -/
theorem printf_miscounts :
    ((vprintf (fun _ => cstr []) 1 [0x25, 0x64] [1] blankStdout).map fun res => res.1) = some 0 ∧
    Sufficient (fun _ => cstr []) (fun _ => []) 1 [0x25, 0x64] [1] ∧
    Sufficient (fun _ => cstr []) (fun _ => []) 1 [0x25, 0x25] [1] ∧
    Sufficient (fun _ => cstr []) (fun _ => []) 1 [0x25] [1] ∧
    ¬ Honours (fun _ => cstr []) (fun _ => []) 1 [0x25, 0x64] [1] ∧
    ¬ Honours (fun _ => cstr []) (fun _ => []) 1 [0x25, 0x25] [1] ∧
    ¬ Honours (fun _ => cstr []) (fun _ => []) 1 [0x25] [1] := by
  have hstr : IsStr (cstr []) [] := ⟨List.not_mem_nil, holds_cstr _⟩
  refine ⟨by decide +kernel, ⟨by decide, fun _ _ _ => ⟨hstr, Nat.zero_lt_one⟩⟩,
    ⟨by decide, fun _ _ _ => ⟨hstr, Nat.zero_lt_one⟩⟩,
    ⟨by decide, fun _ _ _ => ⟨hstr, Nat.zero_lt_one⟩⟩, fun h => ?_, fun h => ?_, fun h => ?_⟩
  · have hres := congrArg (Option.map fun res => res.1) (congrFun h blankStdout)
    revert hres
    decide +kernel
  · have hres := congrArg (Option.map fun res => res.1) (congrFun h blankStdout)
    revert hres
    decide +kernel
  · have hres := congrArg (Option.map fun res => res.1) (congrFun h blankStdout)
    revert hres
    decide +kernel

end

end LsePc.Bios
