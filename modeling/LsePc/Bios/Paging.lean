/-
  File:      LsePc/Bios/Paging.lean
  Subject:   The page tables of the BIOS (sw/bios/src/paging.c) and the frames of the
             allocator in the SRAM.

  The allocator starts at 1 MB, where the SRAM is seen a second time: the frame `i` is the
  same memory as the page `i` of the first megabyte, and the page tables are the pages 16
  and 17.

  * `setupPaging`, `translate`: the tables as the BIOS leaves them, and the walk through
    them;
  * `frameToPhys`, `frameToVirt`: frame_alloc.h; `sramCell`: memory_control.v;
  * `FirstFree`: the frame on the list that `alloc_frame` comes to;
  * **results**: `page_tables_kept_iff`, over all histories of the allocator;
    `page_tables_order`, in histories that free only what was allocated: the 15th and
    the 16th frame are the page tables.
-/
import LsePc.Bios.FrameAlloc
import LsePc.Bridge.Memory
import Mathlib.Data.Set.BooleanAlgebra
import Mathlib.Order.CompletePartialOrder

namespace LsePc.Bios

open LsePc.Lib LsePc.Bridge

/-! ## 1. memory.h, frame_alloc.h -/

def PD_ADDR : Nat := 0x00010000
def PT_ADDR : Nat := 0x00011000
def EXTERNAL_RAM : Nat := 0x00100000
def BIOS_BASE : Nat := 0xC0000000

def frameToPhys (f : Nat) : Nat := (f * PAGE_SIZE + EXTERNAL_RAM) % 2 ^ 32

def frameToVirt (f : Nat) : Nat := (frameToPhys f + BIOS_BASE) % 2 ^ 32

/-! ## 2. paging.c -/

/-- `struct pde`. -/
structure Pde where
  p : Bool
  rw : Bool
  us : Bool
  a : Bool
  d : Bool
  avl : Nat
  ptAddr : Nat
  deriving DecidableEq, Repr, Inhabited

/-- `struct pte`. -/
structure Pte where
  p : Bool
  rw : Bool
  us : Bool
  a : Bool
  d : Bool
  avl : Nat
  frameAddr : Nat
  deriving DecidableEq, Repr, Inhabited

def PD_SIZE : Nat := 1024
def PT_SIZE : Nat := 1024

def SYSTEM_ENTRY : Bool := true
def RW_ENTRY : Bool := true

def addrToPde (x : Nat) : Nat := x / 2 ^ 22 % 1024
def addrToPte (x : Nat) : Nat := x / 2 ^ 12 % 1024

def setPde (pd : Nat → Pde) (idx : Nat) (us : Bool) (pt : Nat) : Nat → Pde :=
  Function.update pd idx
    { pd idx with p := true, rw := RW_ENTRY, us := us, ptAddr := pt / 2 ^ 12 % 2 ^ 20 }

def setPte (pt : Nat → Pte) (idx : Nat) (us rw : Bool) (frame : Nat) : Nat → Pte :=
  Function.update pt idx
    { pt idx with p := true, rw := rw, us := us, frameAddr := frame / 2 ^ 12 % 2 ^ 20 }

/-- The page directory and the page table. -/
structure Tables where
  pd : Nat → Pde
  pt : Nat → Pte

/-- After `memset`. -/
def zeroTables : Tables :=
  { pd := fun _ => ⟨false, false, false, false, false, 0, 0⟩
    pt := fun _ => ⟨false, false, false, false, false, 0, 0⟩ }

/-- `setup_paging`, up to the call of `main`. -/
def setupPaging : Tables :=
  let t := zeroTables
  let pt := (List.range PT_SIZE).foldl
    (fun pt i => setPte pt i SYSTEM_ENTRY RW_ENTRY (i * 2 ^ 12)) t.pt
  let pd := setPde t.pd (addrToPde 0x00000000) SYSTEM_ENTRY PT_ADDR
  let pd := setPde pd (addrToPde 0xC0000000) SYSTEM_ENTRY PT_ADDR
  -- the low mapping is dropped once the code runs in the high one
  let pd := Function.update pd (addrToPde 0x00000000)
    { pd (addrToPde 0x00000000) with p := false }
  { pd := pd, pt := pt }

/-- The physical address of a linear one; `bios_pt` is the only page table. -/
def translate (t : Tables) (addr : Nat) : Option Nat :=
  let pde := t.pd (addrToPde addr)
  let pte := t.pt (addrToPte addr)
  if pde.p = true ∧ pde.ptAddr * 2 ^ 12 = PT_ADDR ∧ pte.p = true then
    some (pte.frameAddr * 2 ^ 12 + addr % 2 ^ 12)
  else none

/-! ## 3. The SRAM -/

/-- The lines of the 386 on an access to a physical address, and what selects the SRAM. -/
def onBus (addr : Nat) : MemoryControl :=
  { cs := true, addr := BitVec.ofNat 23 (addr / 2), dataIn := 0, low := true, high := true,
    wr := true }

/-- The word of the SRAM that an address selects: its lines are A19 to A1. -/
def sramCell (addr : Nat) : Option Nat :=
  if (onBus addr).ramcs then none else some ((onBus addr).addr.extractLsb' 0 19).toNat

/-- The cells of a frame, through the pointer `alloc_frame` returns. -/
def frameCells (f : Nat) : Set Nat :=
  {c | ∃ o < PAGE_SIZE, (translate setupPaging (frameToVirt f + o)).bind sramCell = some c}

/-- The cells of a table at a physical address. -/
def tableCells (addr : Nat) : Set Nat := {c | ∃ o < PAGE_SIZE, sramCell (addr + o) = some c}

/-- The frame has no cell of the page tables. -/
def Apart (f : Nat) : Prop :=
  Disjoint (frameCells f) (tableCells PD_ADDR) ∧ Disjoint (frameCells f) (tableCells PT_ADDR)

theorem extract_toNat (addr lo len : Nat) :
    ((onBus addr).addr.extractLsb' lo len).toNat = addr / 2 % 2 ^ 23 / 2 ^ lo % 2 ^ len := by
  rw [BitVec.extractLsb'_toNat, Nat.shiftRight_eq_div_pow]
  rfl

theorem onBus_ramcs (addr : Nat) : (onBus addr).ramcs = false ↔
    addr / 2 % 2 ^ 23 / 2 ^ 15 % 2 ^ 8 < 0x0A ∨ addr / 2 % 2 ^ 23 / 2 ^ 19 % 2 ^ 4 = 1 := by
  have h4 : (onBus addr).addr.extractLsb' 19 4 = 1 ↔
      ((onBus addr).addr.extractLsb' 19 4).toNat = 1 := BitVec.toNat_inj.symm
  have h8 : (onBus addr).addr.extractLsb' 15 8 < 0x0A ↔
      ((onBus addr).addr.extractLsb' 15 8).toNat < 0x0A := BitVec.lt_def
  have hcs : (onBus addr).cs = true := rfl
  rw [← extract_toNat, ← extract_toNat, ← h4, ← h8, MemoryControl.ramcs, hcs, Bool.true_and,
    Bool.not_eq_false', Bool.or_eq_true, decide_eq_true_iff, beq_iff_eq]

/-- **The two windows of the SRAM** show the same cells. -/
theorem sramCell_eq {addr : Nat} (h : addr < 0xA0000 ∨ 0x100000 ≤ addr ∧ addr < 0x200000) :
    sramCell addr = some (addr % 0x100000 / 2) := by
  have hcs : (onBus addr).ramcs = false := (onBus_ramcs addr).mpr (by omega)
  rw [sramCell, hcs, extract_toNat]
  simp only [Bool.false_eq_true, if_false, Option.some.injEq]
  omega

/-! ## 4. The pages of the frames -/

theorem foldl_setPte_ne {n i : Nat} (hi : n ≤ i) (pt : Nat → Pte) :
    (List.range n).foldl (fun pt i => setPte pt i SYSTEM_ENTRY RW_ENTRY (i * 2 ^ 12)) pt i =
      pt i := by
  induction n with
  | zero => rfl
  | succ n ih =>
    rw [List.range_succ, List.foldl_append]
    change Function.update _ n _ i = _
    rw [Function.update_of_ne (by omega), ih (by omega)]

/-- **The page table maps every page to itself.** -/
theorem foldl_setPte {n i : Nat} (hi : i < n) (hn : n ≤ 1024) (pt : Nat → Pte) :
    (List.range n).foldl (fun pt i => setPte pt i SYSTEM_ENTRY RW_ENTRY (i * 2 ^ 12)) pt i =
      { pt i with p := true, rw := RW_ENTRY, us := SYSTEM_ENTRY, frameAddr := i } := by
  induction n with
  | zero => omega
  | succ n ih =>
    rw [List.range_succ, List.foldl_append]
    change Function.update _ n _ i = _
    by_cases h : i = n
    · subst h
      rw [Function.update_self, foldl_setPte_ne (Nat.le_refl i),
        Nat.mul_div_cancel _ (by decide), Nat.mod_eq_of_lt (by omega)]
    · rw [Function.update_of_ne h, ih (by omega) (by omega)]

/-- The page directory maps them to the page table. -/
theorem setupPaging_high : (setupPaging.pd 0x300).p = true ∧
    (setupPaging.pd 0x300).ptAddr * 2 ^ 12 = PT_ADDR := by
  have hlow : addrToPde 0x00000000 = 0 := rfl
  have hhigh : addrToPde 0xC0000000 = 0x300 := rfl
  simp only [setupPaging, setPde, hlow, hhigh]
  rw [Function.update_of_ne (by decide), Function.update_self]
  exact ⟨rfl, rfl⟩

/-- The addresses from `BIOS_BASE` on, 4 MB. -/
theorem translate_high {a : Nat} (ha : a < 2 ^ 22) :
    translate setupPaging (BIOS_BASE + a) = some a := by
  have hpd : addrToPde (BIOS_BASE + a) = 0x300 := by
    unfold addrToPde BIOS_BASE
    omega
  have hpt : addrToPte (BIOS_BASE + a) = a / 2 ^ 12 := by
    unfold addrToPte BIOS_BASE
    omega
  have hoffset : a / 2 ^ 12 * 2 ^ 12 + (BIOS_BASE + a) % 2 ^ 12 = a := by
    unfold BIOS_BASE
    omega
  have hpte : setupPaging.pt (a / 2 ^ 12) =
      { zeroTables.pt (a / 2 ^ 12) with
        p := true, rw := RW_ENTRY, us := SYSTEM_ENTRY, frameAddr := a / 2 ^ 12 } := by
    have hlt : a / 2 ^ 12 < PT_SIZE := by
      unfold PT_SIZE
      omega
    have hle : PT_SIZE ≤ 1024 := Nat.le_refl 1024
    simp only [setupPaging]
    rw [foldl_setPte hlt hle]
  obtain ⟨hp, hpt'⟩ := setupPaging_high
  have haddr : (setupPaging.pt (a / 2 ^ 12)).frameAddr = a / 2 ^ 12 := by rw [hpte]
  have hpresent : (setupPaging.pt (a / 2 ^ 12)).p = true := by rw [hpte]
  unfold translate
  rw [hpd, hpt, if_pos ⟨hp, hpt', hpresent⟩, haddr, hoffset]

theorem frameToVirt_eq {f : Nat} (hf : f < NB_FRAMES) :
    frameToVirt f = BIOS_BASE + (0x100000 + f * 4096) := by
  unfold NB_FRAMES at hf
  unfold frameToVirt frameToPhys BIOS_BASE EXTERNAL_RAM PAGE_SIZE
  omega

/-- **A frame is the page of its number.** -/
theorem mem_frameCells {f c : Nat} (hf : f < NB_FRAMES) : c ∈ frameCells f ↔ c / 2048 = f := by
  have hcell : ∀ o < PAGE_SIZE, (translate setupPaging (frameToVirt f + o)).bind sramCell =
      some (f * 2048 + o / 2) := by
    intro o ho
    unfold NB_FRAMES at hf
    unfold PAGE_SIZE at ho
    rw [frameToVirt_eq hf, Nat.add_assoc, translate_high (by omega), Option.bind_some,
      sramCell_eq (by omega)]
    congr 1
    omega
  constructor
  · intro h
    obtain ⟨o, ho, h⟩ := h
    rw [hcell o ho, Option.some.injEq] at h
    unfold PAGE_SIZE at ho
    omega
  · intro h
    refine ⟨(c - f * 2048) * 2, by unfold PAGE_SIZE; omega, ?_⟩
    rw [hcell _ (by unfold PAGE_SIZE; omega), Option.some.injEq]
    omega

theorem mem_tableCells {n c : Nat} (hn : n < 160) : c ∈ tableCells (n * 4096) ↔ c / 2048 = n := by
  have hcell : ∀ o < PAGE_SIZE, sramCell (n * 4096 + o) = some (n * 2048 + o / 2) := by
    intro o ho
    unfold PAGE_SIZE at ho
    rw [sramCell_eq (by omega)]
    congr 1
    omega
  constructor
  · intro h
    obtain ⟨o, ho, h⟩ := h
    rw [hcell o ho, Option.some.injEq] at h
    unfold PAGE_SIZE at ho
    omega
  · intro h
    refine ⟨(c - n * 2048) * 2, by unfold PAGE_SIZE; omega, ?_⟩
    rw [hcell _ (by unfold PAGE_SIZE; omega), Option.some.injEq]
    omega

theorem disjoint_iff {f n : Nat} (hf : f < NB_FRAMES) (hn : n < 160) :
    Disjoint (frameCells f) (tableCells (n * 4096)) ↔ f ≠ n := by
  rw [Set.disjoint_left]
  constructor
  · intro h he
    obtain rfl := he
    have hmem : f * 2048 / 2048 = f := Nat.mul_div_cancel f (by decide)
    exact h ((mem_frameCells hf).mpr hmem) ((mem_tableCells hn).mpr hmem)
  · intro hne c hc hc'
    exact hne (((mem_frameCells hf).mp hc).symm.trans ((mem_tableCells hn).mp hc'))

/-- **The page tables are the pages 16 and 17.** -/
theorem apart_iff {f : Nat} (hf : f < NB_FRAMES) : Apart f ↔ f ≠ 16 ∧ f ≠ 17 :=
  and_congr (disjoint_iff (n := 16) hf (by decide)) (disjoint_iff (n := 17) hf (by decide))

/-! ## 5. All histories -/

/-- `alloc_frame` and `free_frame` in any order, on any frames. -/
inductive Frames.Step : Frames → FrameCall → Frames → Prop where
  | alloc {m m' : Frames} {f : Nat} (h : allocFrame m = some (f, m')) : Frames.Step m .alloc m'
  | free {m : Frames} {f : Nat} (h : f < NB_FRAMES) : Frames.Step m (.free f) (freeFrame m f)

/-- From `j` on the list leads to `i`, the first frame without a reference. -/
inductive FirstFree (m : Frames) (i : Nat) : Nat → Prop where
  | here (h0 : i ≠ 0) (h : (m.frames i).refCnt = 0) : FirstFree m i i
  | skip {j : Nat} (h0 : j ≠ 0) (h : (m.frames j).refCnt ≠ 0) (hn : FirstFree m i (m.next j)) :
      FirstFree m i j

section
variable {m m' : Frames} {f i i' j : Nat}

theorem FirstFree.unique (h : FirstFree m i j) (h' : FirstFree m i' j) : i = i' := by
  induction h with
  | here _ h =>
    cases h' with
    | here => rfl
    | skip _ h' => exact absurd h h'
  | skip _ h _ ih =>
    cases h' with
    | here _ h' => exact absurd h' h
    | skip _ _ hn' => exact ih hn'

theorem firstFree_of_find {n : Nat}
    (h : (walk 0 m.next n j).find? (fun i => (m.frames i).refCnt == 0) = some i) :
    FirstFree m i j := by
  induction n generalizing j with
  | zero => cases h
  | succ n ih =>
    rw [walk] at h
    split at h
    · cases h
    · rename_i h0
      by_cases hc : (m.frames j).refCnt = 0
      · rw [List.find?_cons_of_pos (by rw [hc]; rfl)] at h
        cases h
        exact .here h0 hc
      · rw [List.find?_cons_of_neg (by simpa using hc)] at h
        exact .skip h0 hc (ih h)

/-- `alloc_frame` returns the first frame without a reference. -/
theorem allocFrame_firstFree (h : allocFrame m = some (f, m')) :
    FirstFree m f m.firstFreeFrame ∧ m'.firstFreeFrame = m.next f ∧ m'.next = m.next := by
  unfold allocFrame at h
  split at h
  · rename_i k hk
    cases h
    refine ⟨firstFree_of_find hk, rfl, ?_⟩
    funext i
    change (Function.update m.frames f _ i).next = _
    rw [Function.update_apply]
    split
    · rename_i e
      rw [e]
      rfl
    · rfl
  · cases h

/-- The indices are bytes. -/
def Bytes (m : Frames) : Prop := m.firstFreeFrame < NB_FRAMES ∧ ∀ i, m.next i < NB_FRAMES

theorem FirstFree.lt (h : FirstFree m i j) (hn : ∀ i, m.next i < NB_FRAMES) (hj : j < NB_FRAMES) :
    i < NB_FRAMES := by
  induction h with
  | here => exact hj
  | skip _ _ _ ih => exact ih (hn _)

theorem reach_bytes (h : Reach (· = initFrames) Frames.Step m) : Bytes m := by
  refine h.invariant (I := Bytes) ?_ ?_
  · intro m he
    obtain rfl := he
    exact ⟨by decide, fun i => Nat.mod_lt _ (by decide)⟩
  · intro m c m' h hs
    obtain ⟨hfirst, hnext⟩ := h
    cases hs with
    | alloc ha =>
      obtain ⟨-, hf, hn⟩ := allocFrame_firstFree ha
      exact ⟨hf ▸ hnext _, fun i => hn ▸ hnext i⟩
    | @free f hf =>
      refine ⟨hf, fun i => ?_⟩
      change (Function.update m.frames f _ i).next < _
      rw [Function.update_apply]
      split
      · exact hfirst
      · exact hnext i

end

/-- **Frame allocation keeps off the page tables** exactly as long as it does not come to
    the frames 16 and 17, after any calls before. -/
theorem page_tables_kept_iff {m m' : Frames} {f : Nat}
    (h : Reach (· = initFrames) Frames.Step m) (ha : allocFrame m = some (f, m')) :
    Apart f ↔ ¬ FirstFree m 16 m.firstFreeFrame ∧ ¬ FirstFree m 17 m.firstFreeFrame := by
  obtain ⟨hfirst, hnext⟩ := reach_bytes h
  obtain ⟨hff, -, -⟩ := allocFrame_firstFree ha
  have hiff : ∀ i, f ≠ i ↔ ¬ FirstFree m i m.firstFreeFrame := by
    intro i
    refine not_congr ⟨?_, hff.unique⟩
    intro he
    obtain rfl := he
    exact hff
  rw [apart_iff (hff.lt hnext hfirst), hiff, hiff]

/-- The first frame. -/
theorem page_tables_kept_first : ∃ m, allocFrame initFrames = some (2, m) ∧ Apart 2 := by
  obtain ⟨m, hm⟩ : ∃ m, allocFrame initFrames = some (2, m) := ⟨_, rfl⟩
  obtain ⟨hff, -, -⟩ := allocFrame_firstFree hm
  refine ⟨m, hm, (page_tables_kept_iff (.init rfl) hm).mpr ⟨fun h => ?_, fun h => ?_⟩⟩
  · exact absurd (hff.unique h) (by decide)
  · exact absurd (hff.unique h) (by decide)

theorem reach_of_heap {x : Heap} (h : Reach (· = initHeap) Heap.Step x) :
    Reach (· = initFrames) Frames.Step x.m := by
  induction h with
  | init h =>
    subst h
    exact .init rfl
  | step h hs ih =>
    cases hs with
    | alloc ha => exact .step ih (.alloc ha)
    | free hf =>
      obtain ⟨n, dead, hh⟩ := handed_reach h
      exact .step ih (.free (Nat.lt_of_lt_of_le (hh.held _ hf).2.1 hh.le))

/-- The page directory is the 15th frame. -/
theorem page_directory_handed_out : ∃ m m', Reach (· = initFrames) Frames.Step m ∧
    allocFrame m = some (16, m') ∧ ¬ Apart 16 := by
  obtain ⟨x, hp⟩ := exists_allocs (k := 14) (by decide)
  obtain ⟨dead, hh, -⟩ := handed_path hp handed_init
  have ha := hh.alloc_eq
  rw [List.count_replicate_self, if_pos (by decide)] at ha
  refine ⟨x.m, _, reach_of_heap (hp.reach (.init rfl)), ha, fun h => ?_⟩
  exact ((apart_iff (by decide)).mp h).1 rfl

/-- Where only held frames are freed, the page tables are the 15th and the 16th frame. -/
theorem page_tables_order {cs : List FrameCall} {x : Heap} (hp : Path Heap.Step initHeap cs x)
    {f : Nat} {m : Frames} (ha : allocFrame x.m = some (f, m)) :
    Apart f ↔ cs.count .alloc ≠ 14 ∧ cs.count .alloc ≠ 15 := by
  obtain ⟨-, h⟩ := alloc_exclusive (hp.reach (.init rfl))
  rw [apart_iff (h f m ha).1, alloc_order hp ha]
  omega

end LsePc.Bios
