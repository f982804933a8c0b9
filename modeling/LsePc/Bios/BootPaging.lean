/-
  File:      LsePc/Bios/BootPaging.lean
  Subject:   `setup_paging` (sw/bios/src/paging.c) down to the bytes of the two tables, and the
             walk of the 386 through them.

  * `pde`, `pte`: the bit-fields; `setPde`, `setPte`, `memset`: what is stored;
  * `Cpu`, `walk`: the walk through the tables that CR3 points to, on the words of the memory;
  * `enablePaging`, `removeIdentity`: the two points of the boot, when paging is enabled and
    when the low mapping is gone;
  * `Shows`: the bytes are these tables, in the sense of Paging.lean;
  * **result** (`boot_window`): what is mapped at the two points.

  The jump to the high addresses and the GDT are not modelled.
-/
import LsePc.Bios.Paging
import LsePc.Lib.BitField

namespace LsePc.Bios.Boot

open LsePc.Lib

/-! ## 1. paging.c -/

inductive Member where
  | p | rw | us | a | d | avl | ptAddr | frameAddr
  deriving DecidableEq, Repr

/-- `struct pde`. -/
def pde : Decl Member :=
  [(some .p, 1), (some .rw, 1), (some .us, 1), (none, 2), (some .a, 1), (some .d, 1), (none, 1),
   (none, 1), (some .avl, 3), (some .ptAddr, 20)]

/-- `struct pte`. -/
def pte : Decl Member :=
  [(some .p, 1), (some .rw, 1), (some .us, 1), (none, 2), (some .a, 1), (some .d, 1), (none, 1),
   (none, 1), (some .avl, 3), (some .frameAddr, 20)]

/-- `sizeof (struct pde)`, and of `struct pte`. -/
def ENTRY_SIZE : Nat := pde.bits / 8

def setPde (mem : Ram) (pd idx : Nat) (us : Bool) (pt : Nat) : Ram :=
  let a := pd + ENTRY_SIZE * idx
  let mem := pde.set mem a .p 1
  let mem := pde.set mem a .rw RW_ENTRY.toNat
  let mem := pde.set mem a .us us.toNat
  pde.set mem a .ptAddr (pt / 2 ^ 12)

def setPte (mem : Ram) (pt idx : Nat) (us rw : Bool) (frame : Nat) : Ram :=
  let a := pt + ENTRY_SIZE * idx
  let mem := pte.set mem a .p 1
  let mem := pte.set mem a .rw rw.toNat
  let mem := pte.set mem a .us us.toNat
  pte.set mem a .frameAddr (frame / 2 ^ 12)

/-- `memset` of string.c. -/
def memset (mem : Ram) (s : Nat) (c : BitVec 8) (n : Nat) : Ram :=
  (List.range n).foldl (fun mem i => Function.update mem (s + i) c) mem

/-- The memory and CR3. -/
structure Cpu where
  mem : Ram
  cr3 : BitVec 32

/-- Where a linear address leads. -/
structure Page where
  phys : BitVec 32
  writable : Bool
  deriving DecidableEq, Repr

/-- **The walk of the 386**: `none` is the fault of a page that is not present. -/
def walk (m : Cpu) (v : BitVec 32) : Option Page :=
  let pde := word32 m.mem
    ((m.cr3.extractLsb' 12 20).toNat * 2 ^ 12 + 4 * (v.extractLsb' 22 10).toNat)
  if pde.getLsbD 0 then
    let pte := word32 m.mem
      ((pde.extractLsb' 12 20).toNat * 2 ^ 12 + 4 * (v.extractLsb' 12 10).toNat)
    if pte.getLsbD 0 then
      some { phys := pte.extractLsb' 12 20 ++ v.extractLsb' 0 12
             writable := pde.getLsbD 1 && pte.getLsbD 1 }
    else none
  else none

/-- `setup_paging` up to `enable_paging`. -/
def enablePaging (mem : Ram) : Cpu :=
  let mem := memset mem PD_ADDR 0 (PD_SIZE * ENTRY_SIZE)
  let mem := memset mem PT_ADDR 0 (PT_SIZE * ENTRY_SIZE)
  let mem := (List.range PT_SIZE).foldl
    (fun mem i => setPte mem PT_ADDR i SYSTEM_ENTRY RW_ENTRY (i * 2 ^ 12)) mem
  let mem := setPde mem PD_ADDR (addrToPde 0x00000000) SYSTEM_ENTRY PT_ADDR
  let mem := setPde mem PD_ADDR (addrToPde 0xC0000000) SYSTEM_ENTRY PT_ADDR
  { mem := mem, cr3 := BitVec.ofNat 32 PD_ADDR }

/-- The rest of it, up to the call of `main`. The pointer `bios_pd` is a linear address now. -/
def removeIdentity (m : Cpu) : Option Cpu :=
  match walk m (BitVec.ofNat 32 (PD_ADDR + ENTRY_SIZE * addrToPde 0x00000000)) with
  | some page =>
    if page.writable then
      some { mem := pde.set m.mem page.phys.toNat .p 0, cr3 := BitVec.ofNat 32 PD_ADDR }
    else none
  | none => none

/-! ## 2. The entries -/

def pdeAt (mem : Ram) (a : Nat) : Pde :=
  { p := pde.get mem a .p == 1
    rw := pde.get mem a .rw == 1
    us := pde.get mem a .us == 1
    a := pde.get mem a .a == 1
    d := pde.get mem a .d == 1
    avl := pde.get mem a .avl
    ptAddr := pde.get mem a .ptAddr }

def pteAt (mem : Ram) (a : Nat) : Pte :=
  { p := pte.get mem a .p == 1
    rw := pte.get mem a .rw == 1
    us := pte.get mem a .us == 1
    a := pte.get mem a .a == 1
    d := pte.get mem a .d == 1
    avl := pte.get mem a .avl
    frameAddr := pte.get mem a .frameAddr }

/-- The tables are in the memory. -/
structure Shows (mem : Ram) (t : Tables) : Prop where
  pd : ∀ i < PD_SIZE, pdeAt mem (PD_ADDR + ENTRY_SIZE * i) = t.pd i
  pt : ∀ i < PT_SIZE, pteAt mem (PT_ADDR + ENTRY_SIZE * i) = t.pt i

section
variable {mem : Ram} {a b idx i : Nat}

theorem pdeAt_word : (word32 mem a).getLsbD 0 = (pdeAt mem a).p ∧
    (word32 mem a).getLsbD 1 = (pdeAt mem a).rw ∧
    ((word32 mem a).extractLsb' 12 20).toNat = (pdeAt mem a).ptAddr := by
  rw [getLsbD_word32 (by decide), getLsbD_word32 (by decide), extractLsb'_word32 (by decide)]
  exact ⟨loadBits_one.symm, loadBits_one.symm, rfl⟩

theorem pteAt_word : (word32 mem a).getLsbD 0 = (pteAt mem a).p ∧
    (word32 mem a).getLsbD 1 = (pteAt mem a).rw ∧
    ((word32 mem a).extractLsb' 12 20).toNat = (pteAt mem a).frameAddr := by
  rw [getLsbD_word32 (by decide), getLsbD_word32 (by decide), extractLsb'_word32 (by decide)]
  exact ⟨loadBits_one.symm, loadBits_one.symm, rfl⟩

theorem toNat_flag (c : Bool) : (c.toNat % 2 ^ 1 == 1) = c := by
  cases c
  · rfl
  · rfl

/-- What `set_pde` writes. -/
theorem pdeAt_setPde {us : Bool} {pt : Nat} :
    pdeAt (setPde mem a idx us pt) (a + ENTRY_SIZE * idx) =
      { pdeAt mem (a + ENTRY_SIZE * idx) with
        p := true, rw := RW_ENTRY, us := us, ptAddr := pt / 2 ^ 12 % 2 ^ 20 } := by
  unfold pdeAt setPde
  simp (disch := decide) only [Decl.get_set_self, Decl.get_set_ne]
  have hus : (us.toNat % 2 ^ (pde.place .us).2 == 1) = us := toNat_flag us
  rw [hus]
  rfl

theorem pteAt_setPte {us rw : Bool} {frame : Nat} :
    pteAt (setPte mem a idx us rw frame) (a + ENTRY_SIZE * idx) =
      { pteAt mem (a + ENTRY_SIZE * idx) with
        p := true, rw := rw, us := us, frameAddr := frame / 2 ^ 12 % 2 ^ 20 } := by
  unfold pteAt setPte
  simp (disch := decide) only [Decl.get_set_self, Decl.get_set_ne]
  have hus : (us.toNat % 2 ^ (pte.place .us).2 == 1) = us := toNat_flag us
  have hrw : (rw.toNat % 2 ^ (pte.place .rw).2 == 1) = rw := toNat_flag rw
  rw [hus, hrw]
  rfl

theorem bit_setPde {us : Bool} {pt : Nat}
    (h : i < 8 * (a + ENTRY_SIZE * idx) ∨ 8 * (a + ENTRY_SIZE * idx) + 32 ≤ i) :
    bit (setPde mem a idx us pt) i = bit mem i := by
  unfold setPde
  rw [Decl.bit_set_apart h, Decl.bit_set_apart h, Decl.bit_set_apart h, Decl.bit_set_apart h]

theorem bit_setPte {us rw : Bool} {frame : Nat}
    (h : i < 8 * (a + ENTRY_SIZE * idx) ∨ 8 * (a + ENTRY_SIZE * idx) + 32 ≤ i) :
    bit (setPte mem a idx us rw frame) i = bit mem i := by
  unfold setPte
  rw [Decl.bit_set_apart h, Decl.bit_set_apart h, Decl.bit_set_apart h, Decl.bit_set_apart h]

/-- The bits of an entry. -/
theorem pdeAt_congr {mem' : Ram} (h : ∀ k < 32, bit mem (8 * a + k) = bit mem' (8 * a + k)) :
    pdeAt mem a = pdeAt mem' a := by
  have hget : ∀ m, pde.get mem a m = pde.get mem' a m := fun m => Decl.get_congr h
  unfold pdeAt
  simp only [hget]

theorem pteAt_congr {mem' : Ram} (h : ∀ k < 32, bit mem (8 * a + k) = bit mem' (8 * a + k)) :
    pteAt mem a = pteAt mem' a := by
  have hget : ∀ m, pte.get mem a m = pte.get mem' a m := fun m => Decl.get_congr h
  unfold pteAt
  simp only [hget]

theorem entry_size : ENTRY_SIZE = 4 := rfl

end

/-! ## 3. The stores -/

section
variable {mem mem' : Ram} {t : Tables} {idx : Nat}

/-- A store to an entry of the page directory. -/
theorem Shows.storePd {e : Pde} (h : Shows mem t) (hidx : idx < PD_SIZE)
    (he : pdeAt mem' (PD_ADDR + ENTRY_SIZE * idx) = e)
    (hbits : ∀ i, i < 8 * (PD_ADDR + ENTRY_SIZE * idx) ∨
      8 * (PD_ADDR + ENTRY_SIZE * idx) + 32 ≤ i → bit mem' i = bit mem i) :
    Shows mem' { t with pd := Function.update t.pd idx e } := by
  unfold PD_SIZE at hidx
  constructor
  · intro i hi
    dsimp only
    rw [Function.update_apply]
    split
    · rename_i heq
      rw [heq, he]
    · rename_i hne
      rw [← h.pd i hi]
      refine pdeAt_congr fun k hk => hbits _ ?_
      rw [entry_size]
      omega
  · intro i hi
    rw [← h.pt i hi]
    refine pteAt_congr fun k hk => hbits _ ?_
    rw [entry_size]
    unfold PD_ADDR PT_ADDR
    omega

/-- A store to an entry of the page table. -/
theorem Shows.storePt {e : Pte} (h : Shows mem t) (hidx : idx < PT_SIZE)
    (he : pteAt mem' (PT_ADDR + ENTRY_SIZE * idx) = e)
    (hbits : ∀ i, i < 8 * (PT_ADDR + ENTRY_SIZE * idx) ∨
      8 * (PT_ADDR + ENTRY_SIZE * idx) + 32 ≤ i → bit mem' i = bit mem i) :
    Shows mem' { t with pt := Function.update t.pt idx e } := by
  unfold PT_SIZE at hidx
  constructor
  · intro i hi
    rw [← h.pd i hi]
    refine pdeAt_congr fun k hk => hbits _ ?_
    unfold PD_SIZE at hi
    rw [entry_size]
    unfold PD_ADDR PT_ADDR
    omega
  · intro i hi
    dsimp only
    rw [Function.update_apply]
    split
    · rename_i heq
      rw [heq, he]
    · rename_i hne
      rw [← h.pt i hi]
      refine pteAt_congr fun k hk => hbits _ ?_
      rw [entry_size]
      omega

theorem Shows.setPde (h : Shows mem t) (hidx : idx < PD_SIZE) (us : Bool) (pt : Nat) :
    Shows (setPde mem PD_ADDR idx us pt) { t with pd := Bios.setPde t.pd idx us pt } := by
  refine h.storePd hidx ?_ fun i => bit_setPde
  rw [pdeAt_setPde, h.pd idx hidx]

theorem Shows.setPte (h : Shows mem t) (hidx : idx < PT_SIZE) (us rw : Bool) (frame : Nat) :
    Shows (setPte mem PT_ADDR idx us rw frame)
      { t with pt := Bios.setPte t.pt idx us rw frame } := by
  refine h.storePt hidx ?_ fun i => bit_setPte
  rw [pteAt_setPte, h.pt idx hidx]

/-- The loop over the page table. -/
theorem Shows.fill (h : Shows mem t) {n : Nat} (hn : n ≤ PT_SIZE) :
    Shows
      ((List.range n).foldl
        (fun mem i => Boot.setPte mem PT_ADDR i SYSTEM_ENTRY RW_ENTRY (i * 2 ^ 12)) mem)
      { t with
        pt := (List.range n).foldl
          (fun pt i => Bios.setPte pt i SYSTEM_ENTRY RW_ENTRY (i * 2 ^ 12)) t.pt } := by
  induction n with
  | zero => exact h
  | succ n ih =>
    rw [List.range_succ, List.foldl_append, List.foldl_append]
    exact (ih (Nat.le_of_succ_le hn)).setPte hn SYSTEM_ENTRY RW_ENTRY (n * 2 ^ 12)

theorem memset_apply {s n a : Nat} {c : BitVec 8} :
    memset mem s c n a = if s ≤ a ∧ a < s + n then c else mem a := by
  unfold memset
  induction n with
  | zero =>
    rw [if_neg (by omega)]
    rfl
  | succ n ih =>
    rw [List.range_succ, List.foldl_append, List.foldl_cons, List.foldl_nil, Function.update_apply,
      ih]
    split
    · rw [if_pos (by omega)]
    · split
      · rw [if_pos (by omega)]
      · rw [if_neg (by omega)]

theorem pdeAt_zero {a : Nat} (h : ∀ k < 32, bit mem (8 * a + k) = false) :
    pdeAt mem a = zeroTables.pd 0 := by
  have hget : ∀ m, pde.get mem a m = 0 := fun m => Decl.get_eq_zero h
  unfold pdeAt
  simp only [hget]
  rfl

theorem pteAt_zero {a : Nat} (h : ∀ k < 32, bit mem (8 * a + k) = false) :
    pteAt mem a = zeroTables.pt 0 := by
  have hget : ∀ m, pte.get mem a m = 0 := fun m => Decl.get_eq_zero h
  unfold pteAt
  simp only [hget]
  rfl

/-- **Both pages are zeroed**, whatever was in them. -/
theorem shows_zero (mem : Ram) :
    Shows (memset (memset mem PD_ADDR 0 (PD_SIZE * ENTRY_SIZE)) PT_ADDR 0 (PT_SIZE * ENTRY_SIZE))
      zeroTables := by
  have hzero : ∀ i, 8 * PD_ADDR ≤ i → i < 8 * (PD_ADDR + 8192) →
      bit (memset (memset mem PD_ADDR 0 (PD_SIZE * ENTRY_SIZE)) PT_ADDR 0
        (PT_SIZE * ENTRY_SIZE)) i = false := by
    intro i hlo hhi
    unfold PD_ADDR at hlo hhi
    unfold bit PD_SIZE PT_SIZE PD_ADDR PT_ADDR
    rw [memset_apply, memset_apply, entry_size]
    split
    · exact BitVec.getLsbD_zero
    · rw [if_pos (by omega)]
      exact BitVec.getLsbD_zero
  constructor
  · intro i hi
    unfold PD_SIZE at hi
    refine pdeAt_zero fun k hk => hzero _ ?_ ?_
    · omega
    · rw [entry_size]
      omega
  · intro i hi
    unfold PT_SIZE at hi
    refine pteAt_zero fun k hk => hzero _ ?_ ?_
    · unfold PD_ADDR PT_ADDR
      omega
    · rw [entry_size]
      unfold PD_ADDR PT_ADDR
      omega

end

/-! ## 4. The two points -/

/-- The tables when paging is enabled. -/
def enabledTables : Tables :=
  let t := zeroTables
  let pt := (List.range PT_SIZE).foldl
    (fun pt i => Bios.setPte pt i SYSTEM_ENTRY RW_ENTRY (i * 2 ^ 12)) t.pt
  let pd := Bios.setPde t.pd (addrToPde 0x00000000) SYSTEM_ENTRY PT_ADDR
  let pd := Bios.setPde pd (addrToPde 0xC0000000) SYSTEM_ENTRY PT_ADDR
  { pd := pd, pt := pt }

theorem enablePaging_shows (mem : Ram) : Shows (enablePaging mem).mem enabledTables := by
  have hlow : addrToPde 0x00000000 < PD_SIZE := by decide
  have hhigh : addrToPde 0xC0000000 < PD_SIZE := by decide
  have hfill := (shows_zero mem).fill (Nat.le_refl PT_SIZE)
  have hset := (hfill.setPde hlow SYSTEM_ENTRY PT_ADDR).setPde hhigh SYSTEM_ENTRY PT_ADDR
  dsimp only at hset
  unfold enablePaging enabledTables
  exact hset

/-- The directory entries `S` lead to the page table, which maps every page to itself. -/
structure Window (t : Tables) (S : List Nat) : Prop where
  present : ∀ i ∈ S, (t.pd i).p = true ∧ (t.pd i).rw = true ∧ (t.pd i).ptAddr * 2 ^ 12 = PT_ADDR
  absent : ∀ i, i ∉ S → (t.pd i).p = false
  pages : ∀ i < PT_SIZE, (t.pt i).p = true ∧ (t.pt i).rw = true ∧ (t.pt i).frameAddr = i

section
variable {m : Cpu} {t : Tables} {S : List Nat} {v : BitVec 32}

theorem append_ofNat (x : BitVec 20) (y : BitVec 12) :
    x ++ y = BitVec.ofNat 32 (x.toNat * 2 ^ 12 + y.toNat) := by
  have hx := x.isLt
  have hy := y.isLt
  refine BitVec.eq_of_toNat_eq ?_
  rw [BitVec.toNat_append, ← Nat.shiftLeft_add_eq_or_of_lt hy, Nat.shiftLeft_eq,
    BitVec.toNat_ofNat, Nat.mod_eq_of_lt (by omega)]

theorem dir_toNat : (v.extractLsb' 22 10).toNat = addrToPde v.toNat := by
  rw [BitVec.extractLsb'_toNat, Nat.shiftRight_eq_div_pow]
  rfl

theorem table_toNat : (v.extractLsb' 12 10).toNat = addrToPte v.toNat := by
  rw [BitVec.extractLsb'_toNat, Nat.shiftRight_eq_div_pow]
  rfl

/-- **The walk on the words is the walk through the tables.** -/
theorem walk_eq (h : Shows m.mem t) (hcr : m.cr3 = BitVec.ofNat 32 PD_ADDR) (ht : Window t S) :
    walk m v = (translate t v.toNat).map fun a =>
      { phys := BitVec.ofNat 32 a
        writable := (t.pd (addrToPde v.toNat)).rw && (t.pt (addrToPte v.toNat)).rw } := by
  have hdir : addrToPde v.toNat < PD_SIZE := Nat.mod_lt _ (by decide)
  have htable : addrToPte v.toNat < PT_SIZE := Nat.mod_lt _ (by decide)
  have hbase : ((BitVec.ofNat 32 PD_ADDR).extractLsb' 12 20).toNat * 2 ^ 12 = PD_ADDR := by decide
  obtain ⟨hp, hrw, hpt⟩ := @pdeAt_word m.mem (PD_ADDR + ENTRY_SIZE * addrToPde v.toNat)
  rw [h.pd _ hdir] at hp hrw hpt
  unfold walk translate
  dsimp only
  rw [hcr, hbase, dir_toNat, table_toNat, ← entry_size, hp, hrw, hpt]
  by_cases hpresent : (t.pd (addrToPde v.toNat)).p = true
  · have hmem : addrToPde v.toNat ∈ S := by
      refine Classical.byContradiction fun hn => ?_
      rw [ht.absent _ hn] at hpresent
      cases hpresent
    obtain ⟨-, -, haddr⟩ := ht.present _ hmem
    obtain ⟨hp', hrw', hframe⟩ := @pteAt_word m.mem (PT_ADDR + ENTRY_SIZE * addrToPte v.toNat)
    rw [h.pt _ htable] at hp' hrw' hframe
    obtain ⟨hpage, -, -⟩ := ht.pages _ htable
    have hoffset : (v.extractLsb' 0 12).toNat = v.toNat % 2 ^ 12 := by
      rw [BitVec.extractLsb'_toNat, Nat.shiftRight_zero]
    rw [haddr, hp', hrw', append_ofNat, hframe, hoffset, if_pos hpresent, if_pos hpage,
      if_pos ⟨hpresent, rfl, hpage⟩]
    rfl
  · rw [if_neg hpresent, if_neg fun hall => hpresent hall.1]
    rfl

theorem Window.translate_eq (ht : Window t S) (a : Nat) :
    translate t a = if addrToPde a ∈ S then some (a % 2 ^ 22) else none := by
  have htable : addrToPte a < PT_SIZE := Nat.mod_lt _ (by decide)
  obtain ⟨hp, -, hframe⟩ := ht.pages _ htable
  have hpage : addrToPte a * 2 ^ 12 + a % 2 ^ 12 = a % 2 ^ 22 := by
    unfold addrToPte
    omega
  unfold translate
  dsimp only
  by_cases hmem : addrToPde a ∈ S
  · obtain ⟨hpd, -, haddr⟩ := ht.present _ hmem
    rw [if_pos hmem, if_pos ⟨hpd, haddr, hp⟩, hframe, hpage]
  · have habsent := ht.absent _ hmem
    rw [if_neg hmem, if_neg]
    rintro ⟨hpd, -, -⟩
    rw [habsent] at hpd
    cases hpd

/-- What is mapped through a window. -/
theorem Window.walk_eq (ht : Window t S) (h : Shows m.mem t)
    (hcr : m.cr3 = BitVec.ofNat 32 PD_ADDR) :
    walk m v = if addrToPde v.toNat ∈ S then some ⟨BitVec.ofNat 32 (v.toNat % 2 ^ 22), true⟩
      else none := by
  rw [Boot.walk_eq h hcr ht, ht.translate_eq]
  split
  · rename_i hmem
    obtain ⟨-, hrw, -⟩ := ht.present _ hmem
    obtain ⟨-, hrw', -⟩ := ht.pages (addrToPte v.toNat) (Nat.mod_lt _ (by decide))
    rw [hrw, hrw']
    rfl
  · rfl

end

theorem enabledTables_window : Window enabledTables [0, 0x300] := by
  have hlow : addrToPde 0x00000000 = 0 := rfl
  have hhigh : addrToPde 0xC0000000 = 0x300 := rfl
  have hpd : enabledTables.pd = Bios.setPde
      (Bios.setPde zeroTables.pd 0 SYSTEM_ENTRY PT_ADDR) 0x300 SYSTEM_ENTRY PT_ADDR := by
    unfold enabledTables
    rw [hlow, hhigh]
  constructor
  · intro i hi
    rw [hpd]
    simp only [List.mem_cons, List.not_mem_nil, or_false] at hi
    rcases hi with rfl | rfl
    · rw [Bios.setPde, Function.update_of_ne (by decide), Bios.setPde, Function.update_self]
      exact ⟨rfl, rfl, rfl⟩
    · rw [Bios.setPde, Function.update_self]
      exact ⟨rfl, rfl, rfl⟩
  · intro i hi
    simp only [List.mem_cons, List.not_mem_nil, or_false, not_or] at hi
    rw [hpd, Bios.setPde, Function.update_of_ne hi.2, Bios.setPde, Function.update_of_ne hi.1]
    rfl
  · intro i hi
    unfold enabledTables
    dsimp only
    rw [foldl_setPte hi (Nat.le_refl 1024)]
    exact ⟨rfl, rfl, rfl⟩

/-- The tables without the low mapping. -/
def dropLow (t : Tables) : Tables :=
  { t with pd := Function.update t.pd 0 { t.pd 0 with p := false } }

theorem Window.dropLow {t : Tables} (ht : Window t [0, 0x300]) : Window (dropLow t) [0x300] := by
  constructor
  · intro i hi
    have hne : i ≠ 0 := List.mem_singleton.mp hi ▸ (by decide)
    unfold Boot.dropLow
    dsimp only
    rw [Function.update_of_ne hne]
    exact ht.present i (List.mem_cons_of_mem 0 hi)
  · intro i hi
    unfold Boot.dropLow
    dsimp only
    rw [Function.update_apply]
    split
    · rfl
    · rename_i hne
      exact ht.absent i fun hmem => (List.mem_cons.mp hmem).elim hne hi
  · exact ht.pages

/-- **The low mapping is removed** from any memory with both windows; the 386 may have set
    accessed and dirty bits in between. -/
theorem removeIdentity_shows {m : Cpu} {t : Tables} (ht : Window t [0, 0x300])
    (h : Shows m.mem t) (hcr : m.cr3 = BitVec.ofNat 32 PD_ADDR) :
    ∃ m', removeIdentity m = some m' ∧ m'.cr3 = BitVec.ofNat 32 PD_ADDR ∧
      Shows m'.mem (dropLow t) ∧
      ∀ i, i < 8 * PD_ADDR ∨ 8 * PD_ADDR + 32 ≤ i → bit m'.mem i = bit m.mem i := by
  have hlow : PD_ADDR + ENTRY_SIZE * addrToPde 0x00000000 = PD_ADDR := rfl
  have hwalk : walk m (BitVec.ofNat 32 PD_ADDR) = some ⟨BitVec.ofNat 32 PD_ADDR, true⟩ := by
    rw [ht.walk_eq h hcr]
    exact if_pos List.mem_cons_self
  have haddr : (BitVec.ofNat 32 PD_ADDR).toNat = PD_ADDR := rfl
  unfold removeIdentity
  rw [hlow, hwalk]
  dsimp only
  rw [if_pos rfl, haddr]
  have hbits : ∀ i, i < 8 * PD_ADDR ∨ 8 * PD_ADDR + 32 ≤ i →
      bit (pde.set m.mem PD_ADDR .p 0) i = bit m.mem i := fun i hi => Decl.bit_set_apart hi
  refine ⟨_, rfl, rfl, h.storePd (Nat.zero_lt_succ _) ?_ hbits, hbits⟩
  rw [← h.pd 0 (Nat.zero_lt_succ _)]
  unfold pdeAt
  simp (disch := decide) only [Decl.get_set_self, Decl.get_set_ne, Nat.mul_zero, Nat.add_zero]
  rfl

/-- **What the boot leaves** are the tables of Paging.lean, at every address. -/
theorem removeIdentity_setupPaging (mem : Ram) :
    ∃ m, removeIdentity (enablePaging mem) = some m ∧ m.cr3 = BitVec.ofNat 32 PD_ADDR ∧
      Shows m.mem setupPaging ∧ Window setupPaging [0x300] := by
  have hlow : addrToPde 0x00000000 = 0 := rfl
  have hdrop : dropLow enabledTables = setupPaging := by
    unfold dropLow enabledTables setupPaging
    rw [hlow]
  obtain ⟨m, hm, hcr, hshows, -⟩ :=
    removeIdentity_shows enabledTables_window (enablePaging_shows mem) rfl
  exact ⟨m, hm, hcr, hdrop ▸ hshows, hdrop ▸ enabledTables_window.dropLow⟩

/-- **The boot page tables map the kernel window and nothing else**: when paging is enabled the
    first 4 MB too, then no longer. -/
theorem boot_window (mem : Ram) (v : BitVec 32) :
    (walk (enablePaging mem) v =
      if v < 0x400000 then some ⟨v, true⟩
      else if 0xC0000000 ≤ v ∧ v < 0xC0400000 then some ⟨v - 0xC0000000, true⟩
      else none) ∧
    ∃ m, removeIdentity (enablePaging mem) = some m ∧
      walk m v = if 0xC0000000 ≤ v ∧ v < 0xC0400000 then some ⟨v - 0xC0000000, true⟩ else none := by
  have hshows := enablePaging_shows mem
  have hlow : addrToPde v.toNat = 0 ↔ v < 0x400000 := by
    unfold addrToPde
    rw [BitVec.lt_def]
    have hv := v.isLt
    change _ ↔ v.toNat < 0x400000
    omega
  have hhigh : addrToPde v.toNat = 0x300 ↔ 0xC0000000 ≤ v ∧ v < 0xC0400000 := by
    unfold addrToPde
    rw [BitVec.lt_def, BitVec.le_def]
    have hv := v.isLt
    change _ ↔ 0xC0000000 ≤ v.toNat ∧ v.toNat < 0xC0400000
    omega
  have hphys : addrToPde v.toNat = 0 → BitVec.ofNat 32 (v.toNat % 2 ^ 22) = v := by
    intro h
    have hlt : v.toNat < 2 ^ 22 := BitVec.lt_def.mp (hlow.mp h)
    rw [Nat.mod_eq_of_lt hlt, BitVec.ofNat_toNat, BitVec.setWidth_eq]
  have hphys' : addrToPde v.toNat = 0x300 →
      BitVec.ofNat 32 (v.toNat % 2 ^ 22) = v - 0xC0000000 := by
    intro h
    have hv := v.isLt
    have hbase : (0xC0000000 : BitVec 32).toNat = 0xC0000000 := rfl
    unfold addrToPde at h
    refine BitVec.eq_of_toNat_eq ?_
    rw [BitVec.toNat_ofNat, BitVec.toNat_sub, hbase]
    omega
  constructor
  · rw [enabledTables_window.walk_eq hshows rfl]
    by_cases h0 : addrToPde v.toNat = 0
    · rw [if_pos (h0 ▸ List.mem_cons_self), if_pos (hlow.mp h0), hphys h0]
    · rw [if_neg (mt hlow.mpr h0)]
      by_cases h1 : addrToPde v.toNat = 0x300
      · rw [if_pos (h1 ▸ List.mem_cons_of_mem 0 List.mem_cons_self), if_pos (hhigh.mp h1),
          hphys' h1]
      · have hmem : addrToPde v.toNat ∉ [0, 0x300] := by
          simp only [List.mem_cons, List.not_mem_nil, or_false, not_or]
          exact ⟨h0, h1⟩
        rw [if_neg hmem, if_neg (mt hhigh.mpr h1)]
  · obtain ⟨m, hm, hcr, hshows', hwindow⟩ := removeIdentity_setupPaging mem
    refine ⟨m, hm, ?_⟩
    rw [hwindow.walk_eq hshows' hcr]
    by_cases h1 : addrToPde v.toNat = 0x300
    · rw [if_pos (h1 ▸ List.mem_cons_self), if_pos (hhigh.mp h1), hphys' h1]
    · rw [if_neg fun hmem => h1 (List.mem_singleton.mp hmem), if_neg (mt hhigh.mpr h1)]

end LsePc.Bios.Boot
