/-
  File:      LsePc/Bios/FrameAlloc.lean
  Subject:   Histories of `alloc_frame` and `free_frame` (sw/bios/src/frame_alloc.c).

  `free_frame` counts the reference up, where it should count it down. A frame that comes
  back is on the free list with the count 2, and `alloc_frame` drops it from there.

  * `Heap`, `Heap.Step`: the allocator, the frames held, calls that free only those;
  * `Handed`: after `n - 2` calls of `alloc_frame` the frames below `n` have been handed
    out once, in order, and the list leads through freed ones to the frame `n`;
  * **results**: `alloc_exclusive`, the list ends and a frame handed out is not held;
    `none_lost_iff`, no frame is lost exactly as long as none is freed; `alloc_order`.
-/
import LsePc.Bios.Fs
import LsePc.Lib.Transition
import Mathlib.Data.List.Range
import Mathlib.Data.List.Perm.Subperm

namespace LsePc.Bios

open LsePc.Lib

/-! ## 1. Histories -/

/-- `frame_stats`: the frames used and the free ones. -/
def frameStats (m : Frames) : Nat × Nat :=
  let free := (walk 0 m.next NB_FRAMES m.firstFreeFrame).length
  (NB_FRAMES - free, free)

inductive FrameCall where
  | alloc
  | free (f : Nat)
  deriving DecidableEq, Repr

/-- The allocator, and the frames it has returned that have not been freed since. -/
structure Heap where
  m : Frames
  held : List Nat

/-- Only frames that are held are freed. A call that panics is no step. -/
inductive Heap.Step : Heap → FrameCall → Heap → Prop where
  | alloc {x : Heap} {f : Nat} {m : Frames} (h : allocFrame x.m = some (f, m)) :
      Heap.Step x .alloc ⟨m, f :: x.held⟩
  | free {x : Heap} {f : Nat} (h : f ∈ x.held) :
      Heap.Step x (.free f) ⟨freeFrame x.m f, x.held.erase f⟩

/-- After `init_frames`. -/
def initHeap : Heap := ⟨initFrames, []⟩

/-- The free list has the frames that are not held, and no other. -/
structure NoneLost (x : Heap) : Prop where
  list : ∃ l, Chain 0 x.m.next x.m.firstFreeFrame l ∧ l.Nodup ∧
    (∀ i, i ∈ l ↔ 2 ≤ i ∧ i < NB_FRAMES ∧ i ∉ x.held) ∧ ∀ i ∈ l, (x.m.frames i).refCnt = 0
  stats : (frameStats x.m).1 = 2 + x.held.length
  panic : allocFrame x.m = none → x.held.length = 254

/-! ## 2. What has been handed out -/

/-- The frames below `n` have been handed out; `dead` of them lie on the list. -/
structure Handed (x : Heap) (n : Nat) (dead : List Nat) : Prop where
  two_le : 2 ≤ n
  le : n ≤ 256
  list : Chain 0 x.m.next x.m.firstFreeFrame (dead ++ List.range' n (256 - n))
  dead : ∀ i ∈ dead, 2 ≤ i ∧ i < n ∧ (x.m.frames i).refCnt = 2
  nodup : x.held.Nodup
  held : ∀ i ∈ x.held, 2 ≤ i ∧ i < n ∧ (x.m.frames i).refCnt = 1
  freed : ∀ i, 2 ≤ i → i < n → i ∉ x.held → (x.m.frames i).refCnt = 2
  fresh : ∀ i, n ≤ i → i < 256 → (x.m.frames i).refCnt = 0

theorem handed_init : Handed initHeap 2 [] := by
  refine ⟨Nat.le_refl 2, by decide, ?_, nofun, List.nodup_nil, nofun, fun i h h' => ?_,
    fun i hi _ => ?_⟩
  · refine Chain.range (n := 256) (fun i _ hi => ?_) (fun i hi => ?_) 253 2 (by decide) rfl
    · exact Nat.mod_eq_of_lt hi
    · change (i + 1) % 256 = 0
      rw [hi]
  · omega
  · exact if_neg (by omega)

section
variable {x y : Heap} {n : Nat} {dead : List Nat}

/-- **The list ends**, after at most 254 frames. -/
theorem Handed.length_le (h : Handed x n dead) :
    (dead ++ List.range' n (256 - n)).length ≤ 254 := by
  have hsub : dead ++ List.range' n (256 - n) ⊆ List.range' 2 254 := by
    intro i hi
    have h2 := h.two_le
    have hle := h.le
    rw [List.mem_range'_1]
    rcases List.mem_append.mp hi with hd | hr
    · obtain ⟨hlo, hlt, -⟩ := h.dead i hd
      omega
    · obtain ⟨hlo, hhi⟩ := List.mem_range'_1.mp hr
      omega
  have := (List.subperm_of_subset h.list.nodup hsub).length_le
  rwa [List.length_range'] at this

/-- What a loop over the list visits. -/
theorem Handed.walk (h : Handed x n dead) : Lib.walk 0 x.m.next NB_FRAMES x.m.firstFreeFrame =
    dead ++ List.range' n (256 - n) :=
  h.list.walk (Nat.le_trans h.length_le (by decide))

theorem range_lt (hn : n < 256) :
    List.range' n (256 - n) = n :: List.range' (n + 1) (256 - (n + 1)) := by
  rw [show 256 - n = 256 - (n + 1) + 1 by omega, List.range'_succ]

/-- **`alloc_frame` drops what was freed** and takes the frame `n`, if there is one. -/
theorem Handed.alloc_eq (h : Handed x n dead) : allocFrame x.m = if n < 256 then
    some (n, { firstFreeFrame := x.m.next n
               frames := Function.update x.m.frames n { x.m.frames n with refCnt := 1 } })
    else none := by
  have hdead : dead.find? (fun i => (x.m.frames i).refCnt == 0) = none := by
    refine List.find?_eq_none.mpr fun i hi => ?_
    rw [(h.dead i hi).2.2]
    decide
  unfold allocFrame
  rw [h.walk, List.find?_append, hdead, Option.none_or]
  by_cases hn : n < 256
  · have h0 := h.fresh n (Nat.le_refl n) hn
    rw [if_pos hn, range_lt hn, List.find?_cons_of_pos (by rw [h0]; rfl)]
    dsimp only
    rw [h0]
  · rw [if_neg hn, show 256 - n = 0 by omega]
    rfl

theorem Handed.alloc (h : Handed x n dead) {f : Nat} {m : Frames}
    (ha : allocFrame x.m = some (f, m)) :
    f = n ∧ n < 256 ∧ Handed ⟨m, f :: x.held⟩ (n + 1) [] := by
  rw [h.alloc_eq] at ha
  split at ha
  · rename_i hn
    cases ha
    have h2 := h.two_le
    have hnext : (Frames.mk (x.m.next n) (Function.update x.m.frames n
        { x.m.frames n with refCnt := 1 })).next = x.m.next := by
      funext i
      unfold Frames.next
      dsimp only
      rw [Function.update_apply]
      split
      · rename_i e
        rw [e]
      · rfl
    have hcnt : ∀ i, i ≠ n → (Function.update x.m.frames n
        { x.m.frames n with refCnt := 1 } i).refCnt = (x.m.frames i).refCnt := by
      intro i hi
      rw [Function.update_of_ne hi]
    have hlist := h.list
    rw [range_lt hn] at hlist
    refine ⟨rfl, hn, by omega, hn, ?_, nofun, ?_, fun i hi => ?_, fun i hlo hhi hi => ?_,
      fun i hlo hhi => ?_⟩
    · rw [hnext]
      exact (Chain.cons_iff.mp hlist.split).2.2
    · exact List.nodup_cons.mpr ⟨fun hm => Nat.lt_irrefl n (h.held n hm).2.1, h.nodup⟩
    · rcases List.mem_cons.mp hi with rfl | hi
      · refine ⟨h2, Nat.lt_succ_self i, ?_⟩
        dsimp only
        rw [Function.update_self]
      · obtain ⟨hlo, hlt, hc⟩ := h.held i hi
        exact ⟨hlo, by omega, (hcnt i (by omega)).trans hc⟩
    · have hne : i ≠ n := fun e => hi (e ▸ List.mem_cons_self)
      exact (hcnt i hne).trans
        (h.freed i hlo (by omega) fun hm => hi (List.mem_cons_of_mem n hm))
    · exact (hcnt i (by omega)).trans (h.fresh i (by omega) hhi)
  · cases ha

theorem Handed.free (h : Handed x n dead) {f : Nat} (hf : f ∈ x.held) :
    Handed ⟨freeFrame x.m f, x.held.erase f⟩ n (f :: dead) := by
  obtain ⟨hlo, hlt, hc⟩ := h.held f hf
  have hcnt : ((freeFrame x.m f).frames f).refCnt = 2 := by
    change (Function.update x.m.frames f _ f).refCnt = 2
    rw [Function.update_self, hc]
  have hcnt' : ∀ i, i ≠ f → ((freeFrame x.m f).frames i).refCnt = (x.m.frames i).refCnt := by
    intro i hi
    change (Function.update x.m.frames f _ i).refCnt = _
    rw [Function.update_of_ne hi]
  have hnext : (freeFrame x.m f).next = Function.update x.m.next f x.m.firstFreeFrame := by
    funext i
    change (Function.update x.m.frames f _ i).next = _
    rw [Function.update_apply, Function.update_apply]
    split
    · rfl
    · rfl
  -- a frame that is held is not on the list
  have hout : f ∉ dead ++ List.range' n (256 - n) := by
    intro hm
    rcases List.mem_append.mp hm with hd | hr
    · have := (h.dead f hd).2.2
      omega
    · have := (List.mem_range'_1.mp hr).1
      omega
  refine ⟨h.two_le, h.le, ?_, fun i hi => ?_, h.nodup.erase f, fun i hi => ?_,
    fun i hlo' hhi hi => ?_, fun i hlo' hhi => ?_⟩
  · rw [hnext]
    change Chain 0 _ f (f :: (dead ++ _))
    refine .cons (Nat.ne_of_gt (Nat.lt_of_lt_of_le Nat.two_pos hlo)) ?_
    rw [Function.update_self]
    exact h.list.update hout
  · rcases List.mem_cons.mp hi with rfl | hi
    · exact ⟨hlo, hlt, hcnt⟩
    · obtain ⟨hlo', hlt', hc'⟩ := h.dead i hi
      have hne : i ≠ f := fun e => by rw [e] at hc'; omega
      exact ⟨hlo', hlt', (hcnt' i hne).trans hc'⟩
  · obtain ⟨hne, hi⟩ := h.nodup.mem_erase_iff.mp hi
    obtain ⟨hlo', hlt', hc'⟩ := h.held i hi
    exact ⟨hlo', hlt', (hcnt' i hne).trans hc'⟩
  · by_cases hne : i = f
    · rw [hne]
      exact hcnt
    · have hnot : i ∉ x.held := fun hm => hi (h.nodup.mem_erase_iff.mpr ⟨hne, hm⟩)
      exact (hcnt' i hne).trans (h.freed i hlo' hhi hnot)
  · exact (hcnt' i (by omega)).trans (h.fresh i hlo' hhi)

end

/-! ## 3. All histories -/

section
variable {x y : Heap} {n : Nat} {dead : List Nat} {cs : List FrameCall}

/-- The calls that give a frame back. -/
def frees (cs : List FrameCall) : Nat := cs.countP (· ≠ .alloc)

theorem frees_alloc : frees (.alloc :: cs) = frees cs := List.countP_cons_of_neg (by simp)

theorem frees_free (f : Nat) : frees (.free f :: cs) = frees cs + 1 :=
  List.countP_cons_of_pos (by simp)

theorem handed_path (hp : Path Heap.Step x cs y) (h : Handed x n dead) :
    ∃ dead', Handed y (n + cs.count .alloc) dead' ∧
      y.held.length + frees cs = x.held.length + cs.count .alloc := by
  induction hp generalizing n dead with
  | nil => exact ⟨dead, h, rfl⟩
  | @cons x z y c cs hs _ ih =>
    cases hs with
    | alloc ha =>
      obtain ⟨-, -, h'⟩ := h.alloc ha
      obtain ⟨dead', h'', hlen⟩ := ih h'
      rw [List.length_cons] at hlen
      refine ⟨dead', ?_, ?_⟩
      · rw [List.count_cons_self, ← Nat.add_assoc, Nat.add_right_comm]
        exact h''
      · rw [frees_alloc, List.count_cons_self]
        omega
    | @free f hf =>
      obtain ⟨dead', h'', hlen⟩ := ih (h.free hf)
      have hpos := List.length_pos_of_mem hf
      have hne : FrameCall.free f ≠ .alloc := by simp
      rw [List.length_erase_of_mem hf] at hlen
      refine ⟨dead', ?_, ?_⟩
      · rw [List.count_cons_of_ne hne]
        exact h''
      · rw [frees_free, List.count_cons_of_ne hne]
        omega

theorem handed_reach (h : Reach (· = initHeap) Heap.Step x) : ∃ n dead, Handed x n dead := by
  refine h.invariant (I := fun x => ∃ n dead, Handed x n dead) ?_ ?_
  · intro x he
    obtain rfl := he
    exact ⟨2, [], handed_init⟩
  · intro x c y h hs
    obtain ⟨n, dead, h⟩ := h
    cases hs with
    | alloc ha => exact ⟨n + 1, [], (h.alloc ha).2.2⟩
    | free hf => exact ⟨n, _, h.free hf⟩

/-- As many calls of `alloc_frame` in a row as there are frames. -/
theorem exists_allocs {k : Nat} (hk : k ≤ 254) :
    ∃ x, Path Heap.Step initHeap (List.replicate k .alloc) x := by
  induction k with
  | zero => exact ⟨initHeap, .nil _⟩
  | succ k ih =>
    obtain ⟨x, hp⟩ := ih (Nat.le_of_succ_le hk)
    obtain ⟨dead, h, -⟩ := handed_path hp handed_init
    have ha := h.alloc_eq
    rw [List.count_replicate_self, if_pos (by omega)] at ha
    rw [List.replicate_succ']
    exact ⟨_, hp.append (.cons (.alloc ha) (.nil _))⟩

/-- **The frames come in order**: the first is 2, and none comes twice. -/
theorem alloc_order (hp : Path Heap.Step initHeap cs x) {f : Nat} {m : Frames}
    (ha : allocFrame x.m = some (f, m)) : f = 2 + cs.count .alloc := by
  obtain ⟨dead, h, -⟩ := handed_path hp handed_init
  exact (h.alloc ha).1

/-- **Frames are exclusive**: the loops over the free list end, and `alloc_frame` returns no
    frame of the BIOS and none that is held. -/
theorem alloc_exclusive (h : Reach (· = initHeap) Heap.Step x) :
    (∃ l, Chain 0 x.m.next x.m.firstFreeFrame l ∧ l.length ≤ 254 ∧
      walk 0 x.m.next NB_FRAMES x.m.firstFreeFrame = l) ∧
    ∀ f m, allocFrame x.m = some (f, m) → f < NB_FRAMES ∧ f ≠ 0 ∧ f ≠ 1 ∧ f ∉ x.held := by
  obtain ⟨n, dead, hh⟩ := handed_reach h
  refine ⟨⟨_, hh.list, hh.length_le, hh.walk⟩, fun f m ha => ?_⟩
  obtain ⟨rfl, hlt, -⟩ := hh.alloc ha
  have h2 := hh.two_le
  exact ⟨hlt, by omega, by omega, fun hm => Nat.lt_irrefl f (hh.held f hm).2.1⟩

/-- With the frame 2 held, the next one is another. -/
theorem alloc_exclusive_second : ∃ m m', allocFrame initFrames = some (2, m) ∧
    allocFrame m = some (3, m') ∧ 3 ∉ [2] := by
  obtain ⟨m, hm⟩ : ∃ m, allocFrame initFrames = some (2, m) := ⟨_, rfl⟩
  have hs : Heap.Step initHeap .alloc ⟨m, [2]⟩ := .alloc hm
  obtain ⟨-, -, hh⟩ := handed_init.alloc hm
  have ha := hh.alloc_eq
  rw [if_pos (by decide)] at ha
  exact ⟨m, _, hm, ha, ((alloc_exclusive (.step (.init rfl) hs)).2 3 _ ha).2.2.2⟩

/-- As many frames held as handed out: all of them. -/
theorem Handed.all_held (h : Handed x n dead) (hlen : n ≤ 2 + x.held.length) {i : Nat}
    (hlo : 2 ≤ i) (hhi : i < n) : i ∈ x.held := by
  have hsub : x.held ⊆ List.range' 2 (n - 2) := by
    intro j hj
    obtain ⟨h1, h2, -⟩ := h.held j hj
    exact List.mem_range'_1.mpr ⟨h1, by omega⟩
  have hperm := (List.subperm_of_subset h.nodup hsub).perm_of_length_le (by
    rw [List.length_range']
    omega)
  exact hperm.mem_iff.mpr (List.mem_range'_1.mpr ⟨hlo, by omega⟩)

/-- More frames handed out than held: one of them has been freed. -/
theorem exists_freed (hlen : 2 + x.held.length < n) : ∃ i, 2 ≤ i ∧ i < n ∧ i ∉ x.held := by
  by_contra hno
  have hsub : List.range' 2 (n - 2) ⊆ x.held := by
    intro i hi
    obtain ⟨hlo, hhi⟩ := List.mem_range'_1.mp hi
    by_contra hni
    exact hno ⟨i, hlo, by omega, hni⟩
  have := (List.subperm_of_subset List.nodup_range' hsub).length_le
  rw [List.length_range'] at this
  omega

/-- With all of them held, the list holds the others. -/
theorem Handed.none_lost (h : Handed x n dead) (hlen : n = 2 + x.held.length) : NoneLost x := by
  have h2 := h.two_le
  have hle := h.le
  have hheld : ∀ i, 2 ≤ i → i < n → i ∈ x.held := fun i hlo hhi =>
    h.all_held (Nat.le_of_eq hlen) hlo hhi
  have hdead : dead = [] := by
    refine List.eq_nil_iff_forall_not_mem.mpr fun i hi => ?_
    obtain ⟨hlo, hhi, hc⟩ := h.dead i hi
    have := (h.held i (hheld i hlo hhi)).2.2
    omega
  subst hdead
  have hlist := h.list
  have hwalk := h.walk
  rw [List.nil_append] at hlist hwalk
  refine ⟨⟨_, hlist, hlist.nodup, fun i => ?_, fun i hi => ?_⟩, ?_, fun hnone => ?_⟩
  · rw [List.mem_range'_1]
    constructor
    · intro h
      obtain ⟨hlo, hhi⟩ := h
      exact ⟨by omega, by unfold NB_FRAMES; omega, fun hm => absurd (h.held i hm).2.1 (by omega)⟩
    · intro h
      obtain ⟨hlo, hhi, hi⟩ := h
      have hni : ¬ i < n := fun hlt => hi (hheld i hlo hlt)
      unfold NB_FRAMES at hhi
      omega
  · obtain ⟨hlo, hhi⟩ := List.mem_range'_1.mp hi
    exact h.fresh i hlo (by omega)
  · change NB_FRAMES - (Lib.walk 0 x.m.next NB_FRAMES x.m.firstFreeFrame).length = _
    rw [hwalk, List.length_range', NB_FRAMES]
    omega
  · rw [h.alloc_eq] at hnone
    split at hnone
    · cases hnone
    · omega

/-- **No frame is lost as long as none is freed**, and only so long. -/
theorem none_lost_iff (hp : Path Heap.Step initHeap cs x) :
    NoneLost x ↔ ∀ c ∈ cs, c = .alloc := by
  obtain ⟨dead, h, hlen⟩ := handed_path hp handed_init
  have hfrees : (∀ c ∈ cs, c = .alloc) ↔ frees cs = 0 := by
    simp [frees, List.countP_eq_zero]
  rw [hfrees]
  change _ + _ = 0 + _ at hlen
  generalize hn : 2 + cs.count .alloc = n at h
  constructor
  · intro hnone
    by_contra hpos
    -- more were handed out than are held: one of them was freed
    obtain ⟨i, hlo, hhi, hi⟩ : ∃ i, 2 ≤ i ∧ i < n ∧ i ∉ x.held := exists_freed (by omega)
    obtain ⟨l, -, -, hmem, hzero⟩ := hnone.list
    have hil := (hmem i).mpr ⟨hlo, Nat.lt_of_lt_of_le hhi h.le, hi⟩
    have hc := h.freed i hlo hhi hi
    rw [hzero i hil] at hc
    cases hc
  · exact fun hzero => h.none_lost (by omega)

/-- After one call of `alloc_frame`. -/
theorem none_lost_alloc : ∃ m, Path Heap.Step initHeap [.alloc] ⟨m, [2]⟩ ∧ NoneLost ⟨m, [2]⟩ := by
  obtain ⟨m, hm⟩ : ∃ m, allocFrame initFrames = some (2, m) := ⟨_, rfl⟩
  have hp : Path Heap.Step initHeap [.alloc] ⟨m, [2]⟩ := .cons (.alloc hm) (.nil _)
  exact ⟨m, hp, (none_lost_iff hp).mpr (by simp)⟩

/-- The frame 2, handed out and freed, is on the list with a reference. -/
theorem lost_freed : ∃ x : Heap, Path Heap.Step initHeap [.alloc, .free 2] x ∧ ¬ NoneLost x := by
  obtain ⟨m, hm⟩ : ∃ m, allocFrame initFrames = some (2, m) := ⟨_, rfl⟩
  have hp : Path Heap.Step initHeap [.alloc, .free 2] ⟨freeFrame m 2, []⟩ :=
    .cons (.alloc hm) (.cons (.free List.mem_cons_self) (.nil _))
  refine ⟨_, hp, fun hnone => ?_⟩
  obtain ⟨dead, hh, -⟩ := handed_path hp handed_init
  obtain ⟨l, -, -, hmem, hzero⟩ := hnone.list
  have hl := hzero 2 ((hmem 2).mpr ⟨Nat.le_refl 2, by decide, List.not_mem_nil⟩)
  have hc := hh.freed 2 (Nat.le_refl 2) (by decide) List.not_mem_nil
  rw [hl] at hc
  cases hc

end

end LsePc.Bios
