/-
  File:      LsePc/Bios/Strings.lean
  Subject:   string.c on memory that holds a string.

  * `Holds m a`: from some address on there is the string `a` with its NUL;
  * `HoldsTo n m a`: so it looks as long as only `n` bytes are read, as in a field that may
    be too short for the NUL;
  * what `strcmp`, `strncmp` and `strncpy` do there.
-/
import LsePc.Bios.Fs

namespace LsePc.Bios

variable {a b : List UInt8} {m m' : Mem} {n : Nat}

/-- Memory that holds a string and its NUL. -/
def Holds (m : Mem) (a : List UInt8) : Prop := ∀ i ≤ a.length, m i = cstr a i

/-- The first `n` bytes of it. -/
def HoldsTo (n : Nat) (m : Mem) (a : List UInt8) : Prop := ∀ i < n, i ≤ a.length → m i = cstr a i

theorem Holds.to (h : Holds m a) (n : Nat) : HoldsTo n m a := fun i _ hi => h i hi

theorem holds_cstr (a : List UInt8) : Holds (cstr a) a := fun _ _ => rfl

theorem Holds.tail {c : UInt8} (h : Holds m (c :: a)) : Holds (fun i => m (i + 1)) a :=
  fun i hi => h (i + 1) (Nat.succ_le_succ hi)

theorem Holds.head {c : UInt8} (h : Holds m (c :: a)) : m 0 = c := h 0 (Nat.zero_le _)

theorem Holds.nil (h : Holds m []) : m 0 = 0 := h 0 (Nat.le_refl 0)

theorem HoldsTo.tail {c : UInt8} (h : HoldsTo (n + 1) m (c :: a)) :
    HoldsTo n (fun i => m (i + 1)) a :=
  fun i hi hlen => h (i + 1) (Nat.succ_lt_succ hi) (Nat.succ_le_succ hlen)

theorem HoldsTo.head (h : HoldsTo (n + 1) m a) : m 0 = cstr a 0 :=
  h 0 (Nat.zero_lt_succ n) (Nat.zero_le _)

theorem toNat_sub_ne {c c' : UInt8} (h : c ≠ c') : ((c.toNat : Int) - c'.toNat) ≠ 0 := by
  intro h0
  exact h (UInt8.toNat_inj.mp (by omega))

theorem strcmp_eq_zero (h : Holds m a) (ha : 0 ∉ a) (hb : 0 ∉ b) : strcmp m b = 0 ↔ a = b := by
  induction b generalizing a m with
  | nil =>
    cases a with
    | nil => simp [strcmp, h.nil]
    | cons c a =>
      have hc : c ≠ 0 := fun e => ha (e ▸ List.mem_cons_self)
      have hn := toNat_sub_ne hc
      simp only [strcmp, h.head, reduceCtorEq, iff_false]
      simpa using hn
  | cons c' b ih =>
    have hc' : c' ≠ 0 := fun e => hb (e ▸ List.mem_cons_self)
    cases a with
    | nil =>
      rw [strcmp, h.nil, if_neg hc'.symm]
      exact iff_of_false (toNat_sub_ne hc'.symm) nofun
    | cons c a =>
      rw [strcmp, h.head]
      split
      · rename_i e
        rw [ih h.tail (fun hm => ha (List.mem_cons_of_mem _ hm))
          (fun hm => hb (List.mem_cons_of_mem _ hm)), e]
        simp
      · rename_i e
        refine iff_of_false (toNat_sub_ne e) fun hab => e (List.cons.inj hab).1

/-- **What `strncmp` sees** of two strings is their first `n` characters. -/
theorem strncmp_eq_zero (h : HoldsTo n m a) (h' : HoldsTo n m' b) (ha : 0 ∉ a) (hb : 0 ∉ b) :
    strncmp m m' n = 0 ↔ a.take n = b.take n := by
  induction n generalizing a b m m' with
  | zero => exact iff_of_true rfl rfl
  | succ n ih =>
    rw [strncmp, h.head, h'.head]
    cases a with
    | nil =>
      cases b with
      | nil => simp [cstr]
      | cons c b =>
        have hc : (0 : UInt8) ≠ c := fun e => hb (e ▸ List.mem_cons_self)
        rw [if_pos (show cstr [] 0 ≠ cstr (c :: b) 0 from hc)]
        exact iff_of_false (toNat_sub_ne hc) nofun
    | cons c a =>
      have hc : c ≠ 0 := fun e => ha (e ▸ List.mem_cons_self)
      cases b with
      | nil =>
        rw [if_pos (show cstr (c :: a) 0 ≠ cstr [] 0 from hc)]
        exact iff_of_false (toNat_sub_ne hc) nofun
      | cons c' b =>
        by_cases e : c = c'
        · subst e
          rw [if_neg (show ¬ cstr (c :: a) 0 ≠ cstr (c :: b) 0 from fun hne => hne rfl),
            if_neg (show ¬ cstr (c :: a) 0 = 0 from hc), List.take_succ_cons, List.take_succ_cons,
            List.cons_inj_right]
          exact ih h.tail h'.tail (fun hm => ha (List.mem_cons_of_mem _ hm))
            (fun hm => hb (List.mem_cons_of_mem _ hm))
        · rw [if_pos (show cstr (c :: a) 0 ≠ cstr (c' :: b) 0 from e)]
          exact iff_of_false (toNat_sub_ne e) fun hab => e (List.cons.inj hab).1

theorem copied_of_holds (h : Holds m a) (ha : 0 ∉ a) : copied m n = min a.length n := by
  induction n generalizing a m with
  | zero => exact (Nat.min_zero _).symm
  | succ n ih =>
    cases a with
    | nil => simp [copied, h.nil]
    | cons c a =>
      have hc : c ≠ 0 := fun e => ha (e ▸ List.mem_cons_self)
      rw [copied, h.head, if_neg hc, ih h.tail fun hm => ha (List.mem_cons_of_mem _ hm),
        List.length_cons]
      omega

/-- **`strncpy`** of a string, cut where the field ends. -/
theorem strncpy_holdsTo (h : Holds m a) (ha : 0 ∉ a) (dest : Mem) :
    HoldsTo n (strncpy dest m n) a := by
  intro i hi hlen
  unfold strncpy
  rw [copied_of_holds h ha]
  split
  · exact h i hlen
  · have hend : i = a.length := by omega
    subst hend
    simp [cstr]

/-- `strncpy` of a string and its NUL. -/
theorem strncpy_holds (h : Holds m a) (ha : 0 ∉ a) (dest : Mem) :
    Holds (strncpy dest m (a.length + 1)) a :=
  fun i hi => strncpy_holdsTo h ha dest i (Nat.lt_succ_of_le hi) hi

end LsePc.Bios
