import Xv6.Vm.Space

/-
  What virtual addresses lead to.

  `view m f va` is the byte at `va` under the map `f`. It
  stays as long as the entry and the frame stay. `Resized`
  says what a change of the size of user memory leaves.
  `Contents` describes user memory by a function from
  virtual addresses, on which a write to a frame acts as a
  write.

  The rules used by name are:
    * `Keeps.view`
    * `Table.resized`
    * `Contents.resized`
-/

namespace Xv6.Vm

/- The byte at a virtual address. -/
def view (m : Memory) (f : Nat → Option Nat) (va : Nat) : Option UInt8 :=
  (f (va / PGSIZE)).map fun w => m (PTE2PA w + va % PGSIZE)

section

variable {L : Layout} {s s' : Kmem} {pt n : Nat} {f g : Nat → Option Nat} {R T : Multiset Nat}
variable {m m' : Memory}

theorem view_of_some {va w : Nat} (h : f (va / PGSIZE) = some w) :
    view m f va = some (m (PTE2PA w + va % PGSIZE)) := by
  unfold view
  rw [h, Option.map_some]

theorem Keeps.view (hKeeps : Keeps R m m') (hPages : ∀ p ∈ R, IsPage p)
    (hIn : ∀ p ∈ frames f 0 n, p ∈ R) {va : Nat} (hva : va / PGSIZE < n)
    (hSame : g (va / PGSIZE) = f (va / PGSIZE)) : Vm.view m' g va = Vm.view m f va := by
  unfold Vm.view
  rw [hSame]
  cases hw : f (va / PGSIZE) with
  | none => rfl
  | some w =>
    have hFrame := hIn _ (mem_frames hva hw)
    rw [Option.map_some, Option.map_some, hKeeps]
    rw [pgrounddown_add (hPages _ hFrame).aligned (Nat.mod_lt _ (by decide))]
    exact hFrame

theorem ZeroAt.view {va : Nat} (h : ZeroAt m f (va / PGSIZE)) : Vm.view m f va = some 0 := by
  rcases h with ⟨w, hw, hZero⟩
  rw [view_of_some hw, hZero _ (Nat.mod_lt _ (by decide))]

/-
  User memory had `n` pages and has `n'` now: the pages of
  both have the same entries and bytes, and new pages are
  zero.
-/
structure Resized (m : Memory) (f : Nat → Option Nat) (n : Nat) (m' : Memory) (g : Nat → Option Nat)
    (n' : Nat) : Prop where
  entries : ∀ v, v < n → v < n' → g v = f v
  bytes : ∀ va, va / PGSIZE < n → va / PGSIZE < n' → Vm.view m' g va = Vm.view m f va
  zero : ∀ v, n ≤ v → v < n' → ZeroAt m' g v

theorem Resized.refl : Resized m f n m f n := by
  refine ⟨fun _ _ _ => rfl, fun _ _ _ => rfl, ?_⟩
  intro v hLow hHigh
  omega

theorem Table.resized {n' : Nat} (h : Table L s pt f (frames f 0 n + T))
    (hKeeps : Keeps (frames f 0 (min n n') + T) s.mem s'.mem)
    (hSame : ∀ v, v < n → v < n' → g v = f v) (hZero : ∀ v, n ≤ v → v < n' → ZeroAt s'.mem g v) :
    Resized s.mem f n s'.mem g n' := by
  refine ⟨hSame, ?_, hZero⟩
  intro va hOld hNew
  have hFrames : Keeps (frames f 0 (min n n')) s.mem s'.mem :=
    hKeeps.mono fun p hp => Multiset.mem_add.mpr (.inl hp)
  refine hFrames.view ?_ (fun _ hp => hp) (show va / PGSIZE < min n n' by omega) (hSame _ hOld hNew)
  intro p hp
  refine h.isPage_rest ?_
  exact frames_subset (Nat.min_le_left n n') p (Multiset.mem_add.mpr (.inl hp))

---- Contents Of User Memory

/- The first `n` pages hold the bytes of `c`, which is zero above them. -/
structure Contents (m : Memory) (f : Nat → Option Nat) (n : Nat) (c : Memory) : Prop where
  bytes : ∀ va, va / PGSIZE < n → Vm.view m f va = some (c va)
  zero : ∀ va, n ≤ va / PGSIZE → c va = 0

variable {c : Memory}

/- More pages hold zero bytes, as `c` does there. -/
theorem Contents.resized {n' : Nat} (h : Contents m f n c) (hResized : Resized m f n m' g n')
    (hLe : n ≤ n') : Contents m' g n' c := by
  refine ⟨?_, ?_⟩
  · intro va hva
    by_cases hOld : va / PGSIZE < n
    · rw [hResized.bytes va hOld hva]
      exact h.bytes va hOld
    · have hNew : n ≤ va / PGSIZE := by omega
      rw [(hResized.zero _ hNew hva).view, h.zero va hNew]
  · intro va hva
    exact h.zero va (by omega)

/- What `uvmalloc` leaves. -/
theorem Contents.grown {a b : Nat} (hc : Contents s.mem f (pageCount a) c)
    (h : Table L s pt f (frames f 0 (pageCount a) + T)) (hLe : a ≤ b)
    (hKeeps : Keeps (frames f 0 (pageCount a) + T) s.mem s'.mem)
    (hSame : ∀ v, v < pageCount a ∨ USERTOP ≤ v → g v = f v)
    (hZero : ∀ v, pageCount a ≤ v → v < pageCount b → ZeroAt s'.mem g v) :
    Contents s'.mem g (pageCount b) c := by
  have hMono := pageCount_mono hLe
  refine hc.resized ?_ hMono
  refine h.resized ?_ (fun v hv _ => hSame v (.inl hv)) hZero
  rw [Nat.min_eq_left hMono]
  exact hKeeps

theorem Contents.sameFrames (h : Contents m f n c)
    (hSame : ∀ v < n, (g v).map PTE2PA = (f v).map PTE2PA) : Contents m g n c := by
  refine ⟨?_, h.zero⟩
  intro va hva
  rw [← h.bytes va hva]
  have hFrame := hSame _ hva
  unfold Vm.view
  cases hf : f (va / PGSIZE) with
  | none =>
    rw [hf] at hFrame
    rw [Option.map_eq_none_iff.mp hFrame]
  | some w =>
    rw [hf, Option.map_some] at hFrame
    rcases Option.map_eq_some_iff.mp hFrame with ⟨w', hg, hPa⟩
    rw [hg, Option.map_some, Option.map_some, hPa]

theorem Contents.keeps (h : Contents m f n c) (hKeeps : Keeps R m m') (hPages : ∀ p ∈ R, IsPage p)
    (hIn : ∀ p ∈ frames f 0 n, p ∈ R) : Contents m' f n c := by
  refine ⟨?_, h.zero⟩
  intro va hva
  rw [hKeeps.view hPages hIn hva rfl]
  exact h.bytes va hva

theorem Table.frame_ne {u v w w' : Nat} (h : Table L s pt f (frames f 0 n + T)) (hu : u < n)
    (hv : v < n) (hNe : u ≠ v) (hw : f u = some w) (hw' : f v = some w') :
    PTE2PA w ≠ PTE2PA w' := by
  intro hEq
  have hNodup := (Multiset.nodup_add.mp h.rest_nodup).1
  unfold frames at hNodup
  rw [← Finset.add_sum_erase _ _ (Finset.mem_range.mpr hu)] at hNodup
  have hDisjoint := (Multiset.nodup_add.mp hNodup).2.2
  have hIn : PTE2PA w ∈ frameAt f (0 + u) := by
    rw [Nat.zero_add, frameAt, hw, Option.elim_some, Multiset.mem_singleton]
  refine Multiset.disjoint_left.mp hDisjoint hIn ?_
  refine Multiset.mem_sum.mpr ⟨v, Finset.mem_erase.mpr ⟨hNe.symm, Finset.mem_range.mpr hv⟩, ?_⟩
  rw [Nat.zero_add, frameAt, hw', Option.elim_some, Multiset.mem_singleton, hEq]

/- A write inside the frame of one page. -/
theorem Contents.write {v w o : Nat} {bytes : List UInt8} (hc : Contents s.mem f n c)
    (h : Table L s pt f (frames f 0 n + T)) (hv : v < n) (hw : f v = some w)
    (ho : o + bytes.length ≤ PGSIZE) :
    Contents (s.mem.write (PTE2PA w + o) bytes) f n (c.write (v * PGSIZE + o) bytes) := by
  refine ⟨?_, ?_⟩
  · intro va hva
    have hOld := hc.bytes va hva
    by_cases hPage : va / PGSIZE = v
    · -- The page that is written.
      have hEntry : f (va / PGSIZE) = some w := by
        rw [hPage]
        exact hw
      rw [view_of_some hEntry] at hOld ⊢
      have hAddr : va = v * PGSIZE + va % PGSIZE := by
        rw [← hPage]
        exact (Nat.div_add_mod' va PGSIZE).symm
      exact congrArg some (Memory.write_shift _ _ _ (by omega) (Option.some.inj hOld))
    · rcases Option.map_eq_some_iff.mp hOld with ⟨w', hw', _⟩
      have hNe := h.frame_ne hva hv hPage hw' hw
      have hAligned := pte2pa_aligned w
      have hAligned' := pte2pa_aligned w'
      have hDiv := Nat.div_add_mod' va PGSIZE
      rw [view_of_some hw'] at hOld ⊢
      rw [Memory.write_other _ _ ?_, Memory.write_other _ _ ?_]
      · exact hOld
      · unfold PGSIZE at *
        omega
      · unfold PGSIZE at *
        omega
  · intro va hva
    rw [Memory.write_other _ _ ?_]
    · exact hc.zero va hva
    · unfold PGSIZE at *
      omega

end

end Xv6.Vm
