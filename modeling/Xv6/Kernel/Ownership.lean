import Xv6.Kernel.Boot

/-
  Who owns a physical page. In every state of a run each
  page of the machine has exactly one owner.

  Key definitions include:
    * `Owner`
    * `Owns`

  The main result is `page_has_one_owner`.
-/

namespace Xv6.Kernel

open Vm

---- Owners

/-
  The owners of pages: the free list, the page table of a
  process, a virtual page of a process, the trapframe of a
  process, the pipe in the page, and boot.
-/
inductive Owner where
  | freelist
  | pagetable (i : Nat)
  | user (i v : Nat)
  | trapframe (i : Nat)
  | pipe
  | boot

/- The process of a slot is there. -/
def Live (s : State) (i : Nat) : Prop := i < NPROC ∧ (s.proc i).state ≠ .unused

/- The pages on the free list, which stops at `0`. -/
def Freelist (s : State) (l : List Nat) : Prop := Chain s.kmem.mem s.kmem.freelist l ∧ 0 ∉ l

/- The page `p` belongs to an owner. -/
def Owns (boot : Multiset Nat) (s : State) (p : Nat) : Owner → Prop
| .freelist => ∃ l, Freelist s l ∧ p ∈ l
| .pagetable i => Live s i ∧ p ∈ tree s.kmem.mem (s.proc i).pagetable
| .user i v =>
  Live s i ∧ v < USERTOP ∧ ∃ w, leaf s.kmem.mem (s.proc i).pagetable v = some w ∧ PTE2PA w = p
| .trapframe i => Live s i ∧ (s.proc i).trapframe = p
| .pipe => ∃ f < NFILE, (s.file f).type = .pipe ∧ (s.file f).pipe = p
| .boot => p ∈ boot

---- Pages With Their Owners

/- The frames of the user pages of a process. -/
def userShares (f : Nat → Option Nat) (i n : Nat) : Multiset (Owner × Nat) :=
  ∑ v ∈ Finset.range n, (frameAt f (0 + v)).map (Prod.mk (.user i v))

/- The pages of a process. -/
def procShares (m : Memory) (p : Proc) (i : Nat) : Multiset (Owner × Nat) :=
  if p.state = .unused then
    0
  else
    (.trapframe i, p.trapframe) ::ₘ
      ((tree m p.pagetable).map (Prod.mk (.pagetable i)) +
        userShares (leaf m p.pagetable) i (pageCount p.sz))

/- Every page with its owner; `l` is the free list. -/
def shares (l : List Nat) (boot : Multiset Nat) (s : State) : Multiset (Owner × Nat) :=
  (l : Multiset Nat).map (Prod.mk .freelist) +
    ((∑ i ∈ Finset.range NPROC, procShares s.kmem.mem (s.proc i) i) +
      ((pipePages s.file).val.map (Prod.mk .pipe) + boot.map (Prod.mk .boot)))

theorem map_snd_mk (o : Owner) (M : Multiset Nat) : (M.map (Prod.mk o)).map Prod.snd = M := by
  rw [Multiset.map_map]
  exact Multiset.map_id M

theorem map_snd_sum (S : Finset Nat) (M : Nat → Multiset (Owner × Nat)) :
    (∑ i ∈ S, M i).map Prod.snd = ∑ i ∈ S, (M i).map Prod.snd :=
  map_sum (Multiset.mapAddMonoidHom Prod.snd) M S

theorem map_userShares (f : Nat → Option Nat) (i n : Nat) :
    (userShares f i n).map Prod.snd = frames f 0 n := by
  unfold userShares frames
  rw [map_snd_sum]
  simp only [map_snd_mk]

theorem map_procShares (m : Memory) (p : Proc) (i : Nat) :
    (procShares m p i).map Prod.snd = procPages m p := by
  unfold procShares procPages
  by_cases hState : p.state = .unused
  · rw [if_pos hState, if_pos hState, Multiset.map_zero]
  · rw [if_neg hState, if_neg hState, Multiset.map_cons,
      Multiset.map_add, map_snd_mk, map_userShares]

/- Without the owners these are the pages in use. -/
theorem map_shares (l : List Nat) (boot : Multiset Nat) (s : State) :
    (shares l boot s).map Prod.snd =
      (l : Multiset Nat) + (procsPages s.kmem.mem s.proc + ((pipePages s.file).val + boot)) := by
  unfold shares procsPages slotPages
  rw [Multiset.map_add, Multiset.map_add, Multiset.map_add,
    map_snd_mk, map_snd_mk, map_snd_mk, map_snd_sum]
  simp only [map_procShares]

---- Owning Is Having A Share

section

variable {L : Layout} {boot : Multiset Nat} {s : State} {l : List Nat} {p i : Nat} {o : Owner}
variable {r : Nat → Nat}

theorem Chain.unique {m : Memory} {h : Nat} {l l' : List Nat} (hZero : 0 ∉ l) (hZero' : 0 ∉ l')
    (hl : Chain m h l) (hl' : Chain m h l') : l = l' := by
  induction l generalizing h l' with
  | nil =>
    cases l' with
    | nil => rfl
    | cons a l' =>
      have ha : 0 = a := Eq.trans hl.symm hl'.1
      exact absurd (ha ▸ List.mem_cons_self) hZero'
  | cons a l ih =>
    cases l' with
    | nil =>
      have ha : 0 = a := Eq.trans hl'.symm hl.1
      exact absurd (ha ▸ List.mem_cons_self) hZero
    | cons a' l' =>
      have hEq : a = a' := hl.1.symm.trans hl'.1
      subst hEq
      rw [ih (fun hIn => hZero (.tail _ hIn)) (fun hIn => hZero' (.tail _ hIn)) hl.2 hl'.2]

theorem mem_map_mk {o' : Owner} {M : Multiset Nat} :
    (o, p) ∈ M.map (Prod.mk o') ↔ o = o' ∧ p ∈ M := by
  simp only [Multiset.mem_map, Prod.mk.injEq]
  constructor
  · rintro ⟨q, hq, rfl, rfl⟩
    exact ⟨rfl, hq⟩
  · rintro ⟨rfl, hp⟩
    exact ⟨p, hp, rfl, rfl⟩

theorem mem_frameAt {f : Nat → Option Nat} {v : Nat} :
    p ∈ frameAt f v ↔ ∃ w, f v = some w ∧ PTE2PA w = p := by
  unfold frameAt
  cases f v with
  | none => simp
  | some w => simp [eq_comm]

theorem mem_userShares {f : Nat → Option Nat} {n : Nat} :
    (o, p) ∈ userShares f i n ↔ ∃ v < n, o = .user i v ∧ ∃ w, f v = some w ∧ PTE2PA w = p := by
  simp only [userShares, Multiset.mem_sum, Finset.mem_range, mem_map_mk, mem_frameAt, Nat.zero_add]

theorem mem_procShares {m : Memory} {q : Proc} {o : Owner} :
    (o, p) ∈ procShares m q i ↔ q.state ≠ .unused ∧ ((o = .trapframe i ∧ q.trapframe = p) ∨
      (o = .pagetable i ∧ p ∈ tree m q.pagetable) ∨ ∃ v < pageCount q.sz, o = .user i v ∧
        ∃ w, leaf m q.pagetable v = some w ∧ PTE2PA w = p) := by
  unfold procShares
  by_cases hState : q.state = .unused
  · simp [hState]
  · rw [if_neg hState, Multiset.mem_cons, Multiset.mem_add,
      mem_userShares, mem_map_mk, Prod.mk.injEq, eq_comm (a := p)]
    exact (and_iff_right hState).symm

theorem mem_procsShares {m : Memory} {proc : Nat → Proc} {o : Owner} :
    (o, p) ∈ ∑ i ∈ Finset.range NPROC, procShares m (proc i) i ↔
      ∃ i < NPROC, (o, p) ∈ procShares m (proc i) i := by
  simp only [Multiset.mem_sum, Finset.mem_range]

section

variable (h : Inv L boot r s)
include h

/- A user leaf is one of the first pages. -/
theorem Inv.user_iff {v : Nat} (hLive : Live s i) :
    (v < pageCount (s.proc i).sz ∧
        ∃ w, leaf s.kmem.mem (s.proc i).pagetable v = some w ∧ PTE2PA w = p) ↔
      (v < USERTOP ∧ ∃ w, leaf s.kmem.mem (s.proc i).pagetable v = some w ∧ PTE2PA w = p) := by
  have hShape := h.shape hLive.1 hLive.2
  have hTop := range_top (hShape.user.le (h.table hLive.1 hLive.2).books)
  constructor
  · rintro ⟨hv, hw⟩
    exact ⟨by omega, hw⟩
  · rintro ⟨hv, w, hw, hp⟩
    refine ⟨?_, w, hw, hp⟩
    by_contra hOut
    rw [hShape.user.gap v (by omega) hv] at hw
    cases hw

theorem mem_shares (hFree : Freelist s l) : (o, p) ∈ shares l boot s ↔ Owns boot s p o := by
  unfold shares
  simp only [Multiset.mem_add, mem_map_mk, mem_procsShares, mem_procShares]
  cases o with
  | freelist =>
    have hOwn : p ∈ l ↔ Owns boot s p .freelist := by
      constructor
      · exact fun hp => ⟨l, hFree, hp⟩
      · rintro ⟨l', hFree', hp⟩
        rw [Chain.unique hFree.2 hFree'.2 hFree.1 hFree'.1]
        exact hp
    simpa using hOwn
  | pagetable i => simp [Owns, Live, and_assoc]
  | user i v =>
    have hOwn : (i < NPROC ∧ (s.proc i).state ≠ .unused ∧ v < pageCount (s.proc i).sz ∧
          ∃ w, leaf s.kmem.mem (s.proc i).pagetable v = some w ∧ PTE2PA w = p) ↔
        Owns boot s p (.user i v) := by
      rw [← and_assoc]
      exact and_congr_right fun hLive => h.user_iff hLive
    simpa using hOwn
  | trapframe i => simp [Owns, Live, and_assoc]
  | pipe =>
    have hOwn : p ∈ pipePages s.file ↔ Owns boot s p .pipe := by simp [pipePages, Owns, and_assoc]
    simpa using hOwn
  | boot => simp [Owns]

---- One Owner

theorem Inv.freelist : ∃ l, Freelist s l ∧ (shares l boot s).map Prod.snd = ram L := by
  rcases h.books with ⟨l, hChain, hSum⟩
  refine ⟨l, ⟨hChain, ?_⟩, ?_⟩
  · intro hIn
    have hRam : 0 ∈ ram L := by
      rw [← hSum]
      exact Multiset.mem_add.mpr (.inl hIn)
    exact (mem_ram.mp hRam).isPage.ne_zero rfl
  · rw [map_shares]
    exact hSum

/- No page has two owners. -/
theorem Inv.owns_unique {o' : Owner} (ho : Owns boot s p o) (ho' : Owns boot s p o') : o' = o := by
  rcases h.freelist with ⟨l, hFree, hSum⟩
  have hNodup := nodup_ram L
  rw [← hSum] at hNodup
  have hEq :=
    Multiset.inj_on_of_nodup_map hNodup
      _ ((mem_shares h hFree).mpr ho')
      _ ((mem_shares h hFree).mpr ho) rfl
  exact congrArg Prod.fst hEq

theorem Inv.owns_ram (ho : Owns boot s p o) : Ram L.kend p := by
  rcases h.freelist with ⟨l, hFree, hSum⟩
  apply mem_ram.mp
  rw [← hSum]
  exact Multiset.mem_map_of_mem Prod.snd ((mem_shares h hFree).mpr ho)

end

/-
  In every state of a run the free list and the page tables
  have no page twice, and each page of the machine has
  exactly one owner.
-/
theorem page_has_one_owner
    (h : Reachable L boot s) :
    (∃ l, Freelist s l ∧ l.Nodup) ∧
    (∀ i, Live s i → (tree s.kmem.mem (s.proc i).pagetable).Nodup) ∧
    ∀ p, Ram L.kend p → ∃! o, Owns boot s p o := by
  have hGood := h.good
  rcases hGood.freelist with ⟨l, hFree, hSum⟩
  have hNodup := nodup_ram L
  rw [← hSum] at hNodup
  refine ⟨⟨l, hFree, ?_⟩, ?_, ?_⟩
  · rw [map_shares, Multiset.nodup_add] at hNodup
    exact Multiset.coe_nodup.mp hNodup.1
  · intro i hLive
    have hTable := hGood.table hLive.1 hLive.2
    exact (Multiset.nodup_add.mp hTable.books.nodup).1
  · intro p hp
    have hIn : p ∈ (shares l boot s).map Prod.snd := by
      rw [hSum]
      exact mem_ram.mpr hp
    rcases Multiset.mem_map.mp hIn with ⟨⟨o, q⟩, ho, rfl⟩
    have hOwner := (mem_shares hGood hFree).mp ho
    refine ⟨o, hOwner, ?_⟩
    intro o' hOwns
    exact hGood.owns_unique hOwner hOwns

end

theorem page_has_one_owner_forked :
    (∃ l, Freelist smallForked l ∧ l.Nodup) ∧
      (∀ i, Live smallForked i → (tree smallForked.kmem.mem (smallForked.proc i).pagetable).Nodup) ∧
      ∀ p, Ram smallLayout.kend p → ∃! o, Owns {0x87fe0000} smallForked p o :=
  page_has_one_owner smallForked_reachable

theorem smallBooted_live : Live smallBooted 0 := by
  refine ⟨by decide, ?_⟩
  rw [smallBooted_ready.1]
  decide

end Xv6.Kernel
