import Xv6.Bio.Cache
import Mathlib.Data.List.Perm.Basic
import Mathlib.Data.List.Nodup

/-
  References to buffers.

  The count of a buffer is the number of processes that have
  it, and one more while its block is pinned (`Refs`). So a
  buffer without references is nobody's, and recycling it
  disturbs no process. Each half of `bread` and `brelse`
  keeps the invariant, and so do pinning and unpinning.

  Main declarations:
    * `Refs.unref`
    * `Refs.pin`
    * `Refs.unpin`
-/

namespace Xv6.Bio

open Function (update update_self update_of_ne update_eq_self)

---- The Buffers Of A Process

/- The buffers a process has references to. -/
def Io.refs : Io → List Nat
  | .none => []
  | .lock i => [i]
  | .load i => [i]
  | .unref i => [i]

/- The buffer it has locked inside `bread`. -/
def Io.locks : Io → List Nat
  | .load i => [i]
  | _ => []

def Proc.bufs (x : Proc) : List Nat := x.held.map Held.buf

def Proc.refs (x : Proc) : List Nat := x.io.refs ++ x.bufs

def Proc.locks (x : Proc) : List Nat := x.io.locks ++ x.bufs

theorem Proc.refs_of_locks {x : Proc} {i : Nat} (h : i ∈ x.locks) : i ∈ x.refs := by
  rcases x with ⟨pc, io, held⟩
  cases io with
  | load j => exact h
  | _ => exact List.mem_append_right _ h

/- The pin of a buffer whose block is in the list. -/
def pinOf (x : Buf) (pinned : List Nat) : Nat :=
  if x.dev = ROOTDEV ∧ x.blockno ∈ pinned then 1 else 0

---- The Invariant

structure Refs (buf : Nat → Buf) (order : List Nat) (users : Nat → List Nat) (proc : Nat → Proc)
    (pinned : List Nat) : Prop where
  order : order.Perm (List.range NBUF)
  unique : ∀ i j b, i < NBUF → j < NBUF → (buf i).Caches b → (buf j).Caches b → i = j
  count : ∀ i, i < NBUF → (buf i).refcnt = (users i).length + pinOf (buf i) pinned
  users : ∀ i p, (users i).count p = (proc p).refs.count i
  locks : ∀ i p, (buf i).lock = some p ↔ i ∈ (proc p).locks
  nodup : ∀ p, (proc p).locks.Nodup
  refs : ∀ p i, i ∈ (proc p).refs → i < NBUF ∧ (buf i).dev = ROOTDEV
  valid : ∀ p i, i ∈ (proc p).bufs → (buf i).valid = true
  pinned : ∀ b ∈ pinned, ∃ i, i < NBUF ∧ (buf i).Caches b ∧ (buf i).valid = true

section

variable {buf buf' : Nat → Buf} {order : List Nat} {users : Nat → List Nat}
variable {proc proc' : Nat → Proc} {pinned : List Nat} {i p : Nat} {x : Buf}

section

variable (h : Refs buf order users proc pinned)
include h

theorem Refs.mem_users {p i : Nat} : p ∈ users i ↔ i ∈ (proc p).refs := by
  rw [← List.count_pos_iff, h.users, List.count_pos_iff]

theorem Refs.not_mem_refs (hi : i < NBUF) (hZero : (buf i).refcnt = 0) (p : Nat) :
    i ∉ (proc p).refs := by
  have hCount := h.count i hi
  intro hMem
  have hUser := h.mem_users.mpr hMem
  have hPos := List.length_pos_of_mem hUser
  omega

theorem Refs.pinOf_eq_zero (hi : i < NBUF) (hZero : (buf i).refcnt = 0) :
    pinOf (buf i) pinned = 0 ∧ users i = [] := by
  have hCount := h.count i hi
  refine ⟨by omega, ?_⟩
  apply List.length_eq_zero_iff.mp
  omega

/-
  Steps that leave the identity, the state and the count of
  every buffer, and the buffers of every process.
-/
theorem Refs.congr (hDev : ∀ i, (buf' i).dev = (buf i).dev)
    (hBlock : ∀ i, (buf' i).blockno = (buf i).blockno)
    (hValid : ∀ i, (buf' i).valid = (buf i).valid) (hCount : ∀ i, (buf' i).refcnt = (buf i).refcnt)
    (hLock : ∀ i, (buf' i).lock = (buf i).lock) (hIo : ∀ p, (proc' p).io = (proc p).io)
    (hBufs : ∀ p, (proc' p).bufs = (proc p).bufs) : Refs buf' order users proc' pinned := by
  have hRefs : ∀ p, (proc' p).refs = (proc p).refs := by
    intro p
    unfold Proc.refs
    rw [hIo, hBufs]
  have hLocks : ∀ p, (proc' p).locks = (proc p).locks := by
    intro p
    unfold Proc.locks
    rw [hIo, hBufs]
  refine ⟨h.order, ?_, ?_, ?_, ?_, ?_, ?_, ?_, ?_⟩
  · intro i j b hi hj hCi hCj
    unfold Buf.Caches at hCi hCj
    rw [hDev, hBlock] at hCi hCj
    exact h.unique i j b hi hj hCi hCj
  · intro i hi
    unfold pinOf
    rw [hCount, hDev, hBlock]
    exact h.count i hi
  · intro i p
    rw [hRefs]
    exact h.users i p
  · intro i p
    rw [hLock, hLocks]
    exact h.locks i p
  · intro p
    rw [hLocks]
    exact h.nodup p
  · intro p i hi
    rw [hRefs] at hi
    rw [hDev]
    exact h.refs p i hi
  · intro p i hi
    rw [hBufs] at hi
    rw [hValid]
    exact h.valid p i hi
  · intro b hb
    rcases h.pinned b hb with ⟨i, hi, hCaches, hVal⟩
    refine ⟨i, hi, ?_, ?_⟩
    · unfold Buf.Caches
      rw [hDev, hBlock]
      exact hCaches
    · rw [hValid]
      exact hVal

variable (hDev : x.dev = (buf i).dev) (hBlock : x.blockno = (buf i).blockno)
include hDev hBlock

theorem Refs.edit {y : Proc} (hValid : x.valid = (buf i).valid) (hCount : x.refcnt = (buf i).refcnt)
    (hLock : x.lock = (buf i).lock) (hIo : y.io = (proc p).io) (hBufs : y.bufs = (proc p).bufs) :
    Refs (update buf i x) order users (update proc p y) pinned := by
  have hBuf :
      ∀ {α : Type} (f : Buf → α), f x = f (buf i) → ∀ j, f (update buf i x j) = f (buf j) := by
    intro α f hf j
    by_cases hj : j = i
    · rw [hj, update_self, hf]
    · rw [update_of_ne hj]
  apply h.congr
  · exact hBuf Buf.dev hDev
  · exact hBuf Buf.blockno hBlock
  · exact hBuf Buf.valid hValid
  · exact hBuf Buf.refcnt hCount
  · exact hBuf Buf.lock hLock
  · intro q
    by_cases hq : q = p
    · rw [hq, update_self, hIo]
    · rw [update_of_ne hq]
  · intro q
    by_cases hq : q = p
    · rw [hq, update_self, hBufs]
    · rw [update_of_ne hq]

/- A step of one process on one buffer that stays the buffer of its block. -/
theorem Refs.touch {y : Proc} {l order' pinned' : List Nat}
    (hValid : (buf i).valid = true → x.valid = true) (hOrder : order'.Perm (List.range NBUF))
    (hCount : i < NBUF → x.refcnt = l.length + pinOf x pinned')
    (hPins : ∀ j, j < NBUF → j ≠ i → pinOf (buf j) pinned' = pinOf (buf j) pinned)
    (hUser : l.count p = y.refs.count i) (hUsers : ∀ q, q ≠ p → l.count q = (users i).count q)
    (hRefs : ∀ j, j ≠ i → y.refs.count j = (proc p).refs.count j)
    (hRef : i ∈ y.refs → i < NBUF ∧ (buf i).dev = ROOTDEV) (hLock : x.lock = some p ↔ i ∈ y.locks)
    (hLockOther : ∀ q, q ≠ p → (x.lock = some q ↔ i ∈ (proc q).locks))
    (hLocks : ∀ j, j ≠ i → (j ∈ y.locks ↔ j ∈ (proc p).locks)) (hNodup : y.locks.Nodup)
    (hBufs : ∀ j ∈ y.bufs, j ∈ (proc p).bufs ∨ j = i ∧ x.valid = true)
    (hPinned : ∀ b ∈ pinned', b ∈ pinned ∨ i < NBUF ∧ (buf i).Caches b ∧ x.valid = true) :
    Refs (update buf i x) order' (update users i l) (update proc p y) pinned' := by
  have hSameDev : ∀ j, (update buf i x j).dev = (buf j).dev := by
    intro j
    by_cases hj : j = i
    · rw [hj, update_self, hDev]
    · rw [update_of_ne hj]
  have hCaches : ∀ j b, (update buf i x j).Caches b ↔ (buf j).Caches b := by
    intro j b
    by_cases hj : j = i
    · rw [hj, update_self]
      unfold Buf.Caches
      rw [hDev, hBlock]
    · rw [update_of_ne hj]
  have hStays : ∀ j, (buf j).valid = true → (update buf i x j).valid = true := by
    intro j hj
    by_cases hEq : j = i
    · rw [hEq, update_self]
      exact hValid (hEq ▸ hj)
    · rw [update_of_ne hEq]
      exact hj
  refine ⟨hOrder, ?_, ?_, ?_, ?_, ?_, ?_, ?_, ?_⟩
  · intro j k b hj hk hCj hCk
    exact h.unique j k b hj hk ((hCaches j b).mp hCj) ((hCaches k b).mp hCk)
  · intro j hj
    by_cases hEq : j = i
    · rw [hEq, update_self, update_self]
      exact hCount (hEq ▸ hj)
    · rw [update_of_ne hEq, update_of_ne hEq, hPins j hj hEq]
      exact h.count j hj
  · intro j q
    by_cases hEq : j = i
    · rw [hEq, update_self]
      by_cases hq : q = p
      · rw [hq, update_self]
        exact hUser
      · rw [update_of_ne hq, hUsers q hq]
        exact h.users i q
    · rw [update_of_ne hEq]
      by_cases hq : q = p
      · rw [hq, update_self, hRefs j hEq]
        exact h.users j p
      · rw [update_of_ne hq]
        exact h.users j q
  · intro j q
    by_cases hEq : j = i
    · rw [hEq, update_self]
      by_cases hq : q = p
      · rw [hq, update_self]
        exact hLock
      · rw [update_of_ne hq]
        exact hLockOther q hq
    · rw [update_of_ne hEq]
      by_cases hq : q = p
      · rw [hq, update_self, hLocks j hEq]
        exact h.locks j p
      · rw [update_of_ne hq]
        exact h.locks j q
  · intro q
    by_cases hq : q = p
    · rw [hq, update_self]
      exact hNodup
    · rw [update_of_ne hq]
      exact h.nodup q
  · intro q j hj
    rw [hSameDev]
    by_cases hq : q = p
    · rw [hq, update_self] at hj
      by_cases hEq : j = i
      · rw [hEq] at hj ⊢
        exact hRef hj
      · apply h.refs p j
        rw [← List.count_pos_iff, ← hRefs j hEq]
        exact List.count_pos_iff.mpr hj
    · rw [update_of_ne hq] at hj
      exact h.refs q j hj
  · intro q j hj
    by_cases hq : q = p
    · rw [hq, update_self] at hj
      rcases hBufs j hj with hOld | ⟨hEq, hNew⟩
      · exact hStays j (h.valid p j hOld)
      · rw [hEq, update_self]
        exact hNew
    · rw [update_of_ne hq] at hj
      exact hStays j (h.valid q j hj)
  · intro b hb
    rcases hPinned b hb with hOld | ⟨hi, hCi, hNew⟩
    · rcases h.pinned b hOld with ⟨j, hj, hCj, hVal⟩
      exact ⟨j, hj, (hCaches j b).mpr hCj, hStays j hVal⟩
    · refine ⟨i, hi, (hCaches i b).mpr hCi, ?_⟩
      rw [update_self]
      exact hNew

end

---- Reading And Releasing

section

variable (h : Refs buf order users proc pinned)
include h

theorem Refs.recycle {b : Nat} (hi : i < NBUF) (hZero : (buf i).refcnt = 0)
    (hNew : ∀ j, j < NBUF → ¬ (buf j).Caches b) :
    Refs (update buf i { buf i with
      dev := ROOTDEV
      blockno := b
      valid := false }) order users proc pinned := by
  rcases h.pinOf_eq_zero hi hZero with ⟨hPin, hUsers⟩
  have hNobody := h.not_mem_refs hi hZero
  have hNotPinned : b ∉ pinned := by
    intro hb
    rcases h.pinned b hb with ⟨j, hj, hCj, _⟩
    exact hNew j hj hCj
  refine ⟨h.order, ?_, ?_, h.users, ?_, h.nodup, ?_, ?_, ?_⟩
  · intro j k c hj hk hCj hCk
    by_cases hji : j = i
    · by_cases hki : k = i
      · rw [hji, hki]
      · rw [hji, update_self] at hCj
        rw [update_of_ne hki, ← hCj.2] at hCk
        exact absurd hCk (hNew k hk)
    · rw [update_of_ne hji] at hCj
      by_cases hki : k = i
      · rw [hki, update_self] at hCk
        rw [← hCk.2] at hCj
        exact absurd hCj (hNew j hj)
      · rw [update_of_ne hki] at hCk
        exact h.unique j k c hj hk hCj hCk
  · intro j hj
    by_cases hji : j = i
    · rw [hji, update_self]
      change (buf i).refcnt = _
      rw [hZero, hUsers]
      simp [pinOf, hNotPinned]
    · rw [update_of_ne hji]
      exact h.count j hj
  · intro j q
    by_cases hji : j = i
    · rw [hji, update_self]
      exact h.locks i q
    · rw [update_of_ne hji]
      exact h.locks j q
  · intro q j hj
    have hji : j ≠ i := by
      intro hEq
      exact hNobody q (hEq ▸ hj)
    rw [update_of_ne hji]
    exact h.refs q j hj
  · intro q j hj
    have hji : j ≠ i := by
      intro hEq
      exact hNobody q (List.mem_append_right _ (hEq ▸ hj))
    rw [update_of_ne hji]
    exact h.valid q j hj
  · intro c hc
    rcases h.pinned c hc with ⟨j, hj, hCj, hVal⟩
    have hji : j ≠ i := by
      intro hEq
      rw [hEq] at hCj
      unfold pinOf at hPin
      rw [if_pos ⟨hCj.1, hCj.2 ▸ hc⟩] at hPin
      cases hPin
    refine ⟨j, hj, ?_, ?_⟩
    · rw [update_of_ne hji]
      exact hCj
    · rw [update_of_ne hji]
      exact hVal

theorem Refs.get (hi : i < NBUF) (hDev : (buf i).dev = ROOTDEV) (hIo : (proc p).io = .none)
    (pc : Pc) :
    Refs (update buf i { buf i with refcnt := (buf i).refcnt + 1 }) order
      (update users i (p :: users i)) (update proc p { proc p with pc := pc, io := .lock i })
      pinned := by
  have hRefs : (proc p).refs = (proc p).bufs := by
    unfold Proc.refs
    rw [hIo]
    rfl
  have hLocks : (proc p).locks = (proc p).bufs := by
    unfold Proc.locks
    rw [hIo]
    rfl
  apply h.touch
  · rfl
  · rfl
  · exact id
  · exact h.order
  · intro _
    change (buf i).refcnt + 1 = (users i).length + 1 + pinOf (buf i) pinned
    rw [h.count i hi]
    omega
  · exact fun _ _ _ => rfl
  · rw [List.count_cons_self, h.users, hRefs]
    exact List.count_cons_self.symm
  · intro q hq
    exact List.count_cons_of_ne (Ne.symm hq)
  · intro j hj
    rw [hRefs]
    exact List.count_cons_of_ne (Ne.symm hj)
  · exact fun _ => ⟨hi, hDev⟩
  · rw [h.locks, hLocks]
    rfl
  · exact fun q _ => h.locks i q
  · intro j _
    rw [hLocks]
    rfl
  · have hNodup := h.nodup p
    rw [hLocks] at hNodup
    exact hNodup
  · exact fun j hj => Or.inl hj
  · exact fun b hb => Or.inl hb

theorem Refs.lock (hIo : (proc p).io = .lock i) (hFree : (buf i).lock = none) :
    Refs (update buf i { buf i with lock := some p }) order users (update proc p
        { proc p with io := .load i })
      pinned := by
  have hRefs : (proc p).refs = i :: (proc p).bufs := by
    unfold Proc.refs
    rw [hIo]
    rfl
  have hLocks : (proc p).locks = (proc p).bufs := by
    unfold Proc.locks
    rw [hIo]
    rfl
  have hNone : ∀ q, i ∉ (proc q).locks := by
    intro q hq
    have hLock := (h.locks i q).mpr hq
    rw [hFree] at hLock
    cases hLock
  have hIn := h.refs p i (by rw [hRefs]; simp)
  rw [← update_eq_self i users]
  apply h.touch
  · rfl
  · rfl
  · exact id
  · exact h.order
  · exact h.count i
  · exact fun _ _ _ => rfl
  · rw [h.users, hRefs]
    rfl
  · exact fun _ _ => rfl
  · intro j hj
    rw [hRefs]
    rfl
  · exact fun _ => hIn
  · exact ⟨fun _ => List.mem_cons_self, fun _ => rfl⟩
  · intro q hq
    constructor
    · intro hEq
      exact absurd (Option.some.inj hEq) (Ne.symm hq)
    · intro hMem
      exact absurd hMem (hNone q)
  · intro j hj
    rw [hLocks]
    exact ⟨fun hMem => (List.mem_cons.mp hMem).resolve_left hj,
      fun hMem => List.mem_cons_of_mem i hMem⟩
  · have hNodup := h.nodup p
    have hNot := hNone p
    rw [hLocks] at hNodup hNot
    exact List.nodup_cons.mpr ⟨hNot, hNodup⟩
  · exact fun j hj => Or.inl hj
  · exact fun b hb => Or.inl hb

theorem Refs.load (hIo : (proc p).io = .load i) (hDev : x.dev = (buf i).dev)
    (hBlock : x.blockno = (buf i).blockno) (hValid : x.valid = true)
    (hCount : x.refcnt = (buf i).refcnt) (hLock : x.lock = (buf i).lock) :
    Refs (update buf i x) order users (update proc p { proc p with
        io := .none
        held := ⟨i, false⟩ :: (proc p).held })
      pinned := by
  have hRefs : (proc p).refs = i :: (proc p).bufs := by
    unfold Proc.refs
    rw [hIo]
    rfl
  have hLocks : (proc p).locks = i :: (proc p).bufs := by
    unfold Proc.locks
    rw [hIo]
    rfl
  rw [← update_eq_self i users]
  apply h.touch
  · exact hDev
  · exact hBlock
  · exact fun _ => hValid
  · exact h.order
  · intro hi
    unfold pinOf
    rw [hCount, hDev, hBlock]
    exact h.count i hi
  · exact fun _ _ _ => rfl
  · rw [h.users, hRefs]
    rfl
  · exact fun _ _ => rfl
  · intro j _
    rw [hRefs]
    rfl
  · intro _
    exact h.refs p i (by rw [hRefs]; simp)
  · rw [hLock, h.locks, hLocks]
    rfl
  · intro q _
    rw [hLock]
    exact h.locks i q
  · intro j _
    rw [hLocks]
    rfl
  · have hNodup := h.nodup p
    rw [hLocks] at hNodup
    exact hNodup
  · intro j hj
    rcases List.mem_cons.mp hj with hEq | hOld
    · exact Or.inr ⟨hEq, hValid⟩
    · exact Or.inl hOld
  · exact fun b hb => Or.inl hb

end

theorem Proc.bufs_perm {x : Proc} (h : ⟨i, false⟩ ∈ x.held) :
    x.bufs.Perm (i :: (x.held.erase ⟨i, false⟩).map Held.buf) := by
  have hPerm := List.perm_cons_erase h
  exact hPerm.map Held.buf

theorem Refs.unlock (h : Refs buf order users proc pinned) (hIo : (proc p).io = .none)
    (hHeld : ⟨i, false⟩ ∈ (proc p).held) (pc : Pc) :
    Refs (update buf i { buf i with lock := none }) order users (update proc p
        { pc := pc
          io := .unref i
          held := (proc p).held.erase ⟨i, false⟩ })
      pinned := by
  have hRefs : (proc p).refs = (proc p).bufs := by
    unfold Proc.refs
    rw [hIo]
    rfl
  have hLocks : (proc p).locks = (proc p).bufs := by
    unfold Proc.locks
    rw [hIo]
    rfl
  have hPerm := Proc.bufs_perm hHeld
  have hNodup := h.nodup p
  rw [hLocks, hPerm.nodup_iff, List.nodup_cons] at hNodup
  have hMem : i ∈ (proc p).locks := by
    rw [hLocks, hPerm.mem_iff]
    exact List.mem_cons_self
  have hOwner := (h.locks i p).mpr hMem
  rw [← update_eq_self i users]
  apply h.touch
  · rfl
  · rfl
  · exact id
  · exact h.order
  · exact h.count i
  · exact fun _ _ _ => rfl
  · rw [h.users, hRefs]
    exact hPerm.count_eq i
  · exact fun _ _ => rfl
  · intro j _
    rw [hRefs]
    exact (hPerm.count_eq j).symm
  · intro _
    exact h.refs p i (Proc.refs_of_locks hMem)
  · constructor
    · intro hNone
      cases hNone
    · intro hStill
      exact absurd hStill hNodup.1
  · intro q hq
    constructor
    · intro hNone
      cases hNone
    · intro hOther
      have hTheirs := (h.locks i q).mpr hOther
      rw [hOwner] at hTheirs
      exact absurd (Option.some.inj hTheirs) (Ne.symm hq)
  · intro j hj
    rw [hLocks, hPerm.mem_iff, List.mem_cons]
    exact (or_iff_right hj).symm
  · exact hNodup.2
  · intro j hj
    left
    rw [hPerm.mem_iff]
    exact List.mem_cons_of_mem i hj
  · exact fun b hb => Or.inl hb

theorem Refs.unref (h : Refs buf order users proc pinned) {order' : List Nat}
    (hIo : (proc p).io = .unref i) (hOrder : order'.Perm order) :
    Refs (update buf i { buf i with refcnt := (buf i).refcnt - 1 }) order'
      (update users i ((users i).erase p)) (update proc p { proc p with io := .none })
      pinned := by
  have hRefs : (proc p).refs = i :: (proc p).bufs := by
    unfold Proc.refs
    rw [hIo]
    rfl
  have hLocks : (proc p).locks = (proc p).bufs := by
    unfold Proc.locks
    rw [hIo]
    rfl
  have hUser : p ∈ users i := h.mem_users.mpr (by rw [hRefs]; simp)
  apply h.touch
  · rfl
  · rfl
  · exact id
  · exact hOrder.trans h.order
  · intro hi
    have hCount := h.count i hi
    have hPos := List.length_pos_of_mem hUser
    change (buf i).refcnt - 1 = ((users i).erase p).length + pinOf (buf i) pinned
    rw [List.length_erase_of_mem hUser]
    omega
  · exact fun _ _ _ => rfl
  · rw [List.count_erase_self, h.users, hRefs, List.count_cons_self]
    rfl
  · intro q hq
    exact List.count_erase_of_ne hq
  · intro j hj
    rw [hRefs]
    exact (List.count_cons_of_ne (Ne.symm hj)).symm
  · intro _
    exact h.refs p i (by rw [hRefs]; simp)
  · rw [h.locks, hLocks]
    rfl
  · exact fun q _ => h.locks i q
  · intro j _
    rw [hLocks]
    rfl
  · have hNodup := h.nodup p
    rw [hLocks] at hNodup
    exact hNodup
  · exact fun j hj => Or.inl hj
  · exact fun b hb => Or.inl hb

---- Pins

theorem pinOf_append_of_ne {b : Nat} (h : ¬ x.Caches b) :
    pinOf x (pinned ++ [b]) = pinOf x pinned := by
  unfold pinOf
  congr 1
  rw [List.mem_append, List.mem_singleton]
  apply propext
  constructor
  · intro hx
    exact ⟨hx.1, hx.2.resolve_right fun hEq => h ⟨hx.1, hEq⟩⟩
  · intro hx
    exact ⟨hx.1, Or.inl hx.2⟩

theorem Refs.pin (h : Refs buf order users proc pinned) (hi : i < NBUF)
    (hDev : (buf i).dev = ROOTDEV) (hValid : (buf i).valid = true) (hNew : (buf i).blockno ∉ pinned) :
    Refs (update buf i { buf i with refcnt := (buf i).refcnt + 1 })
      order users proc (pinned ++ [(buf i).blockno]) := by
  rw [← update_eq_self i users, ← update_eq_self 0 proc]
  apply h.touch
  · rfl
  · rfl
  · exact id
  · exact h.order
  · intro _
    change (buf i).refcnt + 1 = (users i).length + pinOf (buf i) (pinned ++ [(buf i).blockno])
    rw [h.count i hi]
    simp [pinOf, hDev, hNew]
  · intro j hj hNe
    apply pinOf_append_of_ne
    intro hCj
    exact hNe (h.unique j i _ hj hi hCj ⟨hDev, rfl⟩)
  · exact h.users i 0
  · exact fun _ _ => rfl
  · exact fun _ _ => rfl
  · exact h.refs 0 i
  · exact h.locks i 0
  · exact fun q _ => h.locks i q
  · exact fun _ _ => Iff.rfl
  · exact h.nodup 0
  · exact fun j hj => Or.inl hj
  · intro b hb
    rcases List.mem_append.mp hb with hOld | hLast
    · exact Or.inl hOld
    · right
      rw [List.mem_singleton.mp hLast]
      exact ⟨hi, ⟨hDev, rfl⟩, hValid⟩

theorem Refs.unpin {b : Nat} (h : Refs buf order users proc (b :: pinned)) (hi : i < NBUF)
    (hCaches : (buf i).Caches b) (hOnce : b ∉ pinned) :
    Refs (update buf i { buf i with refcnt := (buf i).refcnt - 1 }) order users proc pinned := by
  rw [← update_eq_self i users, ← update_eq_self 0 proc]
  apply h.touch
  · rfl
  · rfl
  · exact id
  · exact h.order
  · intro _
    have hCount := h.count i hi
    change (buf i).refcnt - 1 = (users i).length + pinOf (buf i) pinned
    unfold pinOf at *
    rw [hCaches.1, hCaches.2] at *
    rw [hCount]
    simp [hOnce]
  · intro j hj hNe
    unfold pinOf
    congr 1
    rw [List.mem_cons]
    apply propext
    constructor
    · exact fun hx => ⟨hx.1, Or.inr hx.2⟩
    · intro hx
      refine ⟨hx.1, hx.2.resolve_left ?_⟩
      intro hEq
      exact hNe (h.unique j i b hj hi ⟨hx.1, hEq⟩ hCaches)
  · exact h.users i 0
  · exact fun _ _ => rfl
  · exact fun _ _ => rfl
  · exact h.refs 0 i
  · exact h.locks i 0
  · exact fun q _ => h.locks i q
  · exact fun _ _ => Iff.rfl
  · exact h.nodup 0
  · exact fun j hj => Or.inl hj
  · intro c hc
    exact Or.inl (List.mem_cons_of_mem b hc)

end

end Xv6.Bio
