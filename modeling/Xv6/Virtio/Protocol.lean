import Xv6.Virtio.Driver
import Mathlib.Data.List.Nodup
import Mathlib.Data.Finset.Card

/-
  The request protocol of the virtio disk under every
  schedule.

  Every descriptor that is not free belongs to one process
  (`Own`), and every chain head the device or the handler
  still has to deal with belongs to one process that waits
  for it (`Flight`). What a process relies on is a predicate
  on its place and its part of the disk (`PcOk`); a step
  that leaves this part alone keeps it (`PcOk.frame`).

  Main declarations:
    * `Inv`
    * `Inv.of_reachable`
    * `request_protocol`
-/

namespace Xv6.Virtio

open Function (update update_self update_of_ne)

---- The Part Of A Process

namespace Pc

/- The descriptors a process has at its place. -/
def held : Pc → List Nat
  | .alloc _ _ idx => idx
  | .undo _ _ idx => idx
  | .submit _ _ i j k => [i, j, k]
  | .wait _ i j k => [i, j, k]
  | .parked _ i j k => [i, j, k]
  | .clear _ i j k => [i, j, k]
  | .freeing _ _ left => left
  | _ => []

/- The buffer of its call. -/
def buf : Pc → Option Nat
  | .idle => none
  | .enter b _ | .alloc b _ _ | .undo b _ _ | .asleep b _ | .submit b _ _ _ _
  | .wait b _ _ _ | .parked b _ _ _ | .clear b _ _ _ | .freeing b _ _ | .leave b => some b

/- It has submitted a request and waits for it. -/
inductive Waits : Pc → Nat → Nat → Nat → Nat → Prop where
  | wait (b i j k : Nat) : Waits (.wait b i j k) b i j k
  | parked (b i j k : Nat) : Waits (.parked b i j k) b i j k

theorem Waits.held {pc : Pc} {b i j k : Nat} (h : pc.Waits b i j k) : pc.held = [i, j, k] := by
  cases h <;> rfl

theorem Waits.buf {pc : Pc} {b i j k : Nat} (h : pc.Waits b i j k) : pc.buf = some b := by
  cases h <;> rfl

end Pc

variable {d d' : Disk} {p b i j k : Nat} {s : State} {pc : Nat → Pc} {pc' : Pc} {o : Outcome}

/- Descriptors that are chained in this order. -/
def Linked (desc : Nat → Desc) : List Nat → Prop
  | [] => True
  | [i] => (desc i).more = false
  | i :: j :: rest => (desc i).more = true ∧ (desc i).next = j ∧ Linked desc (j :: rest)

/- The stages of a request from its submission on. -/
inductive Stage (d : Disk) (p b i : Nat) : Prop where
  | open_ (hHead : i ∈ d.avail.contents ∨ i ∈ d.active)
      (hBusy : d.busy b = true) (hCount : d.sent p = d.served p + 1)
  | done (hHead : i ∈ d.used.contents) (hBusy : d.busy b = true) (hCount : d.sent p = d.served p)
  | seen (hHead : ¬ (i ∈ d.avail.contents ∨ i ∈ d.active) ∧ i ∉ d.used.contents)
      (hBusy : d.busy b = false) (hCount : d.sent p = d.served p)

structure Request (d : Disk) (p b i j k : Nat) : Prop where
  linked : Linked d.desc [i, j, k]
  status : (d.desc k).addr = .status i
  info : (d.info i).b = some b
  asker : d.asker i = p
  stage : Stage d p b i

/- What a process relies on at its place. -/
def PcOk (d : Disk) (p : Nat) : Pc → Prop
  | .alloc _ _ idx => idx.length ≤ 2 ∧ d.sent p = d.served p
  | .wait b i j k => Request d p b i j k
  | .parked b i j k => Request d p b i j k
  | .clear _ i j k => Linked d.desc [i, j, k] ∧ d.sent p = d.served p
  | .freeing _ i left => left.head? = some i ∧ Linked d.desc left ∧ d.sent p = d.served p
  | _ => d.sent p = d.served p

/- The chain heads that are not dealt with yet. -/
def Disk.flight (d : Disk) : List Nat := d.avail.contents ++ d.active ++ d.used.contents

---- The Invariant

/- The descriptors that are not free have one process each. -/
structure Own (free : Nat → Bool) (pc : Nat → Pc) : Prop where
  nodup : ∀ p, (pc p).held.Nodup
  taken : ∀ p i, i ∈ (pc p).held → i < NUM ∧ free i = false
  apart : ∀ p q i, i ∈ (pc p).held → i ∈ (pc q).held → p = q
  cover : ∀ i, i < NUM → free i = false → ∃ p, i ∈ (pc p).held

/- The heads in flight have one waiting process each. -/
structure Flight (d : Disk) (pc : Nat → Pc) : Prop where
  avail : d.avail.Wf
  used : d.used.Wf
  distinct : d.flight.Nodup
  waited : ∀ h ∈ d.flight, ∃ p b j k, (pc p).Waits b h j k
  status : ∀ h ∈ d.used.contents, (d.info h).status = 0

structure Inv (s : State) : Prop where
  own : Own s.disk.free s.pc
  flight : Flight s.disk s.pc
  pcs : ∀ p, PcOk s.disk p (s.pc p)
  owner : ∀ p b, (s.pc p).buf = some b → s.owner b = some p
  body : s.intr = .body → s.disk.used.head ≠ s.disk.used.tail

---- Frame Rules

theorem Linked.congr {desc desc' : Nat → Desc} {l : List Nat} (h : Linked desc l)
    (hSame : ∀ i ∈ l, desc' i = desc i) : Linked desc' l := by
  induction l with
  | nil => exact h
  | cons i l ih =>
    have hHead := hSame i List.mem_cons_self
    cases l with
    | nil =>
      change (desc' i).more = false
      rw [hHead]
      exact h
    | cons j l =>
      rcases h with ⟨hMore, hNext, hRest⟩
      refine ⟨?_, ?_, ?_⟩
      · rw [hHead]
        exact hMore
      · rw [hHead]
        exact hNext
      · apply ih hRest
        intro m hm
        exact hSame m (List.mem_cons_of_mem i hm)

/- A step that does not touch the part of a process. -/
structure Frame (d d' : Disk) (p : Nat) (pc : Pc) : Prop where
  desc : ∀ i ∈ pc.held, d'.desc i = d.desc i
  sent : d'.sent p = d.sent p
  served : d'.served p = d.served p
  info : ∀ b i j k, pc.Waits b i j k →
    (d'.info i).b = (d.info i).b ∧ d'.asker i = d.asker i ∧ d'.busy b = d.busy b
  flight : ∀ b i j k, pc.Waits b i j k → (i ∈ d'.avail.contents ∨ i ∈ d'.active ↔
      i ∈ d.avail.contents ∨ i ∈ d.active) ∧
    (i ∈ d'.used.contents ↔ i ∈ d.used.contents)

theorem Frame.request {pc : Pc} (hFrame : Frame d d' p pc) (hWaits : pc.Waits b i j k)
    (h : Request d p b i j k) : Request d' p b i j k := by
  have hHeld := hWaits.held
  rcases hFrame.info b i j k hWaits with ⟨hInfo, hAsker, hBusy⟩
  rcases hFrame.flight b i j k hWaits with ⟨hOpen, hUsed⟩
  have hDesc := hFrame.desc
  rw [hHeld] at hDesc
  refine ⟨h.linked.congr hDesc, ?_, hInfo.trans h.info, hAsker.trans h.asker, ?_⟩
  · rw [hDesc k (by simp)]
    exact h.status
  cases h.stage with
  | open_ hHead hb hCount =>
    apply Stage.open_
    · exact hOpen.mpr hHead
    · rw [hBusy]
      exact hb
    · rw [hFrame.sent, hFrame.served]
      exact hCount
  | done hHead hb hCount =>
    apply Stage.done
    · rw [hUsed]
      exact hHead
    · rw [hBusy]
      exact hb
    · rw [hFrame.sent, hFrame.served]
      exact hCount
  | seen hHead hb hCount =>
    apply Stage.seen
    · rw [hOpen, hUsed]
      exact hHead
    · rw [hBusy]
      exact hb
    · rw [hFrame.sent, hFrame.served]
      exact hCount

theorem PcOk.frame {pc : Pc} (h : PcOk d p pc) (hFrame : Frame d d' p pc) : PcOk d' p pc := by
  have hSent := hFrame.sent
  have hServed := hFrame.served
  cases pc with
  | wait b i j k => exact hFrame.request (.wait b i j k) h
  | parked b i j k => exact hFrame.request (.parked b i j k) h
  | alloc b w idx =>
    refine ⟨h.1, ?_⟩
    rw [hSent, hServed]
    exact h.2
  | clear b i j k =>
    refine ⟨h.1.congr hFrame.desc, ?_⟩
    rw [hSent, hServed]
    exact h.2
  | freeing b i left =>
    refine ⟨h.1, h.2.1.congr hFrame.desc, ?_⟩
    rw [hSent, hServed]
    exact h.2.2
  | _ =>
    change d'.sent p = d'.served p
    rw [hSent, hServed]
    exact h

theorem Inv.request (h : Inv s) (hWaits : (s.pc p).Waits b i j k) : Request s.disk p b i j k := by
  have hOk := h.pcs p
  revert hOk hWaits
  generalize s.pc p = pc
  intro hWaits hOk
  cases hWaits <;> exact hOk

theorem Inv.waits_unique (h : Inv s) {q b' j' k' : Nat} (hp : (s.pc p).Waits b i j k)
    (hq : (s.pc q).Waits b' i j' k') : p = q := by
  apply h.own.apart p q i
  · rw [hp.held]
    simp
  · rw [hq.held]
    simp

theorem Inv.buf_unique (h : Inv s) {q : Nat} (hp : (s.pc p).buf = some b)
    (hq : (s.pc q).buf = some b) : p = q := by
  have hOwner := h.owner p b hp
  rw [h.owner q b hq] at hOwner
  exact (Option.some.inj hOwner).symm

---- Descriptors That Change Hands

theorem Own.set {free free' : Nat → Bool} (h : Own free pc) (hNodup : pc'.held.Nodup)
    (hTaken : ∀ i ∈ pc'.held, i < NUM ∧ free' i = false)
    (hOther : ∀ q i, q ≠ p → i ∈ (pc q).held → i ∉ pc'.held ∧ free' i = false)
    (hCover : ∀ i, i < NUM → free' i = false → i ∈ pc'.held ∨ ∃ q, q ≠ p ∧ i ∈ (pc q).held) :
    Own free' (update pc p pc') where
  nodup q := by
    by_cases hq : q = p
    · rw [hq, update_self]
      exact hNodup
    · rw [update_of_ne hq]
      exact h.nodup q
  taken q i hi := by
    by_cases hq : q = p
    · rw [hq, update_self] at hi
      exact hTaken i hi
    · rw [update_of_ne hq] at hi
      exact ⟨(h.taken q i hi).1, (hOther q i hq hi).2⟩
  apart q r i hi hj := by
    by_cases hq : q = p
    · by_cases hr : r = p
      · rw [hq, hr]
      · rw [hq, update_self] at hi
        rw [update_of_ne hr] at hj
        exact absurd hi (hOther r i hr hj).1
    · rw [update_of_ne hq] at hi
      by_cases hr : r = p
      · rw [hr, update_self] at hj
        exact absurd hj (hOther q i hq hi).1
      · rw [update_of_ne hr] at hj
        exact h.apart q r i hi hj
  cover i hi hFree := by
    rcases hCover i hi hFree with hMine | ⟨q, hq, hOld⟩
    · refine ⟨p, ?_⟩
      rw [update_self]
      exact hMine
    · refine ⟨q, ?_⟩
      rw [update_of_ne hq]
      exact hOld

theorem Own.keep {free : Nat → Bool} (h : Own free pc) (hHeld : pc'.held = (pc p).held) :
    Own free (update pc p pc') := by
  apply h.set
  · rw [hHeld]
    exact h.nodup p
  · rw [hHeld]
    exact h.taken p
  · intro q i hq hi
    refine ⟨?_, (h.taken q i hi).2⟩
    rw [hHeld]
    intro hMine
    exact hq (h.apart q p i hi hMine)
  · intro i hi hFree
    rcases h.cover i hi hFree with ⟨q, hOld⟩
    by_cases hq : q = p
    · left
      rw [hHeld, ← hq]
      exact hOld
    · exact Or.inr ⟨q, hq, hOld⟩

/- `alloc_desc` adds a descriptor that nobody has. -/
theorem Own.alloc {free : Nat → Bool} (h : Own free pc) (hi : i < NUM) (hFree : free i = true)
    (hHeld : pc'.held = (pc p).held ++ [i]) :
    Own (update free i false) (update pc p pc') := by
  have hNew : ∀ q, i ∉ (pc q).held := by
    intro q hMem
    rw [(h.taken q i hMem).2] at hFree
    cases hFree
  have hStay : ∀ q m, m ∈ (pc q).held → update free i false m = false := by
    intro q m hm
    have hNe : m ≠ i := by
      intro hEq
      exact hNew q (hEq ▸ hm)
    rw [update_of_ne hNe]
    exact (h.taken q m hm).2
  apply h.set
  · rw [hHeld, List.nodup_append]
    refine ⟨h.nodup p, List.nodup_singleton i, ?_⟩
    intro m hm n hn hEq
    rw [List.mem_singleton.mp hn] at hEq
    exact hNew p (hEq ▸ hm)
  · intro m hm
    rw [hHeld] at hm
    rcases List.mem_append.mp hm with hOld | hLast
    · exact ⟨(h.taken p m hOld).1, hStay p m hOld⟩
    · rw [List.mem_singleton.mp hLast]
      exact ⟨hi, update_self i _ _⟩
  · intro q m hq hm
    refine ⟨?_, hStay q m hm⟩
    rw [hHeld]
    intro hMine
    rcases List.mem_append.mp hMine with hOld | hLast
    · exact hq (h.apart q p m hm hOld)
    · rw [List.mem_singleton.mp hLast] at hm
      exact hNew q hm
  · intro m hm hTaken
    by_cases hmi : m = i
    · left
      rw [hHeld, hmi]
      simp
    · rw [update_of_ne hmi] at hTaken
      rcases h.cover m hm hTaken with ⟨q, hOld⟩
      by_cases hq : q = p
      · left
        rw [hHeld]
        exact List.mem_append_left _ (hq ▸ hOld)
      · exact Or.inr ⟨q, hq, hOld⟩

/- `free_desc` gives back the first descriptor. -/
theorem Own.free {free : Nat → Bool} (h : Own free pc) (hHeld : (pc p).held = i :: pc'.held) :
    Own (update free i true) (update pc p pc') := by
  have hNodup := h.nodup p
  rw [hHeld, List.nodup_cons] at hNodup
  have hMine : i ∈ (pc p).held := by
    rw [hHeld]
    exact List.mem_cons_self
  have hStay : ∀ q m, m ∈ (pc q).held → m ≠ i → update free i true m = false := by
    intro q m hm hNe
    rw [update_of_ne hNe]
    exact (h.taken q m hm).2
  apply h.set hNodup.2
  · intro m hm
    have hOld : m ∈ (pc p).held := by
      rw [hHeld]
      exact List.mem_cons_of_mem i hm
    refine ⟨(h.taken p m hOld).1, hStay p m hOld ?_⟩
    intro hEq
    exact hNodup.1 (hEq ▸ hm)
  · intro q m hq hm
    refine ⟨?_, hStay q m hm ?_⟩
    · intro hNew
      apply hq (h.apart q p m hm _)
      rw [hHeld]
      exact List.mem_cons_of_mem i hNew
    · intro hEq
      exact hq (h.apart q p i (hEq ▸ hm) hMine)
  · intro m hm hTaken
    have hNe : m ≠ i := by
      intro hEq
      rw [hEq, update_self] at hTaken
      cases hTaken
    rw [update_of_ne hNe] at hTaken
    rcases h.cover m hm hTaken with ⟨q, hOld⟩
    by_cases hq : q = p
    · left
      rw [hq, hHeld] at hOld
      exact (List.mem_cons.mp hOld).resolve_left hNe
    · exact Or.inr ⟨q, hq, hOld⟩

---- Heads In Flight

theorem Frame.refl (d : Disk) (p : Nat) (pc : Pc) : Frame d d p pc where
  desc _ _ := rfl
  sent := rfl
  served := rfl
  info _ _ _ _ _ := ⟨rfl, rfl, rfl⟩
  flight _ _ _ _ _ := ⟨Iff.rfl, Iff.rfl⟩

theorem length_lt_of_nodup {l : List Nat} (hNodup : (l ++ [i]).Nodup)
    (hLt : ∀ m ∈ l ++ [i], m < NUM) : l.length < 8 := by
  have hSub : l ++ [i] ⊆ List.range NUM := by
    intro m hm
    exact List.mem_range.mpr (hLt m hm)
  have hLen := (hNodup.subperm hSub).length_le
  rw [List.length_append, List.length_singleton, List.length_range] at hLen
  exact hLen

theorem Flight.room {l : RingBuf Nat 8 65536} (hNodup : (l.contents ++ [i]).Nodup)
    (hLt : ∀ m ∈ l.contents ++ [i], m < NUM) : l.used < 8 := by
  have hRoom := length_lt_of_nodup hNodup hLt
  rw [RingBuf.length_contents] at hRoom
  exact hRoom

theorem Inv.flight_lt (h : Inv s) (hi : i ∈ s.disk.flight) : i < NUM := by
  rcases h.flight.waited i hi with ⟨p, b, j, k, hWaits⟩
  apply (h.own.taken p i _).1
  rw [hWaits.held]
  simp

theorem Flight.keep (h : Flight d pc) (hAvail : d'.avail = d.avail) (hUsed : d'.used = d.used)
    (hActive : d'.active = d.active) (hStatus : ∀ i, (d'.info i).status = (d.info i).status)
    (hWaits : ∀ b i j k, (pc p).Waits b i j k → i ∈ d.flight → ∃ b' j' k', pc'.Waits b' i j' k') :
    Flight d' (update pc p pc') where
  avail := by
    rw [hAvail]
    exact h.avail
  used := by
    rw [hUsed]
    exact h.used
  distinct := by
    unfold Disk.flight
    rw [hAvail, hActive, hUsed]
    exact h.distinct
  waited i hi := by
    unfold Disk.flight at hi
    rw [hAvail, hActive, hUsed] at hi
    rcases h.waited i hi with ⟨q, b, j, k, hOld⟩
    by_cases hq : q = p
    · rw [hq] at hOld
      rcases hWaits b i j k hOld hi with ⟨b', j', k', hNew⟩
      refine ⟨p, b', j', k', ?_⟩
      rw [update_self]
      exact hNew
    · refine ⟨q, b, j, k, ?_⟩
      rw [update_of_ne hq]
      exact hOld
  status i hi := by
    rw [hUsed] at hi
    rw [hStatus]
    exact h.status i hi

/- A process takes a step within its call. -/
theorem Inv.move (h : Inv s) (hOwn : Own d'.free (update s.pc p pc'))
    (hFlight : Flight d' (update s.pc p pc')) (hOk : PcOk d' p pc')
    (hFrame : ∀ q, q ≠ p → Frame s.disk d' q (s.pc q)) (hBuf : pc'.buf = (s.pc p).buf)
    (hUsed : d'.used = s.disk.used) (lock : Holder) :
    Inv { s with
      disk := d'
      pc := update s.pc p pc'
      lock := lock } where
  own := hOwn
  flight := hFlight
  pcs q := by
    change PcOk d' q (update s.pc p pc' q)
    by_cases hq : q = p
    · rw [hq, update_self]
      exact hOk
    · rw [update_of_ne hq]
      exact (h.pcs q).frame (hFrame q hq)
  owner q b hq := by
    change (update s.pc p pc' q).buf = some b at hq
    by_cases hEq : q = p
    · rw [hEq, update_self, hBuf] at hq
      rw [hEq]
      exact h.owner p b hq
    · rw [update_of_ne hEq] at hq
      exact h.owner q b hq
  body hBody := by
    rw [hUsed]
    exact h.body hBody

/- A step that changes the place of a process alone. -/
theorem Inv.goto (h : Inv s) (hHeld : pc'.held = (s.pc p).held)
    (hWaits :
      ∀ b i j k, (s.pc p).Waits b i j k → i ∈ s.disk.flight → ∃ b' j' k', pc'.Waits b' i j' k')
    (hOk : PcOk s.disk p pc') (hBuf : pc'.buf = (s.pc p).buf) (lock : Holder) :
    Inv { s with
        pc := update s.pc p pc'
        lock := lock } :=
  h.move (h.own.keep hHeld) (h.flight.keep rfl rfl rfl (fun _ => rfl) hWaits) hOk
    (fun q _ => Frame.refl s.disk q (s.pc q)) hBuf rfl lock

---- Steps Of A Process

theorem allocDesc_some (h : allocDesc d = some (i, d')) :
    i < NUM ∧ d.free i = true ∧ d' = { d with free := update d.free i false } := by
  unfold allocDesc at h
  split at h
  · cases h
  · rename_i m hFind
    cases h
    refine ⟨?_, List.find?_some hFind, rfl⟩
    exact List.mem_range.mp (List.mem_of_find?_eq_some hFind)

section

variable (h : Inv s)
include h

theorem Inv.alloc (hAlloc : allocDesc s.disk = some (i, d'))
    (hHeld : pc'.held = (s.pc p).held ++ [i]) (hNone : ∀ b i j k, ¬ (s.pc p).Waits b i j k)
    (hOk : PcOk s.disk p pc') (hBuf : pc'.buf = (s.pc p).buf) : Inv (s.move p d' pc') := by
  rcases allocDesc_some hAlloc with ⟨hi, hFree, hEq⟩
  have hFrame : ∀ q pc, Frame s.disk d' q pc := by
    intro q pc
    rw [hEq]
    exact ⟨fun _ _ => rfl, rfl, rfl, fun _ _ _ _ _ => ⟨rfl, rfl, rfl⟩,
        fun _ _ _ _ _ => ⟨Iff.rfl, Iff.rfl⟩⟩
  refine h.move ?_ ?_ (hOk.frame (hFrame p pc'))
    (fun q _ => hFrame q (s.pc q)) hBuf (by rw [hEq]) s.lock
  · rw [hEq]
    exact h.own.alloc hi hFree hHeld
  apply h.flight.keep
  · rw [hEq]
  · rw [hEq]
  · rw [hEq]
  · intro m
    rw [hEq]
  · intro b m j k hWaits _
    exact absurd hWaits (hNone b m j k)

/- The first descriptor of a process goes back. It is not free, so `free_desc` does not panic. -/
theorem Inv.freeDesc (pc' : Pc) (hHeld : (s.pc p).held = i :: pc'.held)
    (hNone : ∀ b i j k, ¬ (s.pc p).Waits b i j k) (hOk : PcOk (s.disk.release i) p pc')
    (hBuf : pc'.buf = (s.pc p).buf) :
    freeDesc i s.disk = .ok (s.disk.release i) ∧ Inv (s.move p (s.disk.release i) pc') := by
  have hMine : i ∈ (s.pc p).held := by
    rw [hHeld]
    exact List.mem_cons_self
  rcases h.own.taken p i hMine with ⟨hi, hFree⟩
  refine ⟨?_, ?_⟩
  · unfold Virtio.freeDesc
    rw [if_neg (by omega), hFree]
    rfl
  refine h.move (h.own.free hHeld) ?_ hOk ?_ hBuf rfl s.lock
  · refine h.flight.keep ?_ ?_ ?_ ?_ ?_
    · rfl
    · rfl
    · rfl
    · intro m
      rfl
    · intro b m j k hWaits _
      exact absurd hWaits (hNone b m j k)
  · intro q hq
    refine ⟨?_, rfl, rfl, fun _ _ _ _ _ => ⟨rfl, rfl, rfl⟩, fun _ _ _ _ _ => ⟨Iff.rfl, Iff.rfl⟩⟩
    intro m hm
    apply update_of_ne
    intro hEq
    exact hq (h.own.apart q p i (hEq ▸ hm) hMine)

/-
  A request is submitted. Its head was in no ring, since the
  heads there belong to processes that wait.
-/
theorem Inv.submit {write : Bool} (hPc : s.pc p = .submit b write i j k) :
    Inv (s.move p (submit p b write i j k s.disk) (.wait b i j k)) := by
  have hNodup := h.own.nodup p
  have hTaken := h.own.taken p
  have hQuiet := h.pcs p
  rw [hPc] at hNodup hTaken hQuiet
  simp only [Pc.held, List.nodup_cons, List.mem_cons, List.not_mem_nil, or_false, not_or] at hNodup
  rcases hNodup with ⟨⟨hij, hik⟩, hjk, _⟩
  have hOthers : ∀ q m, q ≠ p → m ∈ (s.pc q).held → m ≠ i ∧ m ≠ j ∧ m ≠ k := by
    intro q m hq hm
    have hNot : m ∉ (s.pc p).held := by
      intro hMine
      exact hq (h.own.apart q p m hm hMine)
    rw [hPc] at hNot
    simpa [Pc.held] using hNot
  have hNew : i ∉ s.disk.flight := by
    intro hMem
    rcases h.flight.waited i hMem with ⟨q, b', j', k', hW⟩
    by_cases hq : q = p
    · rw [hq, hPc] at hW
      cases hW
    · apply (hOthers q i hq _).1 rfl
      rw [hW.held]
      simp
  have hNewParts := hNew
  unfold Disk.flight at hNewParts
  simp only [List.mem_append, not_or] at hNewParts
  rcases hNewParts with ⟨⟨hNotAvail, hNotActive⟩, hNotUsed⟩
  have hDistinct := h.flight.distinct
  have hLt : i < NUM := (hTaken i (by simp [Pc.held])).1
  have hRoom : s.disk.avail.used < 8 := by
    apply Flight.room (i := i)
    · rw [List.nodup_append]
      refine ⟨?_, List.nodup_singleton i, ?_⟩
      · unfold Disk.flight at hDistinct
        rw [List.append_assoc] at hDistinct
        exact hDistinct.of_append_left
      · intro m hm n hn hEq
        rw [List.mem_singleton.mp hn] at hEq
        exact hNotAvail (hEq ▸ hm)
    · intro m hm
      rcases List.mem_append.mp hm with hOld | hLast
      · apply h.flight_lt
        unfold Disk.flight
        simp [hOld]
      · rw [List.mem_singleton.mp hLast]
        exact hLt
  have hContents := RingBuf.contents_push h.flight.avail i hRoom
  have hPerm : (Virtio.submit p b write i j k s.disk).flight.Perm (i :: s.disk.flight) := by
    change ((s.disk.avail.push i).contents ++ s.disk.active ++ s.disk.used.contents).Perm _
    rw [hContents]
    unfold Disk.flight
    simp only [List.append_assoc]
    exact List.perm_middle
  refine h.move ?_ ?_ ?_ ?_ ?_ ?_ s.lock
  · apply h.own.keep
    rw [hPc]
    rfl
  · refine ⟨h.flight.avail.push i hRoom, h.flight.used, ?_, ?_, ?_⟩
    · exact hPerm.nodup_iff.mpr (List.nodup_cons.mpr ⟨hNew, hDistinct⟩)
    · intro m hm
      rcases List.mem_cons.mp (hPerm.mem_iff.mp hm) with
        hEq | hOld
      · refine ⟨p, b, j, k, ?_⟩
        rw [update_self, hEq]
        exact .wait b i j k
      rcases h.flight.waited m hOld with ⟨q, b', j', k', hW⟩
      have hq : q ≠ p := by
        intro hEq
        rw [hEq, hPc] at hW
        cases hW
      refine ⟨q, b', j', k', ?_⟩
      rw [update_of_ne hq]
      exact hW
    · intro m hm
      have hNe : m ≠ i := by
        intro hEq
        exact hNotUsed (hEq ▸ hm)
      change (update s.disk.info i _ m).status = 0
      rw [update_of_ne hNe]
      exact h.flight.status m hm
  · refine ⟨?_, ?_, ?_, ?_, ?_⟩
    · cases write <;>
        simp [Linked, Virtio.submit, Desc.more, VRING_DESC_F_NEXT, VRING_DESC_F_WRITE, hij, hik,
          hjk]
    · simp [Virtio.submit]
    · simp [Virtio.submit]
    · simp [Virtio.submit]
    · apply Stage.open_
      · left
        change i ∈ (s.disk.avail.push i).contents
        rw [hContents]
        simp
      · simp [Virtio.submit]
      · change s.disk.sent p = s.disk.served p at hQuiet
        simp [Virtio.submit, hQuiet]
  · intro q hq
    refine ⟨?_, ?_, rfl, ?_, ?_⟩
    · intro m hm
      rcases hOthers q m hq hm with ⟨hmi, hmj, hmk⟩
      simp [Virtio.submit, hmi, hmj, hmk]
    · simp [Virtio.submit, hq]
    · intro b' m j' k' hW
      have hmi : m ≠ i := (hOthers q m hq (by rw [hW.held]; simp)).1
      have hb : b' ≠ b := by
        intro hEq
        apply hq
        apply h.buf_unique hW.buf
        rw [hPc, hEq]
        rfl
      simp [Virtio.submit, hmi, hb]
    · intro b' m j' k' hW
      have hmi : m ≠ i := (hOthers q m hq (by rw [hW.held]; simp)).1
      refine ⟨?_, Iff.rfl⟩
      change m ∈ (s.disk.avail.push i).contents ∨ m ∈ s.disk.active ↔ _
      rw [hContents]
      simp [hmi]
  · rw [hPc]
    rfl
  · rfl

theorem Inv.clear (hPc : s.pc p = .clear b i j k) :
    Inv (s.move p { s.disk with
        info := update s.disk.info i { s.disk.info i with b := none } }
      (.freeing b i [i, j, k])) := by
  have hOk := h.pcs p
  rw [hPc] at hOk
  refine h.move ?_ ?_ ?_ ?_ ?_ ?_ s.lock
  · apply h.own.keep
    rw [hPc]
    rfl
  · refine h.flight.keep ?_ ?_ ?_ ?_ ?_
    · rfl
    · rfl
    · rfl
    · intro m
      by_cases hm : m = i
      · rw [hm]
        simp
      · simp [hm]
    · intro b' m j' k' hW
      rw [hPc] at hW
      cases hW
  · exact ⟨rfl, hOk.1, hOk.2⟩
  · intro q hq
    refine ⟨fun _ _ => rfl, rfl, rfl, ?_, fun _ _ _ _ _ => ⟨Iff.rfl, Iff.rfl⟩⟩
    intro b' m j' k' hW
    have hm : m ≠ i := by
      intro hEq
      apply hq
      apply h.own.apart q p i
      · rw [hW.held, hEq]
        simp
      · rw [hPc]
        simp [Pc.held]
    simp [hm]
  · rw [hPc]
    rfl
  · rfl

/- A call returns, and its buffer is free again. -/
theorem Inv.leave (hPc : s.pc p = .leave b) :
    Inv { s.goto p .idle with
      lock := .none
      owner := update s.owner b none } where
  own := by
    apply h.own.keep
    rw [hPc]
    rfl
  flight := by
    refine h.flight.keep rfl rfl rfl (fun _ => rfl) ?_
    intro b' m j' k' hW
    rw [hPc] at hW
    cases hW
  pcs q := by
    change PcOk s.disk q (update s.pc p .idle q)
    by_cases hq : q = p
    · have hOk := h.pcs p
      rw [hPc] at hOk
      rw [hq, update_self]
      exact hOk
    · rw [update_of_ne hq]
      exact h.pcs q
  owner q b' hBuf := by
    change (update s.pc p .idle q).buf = some b' at hBuf
    by_cases hq : q = p
    · rw [hq, update_self] at hBuf
      cases hBuf
    rw [update_of_ne hq] at hBuf
    have hNe : b' ≠ b := by
      intro hEq
      apply hq
      apply h.buf_unique hBuf
      rw [hPc, hEq]
      rfl
    exact (update_of_ne hNe _ _).trans (h.owner q b' hBuf)
  body := h.body

theorem Inv.call (hPc : s.pc p = .idle) (hOwner : s.owner b = none) (write : Bool) :
    Inv { s.goto p (.enter b write) with owner := update s.owner b (some p) } where
  own := by
    apply h.own.keep
    rw [hPc]
    rfl
  flight := by
    refine h.flight.keep rfl rfl rfl (fun _ => rfl) ?_
    intro b' m j' k' hW
    rw [hPc] at hW
    cases hW
  pcs q := by
    change PcOk s.disk q (update s.pc p (.enter b write) q)
    by_cases hq : q = p
    · have hOk := h.pcs p
      rw [hPc] at hOk
      rw [hq, update_self]
      exact hOk
    · rw [update_of_ne hq]
      exact h.pcs q
  owner q b' hBuf := by
    change (update s.pc p (.enter b write) q).buf = some b' at hBuf
    by_cases hq : q = p
    · rw [hq, update_self] at hBuf
      rw [← Option.some.inj hBuf, hq]
      exact update_self b _ _
    · rw [update_of_ne hq] at hBuf
      have hOld := h.owner q b' hBuf
      have hNe : b' ≠ b := by
        intro hEq
        rw [hEq, hOwner] at hOld
        cases hOld
      exact (update_of_ne hNe _ _).trans hOld
  body := h.body

end

theorem Linked.release {rest : List Nat} (h : Linked d.desc (i :: rest))
    (hNodup : (i :: rest).Nodup) :
    Linked (d.release i).desc rest ∧
      ((d.desc i).more = true ↔ rest ≠ []) ∧ (rest ≠ [] → rest.head? = some (d.desc i).next) := by
  have hStay : ∀ m ∈ rest, (d.release i).desc m = d.desc m := by
    intro m hm
    apply update_of_ne
    intro hEq
    exact (List.nodup_cons.mp hNodup).1 (hEq ▸ hm)
  cases rest with
  | nil =>
    have hLast : (d.desc i).more = false := h
    refine ⟨trivial, ?_, ?_⟩
    · simp [hLast]
    · intro hNe
      exact absurd rfl hNe
  | cons j rest =>
    rcases h with ⟨hMore, hNext, hRest⟩
    refine ⟨Linked.congr hRest hStay, ?_, ?_⟩
    · simp [hMore]
    · intro _
      rw [hNext]
      rfl

section

variable (h : Inv s)
include h

/- One turn of `free_chain`. -/
theorem Inv.freeing {left : List Nat} (hPc : s.pc p = .freeing b i left)
    (hStep : stepProc s p = some o) : ∃ s', o = .next s' ∧ Inv s' := by
  have hOk := h.pcs p
  have hNodup := h.own.nodup p
  rw [hPc] at hOk hNodup
  rcases hOk with ⟨hHead, hLinked, hQuiet⟩
  cases left with
  | nil => cases hHead
  | cons m rest =>
    rw [Option.some.inj hHead] at hLinked hNodup
    rcases hLinked.release hNodup with ⟨hRest, hMore, hNext⟩
    have hNone : ∀ b i j k, ¬ (s.pc p).Waits b i j k := by
      intro b' i' j' k' hW
      rw [hPc] at hW
      cases hW
    have hHeld : (s.pc p).held = i :: rest := by
      rw [hPc, ← Option.some.inj hHead]
      rfl
    simp only [stepProc, hPc] at hStep
    by_cases hEnd : rest = []
    · have hLast : ¬ (s.disk.desc i).more = true := by
        rw [hMore]
        exact fun hNe => hNe hEnd
      rcases h.freeDesc (.leave b) (by rw [hHeld, hEnd]; rfl) hNone hQuiet
          (by rw [hPc]; rfl) with ⟨hFree, hInv⟩
      rw [hFree] at hStep
      simp only [hLast, if_false, Bool.false_eq_true] at hStep
      exact ⟨_, (Option.some.inj hStep).symm, hInv⟩
    · rcases h.freeDesc (.freeing b (s.disk.desc i).next rest)
          hHeld hNone ⟨hNext hEnd, hRest, hQuiet⟩ (by rw [hPc]; rfl) with ⟨hFree, hInv⟩
      rw [hFree] at hStep
      simp only [hMore.mpr hEnd, if_true, List.tail_cons] at hStep
      exact ⟨_, (Option.some.inj hStep).symm, hInv⟩

/- `acquire` at a place that has no descriptors to show. -/
theorem Inv.acquire (hStep : s.acquire p pc' = some o) (hHeld : pc'.held = (s.pc p).held) (hWaits :
      ∀ b i j k, (s.pc p).Waits b i j k → i ∈ s.disk.flight → ∃ b' j' k', pc'.Waits b' i j' k')
    (hOk : PcOk s.disk p pc') (hBuf : pc'.buf = (s.pc p).buf) : ∃ s', o = .next s' ∧ Inv s' := by
  unfold State.acquire at hStep
  split at hStep
  · refine ⟨_, (Option.some.inj hStep).symm, ?_⟩
    exact h.goto hHeld hWaits hOk hBuf (.proc p)
  · cases hStep

/- One turn of `alloc3_desc`. -/
theorem Inv.allocating {write : Bool} {idx : List Nat} (hPc : s.pc p = .alloc b write idx)
    (hStep : stepProc s p = some o) : ∃ s', o = .next s' ∧ Inv s' := by
  have hOk := h.pcs p
  rw [hPc] at hOk
  rcases hOk with ⟨hLen, hQuiet⟩
  have hNone : ∀ b i j k, ¬ (s.pc p).Waits b i j k := by
    intro b' i' j' k' hW
    rw [hPc] at hW
    cases hW
  have hHeld : (s.pc p).held = idx := by
    rw [hPc]
    rfl
  have hBuf : (s.pc p).buf = some b := by
    rw [hPc]
    rfl
  simp only [stepProc, hPc] at hStep
  split at hStep
  · refine ⟨_, (Option.some.inj hStep).symm, ?_⟩
    refine h.goto ?_ ?_ ?_ ?_ s.lock
    · exact hHeld.symm
    · intro b' m j' k' hW
      exact absurd hW (hNone b' m j' k')
    · exact hQuiet
    · exact hBuf.symm
  rename_i i disk hAlloc
  split at hStep
  · rename_i m n
    refine ⟨_, (Option.some.inj hStep).symm, ?_⟩
    refine h.alloc hAlloc ?_ hNone ?_ ?_
    · rw [hHeld]
      rfl
    · exact hQuiet
    · exact hBuf.symm
  rename_i hShort
  refine ⟨_, (Option.some.inj hStep).symm, ?_⟩
  refine h.alloc hAlloc ?_ hNone ?_ ?_
  · rw [hHeld]
    rfl
  · refine ⟨?_, hQuiet⟩
    rw [List.length_append, List.length_singleton]
    -- Two descriptors would be the other branch.
    rcases idx with _ | ⟨m, _ | ⟨n, _ | ⟨r, rest⟩⟩⟩
    · simp
    · simp
    · exact absurd rfl (hShort m n)
    · simp at hLen
  · exact hBuf.symm

/- One turn of the way back of `alloc3_desc`. -/
theorem Inv.undoing {write : Bool} {idx : List Nat} (hPc : s.pc p = .undo b write idx)
    (hStep : stepProc s p = some o) : ∃ s', o = .next s' ∧ Inv s' := by
  have hQuiet := h.pcs p
  rw [hPc] at hQuiet
  have hNone : ∀ b i j k, ¬ (s.pc p).Waits b i j k := by
    intro b' i' j' k' hW
    rw [hPc] at hW
    cases hW
  simp only [stepProc, hPc] at hStep
  cases idx with
  | nil =>
    refine ⟨_, (Option.some.inj hStep).symm, ?_⟩
    refine h.goto ?_ ?_ ?_ ?_ .none
    · rw [hPc]
      rfl
    · intro b' m j' k' hW
      exact absurd hW (hNone b' m j' k')
    · exact hQuiet
    · rw [hPc]
      rfl
  | cons i rest =>
    rcases h.freeDesc (.undo b write rest) (by rw [hPc]; rfl) hNone hQuiet
        (by rw [hPc]; rfl) with ⟨hFree, hInv⟩
    simp only [hFree] at hStep
    exact ⟨_, (Option.some.inj hStep).symm, hInv⟩

theorem Inv.testing (hPc : s.pc p = .wait b i j k) (hStep : stepProc s p = some o) :
    ∃ s', o = .next s' ∧ Inv s' := by
  have hReq : Request s.disk p b i j k := by
    apply h.request
    rw [hPc]
    exact .wait b i j k
  simp only [stepProc, hPc] at hStep
  split at hStep
  · refine ⟨_, (Option.some.inj hStep).symm, ?_⟩
    refine h.goto ?_ ?_ ?_ ?_ .none
    · rw [hPc]
      rfl
    · rw [hPc]
      intro b' m j' k' hW _
      cases hW
      exact ⟨b, j, k, .parked b i j k⟩
    · exact hReq
    · rw [hPc]
      rfl
  rename_i hBusy
  refine ⟨_, (Option.some.inj hStep).symm, ?_⟩
  -- The request left the rings when its flag was cleared.
  cases hReq.stage with
  | open_ _ hb _ => exact absurd hb hBusy
  | done _ hb _ => exact absurd hb hBusy
  | seen hHead _ hCount =>
    refine h.goto ?_ ?_ ?_ ?_ s.lock
    · rw [hPc]
      rfl
    · rw [hPc]
      intro b' m j' k' hW hFlight
      cases hW
      unfold Disk.flight at hFlight
      simp only [List.mem_append] at hFlight
      rcases hFlight with (hA | hA) | hA
      · exact absurd (Or.inl hA) hHead.1
      · exact absurd (Or.inr hA) hHead.1
      · exact absurd hA hHead.2
    · exact ⟨hReq.linked, hCount⟩
    · rw [hPc]
      rfl

theorem Inv.stepProc (hStep : stepProc s p = some o) : ∃ s', o = .next s' ∧ Inv s' := by
  have hOk := h.pcs p
  cases hPc : s.pc p with
  | idle =>
    simp only [Virtio.stepProc, hPc] at hStep
    cases hStep
  | enter b write =>
    rw [hPc] at hOk
    simp only [Virtio.stepProc, hPc] at hStep
    refine h.acquire hStep ?_ ?_ ⟨Nat.zero_le _, hOk⟩ ?_
    · rw [hPc]
      rfl
    · rw [hPc]
      intro _ _ _ _ hW
      cases hW
    · rw [hPc]
      rfl
  | alloc b write idx => exact h.allocating hPc hStep
  | undo b write idx => exact h.undoing hPc hStep
  | asleep b write =>
    rw [hPc] at hOk
    simp only [Virtio.stepProc, hPc] at hStep
    refine h.acquire hStep ?_ ?_ ⟨Nat.zero_le _, hOk⟩ ?_
    · rw [hPc]
      rfl
    · rw [hPc]
      intro _ _ _ _ hW
      cases hW
    · rw [hPc]
      rfl
  | submit b write i j k =>
    simp only [Virtio.stepProc, hPc] at hStep
    exact ⟨_, (Option.some.inj hStep).symm, h.submit hPc⟩
  | wait b i j k => exact h.testing hPc hStep
  | parked b i j k =>
    rw [hPc] at hOk
    simp only [Virtio.stepProc, hPc] at hStep
    refine h.acquire hStep ?_ ?_ hOk ?_
    · rw [hPc]
      rfl
    · rw [hPc]
      intro b' m j' k' hW _
      cases hW
      exact ⟨b, j, k, .wait b i j k⟩
    · rw [hPc]
      rfl
  | clear b i j k =>
    simp only [Virtio.stepProc, hPc] at hStep
    exact ⟨_, (Option.some.inj hStep).symm, h.clear hPc⟩
  | freeing b i left => exact h.freeing hPc hStep
  | leave b =>
    simp only [Virtio.stepProc, hPc] at hStep
    exact ⟨_, (Option.some.inj hStep).symm, h.leave hPc⟩

end

---- Steps Of The Device And The Handler

theorem PcOk.of_request {pc : Pc} (hWaits : pc.Waits b i j k) (h : Request d p b i j k) :
    PcOk d p pc := by
  cases hWaits <;> exact h

section

variable (h : Inv s)
include h

/-
  A step on the request with head `i` of process `p`: the
  other processes keep their part of the disk.
-/
theorem Inv.pcs_of_request (hWaits : (s.pc p).Waits b i j k) (hReq : Request d' p b i j k)
    (hFrame : ∀ q, q ≠ p → Frame s.disk d' q (s.pc q)) (q : Nat) : PcOk d' q (s.pc q) := by
  by_cases hq : q = p
  · rw [hq]
    exact PcOk.of_request hWaits hReq
  · exact (h.pcs q).frame (hFrame q hq)

/- The device fetches the oldest head of the avail ring. -/
theorem Inv.fetch (hFetch : fetch s.disk = some d') : Inv { s with disk := d' } := by
  unfold Virtio.fetch at hFetch
  split at hFetch
  · cases hFetch
  rename_i hSome
  rw [← Option.some.inj hFetch]
  have hPos : 0 < s.disk.avail.used := by
    apply Nat.pos_of_ne_zero
    intro hZero
    exact hSome ((RingBuf.empty_iff h.flight.avail).mpr hZero)
  have hPop := RingBuf.contents_pop h.flight.avail hPos
  have hPerm : (s.disk.avail.pop.contents ++ (s.disk.active ++ [s.disk.avail.front]) ++
      s.disk.used.contents).Perm s.disk.flight := by
    unfold Disk.flight
    rw [hPop]
    simp only [List.append_assoc, List.cons_append, List.nil_append]
    rw [← List.append_assoc]
    refine List.perm_middle.trans ?_
    rw [List.append_assoc]
  refine ⟨h.own, ?_, ?_, h.owner, h.body⟩
  · refine ⟨h.flight.avail.pop hPos, h.flight.used, ?_, ?_, h.flight.status⟩
    · exact hPerm.nodup_iff.mpr h.flight.distinct
    · intro m hm
      exact h.flight.waited m (hPerm.mem_iff.mp hm)
  intro q
  apply (h.pcs q).frame
  refine ⟨fun _ _ => rfl, rfl, rfl, fun _ _ _ _ _ => ⟨rfl, rfl, rfl⟩, ?_⟩
  intro b m j k _
  refine ⟨?_, Iff.rfl⟩
  change m ∈ s.disk.avail.pop.contents ∨ m ∈ s.disk.active ++ [s.disk.avail.front] ↔ _
  rw [hPop, List.mem_append, List.mem_singleton, List.mem_cons]
  tauto

theorem Inv.head_ne {q b' i' j' k' : Nat} (hp : (s.pc p).Waits b i j k)
    (hq : (s.pc q).Waits b' i' j' k') (hNe : q ≠ p) : i' ≠ i ∧ b' ≠ b := by
  refine ⟨?_, ?_⟩
  · intro hEq
    rw [hEq] at hq
    exact hNe (h.waits_unique hq hp)
  · intro hEq
    apply hNe
    apply h.buf_unique hq.buf
    rw [hEq]
    exact hp.buf

/-
  The device completes a chain: it finds the status byte of
  the head through the chain that the process has formatted.
-/
theorem Inv.complete {head : Nat} (hComplete : complete head s.disk = some d') :
    Inv { s with disk := d' } := by
  unfold Virtio.complete at hComplete
  split at hComplete
  swap
  · cases hComplete
  rename_i hMem
  have hFlight : head ∈ s.disk.flight := by
    unfold Disk.flight
    simp [hMem]
  rcases h.flight.waited head hFlight with ⟨p, b, j, k, hWaits⟩
  have hReq := h.request hWaits
  rcases hReq.linked with ⟨_, hNext, _, hNext', _⟩
  simp only [hNext, hNext', hReq.status, hReq.asker] at hComplete
  rw [← Option.some.inj hComplete]
  have hDistinct := h.flight.distinct
  have hParts := hDistinct
  unfold Disk.flight at hParts
  rw [List.append_assoc, List.nodup_append, List.nodup_append] at hParts
  rcases hParts with ⟨_, ⟨hActiveNodup, hUsedNodup, hDis⟩, hDis'⟩
  have hNotUsed : head ∉ s.disk.used.contents := by
    intro hUsed
    exact hDis head hMem head hUsed rfl
  have hNotAvail : head ∉ s.disk.avail.contents := by
    intro hAvail
    exact hDis' head hAvail head (List.mem_append_left _ hMem) rfl
  have hRoom : s.disk.used.used < 8 := by
    apply Flight.room (i := head)
    · rw [List.nodup_append]
      refine ⟨hUsedNodup, List.nodup_singleton head, ?_⟩
      intro m hm n hn hEq
      rw [List.mem_singleton.mp hn] at hEq
      exact hNotUsed (hEq ▸ hm)
    · intro m hm
      apply h.flight_lt
      rcases List.mem_append.mp hm with hOld | hLast
      · unfold Disk.flight
        simp [hOld]
      · rw [List.mem_singleton.mp hLast]
        exact hFlight
  have hContents := RingBuf.contents_push h.flight.used head hRoom
  have hPerm : (s.disk.avail.contents ++ s.disk.active.erase head ++
      (s.disk.used.push head).contents).Perm s.disk.flight := by
    rw [hContents]
    unfold Disk.flight
    simp only [List.append_assoc]
    apply List.Perm.append_left
    have hSwap :
        (s.disk.used.contents ++ s.disk.active).Perm (s.disk.active ++ s.disk.used.contents) :=
      List.perm_append_comm
    refine (List.perm_append_comm_assoc _ _ _).trans (List.Perm.trans ?_ hSwap)
    apply List.Perm.append_left
    exact (List.perm_append_singleton _ _).trans (List.perm_cons_erase hMem).symm
  refine ⟨h.own, ?_, ?_, h.owner, ?_⟩
  · refine ⟨h.flight.avail, h.flight.used.push head hRoom, hPerm.nodup_iff.mpr hDistinct, ?_, ?_⟩
    · intro m hm
      exact h.flight.waited m (hPerm.mem_iff.mp hm)
    intro m hm
    change m ∈ (s.disk.used.push head).contents at hm
    change (update s.disk.info head _ m).status = 0
    by_cases hEq : m = head
    · rw [hEq, update_self]
    · rw [update_of_ne hEq]
      rw [hContents, List.mem_append, List.mem_singleton] at hm
      exact h.flight.status m (hm.resolve_right hEq)
  · apply h.pcs_of_request hWaits
    · refine ⟨hReq.linked, hReq.status, ?_, hReq.asker, ?_⟩
      · change (update s.disk.info head _ head).b = some b
        rw [update_self]
        exact hReq.info
      cases hReq.stage with
      | open_ _ hBusy hCount =>
        apply Stage.done
        · change head ∈ (s.disk.used.push head).contents
          rw [hContents]
          simp
        · exact hBusy
        · change s.disk.sent p = update s.disk.served p _ p
          rw [update_self]
          exact hCount
      | done hHead _ _ => exact absurd hHead hNotUsed
      | seen hHead _ _ => exact absurd (Or.inr hMem) hHead.1
    · intro q hq
      refine ⟨fun _ _ => rfl, rfl, ?_, ?_, ?_⟩
      · exact update_of_ne hq _ _
      · intro b' m j' k' hW
        have hm := (h.head_ne hWaits hW hq).1
        refine ⟨?_, rfl, rfl⟩
        change (update s.disk.info head _ m).b = _
        rw [update_of_ne hm]
      · intro b' m j' k' hW
        have hm := (h.head_ne hWaits hW hq).1
        refine ⟨?_, ?_⟩
        · change m ∈ s.disk.avail.contents ∨ m ∈ s.disk.active.erase head ↔ _
          rw [List.mem_erase_of_ne hm]
        · change m ∈ (s.disk.used.push head).contents ↔ _
          rw [hContents, List.mem_append, List.mem_singleton]
          exact or_iff_left hm
  · intro _
    change (s.disk.used.push head).head ≠ (s.disk.used.push head).tail
    intro hEmpty
    have hZero := (RingBuf.empty_iff (h.flight.used.push head hRoom)).mp hEmpty
    rw [RingBuf.used_push h.flight.used head hRoom] at hZero
    omega

/- The handler takes the oldest entry of the used ring off and clears the flag of its buffer. -/
theorem Inv.retire (hWaits : (s.pc p).Waits b i j k) (hPos : 0 < s.disk.used.used)
    (hFront : s.disk.used.front = i) :
    Inv { s with
      disk :=
        { s.disk with
          busy := update s.disk.busy b false
          used := s.disk.used.pop }
      intr := .loop } := by
  have hReq := h.request hWaits
  have hPop := RingBuf.contents_pop h.flight.used hPos
  rw [hFront] at hPop
  have hDistinct := h.flight.distinct
  unfold Disk.flight at hDistinct
  rw [hPop, List.nodup_middle, List.nodup_cons,
    List.mem_append, List.mem_append, not_or] at hDistinct
  rcases hDistinct with ⟨⟨hOpen, hLater⟩, hRest⟩
  refine ⟨h.own, ?_, ?_, h.owner, by simp⟩
  · refine ⟨h.flight.avail, h.flight.used.pop hPos, hRest, ?_, ?_⟩
    · intro m hm
      apply h.flight.waited
      unfold Disk.flight at hm ⊢
      rw [hPop]
      rcases List.mem_append.mp hm with hOld | hUsed
      · exact List.mem_append_left _ hOld
      · exact List.mem_append_right _ (List.mem_cons_of_mem i hUsed)
    · intro m hm
      apply h.flight.status
      rw [hPop]
      exact List.mem_cons_of_mem i hm
  · apply h.pcs_of_request hWaits
    · refine ⟨hReq.linked, hReq.status, hReq.info, hReq.asker, ?_⟩
      apply Stage.seen
      · exact ⟨hOpen, hLater⟩
      · exact update_self b _ _
      · cases hReq.stage with
        | open_ hHead _ _ => exact absurd hHead hOpen
        | done _ _ hCount => exact hCount
        | seen _ _ hCount => exact hCount
    · intro q hq
      refine ⟨fun _ _ => rfl, rfl, rfl, ?_, ?_⟩
      · intro b' m j' k' hW
        refine ⟨rfl, rfl, ?_⟩
        exact update_of_ne (h.head_ne hWaits hW hq).2 _ _
      · intro b' m j' k' hW
        refine ⟨Iff.rfl, ?_⟩
        rw [hPop, List.mem_cons]
        exact (or_iff_right (h.head_ne hWaits hW hq).1).symm

/- What the handler finds in the used ring. -/
theorem Inv.front (hIntr : s.intr = .body) :
    0 < s.disk.used.used ∧ (s.disk.info s.disk.used.front).status = 0 ∧ ∃ p b j k,
      (s.pc p).Waits b s.disk.used.front j k ∧ (s.disk.info s.disk.used.front).b = some b := by
  have hPos : 0 < s.disk.used.used := by
    apply Nat.pos_of_ne_zero
    intro hZero
    exact h.body hIntr ((RingBuf.empty_iff h.flight.used).mpr hZero)
  have hFront : s.disk.used.front ∈ s.disk.used.contents := by
    rw [RingBuf.contents_pop h.flight.used hPos]
    exact List.mem_cons_self
  have hFlight : s.disk.used.front ∈ s.disk.flight := List.mem_append_right _ hFront
  rcases h.flight.waited _ hFlight with ⟨p, b, j, k, hWaits⟩
  exact ⟨hPos, h.flight.status _ hFront, p, b, j, k, hWaits, (h.request hWaits).info⟩

theorem Inv.stepIntr (hStep : stepIntr s = some o) : ∃ s', o = .next s' ∧ Inv s' := by
  cases hIntr : s.intr with
  | idle =>
    simp only [Virtio.stepIntr, hIntr] at hStep
    split at hStep
    · refine ⟨_, (Option.some.inj hStep).symm, ?_⟩
      exact ⟨h.own, h.flight, h.pcs, h.owner, by simp⟩
    · cases hStep
  | loop =>
    simp only [Virtio.stepIntr, hIntr] at hStep
    split at hStep
    · refine ⟨_, (Option.some.inj hStep).symm, ?_⟩
      exact ⟨h.own, h.flight, h.pcs, h.owner, by simp⟩
    · rename_i hSome
      refine ⟨_, (Option.some.inj hStep).symm, ?_⟩
      exact ⟨h.own, h.flight, h.pcs, h.owner, fun _ => hSome⟩
  | body =>
    rcases h.front hIntr with ⟨hPos, hStatus, p, b, j, k, hWaits, hInfo⟩
    simp only [Virtio.stepIntr, hIntr, hStatus, hInfo] at hStep
    refine ⟨_, (Option.some.inj hStep).symm, ?_⟩
    exact h.retire hWaits hPos rfl

---- Main Results

/- No step panics, and every step keeps the invariant. -/
theorem Inv.step {c : Choice} (hStep : step s c = some o) : ∃ s', o = .next s' ∧ Inv s' := by
  cases c with
  | call p b write =>
    simp only [Virtio.step] at hStep
    split at hStep
    · rename_i hCall
      exact ⟨_, (Option.some.inj hStep).symm, h.call hCall.1 hCall.2 write⟩
    · cases hStep
  | proc p => exact h.stepProc hStep
  | intr => exact h.stepIntr hStep
  | fetch =>
    rcases Option.map_eq_some_iff.mp hStep with ⟨d', hFetch, hEq⟩
    exact ⟨_, hEq.symm, h.fetch hFetch⟩
  | complete head =>
    rcases Option.map_eq_some_iff.mp hStep with ⟨d', hComplete, hEq⟩
    exact ⟨_, hEq.symm, h.complete hComplete⟩

end

theorem Inv.boot : Inv boot where
  own :=
    { nodup := fun _ => List.nodup_nil
      taken := fun _ _ hi => by cases hi
      apart := fun _ _ _ hi => by cases hi
      cover := by
        intro i hi hFree
        change decide (i < NUM) = false at hFree
        exact absurd hi (of_decide_eq_false hFree) }
  flight :=
    { avail :=
        ⟨by decide, by decide, by decide, by decide, by decide, by decide⟩
      used := ⟨by decide, by decide, by decide, by decide, by decide, by decide⟩
      distinct := by decide
      waited := fun _ hm => by cases hm
      status := fun _ hm => by cases hm }
  pcs _ := rfl
  owner _ _ hBuf := by cases hBuf
  body hBody := by cases hBody

theorem Inv.of_reachable (h : Reachable s) : Inv s := by
  induction h with
  | boot => exact Inv.boot
  | step _ hStep ih =>
    rcases ih.step hStep with ⟨s', hEq, hInv⟩
    cases hEq
    exact hInv

/-
  In every reachable state the requests between submission
  and `free_chain` are chains of three descriptors that are
  not free, no two processes share a descriptor, and every
  other descriptor is free. The handler clears the flag of
  the buffer that was submitted with the head it finds, a
  process leaves the wait only when the device has completed
  its requests, and no step panics.
-/
theorem request_protocol
    {s : State}
    (h : Reachable s) :
    (∀ p b i j k,
      (s.pc p).Waits b i j k ∨ s.pc p = .clear b i j k →
      Linked s.disk.desc [i, j, k] ∧
        [i, j, k].Nodup ∧
        ∀ m ∈ [i, j, k], m < NUM ∧ s.disk.free m = false) ∧
    (∀ p q m, m ∈ (s.pc p).held → m ∈ (s.pc q).held → p = q) ∧
    (∀ m, m < NUM → (s.disk.free m = false ↔ ∃ p, m ∈ (s.pc p).held)) ∧
    (s.intr = .body →
      ∃ p b j k,
        (s.pc p).Waits b s.disk.used.front j k ∧
        ∃ s',
          step s .intr = some (.next s') ∧
          s'.disk.busy = update s.disk.busy b false) ∧
    (∀ p, (∀ b i j k, ¬ (s.pc p).Waits b i j k) → s.disk.served p = s.disk.sent p) ∧
    (∀ c e, step s c ≠ some (.panic e)) := by
  have hInv := Inv.of_reachable h
  refine ⟨?_, hInv.own.apart, ?_, ?_, ?_, ?_⟩
  · intro p b i j k hPlace
    have hHeld : (s.pc p).held = [i, j, k] := by
      rcases hPlace with hWaits | hClear
      · exact hWaits.held
      · rw [hClear]
        rfl
    have hNodup := hInv.own.nodup p
    have hTaken := hInv.own.taken p
    rw [hHeld] at hNodup hTaken
    refine ⟨?_, hNodup, hTaken⟩
    rcases hPlace with hWaits | hClear
    · exact (hInv.request hWaits).linked
    · have hOk := hInv.pcs p
      rw [hClear] at hOk
      exact hOk.1
  · intro m hm
    refine ⟨hInv.own.cover m hm, ?_⟩
    intro hHeld
    rcases hHeld with ⟨p, hMem⟩
    exact (hInv.own.taken p m hMem).2
  · intro hIntr
    rcases hInv.front hIntr with ⟨_, hStatus, p, b, j, k, hWaits, hInfo⟩
    refine ⟨p, b, j, k, hWaits, ?_⟩
    simp only [step, stepIntr, hIntr, hStatus, hInfo]
    exact ⟨_, rfl, rfl⟩
  · intro p hNone
    have hOk := hInv.pcs p
    cases hPc : s.pc p with
    | wait b i j k => exact absurd (hPc ▸ .wait b i j k) (hNone b i j k)
    | parked b i j k => exact absurd (hPc ▸ .parked b i j k) (hNone b i j k)
    | alloc b write idx =>
      rw [hPc] at hOk
      exact hOk.2.symm
    | clear b i j k =>
      rw [hPc] at hOk
      exact hOk.2.symm
    | freeing b i left =>
      rw [hPc] at hOk
      exact hOk.2.2.symm
    | _ =>
      rw [hPc] at hOk
      exact Eq.symm hOk
  · intro c e hPanic
    rcases hInv.step hPanic with ⟨s', hEq, _⟩
    cases hEq

/- Two processes submit requests, and the device completes the second one first. -/
def twoRequests : List Choice :=
  [.call 0 7 true, .call 1 9 false] ++ List.replicate 6 (.proc 0) ++
    List.replicate 6 (.proc 1) ++
    [.fetch, .fetch, .complete 3, .intr, .intr]

theorem request_protocol_two :
    ∃ s, run boot twoRequests = some s ∧ s.pc 1 = .parked 9 3 4 5 ∧ ∃ p b j k,
      (s.pc p).Waits b s.disk.used.front j k ∧ ∃ s', step s .intr = some (.next s') ∧
        s'.disk.busy = update s.disk.busy b false := by
  refine ⟨_, rfl, rfl, ?_⟩
  exact (request_protocol (Reachable.boot.run twoRequests rfl)).2.2.2.1 rfl

end Xv6.Virtio
