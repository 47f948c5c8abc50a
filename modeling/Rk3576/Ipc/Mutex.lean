import Rk3576.Lib.Run
import Rk3576.Ipc.Object

/-! The mutexes of `ipc.c`, with priority inheritance. Each call is one section with interrupts
off; a thread that has to wait is handed the mutex by the thread that releases it, or is taken off
the list by its timer. No other object changes priorities here. -/
namespace Rk3576.Ipc
open Rk3576.Run

def rtMutexHoldMax : Nat := 0xff
/-- `struct rt_mutex` and the threads' current priorities. `taken` counts, for each thread, the
takes that have succeeded and were not released yet. -/
structure MutexWorld where
  flag : IpcFlag
  value : Nat
  originalPriority : Nat
  hold : Nat
  owner : Option Tid
  suspendThread : List Tid
  priority : Tid → Nat
  taken : Tid → Nat

/-- `rt_mutex_take` by `t`; `wait` is `timeout != 0`. -/
def rtMutexTake (w : MutexWorld) (t : Tid) (wait : Bool) : MutexWorld :=
  if w.owner = some t then
    if w.hold < rtMutexHoldMax then
      { w with hold := w.hold + 1, taken := Function.update w.taken t (w.taken t + 1) }
    else w
  else if w.value > 0 then
    let w := { w with value := w.value - 1, owner := some t, originalPriority := w.priority t }
    if w.hold < rtMutexHoldMax then
      { w with hold := w.hold + 1, taken := Function.update w.taken t (w.taken t + 1) }
    else w
  else if wait then
    -- the owner inherits a higher priority
    let priority :=
      match w.owner with
      | none => w.priority
      | some o => if w.priority t < w.priority o then Function.update w.priority o (w.priority t)
          else w.priority
    { w with
      priority, suspendThread := ipcListSuspend (givesWay w.flag priority) t w.suspendThread }
  else w

structure MutexFree (base : Tid → Nat) (w : MutexWorld) : Prop where
  flag : w.flag = .prio
  owner : w.owner = none
  value : w.value = 1
  hold : w.hold = 0
  waiters : w.suspendThread = []
  taken : ∀ t, w.taken t = 0
  priority : w.priority = base

/-- `o` inside, with a priority no lower than that of any thread that waits for it. -/
structure MutexHeld (base : Tid → Nat) (w : MutexWorld) (o : Tid) : Prop where
  flag : w.flag = .prio
  owner : w.owner = some o
  value : w.value = 0
  hold : 0 < w.hold ∧ w.hold ≤ rtMutexHoldMax
  taken : w.taken o = w.hold
  others : ∀ t, t ≠ o → w.taken t = 0 ∧ w.priority t = base t
  outside : o ∉ w.suspendThread
  original : w.originalPriority = base o
  raised : w.priority o ≤ base o
  sorted : w.suspendThread.Pairwise fun a b => base a ≤ base b
  inherits : ∀ t ∈ w.suspendThread, w.priority o ≤ base t
  nodup : w.suspendThread.Nodup

section Steps
variable {base : Tid → Nat} {w : MutexWorld} {o t : Tid}

theorem MutexFree.take (h : MutexFree base w) (wait : Bool) :
    MutexHeld base (rtMutexTake w t wait) t := by
  have howner : w.owner ≠ some t := by
    rw [h.owner]
    exact (Option.some_ne_none t).symm
  have hvalue : w.value > 0 := by
    rw [h.value]
    decide
  have hhold : w.hold < rtMutexHoldMax := by
    rw [h.hold]
    decide
  rw [rtMutexTake, if_neg howner, if_pos hvalue]
  dsimp only
  rw [if_pos hhold, h.value, h.hold, h.priority, h.waiters]
  refine ⟨h.flag, rfl, rfl, ⟨Nat.one_pos, (by decide : 1 ≤ rtMutexHoldMax)⟩, ?_,
    fun u hu => ⟨?_, rfl⟩,
    List.not_mem_nil, rfl, Nat.le_refl _, List.Pairwise.nil, fun u hu => absurd hu List.not_mem_nil,
    List.nodup_nil⟩
  · dsimp only
    rw [Function.update_self, h.taken]
  · dsimp only
    rw [Function.update_of_ne hu, h.taken]

theorem MutexHeld.inherit (h : MutexHeld base w o) (ht : t ≠ o) :
    ∃ p, (if w.priority t < w.priority o then Function.update w.priority o (w.priority t)
      else w.priority) =
        Function.update w.priority o p ∧ p ≤ w.priority o ∧ p ≤ base t := by
  have hbase := (h.others t ht).2
  split
  · next hlt => exact ⟨w.priority t, rfl, Nat.le_of_lt hlt, Nat.le_of_eq hbase⟩
  · next hlt =>
      exact ⟨w.priority o, (Function.update_eq_self o w.priority).symm, Nat.le_refl _, by omega⟩

/-- Another thread waits: the owner inherits its priority, and the list keeps its order. -/
theorem MutexHeld.wait (h : MutexHeld base w o) (ht : t ≠ o) (hnew : t ∉ w.suspendThread)
    (wait : Bool) :
    MutexHeld base (rtMutexTake w t wait) o := by
  have howner : w.owner ≠ some t := by
    rw [h.owner]
    exact fun he => ht (Option.some.inj he).symm
  have hvalue : ¬ w.value > 0 := by
    rw [h.value]
    decide
  rw [rtMutexTake, if_neg howner, if_neg hvalue]
  cases wait with
  | false => exact h
  | true =>
    obtain ⟨p, hp, hle, hbase⟩ := h.inherit ht
    have hraised := h.raised
    rw [if_pos rfl, h.owner, h.flag]
    dsimp only
    rw [hp]
    -- seen from the threads of the list, the priorities are the base ones
    have hothers : ∀ u, u ≠ o → Function.update w.priority o p u = base u := by
      intro u hu
      rw [Function.update_of_ne hu]
      exact (h.others u hu).2
    have hlist : ∀ ys, (∀ u ∈ ys, u ≠ o) →
        ipcListSuspend (givesWay .prio (Function.update w.priority o p)) t ys =
          ipcListSuspend (givesWay .prio base) t ys := by
      intro ys hys
      induction ys with
      | nil => rfl
      | cons y ys ih =>
        obtain ⟨hy, hys'⟩ := List.forall_mem_cons.mp hys
        have hsame :
            givesWay .prio (Function.update w.priority o p) t y = givesWay .prio base t y := by
          rw [givesWay, givesWay, hothers t ht, hothers y hy]
        rw [ipcListSuspend, ipcListSuspend, hsame, ih hys']
    rw [hlist w.suspendThread fun u hu he => h.outside (he ▸ hu)]
    refine ⟨rfl, rfl, h.value, h.hold, h.taken, fun u hu => ⟨(h.others u hu).1, hothers u hu⟩, ?_,
      h.original, ?_, ipcListSuspend_sorted h.sorted, fun u hu => ?_, ?_⟩
    · rw [mem_ipcListSuspend]
      rintro (he | hm)
      · exact ht he.symm
      · exact h.outside hm
    · dsimp only
      rw [Function.update_self]
      omega
    · dsimp only
      rw [Function.update_self]
      rcases (mem_ipcListSuspend _ _).mp hu with rfl | hm
      · exact hbase
      · exact Nat.le_trans hle (h.inherits u hm)
    · exact (ipcListSuspend_perm _ t w.suspendThread).nodup_iff.mpr
        (List.nodup_cons.mpr ⟨hnew, h.nodup⟩)

theorem MutexHeld.timeout (h : MutexHeld base w o) (t : Tid) :
    MutexHeld base { w with suspendThread := w.suspendThread.erase t } o where
  flag := h.flag
  owner := h.owner
  value := h.value
  hold := h.hold
  taken := h.taken
  others := h.others
  outside hm := h.outside (List.mem_of_mem_erase hm)
  original := h.original
  raised := h.raised
  sorted := h.sorted.sublist List.erase_sublist
  inherits u hu := h.inherits u (List.mem_of_mem_erase hu)
  nodup := h.nodup.erase t

end Steps

end Rk3576.Ipc
