import Mathlib.Data.List.Perm.Basic

/-! Threads and the lists of suspended threads that the blocking objects of `ipc.c` share. -/
namespace Rk3576.Ipc

abbrev Tid := Nat

inductive IpcFlag where
  | fifo
  | prio
  deriving DecidableEq

/-- `_ipc_list_suspend`: behind the threads of the list that do not give way. -/
def ipcListSuspend {β : Type} (before : β → β → Bool) (x : β) : List β → List β
  | [] => [x]
  | y :: ys => if before x y then x :: y :: ys else y :: ipcListSuspend before x ys

/-- Who gives way: nobody, or the threads of a lower priority, which is a greater number. -/
def givesWay (flag : IpcFlag) (priority : Tid → Nat) (t s : Tid) : Bool :=
  match flag with
  | .fifo => false
  | .prio => decide (priority t < priority s)

variable {β : Type} (before : β → β → Bool) (x : β)

theorem ipcListSuspend_perm (ys : List β) : (ipcListSuspend before x ys).Perm (x :: ys) := by
  induction ys with
  | nil => exact List.Perm.refl _
  | cons y ys ih =>
    rw [ipcListSuspend]
    split
    · exact List.Perm.refl _
    · exact (ih.cons y).trans (List.Perm.swap x y ys)

theorem mem_ipcListSuspend {ys : List β} {z : β} :
    z ∈ ipcListSuspend before x ys ↔ z = x ∨ z ∈ ys := by
  rw [(ipcListSuspend_perm before x ys).mem_iff, List.mem_cons]

theorem ipcListSuspend_sorted {priority : Tid → Nat} {t : Tid} {ys : List Tid}
    (h : ys.Pairwise fun a b => priority a ≤ priority b) :
    (ipcListSuspend (givesWay .prio priority) t ys).Pairwise fun a b => priority a ≤
      priority b := by
  induction ys with
  | nil => exact List.pairwise_singleton _ _
  | cons y ys ih =>
    obtain ⟨hy, hys⟩ := List.pairwise_cons.mp h
    rw [ipcListSuspend]
    split
    · next hlt =>
      have hty : priority t < priority y := of_decide_eq_true hlt
      refine List.pairwise_cons.mpr ⟨fun z hz => ?_, h⟩
      rcases List.mem_cons.mp hz with rfl | hz'
      · exact Nat.le_of_lt hty
      · exact Nat.le_trans (Nat.le_of_lt hty) (hy z hz')
    · next hlt =>
      have hyt : priority y ≤ priority t := Nat.le_of_not_lt fun hlt' => hlt (decide_eq_true hlt')
      refine List.pairwise_cons.mpr ⟨fun z hz => ?_, ih hys⟩
      rcases (mem_ipcListSuspend _ _).mp hz with rfl | hz'
      · exact hyt
      · exact hy z hz'

end Rk3576.Ipc
